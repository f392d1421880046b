import Eecs343.TinyShell.Interpreter.Cuts

namespace Eecs343.TinyShell.Interpreter

open Bytes

variable {m m' m₁ : Memory} {c cmdLine x : Int} {fuel sz i j left n : Nat} {l l' : Text} {q : Quotes} {bg : Bool}

/-- Every command before a `|` that separates tasks is contained, or what stands behind the first
    that is not is settled. -/
def Steady (m : Memory) (cmdLine : Int) : (left i j : Nat) → Quotes → Prop
  | 0, _, _, _ => True
  | left + 1, i, j, q =>
    let q := q.next (m (cmdLine + i))
    if m (cmdLine + i) = bar ∧ q.outside then
      Settled (bytes m (cmdLine + i + 1) left) ∨ Contained m (cmdLine + i - j) j ∧ Steady m cmdLine left (i + 1) 0 q
    else Steady m cmdLine left (i + 1) (j + 1) q

instance Steady.decidable (m : Memory) (cmdLine : Int) : ∀ left i j q, Decidable (Steady m cmdLine left i j q)
  | 0, _, _, _ => isTrue trivial
  | left + 1, _, _, _ =>
    have := decidable m cmdLine left
    inferInstanceAs (Decidable (ite _ _ _))

theorem segment_new (cmdLine : Int) (i : Nat) :
    cmdLine + (i + 1 : Nat) - (([] : Text).length : Nat) = cmdLine + i + 1 := by
  rw [List.length_nil]
  omega

theorem segment_longer (cmdLine : Int) (i : Nat) (seg : Text) (y : BitVec 8) :
    cmdLine + (i + 1 : Nat) - ((seg ++ [y]).length : Nat) = cmdLine + i - seg.length := by
  rw [List.length_append, List.length_singleton]
  omega

/-- The second pass makes one command more than there are separators left, where the text it has not
    reached is as it was in `m`, and steady there. -/
theorem parseTasks_length {seg rest : Text} {commands : List Command}
    (ran : parseTasks fuel cmdLine bg rest.length m₁ i seg.length q = some commands)
    (holds : Holds m (cmdLine + i - seg.length) (seg ++ rest)) (proper : nul ∉ seg ++ rest) (enough : (seg ++ rest).length < fuel)
    (same : ∀ x, cmdLine + i - seg.length ≤ x → m₁ x = m x)
    (edge : m₁ (cmdLine + i - seg.length - 1) = space ↔ m (cmdLine + i - seg.length - 1) = space)
    (steady : Steady m cmdLine rest.length i seg.length q) :
    commands.length = countTasks rest q 0 + 1 := by
  induction rest generalizing m₁ i seg q commands with
  | nil => exact parseTasks_zero ran
  | cons x rest ih =>
    obtain ⟨before, here, after⟩ := holds_append.mp holds
    rw [Int.sub_add_cancel] at here after
    have here₁ : m₁ (cmdLine + i) = x := (same _ (by omega)).trans here
    rw [countTasks]
    rw [List.length_cons, Steady, here] at steady
    rw [List.length_cons] at ran
    simp only [List.length_append, List.length_cons] at enough
    have proper_seg : nul ∉ seg := fun member => proper (List.mem_append_left _ member)
    have proper_rest : nul ∉ rest := fun member => proper (List.mem_append_right _ (List.mem_cons_of_mem _ member))
    by_cases separates : x = bar ∧ (q.next x).outside
    · rw [if_pos separates] at steady
      rw [parseTasks_bar (by rwa [here₁]), here₁] at ran
      obtain ⟨⟨command, m₂⟩, parsed, ran⟩ := Option.bind_eq_some_iff.mp ran
      obtain ⟨others, later, made⟩ := Option.bind_eq_some_iff.mp ran
      cases made
      rw [if_pos separates, countTasks_add, List.length_cons]
      congr 1
      rcases steady with settled | ⟨contained, steady⟩
      · rw [bytes_of_holds after] at settled
        apply parseTasks_settled later _ settled fun _ => separates.2
        have from_ : CutFrom m₁ (cmdLine + i + 1) rest := .of_holds (after.congr fun y low _ => same y (by omega))
        rw [Nat.cast_add, Nat.cast_one, ← Int.add_assoc]
        exact from_.cut fun y far => parserSingle_cut parsed (by omega)
      · have inner : Contained m₁ (cmdLine + i - seg.length) seg.length :=
          contained.congr (fun y low _ => same y low) edge
        have before₁ : Holds m₁ (cmdLine + i - seg.length) seg := before.congr fun y low _ => same y low
        obtain ⟨last, far⟩ := parserSingle_inside before₁ proper_seg (by omega) inner parsed
        rw [Int.sub_add_cancel] at last far
        have back := segment_new cmdLine i
        have later : parseTasks fuel cmdLine bg rest.length m₂ (i + 1) ([] : Text).length (q.next x) = some others := later
        apply ih later
        · rwa [back]
        · exact proper_rest
        · change rest.length < fuel
          omega
        · intro y low
          rw [back] at low
          rw [far y (by omega), same y (by omega)]
        · -- behind a command stands a NUL where there was a `|`
          rw [back, Int.add_sub_cancel, last, here, separates.1]
          decide
        · exact steady
    · rw [if_neg separates] at steady ⊢
      rw [parseTasks_other (by rwa [here₁]), here₁] at ran
      have longer : seg.length + 1 = (seg ++ [x]).length := by simp
      have back := segment_longer cmdLine i seg x
      rw [longer] at ran steady
      apply ih ran
      · rw [back]
        simpa using holds
      · simpa using proper
      · simp
        omega
      · rwa [back]
      · rwa [back]
      · exact steady

theorem Settled.mono (settled : Settled l) (fewer : l' ⊆ l) : Settled l' := by
  rcases settled with none | ⟨single, double⟩
  · exact .inl fun member => none (fewer member)
  · exact .inr ⟨fun member => single (fewer member), fun member => double (fewer member)⟩

theorem Steady.shorten (steady : Steady m cmdLine (l ++ l').length i j q) (holds : Holds m (cmdLine + i) (l ++ l'))
    (same : ∀ x, x < cmdLine + i + l.length → m' x = m x) : Steady m' cmdLine l.length i j q := by
  induction l generalizing i j q with
  | nil => trivial
  | cons y l ih =>
    have here : m (cmdLine + i) = y := holds.1
    have after : Holds m (cmdLine + i + 1) (l ++ l') := holds.2
    have place : cmdLine + (i : Int) + 1 = cmdLine + (i + 1 : Nat) := by omega
    simp only [List.length_cons, Nat.cast_add, Nat.cast_one] at same
    have here' : m' (cmdLine + i) = y := (same _ (by omega)).trans here
    have next : ∀ {j q}, Steady m cmdLine (l ++ l').length (i + 1) j q → Steady m' cmdLine l.length (i + 1) j q := by
      intro j q steady
      exact ih steady (place ▸ after) fun x low => same x (by omega)
    rw [List.cons_append, List.length_cons, Steady, here] at steady
    rw [List.length_cons, Steady, here']
    by_cases separates : y = bar ∧ (q.next y).outside
    · rw [if_pos separates] at steady ⊢
      rcases steady with settled | ⟨contained, steady⟩
      · left
        rw [bytes_of_holds after] at settled
        have kept : Holds m' (cmdLine + i + 1) l := (holds_append.mp after).1.congr fun x _ high => same x (by omega)
        rw [bytes_of_holds kept]
        exact settled.mono fun x member => List.mem_append_left _ member
      · right
        refine ⟨contained.congr ?_ ?_, next steady⟩
        · intro x _ high
          exact same x (by omega)
        · rw [same _ (by omega)]
    · rw [if_neg separates] at steady ⊢
      exact next steady

theorem trim_cases (holds : Holds m cmdLine l) : trim m cmdLine l.length = -1 ∧ (∀ x ∈ l, x = space) ∨
    ∃ front x n, l = front ++ x :: List.replicate n space ∧ x ≠ space ∧ trim m cmdLine l.length = front.length := by
  induction l using List.reverseRecOn with
  | nil => exact .inl ⟨rfl, nofun⟩
  | append_singleton l x ih =>
    obtain ⟨before, here, -⟩ := holds_append.mp holds
    rw [List.length_append, List.length_singleton, trim, here]
    by_cases solid : x = space
    · rw [if_pos solid]
      rcases ih before with ⟨none, spaces⟩ | ⟨front, y, n, split, other, found⟩
      · refine .inl ⟨none, ?_⟩
        intro y member
        rcases List.mem_append.mp member with member | member
        · exact spaces y member
        · exact (List.mem_singleton.mp member).trans solid
      · refine .inr ⟨front, y, n + 1, ?_, other, found⟩
        rw [split, solid, List.replicate_succ']
        simp
    · rw [if_neg solid]
      exact .inr ⟨l, x, 0, rfl, solid, rfl⟩

theorem interpret_eq (m : Memory) (p : Int) : interpret fuel m p =
    if m p = nul then some .nothing else (text m fuel p).bind fun line =>
      let i := trim m p line.length
      if m (p + i) = ampersand then
        if i = 0 then some .nothing
        else (text (put m (p + i) nul) fuel p).bind fun rest =>
          (parseTasks fuel p true rest.length (put m (p + i) nul) 0 0 ⟨false, false⟩).bind fun commands =>
            some (.runCmd (countTasks line ⟨false, false⟩ 1) commands)
      else (parseTasks fuel p false line.length m 0 0 ⟨false, false⟩).bind fun commands =>
        some (.runCmd (countTasks line ⟨false, false⟩ 1) commands) := rfl

theorem one_task {rest : Text} {commands : List Command}
    (ran : parseTasks fuel cmdLine bg rest.length m 0 0 ⟨false, false⟩ = some commands)
    (holds : Holds m cmdLine rest) (blank : ∀ x ∈ rest, x = space) : commands.length = countTasks rest ⟨false, false⟩ 1 := by
  have none : bar ∉ rest := fun member => absurd (blank bar member) (by decide)
  rw [countTasks_no_bar none]
  exact parseTasks_no_bar ran (by simpa using CutFrom.of_holds holds) none

theorem text_length_lt (read : text m fuel c = some l) : l.length < fuel := by
  induction fuel generalizing c l with
  | zero => cases read
  | succ fuel ih =>
    rw [text] at read
    split at read
    · cases read
      exact Nat.zero_lt_succ _
    · obtain ⟨rest, found, rfl⟩ := Option.map_eq_some_iff.mp read
      exact Nat.succ_lt_succ (ih found)

theorem parseTasks_steady {line : Text} {commands : List Command} (string : IsString m cmdLine line)
    (enough : line.length < fuel)
    (steady : Steady m cmdLine line.length 0 0 ⟨false, false⟩)
    (ran : parseTasks fuel cmdLine bg line.length m 0 0 ⟨false, false⟩ = some commands) :
    commands.length = countTasks line ⟨false, false⟩ 1 := by
  rw [countTasks_add]
  have ran : parseTasks fuel cmdLine bg line.length m 0 ([] : Text).length ⟨false, false⟩ = some commands := ran
  apply parseTasks_length (m := m) ran
  · simpa using string.holds
  · exact string.proper
  · exact enough
  · exact fun _ _ => rfl
  · exact Iff.rfl
  · exact steady

/-- The two passes agree on a steady line. -/
theorem passes_agree {line : Text} {task : Nat} {commands : List Command} (read : text m fuel cmdLine = some line)
    (steady : Steady m cmdLine line.length 0 0 ⟨false, false⟩) (ran : interpret fuel m cmdLine = some (.runCmd task commands)) :
    commands.length = task := by
  have string := string_of_text read
  have enough := text_length_lt read
  rw [interpret_eq, read] at ran
  split at ran
  · cases ran
  rw [Option.bind_some] at ran
  dsimp only at ran
  -- the line has spaces only, or a last character with spaces behind it, where an `&` is cut off
  rcases trim_cases string.holds with ⟨none, blank⟩ | ⟨front, x, n, split, -, found⟩
  · rw [none] at ran
    split at ran
    · -- the `&` stands before the line, which is not changed
      rw [if_neg (by decide)] at ran
      obtain ⟨rest, reread, ran⟩ := Option.bind_eq_some_iff.mp ran
      obtain ⟨made, parsed, same⟩ := Option.bind_eq_some_iff.mp ran
      cases same
      have kept : IsString (put m (cmdLine + -1) nul) cmdLine line := by
        refine ⟨string.holds.put_outside (.inl (by omega)), ?_, string.proper⟩
        rw [put_of_ne (by omega)]
        exact string.ended
      rw [(string_of_text reread).unique kept] at parsed
      exact one_task parsed kept.holds blank
    · obtain ⟨made, parsed, same⟩ := Option.bind_eq_some_iff.mp ran
      cases same
      exact one_task parsed string.holds blank
  · rw [found] at ran
    split at ran
    next final =>
      split at ran
      · cases ran
      · obtain ⟨rest, reread, ran⟩ := Option.bind_eq_some_iff.mp ran
        obtain ⟨made, parsed, same⟩ := Option.bind_eq_some_iff.mp ran
        cases same
        have holds := string.holds
        rw [split] at holds
        have last : x = ampersand := (holds_append.mp holds).2.1.symm.trans final
        have cut : IsString (put m (cmdLine + front.length) nul) cmdLine front := by
          refine ⟨(holds_append.mp holds).1.put_outside (.inr (Int.le_refl _)), put_at, fun member => string.proper ?_⟩
          rw [split]
          exact List.mem_append_left _ member
        rw [(string_of_text reread).unique cut] at parsed
        rw [split, List.length_append] at enough
        have shorter : Steady (put m (cmdLine + front.length) nul) cmdLine front.length 0 0 ⟨false, false⟩ := by
          rw [split] at steady
          exact steady.shorten (by simpa using holds) fun y low => put_of_ne (by omega)
        -- the first pass has counted in what is cut off as well, where no `|` stands
        rw [parseTasks_steady cut (by omega) shorter parsed, split, countTasks_append, countTasks_no_bar (l := x :: _)]
        rw [last, List.mem_cons, not_or]
        exact ⟨by decide, fun member => absurd (List.eq_of_mem_replicate member) (by decide)⟩
    next =>
      obtain ⟨made, parsed, same⟩ := Option.bind_eq_some_iff.mp ran
      cases same
      exact parseTasks_steady string enough steady parsed

/-- The line `a 'x|y' < f | b "c"`. -/
def pipedLine : Text :=
  [97, 32, 39, 120, 124, 121, 39, 32, 60, 32, 102, 32, 124, 32, 98, 32, 34, 99, 34]

theorem passes_agree_piped :
    ∃ commands, interpret 100 (written pipedLine) 0 = some (.runCmd 2 commands) ∧ commands.length = 2 := by
  have ran : interpret 100 (written pipedLine) 0 = some (.runCmd 2
      [⟨pipedLine.take 12, some [102], none, false, 2, [[97], [120, 124, 121]]⟩,
        ⟨pipedLine.drop 14, none, none, false, 2, [[98], [99]]⟩]) := by
    decide +kernel
  exact ⟨_, ran, passes_agree (text_of_string (written_string (by decide)) (by decide)) (by decide +kernel) ran⟩

/-- The line `a <| 'b' 'c|d|e'`. -/
def driftingLine : Text :=
  [97, 32, 60, 124, 32, 39, 98, 39, 32, 39, 99, 124, 100, 124, 101, 39]

/-- The empty target of `<` makes the scan take `b` for it and cut the quote behind `b`. -/
theorem passes_drift : ∃ commands, interpret 100 (written driftingLine) 0 = some (.runCmd 2 commands) ∧ commands.length = 4 :=
  ⟨[⟨[97, 32, 60], some [98], none, false, 1, [[97]]⟩, ⟨[39, 98], none, none, false, 1, [[98]]⟩,
    ⟨[100], none, none, false, 1, [[100]]⟩, ⟨[101, 39], none, none, false, 1, [[101, 39]]⟩], by decide +kernel, rfl⟩

end Eecs343.TinyShell.Interpreter
