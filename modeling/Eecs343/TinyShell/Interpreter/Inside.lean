import Eecs343.TinyShell.Interpreter.Pipes

namespace Eecs343.TinyShell.Interpreter

open Bytes

variable {w : Window} {m m' m₁ : Memory} {c cmdLine : Int} {x : BitVec 8} {fuel sz i j left n : Nat} {l line : Text}
    {q : Quotes} {k : Count} {bg : Bool}

theorem countArgs_cmdLength (m : Memory) (c : Int) (sz : Nat) :
    (countArgs m c sz).cmdLength = (countLoop m c sz sz 0 ⟨sz, 0, ⟨false, false⟩, none, none⟩).cmdLength := by
  unfold countArgs
  dsimp only
  split <;> rfl

section Loops

variable (low : w.low ≤ c) (high : c + sz ≤ w.high)

include low high

theorem leadingIn_eq : leadingIn w m c sz = some (leading m c sz) := by
  induction sz generalizing c with
  | zero => rfl
  | succ sz ih =>
    rw [leadingIn, Window.peek_inside ⟨low, by omega⟩, Option.bind_some, leading, ih (by omega) (by omega)]
    split <;> rfl

theorem skipSpacesIn_eq : skipSpacesIn w m c sz fuel i = some (skipSpaces m c sz fuel i) := by
  induction fuel generalizing i with
  | zero => rfl
  | succ fuel ih =>
    rw [skipSpacesIn, skipSpaces]
    by_cases more : i + 1 < sz
    · rw [if_pos more, Window.peek_inside ⟨by omega, by omega⟩, Option.bind_some, ih]
      simp only [more, true_and]
      split <;> rfl
    · rw [if_neg more, if_neg fun both => more both.1]

theorem lessStepIn_eq {s : Nat × Count} (inside : s.1 < sz) : lessStepIn w m c sz s = some (lessStep m c sz s) := by
  rw [lessStepIn, Window.peek_inside ⟨by omega, by omega⟩, Option.bind_some, skipSpacesIn_eq low high, lessStep]
  split <;> rfl

theorem greaterStepIn_eq {s : Nat × Count} (inside : s.1 < sz) :
    greaterStepIn w m c sz s = some (greaterStep m c sz s) := by
  rw [greaterStepIn, Window.peek_inside ⟨by omega, by omega⟩, Option.bind_some, skipSpacesIn_eq low high, greaterStep]
  split <;> rfl

theorem spaceStepIn_eq {s : Nat × Count} (inside : s.1 < sz) : spaceStepIn w m c sz s = some (spaceStep m c sz s) := by
  rw [spaceStepIn, Window.peek_inside ⟨by omega, by omega⟩, Option.bind_some, skipSpacesIn_eq low high, spaceStep]
  split <;> rfl

theorem countStepIn_eq (inside : i < sz) : countStepIn w m c sz i k = some (countStep m c sz i k) := by
  have first : (lessStep m c sz (i, { k with quotes := k.quotes.next (m (c + i)) })).1 < sz := lessStep_lt inside
  rw [countStepIn, Window.peek_inside ⟨by omega, by omega⟩]
  simp only [Option.bind_eq_bind, Option.bind_some, lessStepIn_eq low high (s := (i, _)) inside,
    greaterStepIn_eq low high first,
    spaceStepIn_eq low high (greaterStep_lt first)]
  rfl

theorem countLoopIn_eq : countLoopIn w m c sz fuel i k = some (countLoop m c sz fuel i k) := by
  induction fuel generalizing i k with
  | zero => rfl
  | succ fuel ih =>
    rw [countLoopIn, countLoop_succ]
    by_cases inside : i < sz
    · rw [if_pos inside, if_pos inside, countStepIn_eq low high inside, Option.bind_some, ih]
    · rw [if_neg inside, if_neg inside]

/-- The loop stays inside; the look at the character before the end of the words does so if there is one. -/
theorem countArgsIn_eq : countArgsIn w m c sz =
    if w.Has (c + (countArgs m c sz).cmdLength - 1) then some (countArgs m c sz) else none := by
  rw [countArgsIn, countLoopIn_eq low high, countArgs_cmdLength]
  simp only [Option.bind_eq_bind, Option.bind_some, Window.peek]
  split
  · rfl
  · rfl

end Loops

/-- Where the words of a command end, which `parser_single` looks in front of. -/
def wordsEnd (m : Memory) (c : Int) (sz : Nat) : Int :=
  c + leading m c sz + (countArgs m (c + leading m c sz) (sz - leading m c sz)).cmdLength

theorem wordsEnd_le (m : Memory) (c : Int) (sz : Nat) : c ≤ wordsEnd m c sz := by
  rw [wordsEnd]
  omega

theorem parserSingleIn_eq (w : Window) (m : Memory) (c : Int) (sz : Nat) (bg : Bool) : parserSingleIn w fuel m c sz bg =
    (w.poke m (c + sz) nul).bind fun m => (leadingIn w m c sz).bind fun i => (countArgsIn w m (c + i) (sz - i)).bind fun k =>
      (textIn w m fuel (c + i)).bind fun cmdline => (readArgsIn w (c + sz) fuel k.taskArgc m (c + i)).bind fun args =>
      (readTargetIn w (c + sz) fuel args.2 k.input).bind fun input =>
        (readTargetIn w (c + sz) fuel input.2 k.out).bind fun out =>
        some (⟨cmdline, input.1, out.1, bg, k.taskArgc, args.1⟩, out.2) := rfl

theorem Contained.congr_iff (same : ∀ x, c ≤ x → x < c + sz → m' x = m x)
    (edge : m' (c - 1) = space ↔ m (c - 1) = space) :
    Contained m' c sz ↔ Contained m c sz :=
  ⟨fun contained => contained.congr (fun x low high => (same x low high).symm) edge.symm,
    fun contained => contained.congr same edge⟩

/-- `parser_single` stays inside exactly if its command is contained, and the character before the end of its words
    belongs to the line. -/
theorem parserSingleIn_cases (holds : Holds m c l) (proper : nul ∉ l) (enough : l.length < fuel) (low : w.low ≤ c)
    (high : c + l.length ≤ w.high) (bg : Bool) :
    (w.low < wordsEnd m c l.length ∧ Contained m c l.length ∧
      ∃ r, parserSingleIn w fuel m c l.length bg = some r ∧ parserSingle fuel m c l.length bg = some r) ∨
    ¬ (w.low < wordsEnd m c l.length ∧ Contained m c l.length) ∧ parserSingleIn w fuel m c l.length bg = none := by
  have last : put m (c + l.length) nul (c + l.length) = nul := put_at
  have same : ∀ x, c ≤ x → x < c + l.length → put m (c + l.length) nul x = m x := fun x low high => put_of_ne (by omega)
  have edge : put m (c + l.length) nul (c - 1) = space ↔ m (c - 1) = space := by rw [put_of_ne (by omega)]
  have ends : wordsEnd m c l.length = wordsEnd (put m (c + l.length) nul) c l.length := by
    have counted := countArgs_inner_congr same edge
    rw [wordsEnd, wordsEnd, leading_congr same, counted]
  have poked : w.poke m (c + l.length) nul = some (put m (c + l.length) nul) := Window.poke_inside ⟨by omega, high⟩
  rw [← Contained.congr_iff same edge, ends, parserSingleIn_eq, poked, parserSingle_eq, Option.bind_some]
  have holds := holds.put_outside (x := c + l.length) (c := nul) (.inr (Int.le_refl _))
  generalize put m (c + l.length) nul = m₁ at *
  rw [leadingIn_eq low high, Option.bind_some]
  unfold wordsEnd Contained
  dsimp only
  have bound := leading_le m₁ c l.length
  generalize leading m₁ c l.length = lead at *
  have inner := holds.drop bound
  have length : (l.drop lead).length = l.length - lead := List.length_drop
  have behind : c + lead + ((l.drop lead).length : Nat) = c + l.length := by omega
  rw [countArgsIn_eq (by omega) (by omega), ← length, bytes_of_holds inner]
  have placed := countArgs_placed m₁ (c + lead) (l.drop lead).length
  generalize countArgs m₁ (c + lead) (l.drop lead).length = k at *
  have within := placed.cmdLength
  by_cases looks : w.low < c + lead + k.cmdLength
  · have string : IsString m₁ (c + lead) (l.drop lead) :=
      ⟨inner, behind ▸ last, fun member => proper (List.mem_of_mem_drop member)⟩
    have short : (l.drop lead).length < fuel := by omega
    have walks := readsIn_cut (w := w) inner string.ended short string.proper (by omega) (by omega) k.taskArgc
      (k.input.map fun p => (p - (c + lead)).toNat) (k.out.map fun p => (p - (c + lead)).toNat)
    rw [place_target placed.input, place_target placed.out, behind] at walks
    rw [if_pos ⟨by omega, by omega⟩, Option.bind_some, text_in_window string (by omega) (by omega) (by omega),
      text_of_string string (by omega),
      Option.bind_some, Option.bind_some]
    cases found : (cutArgs k.taskArgc 0 (l.drop lead)).bind fun l =>
      (cutTarget (k.input.map fun p => (p - (c + lead)).toNat) l).bind
        (cutTarget (k.out.map fun p => (p - (c + lead)).toNat)) with
    | none =>
      rw [found] at walks
      right
      -- one of the walks over words and targets leaves the command
      refine ⟨fun both => Bool.false_ne_true both.2, ?_⟩
      cases readIn : readArgsIn w (c + l.length) fuel k.taskArgc m₁ (c + lead) with
      | none => rfl
      | some args =>
        cases sourceIn : readTargetIn w (c + l.length) fuel args.2 k.input with
        | none => simp [sourceIn]
        | some source =>
          cases targetIn : readTargetIn w (c + l.length) fuel source.2 k.out with
          | none => simp [sourceIn, targetIn]
          | some target => exact (walks args source target readIn sourceIn targetIn).elim
    | some l' =>
      rw [found] at walks
      obtain ⟨args, source, target, ⟨argsIn, args'⟩, ⟨sourceIn, source'⟩, ⟨targetIn, target'⟩, -⟩ := walks
      left
      refine ⟨looks, rfl, ?_⟩
      rw [argsIn, args']
      simp only [Option.bind_some, sourceIn, source', targetIn, target']
      exact ⟨_, rfl, rfl⟩
  · right
    refine ⟨fun both => looks both.1, ?_⟩
    rw [if_neg fun has => looks (by have := has.1; omega)]
    rfl

theorem parserSingle_returns (holds : Holds m c l) (proper : nul ∉ l) (enough : l.length < fuel)
    (contained : Contained m c l.length) (bg : Bool) :
    ∃ r, parserSingle fuel m c l.length bg = some r := by
  have bound := wordsEnd_le m c l.length
  have parsed :=
    parserSingleIn_cases (w := ⟨c - 1, c + l.length⟩) holds proper enough (by dsimp only; omega) (Int.le_refl _) bg
  rcases parsed with ⟨-, -, r, -, parsed⟩ | ⟨fails, -⟩
  · exact ⟨r, parsed⟩
  · exact absurd ⟨by dsimp only; omega, contained⟩ fails

theorem trimIn_eq {length : Nat} (low : w.low ≤ cmdLine) (high : cmdLine + length ≤ w.high + 1) :
    trimIn w m cmdLine length = some (trim m cmdLine length) := by
  induction length with
  | zero => rfl
  | succ length ih =>
    rw [trimIn, Window.peek_inside ⟨by omega, by omega⟩, Option.bind_some, ih (by omega), trim]
    split <;> rfl

/-- Every command that the second loop of `Interpret` finds is `ok`, given where it starts and its length. -/
def EachTask (ok : Int → Nat → Prop) (m : Memory) (cmdLine : Int) : (left i j : Nat) → Quotes → Prop
  | 0, i, j, _ => ok (cmdLine + i - j) j
  | left + 1, i, j, q =>
    let q := q.next (m (cmdLine + i))
    if m (cmdLine + i) = bar ∧ q.outside then ok (cmdLine + i - j) j ∧ EachTask ok m cmdLine left (i + 1) 0 q
    else EachTask ok m cmdLine left (i + 1) (j + 1) q

instance EachTask.decidable (ok : Int → Nat → Prop) [∀ c sz, Decidable (ok c sz)] (m : Memory) (cmdLine : Int) :
    ∀ left i j q, Decidable (EachTask ok m cmdLine left i j q)
  | 0, _, _, _ => inferInstanceAs (Decidable (ok _ _))
  | left + 1, _, _, _ =>
    have := decidable ok m cmdLine left
    inferInstanceAs (Decidable (ite _ _ _))

/-- A command that `parser_single` can parse without a look outside the line. -/
def Fits (m : Memory) (cmdLine c : Int) (sz : Nat) : Prop := cmdLine < wordsEnd m c sz ∧ Contained m c sz

theorem Fits.congr (same : ∀ x, c ≤ x → x < c + sz → m' x = m x) (edge : m' (c - 1) = space ↔ m (c - 1) = space) :
    Fits m' cmdLine c sz ↔ Fits m cmdLine c sz := by
  have counted := countArgs_inner_congr same edge
  rw [Fits, Fits, Contained.congr_iff same edge, wordsEnd, wordsEnd, leading_congr same, counted]

theorem Fits.cases (holds : Holds m c l) (proper : nul ∉ l) (enough : l.length < fuel) (start : w.low = cmdLine)
    (low : cmdLine ≤ c) (high : c + l.length ≤ w.high) (same : ∀ x, c ≤ x → x < c + l.length → m₁ x = m x)
    (edge : m₁ (c - 1) = space ↔ m (c - 1) = space) (bg : Bool) :
    (Fits m cmdLine c l.length ∧
      ∃ r, parserSingleIn w fuel m₁ c l.length bg = some r ∧ parserSingle fuel m₁ c l.length bg = some r) ∨
    ¬ Fits m cmdLine c l.length ∧ parserSingleIn w fuel m₁ c l.length bg = none := by
  rw [← Fits.congr same edge, ← start, Fits, and_assoc]
  exact parserSingleIn_cases (holds.congr same) proper enough (by omega) high bg

theorem parseTasksIn_bar (separates : m (cmdLine + i) = bar ∧ (q.next (m (cmdLine + i))).outside)
    (inside : w.Has (cmdLine + i)) :
    parseTasksIn w fuel cmdLine bg (left + 1) m i j q = (parserSingleIn w fuel m (cmdLine + i - j) j bg).bind fun r =>
      (parseTasksIn w fuel cmdLine bg left r.2 (i + 1) 0 (q.next (m (cmdLine + i)))).bind fun commands =>
        some (r.1 :: commands) := by
  rw [parseTasksIn, Window.peek_inside inside]
  simp only [Option.bind_eq_bind, Option.bind_some]
  rw [if_pos separates]
  rfl

theorem parseTasksIn_other (other : ¬ (m (cmdLine + i) = bar ∧ (q.next (m (cmdLine + i))).outside))
    (inside : w.Has (cmdLine + i)) :
    parseTasksIn w fuel cmdLine bg (left + 1) m i j q =
      parseTasksIn w fuel cmdLine bg left m (i + 1) (j + 1) (q.next (m (cmdLine + i))) := by
  rw [parseTasksIn, Window.peek_inside inside]
  simp only [Option.bind_eq_bind, Option.bind_some]
  rw [if_neg other]

theorem bind_cases {α β : Type} {P : Prop} {a b : Option α} (made : (P ∧ ∃ x, a = some x ∧ b = some x) ∨ ¬ P ∧ a = none)
    (f : α → β) : (P ∧ ∃ y, (a.bind fun x => some (f x)) = some y ∧ (b.bind fun x => some (f x)) = some y) ∨
      ¬ P ∧ (a.bind fun x => some (f x)) = none := by
  rcases made with ⟨held, x, rfl, rfl⟩ | ⟨fails, rfl⟩
  · exact .inl ⟨held, f x, rfl, rfl⟩
  · exact .inr ⟨fails, rfl⟩

/-- The second loop stays inside exactly if every command fits, where the text it has not reached is as it was in `m`. -/
theorem parseTasksIn_cases {seg rest : Text} (holds : Holds m (cmdLine + i - seg.length) (seg ++ rest))
    (proper : nul ∉ seg ++ rest) (enough : (seg ++ rest).length < fuel) (low : cmdLine ≤ cmdLine + i - seg.length)
    (high : cmdLine + i + rest.length ≤ w.high) (start : w.low = cmdLine)
    (same : ∀ x, cmdLine + i - seg.length ≤ x → x < cmdLine + i + rest.length → m₁ x = m x)
    (edge : m₁ (cmdLine + i - seg.length - 1) = space ↔ m (cmdLine + i - seg.length - 1) = space) (bg : Bool) :
    (EachTask (Fits m cmdLine) m cmdLine rest.length i seg.length q ∧
      ∃ commands, parseTasksIn w fuel cmdLine bg rest.length m₁ i seg.length q = some commands ∧
        parseTasks fuel cmdLine bg rest.length m₁ i seg.length q = some commands) ∨
    ¬ EachTask (Fits m cmdLine) m cmdLine rest.length i seg.length q ∧
      parseTasksIn w fuel cmdLine bg rest.length m₁ i seg.length q = none := by
  induction rest generalizing m₁ i seg q with
  | nil =>
    rw [List.append_nil] at holds proper enough
    rw [List.length_nil, Nat.cast_zero, Int.add_zero] at same high
    rw [List.length_nil, EachTask, parseTasksIn, parseTasks]
    have parsed := Fits.cases holds proper enough start low (by omega) (by simpa using same) edge bg
    exact bind_cases parsed fun r => [r.1]
  | cons x rest ih =>
    obtain ⟨before, here, after⟩ := holds_append.mp holds
    rw [Int.sub_add_cancel] at here after
    simp only [List.length_append, List.length_cons] at enough high same ⊢
    have here₁ : m₁ (cmdLine + i) = x := (same _ (by omega) (by omega)).trans here
    have proper_seg : nul ∉ seg := fun member => proper (List.mem_append_left _ member)
    have proper_rest : nul ∉ rest := fun member => proper (List.mem_append_right _ (List.mem_cons_of_mem _ member))
    have inside : w.Has (cmdLine + i) := ⟨by omega, by omega⟩
    rw [EachTask, here]
    by_cases separates : x = bar ∧ (q.next x).outside
    · rw [if_pos separates, parseTasksIn_bar (by rwa [here₁]) inside, parseTasks_bar (by rwa [here₁]), here₁]
      have short : seg.length < fuel := by omega
      have parsed :=
        Fits.cases before proper_seg short start low (by omega) (fun y low high => same y low (by omega)) edge bg
      rcases parsed with ⟨fits, ⟨command, m₂⟩, parsedIn, parsed⟩ | ⟨misfit, parsedIn⟩
      · have before₁ : Holds m₁ (cmdLine + i - seg.length) seg := before.congr fun y low high => same y low (by omega)
        have inner : Contained m₁ (cmdLine + i - seg.length) seg.length :=
          fits.2.congr (fun y low high => same y low (by omega)) edge
        obtain ⟨last, far⟩ := parserSingle_inside before₁ proper_seg (by omega) inner parsed
        rw [Int.sub_add_cancel] at last far
        have back := segment_new cmdLine i
        have unchanged : ∀ y, cmdLine + (i + 1 : Nat) - (([] : Text).length : Nat) ≤ y →
          y < cmdLine + (i + 1 : Nat) + rest.length → m₂ y = m y := by
          intro y low high
          rw [far y (by omega), same y (by omega) (by omega)]
        -- behind a command stands a NUL where there was a `|`
        have cut : m₂ (cmdLine + (i + 1 : Nat) - (([] : Text).length : Nat) - 1) = space ↔
            m (cmdLine + (i + 1 : Nat) - (([] : Text).length : Nat) - 1) = space := by
          rw [back, Int.add_sub_cancel, last, here, separates.1]
          decide
        have later := ih (q := q.next x) (by rwa [back]) proper_rest (by rw [List.nil_append]; omega) (by omega)
          (by omega) unchanged cut
        rw [parsedIn, parsed, Option.bind_some, Option.bind_some]
        rcases later with ⟨each, commands, laterIn, later⟩ | ⟨misfit, laterIn⟩
        · left
          refine ⟨⟨fits, each⟩, command :: commands, ?_, ?_⟩
          · exact congrArg (Option.bind · _) laterIn
          · exact congrArg (Option.bind · _) later
        · right
          exact ⟨fun both => misfit both.2, congrArg (Option.bind · _) laterIn⟩
      · rw [parsedIn]
        exact .inr ⟨fun both => misfit both.1, rfl⟩
    · rw [if_neg separates, parseTasksIn_other (by rwa [here₁]) inside, parseTasks_other (by rwa [here₁]), here₁]
      have longer : seg.length + 1 = (seg ++ [x]).length := by simp
      have back := segment_longer cmdLine i seg x
      rw [longer]
      apply ih
      · rw [back]
        simpa using holds
      · simpa using proper
      · simp
        omega
      · omega
      · omega
      · intro y low high
        exact same y (by omega) (by omega)
      · rwa [back]

/-- What `Interpret` splits into commands: the line, without a final `&`. A line that is only `&` has none. -/
def commandText (line : Text) : Option Text :=
  match line.reverse.dropWhile (· = space) with
  | [] => some line
  | x :: front => if x ≠ ampersand then some line else if front = [] then none else some front.reverse

/-- The line has more than spaces, it starts with no `|`, `<` or `>`, and every command in it has as many words as are
    counted and a word behind every `<` and `>`. -/
structure Orderly (m : Memory) (cmdLine : Int) (line : Text) : Prop where
  typed : ∃ x ∈ line, x ≠ space
  start : ∀ l, commandText line = some l → ∀ x ∈ l.head?, x ≠ bar ∧ x ≠ less ∧ x ≠ greater
  tasks : ∀ l, commandText line = some l → EachTask (Contained m) m cmdLine l.length 0 0 ⟨false, false⟩

theorem commandText_append {front : Text} {y : BitVec 8} (solid : y ≠ space) :
    commandText (front ++ y :: List.replicate n space) =
    if y ≠ ampersand then some (front ++ y :: List.replicate n space) else if front = [] then none else some front := by
  have spaces : (List.replicate n space).dropWhile (· = space) = [] := by simp
  have reversed : (front ++ y :: List.replicate n space).reverse = List.replicate n space ++ y :: front.reverse := by simp
  rw [commandText, reversed, List.dropWhile_append_of_pos (by simp), List.dropWhile_cons_of_neg (by simpa using solid)]
  simp

theorem interpretIn_eq (w : Window) (m : Memory) (p : Int) : interpretIn w fuel m p = (w.peek m p).bind fun first =>
    if first = nul then some .nothing else (textIn w m fuel p).bind fun line => (trimIn w m p line.length).bind fun i =>
      (w.peek m (p + i)).bind fun last =>
      if last = ampersand then
        if i = 0 then some .nothing
        else (w.poke m (p + i) nul).bind fun m => (textIn w m fuel p).bind fun rest =>
          (parseTasksIn w fuel p true rest.length m 0 0 ⟨false, false⟩).bind fun commands =>
            some (.runCmd (countTasks line ⟨false, false⟩ 1) commands)
      else (parseTasksIn w fuel p false line.length m 0 0 ⟨false, false⟩).bind fun commands =>
        some (.runCmd (countTasks line ⟨false, false⟩ 1) commands) := rfl

section FirstTask

variable {t : Nat × Count} (some : 0 < sz)

include some

theorem endWords_eq_zero (moved : 0 < i ∨ k.cmdLength = 0) : k.endWords sz i = 0 ↔ k.cmdLength = 0 := by
  unfold Count.endWords
  split <;> omega

theorem lessStep_cmdLength (moved : 0 < t.1 ∨ t.2.cmdLength = 0) :
    (lessStep m c sz t).2.cmdLength = 0 ↔ t.2.cmdLength = 0 := by
  unfold lessStep
  split
  · exact endWords_eq_zero some moved
  · rfl

theorem greaterStep_cmdLength (moved : 0 < t.1 ∨ t.2.cmdLength = 0) :
    (greaterStep m c sz t).2.cmdLength = 0 ↔ t.2.cmdLength = 0 := by
  unfold greaterStep
  split
  · exact endWords_eq_zero some moved
  · rfl

omit some in
theorem spaceStep_cmdLength : (spaceStep m c sz t).2.cmdLength = t.2.cmdLength := by
  unfold spaceStep
  split <;> rfl

theorem countStep_cmdLength (moved : 0 < i ∨ k.cmdLength = 0) :
    (countStep m c sz i k).2.cmdLength = 0 ↔ k.cmdLength = 0 := by
  have first := lessStep_cmdLength (m := m) (c := c) (t := (i, { k with quotes := k.quotes.next (m (c + i)) })) some moved
  have further : i ≤ (lessStep m c sz (i, { k with quotes := k.quotes.next (m (c + i)) })).1 :=
    lessStep_le (i, { k with quotes := k.quotes.next (m (c + i)) })
  rw [countStep]
  dsimp only at first further ⊢
  generalize lessStep m c sz (i, { k with quotes := k.quotes.next (m (c + i)) }) = t at *
  rw [spaceStep_cmdLength, greaterStep_cmdLength some (by omega), first]

theorem countLoop_cmdLength (moved : 0 < i ∨ k.cmdLength = 0) :
    (countLoop m c sz fuel i k).cmdLength = 0 ↔ k.cmdLength = 0 := by
  induction fuel generalizing i k with
  | zero => rfl
  | succ fuel ih =>
    rw [countLoop_succ]
    split
    · have further : i < (countStep m c sz i k).1 := countStep_lt
      rw [ih (.inl (by omega)), countStep_cmdLength some moved]
    · rfl

end FirstTask

theorem cmdLength_positive (holds : Holds m c (x :: l)) :
    0 < (countArgs m c (l.length + 1)).cmdLength ↔ x ≠ less ∧ x ≠ greater := by
  have here : m (c + (0 : Nat)) = x := by simpa using holds.1
  have further : 0 < (countStep m c (l.length + 1) 0 ⟨l.length + 1, 0, ⟨false, false⟩, none, none⟩).1 := countStep_lt
  rw [Nat.pos_iff_ne_zero, countArgs_cmdLength, countLoop_succ, if_pos (Nat.succ_pos _), Ne,
    countLoop_cmdLength (Nat.succ_pos _) (.inl further)]
  have flags : ∀ y, y = less ∨ y = greater → Quotes.next ⟨false, false⟩ y = ⟨false, false⟩ := by
    rintro y (rfl | rfl)
    · rfl
    · rfl
  rw [countStep, here, spaceStep_cmdLength]
  by_cases isLess : x = less
  · have none :
        (lessStep m c (l.length + 1) (0, ⟨l.length + 1, 0, Quotes.next ⟨false, false⟩ x, none, none⟩)).2.cmdLength = 0 := by
      rw [lessStep, if_pos ⟨here.trans isLess, by rw [flags x (.inl isLess)]; rfl⟩]
      exact if_pos rfl
    rw [greaterStep_cmdLength (Nat.succ_pos _) (.inr none)]
    exact iff_of_false (fun some => some none) fun both => both.1 isLess
  · rw [lessStep_other fun both => isLess (here.symm.trans both.1)]
    by_cases isGreater : x = greater
    · have none :
          (greaterStep m c (l.length + 1) (0, ⟨l.length + 1, 0, Quotes.next ⟨false, false⟩ x, none, none⟩)).2.cmdLength = 0 := by
        rw [greaterStep, if_pos ⟨here.trans isGreater, by rw [flags x (.inr isGreater)]; rfl⟩]
        exact if_pos rfl
      exact iff_of_false (fun some => some none) fun both => both.2 isGreater
    · rw [greaterStep_other fun both => isGreater (here.symm.trans both.1)]
      exact iff_of_true (Nat.succ_ne_zero _) ⟨isLess, isGreater⟩

theorem wordsEnd_first (holds : Holds m c (x :: l)) : c < wordsEnd m c (l.length + 1) ↔ x ≠ less ∧ x ≠ greater := by
  rw [wordsEnd, leading]
  by_cases skipped : x = space
  · rw [if_pos (holds.1.trans skipped)]
    refine iff_of_true (by omega) ?_
    rw [skipped]
    decide
  · rw [if_neg fun same => skipped (holds.1.symm.trans same), ← cmdLength_positive holds, Nat.cast_zero, Int.add_zero,
      Nat.sub_zero]
    omega

theorem wordsEnd_empty (m : Memory) (c : Int) : wordsEnd m c 0 = c := by
  have bound := (countArgs_placed m (c + (0 : Nat)) (0 - 0)).cmdLength
  rw [wordsEnd, leading]
  omega

/-- Behind the first character of the line the look in front of a command's words is free. -/
theorem eachTask_later (past : j < i) :
    EachTask (Fits m cmdLine) m cmdLine left i j q ↔ EachTask (Contained m) m cmdLine left i j q := by
  have fits : ∀ {i j : Nat}, j < i → (Fits m cmdLine (cmdLine + i - j) j ↔ Contained m (cmdLine + i - j) j) := by
    intro i j past
    have bound := wordsEnd_le m (cmdLine + i - j) j
    exact and_iff_right (by omega)
  induction left generalizing i j q with
  | zero => exact fits past
  | succ left ih =>
    have next := ih (q := q.next (m (cmdLine + i))) (Nat.zero_lt_succ i)
    have same := ih (q := q.next (m (cmdLine + i))) (Nat.add_lt_add_right past 1)
    rw [EachTask, EachTask, fits past]
    split
    · exact and_congr_right fun _ => next
    · exact same

theorem fits_first (holds : Holds m cmdLine (x :: l)) (solid : x ≠ bar) :
    Fits m cmdLine (cmdLine + (x :: l).length - (x :: l).length) (x :: l).length ↔
      (x ≠ bar ∧ x ≠ less ∧ x ≠ greater) ∧ Contained m (cmdLine + (x :: l).length - (x :: l).length) (x :: l).length := by
  have first := wordsEnd_first holds
  rw [Int.add_sub_cancel, Fits, List.length_cons, first]
  tauto

theorem eachTask_first {seg rest : Text} (holds : Holds m cmdLine (seg ++ rest)) (some : seg ++ rest ≠ [])
    (quotes : seg = [] → q = ⟨false, false⟩) (solid : ∀ x ∈ seg.head?, x ≠ bar) :
    EachTask (Fits m cmdLine) m cmdLine rest.length seg.length seg.length q ↔
      (∀ x ∈ (seg ++ rest).head?, x ≠ bar ∧ x ≠ less ∧ x ≠ greater) ∧
        EachTask (Contained m) m cmdLine rest.length seg.length seg.length q := by
  induction rest generalizing seg q with
  | nil =>
    cases seg with
    | nil => exact absurd rfl some
    | cons x l =>
      rw [List.append_nil] at holds ⊢
      have fits := fits_first holds (solid x rfl)
      simpa [EachTask] using fits
  | cons y rest ih =>
    have here : m (cmdLine + seg.length) = y := (holds_append.mp holds).2.1
    rw [List.length_cons, EachTask, EachTask, here]
    by_cases separates : y = bar ∧ (q.next y).outside
    · rw [if_pos separates, if_pos separates, eachTask_later (Nat.succ_pos _)]
      cases seg with
      | nil =>
        have none : ¬ Fits m cmdLine (cmdLine + ([] : Text).length - ([] : Text).length) ([] : Text).length := by
          intro fits
          have start := fits.1
          rw [List.length_nil, wordsEnd_empty, Int.add_sub_cancel] at start
          exact absurd start (Int.lt_irrefl _)
        exact iff_of_false (fun both => none both.1) fun both => (both.1 y rfl).1 separates.1
      | cons x l =>
        have fits := fits_first (holds_append.mp holds).1 (solid x rfl)
        rw [fits, and_assoc]
        simp
    · rw [if_neg separates, if_neg separates]
      have longer : seg.length + 1 = (seg ++ [y]).length := by simp
      rw [longer, ih]
      · simp
      · simpa using holds
      · simp
      · simp
      · cases seg with
        | nil =>
          intro x member
          cases member
          rintro rfl
          exact separates ⟨rfl, by rw [quotes rfl]; rfl⟩
        | cons x l => simpa using solid

theorem tasksIn_cases (holds : Holds m cmdLine l) (proper : nul ∉ l) (typed : l ≠ []) (enough : l.length < fuel)
    (start : w.low = cmdLine) (high : cmdLine + l.length ≤ w.high) (same : ∀ x, x < cmdLine + l.length → m₁ x = m x)
    (bg : Bool) :
    (((∀ x ∈ l.head?, x ≠ bar ∧ x ≠ less ∧ x ≠ greater) ∧ EachTask (Contained m) m cmdLine l.length 0 0 ⟨false, false⟩) ∧
      ∃ commands, parseTasksIn w fuel cmdLine bg l.length m₁ 0 0 ⟨false, false⟩ = some commands ∧
        parseTasks fuel cmdLine bg l.length m₁ 0 0 ⟨false, false⟩ = some commands) ∨
    ¬ ((∀ x ∈ l.head?, x ≠ bar ∧ x ≠ less ∧ x ≠ greater) ∧ EachTask (Contained m) m cmdLine l.length 0 0 ⟨false, false⟩) ∧
      parseTasksIn w fuel cmdLine bg l.length m₁ 0 0 ⟨false, false⟩ = none := by
  have back : cmdLine + (0 : Nat) - (([] : Text).length : Nat) = cmdLine := by simp
  have whole : Holds m cmdLine ([] ++ l) := holds
  have first := eachTask_first whole typed (fun _ => rfl) nofun
  have whole : Holds m (cmdLine + (0 : Nat) - (([] : Text).length : Nat)) ([] ++ l) := by rwa [back]
  have tasks := parseTasksIn_cases (q := ⟨false, false⟩) whole proper enough (by simp) (by simpa using high) start
    (fun x _ bound => same x (by simpa using bound)) (by rw [back, same _ (by omega)]) bg
  rw [List.length_nil] at first tasks
  rwa [first] at tasks

theorem orderly_iff (words : ∃ x ∈ line, x ≠ space) (command : commandText line = some l) : Orderly m cmdLine line ↔
    (∀ x ∈ l.head?, x ≠ bar ∧ x ≠ less ∧ x ≠ greater) ∧ EachTask (Contained m) m cmdLine l.length 0 0 ⟨false, false⟩ := by
  constructor
  · exact fun held => ⟨held.start l command, held.tasks l command⟩
  · intro held
    obtain ⟨start, tasks⟩ := held
    refine ⟨words, ?_, ?_⟩
    · intro l' same
      cases command.symm.trans same
      exact start
    · intro l' same
      cases command.symm.trans same
      exact tasks

/-- `Interpret` stays inside a line exactly if it is orderly, and does there what it does without bounds. -/
theorem interpretIn_cases (string : IsString m cmdLine line) (typed : line ≠ []) (enough : line.length < fuel) :
    (Orderly m cmdLine line ∧ ∃ outcome, interpretIn ⟨cmdLine, cmdLine + line.length⟩ fuel m cmdLine = some outcome ∧
      interpret fuel m cmdLine = some outcome) ∨
    ¬ Orderly m cmdLine line ∧ interpretIn ⟨cmdLine, cmdLine + line.length⟩ fuel m cmdLine = none := by
  have more : m cmdLine ≠ nul := string.typed typed
  have read : textIn ⟨cmdLine, cmdLine + line.length⟩ m fuel cmdLine = some line :=
    text_in_window string enough (Int.le_refl _) (Int.le_refl _)
  have first : Window.Has ⟨cmdLine, cmdLine + line.length⟩ cmdLine := ⟨Int.le_refl _, by dsimp only; omega⟩
  have trimmed : trimIn ⟨cmdLine, cmdLine + line.length⟩ m cmdLine line.length = some (trim m cmdLine line.length) :=
    trimIn_eq (Int.le_refl _) (by dsimp only; omega)
  rw [interpretIn_eq, interpret_eq, Window.peek_inside first, Option.bind_some, if_neg more, if_neg more, read,
    text_of_string string enough, Option.bind_some, Option.bind_some, trimmed, Option.bind_some]
  dsimp only
  rcases trim_cases string.holds with ⟨before, blank⟩ | ⟨front, x, n, split, solid, found⟩
  · right
    rw [before, Window.peek_outside fun has => by have low := has.1; dsimp only at low; omega]
    refine ⟨?_, rfl⟩
    intro orderly
    obtain ⟨x, member, solid⟩ := orderly.typed
    exact solid (blank x member)
  · have length := congrArg List.length split
    rw [List.length_append, List.length_cons, List.length_replicate] at length
    have holds := string.holds
    rw [split] at holds
    obtain ⟨before, here, -⟩ := holds_append.mp holds
    have inside : Window.Has ⟨cmdLine, cmdLine + line.length⟩ (cmdLine + front.length) :=
      ⟨by dsimp only; omega, by dsimp only; omega⟩
    have words : ∃ x ∈ line, x ≠ space := ⟨x, by rw [split]; simp, solid⟩
    have command : commandText line = if x ≠ ampersand then some line else if front = [] then none else some front := by
      rw [split]
      exact commandText_append solid
    rw [found, Window.peek_inside inside, Option.bind_some, here]
    by_cases background : x = ampersand
    · rw [if_pos background, if_pos background]
      by_cases alone : front = []
      · left
        rw [alone]
        refine ⟨⟨words, ?_, ?_⟩, .nothing, rfl, rfl⟩
        · intro l same
          simp [command, background, alone] at same
        · intro l same
          simp [command, background, alone] at same
      · rw [if_neg (not_not_intro background), if_neg alone] at command
        have later : (front.length : Int) ≠ 0 := by
          rw [Nat.cast_ne_zero]
          exact fun empty => alone (List.length_eq_zero_iff.mp empty)
        have proper : nul ∉ front := fun member => string.proper (split ▸ List.mem_append_left _ member)
        have cut : IsString (put m (cmdLine + front.length) nul) cmdLine front :=
          ⟨before.put_outside (.inr (Int.le_refl _)), put_at, proper⟩
        have poked : Window.poke ⟨cmdLine, cmdLine + line.length⟩ m (cmdLine + front.length) nul =
            some (put m (cmdLine + front.length) nul) := Window.poke_inside inside
        have reread : textIn ⟨cmdLine, cmdLine + line.length⟩ (put m (cmdLine + front.length) nul) fuel cmdLine = some front :=
          text_in_window cut (by omega) (Int.le_refl _) (by dsimp only; omega)
        have short : front.length < fuel := by omega
        have same : ∀ y, y < cmdLine + front.length → put m (cmdLine + front.length) nul y = m y :=
          fun y bound => put_of_ne (by omega)
        have tasks := tasksIn_cases (w := ⟨cmdLine, cmdLine + line.length⟩) before proper alone short rfl
          (by dsimp only; omega) same true
        rw [if_neg later, if_neg later, poked, Option.bind_some, reread, Option.bind_some, text_of_string cut (by omega),
          Option.bind_some, orderly_iff words command]
        exact bind_cases tasks _
    · rw [if_neg background, if_neg background]
      rw [if_pos background] at command
      have tasks := tasksIn_cases (w := ⟨cmdLine, cmdLine + line.length⟩) string.holds string.proper typed enough rfl
        (Int.le_refl _) (fun _ _ => rfl) false
      rw [orderly_iff words command]
      exact bind_cases tasks _

/-- Parsing a line stays inside it, and ends, exactly if the line is orderly. -/
theorem stays_inside_iff (string : IsString m cmdLine line) (typed : line ≠ []) (enough : line.length < fuel) :
    (∃ outcome, interpretIn ⟨cmdLine, cmdLine + line.length⟩ fuel m cmdLine = some outcome ∧
      interpret fuel m cmdLine = some outcome) ↔
      Orderly m cmdLine line := by
  rcases interpretIn_cases string typed enough with ⟨orderly, outcome⟩ | ⟨fails, outside⟩
  · exact iff_of_true outcome orderly
  · refine iff_of_false ?_ fails
    rintro ⟨outcome, inside, -⟩
    exact absurd (outside.symm.trans inside) nofun

/-- The line `cat < a | wc 'x y'  &`. -/
def orderlyLine : Text := [99, 97, 116, 32, 60, 32, 97, 32, 124, 32, 119, 99, 32, 39, 120, 32, 121, 39, 32, 32, 38]

theorem orderly_line_stays : ∃ outcome, interpretIn ⟨0, 0 + orderlyLine.length⟩ 100 (written orderlyLine) 0 = some outcome ∧
    interpret 100 (written orderlyLine) 0 = some outcome := by
  have command : commandText orderlyLine = some (orderlyLine.take 20) := by decide
  refine (stays_inside_iff (written_string (by decide)) (by decide) (by decide)).mpr ⟨⟨99, by decide, by decide⟩, ?_, ?_⟩
  · intro l same
    cases command.symm.trans same
    decide
  · intro l same
    cases command.symm.trans same
    decide +kernel

/-- A space, the line `a||b`, the line `cat <` and the line `<f`. -/
def disorderly : List Text := [[32], [97, 124, 124, 98], [99, 97, 116, 32, 60], [60, 102]]

theorem disorderly_lines_leave : ¬ ∃ line ∈ disorderly, ∃ outcome,
    interpretIn ⟨0, 0 + line.length⟩ 100 (written line) 0 = some outcome ∧ interpret 100 (written line) 0 = some outcome := by
  have outside : ∀ line ∈ disorderly, interpretIn ⟨0, 0 + line.length⟩ 100 (written line) 0 = none := by decide +kernel
  rintro ⟨line, member, outcome, inside, -⟩
  exact absurd ((outside line member).symm.trans inside) nofun

end Eecs343.TinyShell.Interpreter
