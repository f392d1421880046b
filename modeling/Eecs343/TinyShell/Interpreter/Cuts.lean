import Eecs343.TinyShell.Interpreter.Contained

namespace Eecs343.TinyShell.Interpreter

open Bytes

variable {m m' m₁ : Memory} {c cmdLine x : Int} {fuel sz i j left n : Nat} {l l' : Text} {q : Quotes} {bg : Bool}

/-- However quotes are cut out of `rest`, it has as many `|` outside quotes. -/
def Settled (rest : Text) : Prop := bar ∉ rest ∨ singleQuote ∉ rest ∧ doubleQuote ∉ rest

instance (rest : Text) : Decidable (Settled rest) := inferInstanceAs (Decidable (_ ∨ _))

theorem parseTasks_zero {commands : List Command} (ran : parseTasks fuel cmdLine bg 0 m i j q = some commands) :
    commands.length = 1 := by
  obtain ⟨command, -, same⟩ := Option.bind_eq_some_iff.mp ran
  cases same
  rfl

theorem parseTasks_bar (separates : m (cmdLine + i) = bar ∧ (q.next (m (cmdLine + i))).outside) :
    parseTasks fuel cmdLine bg (left + 1) m i j q = (parserSingle fuel m (cmdLine + i - j) j bg).bind fun r =>
      (parseTasks fuel cmdLine bg left r.2 (i + 1) 0 (q.next (m (cmdLine + i)))).bind fun commands => some (r.1 :: commands) := by
  rw [parseTasks]
  dsimp only
  rw [if_pos separates]
  rfl

theorem parseTasks_other (other : ¬ (m (cmdLine + i) = bar ∧ (q.next (m (cmdLine + i))).outside)) :
    parseTasks fuel cmdLine bg (left + 1) m i j q =
      parseTasks fuel cmdLine bg left m (i + 1) (j + 1) (q.next (m (cmdLine + i))) := by
  rw [parseTasks]
  dsimp only
  rw [if_neg other]

/-- A byte is as before, or has been cut; no `|` is ever cut. -/
def Cut (m m' : Memory) (x : Int) : Prop := m' x = m x ∨ m' x = nul ∧ m x ≠ bar

theorem Cut.trans {m'' : Memory} (first : Cut m m' x) (second : Cut m' m'' x) : Cut m m'' x := by
  rcases first with same | ⟨cut, kept⟩
  · rwa [Cut, same] at second
  · rcases second with same' | ⟨cut', -⟩
    · exact .inr ⟨same'.trans cut, kept⟩
    · exact .inr ⟨cut', kept⟩

theorem Cut.put (kept : m c ≠ bar) : Cut m (put m c nul) x := by
  by_cases here : x = c
  · exact .inr ⟨here ▸ put_at, here ▸ kept⟩
  · exact .inl (put_of_ne here)

theorem singleParamFrom_cut {st t t' : Int} {idx : Nat} {start : Bool}
    (ran : singleParamFrom st fuel m idx q start t = some (t', m')) :
    Cut m m' x := by
  induction fuel generalizing idx q start t with
  | zero => cases ran
  | succ fuel ih =>
    rw [singleParamFrom] at ran
    by_cases started : start = true
    · -- the scan stops here, which is at no `|`, or goes on
      rw [if_pos started] at ran
      split at ran
      · cases ran
        exact .inl rfl
      · by_cases separator : m (st + idx) = bar
        · rw [separator] at ran
          simp +decide only [↓reduceIte] at ran
          exact ih ran
        · repeat' split at ran
          all_goals first
            | exact ih ran
            | cases ran; exact .put separator
    · rw [if_neg started] at ran
      repeat' split at ran
      all_goals exact ih ran

theorem readArgs_cut {args : List Text} {p : Int} (ran : readArgs fuel n m p = some (args, m')) : Cut m m' x := by
  induction n generalizing m p args with
  | zero =>
    cases ran
    exact .inl rfl
  | succ n ih =>
    rw [readArgs_succ] at ran
    obtain ⟨⟨t, m₁⟩, scanned, ran⟩ := Option.bind_eq_some_iff.mp ran
    obtain ⟨arg, -, ran⟩ := Option.bind_eq_some_iff.mp ran
    obtain ⟨passed, -, ran⟩ := Option.bind_eq_some_iff.mp ran
    obtain ⟨⟨rest, m₂⟩, read, same⟩ := Option.bind_eq_some_iff.mp ran
    cases same
    exact (singleParamFrom_cut scanned).trans (ih read)

theorem readTarget_cut {target : Option Int} {name : Option Text} (ran : readTarget fuel m target = some (name, m')) :
    Cut m m' x := by
  cases target with
  | none =>
    cases ran
    exact .inl rfl
  | some target =>
    rw [readTarget_some] at ran
    obtain ⟨⟨t, m₁⟩, scanned, ran⟩ := Option.bind_eq_some_iff.mp ran
    obtain ⟨copied, -, same⟩ := Option.bind_eq_some_iff.mp ran
    cases same
    exact singleParamFrom_cut scanned

/-- Wherever its scans end, `parser_single` cuts no `|` but the one it is called at. -/
theorem parserSingle_cut {command : Command} (ran : parserSingle fuel m c sz bg = some (command, m')) (far : x ≠ c + sz) :
    Cut m m' x := by
  obtain ⟨m₂, m₃, -, readArgs, readIn, readOut⟩ := parserSingle_reads ran
  have start : Cut m (put m (c + sz) nul) x := .inl (put_of_ne far)
  exact start.trans ((readArgs_cut readArgs).trans ((readTarget_cut readIn).trans (readTarget_cut readOut)))

/-- `l` stands at `p`, apart from cuts. -/
def CutFrom (m : Memory) : (p : Int) → Text → Prop
  | _, [] => True
  | p, y :: l => (m p = y ∨ m p = nul ∧ y ≠ bar) ∧ CutFrom m (p + 1) l

theorem CutFrom.cut {p : Int} (from_ : CutFrom m p l) (cuts : ∀ x, p ≤ x → Cut m m' x) : CutFrom m' p l := by
  induction l generalizing p with
  | nil => trivial
  | cons y l ih =>
    refine ⟨?_, ih from_.2 fun x far => cuts x (by omega)⟩
    rcases from_.1 with same | ⟨cut, kept⟩
    · rcases cuts p (Int.le_refl p) with same' | ⟨cut', kept'⟩
      · exact .inl (same'.trans same)
      · exact .inr ⟨cut', same ▸ kept'⟩
    · rcases cuts p (Int.le_refl p) with same' | ⟨cut', -⟩
      · exact .inr ⟨same'.trans cut, kept⟩
      · exact .inr ⟨cut', kept⟩

theorem CutFrom.of_holds {p : Int} (holds : Holds m p l) : CutFrom m p l := by
  induction l generalizing p with
  | nil => trivial
  | cons y l ih => exact ⟨.inl holds.1, ih holds.2⟩

theorem countTasks_no_bar (none : bar ∉ l) (task : Nat) : countTasks l q task = task := by
  induction l generalizing q task with
  | nil => rfl
  | cons y l ih =>
    rw [List.mem_cons, not_or] at none
    rw [countTasks, if_neg fun separates => none.1 separates.1.symm, ih none.2]

theorem parseTasks_no_bar {rest : Text} {commands : List Command}
    (ran : parseTasks fuel cmdLine bg rest.length m i j q = some commands)
    (cut : CutFrom m (cmdLine + i) rest) (none : bar ∉ rest) : commands.length = 1 := by
  induction rest generalizing i j q with
  | nil => exact parseTasks_zero ran
  | cons y rest ih =>
    rw [List.mem_cons, not_or] at none
    have other : m (cmdLine + i) ≠ bar := by
      rcases cut.1 with same | ⟨gone, -⟩
      · exact fun separates => none.1 (separates.symm.trans same)
      · rw [gone]
        decide
    rw [List.length_cons, parseTasks_other fun separates => other separates.1] at ran
    apply ih ran _ none.2
    rw [Nat.cast_add, Nat.cast_one, ← Int.add_assoc]
    exact cut.2

theorem Quotes.next_other {y : BitVec 8} (single : y ≠ singleQuote) (double : y ≠ doubleQuote) : q.next y = q := by
  rw [Quotes.next, if_neg single, if_neg double]

theorem parseTasks_no_quotes {rest : Text} {commands : List Command}
    (ran : parseTasks fuel cmdLine bg rest.length m i j q = some commands)
    (cut : CutFrom m (cmdLine + i) rest) (single : singleQuote ∉ rest) (double : doubleQuote ∉ rest) (outside : q.outside) :
    commands.length = countTasks rest q 0 + 1 := by
  induction rest generalizing m i j q commands with
  | nil => exact parseTasks_zero ran
  | cons y rest ih =>
    rw [List.mem_cons, not_or] at single double
    have flags : q.next y = q := Quotes.next_other (Ne.symm single.1) (Ne.symm double.1)
    have flags₁ : q.next (m (cmdLine + i)) = q := by
      rcases cut.1 with same | ⟨gone, -⟩
      · rw [same, flags]
      · rw [gone]
        exact Quotes.next_other (by decide) (by decide)
    have bars : m (cmdLine + i) = bar ↔ y = bar := by
      rcases cut.1 with same | ⟨gone, kept⟩
      · rw [same]
      · rw [gone]
        exact ⟨fun h => absurd h (by decide), fun h => absurd h kept⟩
    have place : cmdLine + (i : Int) + 1 = cmdLine + (i + 1 : Nat) := by omega
    have after := cut.2
    rw [place] at after
    rw [countTasks, flags]
    by_cases separates : y = bar
    · rw [List.length_cons, parseTasks_bar ⟨bars.mpr separates, by rwa [flags₁]⟩, flags₁] at ran
      obtain ⟨⟨command, m₂⟩, parsed, ran⟩ := Option.bind_eq_some_iff.mp ran
      obtain ⟨others, later, made⟩ := Option.bind_eq_some_iff.mp ran
      cases made
      rw [if_pos ⟨separates, outside⟩, countTasks_add, List.length_cons]
      congr 1
      apply ih later _ single.2 double.2 outside
      exact after.cut fun x far => parserSingle_cut parsed (by omega)
    · rw [List.length_cons, parseTasks_other fun h => separates (bars.mp h.1), flags₁] at ran
      rw [if_neg fun h => separates h.1]
      exact ih ran after single.2 double.2 outside

theorem parseTasks_settled {rest : Text} {commands : List Command}
    (ran : parseTasks fuel cmdLine bg rest.length m i j q = some commands)
    (cut : CutFrom m (cmdLine + i) rest) (settled : Settled rest) (outside : bar ∈ rest → q.outside) :
    commands.length = countTasks rest q 0 + 1 := by
  by_cases none : bar ∈ rest
  · rcases settled with settled | ⟨single, double⟩
    · exact absurd none settled
    · exact parseTasks_no_quotes ran cut single double (outside none)
  · rw [parseTasks_no_bar ran cut none, countTasks_no_bar none]

end Eecs343.TinyShell.Interpreter
