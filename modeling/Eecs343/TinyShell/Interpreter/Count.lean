import Eecs343.TinyShell.Interpreter.Scan

namespace Eecs343.TinyShell.Interpreter

open Bytes

variable {m : Memory} {c : Int} {sz fuel fuel' i gap : Nat} {k : Count} {l : Text}

theorem skipSpaces_le : i ≤ skipSpaces m c sz fuel i := by
  induction fuel generalizing i with
  | zero => exact Nat.le_refl i
  | succ fuel ih =>
    rw [skipSpaces]
    split
    · exact Nat.le_trans (Nat.le_succ i) ih
    · exact Nat.le_refl i

theorem skipSpaces_run (holds : Holds m (c + (i + 1 : Nat)) (List.replicate gap space)) (inside : i + gap < sz)
    (last : i + gap + 1 = sz ∨ m (c + (i + gap + 1 : Nat)) ≠ space) (enough : gap < fuel) :
    skipSpaces m c sz fuel i = i + gap := by
  induction gap generalizing i fuel with
  | zero =>
    obtain ⟨fuel, rfl⟩ := Nat.exists_eq_add_one_of_ne_zero (Nat.ne_of_gt enough)
    rw [skipSpaces, if_neg]
    · rfl
    · intro ⟨more, next⟩
      rcases last with last | last
      · omega
      · exact last next
  | succ gap ih =>
    obtain ⟨fuel, rfl⟩ := Nat.exists_eq_add_one_of_ne_zero (Nat.ne_of_gt (Nat.zero_lt_of_lt enough))
    obtain ⟨here, rest⟩ := holds
    rw [skipSpaces, if_pos ⟨by omega, here⟩, ih (i := i + 1)]
    · omega
    · rwa [Nat.cast_add, Nat.cast_one, ← Int.add_assoc]
    · omega
    · rwa [show i + 1 + gap + 1 = i + (gap + 1) + 1 by omega]
    · omega

theorem lessStep_other {s : Nat × Count} (other : ¬ (m (c + s.1) = less ∧ s.2.quotes.outside)) : lessStep m c sz s = s :=
  if_neg other

theorem greaterStep_other {s : Nat × Count} (other : ¬ (m (c + s.1) = greater ∧ s.2.quotes.outside)) :
    greaterStep m c sz s = s :=
  if_neg other

theorem spaceStep_other {s : Nat × Count} (other : ¬ (m (c + s.1) = space ∧ s.2.quotes.outside)) :
    spaceStep m c sz s = s :=
  if_neg other

theorem lessStep_le (s : Nat × Count) : s.1 ≤ (lessStep m c sz s).1 := by
  unfold lessStep
  split
  · exact skipSpaces_le
  · exact Nat.le_refl _

theorem greaterStep_le (s : Nat × Count) : s.1 ≤ (greaterStep m c sz s).1 := by
  unfold greaterStep
  split
  · exact skipSpaces_le
  · exact Nat.le_refl _

theorem spaceStep_le (s : Nat × Count) : s.1 ≤ (spaceStep m c sz s).1 := by
  unfold spaceStep
  split
  · exact skipSpaces_le
  · exact Nat.le_refl _

theorem countStep_lt : i < (countStep m c sz i k).1 :=
  Nat.lt_succ_of_le (Nat.le_trans (lessStep_le (i, { k with quotes := k.quotes.next (m (c + i)) }))
    (Nat.le_trans (greaterStep_le _) (spaceStep_le _)))

theorem countLoop_succ : countLoop m c sz (fuel + 1) i k =
    if i < sz then countLoop m c sz fuel (countStep m c sz i k).1 (countStep m c sz i k).2 else k := rfl

theorem countLoop_fuel (enough : sz - i ≤ fuel) (enough' : sz - i ≤ fuel') :
    countLoop m c sz fuel i k = countLoop m c sz fuel' i k := by
  induction fuel generalizing fuel' i k with
  | zero =>
    have past : ¬ i < sz := by omega
    cases fuel' with
    | zero => rfl
    | succ fuel' => rw [countLoop, countLoop_succ, if_neg past]
  | succ fuel ih =>
    by_cases more : i < sz
    · obtain ⟨fuel', rfl⟩ : ∃ n, fuel' = n + 1 := ⟨fuel' - 1, by omega⟩
      have forward : i < (countStep m c sz i k).1 := countStep_lt
      rw [countLoop_succ, countLoop_succ, if_pos more, if_pos more]
      generalize (countStep m c sz i k).1 = j at forward
      exact ih (by omega) (by omega)
    · cases fuel' with
      | zero => rw [countLoop, countLoop_succ, if_neg more]
      | succ fuel' => rw [countLoop_succ, countLoop_succ, if_neg more, if_neg more]

/-- The loop from `i` on. -/
def countFrom (m : Memory) (c : Int) (sz i : Nat) (k : Count) : Count := countLoop m c sz (sz - i) i k

theorem countFrom_end : countFrom m c sz sz k = k := by
  rw [countFrom, Nat.sub_self, countLoop]

theorem countFrom_step (more : i < sz) :
    countFrom m c sz i k = countFrom m c sz (countStep m c sz i k).1 (countStep m c sz i k).2 := by
  have forward : i < (countStep m c sz i k).1 := countStep_lt
  rw [countFrom, countFrom, show sz - i = sz - i - 1 + 1 by omega, countLoop_succ, if_pos more]
  generalize (countStep m c sz i k).1 = j at forward
  exact countLoop_fuel (by omega) (by omega)

theorem countStep_other
    (other : ¬ ((m (c + i) = less ∨ m (c + i) = greater ∨ m (c + i) = space) ∧ (k.quotes.next (m (c + i))).outside)) :
    countStep m c sz i k = (i + 1, { k with quotes := k.quotes.next (m (c + i)) }) := by
  have noLess : ¬ (m (c + i) = less ∧ (k.quotes.next (m (c + i))).outside) := fun h => other ⟨.inl h.1, h.2⟩
  have noGreater : ¬ (m (c + i) = greater ∧ (k.quotes.next (m (c + i))).outside) := fun h => other ⟨.inr (.inl h.1), h.2⟩
  have noSpace : ¬ (m (c + i) = space ∧ (k.quotes.next (m (c + i))).outside) := fun h => other ⟨.inr (.inr h.1), h.2⟩
  rw [countStep]
  rw [lessStep_other noLess, greaterStep_other noGreater, spaceStep_other noSpace]

theorem countFrom_steady (holds : Holds m (c + i) l) (inside : i + l.length ≤ sz)
    (steady : ∀ x ∈ l, k.quotes.next x = k.quotes ∧ ¬ ((x = less ∨ x = greater ∨ x = space) ∧ k.quotes.outside)) :
    countFrom m c sz i k = countFrom m c sz (i + l.length) k := by
  induction l generalizing i with
  | nil => rfl
  | cons x l ih =>
    rw [List.length_cons] at inside
    obtain ⟨here, rest⟩ := holds
    obtain ⟨same, other⟩ := steady x List.mem_cons_self
    have step : countStep m c sz i k = (i + 1, k) := by
      rw [countStep_other (by rwa [here, same]), here, same]
    rw [countFrom_step (by omega), step, ih (i := i + 1)]
    · rw [List.length_cons]
      congr 1
      omega
    · rwa [Nat.cast_add, Nat.cast_one, ← Int.add_assoc]
    · omega
    · exact fun y member => steady y (List.mem_cons_of_mem _ member)

theorem countFrom_spaces (holds : Holds m (c + i) (List.replicate (gap + 1) space)) (inside : i + gap < sz)
    (last : i + gap + 1 = sz ∨ m (c + (i + gap + 1 : Nat)) ≠ space) (outside : k.quotes = ⟨false, false⟩)
    (words : k.cmdLength = sz) :
    countFrom m c sz i k = countFrom m c sz (i + gap + 1) { k with taskArgc := k.taskArgc + 1 } := by
  obtain ⟨here, rest⟩ := holds
  have skip : skipSpaces m c sz sz i = i + gap := by
    apply skipSpaces_run _ inside last (by omega)
    rwa [Nat.cast_add, Nat.cast_one, ← Int.add_assoc]
  have step : countStep m c sz i k = (i + gap + 1, { k with taskArgc := k.taskArgc + 1 }) := by
    have flags : k.quotes.next space = k.quotes := rfl
    have out : k.quotes.outside = true := by rw [outside]; rfl
    rw [countStep, here, flags]
    rw [lessStep_other, greaterStep_other, spaceStep, if_pos ⟨here, out⟩, if_pos words, skip]
    · exact fun h => absurd (here.symm.trans h.1) (by decide)
    · exact fun h => absurd (here.symm.trans h.1) (by decide)
  rw [countFrom_step (by omega), step]

theorem skipSpaces_lt (inside : i < sz) : skipSpaces m c sz fuel i < sz := by
  induction fuel generalizing i with
  | zero => exact inside
  | succ fuel ih =>
    rw [skipSpaces]
    split
    · rename_i more
      exact ih more.1
    · exact inside

theorem lessStep_lt {s : Nat × Count} (inside : s.1 < sz) : (lessStep m c sz s).1 < sz := by
  unfold lessStep
  split
  · exact skipSpaces_lt inside
  · exact inside

theorem greaterStep_lt {s : Nat × Count} (inside : s.1 < sz) : (greaterStep m c sz s).1 < sz := by
  unfold greaterStep
  split
  · exact skipSpaces_lt inside
  · exact inside

/-- Where `cmd_length` and the two redirections may point. -/
structure Count.Placed (k : Count) (c : Int) (sz : Nat) : Prop where
  cmdLength : k.cmdLength ≤ sz
  input : ∀ p, k.input = some p → ∃ n : Nat, p = c + n
  out : ∀ p, k.out = some p → ∃ n : Nat, p = c + n

theorem Count.Placed.endWords (placed : k.Placed c sz) (inside : i < sz) : k.endWords sz i ≤ sz := by
  have := placed.cmdLength
  unfold Count.endWords
  split <;> omega

theorem lessStep_placed {s : Nat × Count} (inside : s.1 < sz) (placed : s.2.Placed c sz) :
    (lessStep m c sz s).2.Placed c sz := by
  unfold lessStep
  split
  · exact ⟨placed.endWords inside, fun p same => ⟨_, (Option.some.inj same).symm⟩, placed.out⟩
  · exact placed

theorem greaterStep_placed {s : Nat × Count} (inside : s.1 < sz) (placed : s.2.Placed c sz) :
    (greaterStep m c sz s).2.Placed c sz := by
  unfold greaterStep
  split
  · exact ⟨placed.endWords inside, placed.input, fun p same => ⟨_, (Option.some.inj same).symm⟩⟩
  · exact placed

theorem spaceStep_placed {s : Nat × Count} (placed : s.2.Placed c sz) : (spaceStep m c sz s).2.Placed c sz := by
  unfold spaceStep
  split
  · exact ⟨placed.cmdLength, placed.input, placed.out⟩
  · exact placed

theorem countStep_placed (inside : i < sz) (placed : k.Placed c sz) : (countStep m c sz i k).2.Placed c sz := by
  have start : Count.Placed { k with quotes := k.quotes.next (m (c + i)) } c sz :=
    ⟨placed.cmdLength, placed.input, placed.out⟩
  have first := lessStep_placed (m := m) (s := (i, _)) inside start
  exact spaceStep_placed (greaterStep_placed (lessStep_lt inside) first)

theorem countLoop_placed (placed : k.Placed c sz) : (countLoop m c sz fuel i k).Placed c sz := by
  induction fuel generalizing i k with
  | zero => exact placed
  | succ fuel ih =>
    rw [countLoop_succ]
    split
    · rename_i inside
      exact ih (countStep_placed inside placed)
    · exact placed

theorem countArgs_placed (m : Memory) (c : Int) (sz : Nat) : (countArgs m c sz).Placed c sz := by
  have placed : (countLoop m c sz sz 0 ⟨sz, 0, ⟨false, false⟩, none, none⟩).Placed c sz :=
    countLoop_placed ⟨Nat.le_refl sz, nofun, nofun⟩
  unfold countArgs
  dsimp only
  split
  · exact ⟨placed.cmdLength, placed.input, placed.out⟩
  · exact placed

section Congr

variable {m' : Memory}

theorem leading_congr (same : ∀ x, c ≤ x → x < c + sz → m' x = m x) : leading m' c sz = leading m c sz := by
  induction sz generalizing c with
  | zero => rfl
  | succ sz ih =>
    rw [leading, leading, same c (by omega) (by omega), ih]
    intro x low high
    exact same x (by omega) (by omega)

theorem skipSpaces_congr (same : ∀ x, c ≤ x → x < c + sz → m' x = m x) :
    skipSpaces m' c sz fuel i = skipSpaces m c sz fuel i := by
  induction fuel generalizing i with
  | zero => rfl
  | succ fuel ih =>
    rw [skipSpaces, skipSpaces, ih]
    by_cases inside : i + 1 < sz
    · rw [same _ (by omega) (by omega)]
    · rw [if_neg (fun h => inside h.1), if_neg (fun h => inside h.1)]

theorem countStep_congr (same : ∀ x, c ≤ x → x < c + sz → m' x = m x) (inside : i < sz) :
    countStep m' c sz i k = countStep m c sz i k := by
  have reads : ∀ n : Nat, n < sz → m' (c + n) = m (c + n) := fun n bound => same _ (by omega) (by omega)
  have sameLess : ∀ s : Nat × Count, s.1 < sz → lessStep m' c sz s = lessStep m c sz s := by
    intro s bound
    rw [lessStep, lessStep, reads _ bound, skipSpaces_congr same]
  have sameGreater : ∀ s : Nat × Count, s.1 < sz → greaterStep m' c sz s = greaterStep m c sz s := by
    intro s bound
    rw [greaterStep, greaterStep, reads _ bound, skipSpaces_congr same]
  have sameSpace : ∀ s : Nat × Count, s.1 < sz → spaceStep m' c sz s = spaceStep m c sz s := by
    intro s bound
    rw [spaceStep, spaceStep, reads _ bound, skipSpaces_congr same]
  have first : (lessStep m c sz (i, { k with quotes := k.quotes.next (m (c + i)) })).1 < sz := lessStep_lt inside
  rw [countStep, countStep, reads i inside, sameLess (i, _) inside, sameGreater _ first, sameSpace _ (greaterStep_lt first)]

theorem countLoop_congr (same : ∀ x, c ≤ x → x < c + sz → m' x = m x) :
    countLoop m' c sz fuel i k = countLoop m c sz fuel i k := by
  induction fuel generalizing i k with
  | zero => rfl
  | succ fuel ih =>
    rw [countLoop_succ, countLoop_succ]
    by_cases inside : i < sz
    · rw [if_pos inside, if_pos inside, countStep_congr same inside, ih]
    · rw [if_neg inside, if_neg inside]

/-- What `parser_single` counts depends on its characters, and on whether a space stands before them. -/
theorem countArgs_congr (same : ∀ x, c ≤ x → x < c + sz → m' x = m x) (edge : m' (c - 1) = space ↔ m (c - 1) = space) :
    countArgs m' c sz = countArgs m c sz := by
  have placed : (countLoop m c sz sz 0 ⟨sz, 0, ⟨false, false⟩, none, none⟩).Placed c sz :=
    countLoop_placed ⟨Nat.le_refl sz, nofun, nofun⟩
  have bound := placed.cmdLength
  unfold countArgs
  rw [countLoop_congr same]
  generalize countLoop m c sz sz 0 ⟨sz, 0, ⟨false, false⟩, none, none⟩ = k at bound
  have tested : m' (c + k.cmdLength - 1) ≠ space ↔ m (c + k.cmdLength - 1) ≠ space := by
    by_cases none : k.cmdLength = 0
    · rw [none, Nat.cast_zero, Int.add_zero]
      exact not_congr edge
    · rw [same _ (by omega) (by omega)]
  dsimp only
  by_cases solid : m (c + k.cmdLength - 1) ≠ space
  · rw [if_pos solid, if_pos (tested.mpr solid)]
  · rw [if_neg solid, if_neg (fun h => solid (tested.mp h))]

end Congr

end Eecs343.TinyShell.Interpreter
