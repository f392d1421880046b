import Mathlib.Data.List.TakeWhile
import Eecs343.TinyShell.Interpreter.Program

namespace Eecs343.TinyShell.Interpreter

open Bytes

variable {m m' : Memory} {p st t x : Int} {l l' : Text} {c : BitVec 8} {q : Quotes} {fuel idx k n : Nat}

/-- The characters of `l` stand at `p`. -/
def Holds (m : Memory) : (p : Int) → Text → Prop
  | _, [] => True
  | p, c :: l => m p = c ∧ Holds m (p + 1) l

@[simp] theorem holds_nil : Holds m p [] := trivial

@[simp] theorem holds_cons : Holds m p (c :: l) ↔ m p = c ∧ Holds m (p + 1) l := Iff.rfl

theorem holds_append : Holds m p (l ++ l') ↔ Holds m p l ∧ Holds m (p + l.length) l' := by
  induction l generalizing p with
  | nil => simp
  | cons c l ih =>
    simp only [List.cons_append, holds_cons, ih, List.length_cons, Nat.cast_add, Nat.cast_one, and_assoc]
    rw [show p + 1 + l.length = p + (l.length + 1) by omega]

theorem Holds.congr (holds : Holds m p l) (same : ∀ x, p ≤ x → x < p + l.length → m' x = m x) : Holds m' p l := by
  induction l generalizing p with
  | nil => trivial
  | cons c l ih =>
    rw [List.length_cons] at same
    refine ⟨(same p (by omega) (by omega)).trans holds.1, ih holds.2 ?_⟩
    intro x low high
    exact same x (by omega) (by omega)

theorem Holds.moved {a : Int} (holds : Holds m p l) (same : ∀ i < l.length, m' (a + i) = m (p + i)) : Holds m' a l := by
  induction l generalizing p a with
  | nil => trivial
  | cons c l ih =>
    refine ⟨?_, ih holds.2 ?_⟩
    · have first := same 0 (Nat.zero_lt_succ _)
      simp only [Nat.cast_zero, Int.add_zero] at first
      exact first.trans holds.1
    · intro i bound
      have next := same (i + 1) (Nat.succ_lt_succ bound)
      rwa [Nat.cast_add, Nat.cast_one, Int.add_comm (i : Int), ← Int.add_assoc, ← Int.add_assoc] at next

theorem put_self (same : m x = c) : put m x c = m := same ▸ Function.update_eq_self x m

theorem put_at : put m x c x = c := Function.update_self ..

theorem put_of_ne {y : Int} (ne : y ≠ x) : put m x c y = m y := Function.update_of_ne ne ..

theorem Holds.put_outside (holds : Holds m p l) (outside : x < p ∨ p + l.length ≤ x) : Holds (put m x c) p l := by
  apply holds.congr
  intro y low high
  exact put_of_ne (by omega)

/-- `l` stands at `p` as a string. -/
structure IsString (m : Memory) (p : Int) (l : Text) : Prop where
  holds : Holds m p l
  ended : m (p + l.length) = nul
  proper : nul ∉ l

theorem IsString.tail (string : IsString m p (c :: l)) : IsString m (p + 1) l := by
  refine ⟨string.holds.2, ?_, fun member => string.proper (List.mem_cons_of_mem _ member)⟩
  have ended := string.ended
  rwa [List.length_cons, Nat.cast_add, Nat.cast_one, Int.add_comm (l.length : Int), ← Int.add_assoc] at ended

theorem IsString.typed (string : IsString m p l) (some : l ≠ []) : m p ≠ nul := by
  cases l with
  | nil => exact absurd rfl some
  | cons c l =>
    intro last
    exact string.proper (string.holds.1.symm.trans last ▸ List.mem_cons_self)

theorem text_of_string (string : IsString m p l) (enough : l.length < fuel) : text m fuel p = some l := by
  induction l generalizing p fuel with
  | nil =>
    obtain ⟨fuel, rfl⟩ := Nat.exists_eq_add_one_of_ne_zero (Nat.ne_of_gt enough)
    have ended := string.ended
    rw [List.length_nil, Nat.cast_zero, Int.add_zero] at ended
    rw [text, if_pos ended]
  | cons c l ih =>
    obtain ⟨fuel, rfl⟩ := Nat.exists_eq_add_one_of_ne_zero (Nat.ne_of_gt (Nat.zero_lt_of_lt enough))
    have here : m p = c := string.holds.1
    have more : m p ≠ nul := fun last => string.proper (here ▸ last ▸ List.mem_cons_self)
    rw [text, if_neg more, ih string.tail (Nat.lt_of_succ_lt_succ enough), Option.map_some, here]

theorem string_of_text (read : text m fuel p = some l) : IsString m p l := by
  induction fuel generalizing p l with
  | zero => cases read
  | succ fuel ih =>
    rw [text] at read
    split at read
    · rename_i last
      cases read
      exact ⟨trivial, by simpa using last, by simp⟩
    · rename_i more
      obtain ⟨rest, found, rfl⟩ := Option.map_eq_some_iff.mp read
      have string := ih found
      refine ⟨⟨rfl, string.holds⟩, ?_, ?_⟩
      · rw [List.length_cons, Nat.cast_add, Nat.cast_one, Int.add_comm (rest.length : Int), ← Int.add_assoc]
        exact string.ended
      · rw [List.mem_cons, not_or]
        exact ⟨fun last => more last.symm, string.proper⟩

/-- A memory with `l` at 0 and NULs all around. -/
def written (l : Text) : Memory := fun x => if x < 0 then nul else l.getD x.toNat nul

theorem holds_of_getD (same : ∀ i < l.length, m (p + i) = l.getD i nul) : Holds m p l := by
  induction l generalizing p with
  | nil => trivial
  | cons c l ih =>
    refine ⟨by simpa using same 0 (Nat.zero_lt_succ _), ih ?_⟩
    intro i bound
    have next := same (i + 1) (Nat.succ_lt_succ bound)
    rw [Nat.cast_add, Nat.cast_one, Int.add_comm (i : Int), ← Int.add_assoc] at next
    exact next

theorem written_string (proper : nul ∉ l) : IsString (written l) 0 l := by
  refine ⟨?_, ?_, proper⟩
  · apply holds_of_getD
    intro i bound
    rw [written, if_neg (by omega), Int.zero_add, Int.toNat_natCast]
  · rw [written, if_neg (by omega), Int.zero_add, Int.toNat_natCast]
    simp

/-- What `single_param` skips before a word. -/
def blank (c : BitVec 8) : Bool := c = space ∨ c = nul

/-- What ends a word that was opened with the quotes `q`. -/
def stops (q : Quotes) (c : BitVec 8) : Bool :=
  c = nul ∨ c = less ∨ c = greater ∨ c = space ∧ q.outside ∨ c = singleQuote ∧ q.quot1 ∨ c = doubleQuote ∧ q.quot2

/-- How far a word reaches from inside the quotes `q`. -/
def reach (q : Quotes) (l : Text) : Nat := (l.takeWhile fun c => !stops q c).length

/-- `single_param` on a string: where the word starts, and its length. -/
def param (l : Text) : Option (Nat × Nat) :=
  let skipped := (l.takeWhile blank).length
  match l.dropWhile blank with
  | [] => none
  | c :: l =>
    if c = doubleQuote then some (skipped + 1, reach ⟨false, true⟩ l)
    else if c = singleQuote then some (skipped + 1, reach ⟨true, false⟩ l)
    else some (skipped, reach ⟨false, false⟩ l + 1)

theorem reach_cons (going : stops q c = false) : reach q (c :: l) = reach q l + 1 := by
  simp [reach, going]

theorem reach_stop (stop : stops q c = true) : reach q (c :: l) = 0 := by
  simp [reach, stop]

/-- From inside a word, `single_param` goes on to its end and cuts there. -/
theorem singleParamFrom_started (holds : Holds m (st + idx) l) (ended : m (st + idx + l.length) = nul)
    (enough : l.length < fuel) :
    singleParamFrom st fuel m idx q true t = some (t, put m (st + idx + reach q l) nul) := by
  induction l generalizing idx fuel with
  | nil =>
    obtain ⟨fuel, rfl⟩ := Nat.exists_eq_add_one_of_ne_zero (Nat.ne_of_gt enough)
    rw [List.length_nil, Nat.cast_zero, Int.add_zero] at ended
    simp only [singleParamFrom, ended, reach, List.takeWhile_nil, List.length_nil, Nat.cast_zero, Int.add_zero, ↓reduceIte]
    rw [put_self ended]
  | cons c l ih =>
    obtain ⟨fuel, rfl⟩ := Nat.exists_eq_add_one_of_ne_zero (Nat.ne_of_gt (Nat.zero_lt_of_lt enough))
    have here : m (st + idx) = c := holds.1
    by_cases stop : stops q c
    · rw [reach_stop stop, Nat.cast_zero, Int.add_zero]
      simp only [singleParamFrom, here, ↓reduceIte]
      by_cases last : c = nul
      · rw [if_pos last, put_self (here.trans last)]
      · simp only [stops, decide_eq_true_eq] at stop
        grind
    · have going : stops q c = false := by simpa using stop
      rw [reach_cons going]
      simp only [stops, decide_eq_false_iff_not, not_or] at going
      obtain ⟨notNul, notLess, notGreater, notSpace, notSingle, notDouble⟩ := going
      simp only [singleParamFrom, here, notNul, notLess, notGreater, notSpace, notSingle, notDouble, or_self, ↓reduceIte]
      have rest : Holds m (st + (idx + 1 : Nat)) l := by simpa [Int.add_assoc] using holds.2
      rw [ih rest ?_ (Nat.lt_of_succ_lt_succ enough)]
      · congr 3
        push_cast
        omega
      · rw [← ended]
        congr 1
        rw [List.length_cons]
        push_cast
        omega

theorem singleParamFrom_blank (holds : Holds m (st + idx) l) (blanks : ∀ c ∈ l, blank c = true) :
    singleParamFrom st (fuel + l.length) m idx q false t = singleParamFrom st fuel m (idx + l.length) q false t := by
  induction l generalizing idx with
  | nil => rfl
  | cons c l ih =>
    have here : m (st + idx) = c := holds.1
    have skip : c = space ∨ c = nul := by simpa [blank] using blanks c List.mem_cons_self
    rw [List.length_cons, ← Nat.add_assoc, singleParamFrom]
    simp only [here, skip, Bool.false_eq_true, ↓reduceIte]
    rw [ih (by simpa [Int.add_assoc] using holds.2) fun c member => blanks c (List.mem_cons_of_mem _ member)]
    congr 1
    omega

/-- What `single_param` does with a string that holds a word. -/
theorem singleParam_spec (holds : Holds m st l) (ended : m (st + l.length) = nul) (enough : l.length < fuel)
    (found : param l = some (k, n)) : singleParam fuel m st = some (st + k, put m (st + k + n) nul) := by
  have split : l.takeWhile blank ++ l.dropWhile blank = l := List.takeWhile_append_dropWhile
  have blanks : ∀ c ∈ l.takeWhile blank, blank c = true := fun c member => List.mem_takeWhile_imp member
  rw [param] at found
  generalize l.takeWhile blank = skipped at split blanks found
  have first := List.head?_dropWhile_not blank l
  cases rest : l.dropWhile blank with
  | nil => simp [rest] at found
  | cons c r =>
    rw [rest] at split found first
    have solid : ¬ (c = space ∨ c = nul) := by simpa [blank] using first
    subst split
    obtain ⟨before, here, after⟩ := holds_append.mp holds
    rw [List.length_append, List.length_cons] at enough ended
    obtain ⟨more, rfl⟩ : ∃ more, fuel = more + 1 + skipped.length := ⟨fuel - 1 - skipped.length, by omega⟩
    have before : Holds m (st + (0 : Nat)) skipped := by simpa using before
    rw [singleParam, singleParamFrom_blank before blanks, Nat.zero_add, singleParamFrom]
    have inside : ∀ q t, singleParamFrom st more m (skipped.length + 1) q true t =
        some (t, put m (st + (skipped.length + 1 : Nat) + reach q r) nul) := by
      intro q t
      apply singleParamFrom_started (l := r)
      · simpa [Int.add_assoc] using after
      · rw [← ended]
        congr 1
        push_cast
        omega
      · omega
    simp only [here, solid, Bool.false_eq_true, ↓reduceIte, inside]
    dsimp only at found
    split at found
    · rename_i double
      obtain ⟨rfl, rfl⟩ := found
      rw [if_pos double]
      simp [Int.add_assoc]
    · split at found
      · rename_i double single
        obtain ⟨rfl, rfl⟩ := found
        rw [if_neg double, if_pos single]
        simp [Int.add_assoc]
      · rename_i double single
        obtain ⟨rfl, rfl⟩ := found
        rw [if_neg double, if_neg single]
        simp [Int.add_assoc, Int.add_comm (1 : Int)]

/-- With no word before its end, `single_param` walks on behind the string. -/
theorem singleParam_overrun (holds : Holds m st l) (ended : m (st + l.length) = nul) (missing : param l = none) :
    singleParam (fuel + (l.length + 1)) m st = singleParamFrom st fuel m (l.length + 1) ⟨false, false⟩ false st := by
  have blanks : ∀ c ∈ l, blank c = true := by
    apply List.dropWhile_eq_nil_iff.mp
    cases rest : l.dropWhile blank with
    | nil => rfl
    | cons c r =>
      simp only [param, rest] at missing
      split at missing
      · cases missing
      · split at missing <;> cases missing
  have whole : Holds m (st + (0 : Nat)) (l ++ [nul]) := by
    rw [Nat.cast_zero, Int.add_zero]
    exact holds_append.mpr ⟨holds, ended, trivial⟩
  have length : l.length + 1 = (l ++ [nul]).length := by simp
  rw [singleParam, length, singleParamFrom_blank whole, Nat.zero_add]
  intro c member
  rcases List.mem_append.mp member with member | member
  · exact blanks c member
  · rw [List.mem_singleton.mp member]
    decide

end Eecs343.TinyShell.Interpreter
