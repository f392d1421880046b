import Eecs343.Server.Connection.Arguments

namespace Eecs343.Server.Connection

def InInt (value : Int) : Prop := -2 ^ 31 ≤ value ∧ value < 2 ^ 31

/-- The results of the three operators in `seatnum * 10 + (int) filename[i] - (int) '0'`, before they are put into an
    `int`. -/
def computed (seatnum : Int) (c : Char) : List Int :=
  [seatnum * 10, wrap (seatnum * 10) + c.toNat, wrap (wrap (seatnum * 10) + c.toNat) - 48]

/-- Everything that `parse_int_arg` computes for its result. -/
def computations (path key : List Char) : List Int :=
  (parseLoop key (fun kept c => (addDigit kept.1 c, kept.2 ++ computed kept.1 c)) false false ((0 : Int), ([] : List Int)) path).2

def computedFrom : Int → List Char → List Int
  | _, [] => []
  | seatnum, c :: digits => computed seatnum c ++ computedFrom (addDigit seatnum c) digits

theorem foldl_computed (digits : List Char) (seatnum : Int) (all : List Int) :
    (digits.foldl (fun kept c => (addDigit kept.1 c, kept.2 ++ computed kept.1 c)) (seatnum, all)).2 =
      all ++ computedFrom seatnum digits := by
  induction digits generalizing seatnum all with
  | nil => simp [computedFrom]
  | cons c digits ih => rw [List.foldl_cons, ih, computedFrom, List.append_assoc]

theorem computations_eq (path key : List Char) : computations path key = computedFrom 0 (argumentDigits path key) := by
  rw [computations, parseLoop_eq, foldl_computed, List.nil_append]

/-- One digit is taken without an overflow exactly where the number stays 48 below the largest `int`. -/
theorem computed_inInt_iff {value : Nat} (before : value ≤ 2147483599) {c : Char} (isDigit : c.isDigit = true) :
    (∀ x ∈ computed value c, InInt x) ↔ 10 * value + (c.toNat - '0'.toNat) ≤ 2147483599 := by
  have digit := digit_toNat isDigit
  have zero : '0'.toNat = 48 := rfl
  simp only [computed, InInt, List.forall_mem_cons, List.not_mem_nil, false_implies, implies_true, and_true]
  by_cases tens : 10 * value < 2 ^ 31
  · have exact : wrap ((value : Int) * 10) = (10 * value : Nat) := by
      rw [← wrap_of_small tens]
      congr 1
      omega
    rw [exact]
    by_cases ones : 10 * value + c.toNat < 2 ^ 31
    · have whole : wrap ((10 * value : Nat) + (c.toNat : Int)) = (10 * value + c.toNat : Nat) := by
        rw [← wrap_of_small ones]
        congr 1
      rw [whole]
      omega
    · omega
  · omega

theorem le_ofDigitChars (digits : List Char) (value : Nat) : value ≤ Nat.ofDigitChars 10 digits value := by
  rw [Nat.ofDigitChars_eq_ofDigitChars_zero]
  have := Nat.le_mul_of_pos_left value (Nat.pow_pos (n := digits.length) (show 0 < 10 by decide))
  omega

theorem computedFrom_inInt_iff {digits : List Char} (isDigits : ∀ c ∈ digits, c.isDigit = true) {value : Nat}
    (before : value ≤ 2147483599) :
    (∀ x ∈ computedFrom value digits, InInt x) ↔ Nat.ofDigitChars 10 digits value ≤ 2147483599 := by
  induction digits generalizing value with
  | nil => simp [computedFrom, before]
  | cons c digits ih =>
    obtain ⟨first, later⟩ := List.forall_mem_cons.mp isDigits
    rw [computedFrom, List.forall_mem_append, computed_inInt_iff before first, Nat.ofDigitChars_cons]
    by_cases fits : 10 * value + (c.toNat - '0'.toNat) ≤ 2147483599
    · have next := addDigit_wrap value first
      rw [wrap_of_small (by omega), wrap_of_small (by omega)] at next
      rw [and_iff_right fits, next, ih later fits]
    · have more := le_ofDigitChars digits (10 * value + (c.toNat - '0'.toNat))
      exact iff_of_false (fun both => fits both.1) (by omega)

theorem computations_inInt_iff (path key : List Char) :
    (∀ x ∈ computations path key, InInt x) ↔ denoted path key ≤ 2147483599 := by
  rw [computations_eq, denoted]
  exact computedFrom_inInt_iff (isDigit_argumentDigits path key) (Nat.zero_le _)

theorem parseIntArg_exact {path key : List Char} (small : denoted path key ≤ 2147483599) :
    parseIntArg path key = denoted path key := by
  rw [parseIntArg_denoted, wrap_of_small (by omega)]

/-- An argument is read without an overflow exactly where its number stays 48 below the largest `int`, and two paths
    for which it does are decoded to the same number only where they name the same one. -/
theorem arguments_exact_iff (path key : List Char) :
    ((∀ x ∈ computations path key, InInt x) ↔ denoted path key ≤ 2147483599) ∧
      (denoted path key ≤ 2147483599 → ∀ path', denoted path' key ≤ 2147483599 →
        (parseIntArg path key = parseIntArg path' key ↔ denoted path key = denoted path' key)) := by
  refine ⟨computations_inInt_iff path key, ?_⟩
  intro small path' small'
  rw [parseIntArg_exact small, parseIntArg_exact small', Int.ofNat_inj]

/-- Seats 3 and 4 are told apart. -/
theorem small_seats_exact : (∀ x ∈ computations "confirm?seat=3".toList seat, InInt x) ∧
    parseIntArg "confirm?seat=3".toList seat ≠ parseIntArg "confirm?seat=4".toList seat := by
  have exactly := arguments_exact_iff "confirm?seat=3".toList seat
  constructor
  · exact exactly.1.mpr (by decide)
  · intro same
    exact absurd ((exactly.2 (by decide) _ (by decide)).mp same) (by decide)

/-- Seat 2^32 + 1 is taken for seat 1. -/
theorem large_seat_taken_for_one : ∃ path path' : List Char, path.length ≤ 99 ∧ path'.length ≤ 99 ∧
    (∃ x ∈ computations path seat, ¬ InInt x) ∧ parseIntArg path seat = parseIntArg path' seat ∧
      denoted path seat ≠ denoted path' seat := by
  have large : denoted "confirm?seat=4294967297".toList seat = 4294967297 := by decide
  have small : denoted "confirm?seat=1".toList seat = 1 := by decide
  refine ⟨"confirm?seat=4294967297".toList, "confirm?seat=1".toList, by decide, by decide, ?_, ?_, ?_⟩
  · by_contra none
    have fits := (computations_inInt_iff "confirm?seat=4294967297".toList seat).mp fun x member =>
      by_contra fun overflow => none ⟨x, member, overflow⟩
    rw [large] at fits
    omega
  · rw [parseIntArg_denoted, parseIntArg_denoted, large, small]
    decide
  · rw [large, small]
    decide

end Eecs343.Server.Connection
