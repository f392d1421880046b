import Eecs343.Kma.Buddy.Rep
import Mathlib.Data.Nat.Log
import Mathlib.Order.Bounds.Basic

namespace Eecs343.Kma.Buddy

/-- `x--` and `x++` of an `int`, which are defined where they do not overflow. -/
def decrement (x : BitVec 32) : Option (BitVec 32) := if x.ssubOverflow 1 then none else some (x - 1)

def increment (x : BitVec 32) : Option (BitVec 32) := if x.saddOverflow 1 then none else some (x + 1)

/-- `round_up` with its overflows: of its operations only the first and the last can have one. -/
def roundUpChecked (x : Int) : Option Int := do
  let x ← decrement (BitVec.ofInt 32 x)
  let x := x ||| x.sshiftRight 1
  let x := x ||| x.sshiftRight 2
  let x := x ||| x.sshiftRight 4
  let x := x ||| x.sshiftRight 8
  let x := x ||| x.sshiftRight 16
  let x ← increment x
  return if x.toInt < 32 then 32 else x.toInt

theorem roundUpChecked_eq (x : Int) : roundUpChecked x = (decrement (BitVec.ofInt 32 x)).bind fun y =>
    (increment (Smear.smear y)).map fun z => if z.toInt < 32 then 32 else z.toInt := by
  unfold roundUpChecked
  cases decrement (BitVec.ofInt 32 x) with
  | none => rfl
  | some y =>
    change (increment (Smear.smear y)).bind _ = Option.map _ _
    cases increment (Smear.smear y) <;> rfl

theorem toInt_int {x : Int} (low : -2 ^ 31 ≤ x) (high : x < 2 ^ 31) : (BitVec.ofInt 32 x).toInt = x := by
  rw [BitVec.toInt_ofInt]
  exact Int.bmod_eq_of_le (by omega) (by omega)

theorem before_smear {x : Int} (low : 1 ≤ x) (high : x ≤ 2 ^ 30) : (BitVec.ofInt 32 x - 1).toNat = (x - 1).toNat := by
  have shifted : BitVec.ofInt 32 x - 1 = BitVec.ofInt 32 (x - 1) := by
    rw [Int.sub_eq_add_neg, BitVec.ofInt_add, BitVec.sub_eq_add_neg]
    rfl
  rw [shifted, BitVec.toNat_ofInt, Int.emod_eq_of_lt (by omega) (by omega)]

theorem roundUpChecked_some {x : Int} (low : 1 ≤ x) (high : x ≤ 2 ^ 30) : roundUpChecked x = some (roundUp x) := by
  have start : decrement (BitVec.ofInt 32 x) = some (BitVec.ofInt 32 x - 1) := by
    apply if_neg
    rw [BitVec.ssubOverflow, toInt_int (by omega) (by omega)]
    have one : (1 : BitVec 32).toInt = 1 := rfl
    rw [one]
    simp only [Bool.or_eq_true, decide_eq_true_eq]
    omega
  have small : (Smear.smear (BitVec.ofInt 32 x - 1)).toNat < 2 ^ 30 := by
    apply Smear.smear_lt _ _ (by decide)
    rw [before_smear low high]
    omega
  have finish : increment (Smear.smear (BitVec.ofInt 32 x - 1)) = some (Smear.smear (BitVec.ofInt 32 x - 1) + 1) := by
    apply if_neg
    rw [BitVec.saddOverflow, BitVec.toInt_eq_toNat_of_lt (by omega)]
    have one : (1 : BitVec 32).toInt = 1 := rfl
    rw [one]
    simp only [Bool.or_eq_true, decide_eq_true_eq]
    omega
  rw [roundUpChecked_eq, start, Option.bind_some, finish, Option.map_some, roundUp_smear]

/-- `round_up` gives the least power of two that is not less than its argument, or 32. -/
theorem roundUp_least {x : Int} (low : 1 ≤ x) (high : x ≤ 2 ^ 30) :
    ∃ q, IsLeast {p : Int | (∃ n : Nat, p = 2 ^ n) ∧ x ≤ p} q ∧ roundUp x = max 32 q := by
  by_cases one : x = 1
  · subst one
    refine ⟨1, ⟨⟨⟨0, rfl⟩, Int.le_refl 1⟩, ?_⟩, by decide⟩
    intro p ⟨_, above⟩
    exact above
  · obtain ⟨n, rfl⟩ : ∃ n : Nat, x = n := ⟨x.toNat, by omega⟩
    obtain ⟨h, floor⟩ : ∃ h, Nat.log 2 (n - 1) = h := ⟨_, rfl⟩
    have below : 2 ^ h ≤ n - 1 := floor ▸ Nat.pow_log_le_self 2 (by omega)
    have above : n - 1 < 2 ^ (h + 1) := floor ▸ Nat.lt_pow_succ_log_self (by decide) _
    have most : n ≤ 2 ^ 30 := by exact_mod_cast high
    have bound : h < 30 := (Nat.pow_lt_pow_iff_right (show 1 < 2 by decide)).mp (by omega)
    have left : (2 : Int) ^ h < n := by
      have : (2 ^ h : Nat) < n := by omega
      exact_mod_cast this
    have right : (n : Int) ≤ 2 ^ (h + 1) := by
      have : n ≤ 2 ^ (h + 1) := by omega
      exact_mod_cast this
    refine ⟨2 ^ (h + 1), ⟨⟨⟨h + 1, rfl⟩, right⟩, ?_⟩, roundUp_eq left right bound⟩
    intro p ⟨⟨k, power⟩, reaches⟩
    subst power
    have larger : h < k := (pow_lt_pow_iff_right₀ (show (1 : Int) < 2 by decide)).mp (Int.lt_of_lt_of_le left reaches)
    exact pow_le_pow_right₀ (by decide) larger

theorem roundUp_nonpos {x : Int} (low : -2 ^ 31 ≤ x) (high : x ≤ 0) : roundUp x = 32 := by
  by_cases lowest : x = -2 ^ 31
  · subst lowest
    decide
  · have before : (BitVec.ofInt 32 x - 1).toInt = x - 1 := by
      have shifted : BitVec.ofInt 32 x - 1 = BitVec.ofInt 32 (x - 1) := by
        rw [Int.sub_eq_add_neg, BitVec.ofInt_add, BitVec.sub_eq_add_neg]
        rfl
      rw [shifted]
      exact toInt_int (by omega) (by omega)
    have negative : (BitVec.ofInt 32 x - 1).msb = true := by
      rw [BitVec.msb_eq_toInt, decide_eq_true_eq, before]
      omega
    rw [roundUp_smear, Smear.smear_negative _ negative]
    rfl

variable [Target]

theorem buffer_inj {header : Int} {j k : Nat} : buffer header j = buffer header k ↔ j = k := by
  constructor
  · intro same
    by_contra other
    have := ptr_bounds
    have := buffer_apart header other
    omega
  · exact congrArg (buffer header)

/-- Of the nine lists the ladder selects the one whose blocks have the rounded length. -/
theorem getRequiredBuffer_iff {x header : Int} {k : Nat} (low : -2 ^ 31 ≤ x) (high : x ≤ 8192) (page : header ≠ 0)
    (bound : k < 9) :
    getRequiredBuffer x header = buffer header k ↔ blockSize k = roundUp x := by
  have rounded : roundUp x = blockSize (sizeClass x) := by
    by_cases positive : 1 ≤ x
    · exact roundUp_sizeClass positive high
    · rw [roundUp_nonpos low (by omega), sizeClass, if_pos (by omega)]
      rfl
  rw [getRequiredBuffer, if_neg page, buffer_inj, rounded]
  constructor
  · intro same
    rw [same]
  · intro same
    rw [← sizeClass_blockSize bound, same, sizeClass_blockSize (sizeClass_lt x)]

/-- `round_up` and `get_required_buffer` name the same class. -/
theorem size_classes_agree :
    (∀ x : Int, 1 ≤ x → x ≤ 2 ^ 30 → roundUpChecked x = some (roundUp x) ∧
      ∃ q, IsLeast {p : Int | (∃ n : Nat, p = 2 ^ n) ∧ x ≤ p} q ∧ roundUp x = max 32 q) ∧
    ∀ x header : Int, -2 ^ 31 ≤ x → x ≤ 8192 → header ≠ 0 →
      (∃ k < 9, getRequiredBuffer x header = buffer header k) ∧
        ∀ k < 9, (getRequiredBuffer x header = buffer header k ↔ blockSize k = roundUp x) := by
  constructor
  · intro x low high
    exact ⟨roundUpChecked_some low high, roundUp_least low high⟩
  · intro x header low high page
    refine ⟨⟨sizeClass x, sizeClass_lt x, if_neg page⟩, ?_⟩
    intro k bound
    exact getRequiredBuffer_iff low high page bound

omit [Target] in
theorem size_classes_agree_at_33 : ∃ target : Target, target.ptr = 8 ∧ roundUpChecked 33 = some 64 ∧
    getRequiredBuffer 33 8216 = buffer 8216 1 := by
  let target : Target := ⟨8, .inr rfl⟩
  have agree := size_classes_agree
  have rounded : roundUp 33 = 64 := by decide
  refine ⟨target, rfl, ?_, ?_⟩
  · rw [(agree.1 33 (by decide) (by decide)).1, rounded]
  · exact ((agree.2 33 8216 (by decide) (by decide) (by decide)).2 1 (by decide)).mpr rounded.symm

end Eecs343.Kma.Buddy
