import Eecs343.Base.Smear
import Eecs343.Kma.Buddy.Program
import Mathlib.Tactic.IntervalCases
import Mathlib.Tactic.Ring

namespace Eecs343.Kma.Buddy

/-- The length of the blocks on the list `buffer<32 * 2 ^ k>`. -/
def blockSize (k : Nat) : Int := 32 * 2 ^ k

theorem blockSize_succ (k : Nat) : blockSize (k + 1) = 2 * blockSize k := by
  unfold blockSize
  ring

theorem blockSize_pos (k : Nat) : 32 ≤ blockSize k := by
  unfold blockSize
  have : (0 : Int) < 2 ^ k := pow_pos (by decide) k
  omega

theorem blockSize_mono {j k : Nat} (le : j ≤ k) : blockSize j ≤ blockSize k := by
  unfold blockSize
  have := pow_le_pow_right₀ (a := (2 : Int)) (by decide) le
  omega

theorem blockSize_le_iff {j k : Nat} : blockSize j ≤ blockSize k ↔ j ≤ k := by
  constructor
  · intro le
    by_contra less
    have double := blockSize_mono (show k + 1 ≤ j by omega)
    have positive := blockSize_pos k
    rw [blockSize_succ] at double
    omega
  · exact blockSize_mono

theorem blockSize_dvd {j k : Nat} (le : j ≤ k) : blockSize j ∣ blockSize k :=
  mul_dvd_mul_left 32 (pow_dvd_pow 2 le)

theorem blockSize_cases {k : Nat} (bound : k < 9) :
    (k = 0 ∧ blockSize k = 32) ∨ (k = 1 ∧ blockSize k = 64) ∨ (k = 2 ∧ blockSize k = 128) ∨
      (k = 3 ∧ blockSize k = 256) ∨ (k = 4 ∧ blockSize k = 512) ∨ (k = 5 ∧ blockSize k = 1024) ∨
      (k = 6 ∧ blockSize k = 2048) ∨ (k = 7 ∧ blockSize k = 4096) ∨ (k = 8 ∧ blockSize k = 8192) := by
  interval_cases k <;> decide

theorem sizeClass_lt (size : Int) : sizeClass size < 9 := by
  unfold sizeClass
  repeat' split
  all_goals decide

theorem sizeClass_cases {size : Int} (high : size ≤ 8192) :
    size ≤ blockSize (sizeClass size) ∧
      (sizeClass size = 0 ∨ blockSize (sizeClass size - 1) < size) := by
  unfold sizeClass
  repeat' split
  all_goals simp [blockSize]; omega

theorem sizeClass_le {size : Int} {k : Nat} (high : size ≤ blockSize k) : sizeClass size ≤ k := by
  by_contra larger
  have bound := sizeClass_lt size
  have top : blockSize 8 = 8192 := rfl
  have last : blockSize k ≤ blockSize 8 := blockSize_mono (by omega)
  have before : blockSize k ≤ blockSize (sizeClass size - 1) := blockSize_mono (by omega)
  rcases (sizeClass_cases (show size ≤ 8192 by omega)).2 with smallest | below
  · omega
  · omega

theorem sizeClass_mono {a b : Int} (le : a ≤ b) (high : b ≤ 8192) : sizeClass a ≤ sizeClass b :=
  sizeClass_le (Int.le_trans le (sizeClass_cases high).1)

theorem sizeClass_blockSize {k : Nat} (bound : k < 9) : sizeClass (blockSize k) = k := by
  rcases blockSize_cases bound with ⟨rfl, h⟩ | ⟨rfl, h⟩ | ⟨rfl, h⟩ | ⟨rfl, h⟩ | ⟨rfl, h⟩ | ⟨rfl, h⟩ |
    ⟨rfl, h⟩ | ⟨rfl, h⟩ | ⟨rfl, h⟩ <;> rw [h] <;> rfl

theorem roundUp_smear (x : Int) :
    roundUp x = if (Smear.smear (BitVec.ofInt 32 x - 1) + 1).toInt < 32 then 32
      else (Smear.smear (BitVec.ofInt 32 x - 1) + 1).toInt := rfl

/-- Between two powers of two `round_up` gives the larger one, and never less than 32. -/
theorem roundUp_eq {x : Int} {h : Nat} (low : 2 ^ h < x) (high : x ≤ 2 ^ (h + 1)) (bound : h < 30) :
    roundUp x = max 32 (2 ^ (h + 1)) := by
  have small : (2 : Int) ^ (h + 1) ≤ 2 ^ 30 := pow_le_pow_right₀ (by decide) bound
  have positive : (0 : Int) < 2 ^ h := pow_pos (by decide) h
  have before : (BitVec.ofInt 32 x - 1).toNat = (x - 1).toNat := by
    have shifted : BitVec.ofInt 32 x - 1 = BitVec.ofInt 32 (x - 1) := by
      rw [Int.sub_eq_add_neg, BitVec.ofInt_add, BitVec.sub_eq_add_neg]
      rfl
    rw [shifted, BitVec.toNat_ofInt, Int.emod_eq_of_lt (by omega) (by omega)]
  have floor : (2 ^ h : Nat) ≤ (x - 1).toNat := by
    have : ((2 ^ h : Nat) : Int) = 2 ^ h := by push_cast; rfl
    omega
  have ceiling : (x - 1).toNat < 2 ^ (h + 1) := by
    have : ((2 ^ (h + 1) : Nat) : Int) = 2 ^ (h + 1) := by push_cast; rfl
    omega
  have smeared := Smear.smear_eq (BitVec.ofInt 32 x - 1) (before ▸ floor) (before ▸ ceiling) (by omega)
  have power : (2 ^ (h + 1) : Nat) ≤ 2 ^ 30 := Nat.pow_le_pow_right (by decide) bound
  have nonzero : 0 < (2 ^ (h + 1) : Nat) := Nat.two_pow_pos _
  have after : (Smear.smear (BitVec.ofInt 32 x - 1) + 1).toInt = 2 ^ (h + 1) := by
    have sum : (Smear.smear (BitVec.ofInt 32 x - 1) + 1).toNat = 2 ^ (h + 1) := by
      rw [BitVec.toNat_add, smeared]
      change (2 ^ (h + 1) - 1 + 1) % 2 ^ 32 = 2 ^ (h + 1)
      rw [Nat.sub_add_cancel nonzero, Nat.mod_eq_of_lt (by omega)]
    rw [BitVec.toInt_eq_toNat_of_lt (by rw [sum]; omega), sum]
    push_cast
    rfl
  rw [roundUp_smear, after]
  split <;> omega

theorem roundUp_small {x : Int} (low : 1 ≤ x) (high : x ≤ 32) : roundUp x = 32 := by
  by_cases one : x = 1
  · subst one
    decide
  · have cases : 2 = x ∨ (2 < x ∧ x ≤ 4) ∨ (4 < x ∧ x ≤ 8) ∨ (8 < x ∧ x ≤ 16) ∨ (16 < x ∧ x ≤ 32) := by omega
    rcases cases with rfl | ⟨l, h⟩ | ⟨l, h⟩ | ⟨l, h⟩ | ⟨l, h⟩
    · decide
    · exact (roundUp_eq (h := 1) l h (by decide)).trans (by decide)
    · exact (roundUp_eq (h := 2) l h (by decide)).trans (by decide)
    · exact (roundUp_eq (h := 3) l h (by decide)).trans (by decide)
    · exact (roundUp_eq (h := 4) l h (by decide)).trans (by decide)

/-- The bit smearing and the ladder of `get_required_buffer` name the same class. -/
theorem roundUp_sizeClass {x : Int} (low : 1 ≤ x) (high : x ≤ 8192) : roundUp x = blockSize (sizeClass x) := by
  unfold sizeClass
  split
  · next h => rw [roundUp_small low h]; rfl
  repeat' split
  all_goals simp only [blockSize]
  · exact (roundUp_eq (h := 5) (by omega) (by omega) (by decide)).trans (by decide)
  · exact (roundUp_eq (h := 6) (by omega) (by omega) (by decide)).trans (by decide)
  · exact (roundUp_eq (h := 7) (by omega) (by omega) (by decide)).trans (by decide)
  · exact (roundUp_eq (h := 8) (by omega) (by omega) (by decide)).trans (by decide)
  · exact (roundUp_eq (h := 9) (by omega) (by omega) (by decide)).trans (by decide)
  · exact (roundUp_eq (h := 10) (by omega) (by omega) (by decide)).trans (by decide)
  · exact (roundUp_eq (h := 11) (by omega) (by omega) (by decide)).trans (by decide)
  · exact (roundUp_eq (h := 12) (by omega) (by omega) (by decide)).trans (by decide)

theorem roundUp_blockSize {k : Nat} (bound : k < 9) : roundUp (blockSize k) = blockSize k := by
  have low := blockSize_pos k
  have high : blockSize k ≤ blockSize 8 := blockSize_mono (by omega)
  rw [roundUp_sizeClass (by omega) high, sizeClass_blockSize bound]

end Eecs343.Kma.Buddy
