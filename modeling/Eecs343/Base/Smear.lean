import Mathlib.Data.Nat.Bits
import Mathlib.Data.Nat.Bitwise

namespace Smear

/-- Or-ing a word with its right shifts by 1, 2, 4, 8 and 16. -/
def smear (x : BitVec 32) : BitVec 32 :=
  let x := x ||| x.sshiftRight 1
  let x := x ||| x.sshiftRight 2
  let x := x ||| x.sshiftRight 4
  let x := x ||| x.sshiftRight 8
  x ||| x.sshiftRight 16

def spread (x w : Nat) : Nat := x ||| x >>> w

theorem spread_lt {x w n : Nat} (bound : x < 2 ^ n) : spread x w < 2 ^ n :=
  Nat.or_lt_two_pow bound (Nat.lt_of_le_of_lt (Nat.shiftRight_le x w) bound)

theorem or_sshiftRight_toNat (x : BitVec 32) (w : Nat) (positive : x.toNat < 2 ^ 31) :
    (x ||| x.sshiftRight w).toNat = spread x.toNat w := by
  have msb : x.msb = false := by
    rw [BitVec.msb_eq_false_iff_two_mul_lt]
    omega
  rw [BitVec.sshiftRight_eq_of_msb_false msb, BitVec.toNat_or, BitVec.toNat_ushiftRight, spread]

theorem smear_toNat (x : BitVec 32) (positive : x.toNat < 2 ^ 31) :
    (smear x).toNat = spread (spread (spread (spread (spread x.toNat 1) 2) 4) 8) 16 := by
  unfold smear
  dsimp only
  have p1 := spread_lt (w := 1) positive
  have p2 := spread_lt (w := 2) p1
  have p3 := spread_lt (w := 4) p2
  have p4 := spread_lt (w := 8) p3
  have e1 := or_sshiftRight_toNat x 1 positive
  have e2 := or_sshiftRight_toNat _ 2 (e1 ▸ p1)
  have e3 := or_sshiftRight_toNat _ 4 (by rw [e2, e1]; exact p2)
  have e4 := or_sshiftRight_toNat _ 8 (by rw [e3, e2, e1]; exact p3)
  rw [or_sshiftRight_toNat _ 16 (by rw [e4, e3, e2, e1]; exact p4), e4, e3, e2, e1]

theorem smear_lt (x : BitVec 32) {n : Nat} (bound : x.toNat < 2 ^ n) (positive : n ≤ 31) : (smear x).toNat < 2 ^ n := by
  rw [smear_toNat x (Nat.lt_of_lt_of_le bound (Nat.pow_le_pow_right (by decide) positive))]
  exact spread_lt (spread_lt (spread_lt (spread_lt (spread_lt bound))))

/-- The highest `n` bits are set. -/
def Top (x : BitVec 32) (n : Nat) : Prop := ∀ i, 32 ≤ i + n → i < 32 → x.getLsbD i = true

theorem Top.spread {x : BitVec 32} {n w : Nat} (top : Top x n) (some : 0 < n) :
    Top (x ||| x.sshiftRight w) (n + w) := by
  intro i low high
  rw [BitVec.getLsbD_or, Bool.or_eq_true]
  by_cases own : 32 ≤ i + n
  · exact .inl (top i own high)
  · right
    have sign : x.msb = true := by
      rw [BitVec.msb_eq_getLsbD_last]
      exact top 31 (by omega) (by omega)
    rw [BitVec.getLsbD_sshiftRight]
    by_cases inside : w + i < 32
    · rw [if_pos inside, top (w + i) (by omega) inside]
      simp [high]
    · rw [if_neg inside, sign]
      simp [high]

theorem smear_negative (x : BitVec 32) (negative : x.msb = true) : smear x = -1 := by
  have one : Top x 1 := by
    intro i low high
    have last : i = 31 := by omega
    rw [last, ← negative, BitVec.msb_eq_getLsbD_last]
  have two := one.spread (w := 1) (by decide)
  have four := two.spread (w := 2) (by decide)
  have eight := four.spread (w := 4) (by decide)
  have sixteen := eight.spread (w := 8) (by decide)
  have all := sixteen.spread (w := 16) (by decide)
  have ones : (-1 : BitVec 32) = BitVec.allOnes 32 := rfl
  apply BitVec.eq_of_getLsbD_eq
  intro i inside
  rw [ones, BitVec.getLsbD_allOnes, decide_eq_true inside]
  exact all i (by omega) inside

/-- Bit `i` says whether one of the `w` bits from `i` up was set in `x`. -/
def Covers (x y w : Nat) : Prop := ∀ i, y.testBit i = true ↔ ∃ j < w, x.testBit (i + j) = true

theorem Covers.spread {x y w : Nat} (covers : Covers x y w) : Covers x (spread y w) (w + w) := by
  intro i
  rw [Smear.spread, Nat.testBit_or, Bool.or_eq_true, Nat.testBit_shiftRight, Nat.add_comm w i, covers, covers]
  constructor
  · rintro (⟨j, bound, set⟩ | ⟨j, bound, set⟩)
    · exact ⟨j, by omega, set⟩
    · exact ⟨w + j, by omega, by rw [← Nat.add_assoc]; exact set⟩
  · intro ⟨j, bound, set⟩
    by_cases low : j < w
    · exact .inl ⟨j, low, set⟩
    · exact .inr ⟨j - w, by omega, by rw [show i + w + (j - w) = i + j from by omega]; exact set⟩

theorem smear_eq (x : BitVec 32) {h : Nat} (low : 2 ^ h ≤ x.toNat) (high : x.toNat < 2 ^ (h + 1)) (bound : h < 31) :
    (smear x).toNat = 2 ^ (h + 1) - 1 := by
  have positive : x.toNat < 2 ^ 31 := Nat.lt_of_lt_of_le high (Nat.pow_le_pow_right (by decide) (by omega))
  have self : Covers x.toNat x.toNat 1 := fun i => by simp
  rw [smear_toNat x positive]
  apply Nat.eq_of_testBit_eq
  intro i
  rw [Bool.eq_iff_iff, self.spread.spread.spread.spread.spread i, Nat.testBit_two_pow_sub_one, decide_eq_true_eq]
  constructor
  · intro ⟨j, _, set⟩
    by_contra above
    have zero := Nat.testBit_lt_two_pow (i := i + j) (x := x.toNat)
      (Nat.lt_of_lt_of_le high (Nat.pow_le_pow_right (by decide) (by omega)))
    rw [zero] at set
    cases set
  · intro below
    refine ⟨h - i, by omega, ?_⟩
    rw [show i + (h - i) = h from by omega]
    exact Nat.testBit_of_two_pow_le_and_two_pow_add_one_gt low high

end Smear
