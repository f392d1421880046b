import Mathlib.Algebra.Order.Ring.Int
import Mathlib.Logic.Function.Basic
import Mathlib.Tactic.Common
import Mathlib.Tactic.Ring

namespace Bytes

/-- Byte-addressed memory. Addresses are integers, so that signed comparisons are `<`. -/
abbrev Memory := Int → BitVec 8

variable {m m' : Memory} {a b v : Int} {n k : Nat}

/-- The unsigned little-endian number in the `n` bytes from `a`. -/
def loadNat (m : Memory) (a : Int) : Nat → Nat
  | 0 => 0
  | n + 1 => (m a).toNat + 256 * loadNat m (a + 1) n

def storeNat (m : Memory) (a : Int) : Nat → Nat → Memory
  | 0, _ => m
  | n + 1, v => storeNat (Function.update m a (BitVec.ofNat 8 v)) (a + 1) n (v / 256)

/-- The two's complement number in the `n` bytes from `a`. -/
def load (m : Memory) (n : Nat) (a : Int) : Int := Int.bmod (loadNat m a n) (256 ^ n)

def store (m : Memory) (n : Nat) (a v : Int) : Memory := storeNat m a n (v % (256 ^ n : Nat)).toNat

/-- `v` is a two's complement number of `n` bytes. -/
def Fits (n : Nat) (v : Int) : Prop := -(256 ^ n : Nat) ≤ 2 * v ∧ 2 * v < (256 ^ n : Nat)

/-- The bytes of a string of Latin characters. -/
def literal (s : String) : List (BitVec 8) := s.toList.map fun c => BitVec.ofNat 8 c.toNat

theorem storeNat_outside (m : Memory) (a : Int) (n v : Nat) {x : Int} (outside : x < a ∨ a + n ≤ x) :
    storeNat m a n v x = m x := by
  induction n generalizing m a v with
  | zero => rfl
  | succ n ih =>
    rw [storeNat, ih _ _ _ (by omega), Function.update_of_ne (by omega)]

theorem loadNat_lt (m : Memory) (a : Int) (n : Nat) : loadNat m a n < 256 ^ n := by
  induction n generalizing a with
  | zero => exact Nat.one_pos
  | succ n ih =>
    have byte := (m a).isLt
    have rest := ih (a + 1)
    rw [loadNat, Nat.pow_succ']
    omega

theorem loadNat_congr (same : ∀ x, a ≤ x → x < a + n → m' x = m x) : loadNat m' a n = loadNat m a n := by
  induction n generalizing a with
  | zero => rfl
  | succ n ih =>
    rw [loadNat, loadNat, same a (by omega) (by omega), ih fun x low high => same x (by omega) (by omega)]

theorem loadNat_storeNat (m : Memory) (a : Int) (n v : Nat) :
    loadNat (storeNat m a n v) a n = v % 256 ^ n := by
  induction n generalizing m a v with
  | zero => rw [loadNat, Nat.pow_zero, Nat.mod_one]
  | succ n ih =>
    rw [storeNat, loadNat, ih, storeNat_outside _ _ _ _ (.inl (by omega)), Function.update_self,
      BitVec.toNat_ofNat, show 256 ^ (n + 1) = 256 * 256 ^ n from Nat.pow_succ', Nat.mod_mul]

theorem store_outside (m : Memory) (n : Nat) (a v : Int) {x : Int} (outside : x < a ∨ a + n ≤ x) :
    store m n a v x = m x := storeNat_outside _ _ _ _ outside

theorem load_congr (same : ∀ x, a ≤ x → x < a + n → m' x = m x) : load m' n a = load m n a := by
  rw [load, load, loadNat_congr same]

theorem load_store_of_disjoint (m : Memory) (v : Int) (disjoint : b + k ≤ a ∨ a + n ≤ b) :
    load (store m n a v) k b = load m k b :=
  load_congr fun _ _ _ => store_outside m n a v (by omega)

theorem load_store (m : Memory) (fits : Fits n v) : load (store m n a v) n a = v := by
  obtain ⟨low, high⟩ := fits
  have pos : (0 : Int) < (256 ^ n : Nat) := by exact_mod_cast Nat.pow_pos (by decide)
  have nonneg := Int.emod_nonneg v (Int.ne_of_gt pos)
  have below := Int.emod_lt_of_pos v pos
  rw [load, store, loadNat_storeNat, Nat.mod_eq_of_lt (by omega), Int.toNat_of_nonneg nonneg,
    Int.emod_bmod]
  exact Int.bmod_eq_of_le (by omega) (by omega)

theorem fits_zero (n : Nat) : Fits n 0 := ⟨by simp, by simp⟩

end Bytes
