import Eecs343.Base.Bytes

namespace Bytes

/-- The addresses from `low` to `high`. -/
structure Window where
  low : Int
  high : Int

namespace Window

def Has (w : Window) (p : Int) : Prop := w.low ≤ p ∧ p ≤ w.high

instance (w : Window) (p : Int) : Decidable (w.Has p) := inferInstanceAs (Decidable (_ ∧ _))

def peek (w : Window) (m : Memory) (p : Int) : Option (BitVec 8) := if w.Has p then some (m p) else none

def poke (w : Window) (m : Memory) (p : Int) (b : BitVec 8) : Option Memory :=
  if w.Has p then some (Function.update m p b) else none

/-- Writes one after the other, from `p` on. -/
def pokeAll (w : Window) : Memory → Int → List (BitVec 8) → Option Memory
  | m, _, [] => some m
  | m, p, b :: l => (w.poke m p b).bind fun m => w.pokeAll m (p + 1) l

variable {w : Window} {m m' : Memory} {p : Int} {b x : BitVec 8} {l : List (BitVec 8)}

theorem peek_inside (inside : w.Has p) : w.peek m p = some (m p) := if_pos inside

theorem peek_outside (outside : ¬ w.Has p) : w.peek m p = none := if_neg outside

theorem poke_inside (inside : w.Has p) : w.poke m p b = some (Function.update m p b) := if_pos inside

theorem poke_outside (outside : ¬ w.Has p) : w.poke m p b = none := if_neg outside

theorem pokeAll_outside (start : p ≤ w.high + 1) (beyond : w.high + 1 < p + l.length) : w.pokeAll m p l = none := by
  induction l generalizing m p with
  | nil =>
    rw [List.length_nil] at beyond
    omega
  | cons b l ih =>
    rw [List.length_cons] at beyond
    rw [pokeAll, poke]
    split
    · rename_i inside
      exact ih (by have := inside.2; omega) (by omega)
    · rfl

/-- What is written inside the window stands there afterwards, and everything else as before. -/
theorem pokeAll_inside (start : w.low ≤ p) (inside : p + l.length ≤ w.high + 1) :
    ∃ m', w.pokeAll m p l = some m' ∧ (∀ i < l.length, m' (p + i) = l.getD i 0) ∧ ∀ x, x < p ∨ p + l.length ≤ x → m' x = m x := by
  induction l generalizing m p with
  | nil => exact ⟨m, rfl, by simp, fun _ _ => rfl⟩
  | cons b l ih =>
    rw [List.length_cons] at inside
    obtain ⟨m', done, new, old⟩ := @ih (Function.update m p b) (p + 1) (by omega) (by omega)
    refine ⟨m', ?_, ?_, ?_⟩
    · rw [pokeAll, poke_inside ⟨start, by omega⟩, Option.bind_some, done]
    · intro i bound
      cases i with
      | zero =>
        rw [Nat.cast_zero, Int.add_zero, old p (.inl (by omega))]
        exact Function.update_self ..
      | succ i =>
        have next := new i (Nat.lt_of_succ_lt_succ bound)
        rwa [Int.add_assoc, Int.add_comm 1, ← Nat.cast_one, ← Nat.cast_add] at next
    · intro x outside
      rw [List.length_cons] at outside
      rw [old x (by omega)]
      exact Function.update_of_ne (by omega) ..

end Window

end Bytes
