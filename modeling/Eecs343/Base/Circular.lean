import Mathlib.Data.List.Basic
import Mathlib.Logic.Function.Basic

namespace Circular

variable {β : Type*}

/-- The slot after `i` in a circular array of `n` slots. -/
def succ (n i : Nat) : Nat := (i + 1) % n

/-- The number of slots from `start` up to `stop`. -/
def size (n start stop : Nat) : Nat := (stop + n - start) % n

/-- The contents of the slots from `start` up to, but not including, `stop`. -/
def window (n : Nat) (slots : Nat → β) (start stop : Nat) : List β :=
  (List.range (size n start stop)).map fun i => slots ((start + i) % n)

theorem succ_lt {n : Nat} (pos : 0 < n) (i : Nat) : succ n i < n := Nat.mod_lt _ pos

theorem succ_cases {n i : Nat} (bound : i < n) :
    (i + 1 < n ∧ succ n i = i + 1) ∨ (i + 1 = n ∧ succ n i = 0) := by
  unfold succ
  by_cases last : i + 1 = n
  · exact .inr ⟨last, by rw [last, Nat.mod_self]⟩
  · exact .inl ⟨by omega, Nat.mod_eq_of_lt (by omega)⟩

theorem size_cases {n start stop : Nat} (hs : start < n) (he : stop < n) :
    (start ≤ stop ∧ size n start stop = stop - start) ∨
      (stop < start ∧ size n start stop = stop + n - start) := by
  unfold size
  by_cases ordered : start ≤ stop
  · refine .inl ⟨ordered, ?_⟩
    rw [show stop + n - start = stop - start + n from by omega, Nat.add_mod_right]
    exact Nat.mod_eq_of_lt (by omega)
  · exact .inr ⟨by omega, Nat.mod_eq_of_lt (by omega)⟩

@[simp] theorem window_length (n : Nat) (slots : Nat → β) (start stop : Nat) :
    (window n slots start stop).length = size n start stop := by
  simp [window]

theorem size_eq_zero {n start stop : Nat} (hs : start < n) (he : stop < n) :
    size n start stop = 0 ↔ start = stop := by
  rcases size_cases hs he with ⟨_, h⟩ | ⟨_, h⟩ <;> omega

theorem window_empty {n : Nat} (slots : Nat → β) {start : Nat} (bound : start < n) :
    window n slots start start = [] := by
  rw [← List.length_eq_zero_iff, window_length]
  exact (size_eq_zero bound bound).mpr rfl

theorem slot_ne_stop {n start stop i : Nat} (hs : start < n) (he : stop < n)
    (inside : i < size n start stop) : (start + i) % n ≠ stop := by
  intro same
  by_cases wraps : start + i < n
  · rw [Nat.mod_eq_of_lt wraps] at same
    rcases size_cases hs he with ⟨_, h⟩ | ⟨_, h⟩ <;> omega
  · rw [Nat.mod_eq_sub_mod (by omega), Nat.mod_eq_of_lt
      (by rcases size_cases hs he with ⟨_, h⟩ | ⟨_, h⟩ <;> omega)] at same
    rcases size_cases hs he with ⟨_, h⟩ | ⟨_, h⟩ <;> omega

theorem size_succ_stop {n start stop : Nat} (hs : start < n) (he : stop < n)
    (room : succ n stop ≠ start) : size n start (succ n stop) = size n start stop + 1 := by
  have bound := succ_lt (n := n) (by omega) stop
  rcases succ_cases he with ⟨_, h⟩ | ⟨_, h⟩ <;>
    rcases size_cases hs he with ⟨_, k⟩ | ⟨_, k⟩ <;>
    rcases size_cases hs bound with ⟨_, l⟩ | ⟨_, l⟩ <;> omega

theorem size_full {n start stop : Nat} (hs : start < n) (he : stop < n) (full : succ n stop = start) :
    size n start stop + 1 = n := by
  rcases succ_cases he with ⟨_, h⟩ | ⟨_, h⟩ <;>
    rcases size_cases hs he with ⟨_, k⟩ | ⟨_, k⟩ <;> omega

/-- Writing the slot at `stop` and moving `stop` on appends, while a slot stays free. -/
theorem window_push {n : Nat} (slots : Nat → β) {start stop : Nat} (x : β) (hs : start < n) (he : stop < n)
    (room : succ n stop ≠ start) :
    window n (Function.update slots stop x) start (succ n stop) = window n slots start stop ++ [x] := by
  have filled : (start + size n start stop) % n = stop := by
    rcases size_cases hs he with ⟨_, h⟩ | ⟨_, h⟩
    · rw [h, show start + (stop - start) = stop from by omega, Nat.mod_eq_of_lt he]
    · rw [h, show start + (stop + n - start) = stop + n from by omega, Nat.add_mod_right,
        Nat.mod_eq_of_lt he]
  unfold window
  rw [size_succ_stop hs he room, List.range_succ, List.map_append, List.map_singleton, filled,
    Function.update_self]
  congr 1
  apply List.map_congr_left
  intro i member
  rw [Function.update_of_ne (slot_ne_stop hs he (List.mem_range.mp member))]

/-- A nonempty window starts with the slot at `start`; moving `start` on drops it. -/
theorem window_pop {n : Nat} (slots : Nat → β) {start stop : Nat} (hs : start < n) (he : stop < n)
    (nonempty : start ≠ stop) :
    window n slots start stop = slots start :: window n slots (succ n start) stop := by
  have bound := succ_lt (n := n) (by omega) start
  have shrinks : size n start stop = size n (succ n start) stop + 1 := by
    rcases succ_cases hs with ⟨_, h⟩ | ⟨_, h⟩ <;>
      rcases size_cases hs he with ⟨_, k⟩ | ⟨_, k⟩ <;>
      rcases size_cases bound he with ⟨_, l⟩ | ⟨_, l⟩ <;> omega
  unfold window
  rw [shrinks, List.range_succ_eq_map, List.map_cons, List.map_map]
  congr 1
  · rw [Nat.add_zero, Nat.mod_eq_of_lt hs]
  · apply List.map_congr_left
    intro i _
    simp only [Function.comp_apply, succ, Nat.mod_add_mod]
    rw [show start + 1 + i = start + i.succ from by omega]

end Circular
