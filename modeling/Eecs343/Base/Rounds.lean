import Mathlib.Data.Nat.Init
import Mathlib.Tactic.TypeStar

/-! Loops given by one round, which goes on with a new state or ends with a result. -/

namespace Rounds

variable {σ α : Type*} {round : σ → σ ⊕ α}

/-- The loop ends in its round number `n` with the result `a`. -/
inductive Ends (round : σ → σ ⊕ α) : σ → Nat → α → Prop
  | last {s a} (stops : round s = .inr a) : Ends round s 1 a
  | more {s s' n a} (goes : round s = .inl s') (rest : Ends round s' n a) : Ends round s (n + 1) a

/-- The result of the loop within `fuel` rounds. -/
def within (round : σ → σ ⊕ α) : Nat → σ → Option α
  | 0, _ => none
  | fuel + 1, s => match round s with
    | .inl s' => within round fuel s'
    | .inr a => some a

theorem within_of_ends {s : σ} {n fuel : Nat} {a : α} (ends : Ends round s n a) (enough : n ≤ fuel) :
    within round fuel s = some a := by
  induction ends generalizing fuel with
  | last stops =>
    obtain ⟨fuel, rfl⟩ : ∃ k, fuel = k + 1 := ⟨fuel - 1, by omega⟩
    rw [within, stops]
  | more goes _ ih =>
    obtain ⟨fuel, rfl⟩ : ∃ k, fuel = k + 1 := ⟨fuel - 1, by omega⟩
    rw [within, goes]
    exact ih (by omega)

/-- A loop whose rounds that go on lower a measure ends, with at most one round more than the measure. -/
theorem ends_of_measure (measure : σ → Nat) (lowers : ∀ s s', round s = .inl s' → measure s' < measure s) (s : σ) :
    ∃ n ≤ measure s + 1, ∃ a, Ends round s n a := by
  induction bound : measure s using Nat.strong_induction_on generalizing s with
  | _ k ih =>
    cases here : round s with
    | inr a => exact ⟨1, by omega, a, .last here⟩
    | inl s' =>
      have lower := lowers s s' here
      obtain ⟨n, few, a, ends⟩ := ih (measure s') (by omega) s' rfl
      exact ⟨n + 1, by omega, a, .more here ends⟩

end Rounds
