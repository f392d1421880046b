import Mathlib.Data.List.Basic
import Mathlib.Tactic.Common

namespace Linked

variable {α : Type*} {next next' : α → α} {p q r : α} {l l' : List α}

theorem mem_replace {x y : α} (member : x ∈ l ++ y :: l') : x = y ∨ x ∈ l ++ l' := by
  simp only [List.mem_append, List.mem_cons] at member ⊢
  tauto

theorem mem_beside {x y : α} (member : x ∈ l ++ l') : x ∈ l ++ y :: l' := by
  simp only [List.mem_append, List.mem_cons] at member ⊢
  tauto

/-- Following `next` from `p` visits the nodes of `l` and arrives at `q`. -/
def Path (next : α → α) : α → List α → α → Prop
  | p, [], q => p = q
  | p, node :: l, q => p = node ∧ Path next (next node) l q

@[simp] theorem path_nil : Path next p [] q ↔ p = q := Iff.rfl

@[simp] theorem path_cons {node : α} : Path next p (node :: l) q ↔ p = node ∧ Path next (next node) l q := Iff.rfl

theorem path_append : Path next p (l ++ l') q ↔ ∃ r, Path next p l r ∧ Path next r l' q := by
  induction l generalizing p with
  | nil => simp
  | cons node l ih => simp [ih, and_assoc]

theorem Path.congr (path : Path next p l q) (same : ∀ node ∈ l, next' node = next node) : Path next' p l q := by
  induction l generalizing p with
  | nil => exact path
  | cons node l ih =>
    refine ⟨path.1, ?_⟩
    rw [same node List.mem_cons_self]
    exact ih path.2 fun other member => same other (List.mem_cons_of_mem _ member)

theorem Path.start (path : Path next p l q) : p = l.headD q := by
  cases l with
  | nil => exact path
  | cons node l => exact path.1

theorem Path.unique (path : Path next p l q) (path' : Path next p l' q) (short : q ∉ l) (short' : q ∉ l') : l = l' := by
  induction l generalizing p l' with
  | nil =>
    cases l' with
    | nil => rfl
    | cons node l' => exact absurd (path'.1 ▸ (path : p = q) ▸ List.mem_cons_self) short'
  | cons node l ih =>
    obtain ⟨rfl, rest⟩ := path
    cases l' with
    | nil => exact absurd ((path' : p = q) ▸ List.mem_cons_self) short
    | cons node' l' =>
      obtain ⟨rfl, rest'⟩ := path'
      rw [ih rest rest' (fun member => short (List.mem_cons_of_mem _ member)) fun member =>
        short' (List.mem_cons_of_mem _ member)]

theorem Path.relink {node : α} {after : List α} (path : Path next p (l ++ node :: l') q)
    (same : ∀ other ∈ l, next' other = next other) (rest : Path next' (next' node) after r) :
    Path next' p (l ++ node :: after) r := by
  obtain ⟨middle, first, second⟩ := path_append.mp path
  exact path_append.mpr ⟨middle, first.congr same, second.1, rest⟩

end Linked
