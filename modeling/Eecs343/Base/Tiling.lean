import Mathlib.Data.List.Chain
import Mathlib.Tactic.Common

namespace Tiling

structure Tile (κ : Type*) where
  start : Int
  size : Int
  label : κ

variable {κ : Type*} {a b z n : Int} {t u : Tile κ} {l m r : List (Tile κ)}

/-- The tiles of `l` lie one behind the other from `a` to `z`, without a gap. -/
def Tiled : Int → List (Tile κ) → Int → Prop
  | a, [], z => a = z
  | a, t :: l, z => t.start = a ∧ 0 < t.size ∧ Tiled (a + t.size) l z

@[simp] theorem tiled_nil : Tiled a ([] : List (Tile κ)) z ↔ a = z := Iff.rfl

@[simp] theorem tiled_cons : Tiled a (t :: l) z ↔ t.start = a ∧ 0 < t.size ∧ Tiled (a + t.size) l z := Iff.rfl

theorem tiled_append : Tiled a (l ++ r) z ↔ ∃ b, Tiled a l b ∧ Tiled b r z := by
  induction l generalizing a with
  | nil => simp
  | cons t l ih => simp [ih, and_assoc]

theorem Tiled.inside (tiled : Tiled a l z) (member : t ∈ l) : a ≤ t.start ∧ t.start + t.size ≤ z ∧ 0 < t.size := by
  have bound : ∀ {a : Int} {l : List (Tile κ)}, Tiled a l z → a ≤ z ∧
      ∀ t ∈ l, a ≤ t.start ∧ t.start + t.size ≤ z ∧ 0 < t.size := by
    intro a l tiled
    induction l generalizing a with
    | nil => exact ⟨Int.le_of_eq tiled, by simp⟩
    | cons u l ih =>
      obtain ⟨start, positive, rest⟩ := tiled
      obtain ⟨short, inside⟩ := ih rest
      refine ⟨by omega, List.forall_mem_cons.mpr ⟨by omega, fun t member => ?_⟩⟩
      have := inside t member
      omega
  exact (bound tiled).2 t member

theorem Tiled.ordered (tiled : Tiled a l z) : l.Pairwise fun t u => t.start + t.size ≤ u.start := by
  induction l generalizing a with
  | nil => exact .nil
  | cons t l ih =>
    obtain ⟨start, _, rest⟩ := tiled
    refine List.pairwise_cons.mpr ⟨fun u member => ?_, ih rest⟩
    have := rest.inside member
    omega

theorem forall_replaced {α : Type*} {p : α → Prop} {l r : List α} {t u : α} (all : ∀ v ∈ l ++ t :: r, p v)
    (new : p t → p u) :
    ∀ v ∈ l ++ u :: r, p v := by
  intro v member
  have here : v ∈ l ∨ v = u ∨ v ∈ r := by simpa using member
  rcases here with left | rfl | right
  · exact all v (by simp [left])
  · exact new (all t (by simp))
  · exact all v (by simp [right])

theorem pairwise_replaced {α : Type*} {R : α → α → Prop} {l r : List α} {t u : α} (pairs : (l ++ t :: r).Pairwise R)
    (left : ∀ v, R v t → R v u) (right : ∀ v, R t v → R u v) : (l ++ u :: r).Pairwise R := by
  rw [List.pairwise_append, List.pairwise_cons] at pairs ⊢
  obtain ⟨before, ⟨first, after⟩, cross⟩ := pairs
  refine ⟨before, ⟨fun v member => right v (first v member), after⟩, fun v member w inside => ?_⟩
  rcases List.mem_cons.mp inside with rfl | inside
  · exact left v (cross v member t List.mem_cons_self)
  · exact cross v member w (List.mem_cons_of_mem _ inside)

theorem Tiled.replace (tiled : Tiled a (l ++ t :: r) z)
    (same : Tiled t.start m (t.start + t.size)) : Tiled a (l ++ (m ++ r)) z := by
  obtain ⟨b, before, start, _, after⟩ := tiled_append.mp tiled
  subst start
  exact tiled_append.mpr ⟨_, before, tiled_append.mpr ⟨_, same, after⟩⟩

theorem Tiled.single (tiled : Tiled a l z) (member : t ∈ l) (whole : t.size = z - a) : l = [t] := by
  obtain ⟨pre, post, rfl⟩ := List.append_of_mem member
  have here := tiled.inside member
  have none : ∀ u ∈ pre ++ post, False := by
    intro u inside
    have ordered := List.pairwise_append.mp tiled.ordered
    rcases List.mem_append.mp inside with left | right
    · have := ordered.2.2 u left t List.mem_cons_self
      have := tiled.inside (List.mem_append_left _ left)
      omega
    · have := (List.pairwise_cons.mp ordered.2.1).1 u right
      have := tiled.inside (List.mem_append_right _ (List.mem_cons_of_mem _ right))
      omega
  have empty := List.eq_nil_iff_forall_not_mem.mpr fun u member => none u member
  obtain ⟨rfl, rfl⟩ := List.append_eq_nil_iff.mp empty
  rfl

section merge

variable (p : κ → Prop) [DecidablePred p]

/-- Joins neighbours that both are as `p` says. -/
def merge : List (Tile κ) → List (Tile κ)
  | t :: u :: l =>
    if p t.label ∧ p u.label then merge (⟨t.start, t.size + u.size, t.label⟩ :: l) else t :: merge (u :: l)
  | l => l
termination_by l => l.length

/-- No two neighbours both are as `p` says. -/
def Apart (l : List (Tile κ)) : Prop := l.IsChain fun t u => ¬ (p t.label ∧ p u.label)

variable {p}

theorem Tiled.merge (tiled : Tiled a l z) : Tiled a (merge p l) z := by
  fun_induction Tiling.merge p l generalizing a with
  | case1 t u l both ih =>
    obtain ⟨start, positive, _, more, rest⟩ := tiled
    refine ih ⟨start, by dsimp only; omega, ?_⟩
    rwa [Int.add_assoc] at rest
  | case2 t u l single ih => exact ⟨tiled.1, tiled.2.1, ih tiled.2.2⟩
  | case3 l => exact tiled

theorem merge_head (t : Tile κ) (l : List (Tile κ)) :
    ∃ n r, merge p (t :: l) = ⟨t.start, n, t.label⟩ :: r := by
  generalize same : t :: l = whole
  fun_induction Tiling.merge p whole generalizing t l with
  | case1 t' u l' both ih =>
    cases same
    have head := ih _ _ rfl
    exact head
  | case2 t' u l' single ih =>
    cases same
    exact ⟨_, _, rfl⟩
  | case3 l' =>
    subst same
    exact ⟨_, _, rfl⟩

theorem merge_apart (l : List (Tile κ)) : Apart p (merge p l) := by
  unfold Apart
  fun_induction Tiling.merge p l with
  | case1 t u l both ih => exact ih
  | case2 t u l single ih =>
    obtain ⟨n, r, eq⟩ := merge_head (p := p) u l
    rw [eq] at ih ⊢
    exact List.isChain_cons_cons.mpr ⟨single, ih⟩
  | case3 l none =>
    cases l with
    | nil => exact .nil
    | cons t l =>
      cases l with
      | nil => exact List.isChain_singleton t
      | cons u l => exact absurd rfl (none t u l)

theorem merge_others (l : List (Tile κ)) :
    (merge p l).filter (fun t => ¬ p t.label) = l.filter (fun t => ¬ p t.label) := by
  fun_induction Tiling.merge p l with
  | case1 t u l both ih => rw [ih]; simp [both.1, both.2]
  | case2 t u l single ih => 
    by_cases here : p t.label
    · rw [List.filter_cons_of_neg (by simpa using here), ih, List.filter_cons_of_neg (a := t) (by simpa using here)]
    · rw [List.filter_cons_of_pos (by simpa using here), ih, List.filter_cons_of_pos (a := t) (by simpa using here)]
  | case3 l => rfl

theorem merge_stop (tiled : Tiled a l z) (member : t ∈ merge p l) :
    ∃ u ∈ l, u.start + u.size = t.start + t.size ∧ u.size ≤ t.size ∧ (t.label = u.label ∨ p t.label) := by
  fun_induction Tiling.merge p l generalizing a with
  | case1 v u l both ih =>
    obtain ⟨start, positive, next, more, rest⟩ := tiled
    rw [Int.add_assoc] at rest
    obtain ⟨w, inside, stop, shorter, label⟩ := ih ⟨start, by dsimp only; omega, rest⟩ member
    rcases List.mem_cons.mp inside with rfl | later
    · refine ⟨u, by simp, by dsimp only at stop; omega, by dsimp only at shorter; omega, .inr ?_⟩
      rcases label with same | joined
      · rw [same]
        exact both.1
      · exact joined
    · exact ⟨w, by simp [later], stop, shorter, label⟩
  | case2 v u l single ih =>
    rcases List.mem_cons.mp member with rfl | later
    · exact ⟨t, by simp, rfl, Int.le_refl _, .inl rfl⟩
    · obtain ⟨w, inside, facts⟩ := ih tiled.2.2 later
      exact ⟨w, List.mem_cons_of_mem _ inside, facts⟩
  | case3 l => exact ⟨t, member, rfl, Int.le_refl _, .inl rfl⟩

theorem merge_all (tiled : Tiled a (t :: l) z) (all : ∀ u ∈ t :: l, p u.label) :
    merge p (t :: l) = [⟨a, z - a, t.label⟩] := by
  have chain := merge_apart (p := p) (t :: l)
  have whole := tiled.merge (p := p)
  obtain ⟨n, r, eq⟩ := merge_head (p := p) t l
  have none := merge_others (p := p) (t :: l)
  rw [eq] at chain whole none ⊢
  have empty : (t :: l).filter (fun u => ¬ p u.label) = [] :=
    List.filter_eq_nil_iff.mpr fun u member => by simpa using all u member
  rw [empty] at none
  have free := List.filter_eq_nil_iff.mp none
  cases r with
  | nil =>
    obtain ⟨start, _, stop⟩ := whole
    rw [tiled_nil] at stop
    dsimp only at start stop
    rw [start, show n = z - a from by omega]
  | cons u r =>
    have first := free u (by simp)
    have head := all t List.mem_cons_self
    exact absurd ⟨head, by simpa using first⟩ (List.isChain_cons_cons.mp chain).1

theorem Apart.merge_eq (apart : Apart p l) : merge p l = l := by
  unfold Apart at apart
  fun_induction Tiling.merge p l with
  | case1 t u l both ih => exact absurd both (List.isChain_cons_cons.mp apart).1
  | case2 t u l single ih => rw [ih (List.isChain_cons_cons.mp apart).2]
  | case3 l => rfl

omit [DecidablePred p] in
theorem Apart.cut {c d : Tile κ} (apart : Apart p (l ++ t :: r)) (first : ¬ p c.label) (second : p d.label → p t.label) :
    Apart p (l ++ ([c, d] ++ r)) := by
  unfold Apart at apart ⊢
  obtain ⟨before, after, _⟩ := List.isChain_append.mp apart
  obtain ⟨joint, behind⟩ := List.isChain_cons.mp after
  apply List.isChain_append.mpr
  refine ⟨before, ?_, ?_⟩
  · apply List.isChain_cons_cons.mpr
    refine ⟨fun both => first both.1, List.isChain_cons.mpr ⟨?_, behind⟩⟩
    intro v next both
    exact joint v next ⟨second both.1, both.2⟩
  · intro v last w next both
    cases next
    exact first both.2

omit [DecidablePred p] in
theorem Tiled.not_adjoining (tiled : Tiled a l z) (apart : Apart p l) (left : t ∈ l) (right : u ∈ l) (here : p t.label)
    (there : p u.label) : t.start + t.size ≠ u.start := by
  intro touch
  obtain ⟨pre, post, rfl⟩ := List.append_of_mem left
  have positive := (tiled.inside left).2.2
  obtain ⟨_, _, after⟩ := tiled_append.mp tiled
  have order := tiled.ordered
  rw [List.pairwise_append, List.pairwise_cons] at order
  obtain ⟨_, behind, _⟩ := List.isChain_append.mp apart
  rcases List.mem_append.mp right with before | later
  · have below := order.2.2 u before t List.mem_cons_self
    have := (tiled.inside right).2.2
    omega
  · rcases List.mem_cons.mp later with rfl | later
    · omega
    · cases post with
      | nil => cases later
      | cons v post =>
        have start := after.1
        have next := after.2.2.1
        rcases List.mem_cons.mp later with rfl | far
        · exact (List.isChain_cons_cons.mp behind).1 ⟨here, there⟩
        · have beyond := (List.pairwise_cons.mp order.2.1.2).1 u far
          have wide := (tiled.inside (show v ∈ pre ++ t :: v :: post by simp)).2.2
          omega

end merge

end Tiling
