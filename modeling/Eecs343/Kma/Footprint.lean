import Mathlib.Data.Set.Basic
import Mathlib.Logic.Relation
import Eecs343.Kma.Run

namespace Eecs343.Kma

open Bytes Effect Relation

/-- An allocator writes to its variables and to the pages it has, outside `L`. -/
inductive Write (L : Set Int) (s : Machine) : Machine → Prop where
  | mk {memory : Memory} {firstPage : Int} {headers : List Int}
    (own : ∀ x, memory x ≠ s.memory x → baseAddr x ∈ s.pages ∧ x ∉ L) :
    Write L s { s with memory := memory, firstPage := firstPage, headers := headers }

inductive Grow (L : Set Int) (s : Machine) : Machine → Prop where
  | write {t : Machine} (written : Write L s t) : Grow L s t
  | grant {page link : Int} {rest : List (Int × Int)} (left : s.supply = (page, link) :: rest) :
    Grow L s (s.grant page link rest)

/-- A write, or a page given back that has nothing of `L`. -/
inductive Shrink [Target] (L : Set Int) (s : Machine) : Machine → Prop where
  | write {t : Machine} (written : Write L s t) : Shrink L s t
  | reclaim {page : Int} (used : page ∈ s.pages) (aligned : page % 8192 = 0) (unprotected : ∀ x ∈ L, baseAddr x ≠ page) :
    Shrink L s { s.reclaim page with memory := store s.memory ptr page s.nextFreePage }

variable {L : Set Int} {s t : Machine}

theorem write_memory {m : Memory} (own : ∀ x, m x ≠ s.memory x → baseAddr x ∈ s.pages ∧ x ∉ L) :
    Write L s { s with memory := m } := .mk own

theorem write_firstPage (page : Int) : Write L s { s with firstPage := page } := .mk fun _ changed => absurd rfl changed

theorem Write.pages (written : Write L s t) : t.pages = s.pages := by
  cases written
  rfl

theorem Write.kept (written : Write L s t) {x : Int} (outside : baseAddr x ∉ s.pages ∨ x ∈ L) :
    t.memory x = s.memory x := by
  cases written with
  | mk own =>
    by_contra changed
    obtain ⟨used, exposed⟩ := own x changed
    exact outside.elim (fun unused => unused used) exposed

/-- A call that only takes pages leaves `L` alone, and every page that it does not have at its end. -/
theorem grows_kept (grows : ReflTransGen (Grow L) s t) :
    (∀ page ∈ s.pages, page ∈ t.pages) ∧ ∀ x, baseAddr x ∉ t.pages ∨ x ∈ L → t.memory x = s.memory x := by
  induction grows with
  | refl => exact ⟨fun _ member => member, fun _ _ => rfl⟩
  | tail _ last ih =>
    obtain ⟨pages, kept⟩ := ih
    cases last with
    | write written =>
      rw [written.pages]
      refine ⟨pages, fun x outside => ?_⟩
      exact (written.kept outside).trans (kept x outside)
    | grant left =>
      refine ⟨fun page member => List.mem_cons_of_mem _ (pages page member), fun x outside => ?_⟩
      exact kept x (outside.imp_left fun unused used => unused (List.mem_cons_of_mem _ used))

variable [Target]

/-- A call that only gives pages back leaves `L` alone, and every page that it does not have at its beginning. -/
theorem shrinks_kept (shrinks : ReflTransGen (Shrink L) s t) :
    (∀ page ∈ t.pages, page ∈ s.pages) ∧ ∀ x, baseAddr x ∉ s.pages ∨ x ∈ L → t.memory x = s.memory x := by
  induction shrinks with
  | refl => exact ⟨fun _ member => member, fun _ _ => rfl⟩
  | @tail u v _ last ih =>
    obtain ⟨pages, kept⟩ := ih
    cases last with
    | write written =>
      rw [written.pages]
      refine ⟨pages, fun x outside => ?_⟩
      exact (written.kept (outside.imp_left fun unused used => unused (pages _ used))).trans (kept x outside)
    | @reclaim page used aligned unprotected =>
      have bounds := ptr_bounds
      refine ⟨fun other member => pages other (List.mem_of_mem_erase member), fun x outside => ?_⟩
      have away : baseAddr x ≠ page := by
        rintro rfl
        exact outside.elim (fun unused => unused (pages _ used)) fun shielded => unprotected x shielded rfl
      unfold baseAddr at away
      exact (store_outside _ _ _ _ (by omega)).trans (kept x outside)

def liveBytes (live : List (Int × Int)) : Set Int := {x | ∃ q ∈ live, q.1 ≤ x ∧ x < q.1 + q.2}

/-- From one state between two calls to another, nothing is written to the blocks that stay live, nor to pages
    that the allocator has in neither. -/
structure Untouched (w t : World) : Prop where
  live : ∀ q ∈ w.live, q ∈ t.live → ∀ x, q.1 ≤ x → x < q.1 + q.2 → t.machine.memory x = w.machine.memory x
  beyond : ∀ x, baseAddr x ∉ w.machine.pages → baseAddr x ∉ t.machine.pages → t.machine.memory x = w.machine.memory x

end Eecs343.Kma
