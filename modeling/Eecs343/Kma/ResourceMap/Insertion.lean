import Eecs343.Kma.ResourceMap.Headers

namespace Eecs343.Kma.ResourceMap

open Bytes Effect Linked Tiling Transition

variable [Target]

variable {s : Machine} {w start last : World} {steps : List (World × Call)} {ps qs : List Page} {n page next : Int}
  {supply offers : List (Int × Int)}

/-- The request returns the front of the page, and what remains of the page is on the list, in its
    place among the blocks of `old`. -/
def Inserts (w : World) (supply : List (Int × Int)) (n : Int) (old : List Block) (page : Int) : Prop :=
  ∃ t below above, (kmaMalloc n).run { w.machine with supply := supply } = .ok (page + ptr, t) ∧ old = below ++ above ∧
    Listed t.memory t.firstPage (below ++ remainder page n :: above) ∧
    (below ++ remainder page n :: above).Pairwise fun t u => t.start < u.start

theorem opening_nil (ps : List Page) : opening ps [] = (ps, []) := by
  cases ps <;> rfl

/-- A request that needs a page, up to the call of `new_page`. -/
theorem Inv.needs_page {exc : Stop → Prop} {post : Int → Machine → Prop} (inv : Inv w ps)
    (offered : Offered { w.machine with supply := supply }) (low : 1 ≤ n) (high : n ≤ realPageSize)
    (opened : opening ps supply = (qs, (page, next) :: offers)) (none : ∀ t ∈ freeList qs, ¬ FitsIn n t)
    (new : ∀ s, Heap s qs → qs ≠ [] → Offered s → s.supply = (page, next) :: offers → wp (newPage n) post exc s) :
    wp (kmaMalloc n) post exc { w.machine with supply := supply } := by
  have bounds := ptr_bounds
  have real : realPageSize = 8192 - 2 * ptr := rfl
  have heap := inv.heap.offer supply
  have pages : ∀ {s qs'}, Opens { w.machine with supply := supply } ps s qs' → qs' = qs ∧ s.supply = (page, next) :: offers := by
    intro s qs' opens
    have same := opens.opening.symm.trans opened
    exact Prod.mk.inj same
  refine kmaMalloc_spec heap offered low (by omega) (fun empty => ?_) (fun s qs opens heap large => by omega)
    (fun s qs opens heap small found => ?_) fun s qs opens heap some small _ => ?_
  · rw [show supply = [] from empty, opening_nil] at opened
    exact absurd (Prod.mk.inj opened).2 (by simp)
  · obtain ⟨rfl, _⟩ := pages opens
    obtain ⟨t, free, fit⟩ := found
    exact absurd fit (none t free)
  · obtain ⟨rfl, left⟩ := pages opens
    exact new s heap some (opens.offered offered) left

theorem Inv.inserts (inv : Inv w ps) (offered : Offered { w.machine with supply := supply }) (low : 1 ≤ n)
    (high : n ≤ realPageSize)
    (opened : opening ps supply = (qs, (page, next) :: offers)) (none : ∀ t ∈ freeList qs, ¬ FitsIn n t)
    (above : firstBase qs < page) : Inserts w supply n (freeList qs) page := by
  have inserted : wp (kmaMalloc n)
      (fun p t => p = page + ptr ∧ ∃ below above, freeList qs = below ++ above ∧
        Listed t.memory t.firstPage (below ++ remainder page n :: above) ∧
        (below ++ remainder page n :: above).Pairwise fun t u => t.start < u.start) (fun _ => False)
      { w.machine with supply := supply } := by
    refine inv.needs_page offered low high opened none fun s heap some offered left => ?_
    have legal := offered.legal (page, next) (by simp [left])
    have unused : page ∉ s.pages := offered.unused (page, next) (by simp [left])
    refine newPage_above heap some left legal unused (heap.first ▸ above) low high fun l r m' split _ listed spread _ => ?_
    have bounds := ptr_bounds
    exact ⟨rfl, freeList l, freeList r, by rw [split, freeList_append], listed, spread.order.imp fun apart => by omega⟩
  obtain ⟨_, t, ran, rfl, below, above, split, listed, ascending⟩ := wp_returns inserted
  exact ⟨t, below, above, ran, split, listed, ascending⟩

/-- On a page below the first one the walk begins with a NULL `previous_block`. -/
theorem Inv.dereferences (inv : Inv w ps) (offered : Offered { w.machine with supply := supply }) (low : 1 ≤ n)
    (high : n ≤ realPageSize) (opened : opening ps supply = (qs, (page, next) :: offers))
    (none : ∀ t ∈ freeList qs, ¬ FitsIn n t) (short : n ≤ realPageSize - ptr ∨ page + 8192 ≠ firstBase qs)
    (below : ¬ firstBase qs < page) : (kmaMalloc n).run { w.machine with supply := supply } = .error .nullDereference := by
  have stopped : wp (kmaMalloc n) (fun _ _ => False) (fun e => e = .nullDereference) { w.machine with supply := supply } := by
    refine inv.needs_page offered low high opened none fun s heap some offered left => ?_
    have legal := offered.legal (page, next) (by simp [left])
    have unused : page ∉ s.pages := offered.unused (page, next) (by simp [left])
    have first := heap.first
    have other : page ≠ s.firstPage := by
      rintro rfl
      obtain ⟨P, qs, rfl⟩ := List.exists_cons_of_ne_nil some
      rw [firstBase_cons] at first
      exact unused (heap.pages.symm.subset (by simp [first]))
    exact newPage_below heap some left legal (by omega) low high (by omega) rfl
  unfold wp at stopped
  cases ran : (kmaMalloc n).run { w.machine with supply := supply } with
  | ok r =>
    rw [ran] at stopped
    exact stopped.elim
  | error e =>
    rw [ran] at stopped
    rw [show e = .nullDereference from stopped]

/-- In a run whose headers stay inside, a request that needs a page completes with what remains of the
    page in its place on the list if the page lies above the first one in use; and only if it
    does, unless the new header lies across the first word of the first page. -/
theorem inserts_iff_above (run : Calls resourceMapAllocator start steps last)
    (allowed : ∀ taken ∈ steps, Allowed taken.2) (keeps : ∀ taken ∈ steps, KeepsHeaders taken.2) :
    ∀ w ∈ visited steps last, ∃ ps, Shows w ps ∧ ∀ n supply qs page next offers, 1 ≤ n → n ≤ realPageSize →
      Offered { w.machine with supply := supply } → opening ps supply = (qs, (page, next) :: offers) →
      (∀ t ∈ freeList qs, ¬ FitsIn n t) →
        (firstBase qs < page → Inserts w supply n (freeList qs) page) ∧
        (n ≤ realPageSize - ptr ∨ page + 8192 ≠ firstBase qs →
          (Inserts w supply n (freeList qs) page ↔ firstBase qs < page)) := by
  intro w member
  obtain ⟨ps, inv⟩ := calls_inv run (fun taken inside => .of_allowed (allowed taken inside) (keeps taken inside)) w member
  refine ⟨ps, inv.shows, fun n supply qs page next offers low high offered opened none => ?_⟩
  have inserts := inv.inserts offered low high opened none
  refine ⟨inserts, fun short => ⟨fun ⟨t, _, _, ran, _⟩ => ?_, inserts⟩⟩
  by_contra below
  exact absurd (ran.symm.trans (inv.dereferences offered low high opened none short below)) (by simp)

omit [Target] in
/-- A first request that needs a second page. -/
theorem request_of_8170_inserts : ∃ target : Target, target.ptr = 8 ∧
    Inserts idle (twoPages 8192) 8170 (freeList [blank 8192]) 16384 := by
  let target : Target := ⟨8, .inr rfl⟩
  have run : Calls resourceMapAllocator idle [] idle := ⟨idle_initial, .refl⟩
  obtain ⟨ps, shows, inserts⟩ := inserts_iff_above run (by simp) (by simp) _ List.mem_cons_self
  obtain rfl := shows.none rfl
  have offered : Offered { idle.machine with supply := twoPages 8192 } :=
    twoPages_offered rfl (by decide) (by decide) (by simp [idle])
  have none : ∀ t ∈ freeList [blank 8192], ¬ FitsIn 8170 t := by decide
  exact ⟨target, rfl, (inserts 8170 (twoPages 8192) _ 16384 24576 [] (by decide) (by decide) offered rfl none).1 (by decide)⟩

def stopOf {α : Type} (x : C α) (s : Machine) : Option Stop :=
  match x.run s with
  | .ok _ => none
  | .error e => some e

omit [Target] in
theorem stops {α : Type} {x : C α} {e : Stop} (ran : stopOf x s = some e) : x.run s = .error e := by
  unfold stopOf at ran
  cases same : x.run s with
  | ok r => rw [same] at ran; cases ran
  | error e' => rw [same] at ran; cases ran; rfl

def firstTaken : Machine := after (@kmaMalloc lp64 4000) { idle.machine with supply := twoPages 8192 }

def secondTaken : Machine := after (@kmaMalloc lp64 8000) { firstTaken with supply := twoPages 16384 }

def firstFreed : Machine := after (@kmaFree lp64 8200 4000) secondTaken

omit [Target] in
theorem firstTaken_run : (@kmaMalloc lp64 4000).run { idle.machine with supply := twoPages 8192 } = .ok (8200, firstTaken) :=
  returns (by decide +kernel)

omit [Target] in
theorem secondTaken_run : (@kmaMalloc lp64 8000).run { firstTaken with supply := twoPages 16384 } = .ok (16392, secondTaken) :=
  returns (by decide +kernel)

omit [Target] in
theorem firstFreed_run : (@kmaFree lp64 8200 4000).run secondTaken = .ok ((), firstFreed) := returns (by decide +kernel)

omit [Target] in
theorem firstFreed_stops : (@kmaMalloc lp64 8000).run { firstFreed with supply := [(8192, 0)] } = .error .nullDereference :=
  stops (by decide +kernel)

omit [Target] in
/-- The first page is given back while the second is in use. -/
theorem firstFreed_calls : let _ : Target := lp64
    Calls resourceMapAllocator idle [(⟨secondTaken, [(16392, 8000), (8200, 4000)]⟩, .free 8200 4000),
      (⟨firstTaken, [(8200, 4000)]⟩, .malloc 8000 (twoPages 16384)), (idle, .malloc 4000 (twoPages 8192))]
      ⟨firstFreed, [(16392, 8000)]⟩ := by
  intro target
  have used : firstTaken.pages = [8192] := by decide +kernel
  have ran₁ := firstTaken_run
  have ran₂ := secondTaken_run
  have ran₃ := firstFreed_run
  -- The runs are known; the machines need not be computed again.
  generalize firstTaken = t₁ at *
  generalize secondTaken = t₂ at *
  generalize firstFreed = t₃ at *
  have offered₁ : Offered { idle.machine with supply := twoPages 8192 } :=
    twoPages_offered rfl (by decide) (by decide) (by simp [idle])
  have offered₂ : Offered { t₁ with supply := twoPages 16384 } :=
    twoPages_offered rfl (by decide) (by decide) (by simp [used])
  have run₁ : Calls resourceMapAllocator idle _ ⟨t₁, [(8200, 4000)]⟩ :=
    idle_calls.request (by decide) (by decide) offered₁ ran₁ (by decide)
  have run₂ := run₁.request (by decide) (by decide) offered₂ ran₂ (by decide)
  exact run₂.release (by simp) ran₃

omit [Target] in
theorem firstFreed_pages : firstFreed.pages = [16384] := by decide +kernel

omit [Target] in
/-- The page that was given back is handed out again. -/
theorem lower_page_stops : ∃ target : Target, target.ptr = 8 ∧ ∃ w₁ w₂ w₃,
    Calls resourceMapAllocator idle [(w₂, .free 8200 4000), (w₁, .malloc 8000 (twoPages 16384)),
      (idle, .malloc 4000 (twoPages 8192))] w₃ ∧
    Offered { w₃.machine with supply := [(8192, 0)] } ∧
    (kmaMalloc 8000).run { w₃.machine with supply := [(8192, 0)] } = .error .nullDereference := by
  let target : Target := lp64
  have offered : Offered { firstFreed with supply := [(8192, 0)] } := by
    refine ⟨fun offer member => ?_, fun offer member => ?_, by simp⟩
    · rw [List.mem_singleton.mp member]
      exact ⟨rfl, by decide, by decide, by decide⟩
    · rw [List.mem_singleton.mp member]
      simp [firstFreed_pages]
  exact ⟨target, rfl, _, _, _, firstFreed_calls, offered, firstFreed_stops⟩

end Eecs343.Kma.ResourceMap
