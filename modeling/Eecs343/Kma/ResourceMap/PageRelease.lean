import Eecs343.Kma.ResourceMap.Insertion

namespace Eecs343.Kma.ResourceMap

open Bytes Effect Linked Tiling Transition

variable [Target]

/-- `releasePage`, but it stops with an error where it would store the link behind an empty page into
    a header outside the pages in use. -/
def releasePageStrict (current previous : Int) : C Bool := do
  let s ← get
  if baseAddr current ≠ s.firstPage ∧ previous ≠ 0 ∧ baseAddr previous ∉ s.pages then throw .assertion
  releasePage current previous

/-- `kma_free` with that check in `clear_empty_pages`. -/
def kmaFreeStrict (p size : Int) : C Unit := kmaFreeWith releasePageStrict p size

/-- The pages in use are those with a live block, each once; the list has no block outside them, and
    every one but the first begins with its own address. -/
structure PagesOccupied (w : World) : Prop where
  used : ∀ page, page ∈ w.machine.pages ↔ ∃ q ∈ w.live, baseAddr q.1 = page
  once : w.machine.pages.Nodup
  none : w.live = [] → w.machine.firstPage = 0
  listed : ∃ ps, Shows w ps ∧ ∀ t ∈ freeList ps, baseAddr t.start ∈ w.machine.pages ∧ t.start + t.size ≤ baseAddr t.start + 8192
  records : ∀ page ∈ w.machine.pages, page ≠ w.machine.firstPage → load w.machine.memory ptr page = page

/-- A free leaves pages with live blocks only, and the walk that gives the others back stores no link
    into a header on a page already given back. -/
def GivesBack (w : World) : Call → World → Prop
  | .free p size, w' => PagesOccupied w' ∧ (kmaFreeStrict p size).run w.machine = .ok ((), w'.machine)
  | _, _ => True

variable {w w' start last : World} {steps : List (World × Call)} {call : Call} {ps : List Page} {P : Page} {p size : Int}

theorem releases_releasePageStrict : Releases releasePageStrict := by
  intro s current previous post exc safe released
  unfold releasePageStrict
  rw [wp_bind, wp_get, if_neg (by tauto)]
  exact released

theorem releasePageStrict_below (current previous : Int) :
    Below (releasePageStrict current previous) (releasePage current previous) := by
  intro s b t ran
  unfold releasePageStrict at ran
  rw [StateT.run_bind] at ran
  change (if baseAddr current ≠ s.firstPage ∧ previous ≠ 0 ∧ baseAddr previous ∉ s.pages then _ else _ : C Bool).run s = _ at ran
  by_cases stale : baseAddr current ≠ s.firstPage ∧ previous ≠ 0 ∧ baseAddr previous ∉ s.pages
  · rw [if_pos stale] at ran
    cases ran
  · rwa [if_neg stale] at ran

theorem clearFromWith_below {f g : Int → Int → C Bool}
    (below : ∀ current previous, Below (f current previous) (g current previous))
    (k : Nat) (current previous : Int) : Below (clearFromWith f k current previous) (clearFromWith g k current previous) := by
  induction k generalizing current previous with
  | zero => exact .refl _
  | succ k ih =>
    unfold clearFromWith
    apply Below.ite ?_ (.refl _)
    apply Below.bind (.refl _)
    intro size
    apply Below.ite ?_ (Below.bind (.refl _) fun next => ih next current)
    apply Below.bind (below current previous)
    intro last
    exact Below.ite (.refl _) (Below.bind (.refl _) fun next => ih next current)

theorem kmaFreeStrict_below (p size : Int) : Below (kmaFreeStrict p size) (kmaFree p size) := by
  rw [kmaFree_eq]
  unfold kmaFreeStrict kmaFreeWith
  apply Below.bind (.refl _)
  intro first
  apply Below.bind (.refl _)
  intro _
  apply Below.bind (.refl _)
  intro _
  apply Below.bind (.refl _)
  intro head
  exact clearFromWith_below releasePageStrict_below _ _ _

/-- The strict `kma_free` of a live block does not stop, so it does what `kma_free` does. -/
theorem Inv.freeStrict (inv : Inv w ps) (member : (p, size) ∈ w.live) :
    (kmaFreeStrict p size).run w.machine = (kmaFree p size).run w.machine := by
  obtain ⟨_, t, ran, _⟩ := wp_returns (inv.freeWith (e := fun _ => False) releases_releasePageStrict member)
  exact ran.trans (kmaFreeStrict_below p size _ _ _ ran).symm

theorem Ranked.page_live (ranked : Ranked ps) (member : P ∈ ps) (used : ¬ P.Empty) :
    ∃ q ∈ liveBlocks ps, baseAddr q.1 = P.base := by
  obtain ⟨t, live⟩ := List.exists_mem_of_ne_nil _ used
  obtain ⟨inside, label⟩ := mem_live.mp live
  exact ⟨_, mem_liveBlocks.mpr ⟨P, member, t, inside, label, rfl⟩, (ranked.sound P member).baseAddr inside⟩

theorem Inv.page_iff (inv : Inv w ps) (used : ∀ P ∈ ps, ¬ P.Empty) (page : Int) :
    page ∈ w.machine.pages ↔ ∃ q ∈ w.live, baseAddr q.1 = page := by
  have heap := inv.heap
  constructor
  · intro member
    obtain ⟨P, memberP, rfl⟩ := List.mem_map.mp (heap.pages.subset member)
    obtain ⟨q, live, here⟩ := heap.ranked.page_live memberP (used P memberP)
    exact ⟨q, inv.books.symm.subset live, here⟩
  · rintro ⟨q, live, rfl⟩
    obtain ⟨P, memberP, t, inside, _, rfl⟩ := mem_liveBlocks.mp (inv.books.subset live)
    rw [(heap.ranked.sound P memberP).baseAddr inside]
    exact heap.pages.symm.subset (List.mem_map_of_mem memberP)

theorem Inv.pagesOccupied (inv : Inv w ps) (used : ∀ P ∈ ps, ¬ P.Empty) : PagesOccupied w := by
  have bounds := ptr_bounds
  have heap := inv.heap
  apply PagesOccupied.mk (inv.page_iff used)
  · apply heap.pages.nodup_iff.mpr
    exact List.pairwise_map.mpr (heap.ranked.order.imp fun below => by omega)
  · intro none
    cases ps with
    | nil => exact heap.first
    | cons P ps =>
      obtain ⟨q, live, _⟩ := heap.ranked.page_live List.mem_cons_self (used P List.mem_cons_self)
      have held := inv.books.symm.subset live
      rw [none] at held
      exact absurd held List.not_mem_nil
  · refine ⟨ps, inv.shows, fun t member => ?_⟩
    obtain ⟨P, memberP, free⟩ := mem_freeList.mp member
    have inside := (heap.ranked.sound P memberP).inside (mem_free.mp free).1
    rw [(heap.ranked.sound P memberP).baseAddr (mem_free.mp free).1]
    exact ⟨heap.pages.symm.subset (List.mem_map_of_mem memberP), by omega⟩
  · intro page member other
    have inside := heap.pages.subset member
    cases ps with
    | nil => exact absurd inside List.not_mem_nil
    | cons P ps =>
      rcases List.mem_cons.mp inside with same | later
      · exact absurd (same.trans heap.first.symm) other
      · exact heap.records page later

theorem Inv.givesBack (inv : Inv w ps) (step : Step resourceMapAllocator w call w') : GivesBack w call w' := by
  cases step with
  | malloc => trivial
  | client => trivial
  | free live ran =>
    obtain ⟨qs, inv', _, used, _⟩ := wp_of_run ran (inv.free (e := fun _ => False) live)
    exact ⟨inv'.pagesOccupied used, (inv.freeStrict live).trans ran⟩

/-- In a run of requests with room for a header on both sides, every free leaves exactly the pages
    with live blocks in use. -/
theorem empty_pages_given_back (run : Calls resourceMapAllocator start steps last)
    (sized : ∀ taken ∈ steps, Sized taken.2) :
    ∀ taken ∈ transitions steps last, GivesBack taken.1 taken.2.1 taken.2.2 := by
  intro ⟨w, call, w'⟩ member
  obtain ⟨reached, _, _, step⟩ := run.2.transition member
  obtain ⟨ps, inv⟩ := calls_inv run (fun taken inside => (sized taken inside).admits) w reached
  exact inv.givesBack step

omit [Target] in
/-- The one block of the first page is freed while the second page is in use. -/
theorem empty_pages_two_pages : ∃ target : Target, target.ptr = 8 ∧ ∃ w₁ w₂ w₃,
    Calls resourceMapAllocator idle [(w₂, .free 8200 4000), (w₁, .malloc 8000 (twoPages 16384)),
      (idle, .malloc 4000 (twoPages 8192))] w₃ ∧
    w₃.live = [(16392, 8000)] ∧ GivesBack w₂ (.free 8200 4000) w₃ ∧ w₃.machine.pages = [16384] := by
  let target : Target := lp64
  have back := empty_pages_given_back firstFreed_calls
    (List.forall_mem_cons.mpr ⟨trivial, List.forall_mem_cons.mpr ⟨⟨by decide, by decide⟩,
      List.forall_mem_cons.mpr ⟨⟨by decide, by decide⟩, by simp⟩⟩⟩) _ List.mem_cons_self
  exact ⟨target, rfl, _, _, _, firstFreed_calls, rfl, back, firstFreed_pages⟩

end Eecs343.Kma.ResourceMap
