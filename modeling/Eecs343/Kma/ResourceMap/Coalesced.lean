import Eecs343.Kma.ResourceMap.ExactTiling

namespace Eecs343.Kma.ResourceMap

open Bytes Effect Linked Tiling Transition

variable [Target]

variable {w start last : World} {steps : List (World × Call)} {ps : List Page} {P : Page}

/-- `free` is the list of free blocks. No two of them touch on a page, and one takes up the whole of each page
    without live blocks, as `clear_empty_pages` expects it. -/
structure Coalesced (w : World) (free : List Block) : Prop where
  none : w.machine.firstPage = 0 → free = []
  listed : w.machine.firstPage ≠ 0 → Listed w.machine.memory w.machine.firstPage free
  apart : ∀ t ∈ free, ∀ u ∈ free, baseAddr t.start = baseAddr u.start → t.start + t.size ≠ u.start
  whole : ∀ page ∈ w.machine.pages, (∀ q ∈ w.live, baseAddr q.1 ≠ page) →
    free.filter (fun t => baseAddr t.start = page) = [⟨page + ptr, realPageSize, .free⟩]

theorem Sound.single (sound : Sound P) (separate : P.Separate) (empty : P.Empty) :
    P.tiles = [ResourceMap.whole P.base] := by
  have joined := sound.whole empty
  rw [Page.joined, Apart.merge_eq separate] at joined
  exact joined

theorem Ranked.apart_free (ranked : Ranked ps) (separate : ∀ P ∈ ps, P.Separate) {t u : Block} (left : t ∈ freeList ps)
    (right : u ∈ freeList ps) (same : baseAddr t.start = baseAddr u.start) : t.start + t.size ≠ u.start := by
  obtain ⟨P, memberP, inP⟩ := mem_freeList.mp left
  obtain ⟨Q, memberQ, inQ⟩ := mem_freeList.mp right
  obtain ⟨tileT, freeT⟩ := mem_free.mp inP
  obtain ⟨tileU, freeU⟩ := mem_free.mp inQ
  have sound := ranked.sound P memberP
  rw [sound.baseAddr tileT, (ranked.sound Q memberQ).baseAddr tileU] at same
  obtain rfl := ranked.unique memberP memberQ same
  exact sound.tiled.not_adjoining (separate P memberP) tileT tileU freeT freeU

theorem Ranked.filter_free (ranked : Ranked ps) (member : P ∈ ps) :
    (freeList ps).filter (fun t => baseAddr t.start = P.base) = P.free := by
  have other : ∀ qs : List Page, (∀ Q ∈ qs, Q ∈ ps ∧ Q.base ≠ P.base) →
      (freeList qs).filter (fun t => baseAddr t.start = P.base) = [] := by
    intro qs elsewhere
    rw [List.filter_eq_nil_iff]
    intro t free
    obtain ⟨Q, memberQ, inQ⟩ := mem_freeList.mp free
    obtain ⟨known, different⟩ := elsewhere Q memberQ
    rw [(ranked.sound Q known).baseAddr (mem_free.mp inQ).1]
    simpa using different
  obtain ⟨l, r, rfl⟩ := List.append_of_mem member
  obtain ⟨_, after, before⟩ := List.pairwise_append.mp ranked.order
  have own : P.free.filter (fun t => baseAddr t.start = P.base) = P.free := by
    rw [List.filter_eq_self]
    intro t free
    rw [(ranked.sound P member).baseAddr (mem_free.mp free).1]
    simp
  rw [freeList_append, freeList_cons, List.filter_append, List.filter_append, own, other l, other r, List.nil_append,
    List.append_nil]
  · intro Q inside
    have above := (List.pairwise_cons.mp after).1 Q inside
    exact ⟨by simp [inside], by omega⟩
  · intro Q inside
    have below := before Q inside P List.mem_cons_self
    exact ⟨by simp [inside], by omega⟩

theorem Inv.coalesced (inv : Inv w ps) (separate : ∀ P ∈ ps, P.Separate) : Coalesced w (freeList ps) := by
  have heap := inv.heap
  constructor
  · intro none
    have empty : ps = [] := not_not.mp fun some => heap.firstPage_ne some none
    rw [empty]
    rfl
  · intro some
    apply heap.listed
    rintro rfl
    exact some heap.first
  · intro t left u right
    exact heap.ranked.apart_free separate left right
  · intro page member unused
    obtain ⟨P, memberP, rfl⟩ := List.mem_map.mp (heap.pages.subset member)
    have sound := heap.ranked.sound P memberP
    have empty : P.Empty := by
      apply List.eq_nil_iff_forall_not_mem.mpr
      intro t live
      obtain ⟨inside, label⟩ := mem_live.mp live
      have listed := inv.books.symm.subset (mem_liveBlocks.mpr ⟨P, memberP, t, inside, label, rfl⟩)
      exact unused _ listed (sound.baseAddr inside)
    rw [heap.ranked.filter_free memberP, Page.free, sound.single (separate P memberP) empty]
    rfl

/-- In a run of requests with room for a header on both sides the free blocks are fully coalesced in every
    state. -/
theorem fully_coalesced (run : Calls resourceMapAllocator start steps last) (sized : ∀ taken ∈ steps, Sized taken.2) :
    ∀ w ∈ visited steps last, ∃ free, Coalesced w free := by
  intro w member
  obtain ⟨ps, inv, separate⟩ := calls_separate run (fun taken inside => (sized taken inside).admits) w member
  exact ⟨freeList ps, inv.coalesced separate⟩

omit [Target] in
theorem fully_coalesced_two_frees : ∃ target : Target, target.ptr = 8 ∧ ∃ steps w free, Calls resourceMapAllocator idle steps w ∧
    steps.map Prod.snd = [.free 8216 32, .free 8200 16, .malloc 48 [], .malloc 32 [], .malloc 16 (twoPages 8192)] ∧
    load w.machine.memory 2 8200 = 48 ∧ Coalesced w free := by
  obtain ⟨target, eight, steps, w, run, sized, calls, _, size⟩ := two_frees
  obtain ⟨free, coalesced⟩ := fully_coalesced run sized _ (last_mem_visited _ _)
  exact ⟨target, eight, steps, w, free, run, calls, size, coalesced⟩

end Eecs343.Kma.ResourceMap
