import Eecs343.Kma.ResourceMap.Steps

namespace Eecs343.Kma.ResourceMap

open Bytes Effect Linked Tiling Transition

variable [Target]

variable {w start last : World} {steps : List (World × Call)} {ps : List Page}

/-- The blocks handed out and the free blocks make up every page behind its first word, with a free
    block last. The list has the free blocks in ascending order, and the first page is that of its
    head. A block given up has its place before some free block. -/
structure ExactTiling (w : World) (ps : List Page) : Prop where
  shows : Shows w ps
  tiled : ∀ P ∈ ps, Tiled (P.base + ptr) P.tiles (P.base + ptr + realPageSize)
  tail : ∀ P ∈ ps, ∃ front t, P.tiles = front ++ [t] ∧ t.label = .free
  ascending : (freeList ps).Pairwise fun t u => t.start < u.start
  home : ps ≠ [] → w.machine.firstPage = baseAddr (head (freeList ps))
  linked : ∀ q ∈ w.live, ∃ t ∈ freeList ps, q.1 < t.start
  frees : ∀ q ∈ w.live, ∃ t, (kmaFree q.1 q.2).run w.machine = .ok ((), t)

/-- The sizes that leave room for a header on both sides. -/
def Sized : Call → Prop
  | .malloc n _ => sizeofBlockheader ≤ n ∧ n ≤ 8192 - ptr - sizeofBlockheader
  | _ => True

theorem Sized.admits {call : Call} (sized : Sized call) : Admits call := by
  have real : realPageSize = 8192 - 2 * ptr := rfl
  have header : sizeofBlockheader = 2 * ptr := rfl
  cases call with
  | malloc n supply =>
    obtain ⟨low, high⟩ := sized
    exact ⟨by omega, .inl (by omega)⟩
  | free p size => trivial
  | client memory => trivial

theorem Inv.exactTiling (inv : Inv w ps) : ExactTiling w ps := by
  have bounds := ptr_bounds
  have heap := inv.heap
  refine ⟨inv.shows, fun P member => (heap.ranked.sound P member).tiled, fun P member => ?_, ?_, fun some => ?_,
    fun q live => ?_, fun q live => ?_⟩
  · obtain ⟨front, t, split, free, _⟩ := (heap.ranked.sound P member).last
    exact ⟨front, t, split, free⟩
  · by_cases none : ps = []
    · rw [none]
      exact .nil
    · exact (heap.spread none).order.imp fun apart => by omega
  · obtain ⟨P, ps, rfl⟩ := List.exists_cons_of_ne_nil some
    rw [heap.ranked.head_base]
    exact heap.first
  · obtain ⟨l, P, r, front, t, back, rfl, split, label, rfl⟩ := inv.place live
    have sound := heap.ranked.sound P (by simp)
    obtain ⟨u, free⟩ := List.exists_mem_of_ne_nil _ (sound.free_behind split label)
    obtain ⟨inside, free⟩ := List.mem_filter.mp free
    have later := sound.ordered
    rw [split] at later
    have apart := (List.pairwise_cons.mp (List.pairwise_append.mp later).2.1).1 u inside
    refine ⟨u, mem_freeList.mpr ⟨P, by simp, mem_free.mpr ⟨?_, by simpa using free⟩⟩, by dsimp only; omega⟩
    rw [split]
    simp [inside]
  · obtain ⟨_, t, ran, _⟩ := wp_returns (inv.free (e := fun _ => False) live)
    exact ⟨t, ran⟩

/-- In a run of requests with room for a header on both sides, every state has its pages tiled. -/
theorem exactly_tiled (run : Calls resourceMapAllocator start steps last) (sized : ∀ taken ∈ steps, Sized taken.2) :
    ∀ w ∈ visited steps last, ∃ ps, ExactTiling w ps := by
  intro w member
  obtain ⟨ps, inv⟩ := calls_inv run (fun taken inside => (sized taken inside).admits) w member
  exact ⟨ps, inv.exactTiling⟩

theorem idle_not_blocked {n : Int} : ¬ Blocked (opening [] (twoPages 8192)).1 (opening [] (twoPages 8192)).2 n := by
  intro ⟨_, page, next, offers, same, below⟩
  have here : (16384, 24576) = (page, next) :=
    (List.cons.inj (show [(16384, 24576)] = (page, next) :: offers from same)).1
  obtain rfl := (Prod.mk.inj here).1
  change (16384 : Int) < 8192 at below
  omega

theorem idle_serves_16 : ∃ p t, Step resourceMapAllocator idle (.malloc 16 (twoPages 8192)) ⟨t, [(p, 16)]⟩ := by
  have bounds := ptr_bounds
  have real : realPageSize = 8192 - 2 * ptr := rfl
  have inv := Inv.initial idle_initial
  have fitting : Fitting 16 := ⟨by omega, .inl (by omega)⟩
  have offered : Offered { idle.machine with supply := twoPages 8192 } :=
    twoPages_offered rfl (by decide) (by decide) (by simp [idle])
  obtain ⟨p, t, step, null, _⟩ :=
    inv.malloc_next fitting (by decide) (by decide) offered (by simp [twoPages]) idle_not_blocked
  have present : p ≠ 0 := by
    intro zero
    have := null.mp zero
    omega
  rw [if_neg present] at step
  exact ⟨p, t, step⟩

def oneTaken : Machine := after (@kmaMalloc lp64 16) { idle.machine with supply := twoPages 8192 }

def twoTaken : Machine := after (@kmaMalloc lp64 32) { oneTaken with supply := [] }

def threeTaken : Machine := after (@kmaMalloc lp64 48) { twoTaken with supply := [] }

def oneFreed : Machine := after (@kmaFree lp64 8200 16) threeTaken

def twoFreed : Machine := after (@kmaFree lp64 8216 32) oneFreed

omit [Target] in
theorem oneTaken_run : (@kmaMalloc lp64 16).run { idle.machine with supply := twoPages 8192 } = .ok (8200, oneTaken) :=
  returns (by decide +kernel)

omit [Target] in
theorem twoTaken_run : (@kmaMalloc lp64 32).run { oneTaken with supply := [] } = .ok (8216, twoTaken) := returns (by decide +kernel)

omit [Target] in
theorem threeTaken_run : (@kmaMalloc lp64 48).run { twoTaken with supply := [] } = .ok (8248, threeTaken) :=
  returns (by decide +kernel)

omit [Target] in
theorem oneFreed_run : (@kmaFree lp64 8200 16).run threeTaken = .ok ((), oneFreed) := returns (by decide +kernel)

omit [Target] in
theorem twoFreed_run : (@kmaFree lp64 8216 32).run oneFreed = .ok ((), twoFreed) := returns (by decide +kernel)

omit [Target] in
/-- Three blocks are handed out and two of them freed. The second free walks over the first one's block and joins it. -/
theorem two_frees : ∃ target : Target, target.ptr = 8 ∧ ∃ steps w, Calls resourceMapAllocator idle steps w ∧
    (∀ taken ∈ steps, Sized taken.2) ∧ steps.map Prod.snd = [.free 8216 32, .free 8200 16, .malloc 48 [], .malloc 32 [],
      .malloc 16 (twoPages 8192)] ∧ w.live = [(8248, 48)] ∧ load w.machine.memory 2 8200 = 48 := by
  let target : Target := lp64
  have ran₁ := oneTaken_run
  have ran₂ := twoTaken_run
  have ran₃ := threeTaken_run
  have ran₄ := oneFreed_run
  have ran₅ := twoFreed_run
  have size : load twoFreed.memory 2 8200 = 48 := by decide +kernel
  generalize oneTaken = t₁ at *
  generalize twoTaken = t₂ at *
  generalize threeTaken = t₃ at *
  generalize oneFreed = t₄ at *
  generalize twoFreed = t₅ at *
  have offered : Offered { idle.machine with supply := twoPages 8192 } :=
    twoPages_offered rfl (by decide) (by decide) (by simp [idle])
  have run₁ : Calls resourceMapAllocator idle _ ⟨t₁, [(8200, 16)]⟩ :=
    idle_calls.request (by decide) (by decide) offered ran₁ (by decide)
  have run₂ := run₁.request (by decide) (by decide) offered_nothing ran₂ (by decide)
  have run₃ := run₂.request (by decide) (by decide) offered_nothing ran₃ (by decide)
  have run₄ := run₃.release (by simp) ran₄
  have run₅ := run₄.release (by decide) ran₅
  refine ⟨target, rfl, _, _, run₅, ?_, rfl, rfl, size⟩
  simp only [List.forall_mem_cons]
  exact ⟨trivial, trivial, ⟨by decide, by decide⟩, ⟨by decide, by decide⟩, ⟨by decide, by decide⟩, by simp⟩

omit [Target] in
theorem exactly_tiled_two_frees : ∃ target : Target, target.ptr = 8 ∧ ∃ steps w ps, Calls resourceMapAllocator idle steps w ∧
    steps.map Prod.snd = [.free 8216 32, .free 8200 16, .malloc 48 [], .malloc 32 [], .malloc 16 (twoPages 8192)] ∧
    ExactTiling w ps := by
  obtain ⟨target, eight, steps, w, run, sized, calls, _⟩ := two_frees
  obtain ⟨ps, tiled⟩ := exactly_tiled run sized _ (last_mem_visited _ _)
  exact ⟨target, eight, steps, w, ps, run, calls, tiled⟩

end Eecs343.Kma.ResourceMap
