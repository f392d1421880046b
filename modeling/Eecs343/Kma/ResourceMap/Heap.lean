import Eecs343.Kma.ResourceMap.Joined

namespace Eecs343.Kma.ResourceMap

open Bytes Linked Tiling

variable [Target]

def firstBase (ps : List Page) : Int := (ps.map Page.base).headD 0

/-- The machine has the pages of `ps` in use, and their free blocks on the list. Every page but the
    first, whose first word holds the list, begins with its own address. -/
structure Heap (s : Machine) (ps : List Page) : Prop where
  first : s.firstPage = firstBase ps
  ranked : Ranked ps
  listed : ps ≠ [] → Listed s.memory s.firstPage (freeList ps)
  records : ∀ page ∈ (ps.map Page.base).tail, load s.memory ptr page = page
  pages : s.pages.Perm (ps.map Page.base)
  inUse : s.numInUse = ps.length

variable {s : Machine} {m' : Memory} {P Q : Page} {t : Block} {ps qs l r : List Page} {pre : List Block}

omit [Target] in
@[simp] theorem firstBase_cons : firstBase (P :: ps) = P.base := rfl

theorem Heap.offer (heap : Heap s ps) (supply : List (Int × Int)) : Heap { s with supply := supply } ps :=
  ⟨heap.first, heap.ranked, heap.listed, heap.records, heap.pages, heap.inUse⟩

theorem Heap.spread (heap : Heap s ps) (some : ps ≠ []) : Spread s.firstPage (freeList ps) := by
  cases ps with
  | nil => exact absurd rfl some
  | cons P ps =>
    rw [heap.first]
    exact heap.ranked.spread

theorem Heap.spread_of (heap : Heap s ps) (some : ps ≠ []) (ranked : Ranked qs)
    (bases : qs.map Page.base = ps.map Page.base) : Spread s.firstPage (freeList qs) := by
  have same : firstBase qs = firstBase ps := by
    unfold firstBase
    rw [bases]
  cases qs with
  | nil => exact absurd (List.map_eq_nil_iff.mp bases.symm) some
  | cons P qs =>
    rw [heap.first, ← same]
    exact ranked.spread

theorem Heap.legal (heap : Heap s ps) (member : P ∈ ps) : Legal P.base := (heap.ranked.sound P member).legal

theorem Heap.firstPage_ne (heap : Heap s ps) (some : ps ≠ []) : s.firstPage ≠ 0 := by
  obtain ⟨P, ps, rfl⟩ := List.exists_cons_of_ne_nil some
  rw [heap.first]
  exact (heap.legal List.mem_cons_self).nonzero

/-- The word that leads to the blocks behind `pre` is the first word of the first page or belongs to
    a header. -/
theorem link_inside {slot x : Int} (away : x < slot ∨ slot + ptr ≤ x)
    (outside : ∀ t ∈ pre, x < t.start ∨ t.start + 2 * ptr ≤ x) : x < link slot pre ∨ link slot pre + ptr ≤ x := by
  rcases List.eq_nil_or_concat pre with rfl | ⟨pre, v, rfl⟩
  · exact away
  · rw [List.concat_eq_append] at *
    have := outside v (by simp)
    rw [link_concat]
    omega

theorem Heap.clear (heap : Heap s ps) {page : Int} (member : page ∈ (ps.map Page.base).tail) {x : Int}
    (low : page ≤ x) (high : x < page + ptr) :
    (x < s.firstPage ∨ s.firstPage + ptr ≤ x) ∧
      ∀ qs, Ranked qs → qs.map Page.base = ps.map Page.base →
        ∀ t ∈ freeList qs, x < t.start ∨ t.start + 2 * ptr ≤ x := by
  have bounds := ptr_bounds
  constructor
  · cases ps with
    | nil => cases member
    | cons P ps =>
      obtain ⟨R, later, rfl⟩ := List.mem_map.mp member
      have := (List.pairwise_cons.mp heap.ranked.apart).1 R later
      rw [heap.first, firstBase_cons]
      omega
  · intro qs ranked bases t free
    have inside := List.mem_of_mem_tail member
    rw [← bases] at inside
    obtain ⟨R, here, rfl⟩ := List.mem_map.mp inside
    have := ranked.beside here free
    omega

theorem Heap.update (heap : Heap s ps) (headers : List Int) (ranked : Ranked qs)
    (bases : qs.map Page.base = ps.map Page.base)
    (listed : qs ≠ [] → Listed m' s.firstPage (freeList qs))
    (kept : ∀ page ∈ (ps.map Page.base).tail, ∀ x, page ≤ x → x < page + ptr → m' x = s.memory x) :
    Heap { s with headers := headers, memory := m' } qs := by
  refine ⟨?_, ranked, listed, fun page member => ?_, ?_, ?_⟩
  · change s.firstPage = firstBase qs
    rw [heap.first, firstBase, firstBase, bases]
  · rw [bases] at member
    exact (load_congr (kept page member)).trans (heap.records page member)
  · rw [bases]
    exact heap.pages
  · have length := congrArg List.length bases
    rw [List.length_map, List.length_map] at length
    rw [length]
    exact heap.inUse

/-- The one block of a page without live blocks. -/
def whole (page : Int) : Block := ⟨page + ptr, realPageSize, .free⟩

theorem freeList_whole (single : P.tiles = [whole P.base]) (ps : List Page) :
    freeList (P :: ps) = whole P.base :: freeList ps := by
  rw [freeList_cons, Page.free, single]
  rfl

theorem Sound.whole (sound : Sound P) (empty : P.Empty) : P.joined.tiles = [whole P.base] := by
  have free : ∀ t ∈ P.tiles, t.label = .free := by
    intro t member
    cases use : t.label with
    | free => rfl
    | live =>
      have live := mem_live.mpr ⟨member, use⟩
      rw [show P.live = [] from empty] at live
      cases live
  obtain ⟨front, last, some, _⟩ := sound.last
  have tiled := sound.tiled
  change merge (· = Use.free) P.tiles = _
  cases split : P.tiles with
  | nil => rw [split] at some; simp at some
  | cons t tiles =>
    rw [split] at tiled free
    have size : P.stop - (P.base + ptr) = realPageSize := by
      unfold Page.stop
      omega
    rw [merge_all tiled free, free t List.mem_cons_self, size]
    rfl

theorem Sound.smaller (sound : Sound P) (occupied : ¬ P.Empty) (member : t ∈ P.tiles) : t.size ≠ realPageSize := by
  intro size
  have only := sound.tiled.single member (by rw [size, Page.stop]; omega)
  have stop : t.start + t.size = P.stop := by
    have tiled := sound.tiled
    rw [only] at tiled
    rw [tiled.1]
    exact tiled.2.2
  have free := sound.tail t member stop
  refine occupied ?_
  unfold Page.Empty Page.live
  rw [only]
  simp [free]

end Eecs343.Kma.ResourceMap
