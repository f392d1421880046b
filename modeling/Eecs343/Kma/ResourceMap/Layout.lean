import Eecs343.Kma.ResourceMap.Malloc
import Eecs343.Kma.Run

namespace Eecs343.Kma.ResourceMap

open Bytes Linked Tiling

variable [Target]

/-- `kma_rm.c`. -/
def resourceMapAllocator : Allocator := ⟨kmaMalloc, kmaFree⟩

/-- The live blocks of the pages: the address of each and its size. -/
def liveBlocks (ps : List Page) : List (Int × Int) := (ps.flatMap Page.live).map fun t => (t.start, t.size)

/-- The pages that the variables and the memory show, with the blocks handed out. -/
structure Shows (w : World) (ps : List Page) : Prop where
  first : w.machine.firstPage = firstBase ps
  listed : ps ≠ [] → Listed w.machine.memory w.machine.firstPage (freeList ps)
  pages : w.machine.pages.Perm (ps.map Page.base)
  live : w.live.Perm (liveBlocks ps)

/-- The invariant of the runs. -/
structure Inv (w : World) (ps : List Page) : Prop where
  heap : Heap w.machine ps
  books : w.live.Perm (liveBlocks ps)
  used : ∀ P ∈ ps.tail, ¬ P.Empty

/-- A header that lies inside its page, behind the first word. -/
def HeaderIn (h : Int) : Prop := baseAddr h + ptr ≤ h ∧ h + 2 * ptr ≤ baseAddr h + 8192

/-- A header and a live block do not overlap. -/
def Clear (h : Int) (q : Int × Int) : Prop := h + 2 * ptr ≤ q.1 ∨ q.1 + q.2 ≤ h

/-- The headers a call writes lie inside their pages and outside the blocks that are live before and
    after it; the last one lies outside every block that is live after the call. -/
def HeadersInside (w w' : World) : Prop :=
  ∃ new, w'.machine.headers = new ++ w.machine.headers ∧
    (∀ h ∈ new, HeaderIn h ∧ ∀ q ∈ w.live, q ∈ w'.live → Clear h q) ∧ ∀ h ∈ new.head?, ∀ q ∈ w'.live, Clear h q

variable {w : World} {P Q : Page} {t : Block} {q : Int × Int} {front back : List Block} {ps l r : List Page} {n page : Int}

theorem Inv.shows (inv : Inv w ps) : Shows w ps :=
  ⟨inv.heap.first, inv.heap.listed, inv.heap.pages, inv.books⟩

theorem Shows.none (shows : Shows w ps) (none : w.machine.pages = []) : ps = [] := by
  have length := shows.pages.length_eq
  rw [none, List.length_map] at length
  exact List.eq_nil_of_length_eq_zero length.symm

omit [Target] in
theorem mem_liveBlocks : q ∈ liveBlocks ps ↔ ∃ P ∈ ps, ∃ t ∈ P.tiles, t.label = .live ∧ q = (t.start, t.size) := by
  unfold liveBlocks
  simp only [List.mem_map, List.mem_flatMap, mem_live]
  constructor
  · rintro ⟨t, ⟨P, member, inside, live⟩, rfl⟩
    exact ⟨P, member, t, inside, live, rfl⟩
  · rintro ⟨P, member, t, inside, live, rfl⟩
    exact ⟨t, ⟨P, member, inside, live⟩, rfl⟩

omit [Target] in
theorem liveBlocks_append (l r : List Page) : liveBlocks (l ++ r) = liveBlocks l ++ liveBlocks r := by
  simp [liveBlocks]

omit [Target] in
theorem liveBlocks_cons (P : Page) (ps : List Page) :
    liveBlocks (P :: ps) = (P.live.map fun t => (t.start, t.size)) ++ liveBlocks ps := by
  simp [liveBlocks]

omit [Target] in
theorem liveBlocks_joined (ps : List Page) : liveBlocks (ps.map Page.joined) = liveBlocks ps := by
  induction ps with
  | nil => rfl
  | cons P ps ih => rw [List.map_cons, liveBlocks_cons, liveBlocks_cons, ih, live_joined]

omit [Target] in
theorem liveBlocks_occupied (ps : List Page) : liveBlocks (occupied ps) = liveBlocks ps := by
  induction ps with
  | nil => rfl
  | cons P ps ih =>
    unfold occupied at *
    by_cases empty : P.Empty
    · rw [List.filter_cons_of_neg (by simpa using empty), ih, liveBlocks_cons, show P.live = [] from empty]
      rfl
    · rw [List.filter_cons_of_pos (by simpa using empty), liveBlocks_cons, liveBlocks_cons, ih]

omit [Target] in
theorem liveBlocks_add (same : Q.live.Perm (t :: P.live)) :
    (liveBlocks (l ++ Q :: r)).Perm ((t.start, t.size) :: liveBlocks (l ++ P :: r)) := by
  simp only [liveBlocks_append, liveBlocks_cons]
  have here := same.map fun t : Block => (t.start, t.size)
  refine ((here.append_right (liveBlocks r)).append_left (liveBlocks l)).trans ?_
  exact List.perm_middle

omit [Target] in
theorem live_split (front back : List Block) (base : Int) :
    (Page.mk base (front ++ t :: back)).live.Perm
      ((if t.label = .live then [t] else []) ++ (Page.mk base (front ++ back)).live) := by
  unfold Page.live
  rw [List.filter_append, List.filter_append, List.filter_cons]
  by_cases live : t.label = .live
  · simp only [live, decide_true, if_true, List.singleton_append]
    exact List.perm_middle
  · simp [live]

theorem Ranked.unique (ranked : Ranked ps) (left : P ∈ ps) (right : Q ∈ ps) (same : P.base = Q.base) : P = Q := by
  obtain ⟨l, r, rfl⟩ := List.append_of_mem left
  have order := ranked.order
  rw [List.pairwise_append, List.pairwise_cons] at order
  rcases List.mem_append.mp right with before | after
  · have := order.2.2 Q before P List.mem_cons_self
    omega
  · rcases List.mem_cons.mp after with rfl | after
    · rfl
    · have := order.2.1.1 Q after
      omega

theorem Ranked.clear (ranked : Ranked ps) (free : t ∈ freeList ps) :
    HeaderIn t.start ∧ ∀ q ∈ liveBlocks ps, Clear t.start q := by
  have bounds := ptr_bounds
  obtain ⟨P, memberP, inP⟩ := mem_freeList.mp free
  obtain ⟨inside, label⟩ := mem_free.mp inP
  have sound := ranked.sound P memberP
  have place := sound.inside inside
  refine ⟨⟨by rw [sound.baseAddr inside]; omega, by rw [sound.baseAddr inside]; omega⟩, fun q member => ?_⟩
  obtain ⟨Q, memberQ, u, other, live, rfl⟩ := mem_liveBlocks.mp member
  have soundQ := ranked.sound Q memberQ
  have there := soundQ.inside other
  unfold Clear
  by_cases same : P.base = Q.base
  · obtain rfl := ranked.unique memberP memberQ same
    have ne : t ≠ u := fun eq => by rw [eq, live] at label; cases label
    have pairs := sound.ordered.and sound.tiled.ordered
    have both : t.start + 2 * ptr ≤ u.start ∨ u.start + u.size ≤ t.start := by
      obtain ⟨l, r, split⟩ := List.append_of_mem inside
      rw [split] at other pairs
      have here : u ∈ l ∨ u ∈ r := by
        simp at other
        rcases other with left | same | right
        · exact .inl left
        · exact absurd same.symm ne
        · exact .inr right
      rcases here with left | right
      · exact .inr ((List.pairwise_append.mp pairs).2.2 u left t List.mem_cons_self).2
      · exact .inl ((List.pairwise_cons.mp (List.pairwise_append.mp pairs).2.1).1 u right).1
    exact both
  · have := sound.legal.apart soundQ.legal same
    dsimp only
    omega

end Eecs343.Kma.ResourceMap
