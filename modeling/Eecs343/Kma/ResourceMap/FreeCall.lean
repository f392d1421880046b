import Eecs343.Kma.ResourceMap.Clear

namespace Eecs343.Kma.ResourceMap

open Bytes Effect Linked Tiling

variable [Target]

/-- The block given up by its owner. -/
def release (t : Block) : Block := ⟨t.start, t.size, .free⟩

/-- `kma_free` with another way to give a page back. -/
def kmaFreeWith (giveBack : Int → Int → C Bool) (p size : Int) : C Unit := do
  insertFreed fuel p size (← firstPageBlock) 0
  coalesce
  clearFromWith giveBack fuel (← firstPageBlock) 0

variable {giveBack : Int → Int → C Bool} {s : Machine} {P Q : Page} {t : Block} {front back : List Block} {ps l r : List Page}
  {exc : Stop → Prop} {post : Unit → Machine → Prop}

theorem kmaFree_eq (p size : Int) : kmaFree p size = kmaFreeWith releasePage p size := by
  unfold kmaFree kmaFreeWith clearEmptyPages
  simp only [clearFrom_eq]

omit [Target] in
theorem free_split (front back : List Block) (base : Int) :
    (Page.mk base (front ++ t :: back)).free =
      front.filter (fun t => t.label = .free) ++ (if t.label = .free then [t] else []) ++
        back.filter (fun t => t.label = .free) := by
  unfold Page.free
  rw [List.filter_append, List.filter_cons]
  by_cases free : t.label = .free <;> simp [free]

theorem Sound.released (sound : Sound P) (split : P.tiles = front ++ t :: back) (live : t.label = .live) :
    Sound ⟨P.base, front ++ release t :: back⟩ := by
  have member : t ∈ P.tiles := by rw [split]; simp
  have inside := sound.tiled.inside member
  have inner : t.start + t.size ≠ P.stop := fun stop => by
    have free := sound.tail t member stop
    rw [live] at free
    cases free
  refine sound.replace (m := [release t]) split ⟨rfl, inside.2.2, rfl⟩ (by simp [release]) ?_
  intro u only
  rw [List.mem_singleton.mp only]
  have wide := sound.wide t member
  change 2 * ptr ≤ t.size ∨ _
  omega

theorem Sound.free_behind (sound : Sound P) (split : P.tiles = front ++ t :: back) (live : t.label = .live) :
    back.filter (fun t => t.label = .free) ≠ [] := by
  obtain ⟨before, z, tiles, free, stop⟩ := sound.last
  have memberZ : z ∈ front ++ t :: back := by
    rw [← split, tiles]
    simp
  have memberT : t ∈ P.tiles := by rw [split]; simp
  have insideT := sound.tiled.inside memberT
  have ordered := sound.tiled.ordered
  rw [split] at ordered
  have here : z ∈ front ∨ z = t ∨ z ∈ back := by simpa using memberZ
  rcases here with left | rfl | right
  · have := (List.pairwise_append.mp ordered).2.2 z left t List.mem_cons_self
    omega
  · rw [live] at free
    cases free
  · exact List.ne_nil_of_mem (List.mem_filter.mpr ⟨right, by simpa using free⟩)

theorem freeList_inside (ranked : Ranked ps) :
    ∀ t ∈ freeList ps, 0 < t.size ∧ t.start + t.size ≤ baseAddr t.start + 8192 := by
  intro t member
  have := ptr_bounds
  obtain ⟨P, here, free⟩ := mem_freeList.mp member
  have sound := ranked.sound P here
  have := sound.inside (mem_free.mp free).1
  rw [sound.baseAddr (mem_free.mp free).1]
  omega

theorem coalesce_spec (heap : Heap s ps) (some : ps ≠ [])
    (done : ∀ m', Heap { s with memory := m' } (ps.map Page.joined) → post () { s with memory := m' }) :
    wp coalesce post exc s := by
  have listed := heap.listed some
  have spread := heap.spread some
  have bases : (ps.map Page.joined).map Page.base = ps.map Page.base := by
    rw [List.map_map]
    rfl
  unfold coalesce
  rw [wp_bind]
  refine wp_firstPageBlock spread.start ?_
  rw [show load s.memory ptr s.firstPage = head (freeList ps) from listed.path.start]
  refine coalesceFrom_spec (s := s) [] (freeList ps) spread.short listed spread (freeList_inside heap.ranked) ?_
  intro m' listed' outside
  rw [List.nil_append, heap.ranked.merged] at listed'
  refine done m' (heap.update s.headers heap.ranked.joined bases (fun _ => listed') fun page member x low high => ?_)
  exact outside x ((heap.clear member low high).2 ps heap.ranked rfl)

theorem insertFreed_page (heap : Heap s (l ++ P :: r)) (split : P.tiles = front ++ t :: back) (live : t.label = .live)
    (done : ∀ m',
      Heap { s with headers := t.start :: s.headers, memory := m' } (l ++ ⟨P.base, front ++ release t :: back⟩ :: r) →
      post () { s with headers := t.start :: s.headers, memory := m' }) :
    wp (insertFreed fuel t.start t.size (head (freeList (l ++ P :: r))) 0) post exc s := by
  have listed := heap.listed (by simp)
  have sound := heap.ranked.sound P (by simp)
  have ranked := heap.ranked.update (sound.released split live) rfl
  have bases : (l ++ ⟨P.base, front ++ release t :: back⟩ :: r).map Page.base = (l ++ P :: r).map Page.base := by simp
  have spread := heap.spread_of (by simp) ranked bases
  obtain ⟨u, rest, behind⟩ := List.exists_cons_of_ne_nil (sound.free_behind split live)
  have before : freeList (l ++ P :: r) =
      [] ++ (freeList l ++ front.filter (fun t => t.label = .free) ++ u :: (rest ++ freeList r)) := by
    have page : P.free = front.filter (fun t => t.label = .free) ++ u :: rest := by
      have same : P = ⟨P.base, front ++ t :: back⟩ := by rw [← split]
      rw [same, free_split, if_neg (by simp [live]), behind]
      simp
    rw [freeList_append, freeList_cons, page]
    simp
  have after : freeList (l ++ ⟨P.base, front ++ release t :: back⟩ :: r) =
      [] ++ (freeList l ++ front.filter (fun t => t.label = .free) ++ release t :: u :: (rest ++ freeList r)) := by
    rw [freeList_append, freeList_cons, free_split, if_pos (show (release t).label = .free from rfl), behind]
    simp
  have short := (heap.spread (by simp)).short
  rw [before] at listed short ⊢
  have placed := spread
  rw [after] at placed
  refine insertFreed_spec (t := release t) [] _ (by simp at short ⊢; omega) rfl listed placed fun m' listed' outside => ?_
  rw [← after] at listed'
  refine done m' (heap.update _ ranked bases (fun _ => listed') fun page member x low high => ?_)
  obtain ⟨away, headers⟩ := heap.clear member low high
  have far := headers _ ranked bases
  rw [after] at far
  exact outside x (far (release t) (by simp)) (link_inside away fun v free => far v (mem_beside (List.mem_append_left _ free)))

/-- A block of `kma_free` goes on the list, neighbouring free blocks are joined, and the pages
    without live blocks are given back. -/
theorem kmaFree_spec (heap : Heap s (l ++ P :: r)) (releases : Releases giveBack) (split : P.tiles = front ++ t :: back)
    (live : t.label = .live) (others : ∀ Q ∈ l.tail ++ r, ¬ Q.Empty)
    (done : ∀ s', Heap s' (occupied ((l ++ ⟨P.base, front ++ release t :: back⟩ :: r).map Page.joined)) →
      s'.headers = t.start :: s.headers → post () s') :
    wp (kmaFreeWith giveBack t.start t.size) post exc s := by
  have listed := heap.listed (by simp)
  have ranked := heap.ranked.update ((heap.ranked.sound P (by simp)).released split live) rfl
  unfold kmaFreeWith
  rw [wp_bind]
  refine wp_firstPageBlock (heap.spread (by simp)).start ?_
  rw [show load s.memory ptr s.firstPage = head (freeList (l ++ P :: r)) from listed.path.start, wp_bind]
  refine insertFreed_page heap split live fun m₁ heap₁ => ?_
  rw [wp_bind]
  refine coalesce_spec heap₁ (by simp) fun m₂ heap₂ => ?_
  rw [wp_bind]
  refine wp_firstPageBlock (heap₂.spread (by simp)).start ?_
  have start := (heap₂.listed (by simp)).path.start
  rw [start]
  rw [List.map_append, List.map_cons] at heap₂ done ⊢
  refine heap₂.clear_pages releases (fun Q member empty => ?_) (fun Q member => ?_) (heap₂.spread (by simp)).short
    fun s' heap' same => done s' heap' same
  · rw [← List.map_cons, ← List.map_append] at member
    obtain ⟨R, here, rfl⟩ := List.mem_map.mp member
    exact (ranked.sound R here).whole ((empty_joined R).mp empty)
  · rw [← List.map_tail, ← List.map_append] at member
    obtain ⟨R, here, rfl⟩ := List.mem_map.mp member
    exact fun empty => others R here ((empty_joined R).mp empty)

end Eecs343.Kma.ResourceMap
