import Eecs343.Kma.ResourceMap.Heap

namespace Eecs343.Kma.ResourceMap

open Bytes Linked Tiling

variable [Target]

variable {s : Machine} {v : Int} {P Q : Page} {t : Block} {ps qs l r : List Page}

omit [Target] in
theorem reclaimed (pages : s.pages.Perm ((l ++ P :: r).map Page.base)) :
    (s.pages.erase P.base).Perm ((l ++ r).map Page.base) := by
  have middle : ((l ++ P :: r).map Page.base).Perm (P.base :: (l ++ r).map Page.base) := List.perm_middle.map Page.base
  have erased := (pages.trans middle).erase P.base
  rwa [List.erase_cons_head] at erased

theorem Heap.apart (heap : Heap s (l ++ P :: r)) (other : Q ∈ l ++ r) :
    P.base + 8192 ≤ Q.base ∨ Q.base + 8192 ≤ P.base := by
  have order := heap.ranked.apart
  rw [List.pairwise_append, List.pairwise_cons] at order
  rcases List.mem_append.mp other with left | right
  · exact .inr (order.2.2 Q left P List.mem_cons_self)
  · exact .inl (order.2.1.1 Q right)

theorem Heap.elsewhere (heap : Heap s (l ++ P :: r)) (free : t ∈ freeList (l ++ r)) :
    P.base + ptr ≤ t.start ∨ t.start + 2 * ptr ≤ P.base := by
  have sub : (l ++ r).Sublist (l ++ P :: r) := (List.sublist_cons_self P r).append_left l
  obtain ⟨R, member, here⟩ := mem_freeList.mp free
  exact heap.ranked.beside (by simp) (mem_freeList.mpr ⟨R, sub.subset member, here⟩)

theorem Heap.release (heap : Heap s (l ++ P :: r)) (behind : l ≠ []) (single : P.tiles = [whole P.base]) :
    Heap { s.reclaim P.base with
      memory := store (store s.memory ptr (link s.firstPage (freeList l)) (head (freeList r))) ptr P.base v } (l ++ r) := by
  have bounds := ptr_bounds
  obtain ⟨F, l', rfl⟩ := List.exists_cons_of_ne_nil behind
  have sub : (F :: l' ++ r).Sublist (F :: l' ++ P :: r) := (List.sublist_cons_self P r).append_left _
  have ranked := heap.ranked.sublist sub
  have slot : s.firstPage = F.base := heap.first
  have distinct := heap.apart (Q := F) (by simp)
  have spread : Spread s.firstPage (freeList (F :: l') ++ freeList r) := by
    rw [← freeList_append, slot]
    exact ranked.spread
  refine ⟨heap.first, ranked, fun _ => ?_, fun page member => ?_, reclaimed heap.pages, ?_⟩
  · have listed : Listed s.memory s.firstPage (freeList (F :: l') ++ ([whole P.base] ++ freeList r)) := by
      have all := heap.listed (by simp)
      rwa [freeList_append, freeList_whole single] at all
    have shorter := listed.unlink spread (load_store _ (head_fits (spread.sublist (List.sublist_append_right _ _))))
      fun x away => store_outside _ _ _ _ away
    rw [freeList_append]
    refine shorter.frame (load_store_of_disjoint _ _ ?_) fun t free x low high => store_outside _ _ _ _ ?_
    · omega
    · rw [← freeList_append] at free
      have := heap.elsewhere free
      omega
  · have old : page ∈ ((F :: l' ++ P :: r).map Page.base).tail := (sub.map Page.base).tail.subset member
    obtain ⟨R, other, rfl⟩ := List.mem_map.mp (List.mem_of_mem_tail member)
    have apart := heap.apart other
    refine (load_congr fun x low high => ?_).trans (heap.records _ old)
    obtain ⟨away, outside⟩ := heap.clear old low high
    dsimp only
    rw [store_outside _ _ _ _ (by omega)]
    refine store_outside _ _ _ _ (link_inside away fun t free => outside _ heap.ranked rfl t ?_)
    rw [freeList_append]
    exact List.mem_append_left _ free
  · have count := heap.inUse
    change s.numInUse - 1 = _
    simp only [List.length_append, List.length_cons] at count ⊢
    omega

theorem Heap.advance (heap : Heap s (P :: Q :: r)) (single : P.tiles = [whole P.base]) :
    Heap { s.reclaim P.base with
      firstPage := Q.base
      memory := store (store s.memory ptr Q.base (head (freeList (Q :: r)))) ptr P.base v } (Q :: r) := by
  have bounds := ptr_bounds
  have ranked := heap.ranked.tail
  have sound := heap.ranked.sound P List.mem_cons_self
  have spread := ranked.spread
  have heap' : Heap s ([] ++ P :: Q :: r) := heap
  have above := heap'.apart (Q := Q) (by simp)
  refine ⟨rfl, ranked, fun _ => ⟨?_, fun t free => ?_⟩, fun page member => ?_, reclaimed (l := []) heap.pages, ?_⟩
  · have path : Listed s.memory s.firstPage ([whole P.base] ++ freeList (Q :: r)) := by
      have all := heap.listed (by simp)
      rwa [freeList_whole single] at all
    change Path _ (load _ ptr Q.base) _ 0
    rw [load_store_of_disjoint _ _ (by omega), load_store _ (head_fits spread)]
    refine path.tail.congr fun a member => load_congr fun x low high => ?_
    obtain ⟨t, free, rfl⟩ := List.mem_map.mp member
    have := heap'.elsewhere free
    have := spread.behind t free
    dsimp only
    rw [store_outside _ _ _ _ (by omega), store_outside _ _ _ _ (by omega)]
  · have := heap'.elsewhere free
    have := spread.behind t free
    have listed := heap.listed (by simp)
    rw [freeList_cons] at listed
    refine (load_congr fun x low high => ?_).trans (listed.size t (List.mem_append_right _ free))
    dsimp only
    rw [store_outside _ _ _ _ (by omega), store_outside _ _ _ _ (by omega)]
  · have old : page ∈ ((P :: Q :: r).map Page.base).tail := List.mem_of_mem_tail member
    obtain ⟨R, other, rfl⟩ := List.mem_map.mp (show page ∈ r.map Page.base from member)
    have apart := heap'.apart (Q := R) (by simp [other])
    have later := (List.pairwise_cons.mp ranked.apart).1 R other
    refine (load_congr fun x low high => ?_).trans (heap.records _ old)
    dsimp only
    rw [store_outside _ _ _ _ (by omega), store_outside _ _ _ _ (by omega)]
  · have count := heap.inUse
    change s.numInUse - 1 = _
    simp only [List.length_cons] at count ⊢
    omega

theorem Heap.finish (m' : Memory) (heap : Heap s [P]) :
    Heap { s.reclaim P.base with firstPage := 0, memory := m' } [] := by
  refine ⟨rfl, ⟨by simp, .nil⟩, fun some => absurd rfl some, by simp, reclaimed (l := []) heap.pages, ?_⟩
  have count := heap.inUse
  change s.numInUse - 1 = _
  simp at count ⊢
  omega

end Eecs343.Kma.ResourceMap
