import Eecs343.Kma.ResourceMap.Release

namespace Eecs343.Kma.ResourceMap

open Bytes Effect Linked Tiling

variable [Target]

/-- The loop of `clear_empty_pages` with another way to give a page back. -/
def clearFromWith (giveBack : Int → Int → C Bool) : Nat → Int → Int → C Unit
  | 0, _, _ => throw .diverges
  | n + 1, current, previous => do
    if current ≠ 0 then
      let blockSize ← readShort current 0
      if blockSize % 256 ^ ptr = realPageSize then
        if ← giveBack current previous then return
      clearFromWith giveBack n (← readPtr current ptr) current

/-- `giveBack` does what `releasePage` does, where that stores no link into a header outside the
    pages in use. -/
def Releases (giveBack : Int → Int → C Bool) : Prop :=
  ∀ {s : Machine} {current previous : Int} {post : Bool → Machine → Prop} {exc : Stop → Prop},
    baseAddr current = s.firstPage ∨ previous = 0 ∨ baseAddr previous ∈ s.pages →
      wp (releasePage current previous) post exc s → wp (giveBack current previous) post exc s

variable {giveBack : Int → Int → C Bool} {s : Machine} {m : Memory} {slot c previous : Int} {k : Nat} {P Q : Page} {t : Block}
  {mid rest : List Block} {ps qs l r : List Page} {exc : Stop → Prop} {post : Unit → Machine → Prop}

theorem clearFrom_eq (k : Nat) (c previous : Int) : clearFrom k c previous = clearFromWith releasePage k c previous := by
  induction k generalizing c previous with
  | zero => rfl
  | succ k ih =>
    unfold clearFrom clearFromWith
    simp only [ih]

theorem releases_releasePage : Releases releasePage := fun _ ran => ran

theorem whole_iff {x : Int} (sizes : Fits 2 x) : x % 256 ^ ptr = realPageSize ↔ x = realPageSize := by
  obtain ⟨least, most⟩ := sizes
  unfold realPageSize sizeofBlockheader
  norm_num at least most
  rcases Target.ptr_cases with h | h <;> rw [h] <;> norm_num <;> omega

theorem clearFrom_pass (present : c ≠ 0) (small : load s.memory 2 c % 256 ^ ptr ≠ realPageSize)
    (rest : wp (clearFromWith giveBack k (load s.memory ptr (c + ptr)) c) post exc s) :
    wp (clearFromWith giveBack (k + 1) c previous) post exc s := by
  unfold clearFromWith
  rw [if_pos present, wp_bind]
  refine wp_read present ?_
  rw [Int.add_zero, if_neg small]
  change wp (do clearFromWith giveBack k (← readPtr c ptr) c) post exc s
  rw [wp_bind]
  exact wp_read present rest

theorem clearFrom_whole (present : c ≠ 0) (full : load s.memory 2 c % 256 ^ ptr = realPageSize)
    (released : wp (giveBack c previous)
      (fun last s' =>
        if last then post () s' else wp (clearFromWith giveBack k (load s'.memory ptr (c + ptr)) c) post exc s') exc s) :
    wp (clearFromWith giveBack (k + 1) c previous) post exc s := by
  unfold clearFromWith
  rw [if_pos present, wp_bind]
  refine wp_read present ?_
  rw [Int.add_zero, if_pos full]
  change wp (do
    let last ← giveBack c previous
    if last then pure () else clearFromWith giveBack k (← readPtr c ptr) c) post exc s
  rw [wp_bind]
  refine wp_mono released fun last s' after => ?_
  cases last with
  | true => exact after
  | false =>
    change wp (do clearFromWith giveBack k (← readPtr c ptr) c) post exc s'
    rw [wp_bind]
    exact wp_read present after

theorem clearFrom_end (enough : 0 < k) (done : post () s) : wp (clearFromWith giveBack k 0 previous) post exc s := by
  obtain ⟨k, rfl⟩ : ∃ j, k = j + 1 := ⟨k - 1, by omega⟩
  exact done

/-- The walk of `clear_empty_pages` leaves blocks alone that do not have the size of a page. -/
theorem clearFrom_skip {v : Block} (pre : List Block) (enough : mid.length < k)
    (none : ∀ t ∈ v :: mid, t.size ≠ realPageSize)
    (listed : Listed s.memory slot (pre ++ (v :: mid ++ rest))) (spread : Spread slot (pre ++ (v :: mid ++ rest)))
    (found : wp (clearFromWith giveBack (k - (v :: mid).length) (head rest) (last (pre ++ v :: mid))) post exc s) :
    wp (clearFromWith giveBack k (head (v :: mid ++ rest)) previous) post exc s := by
  cases k with
  | zero => cases enough
  | succ k =>
    induction mid generalizing pre v k previous with
    | nil =>
      have size : load s.memory 2 v.start = v.size := listed.header.1
      have follow : load s.memory ptr (v.start + ptr) = head rest := listed.header.2
      have small := (whole_iff (spread.fits v (by simp)).2).not.mpr (none v List.mem_cons_self)
      refine clearFrom_pass (spread.nonzero v (by simp)) (by rwa [List.cons_append, head_cons, size]) ?_
      rw [last_concat] at found
      rw [List.cons_append, head_cons, follow]
      exact found
    | cons w mid ih =>
      have size : load s.memory 2 v.start = v.size := listed.header.1
      have follow : load s.memory ptr (v.start + ptr) = head (w :: mid ++ rest) := listed.header.2
      have small := (whole_iff (spread.fits v (by simp)).2).not.mpr (none v List.mem_cons_self)
      have moved : pre ++ (v :: w :: mid ++ rest) = pre ++ [v] ++ (w :: mid ++ rest) := by simp
      have moved' : pre ++ v :: w :: mid = pre ++ [v] ++ w :: mid := by simp
      refine clearFrom_pass (spread.nonzero v (by simp)) (by rwa [List.cons_append, head_cons, size]) ?_
      rw [moved] at listed spread
      rw [moved'] at found
      rw [List.cons_append, head_cons, follow]
      cases k with
      | zero => simp at enough
      | succ k =>
        refine ih (pre ++ [v]) (fun t member => none t (List.mem_cons_of_mem _ member)) listed spread k
          (by simpa using enough) ?_
        simpa using found

theorem clearFrom_quiet (enough : rest.length < k) (none : ∀ t ∈ rest, t.size ≠ realPageSize)
    (path : Path (fun a => load s.memory ptr (a + ptr)) c (rest.map Tile.start) 0)
    (sizes : ∀ t ∈ rest, load s.memory 2 t.start = t.size) (spread : Spread slot rest) (done : post () s) :
    wp (clearFromWith giveBack k c previous) post exc s := by
  induction rest generalizing c k previous with
  | nil =>
    obtain rfl : c = 0 := path
    exact clearFrom_end enough done
  | cons v rest ih =>
    cases k with
    | zero => cases enough
    | succ k =>
      obtain ⟨rfl, after⟩ := path
      have small := (whole_iff (spread.fits v (by simp)).2).not.mpr (none v List.mem_cons_self)
      refine clearFrom_pass (spread.nonzero v (by simp)) (by rwa [sizes v List.mem_cons_self]) ?_
      exact ih (by simpa using enough) (fun t member => none t (List.mem_cons_of_mem _ member)) after
        (fun t member => sizes t (List.mem_cons_of_mem _ member)) (spread.sublist (List.sublist_cons_self v rest))

theorem Ranked.none_whole (ranked : Ranked ps) (occupied : ∀ P ∈ ps, ¬ P.Empty) :
    ∀ t ∈ freeList ps, t.size ≠ realPageSize := by
  intro t member
  obtain ⟨P, here, free⟩ := mem_freeList.mp member
  exact (ranked.sound P here).smaller (occupied P here) (mem_free.mp free).1

theorem Heap.quiet (heap : Heap s ps) (occupied : ∀ P ∈ ps, ¬ P.Empty) (enough : (freeList ps).length < k)
    (done : post () s) :
    wp (clearFromWith giveBack k (head (freeList ps)) previous) post exc s := by
  by_cases none : ps = []
  · subst none
    exact clearFrom_end enough done
  · have listed := heap.listed none
    have path := (show Listed s.memory s.firstPage ([] ++ freeList ps) from listed).tail
    exact clearFrom_quiet enough (heap.ranked.none_whole occupied) path listed.size (heap.spread none) done

theorem full_page : realPageSize % 256 ^ ptr = realPageSize := by
  have := ptr_bounds
  have limit : (256 ^ 2 : Nat) = 65536 := rfl
  refine (whole_iff ⟨?_, ?_⟩).mpr rfl <;> unfold realPageSize sizeofBlockheader <;> omega

theorem Heap.whole_header (heap : Heap s (l ++ P :: r)) (single : P.tiles = [whole P.base]) :
    (whole P.base).start ≠ 0 ∧ baseAddr (whole P.base).start = P.base ∧
      load s.memory 2 (whole P.base).start = realPageSize ∧
      load s.memory ptr ((whole P.base).start + ptr) = head (freeList r) := by
  have bounds := ptr_bounds
  have legal := heap.legal (P := P) (by simp)
  have listed : Listed s.memory s.firstPage (freeList l ++ whole P.base :: freeList r) := by
    have all := heap.listed (by simp)
    rwa [freeList_append, freeList_whole single] at all
  have start : (whole P.base).start = P.base + ptr := rfl
  exact ⟨legal.ne_zero (by omega) (by omega), legal.baseAddr (by omega) (by omega), listed.header.1, listed.header.2⟩

theorem Heap.clear_first (heap : Heap s (P :: r)) (releases : Releases giveBack) (single : P.tiles = [whole P.base])
    (enough : (freeList (P :: r)).length < k)
    (rest : ∀ s' k', Heap s' r → s'.headers = s.headers → (freeList r).length < k' → ∀ previous,
      wp (clearFromWith giveBack k' (head (freeList r)) previous) post exc s') :
    wp (clearFromWith giveBack k (head (freeList (P :: r))) previous) post exc s := by
  have bounds := ptr_bounds
  have legal := heap.legal (P := P) List.mem_cons_self
  have used : 0 < s.numInUse := by
    rw [heap.inUse]
    simp
  obtain ⟨present, here, size, next⟩ := Heap.whole_header (l := []) heap single
  rw [freeList_whole single] at enough ⊢
  cases k with
  | zero => cases enough
  | succ k =>
    have same : baseAddr (whole P.base).start = s.firstPage := here.trans heap.first.symm
    refine clearFrom_whole present (by rw [head_cons, size]; exact full_page) (releases (.inl same) ?_)
    unfold releasePage
    rw [head_cons, wp_bind]
    refine wp_read present ?_
    rw [next, wp_bind, wp_get, here, heap.first, firstBase_cons, if_neg fun other => other rfl]
    cases r with
    | nil =>
      rw [if_neg (show ¬ head (freeList []) ≠ 0 from not_not.mpr rfl), wp_bind, wp_get, wp_bind, heap.first, firstBase_cons]
      refine wp_freePage legal.nonzero used ?_
      rw [wp_bind, wp_modify, wp_pure, if_pos rfl]
      have after := rest _ 1 (heap.finish (store s.memory ptr P.base s.nextFreePage)) rfl (by simp [freeList]) 0
      exact after
    | cons Q r =>
      have ranked := heap.ranked.tail
      have beyond := ranked.spread
      have legalQ := heap.legal (P := Q) (by simp)
      have ahead := head_ne beyond (ranked.freeList_ne (by simp))
      have record : load s.memory ptr Q.base = Q.base := heap.records Q.base (by simp)
      have later := (List.pairwise_cons.mp heap.ranked.apart).1 Q List.mem_cons_self
      have start : (whole P.base).start = P.base + ptr := rfl
      rw [if_pos ahead, wp_bind, wp_get]
      dsimp only
      rw [ranked.head_base, wp_bind]
      refine wp_read legalQ.nonzero ?_
      rw [Int.add_zero, record, wp_bind, wp_modify, wp_bind]
      unfold setFirstPageBlock
      rw [wp_bind, wp_get]
      refine wp_write legalQ.nonzero ?_
      rw [wp_bind, heap.first, firstBase_cons, Int.add_zero]
      refine wp_freePage legal.nonzero used ?_
      rw [wp_pure, if_neg (by simp)]
      have after := heap.advance (v := s.nextFreePage) single
      dsimp only at after ⊢
      rw [load_store_of_disjoint _ _ ?_, load_store_of_disjoint _ _ ?_, next]
      · exact rest _ k after rfl (by simpa using enough) _
      all_goals omega

theorem Heap.last_used (heap : Heap s (l ++ P :: r)) (behind : l ≠ []) : baseAddr (last (freeList l)) ∈ s.pages := by
  have some := (heap.ranked.sublist (List.sublist_append_left l (P :: r))).freeList_ne behind
  obtain ⟨front, t, split⟩ := (List.eq_nil_or_concat (freeList l)).resolve_left some
  rw [List.concat_eq_append] at split
  obtain ⟨Q, member, free⟩ := mem_freeList.mp (show t ∈ freeList l by simp [split])
  have inside : Q ∈ l ++ P :: r := List.mem_append_left _ member
  rw [split, last_concat, (heap.ranked.sound Q inside).baseAddr (mem_free.mp free).1]
  exact heap.pages.symm.subset (List.mem_map_of_mem inside)

theorem Heap.clear_middle (heap : Heap s (l ++ P :: r)) (releases : Releases giveBack) (behind : l ≠ [])
    (single : P.tiles = [whole P.base])
    (occupied : ∀ Q ∈ l ++ r, ¬ Q.Empty) (enough : (freeList (l ++ P :: r)).length < k)
    (done : ∀ s', Heap s' (l ++ r) → s'.headers = s.headers → post () s') :
    wp (clearFromWith giveBack k (head (freeList (l ++ P :: r))) previous) post exc s := by
  have bounds := ptr_bounds
  have legal := heap.legal (P := P) (by simp)
  have sub : (l ++ r).Sublist (l ++ P :: r) := (List.sublist_cons_self P r).append_left l
  have used : 0 < s.numInUse := by
    rw [heap.inUse]
    simp
    omega
  have slot : s.firstPage ≠ P.base := by
    obtain ⟨F, l', rfl⟩ := List.exists_cons_of_ne_nil behind
    have := heap.apart (Q := F) (by simp)
    rw [heap.first, List.cons_append, firstBase_cons]
    omega
  have record : P.base ∈ ((l ++ P :: r).map Page.base).tail := by
    obtain ⟨F, l', rfl⟩ := List.exists_cons_of_ne_nil behind
    simp
  obtain ⟨present, here, size, next⟩ := heap.whole_header single
  have listed := heap.listed (by simp)
  have spread := heap.spread (by simp)
  have freeLeft := (heap.ranked.sublist (List.sublist_append_left l (P :: r))).freeList_ne behind
  have smallLeft := (heap.ranked.sublist (List.sublist_append_left l (P :: r))).none_whole fun Q member =>
    occupied Q (List.mem_append_left _ member)
  have smallRight := (heap.ranked.sublist ((List.sublist_cons_self P r).trans (List.sublist_append_right l _))).none_whole
    fun Q member => occupied Q (List.mem_append_right _ member)
  have released := heap.release (v := s.nextFreePage) behind single
  rw [freeList_append, freeList_whole single] at enough listed spread ⊢
  have earlier := heap.last_used behind
  obtain ⟨v, mid, start⟩ := List.exists_cons_of_ne_nil freeLeft
  rw [start] at enough listed spread smallLeft ⊢
  refine clearFrom_skip [] (by simp at enough; omega) smallLeft listed spread ?_
  obtain ⟨k', left⟩ : ∃ j, k - (v :: mid).length = j + 1 := ⟨k - (v :: mid).length - 1, by simp at enough ⊢; omega⟩
  rw [left, List.nil_append, ← start]
  rw [← start] at enough listed spread
  refine clearFrom_whole present (by rw [head_cons, size]; exact full_page) (releases (.inr (.inr earlier)) ?_)
  unfold releasePage
  rw [head_cons, wp_bind]
  refine wp_read present ?_
  rw [next, wp_bind, wp_get, here, if_pos slot.symm, wp_bind]
  refine wp_setNext rfl (spread.sublist (List.sublist_append_left _ _)) ?_
  rw [wp_bind]
  refine wp_read legal.nonzero ?_
  have before := spread.link_le
  have recorded : load (store s.memory ptr (link s.firstPage (freeList l)) (head (freeList r))) ptr P.base = P.base := by
    refine (load_congr fun x low high => store_outside _ _ _ _ ?_).trans (heap.records _ record)
    obtain ⟨away, outside⟩ := heap.clear record low high
    refine link_inside away fun t free => outside _ heap.ranked rfl t ?_
    rw [freeList_append]
    exact List.mem_append_left _ free
  rw [Int.add_zero, recorded, wp_bind]
  refine wp_freePage legal.nonzero used ?_
  rw [wp_pure, if_neg (by simp)]
  have begin : (whole P.base).start = P.base + ptr := rfl
  dsimp only
  rw [load_store_of_disjoint _ _ (by omega), load_store_of_disjoint _ _ (by omega), next]
  have shorter := released.listed (List.append_ne_nil_of_left_ne_nil behind r)
  rw [freeList_append] at shorter
  have count := congrArg List.length start
  have right : Spread s.firstPage (freeList r) :=
    spread.sublist ((List.sublist_cons_self _ _).trans (List.sublist_append_right _ _))
  exact clearFrom_quiet (by simp at enough left count ⊢; omega) smallRight shorter.tail
    (fun t free => shorter.size t (List.mem_append_right _ free)) right (done _ released rfl)

/-- The pages with live blocks. -/
def occupied (ps : List Page) : List Page := ps.filter fun P => ¬ P.Empty

omit [Target] in
theorem occupied_eq (all : ∀ P ∈ ps, ¬ P.Empty) : occupied ps = ps :=
  List.filter_eq_self.mpr fun P member => by simpa using all P member

omit [Target] in
theorem occupied_remove (empty : P.Empty) : occupied (l ++ P :: r) = occupied (l ++ r) := by
  unfold occupied
  rw [List.filter_append, List.filter_cons_of_neg (by simpa using empty), List.filter_append]

theorem Heap.clear_one (heap : Heap s (l ++ P :: r)) (releases : Releases giveBack)
    (single : P.Empty → P.tiles = [whole P.base])
    (others : ∀ Q ∈ l ++ r, ¬ Q.Empty) (enough : (freeList (l ++ P :: r)).length < k)
    (done : ∀ s', Heap s' (occupied (l ++ P :: r)) → s'.headers = s.headers → post () s') :
    wp (clearFromWith giveBack k (head (freeList (l ++ P :: r))) previous) post exc s := by
  by_cases empty : P.Empty
  · rw [occupied_remove empty, occupied_eq others] at done
    cases l with
    | nil =>
      refine Heap.clear_first heap releases (single empty) enough fun s' k' heap' same enough' previous => ?_
      exact heap'.quiet others enough' (done s' heap' same)
    | cons F l => exact heap.clear_middle releases (by simp) (single empty) others enough done
  · have all : ∀ Q ∈ l ++ P :: r, ¬ Q.Empty := by
      intro Q member
      have here : Q = P ∨ Q ∈ l ++ r := by
        simp at member ⊢
        tauto
      rcases here with rfl | other
      · exact empty
      · exact others Q other
    rw [occupied_eq all] at done
    exact heap.quiet all enough (done s heap rfl)

/-- `clear_empty_pages` gives back the pages without live blocks, where these are the first page
    and one other at most. -/
theorem Heap.clear_pages (heap : Heap s (l ++ P :: r)) (releases : Releases giveBack)
    (single : ∀ Q ∈ l ++ P :: r, Q.Empty → Q.tiles = [whole Q.base]) (others : ∀ Q ∈ l.tail ++ r, ¬ Q.Empty)
    (enough : (freeList (l ++ P :: r)).length < k)
    (done : ∀ s', Heap s' (occupied (l ++ P :: r)) → s'.headers = s.headers → post () s') :
    wp (clearFromWith giveBack k (head (freeList (l ++ P :: r))) previous) post exc s := by
  have singleP := single P (by simp)
  cases l with
  | nil => exact heap.clear_one (l := []) releases singleP others enough done
  | cons F l =>
    by_cases empty : F.Empty
    · refine Heap.clear_first heap releases (single F (by simp) empty) enough fun s' k' heap' same enough' previous => ?_
      refine heap'.clear_one releases singleP others enough' fun t heapT sameT => done t ?_ (sameT.trans same)
      have removed : occupied (F :: l ++ P :: r) = occupied (l ++ P :: r) := occupied_remove (l := []) empty
      rwa [removed]
    · refine heap.clear_one releases singleP (fun Q member => ?_) enough done
      rcases List.mem_cons.mp member with rfl | member
      · exact empty
      · exact others Q member

end Eecs343.Kma.ResourceMap
