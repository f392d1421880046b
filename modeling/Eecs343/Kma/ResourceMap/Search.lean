import Eecs343.Kma.ResourceMap.Walk

namespace Eecs343.Kma.ResourceMap

open Bytes Effect Linked Tiling

variable [Target]

variable {s : Machine} {slot n page next : Int} {k : Nat} {t : Block} {pre mid rest below above : List Block}
  {offers : List (Int × Int)} {exc : Stop → Prop}

/-- The request leaves room for a header in the block. -/
def FitsIn (n : Int) (t : Block) : Prop := n + 2 * ptr ≤ t.size

instance (t : Block) : Decidable (FitsIn n t) := inferInstanceAs (Decidable (_ ≤ _))

/-- The two tests of `find_first_fit` accept the blocks that leave room for a header. -/
theorem accepted_iff {x : Int} (sizes : Fits 2 x) (low : 0 < n) (high : n ≤ 8192) :
    (¬ (x - n) % 256 ^ ptr < sizeofBlockheader ∧ n < x) ↔ n + 2 * ptr ≤ x := by
  obtain ⟨least, most⟩ := sizes
  unfold sizeofBlockheader
  norm_num at least most
  rcases Target.ptr_cases with h | h <;> rw [h] <;> norm_num <;> omega

theorem searchFit_walk {post : Int → Machine → Prop} (pre : List Block) (low : 0 < n) (high : n ≤ 8192)
    (enough : mid.length ≤ k)
    (none : ∀ t ∈ mid, ¬ FitsIn n t) (listed : Listed s.memory slot (pre ++ (mid ++ rest)))
    (spread : Spread slot (pre ++ (mid ++ rest)))
    (found : wp (searchFit (k - mid.length) n (head rest) (last (pre ++ mid))) post exc s) :
    wp (searchFit k n (head (mid ++ rest)) (last pre)) post exc s := by
  induction mid generalizing pre k with
  | nil =>
    rw [List.append_nil] at found
    exact found
  | cons v mid ih =>
    cases k with
    | zero => cases enough
    | succ k =>
      have present := spread.nonzero v (by simp)
      have size : load s.memory 2 v.start = v.size := listed.header.1
      have follow : load s.memory ptr (v.start + ptr) = head (mid ++ rest) := listed.header.2
      have small := (accepted_iff (spread.fits v (by simp)).2 low high).not.mpr (none v List.mem_cons_self)
      have moved : pre ++ (v :: mid ++ rest) = pre ++ [v] ++ (mid ++ rest) := by simp
      rw [moved] at listed spread
      have further : wp (searchFit k n (head (mid ++ rest)) (last (pre ++ [v]))) post exc s := by
        refine ih (pre ++ [v]) (by simpa using enough) (fun t member => none t (List.mem_cons_of_mem _ member)) listed spread ?_
        simpa using found
      rw [last_concat] at further
      unfold searchFit
      rw [List.cons_append, head_cons, if_neg present, wp_bind]
      refine wp_read present ?_
      rw [Int.add_zero, size]
      by_cases left : (v.size - n) % 256 ^ ptr < sizeofBlockheader
      · rw [if_pos left, wp_bind]
        refine wp_read present ?_
        rw [follow]
        exact further
      · rw [if_neg left, if_neg fun larger => small ⟨left, larger⟩, wp_bind]
        refine wp_read present ?_
        rw [follow]
        exact further

/-- The first block that has room loses its front to the request. -/
theorem searchFit_spec {post : Int → Machine → Prop} (low : 0 < n) (high : n ≤ 8192) (enough : mid.length < k)
    (first : s.firstPage = slot) (none : ∀ t ∈ mid, ¬ FitsIn n t) (room : FitsIn n t)
    (listed : Listed s.memory slot (mid ++ t :: rest)) (spread : Spread slot (mid ++ t :: rest))
    (left : Spread slot (mid ++ ⟨t.start + n, t.size - n, .free⟩ :: rest))
    (done : ∀ m', Listed m' slot (mid ++ ⟨t.start + n, t.size - n, .free⟩ :: rest) →
      (∀ x, (x < t.start + n ∨ t.start + n + 2 * ptr ≤ x) → (x < link slot mid ∨ link slot mid + ptr ≤ x) →
        m' x = s.memory x) →
      post t.start { s with headers := (t.start + n) :: s.headers, memory := m' }) :
    wp (searchFit k n (head (mid ++ t :: rest)) 0) post exc s := by
  refine searchFit_walk [] low high (Nat.le_of_lt enough) none listed spread ?_
  obtain ⟨j, remaining⟩ : ∃ j, k - mid.length = j + 1 := ⟨k - mid.length - 1, by omega⟩
  have present := spread.nonzero t (by simp)
  have size : load s.memory 2 t.start = t.size := listed.header.1
  obtain ⟨enoughLeft, smaller⟩ := (accepted_iff (spread.fits t (by simp)).2 low high).mpr room
  rw [remaining]
  unfold searchFit
  rw [List.nil_append, head_cons, if_neg present, wp_bind]
  refine wp_read present ?_
  rw [Int.add_zero, size, if_neg enoughLeft, if_pos smaller, wp_bind]
  exact updateMallocHeaders_spec first listed spread left done

theorem searchFit_none {post : Int → Machine → Prop} (low : 0 < n) (high : n ≤ 8192) (enough : mid.length < k)
    (none : ∀ t ∈ mid, ¬ FitsIn n t) (listed : Listed s.memory slot mid) (spread : Spread slot mid)
    (new : wp (newPage n) post exc s) : wp (searchFit k n (head mid) 0) post exc s := by
  have same : mid = mid ++ [] := (List.append_nil mid).symm
  rw [same] at listed spread ⊢
  refine searchFit_walk [] low high (Nat.le_of_lt enough) none listed spread ?_
  obtain ⟨j, remaining⟩ : ∃ j, k - mid.length = j + 1 := ⟨k - mid.length - 1, by omega⟩
  rw [remaining]
  unfold searchFit
  rw [if_pos (show head [] = 0 from rfl)]
  exact new

/-- `find_first_fit` takes from the first block of the list that has room. -/
theorem findFirstFit_takes {post : Int → Machine → Prop} (low : 0 < n) (high : n ≤ 8192) (none : ∀ t ∈ mid, ¬ FitsIn n t)
    (room : FitsIn n t) (listed : Listed s.memory s.firstPage (mid ++ t :: rest)) (spread : Spread s.firstPage (mid ++ t :: rest))
    (left : Spread s.firstPage (mid ++ ⟨t.start + n, t.size - n, .free⟩ :: rest))
    (done : ∀ m', Listed m' s.firstPage (mid ++ ⟨t.start + n, t.size - n, .free⟩ :: rest) →
      (∀ x, (x < t.start + n ∨ t.start + n + 2 * ptr ≤ x) → (x < link s.firstPage mid ∨ link s.firstPage mid + ptr ≤ x) →
        m' x = s.memory x) →
      post t.start { s with headers := (t.start + n) :: s.headers, memory := m' }) :
    wp (findFirstFit n) post exc s := by
  have short := spread.short
  unfold findFirstFit
  rw [wp_bind]
  refine wp_firstPageBlock spread.start ?_
  rw [show load s.memory ptr s.firstPage = head (mid ++ t :: rest) from listed.path.start]
  exact searchFit_spec low high (by simp at short; omega) rfl none room listed spread left done

theorem findFirstFit_asks {post : Int → Machine → Prop} (low : 0 < n) (high : n ≤ 8192) (none : ∀ t ∈ mid, ¬ FitsIn n t)
    (listed : Listed s.memory s.firstPage mid) (spread : Spread s.firstPage mid) (new : wp (newPage n) post exc s) :
    wp (findFirstFit n) post exc s := by
  unfold findFirstFit
  rw [wp_bind]
  refine wp_firstPageBlock spread.start ?_
  rw [show load s.memory ptr s.firstPage = head mid from listed.path.start]
  exact searchFit_none low high spread.short none listed spread new

/-- The free block of a page that `n` bytes were taken from. -/
def remainder (page n : Int) : Block := ⟨page + ptr + n, realPageSize - n, .free⟩

/-- Memory after `new_page` has written the page's own pointer and the new header. -/
def opened (m : Memory) (page n : Int) : Memory :=
  store (store (store m ptr page page) 2 (page + ptr + n) (realPageSize - n)) ptr (page + ptr + n + ptr) 0

theorem opened_outside (m : Memory) {x : Int} (away : x < page ∨ page + ptr ≤ x)
    (far : x < page + ptr + n ∨ page + ptr + n + 2 * ptr ≤ x) : opened m page n x = m x := by
  have := ptr_bounds
  unfold opened
  rw [store_outside _ _ _ _ (by omega), store_outside _ _ _ _ (by omega), store_outside _ _ _ _ away]

/-- `new_page` up to the walk to the place of the new header. -/
theorem wp_newPage {post : Int → Machine → Prop} (offered : s.supply = (page, next) :: offers) (nonzero : page ≠ 0)
    (present : page + ptr + n ≠ 0) (start : s.firstPage ≠ 0)
    (rest : wp (do
        insertHeader fuel (page + ptr + n) (load (opened s.memory page n) ptr s.firstPage) 0
        return page + ptr) post exc
      { s.grant page next offers with headers := (page + ptr + n) :: s.headers, memory := opened s.memory page n }) :
    wp (newPage n) post exc s := by
  unfold newPage
  rw [wp_bind]
  refine wp_getPage (fun none => absurd (offered.symm.trans none) (by simp)) fun page' next' offers' same => ?_
  obtain ⟨⟨rfl, rfl⟩, rfl⟩ : (page = page' ∧ next = next') ∧ offers = offers' := by simpa using offered.symm.trans same
  rw [wp_bind]
  refine wp_write nonzero ?_
  rw [Int.add_zero, wp_bind]
  refine wp_writeHeader present ?_
  rw [wp_bind]
  exact wp_firstPageBlock start rest

/-- What remains of the new page is linked in its place, behind the blocks of lower pages. -/
theorem newPage_spec {post : Int → Machine → Prop} (low : 1 ≤ n) (high : n ≤ realPageSize) (enough : below.length < fuel)
    (first : s.firstPage = slot) (offered : s.supply = (page, next) :: offers) (legal : Legal page)
    (listed : Listed s.memory slot (below ++ above)) (spread : Spread slot (below ++ remainder page n :: above))
    (behind : below ≠ []) (lower : slot + ptr ≤ page) (before : ∀ t ∈ below, t.start + 2 * ptr ≤ page)
    (after : ∀ t ∈ above, page + 8192 + ptr ≤ t.start)
    (done : ∀ m', Listed m' slot (below ++ remainder page n :: above) → load m' ptr page = page →
      (∀ x, (x < page ∨ page + ptr ≤ x) → (x < page + ptr + n ∨ page + ptr + n + 2 * ptr ≤ x) →
        (x < link slot below ∨ link slot below + ptr ≤ x) → m' x = s.memory x) →
      post (page + ptr)
        { s.grant page next offers with headers := (page + ptr + n) :: s.headers, memory := m' }) :
    wp (newPage n) post exc s := by
  have bounds := ptr_bounds
  have real : realPageSize = 8192 - 2 * ptr := rfl
  have nonzero := legal.ne_zero (x := page) (by omega) (by omega)
  have present := spread.nonzero (remainder page n) (by simp)
  have fits : Fits 2 (realPageSize - n) := (spread.fits (remainder page n) (by simp)).2
  have linkBelow : link slot below + ptr ≤ page := by
    rcases List.eq_nil_or_concat below with rfl | ⟨below, v, rfl⟩
    · exact absurd rfl behind
    · rw [List.concat_eq_append] at *
      have := before v (by simp)
      rw [link_concat]
      omega
  have untouched : ∀ x, x < page ∨ page + 8192 + ptr ≤ x → opened s.memory page n x = s.memory x := fun x away =>
    opened_outside s.memory (by omega) (by omega)
  have kept : Listed (opened s.memory page n) slot (below ++ above) := by
    refine listed.frame (load_congr fun x _ _ => untouched x (by omega)) fun t member x _ _ => ?_
    rcases List.mem_append.mp member with member | member
    · have := before t member
      exact untouched x (by omega)
    · have := after t member
      exact untouched x (by omega)
  have begin : load (opened s.memory page n) ptr s.firstPage = head (below ++ above) := by
    rw [first]
    exact kept.path.start
  refine wp_newPage offered nonzero present (first ▸ spread.start) ?_
  rw [begin, wp_bind]
  refine insertHeader_spec (s := { s.grant page next offers with headers := (page + ptr + n) :: s.headers })
    (t := remainder page n) [] below enough behind
    (by simp [behind]) kept spread ?_ ?_ ?_
  · change load (opened s.memory page n) 2 (page + ptr + n) = realPageSize - n
    unfold opened
    rw [load_store_of_disjoint _ _ (by omega), load_store _ fits]
  · change load (opened s.memory page n) ptr (page + ptr + n + ptr) = 0
    exact load_store _ (fits_zero ptr)
  · intro m' listed' outside
    have header : (remainder page n).start = page + ptr + n := rfl
    rw [List.nil_append, header] at outside
    refine done m' listed' ?_ fun x away far apart => (outside x far apart).trans (opened_outside s.memory away far)
    rw [load_congr fun x _ _ => outside x (by omega) (by omega)]
    unfold opened
    rw [load_store_of_disjoint _ _ (by omega), load_store_of_disjoint _ _ (by omega),
      load_store _ (legal.fits (Int.le_refl _) (by omega))]

/-- On a page below all free blocks, `new_page` follows a NULL `previous_block`. -/
theorem newPage_null {post : Int → Machine → Prop} (low : 1 ≤ n) (first : s.firstPage = slot)
    (offered : s.supply = (page, next) :: offers) (legal : Legal page) (start : slot ≠ 0)
    (listed : Listed s.memory slot (t :: rest)) (present : t.start ≠ 0) (above : slot < t.start)
    (apart : page + ptr + n + 2 * ptr ≤ slot) (stops : exc .nullDereference) (header : page + ptr + n ≠ 0) :
    wp (newPage n) post exc s := by
  have bounds := ptr_bounds
  have nonzero := legal.ne_zero (x := page) (by omega) (by omega)
  have begin : load (opened s.memory page n) ptr s.firstPage = t.start := by
    rw [first, load_congr fun x _ _ => opened_outside s.memory (by omega) (by omega)]
    exact listed.path.1
  refine wp_newPage offered nonzero header (first ▸ start) ?_
  rw [begin, wp_bind]
  exact insertHeader_null present (by omega) stops

end Eecs343.Kma.ResourceMap
