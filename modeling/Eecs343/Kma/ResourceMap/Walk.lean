import Eecs343.Kma.ResourceMap.Chain

namespace Eecs343.Kma.ResourceMap

open Bytes Effect Linked Tiling

variable [Target]

variable {s : Machine} {m m' : Memory} {slot n : Int} {k : Nat} {t u : Block} {l pre mid rest after : List Block}
  {exc : Stop → Prop}

theorem wp_writeHeader {post : Unit → Machine → Prop} {block size next : Int} (nonzero : block ≠ 0)
    (h : post () { s with
      headers := block :: s.headers
      memory := store (store s.memory 2 block size) ptr (block + ptr) next }) :
    wp (writeHeader block size next) post exc s := by
  unfold writeHeader
  rw [wp_bind, wp_modify, wp_bind]
  refine wp_write nonzero ?_
  rw [Int.add_zero]
  exact wp_write nonzero h

theorem wp_firstPageBlock {post : Int → Machine → Prop} (nonzero : s.firstPage ≠ 0)
    (h : post (load s.memory ptr s.firstPage) s) : wp firstPageBlock post exc s := by
  unfold firstPageBlock
  rw [wp_bind, wp_get]
  refine wp_read nonzero ?_
  rw [Int.add_zero]
  exact h

theorem last_ne (spread : Spread slot pre) (some : pre ≠ []) : last pre ≠ 0 := by
  rcases List.eq_nil_or_concat pre with rfl | ⟨pre, v, rfl⟩
  · exact absurd rfl some
  · rw [List.concat_eq_append] at spread ⊢
    rw [last_concat]
    exact spread.nonzero v (by simp)

theorem wp_setNext {post : Unit → Machine → Prop} {block : Int} (first : s.firstPage = slot) (spread : Spread slot pre)
    (h : post () { s with memory := store s.memory ptr (link slot pre) block }) :
    wp (setNext (last pre) block) post exc s := by
  unfold setNext link at *
  by_cases none : pre = []
  · subst none
    rw [if_pos rfl] at h
    rw [if_pos (show last [] = 0 from rfl)]
    unfold setFirstPageBlock
    rw [wp_bind, wp_get, first]
    refine wp_write spread.start ?_
    rw [Int.add_zero]
    exact h
  · rw [if_neg none] at h
    rw [if_neg (last_ne spread none)]
    exact wp_write (last_ne spread none) h

/-- A new header, linked behind the blocks of `pre`. -/
theorem placeHeader_spec {post : Unit → Machine → Prop} (mid rest : List Block) (first : s.firstPage = slot)
    (listed : Listed s.memory slot (pre ++ (mid ++ rest))) (spread : Spread slot (pre ++ t :: rest))
    (fits : Fits ptr (head rest))
    (done : ∀ m', Listed m' slot (pre ++ t :: rest) →
      (∀ x, (x < t.start ∨ t.start + 2 * ptr ≤ x) → (x < link slot pre ∨ link slot pre + ptr ≤ x) → m' x = s.memory x) →
      post () { s with headers := t.start :: s.headers, memory := m' }) :
    wp (do writeHeader t.start t.size (head rest); setNext (last pre) t.start) post exc s := by
  have := ptr_bounds
  have before := spread.link_le
  have nonzero := spread.nonzero t (by simp)
  have stored := spread.fits t (by simp)
  rw [wp_bind]
  refine wp_writeHeader nonzero (wp_setNext (show _ = slot from first) (spread.sublist (by simp)) ?_)
  refine done _ (listed.splice mid spread ?_ ?_ ?_ ?_) ?_
  · rw [load_store_of_disjoint _ _ (by omega), load_store_of_disjoint _ _ (by omega), load_store _ stored.2]
  · rw [load_store_of_disjoint _ _ (by omega), load_store _ fits]
  · exact load_store _ stored.1
  all_goals
    intro x away far
    rw [store_outside _ _ _ _ far]
    dsimp only
    rw [store_outside _ _ _ _ (by omega), store_outside _ _ _ _ (by omega)]

theorem Listed.header (listed : Listed m slot (pre ++ t :: rest)) :
    load m 2 t.start = t.size ∧ load m ptr (t.start + ptr) = head rest := by
  refine ⟨listed.size t (by simp), ?_⟩
  exact listed.tail.2.start

/-- The front of a free block is given up; the rest keeps its place on the list. -/
theorem updateMallocHeaders_spec {post : Unit → Machine → Prop} (first : s.firstPage = slot)
    (listed : Listed s.memory slot (pre ++ t :: rest))
    (spread : Spread slot (pre ++ t :: rest)) (left : Spread slot (pre ++ ⟨t.start + n, t.size - n, .free⟩ :: rest))
    (done : ∀ m', Listed m' slot (pre ++ ⟨t.start + n, t.size - n, .free⟩ :: rest) →
      (∀ x, (x < t.start + n ∨ t.start + n + 2 * ptr ≤ x) → (x < link slot pre ∨ link slot pre + ptr ≤ x) →
        m' x = s.memory x) →
      post () { s with headers := (t.start + n) :: s.headers, memory := m' }) :
    wp (updateMallocHeaders n t.start (last pre)) post exc s := by
  obtain ⟨size, next⟩ := listed.header
  have nonzero := spread.nonzero t (by simp)
  have fits := (left.fits ⟨t.start + n, t.size - n, .free⟩ (by simp)).2
  have exact_size : short (t.size - n) = t.size - n := by
    obtain ⟨low, high⟩ := fits
    unfold short
    norm_num at low high
    exact Int.bmod_eq_of_le (by omega) (by omega)
  unfold updateMallocHeaders
  rw [wp_bind]
  refine wp_read nonzero ?_
  rw [next, wp_bind]
  refine wp_read nonzero ?_
  rw [Int.add_zero, size]
  dsimp only
  rw [exact_size]
  exact placeHeader_spec (t := ⟨t.start + n, t.size - n, .free⟩) [t] rest first listed left
    (head_fits (spread.sublist (r := rest) (by simp))) done

/-- The walk of `kma_free` to the place of the block that is freed, which lies before some free block. -/
theorem insertFreed_spec {post : Unit → Machine → Prop} (pre mid : List Block) (enough : mid.length < k)
    (first : s.firstPage = slot)
    (listed : Listed s.memory slot (pre ++ (mid ++ u :: rest)))
    (spread : Spread slot (pre ++ (mid ++ t :: u :: rest)))
    (done : ∀ m', Listed m' slot (pre ++ (mid ++ t :: u :: rest)) →
      (∀ x, (x < t.start ∨ t.start + 2 * ptr ≤ x) → (x < link slot (pre ++ mid) ∨ link slot (pre ++ mid) + ptr ≤ x) →
        m' x = s.memory x) →
      post () { s with headers := t.start :: s.headers, memory := m' }) :
    wp (insertFreed k t.start t.size (head (mid ++ u :: rest)) (last pre)) post exc s := by
  have := ptr_bounds
  induction k generalizing pre mid with
  | zero => cases enough
  | succ k ih =>
    have order := (List.pairwise_append.mp (List.pairwise_append.mp spread.order).2.1)
    have stored := spread.fits t (by simp)
    unfold insertFreed
    cases mid with
    | nil =>
      have above := (List.pairwise_cons.mp order.2.1).1 u (by simp)
      have size : short t.size = t.size := by
        obtain ⟨low, high⟩ := stored.2
        unfold short
        norm_num at low high
        exact Int.bmod_eq_of_le (by omega) (by omega)
      rw [List.nil_append, head_cons, if_pos (spread.nonzero u (by simp)), if_pos (by omega), size]
      rw [List.append_nil] at done
      exact placeHeader_spec [] (u :: rest) first listed spread
        (head_fits (spread.sublist (r := u :: rest) (by simp))) done
    | cons v mid =>
      have below := order.2.2 v (by simp) t (by simp)
      have nonzero := spread.nonzero v (by simp)
      obtain ⟨_, next⟩ := listed.header
      rw [List.cons_append, head_cons, if_pos nonzero, if_neg (by omega), wp_bind]
      refine wp_read nonzero ?_
      rw [next]
      have moved : pre ++ (v :: mid ++ u :: rest) = pre ++ [v] ++ (mid ++ u :: rest) := by simp
      have moved' : pre ++ (v :: mid ++ t :: u :: rest) = pre ++ [v] ++ (mid ++ t :: u :: rest) := by simp
      have moved'' : pre ++ v :: mid = pre ++ [v] ++ mid := by simp
      rw [moved] at listed
      rw [moved'] at spread done
      rw [moved''] at done
      have step := ih (pre ++ [v]) mid (by simpa using enough) listed spread done
      rw [last_concat] at step
      exact step

/-- The walk of `new_page` to the place of the new header, which lies behind some free block. -/
theorem insertHeader_spec {post : Unit → Machine → Prop} (pre mid : List Block) (enough : mid.length < k)
    (behind : pre ++ mid ≠ [])
    (some : mid ++ rest ≠ []) (listed : Listed m slot (pre ++ (mid ++ rest)))
    (spread : Spread slot (pre ++ (mid ++ t :: rest))) (size : load m 2 t.start = t.size)
    (null : load m ptr (t.start + ptr) = 0)
    (done : ∀ m', Listed m' slot (pre ++ (mid ++ t :: rest)) →
      (∀ x, (x < t.start ∨ t.start + 2 * ptr ≤ x) → (x < link slot (pre ++ mid) ∨ link slot (pre ++ mid) + ptr ≤ x) →
        m' x = m x) →
      post () { s with memory := m' }) :
    wp (insertHeader k t.start (head (mid ++ rest)) (last pre)) post exc { s with memory := m } := by
  have := ptr_bounds
  induction k generalizing pre mid with
  | zero => cases enough
  | succ k ih =>
    have order := List.pairwise_append.mp (List.pairwise_append.mp spread.order).2.1
    have fits := spread.fits t (by simp)
    have nonzero := spread.nonzero t (by simp)
    unfold insertHeader
    cases mid with
    | nil =>
      cases rest with
      | nil => exact absurd rfl some
      | cons u rest =>
        have above := (List.pairwise_cons.mp order.2.1).1 u (by simp)
        have before := spread.link_le
        -- the walk stands at the block behind the place of the new header
        rw [List.nil_append, head_cons, if_neg (spread.nonzero u (by simp)), if_pos (by omega)]
        rcases List.eq_nil_or_concat pre with rfl | ⟨pre, v, rfl⟩
        · exact absurd rfl behind
        · rw [List.concat_eq_append] at *
          rw [link_concat] at before
          rw [last_concat, wp_bind]
          refine wp_write (spread.nonzero v (by simp)) (wp_write nonzero (done _ ?_ ?_))
          · refine listed.splice [] spread ?_ ?_ ?_ fun x away far => ?_
            · rw [load_store_of_disjoint _ _ (by omega), load_store_of_disjoint _ _ (by omega), size]
            · exact load_store _ (spread.fits u (by simp)).1
            · rw [link_concat, load_store_of_disjoint _ _ (by omega), load_store _ fits.1]
            · rw [link_concat] at far
              rw [store_outside _ _ _ _ (by omega)]
              exact store_outside _ _ _ _ far
          · intro x away far
            rw [List.append_nil, link_concat] at far
            rw [store_outside _ _ _ _ (by omega)]
            exact store_outside _ _ _ _ far
    | cons v mid =>
      have below := order.2.2 v (by simp) t (by simp)
      have present := spread.nonzero v (by simp)
      have next : load m ptr (v.start + ptr) = head (mid ++ rest) := listed.header.2
      have moved : pre ++ (v :: mid ++ rest) = pre ++ [v] ++ (mid ++ rest) := by simp
      have moved' : pre ++ (v :: mid ++ t :: rest) = pre ++ [v] ++ (mid ++ t :: rest) := by simp
      have moved'' : pre ++ v :: mid = pre ++ [v] ++ mid := by simp
      rw [moved] at listed
      rw [moved'] at spread done
      rw [moved''] at done
      rw [List.cons_append, head_cons, if_neg present, if_neg (by omega), wp_bind]
      refine wp_read present ?_
      dsimp only
      rw [next]
      by_cases none : mid ++ rest = []
      -- there is no further block: the header goes behind the last one
      · obtain ⟨rfl, rfl⟩ := List.append_eq_nil_iff.mp none
        rw [if_pos (show head ([] ++ []) = 0 from rfl)]
        have before := spread.link_le
        rw [link_concat] at before
        refine wp_write present (done _ ?_ ?_)
        · refine listed.splice [] spread ?_ ?_ ?_ fun x away far => ?_
          · rw [load_store_of_disjoint _ _ (by omega), size]
          · rw [load_store_of_disjoint _ _ (by omega), null]
            rfl
          · rw [link_concat, load_store _ fits.1]
          · rw [link_concat] at far
            exact store_outside _ _ _ _ far
        · intro x away far
          rw [List.append_nil, link_concat] at far
          exact store_outside _ _ _ _ far
      · have shorter : (mid ++ rest).Sublist (mid ++ t :: rest) := (List.sublist_cons_self t rest).append_left mid
        have present' := head_ne (spread.sublist (shorter.trans (List.sublist_append_right _ _))) none
        rw [if_neg present']
        have step := ih (pre ++ [v]) mid (by simpa using enough) (by simp) none listed spread done
        rw [last_concat] at step
        exact step

/-- Before the first free block there is no header to link from. -/
theorem insertHeader_null {post : Unit → Machine → Prop} {header current : Int} (present : current ≠ 0)
    (before : header < current) (stops : exc .nullDereference) : wp (insertHeader (k + 1) header current 0) post exc s := by
  unfold insertHeader
  rw [if_neg present, if_pos before, wp_bind]
  exact stops

end Eecs343.Kma.ResourceMap
