import Eecs343.Kma.ResourceMap.Carve

namespace Eecs343.Kma.ResourceMap

open Bytes Effect Linked Tiling

variable [Target]

/-- The page `new_page` makes for a request of `n` bytes. -/
def fresh (page n : Int) : Page := ⟨page, [⟨page + ptr, n, .live⟩, remainder page n]⟩

variable {s : Machine} {P : Page} {ps l r : List Page} {n page next : Int} {offers : List (Int × Int)}
  {exc : Stop → Prop} {post : Int → Machine → Prop}

theorem Ranked.place (ranked : Ranked ps) (unused : page ∉ ps.map Page.base) :
    ∃ l r, ps = l ++ r ∧ (∀ P ∈ l, P.base < page) ∧ ∀ P ∈ r, page < P.base := by
  induction ps with
  | nil => exact ⟨[], [], rfl, by simp, by simp⟩
  | cons P ps ih =>
    rw [List.map_cons, List.mem_cons, not_or] at unused
    obtain ⟨other, unused⟩ := unused
    by_cases below : P.base < page
    · obtain ⟨l, r, rfl, lower, upper⟩ := ih ranked.tail unused
      exact ⟨P :: l, r, rfl, List.forall_mem_cons.mpr ⟨below, lower⟩, upper⟩
    · refine ⟨[], P :: ps, rfl, by simp, List.forall_mem_cons.mpr ⟨by omega, fun Q member => ?_⟩⟩
      have := (List.pairwise_cons.mp ranked.order).1 Q member
      omega

theorem fresh_sound (legal : Legal page) (low : 2 * ptr ≤ n) (high : n ≤ realPageSize - ptr) : Sound (fresh page n) := by
  have bounds := ptr_bounds
  have stop := stop_eq (fresh page n)
  have real : realPageSize = 8192 - 2 * ptr := rfl
  have base : (fresh page n).base = page := rfl
  have last : (remainder page n).start + (remainder page n).size = (fresh page n).stop := by
    change page + ptr + n + (realPageSize - n) = page + ptr + realPageSize
    omega
  refine ⟨legal, ⟨rfl, by dsimp only; omega, rfl, ?_, ?_⟩, fun t member ends => ?_, fun t member => ?_⟩
  · change 0 < realPageSize - n
    omega
  · change page + ptr + n + (realPageSize - n) = page + ptr + realPageSize
    omega
  · rcases List.mem_cons.mp member with rfl | member
    · dsimp only at ends
      omega
    · rw [List.mem_singleton.mp member]
      rfl
  · rcases List.mem_cons.mp member with rfl | member
    · exact .inl low
    · rw [List.mem_singleton.mp member]
      refine .inr ⟨last, ?_⟩
      change (ptr : Int) ≤ realPageSize - n
      omega

theorem Ranked.around (ranked : Ranked (l ++ r)) (legal : Legal page) (lower : ∀ P ∈ l, P.base < page)
    (upper : ∀ P ∈ r, page < P.base) :
    (∀ t ∈ freeList l, t.start + 2 * ptr ≤ page) ∧ ∀ t ∈ freeList r, page + 8192 + ptr ≤ t.start := by
  constructor
  · intro t member
    obtain ⟨P, here, free⟩ := mem_freeList.mp member
    have sound := ranked.sound P (List.mem_append_left _ here)
    have := sound.inside (mem_free.mp free).1
    have := lower P here
    have := sound.legal.apart legal (by omega)
    omega
  · intro t member
    obtain ⟨P, here, free⟩ := mem_freeList.mp member
    have sound := ranked.sound P (List.mem_append_right _ here)
    have := sound.inside (mem_free.mp free).1
    have := upper P here
    have := legal.apart sound.legal (by omega)
    omega

theorem Ranked.spread_remainder (ranked : Ranked (P :: l ++ r)) (legal : Legal page) (low : 1 ≤ n)
    (high : n ≤ realPageSize)
    (lower : ∀ Q ∈ P :: l, Q.base < page) (upper : ∀ Q ∈ r, page < Q.base) :
    Spread P.base (freeList (P :: l) ++ remainder page n :: freeList r) := by
  have bounds := ptr_bounds
  have real : realPageSize = 8192 - 2 * ptr := rfl
  have limit : (256 ^ 2 : Nat) = 65536 := rfl
  have start : (remainder page n).start = page + ptr + n := rfl
  have size : (remainder page n).size = realPageSize - n := rfl
  have old : Spread P.base (freeList (P :: l) ++ freeList r) := by
    rw [← freeList_append]
    exact ranked.spread
  obtain ⟨below, above⟩ := ranked.around legal lower upper
  have here : ∀ {t}, t ∈ freeList (P :: l) ++ remainder page n :: freeList r →
      t = remainder page n ∨ t ∈ freeList (P :: l) ++ freeList r := by
    intro t member
    simp at member ⊢
    tauto
  have first : P.base + 8192 ≤ page := by
    have := lower P List.mem_cons_self
    have := (ranked.sound P (by simp)).legal.apart legal (by omega)
    omega
  refine ⟨old.start, fun t member => ?_, ?_, fun t member => ?_, fun t member => ?_⟩
  · rcases here member with rfl | member
    · omega
    · exact old.behind t member
  · have order := old.order
    rw [List.pairwise_append] at order ⊢
    refine ⟨order.1, List.pairwise_cons.mpr ⟨fun t member => ?_, order.2.1⟩, fun t member u other => ?_⟩
    · have := above t member
      omega
    · rcases List.mem_cons.mp other with rfl | other
      · have := below t member
        omega
      · exact order.2.2 t member u other
  · rcases here member with rfl | member
    · exact legal.ne_zero (by omega) (by omega)
    · exact old.nonzero t member
  · rcases here member with rfl | member
    · exact ⟨legal.fits (by omega) (by omega), by omega, by omega⟩
    · exact old.fits t member

theorem Ranked.insert (ranked : Ranked (l ++ r)) (sound : Sound P) (lower : ∀ Q ∈ l, Q.base < P.base)
    (upper : ∀ Q ∈ r, P.base < Q.base) : Ranked (l ++ P :: r) := by
  have order := ranked.order
  rw [List.pairwise_append] at order
  refine ⟨fun Q member => ?_, List.pairwise_append.mpr ⟨order.1, List.pairwise_cons.mpr ⟨upper, order.2.1⟩, ?_⟩⟩
  · have here : Q = P ∨ Q ∈ l ++ r := by
      simp at member ⊢
      tauto
    rcases here with rfl | old
    · exact sound
    · exact ranked.sound Q old
  · intro Q member R other
    rcases List.mem_cons.mp other with rfl | other
    · exact lower Q member
    · exact order.2.2 Q member R other

theorem Heap.insert {m' : Memory} (heap : Heap s (l ++ r)) (behind : l ≠ []) (ranked : Ranked (l ++ P :: r))
    (listed : Listed m' s.firstPage (freeList (l ++ P :: r))) (record : load m' ptr P.base = P.base)
    (kept : ∀ base ∈ ((l ++ r).map Page.base).tail, load m' ptr base = load s.memory ptr base) (headers : List Int) :
    Heap { s.grant P.base next offers with headers := headers, memory := m' } (l ++ P :: r) := by
  obtain ⟨F, l, rfl⟩ := List.exists_cons_of_ne_nil behind
  refine ⟨heap.first, ranked, fun _ => listed, fun base member => ?_, ?_, ?_⟩
  · have here : base = P.base ∨ base ∈ ((F :: l ++ r).map Page.base).tail := by
      simp only [List.cons_append, List.map_cons, List.tail_cons, List.map_append, List.mem_append, List.mem_cons] at member ⊢
      tauto
    rcases here with rfl | old
    · exact record
    · exact (kept base old).trans (heap.records base old)
  · change (P.base :: s.pages).Perm _
    have middle : ((F :: l ++ P :: r).map Page.base).Perm (P.base :: (F :: l ++ r).map Page.base) :=
      List.perm_middle.map Page.base
    exact (heap.pages.cons P.base).trans middle.symm
  · have count := heap.inUse
    change s.numInUse + 1 = _
    simp only [List.length_append, List.length_cons] at count ⊢
    omega

/-- `new_page` on a page above the first one in use: what remains of the page is linked in its place,
    and where its header fits into the page, the page is one of those in use. -/
theorem newPage_above (heap : Heap s ps) (some : ps ≠ []) (offered : s.supply = (page, next) :: offers)
    (legal : Legal page)
    (unused : page ∉ s.pages) (above : s.firstPage < page) (low : 1 ≤ n) (high : n ≤ realPageSize)
    (done : ∀ l r m', ps = l ++ r → l ≠ [] →
      Listed m' s.firstPage (freeList l ++ remainder page n :: freeList r) →
      Spread s.firstPage (freeList l ++ remainder page n :: freeList r) →
      (2 * ptr ≤ n → n ≤ realPageSize - ptr →
        Heap { s.grant page next offers with headers := (page + ptr + n) :: s.headers, memory := m' } (l ++ fresh page n :: r)) →
      post (page + ptr) { s.grant page next offers with headers := (page + ptr + n) :: s.headers, memory := m' }) :
    wp (newPage n) post exc s := by
  have bounds := ptr_bounds
  have real : realPageSize = 8192 - 2 * ptr := rfl
  have free : page ∉ ps.map Page.base := fun member => unused (heap.pages.symm.subset member)
  obtain ⟨l, r, rfl, lower, upper⟩ := heap.ranked.place free
  have first := heap.first
  have behind : l ≠ [] := by
    rintro rfl
    obtain ⟨P, r', rfl⟩ := List.exists_cons_of_ne_nil (show r ≠ [] from some)
    have := upper P List.mem_cons_self
    rw [List.nil_append, firstBase_cons] at first
    omega
  obtain ⟨P, l, rfl⟩ := List.exists_cons_of_ne_nil behind
  rw [List.cons_append, firstBase_cons] at first
  have spread := heap.ranked.spread_remainder legal low high lower upper
  rw [← first] at spread
  obtain ⟨before, after⟩ := heap.ranked.around legal lower upper
  have listed := heap.listed some
  rw [freeList_append] at listed
  have gap := (heap.legal (P := P) (by simp)).apart legal (by omega)
  have nonempty := (heap.ranked.sublist (List.sublist_append_left (P :: l) r)).freeList_ne behind
  have short := (spread.sublist (List.sublist_append_left _ _)).short
  refine newPage_spec low high short rfl offered legal listed spread nonempty (by omega) before after
    fun m' listed' record outside => ?_
  refine done (P :: l) r m' rfl behind listed' spread fun wide fits => ?_
  have ranked := heap.ranked.insert (P := fresh page n) (fresh_sound legal wide fits) lower upper
  have list : freeList (P :: l ++ fresh page n :: r) = freeList (P :: l) ++ remainder page n :: freeList r := by
    rw [freeList_append, freeList_cons]
    rfl
  refine heap.insert (P := fresh page n) behind ranked (list ▸ listed') record (fun base old => ?_) _
  refine load_congr fun x least most => ?_
  obtain ⟨away, headers⟩ := heap.clear old least most
  have far := headers _ heap.ranked rfl
  obtain ⟨Q, other, rfl⟩ := List.mem_map.mp (List.mem_of_mem_tail old)
  have apart := (heap.legal other).apart legal fun same => free (same ▸ List.mem_map_of_mem other)
  refine outside x (by omega) (by omega) (link_inside away fun t free => far t ?_)
  rw [freeList_append]
  exact List.mem_append_left _ free

/-- `new_page` on a page below all pages in use follows a NULL `previous_block`. -/
theorem newPage_below (heap : Heap s ps) (some : ps ≠ []) (offered : s.supply = (page, next) :: offers)
    (legal : Legal page)
    (below : page < s.firstPage) (low : 1 ≤ n) (high : n ≤ realPageSize)
    (short : n ≤ realPageSize - ptr ∨ page + 8192 ≠ s.firstPage) (stops : exc .nullDereference) : wp (newPage n) post exc s := by
  have bounds := ptr_bounds
  have real : realPageSize = 8192 - 2 * ptr := rfl
  obtain ⟨P, ps, rfl⟩ := List.exists_cons_of_ne_nil some
  have spread := heap.spread some
  have listed := heap.listed some
  have first : s.firstPage = P.base := heap.first
  have apart := legal.apart (heap.legal (P := P) (by simp)) (by omega)
  have aligned := (heap.legal (P := P) (by simp)).aligned
  have alignedPage := legal.aligned
  obtain ⟨t, rest, split⟩ := List.exists_cons_of_ne_nil (heap.ranked.freeList_ne some)
  rw [split] at listed spread
  have behind := spread.behind t List.mem_cons_self
  exact newPage_null low rfl offered legal spread.start listed (spread.nonzero t List.mem_cons_self) (by omega) (by omega) stops
    (legal.ne_zero (by omega) (by omega))

end Eecs343.Kma.ResourceMap
