import Eecs343.Kma.ResourceMap.NewPage

namespace Eecs343.Kma.ResourceMap

open Bytes Effect Linked Tiling

variable [Target]

def blank (page : Int) : Page := ⟨page, [whole page]⟩

/-- The machine after `kma_malloc` has made `page` the first one. -/
def begun (s : Machine) (page next : Int) (offers : List (Int × Int)) : Machine :=
  { s.grant page next offers with
    firstPage := page
    headers := (page + ptr) :: s.headers
    memory := store (store (store s.memory 2 (page + ptr) realPageSize) ptr (page + ptr + ptr) 0) ptr page (page + ptr) }

/-- The machine and the pages on which `kma_malloc` looks for a block: those there are, or a first
    page without live blocks. -/
inductive Opens (s : Machine) (ps : List Page) : Machine → List Page → Prop where
  | kept (some : ps ≠ []) : Opens s ps s ps
  | first {page next offers} (none : ps = []) (offered : s.supply = (page, next) :: offers) :
    Opens s ps (begun s page next offers) [blank page]

variable {s s' : Machine} {ps qs : List Page} {n page next : Int} {offers : List (Int × Int)}
  {exc : Stop → Prop} {post : Int → Machine → Prop}

theorem blank_sound (legal : Legal page) : Sound (blank page) := by
  have bounds := ptr_bounds
  have real : realPageSize = 8192 - 2 * ptr := rfl
  refine ⟨legal, ⟨rfl, by change 0 < realPageSize; omega, rfl⟩, fun t member _ => ?_, fun t member => ?_⟩
  · rw [List.mem_singleton.mp member]
    rfl
  · rw [List.mem_singleton.mp member]
    change 2 * ptr ≤ realPageSize ∨ _
    omega

theorem begun_heap (heap : Heap s []) (legal : Legal page) : Heap (begun s page next offers) [blank page] := by
  have bounds := ptr_bounds
  have limit : (256 ^ 2 : Nat) = 65536 := rfl
  have real : realPageSize = 8192 - 2 * ptr := rfl
  have count := heap.inUse
  refine ⟨rfl, ⟨fun P member => ?_, List.pairwise_singleton _ _⟩, fun _ => ⟨?_, fun t member => ?_⟩, by simp, ?_, ?_⟩
  · rw [List.mem_singleton.mp member]
    exact blank_sound legal
  · refine ⟨load_store _ (legal.fits (by omega) (by omega)), ?_⟩
    change load (store _ ptr page _) ptr (page + ptr + ptr) = 0
    rw [load_store_of_disjoint _ _ (by omega)]
    exact load_store _ (fits_zero ptr)
  · rw [List.mem_singleton.mp (show t ∈ [whole page] from member)]
    change load (store _ ptr page _) 2 (page + ptr) = realPageSize
    rw [load_store_of_disjoint _ _ (by omega), load_store_of_disjoint _ _ (by omega)]
    exact load_store _ ⟨by omega, by omega⟩
  · exact heap.pages.cons page
  · change s.numInUse + 1 = 1
    simpa using count

theorem kmaMalloc_started (some : s.firstPage ≠ 0)
    (rest : wp (if n % 256 ^ ptr > realPageSize then pure 0 else findFirstFit (short n)) post exc s) :
    wp (kmaMalloc n) post exc s := by
  unfold kmaMalloc
  rw [wp_bind, wp_get, if_neg some]
  exact rest

theorem kmaMalloc_first (none : s.firstPage = 0) (offered : Offered s)
    (exhausted : s.supply = [] → exc .allPagesAllocated)
    (rest : ∀ page next offers, s.supply = (page, next) :: offers →
      wp (if n % 256 ^ ptr > realPageSize then pure 0 else findFirstFit (short n)) post exc (begun s page next offers)) :
    wp (kmaMalloc n) post exc s := by
  have bounds := ptr_bounds
  unfold kmaMalloc
  rw [wp_bind, wp_get, if_pos none, wp_bind]
  refine wp_getPage exhausted fun page next offers left => ?_
  have legal : Legal page := offered.legal (page, next) (by simp [left])
  rw [wp_bind, wp_modify, wp_bind]
  refine wp_writeHeader (legal.ne_zero (by omega) (by omega)) ?_
  unfold setFirstPageBlock
  rw [wp_bind, wp_bind, wp_get]
  refine wp_write legal.nonzero ?_
  rw [Int.add_zero]
  exact rest page next offers left

theorem Opens.malloc (opens : Opens s ps s' qs) (heap : Heap s ps) (offered : Offered s)
    (rest : wp (if n % 256 ^ ptr > realPageSize then pure 0 else findFirstFit (short n)) post exc s') :
    wp (kmaMalloc n) post exc s := by
  cases opens with
  | kept some => exact kmaMalloc_started (heap.firstPage_ne some) rest
  | @first page next offers none same =>
    subst none
    apply kmaMalloc_first heap.first offered
    · exact fun none => absurd (same.symm.trans none) (by simp)
    · intro page' next' offers' same'
      obtain ⟨⟨rfl, rfl⟩, rfl⟩ : (page = page' ∧ next = next') ∧ offers = offers' := by simpa using same.symm.trans same'
      exact rest

theorem Opens.heap (opens : Opens s ps s' qs) (heap : Heap s ps) (offered : Offered s) : qs ≠ [] ∧ Heap s' qs := by
  cases opens with
  | kept some => exact ⟨some, heap⟩
  | @first page next offers none same =>
    subst none
    exact ⟨by simp, begun_heap heap (offered.legal (page, next) (by simp [same]))⟩

/-- `kma_malloc` finds every page taken, or comes to the test of the size. -/
theorem kmaMalloc_opens (heap : Heap s ps) (offered : Offered s)
    (exhausted : s.supply = [] → exc .allPagesAllocated)
    (rest : ∀ s' qs, Opens s ps s' qs → qs ≠ [] → Heap s' qs →
      wp (if n % 256 ^ ptr > realPageSize then pure 0 else findFirstFit (short n)) post exc s') :
    wp (kmaMalloc n) post exc s := by
  have opened : ∀ s' qs, Opens s ps s' qs →
      wp (if n % 256 ^ ptr > realPageSize then pure 0 else findFirstFit (short n)) post exc s' := by
    intro s' qs opens
    obtain ⟨some, heap'⟩ := opens.heap heap offered
    exact rest s' qs opens some heap'
  by_cases some : ps = []
  · subst some
    exact kmaMalloc_first heap.first offered exhausted fun page next offers left => opened _ _ (.first rfl left)
  · exact kmaMalloc_started (heap.firstPage_ne some) (opened _ _ (.kept some))

theorem size_t_eq (low : 1 ≤ n) (high : n < 2 ^ 31) : n % 256 ^ ptr = n := by
  rcases Target.ptr_cases with h | h <;> rw [h] <;> norm_num <;> omega

theorem short_eq (low : 1 ≤ n) (high : n ≤ realPageSize) : short n = n := by
  have bounds := ptr_bounds
  have real : realPageSize = 8192 - 2 * ptr := rfl
  unfold short
  exact Int.bmod_eq_of_le (by omega) (by omega)

/-- `kma_malloc` rejects the request, finds a block that has room, or asks for a page. -/
theorem kmaMalloc_spec (heap : Heap s ps) (offered : Offered s) (low : 1 ≤ n) (high : n < 2 ^ 31)
    (exhausted : s.supply = [] → exc .allPagesAllocated)
    (rejected : ∀ s' qs, Opens s ps s' qs → Heap s' qs → realPageSize < n → post 0 s')
    (found : ∀ s' qs, Opens s ps s' qs → Heap s' qs → n ≤ realPageSize → (∃ t ∈ freeList qs, FitsIn n t) →
      wp (findFirstFit n) post exc s')
    (new : ∀ s' qs, Opens s ps s' qs → Heap s' qs → qs ≠ [] → n ≤ realPageSize → (∀ t ∈ freeList qs, ¬ FitsIn n t) →
      wp (newPage n) post exc s') :
    wp (kmaMalloc n) post exc s := by
  have bounds := ptr_bounds
  have real : realPageSize = 8192 - 2 * ptr := rfl
  refine kmaMalloc_opens heap offered exhausted fun s' qs opens some heap' => ?_
  rw [size_t_eq low high]
  by_cases large : n > realPageSize
  · rw [if_pos large]
    exact rejected s' qs opens heap' large
  · rw [if_neg large, short_eq low (by omega)]
    by_cases fit : ∃ t ∈ freeList qs, FitsIn n t
    · exact found s' qs opens heap' (by omega) fit
    · have none : ∀ t ∈ freeList qs, ¬ FitsIn n t := fun t member room => fit ⟨t, member, room⟩
      exact findFirstFit_none heap' some (by omega) (by omega) none (new s' qs opens heap' some (by omega) none)

/-- The pages `kma_malloc` looks for a block on, and what `get_page` has left. -/
def opening : List Page → List (Int × Int) → List Page × List (Int × Int)
  | [], (page, _) :: offers => ([blank page], offers)
  | ps, supply => (ps, supply)

theorem Opens.opening (opens : Opens s ps s' qs) : opening ps s.supply = (qs, s'.supply) := by
  cases opens with
  | kept some =>
    obtain ⟨P, ps, rfl⟩ := List.exists_cons_of_ne_nil some
    rfl
  | first none offered =>
    rw [none, offered]
    rfl

theorem Opens.offered (opens : Opens s ps s' qs) (offered : Offered s) : Offered s' := by
  cases opens with
  | kept some => exact offered
  | first none same =>
    have granted := offered.grant same
    exact ⟨granted.legal, granted.unused, granted.distinct⟩

theorem Opens.exhausted (opens : Opens s ps s' qs) (empty : s'.supply = []) : s.supply.length < 2 := by
  cases opens with
  | kept some => simp [empty]
  | @first page next offers none offered =>
    rw [offered, show offers = [] from empty]
    simp

/-- Where `new_page` is asked: there is no page, or one below the first page in use, or one above. -/
theorem newPage_cases (heap : Heap s qs) (some : qs ≠ []) (offered : Offered s) (low : 1 ≤ n) (high : n ≤ realPageSize)
    (exhausted : s.supply = [] → exc .allPagesAllocated)
    (below : ∀ page next offers, s.supply = (page, next) :: offers → page < s.firstPage → wp (newPage n) post exc s)
    (above : ∀ page next offers l r m', s.supply = (page, next) :: offers → s.firstPage < page → Legal page → qs = l ++ r →
      l ≠ [] → Listed m' s.firstPage (freeList l ++ remainder page n :: freeList r) →
      Spread s.firstPage (freeList l ++ remainder page n :: freeList r) →
      (2 * ptr ≤ n → n ≤ realPageSize - ptr →
        Heap { s.grant page next offers with headers := (page + ptr + n) :: s.headers, memory := m' } (l ++ fresh page n :: r)) →
      post (page + ptr) { s.grant page next offers with headers := (page + ptr + n) :: s.headers, memory := m' }) :
    wp (newPage n) post exc s := by
  rcases left : s.supply with _ | ⟨⟨page, next⟩, offers⟩
  · unfold newPage
    rw [wp_bind]
    exact wp_getPage exhausted fun page next offers same => absurd (left.symm.trans same) (by simp)
  · have legal := offered.legal (page, next) (by simp [left])
    have unused : page ∉ s.pages := offered.unused (page, next) (by simp [left])
    have used : s.firstPage ∈ s.pages := by
      obtain ⟨P, qs, rfl⟩ := List.exists_cons_of_ne_nil some
      rw [heap.first]
      exact heap.pages.symm.subset (by simp)
    rcases lt_trichotomy page s.firstPage with lower | same | upper
    · exact below page next offers left lower
    · exact absurd (same ▸ used) unused
    · exact newPage_above heap some left legal unused upper low high fun l r m' split behind listed spread heap' =>
        above page next offers l r m' left upper legal split behind listed spread heap'

end Eecs343.Kma.ResourceMap
