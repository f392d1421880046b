import Eecs343.Base.Linked
import Eecs343.Kma.Memory
import Eecs343.Kma.Buddy.Freed

namespace Eecs343.Kma.Buddy

open Bytes Linked

variable [Target]

/-- From `p` the `next` links run through the blocks of `l`, each of class `k`, to NULL. -/
structure FreeList (m : Memory) (k : Nat) (p : Int) (l : List Int) : Prop where
  path : Path (fun b => load m ptr (b + 2 * ptr)) p l 0
  size : ∀ b ∈ l, load m 4 (b + ptr) = blockSize k

/-- The memory of a page: its header says what `P` says, and `next` is the page after it. -/
structure PageRep (m : Memory) (P : Page) (next : Int) : Prop where
  page : load m ptr P.header = P.base
  next : load m ptr (P.header + ptr) = next
  used : load m 4 (P.header + 20 * ptr) = P.used
  bigger : ∀ k < 8, load m ptr (buffer P.header k + ptr) = buffer P.header (k + 1)
  biggest : load m ptr (buffer P.header 8 + ptr) = 0
  lists : ∀ k < 9, FreeList m k (load m ptr (buffer P.header k)) (P.free k)

theorem header_eq (P : Page) : P.header = P.base + 3 * ptr := rfl

theorem buffer_low (h : Int) (k : Nat) : h + 2 * ptr ≤ buffer h k := by
  have := ptr_bounds.1
  have : (0 : Int) ≤ 2 * ptr * k := by positivity
  unfold buffer
  omega

theorem buffer_lt (h : Int) {j k : Nat} (lt : j < k) : buffer h j + 2 * ptr ≤ buffer h k := by
  have := ptr_bounds.1
  have : 2 * (ptr : Int) * (j + 1) ≤ 2 * ptr * k :=
    mul_le_mul_of_nonneg_left (by omega) (by omega)
  unfold buffer
  rw [mul_add] at this
  omega

theorem buffer_high (h : Int) {k : Nat} (bound : k < 9) : buffer h k + 2 * ptr ≤ h + 20 * ptr := by
  have last : buffer h 9 = h + 20 * ptr := by
    unfold buffer
    push_cast
    ring
  have := buffer_lt h bound
  omega

theorem buffer_apart (h : Int) {j k : Nat} (ne : j ≠ k) :
    buffer h j + 2 * ptr ≤ buffer h k ∨ buffer h k + 2 * ptr ≤ buffer h j := by
  rcases Nat.lt_or_gt_of_ne ne with lt | gt
  · exact .inl (buffer_lt h lt)
  · exact .inr (buffer_lt h gt)

theorem FreeList.frame {m m' : Memory} {k : Nat} {p : Int} {l : List Int} (list : FreeList m k p l)
    (same : ∀ b ∈ l, ∀ x, b ≤ x → x < b + 3 * ptr → m' x = m x) : FreeList m' k p l := by
  have := ptr_bounds
  refine ⟨list.path.congr fun b member => ?_, fun b member => ?_⟩
  · exact load_congr fun x low high => same b member x (by omega) (by omega)
  · rw [← list.size b member]
    exact load_congr fun x low high => same b member x (by omega) (by omega)

def Nodes (P : Page) : Prop :=
  ∀ k < 9, ∀ b ∈ P.free k, (b = P.base ∨ P.base + 32 * ptr ≤ b) ∧ b + 32 ≤ P.base + 8192

theorem Page.Ok.nodes {P : Page} {room : Set Int} (ok : P.Ok room) : Nodes P := by
  intro k bound b member
  have holds := ok.holds k bound b member
  have low := holds.low
  have high := holds.high
  have := blockSize_pos k
  exact ⟨low, by omega⟩

namespace PageRep

variable {m m' : Memory} {P : Page} {next v : Int} {k : Nat} {l : List Int}

theorem frame (rep : PageRep m P next)
    (header : ∀ x, P.header ≤ x → x < P.header + 21 * ptr → m' x = m x)
    (blocks : ∀ k < 9, ∀ b ∈ P.free k, ∀ x, b ≤ x → x < b + 3 * ptr → m' x = m x) : PageRep m' P next := by
  have := ptr_bounds
  have field : ∀ (n : Nat) (a : Int), P.header ≤ a → a + n ≤ P.header + 21 * ptr → load m' n a = load m n a :=
    fun n a low high => load_congr fun x _ _ => header x (by omega) (by omega)
  have slot : ∀ k < 9, load m' ptr (buffer P.header k) = load m ptr (buffer P.header k) ∧
      load m' ptr (buffer P.header k + ptr) = load m ptr (buffer P.header k + ptr) := by
    intro k bound
    have := buffer_low P.header k
    have := buffer_high P.header bound
    exact ⟨field _ _ (by omega) (by omega), field _ _ (by omega) (by omega)⟩
  refine ⟨?_, ?_, ?_, fun k bound => ?_, ?_, fun k bound => ?_⟩
  · rw [field _ _ (by omega) (by omega), rep.page]
  · rw [field _ _ (by omega) (by omega), rep.next]
  · rw [field _ _ (by omega) (by omega), rep.used]
  · rw [(slot k (by omega)).2, rep.bigger k bound]
  · rw [(slot 8 (by decide)).2, rep.biggest]
  · rw [(slot k bound).1]
    exact (rep.lists k bound).frame (blocks k bound)

theorem outside (rep : PageRep m P next) {a n : Int} (changed : ∀ x, x < a ∨ a + n ≤ x → m' x = m x)
    (header : a + n ≤ P.header ∨ P.header + 21 * ptr ≤ a)
    (blocks : ∀ k < 9, ∀ b ∈ P.free k, a + n ≤ b ∨ b + 3 * ptr ≤ a) : PageRep m' P next := by
  refine rep.frame (fun x _ _ => changed x (by omega)) fun k bound b member x _ _ => changed x ?_
  have := blocks k bound b member
  omega

theorem relist (rep : PageRep m P next) (list : FreeList m' k (load m ptr (buffer P.header k)) l)
    (header : ∀ x, P.header ≤ x → x < P.header + 21 * ptr → m' x = m x)
    (blocks : ∀ j < 9, j ≠ k → ∀ b ∈ P.free j, ∀ x, b ≤ x → x < b + 3 * ptr → m' x = m x) :
    PageRep m' (P.setList k l) next := by
  have := ptr_bounds
  have field : ∀ (n : Nat) (a : Int), P.header ≤ a → a + n ≤ P.header + 21 * ptr → load m' n a = load m n a :=
    fun n a low high => load_congr fun x _ _ => header x (by omega) (by omega)
  have inside : ∀ j < 9, P.header ≤ buffer P.header j ∧ buffer P.header j + 2 * ptr ≤ P.header + 21 * ptr := by
    intro j bound
    have := buffer_low P.header j
    have := buffer_high P.header bound
    omega
  constructor
  · exact (field _ _ (le_refl _) (by omega)).trans rep.page
  · exact (field _ _ (by rw [Page.setList_header]; omega) (by rw [Page.setList_header]; omega)).trans rep.next
  · exact (field _ _ (by rw [Page.setList_header]; omega) (by rw [Page.setList_header]; omega)).trans rep.used
  · intro j bound
    have := inside j (by omega)
    exact (field _ _ (by rw [Page.setList_header]; omega) (by rw [Page.setList_header]; omega)).trans (rep.bigger j bound)
  · have := inside 8 (by decide)
    exact (field _ _ (by rw [Page.setList_header]; omega) (by rw [Page.setList_header]; omega)).trans rep.biggest
  · intro j bound
    have := inside j bound
    rw [Page.setList_header, field _ _ (by omega) (by omega)]
    by_cases same : j = k
    · subst same
      rw [Page.setList_self]
      exact list
    · rw [Page.setList_ne _ _ same]
      exact (rep.lists j bound).frame (blocks j bound same)

/-- `page_header->next = v`. -/
theorem setNext (rep : PageRep m P next) (nodes : Nodes P) (fits : Fits ptr v) :
    PageRep (store m ptr (P.header + ptr) v) P v := by
  have := ptr_bounds
  have eq := header_eq P
  refine ⟨?_, load_store m fits, ?_, fun k bound => ?_, ?_, fun k bound => ?_⟩
  · rw [load_store_of_disjoint _ _ (by omega), rep.page]
  · rw [load_store_of_disjoint _ _ (by omega), rep.used]
  · have := buffer_low P.header k
    rw [load_store_of_disjoint _ _ (by omega), rep.bigger k bound]
  · have := buffer_low P.header 8
    rw [load_store_of_disjoint _ _ (by omega), rep.biggest]
  · have := buffer_low P.header k
    rw [load_store_of_disjoint _ _ (by omega)]
    refine (rep.lists k bound).frame fun b member x low high => store_outside _ _ _ _ ?_
    have := nodes k bound b member
    omega

/-- `page_header->used += n`. -/
theorem addUsed (rep : PageRep m P next) (nodes : Nodes P) {n : Int} (fits : Fits 4 (P.used + n)) :
    PageRep (store m 4 (P.header + 20 * ptr) (P.used + n)) (P.addUsed n) next := by
  have := ptr_bounds
  have eq := header_eq P
  have slot : ∀ k < 9, buffer P.header k + 2 * ptr ≤ P.header + 20 * ptr := fun k => buffer_high P.header
  constructor
  · exact (load_store_of_disjoint _ _ (by rw [Page.addUsed_header]; omega)).trans rep.page
  · exact (load_store_of_disjoint _ _ (by rw [Page.addUsed_header]; omega)).trans rep.next
  · exact load_store m fits
  · intro k bound
    have := slot k (by omega)
    exact (load_store_of_disjoint _ _ (by rw [Page.addUsed_header]; omega)).trans (rep.bigger k bound)
  · have := slot 8 (by decide)
    exact (load_store_of_disjoint _ _ (by rw [Page.addUsed_header]; omega)).trans rep.biggest
  · intro k bound
    have := slot k bound
    rw [Page.addUsed_header, Page.addUsed_free, load_store_of_disjoint _ _ (by omega)]
    refine (rep.lists k bound).frame fun b member x low high => store_outside _ _ _ _ ?_
    have := nodes k bound b member
    omega

/-- `buffer_size->first_block = v`, where `v` starts a list `l` in memory. -/
theorem setFirst (rep : PageRep m P next) (nodes : Nodes P) (bound : k < 9) (fits : Fits ptr v)
    (list : FreeList m k v l) (beyond : ∀ b ∈ l, b = P.base ∨ P.base + 32 * ptr ≤ b) :
    PageRep (store m ptr (buffer P.header k) v) (P.setList k l) next := by
  have := ptr_bounds
  have eq := header_eq P
  have := buffer_low P.header k
  have := buffer_high P.header bound
  have slot : ∀ j < 9, load (store m ptr (buffer P.header k) v) ptr (buffer P.header j + ptr) =
      load m ptr (buffer P.header j + ptr) := by
    intro j _
    by_cases same : j = k
    · subst same
      exact load_store_of_disjoint _ _ (.inr (le_refl _))
    · have := buffer_apart P.header same
      exact load_store_of_disjoint _ _ (by omega)
  constructor
  · exact (load_store_of_disjoint _ _ (by rw [Page.setList_header]; omega)).trans rep.page
  · exact (load_store_of_disjoint _ _ (by rw [Page.setList_header]; omega)).trans rep.next
  · exact (load_store_of_disjoint _ _ (by rw [Page.setList_header]; omega)).trans rep.used
  · exact fun j hj => (slot j (by omega)).trans (rep.bigger j hj)
  · exact (slot 8 (by decide)).trans rep.biggest
  · intro j hj
    rw [Page.setList_header]
    by_cases same : j = k
    · subst same
      rw [load_store m fits, Page.setList_self]
      refine list.frame fun b member x low high => store_outside _ _ _ _ ?_
      have := beyond b member
      omega
    · have := buffer_apart P.header same
      rw [load_store_of_disjoint _ _ (by omega), Page.setList_ne _ _ same]
      refine (rep.lists j hj).frame fun b member x low high => store_outside _ _ _ _ ?_
      have := nodes j hj b member
      omega

end PageRep

end Eecs343.Kma.Buddy
