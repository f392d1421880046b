import Eecs343.Kma.ResourceMap.Insertion

namespace Eecs343.Kma.ResourceMap

open Bytes Effect Linked Tiling Transition

variable [Target]

/-- The list at `FIRST_PAGE_BLOCK` has the blocks of `L`: in ascending order, each clear of the next
    one and inside a page. -/
structure FreeList (s : Machine) (L : List Block) : Prop where
  listed : Listed s.memory s.firstPage L
  spread : Spread s.firstPage L
  apart : L.Pairwise fun (t u : Block) => t.start + t.size ≤ u.start
  pages : ∀ t ∈ L, ∃ page, Legal page ∧ page ≤ t.start ∧ t.start + t.size ≤ page + 8192

/-- What `find_first_fit` does for `n` bytes with the blocks of `L` on the list: its two tests accept
    the blocks that leave room for a header, the lowest of these loses its front to the request, and
    without one the request goes to `new_page` in the same state. -/
structure FindsFirst (s : Machine) (L : List Block) (n : Int) : Prop where
  accepts : ∀ t ∈ L, (¬ (t.size - n) % 256 ^ ptr < sizeofBlockheader ∧ n < t.size) ↔ FitsIn n t
  found : (∃ t ∈ L, FitsIn n t) → ∃ l t r m', L = l ++ t :: r ∧ FitsIn n t ∧ (∀ u ∈ L, FitsIn n u → t.start ≤ u.start) ∧
    (findFirstFit n).run s = .ok (t.start, { s with headers := (t.start + n) :: s.headers, memory := m' }) ∧
    FreeList { s with headers := (t.start + n) :: s.headers, memory := m' } (l ++ ⟨t.start + n, t.size - n, .free⟩ :: r)
  none : (∀ t ∈ L, ¬ FitsIn n t) → (findFirstFit n).run s = (newPage n).run s

variable {s s' : Machine} {t u : Block} {l r L : List Block} {ps qs : List Page} {n : Int}

theorem FreeList.taken_spread (free : FreeList s (l ++ t :: r)) (low : 2 * ptr ≤ n) (fit : FitsIn n t) :
    Spread s.firstPage (l ++ rest n t :: r) := by
  have bounds := ptr_bounds
  have limit : (256 ^ 2 : Nat) = 65536 := rfl
  have start : (rest n t).start = t.start + n := rfl
  have size : (rest n t).size = t.size - n := rfl
  obtain ⟨page, legal, above, below⟩ := free.pages t (by simp)
  unfold FitsIn at fit
  apply Spread.mk free.spread.start
  · exact forall_replaced free.spread.behind fun behind => by omega
  · have both := pairwise_replaced (u := rest n t) (free.spread.order.and free.apart) (fun v before => by omega)
      fun v after => by omega
    exact both.imp And.left
  · exact forall_replaced free.spread.nonzero fun _ => legal.ne_zero (by omega) (by omega)
  · apply forall_replaced free.spread.fits
    intro ⟨_, least, most⟩
    exact ⟨legal.fits (by omega) (by omega), by omega, by omega⟩

theorem FreeList.taken (free : FreeList s (l ++ t :: r)) (low : 2 * ptr ≤ n) (fit : FitsIn n t) {m' : Memory}
    {headers : List Int}
    (listed : Listed m' s.firstPage (l ++ rest n t :: r)) :
    FreeList { s with headers := headers, memory := m' } (l ++ rest n t :: r) := by
  have bounds := ptr_bounds
  have start : (rest n t).start = t.start + n := rfl
  have size : (rest n t).size = t.size - n := rfl
  have spread := free.taken_spread low fit
  unfold FitsIn at fit
  refine ⟨listed, spread, ?_, ?_⟩
  · exact pairwise_replaced free.apart (fun v before => by omega) fun v after => by omega
  · apply forall_replaced free.pages
    intro ⟨page, legal, above, below⟩
    exact ⟨page, legal, by omega, by omega⟩

theorem FreeList.lowest (free : FreeList s (l ++ t :: r)) (before : ∀ u ∈ l, ¬ FitsIn n u) :
    ∀ u ∈ l ++ t :: r, FitsIn n u → t.start ≤ u.start := by
  have bounds := ptr_bounds
  have after := (List.pairwise_cons.mp (List.pairwise_append.mp free.spread.order).2.1).1
  intro u member fit
  have here : u ∈ l ∨ u = t ∨ u ∈ r := by simpa using member
  rcases here with left | rfl | right
  · exact absurd fit (before u left)
  · exact Int.le_refl _
  · have := after u right
    omega

/-- On any free list `find_first_fit` takes from the lowest block that leaves room for a header. -/
theorem FreeList.findsFirst (free : FreeList s L) (low : sizeofBlockheader ≤ n) (high : n ≤ realPageSize) :
    FindsFirst s L n := by
  have bounds := ptr_bounds
  have header : sizeofBlockheader = 2 * ptr := rfl
  have real : realPageSize = 8192 - 2 * ptr := rfl
  apply FindsFirst.mk
  · intro t member
    exact accepted_iff (free.spread.fits t member).2 (by omega) (by omega)
  · intro ⟨t, member, fit⟩
    have some : (L.find? (FitsIn n ·)).isSome := List.find?_isSome.mpr ⟨t, member, decide_eq_true fit⟩
    obtain ⟨t, found⟩ := Option.isSome_iff_exists.mp some
    obtain ⟨fits, l, r, rfl, earlier⟩ := List.find?_eq_some_iff_append.mp found
    have fit : FitsIn n t := of_decide_eq_true fits
    have before : ∀ u ∈ l, ¬ FitsIn n u := fun u inside => by simpa using earlier u inside
    have taken : wp (findFirstFit n)
        (fun p s' => ∃ m', p = t.start ∧ s' = { s with headers := (t.start + n) :: s.headers, memory := m' } ∧
          FreeList s' (l ++ rest n t :: r)) (fun _ => False) s := by
      have left := free.taken_spread (by omega) fit
      apply findFirstFit_takes (by omega) (by omega) before fit free.listed free.spread left
      intro m' listed _
      exact ⟨m', rfl, rfl, free.taken (by omega) fit listed⟩
    obtain ⟨_, _, ran, m', rfl, rfl, after⟩ := wp_returns taken
    exact ⟨l, t, r, m', rfl, fit, free.lowest before, ran, after⟩
  · intro none
    apply run_eq_of_wp
    intro post exc new
    exact findFirstFit_asks (by omega) (by omega) none free.listed free.spread new

theorem Heap.free (heap : Heap s ps) (some : ps ≠ []) : FreeList s (freeList ps) := by
  have bounds := ptr_bounds
  refine ⟨heap.listed some, heap.spread some, ?_, fun t member => ?_⟩
  · refine List.pairwise_flatMap.mpr ⟨fun P member => (heap.ranked.sound P member).tiled.ordered.filter _, ?_⟩
    refine heap.ranked.apart.imp_of_mem fun {P Q} memberP memberQ apart t freeP u freeQ => ?_
    have := (heap.ranked.sound P memberP).inside (mem_free.mp freeP).1
    have := (heap.ranked.sound Q memberQ).inside (mem_free.mp freeQ).1
    omega
  · obtain ⟨P, memberP, free⟩ := mem_freeList.mp member
    have := (heap.ranked.sound P memberP).inside (mem_free.mp free).1
    exact ⟨P.base, heap.legal memberP, by omega, by omega⟩

/-- The pages that `w` shows: a request meets all their free blocks on a free list, those of a first page just made
    included, and `find_first_fit` does with this list what it is to do. -/
def ServesFirst (w : World) : Prop := ∃ ps, Shows w ps ∧
  ∀ supply s qs, Offered { w.machine with supply := supply } → Opens { w.machine with supply := supply } ps s qs →
    FreeList s (freeList qs) ∧ ∀ n, sizeofBlockheader ≤ n → n ≤ realPageSize → FindsFirst s (freeList qs) n ∧
      (kmaMalloc n).run { w.machine with supply := supply } = (findFirstFit n).run s

theorem Inv.servesFirst {w : World} (inv : Inv w ps) : ServesFirst w := by
  refine ⟨ps, inv.shows, fun supply s qs offered opens => ?_⟩
  have heap := inv.heap.offer supply
  -- the search is on the pages in use, or on the new first one
  obtain ⟨some, heap'⟩ := opens.heap heap offered
  have free := heap'.free some
  refine ⟨free, fun n low high => ⟨free.findsFirst low high, run_eq_of_wp fun post exc found => opens.malloc heap offered ?_⟩⟩
  have bounds := ptr_bounds
  have header : sizeofBlockheader = 2 * ptr := rfl
  have real : realPageSize = 8192 - 2 * ptr := rfl
  rw [size_t_eq (by omega) (by omega), if_neg (by omega), short_eq (by omega) high]
  exact found

/-- On every free list `find_first_fit` takes from the lowest block that leaves room for a header; and
    in every state of a run whose headers stay inside, a request finds such a list. -/
theorem first_fit :
    (∀ s L n, FreeList s L → sizeofBlockheader ≤ n → n ≤ realPageSize → FindsFirst s L n) ∧
    ∀ start steps last, Calls resourceMapAllocator start steps last → (∀ taken ∈ steps, Allowed taken.2) →
      (∀ taken ∈ steps, KeepsHeaders taken.2) → ∀ w ∈ visited steps last, ServesFirst w := by
  refine ⟨fun s L n free => free.findsFirst, fun start steps last run allowed keeps w member => ?_⟩
  obtain ⟨ps, inv⟩ := calls_inv run (fun taken inside => .of_allowed (allowed taken inside) (keeps taken inside)) w member
  exact inv.servesFirst

omit [Target] in
/-- The first request of 16 bytes takes the front of the one block of the first page. -/
theorem first_fit_of_16 : ∃ target : Target, target.ptr = 8 ∧ ∃ t,
    (kmaMalloc 16).run { idle.machine with supply := twoPages 8192 } = .ok (8200, t) ∧ FreeList t [⟨8216, 8160, .free⟩] := by
  let target : Target := ⟨8, .inr rfl⟩
  have run : Calls resourceMapAllocator idle [] idle := ⟨idle_initial, .refl⟩
  have offered : Offered { idle.machine with supply := twoPages 8192 } :=
    twoPages_offered rfl (by decide) (by decide) (by simp [idle])
  obtain ⟨_, reached⟩ := first_fit
  obtain ⟨ps, shows, opened⟩ := reached _ _ _ run (by simp) (by simp) _ List.mem_cons_self
  obtain rfl := shows.none rfl
  obtain ⟨free, served⟩ := opened (twoPages 8192) _ [blank 8192] offered (.first rfl rfl)
  obtain ⟨finds, same⟩ := served 16 (by decide) (by decide)
  obtain ⟨l, t, r, m', split, _, _, ran, left⟩ := finds.found ⟨whole 8192, List.mem_cons_self, by decide⟩
  obtain ⟨rfl, rfl, rfl⟩ : l = [] ∧ t = whole 8192 ∧ r = [] := by
    have single : [whole 8192] = l ++ t :: r := split
    cases l with
    | nil => simpa using single.symm
    | cons u l => simp at single
  exact ⟨target, rfl, _, same.trans ran, left⟩

/-- A node of a free list is a block of a page, so it is no longer than one. -/
theorem FreeList.short (free : FreeList s L) (member : t ∈ L) : load s.memory 2 t.start ≤ 8192 := by
  obtain ⟨page, _, above, below⟩ := free.pages t member
  rw [free.listed.size t member]
  omega

omit [Target] in
theorem path_head {f : Int → Int} {p : Int} (path : Path f p (L.map Tile.start) 0) (some : p ≠ 0) :
    ∃ t r, L = t :: r ∧ t.start = p ∧ Path f (f p) (r.map Tile.start) 0 := by
  cases L with
  | nil => exact absurd path some
  | cons t r => exact ⟨t, r, rfl, path.1.symm, path.1 ▸ path.2⟩

/-- The third node, where the words of the memory lead to one. -/
theorem FreeList.third_short {a b c : Int} (free : FreeList s L) (first : load s.memory ptr s.firstPage = a)
    (second : load s.memory ptr (a + ptr) = b) (third : load s.memory ptr (b + ptr) = c) (some : a ≠ 0 ∧ b ≠ 0 ∧ c ≠ 0) :
    load s.memory 2 c ≤ 8192 := by
  have path := free.listed.path
  rw [first] at path
  obtain ⟨t, r, rfl, _, path⟩ := path_head path some.1
  rw [second] at path
  obtain ⟨u, r, rfl, _, path⟩ := path_head path some.2.1
  rw [third] at path
  obtain ⟨v, r, rfl, rfl, _⟩ := path_head path some.2.2
  exact free.short (by simp)

def onceCrossed : Machine := after (@kmaMalloc lp64 8176) { idle.machine with supply := twoPages 8192 }

/-- The second page begins where the header behind the first block has its `next_block`. -/
def twiceCrossed : Machine := after (@kmaMalloc lp64 8176) { onceCrossed with supply := twoPages 24576 }

omit [Target] in
theorem onceCrossed_run : (@kmaMalloc lp64 8176).run { idle.machine with supply := twoPages 8192 } = .ok (16392, onceCrossed) :=
  returns (by decide +kernel)

omit [Target] in
theorem twiceCrossed_run :
    (@kmaMalloc lp64 8176).run { onceCrossed with supply := twoPages 24576 } = .ok (24584, twiceCrossed) :=
  returns (by decide +kernel)

omit [Target] in
/-- The list goes on into the page. -/
theorem twiceCrossed_words : load twiceCrossed.memory 8 8192 = 8200 ∧ load twiceCrossed.memory 8 8208 = 24568 ∧
    load twiceCrossed.memory 8 24576 = 24576 ∧ load twiceCrossed.memory 2 24576 = 24576 := by decide +kernel

omit [Target] in
/-- After two requests of 8176 bytes the header behind the first block leads to the first word of the second page. -/
theorem first_fit_lost : ∃ target : Target, target.ptr = 8 ∧ ∃ w₁ w₂,
    Calls resourceMapAllocator idle [(w₁, .malloc 8176 (twoPages 24576)), (idle, .malloc 8176 (twoPages 8192))] w₂ ∧
      w₂.live = [(24584, 8176), (16392, 8176)] ∧ ¬ ServesFirst w₂ := by
  let target : Target := lp64
  have used : onceCrossed.pages = [16384, 8192] := by decide +kernel
  have first : twiceCrossed.firstPage = 8192 := by decide +kernel
  have ran₁ := onceCrossed_run
  have ran₂ := twiceCrossed_run
  obtain ⟨word₁, word₂, word₃, size⟩ := twiceCrossed_words
  -- The runs are known; the machines need not be computed again.
  generalize onceCrossed = t₁ at *
  generalize twiceCrossed = t₂ at *
  have offered₁ : Offered { idle.machine with supply := twoPages 8192 } :=
    twoPages_offered rfl (by decide) (by decide) (by simp [idle])
  have offered₂ : Offered { t₁ with supply := twoPages 24576 } :=
    twoPages_offered rfl (by decide) (by decide) (by simp [used])
  have run₁ := idle_calls.request (A := resourceMapAllocator) (by decide) (by decide) offered₁ ran₁ (by decide)
  have run₂ := run₁.request (by decide) (by decide) offered₂ ran₂ (by decide)
  refine ⟨target, rfl, _, _, run₂, rfl, ?_⟩
  rintro ⟨ps, shows, served⟩
  have some : ps ≠ [] := by
    rintro rfl
    exact absurd (first.symm.trans shows.first) (by decide)
  obtain ⟨free, _⟩ := served [] _ ps ⟨by simp, by simp, by simp⟩ (.kept some)
  have short := free.third_short ((congrArg _ first).trans word₁) word₂ word₃ (by decide)
  exact absurd (size.symm.trans_le short) (by decide)

end Eecs343.Kma.ResourceMap
