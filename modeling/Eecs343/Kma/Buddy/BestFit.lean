import Eecs343.Kma.Buddy.Progress

namespace Eecs343.Kma.Buddy

open Bytes Effect Linked Transition

variable {L b : Int} {ps qs : List Page} {k : Nat}

/-- Some page has a free block with a length from `L` to half a page. -/
def HasFit (L : Int) (ps : List Page) : Prop := ∃ P ∈ ps, ∃ j < 9, L ≤ blockSize j ∧ blockSize j ≤ 4096 ∧ P.free j ≠ []

/-- The block at `b` was the first on the list of the smallest length from `L` on that any page has,
    on the first page that has one; it has been taken, and its page keeps one right half of each
    length from `L` to half of its own. -/
inductive BestFit (L : Int) (ps : List Page) (b : Int) : List Page → Prop where
  | mk {l r : List Page} {P P' : Page} {j : Nat} {rest : List Int} (split : ps = l ++ P :: r) (long : L ≤ blockSize j)
      (short : blockSize j ≤ 4096) (list : P.free j = b :: rest)
      (smallest : ∀ Q ∈ ps, ∀ i < j, L ≤ blockSize i → Q.free i = []) (first : ∀ Q ∈ l, Q.free j = [])
      (base : P'.base = P.base) (used : P'.used = P.used + 1)
      (lists : ∀ i, P'.free i = if i = j then rest else if L ≤ blockSize i ∧ i < j then [b + blockSize i] else P.free i) :
      BestFit L ps b (l ++ P' :: r)

theorem Found.bestFit (found : Found ps k b qs) (small : ∀ P ∈ ps, ∀ j < 9, P.free j ≠ [] → j < 8) :
    BestFit (blockSize k) ps b qs := by
  cases found with
  | @mk l P r i rest split bound list lower before =>
    have last : k + i < 8 := small P (by rw [split]; simp) (k + i) bound (by simp [list])
    apply BestFit.mk split (blockSize_mono (Nat.le_add_right k i)) ?_ list ?_ before
    · exact halves_base _
    · rw [Page.addUsed_used, halves_used, Page.setList_used]
    · intro j
      rw [Page.addUsed_free, halves_free]
      simp only [blockSize_le_iff]
      by_cases same : j = k + i
      · subst same
        rw [if_neg (by omega), if_pos rfl, Page.setList_self]
      · rw [if_neg same, Page.setList_ne _ _ same]
    · exact blockSize_mono (show k + i ≤ 7 by omega)
    · intro Q member j less longer
      have above := blockSize_le_iff.mp longer
      have empty := lower Q member (j - k) (by omega)
      rwa [Nat.add_sub_cancel' above] at empty

variable [Target]

variable {size : Int} {s : Machine} {m n : Nat}

theorem getFreeBufferDepth_below (le : m ≤ n) : Below (getFreeBufferDepth m size) (getFreeBufferDepth n size) := by
  induction m generalizing n with
  | zero => exact below_throw _ _
  | succ m ih =>
    obtain ⟨n, rfl⟩ := Nat.exists_eq_add_one_of_ne_zero (show n ≠ 0 by omega)
    unfold getFreeBufferDepth
    apply Below.bind (.refl _)
    intro s
    apply Below.bind (.refl _)
    intro block
    apply Below.ite (.refl _)
    apply Below.bind (.refl _)
    intro header
    apply Below.ite (.refl _)
    exact ih (by omega)

theorem kmaMalloc_run (started : s.firstPage ≠ 0) (accepted : ¬ (realSize size + sizeofPageheader) % 256 ^ ptr > 8192) :
    (kmaMalloc size).run s = (getFreeBuffer size).run s := by
  unfold kmaMalloc
  rw [← fuel_pred 1 (by decide), kmaMallocDepth, if_neg accepted]
  simp [started]

variable {w start : World} {steps : List (World × Call)} {supply rest : List (Int × Int)} {page link : Int}

theorem Grown.place {Q : Page} (grown : Grown page (sizeClass (size + 3 * ptr)) b Q) (fits : size + 24 * ptr ≤ 8192) :
    Q.used = 1 ∧ page + 24 * ptr ≤ b ∧ b + size ≤ page + 8192 := by
  have := ptr_bounds
  cases grown with
  | carved carved =>
    have ready := blank_ready page (sizeClass (size + 3 * ptr))
    obtain ⟨j, bound, _, source⟩ := carved.source
    have beyond := (ready (blank page) List.mem_cons_self).2 j bound b source
    have spare := carved.spare (blank_ok page) beyond
    have reserved : _ ∉ openRoom page := openRoom_reserved page
    rw [← blank_base page, ← carved.base] at reserved
    have above := spare.holds.beyond (by rwa [carved.base, blank_base] at reserved ⊢)
    have below := spare.holds.high
    rw [carved.base, blank_base] at above below
    have enough := (sizeClass_cases (show size + 3 * ptr ≤ 8192 by omega)).1
    refine ⟨?_, by omega, by omega⟩
    rw [Page.addUsed_used, carved.used, blank_used]
    rfl
  | whole last start =>
    refine ⟨?_, by omega, by omega⟩
    change (blank page).used + 1 = 1
    rw [blank_used]
    rfl

theorem Inv.small (inv : Inv w ps) : ∀ P ∈ ps, ∀ j < 9, P.free j ≠ [] → j < 8 := by
  intro P member j bound some
  obtain ⟨b, inside⟩ := List.exists_mem_of_ne_nil _ some
  exact ((inv.heap.chained.sound P member).ok.holds j bound b inside).class_lt (room_reserved _ _) bound

theorem Inv.hasFit_iff (inv : Inv w ps) (k : Nat) : HasFit (blockSize k) ps ↔ ¬ NoneFrom k ps := by
  constructor
  · rintro ⟨P, member, j, inside, long, _, some⟩ none
    have above := blockSize_le_iff.mp long
    have empty := none P member (j - k) (by omega)
    rw [Nat.add_sub_cancel' above] at empty
    exact some empty
  · intro some
    unfold NoneFrom at some
    push Not at some
    obtain ⟨P, member, x, inside, some⟩ := some
    have last := inv.small P member (k + x) inside some
    exact ⟨P, member, k + x, inside, blockSize_mono (Nat.le_add_right k x), blockSize_mono (show k + x ≤ 7 by omega), some⟩

section

variable (inv : Inv w ps) (started : ps ≠ []) (low : 1 ≤ size) (fits : size + 24 * ptr ≤ 8192)

include inv started low fits

/-- A request that a page has a block for, in the first pass of `get_free_buffer`. -/
theorem Inv.takes (supply : List (Int × Int)) (fit : HasFit (blockSize (sizeClass (size + 3 * ptr))) ps) :
    ∃ b m' qs,
      (getFreeBufferDepth 1 size).run { w.machine with supply := supply } =
        .ok (b, { w.machine with supply := supply, memory := m' }) ∧
      Shows { w.machine with supply := supply, memory := m' } qs ∧ BestFit (blockSize (sizeClass (size + 3 * ptr))) ps b qs := by
  have := ptr_bounds
  have some := (inv.hasFit_iff _).mp fit
  have small := inv.small
  have ready := inv.ready (sizeClass (size + 3 * ptr))
  obtain ⟨first, ps, rfl⟩ := List.exists_cons_of_ne_nil started
  have heap := inv.heap.offer supply
  have taken : wp (getFreeBufferDepth 1 size) (fun b t => ∃ m' qs, t = { w.machine with supply := supply, memory := m' } ∧
      Found (first :: ps) (sizeClass (size + 3 * ptr)) b qs ∧ Heap t (room w.live) qs) (fun _ => False)
      { w.machine with supply := supply } := by
    apply getFreeBuffer_step low (by omega) rfl heap ready
    · intro b m' qs found heap'
      exact ⟨m', qs, rfl, found, heap'⟩
    · intro none
      exact absurd none some
  obtain ⟨b, _, ran, m', qs, rfl, found, heap'⟩ := wp_returns taken
  exact ⟨b, m', qs, ran, heap'.shows, found.bestFit small⟩

/-- A request that no page has a block for, in two passes of `get_free_buffer` with a new page between
    them. -/
theorem Inv.grows (offered : Offered { w.machine with supply := supply }) (left : supply = (page, link) :: rest)
    (none : ¬ HasFit (blockSize (sizeClass (size + 3 * ptr))) ps) :
    ∃ b m' Q, (getFreeBufferDepth 2 size).run { w.machine with supply := supply } =
        .ok (b, { Machine.grant { w.machine with supply := supply } page link rest with memory := m' }) ∧
      Shows { Machine.grant { w.machine with supply := supply } page link rest with memory := m' } (ps ++ [Q]) ∧
      Grown page (sizeClass (size + 3 * ptr)) b Q := by
  have empty := not_not.mp (mt (inv.hasFit_iff _).mpr none)
  have ready := inv.ready (sizeClass (size + 3 * ptr))
  have roomy : ∀ offer ∈ supply, room w.live offer.1 = openRoom offer.1 := fun offer member =>
    inv.books.roomy (fun P member => inv.heap.chained.legal member) (offered.legal offer member)
      fun used => offered.unused offer member (inv.heap.pages.symm.subset used)
  obtain ⟨first, ps, rfl⟩ := List.exists_cons_of_ne_nil started
  have heap := inv.heap.offer supply
  have served : wp (getFreeBufferDepth 2 size) (fun b t => ∃ m' Q,
      t = { Machine.grant { w.machine with supply := supply } page link rest with memory := m' } ∧
      Grown page (sizeClass (size + 3 * ptr)) b Q ∧ Heap t (room w.live) (first :: ps ++ [Q])) (fun _ => False)
      { w.machine with supply := supply } := by
    apply getFreeBuffer_grown (le_refl 2) low fits rfl heap ready offered roomy
    · intro gone
      exact absurd (left.symm.trans gone) (List.cons_ne_nil _ _)
    · intro b m' qs found heap'
      exact absurd empty found.some
    · intro _ page' link' rest' b m' Q left' grown heap'
      cases left.symm.trans left'
      exact ⟨m', Q, rfl, grown, heap'⟩
  obtain ⟨b, _, ran, m', Q, rfl, grown, heap'⟩ := wp_returns served
  exact ⟨b, m', Q, ran, heap'.shows, grown⟩

end

/-- `kma_malloc` requests no page and returns the best fit of the pages. -/
def TakesBest (s : Machine) (size : Int) (ps : List Page) : Prop :=
  ∃ b m' qs, (kmaMalloc size).run s = .ok (b, { s with memory := m' }) ∧ Shows { s with memory := m' } qs ∧
    BestFit (roundUp (realSize size)) ps b qs

/-- `kma_malloc` requests the page at `page` and no other, appends it to the list and returns a block on
    it, with one nested call of `get_free_buffer` at most. -/
def AddsPage (s : Machine) (size : Int) (ps : List Page) (page link : Int) (rest : List (Int × Int)) : Prop :=
  ∃ b m' Q, (kmaMalloc size).run s = .ok (b, { s.grant page link rest with memory := m' }) ∧
    (getFreeBufferDepth 2 size).run s = .ok (b, { s.grant page link rest with memory := m' }) ∧
    Shows { s.grant page link rest with memory := m' } (ps ++ [Q]) ∧ Q.base = page ∧ Q.used = 1 ∧
    page + 24 * ptr ≤ b ∧ b + size ≤ page + 8192

/-- A request in any state with pages: the best fit where there is one, else one new page. -/
theorem best_fit (run : Calls buddyAllocator start steps w) (shows : Shows w.machine ps)
    (started : w.machine.firstPage ≠ 0)
    (low : 1 ≤ size) (high : size < 2 ^ 31) (accepted : ¬ (realSize size + sizeofPageheader) % 256 ^ ptr > 8192)
    (offered : Offered { w.machine with supply := supply }) :
    (HasFit (roundUp (realSize size)) ps → TakesBest { w.machine with supply := supply } size ps) ∧
      (¬ HasFit (roundUp (realSize size)) ps → ∀ page link rest, supply = (page, link) :: rest →
        AddsPage { w.machine with supply := supply } size ps page link rest) := by
  obtain ⟨qs, inv⟩ := calls_inv run w (last_mem_visited _ _)
  obtain rfl := inv.heap.shows.unique shows
  have some : qs ≠ [] := by
    rintro rfl
    exact started inv.heap.first
  have fits : size + 24 * ptr ≤ 8192 := Int.not_lt.mp (mt (accepts_iff low high).mpr accepted)
  have bounds := ptr_bounds
  have length : roundUp (realSize size) = blockSize (sizeClass (size + 3 * ptr)) := roundUp_realSize low (by omega)
  have called := kmaMalloc_run (s := { w.machine with supply := supply }) started accepted
  unfold TakesBest AddsPage
  rw [length, called]
  constructor
  · intro fit
    obtain ⟨b, m', rs, ran, shows', best⟩ := inv.takes some low fits supply fit
    exact ⟨b, m', rs, getFreeBufferDepth_below (by decide) _ _ _ ran, shows', best⟩
  · intro none page link rest left
    obtain ⟨b, m', Q, ran, shows', grown⟩ := inv.grows some low fits offered left none
    have deep := getFreeBufferDepth_below (n := fuel) (by decide) _ _ _ ran
    exact ⟨b, m', Q, deep, ran, shows', grown.base, grown.place fits⟩

omit [Target] in
theorem best_fit_second_request : ∃ target : Target, target.ptr = 8 ∧ ∃ steps w ps,
    Calls buddyAllocator idle steps w ∧ TakesBest { w.machine with supply := twoPages 16384 } 40 ps ∧
      AddsPage { w.machine with supply := twoPages 16384 } 5000 ps 16384 24576 [(24576, 32768)] := by
  let target : Target := ⟨8, .inr rfl⟩
  obtain ⟨b, t, _, step, allocated, inv⟩ := (Inv.initial idle_initial).malloc_next (show (1 : Int) ≤ 40 by decide)
    (by decide) (show (8192 : Int) % 8192 = 0 from rfl) (by decide) (by decide) (by simp)
  obtain ⟨rfl, rfl⟩ := allocated.single (i := 2) (show _ = [8448] from rfl) (by decide) (by decide)
  have run : Calls buddyAllocator idle _ _ := ⟨idle_initial, .snoc .refl step⟩
  have started : t.firstPage ≠ 0 := by
    rw [inv.heap.first]
    decide
  have above : ∀ used ∈ t.pages, used < 16384 := by
    intro used member
    rw [List.mem_singleton.mp (inv.heap.pages.subset member)]
    decide
  have offered : Offered { t with supply := twoPages 16384 } := twoPages_offered (by decide) (by decide) (by decide) above
  have small : (1 : Int) ≤ 40 := by decide
  have large : (1 : Int) ≤ 5000 := by decide
  obtain ⟨takes, -⟩ := best_fit run inv.heap.shows started small (by decide) (by decide) offered
  obtain ⟨-, adds⟩ := best_fit run inv.heap.shows started large (by decide) (by decide) offered
  refine ⟨target, rfl, _, _, _, run, takes ?_, adds ?_ _ _ _ rfl⟩
  · exact ⟨_, List.mem_cons_self, 1, by decide, by decide, by decide, by decide⟩
  · rintro ⟨P, member, j, bound, long, short, _⟩
    have whole : roundUp (realSize 5000) = 8192 := by decide
    omega

end Eecs343.Kma.Buddy
