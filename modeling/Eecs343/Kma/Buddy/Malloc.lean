import Eecs343.Kma.Buddy.Blank

namespace Eecs343.Kma.Buddy

open Bytes Effect Linked

variable [Target]

variable {s t : Machine} {m m' : Memory} {P Q first : Page} {room : Int → Set Int} {next page b : Int} {j k : Nat}
  {ps qs l r : List Page} {exc : Stop → Prop}

theorem Heap.firstHeader (heap : Heap s room (first :: ps)) : pageHeader s.firstPage = first.header := by
  rw [heap.first]
  rfl

theorem Heap.grant (heap : Heap s room ps) (link : Int) (rest : List (Int × Int)) (some : ps ≠ [])
    (chained : Chained m room (ps ++ [Q])) : Heap { s.grant Q.base link rest with memory := m } room (ps ++ [Q]) := by
  refine ⟨chained, ?_, ?_, ?_, ?_⟩
  · obtain ⟨P, ps, rfl⟩ := List.exists_cons_of_ne_nil some
    exact heap.first
  · change (Q.base :: s.pages).Perm _
    rw [List.map_append]
    exact ((List.perm_cons _).mpr heap.pages).trans (List.perm_append_singleton _ _).symm
  · change s.numInUse + 1 = _
    rw [heap.inUse]
    simp
  · change s.numRequested + 1 = s.numFreed + (s.numInUse + 1)
    rw [heap.balance]
    ring

theorem carveHeader_spec (chained : Chained m room (l ++ [fresh page])) :
    wpm (do
      let (i, list) ← firstList fuel 0 (getRequiredBuffer sizeofPageheader (fresh page).header)
      let list ← splitTimes i list (fresh page).header
      let block ← readPtr list 0
      writePtr list 0 (← readPtr block (2 * ptr))
      return (fresh page).header)
      (fun r m' => r = (fresh page).header ∧ Chained m' room (l ++ [blank page])) s m := by
  have sound := chained.sound (fresh page) (by simp)
  have bound : headerClass + (8 - headerClass) < 9 := by rw [headerClass_top]; decide
  have lower := fresh_lower page
  rw [getRequiredBuffer_eq sound.legal (k := headerClass) rfl]
  apply wpm_bind
  refine wpm_mono (firstList_spec (n := fuel) (i := 0) sound (Nat.lt_of_le_of_lt (Nat.sub_le 8 _) (by decide)) bound lower
    (by rw [fresh_whole]; exact List.cons_ne_nil _ _)) ?_
  rintro _ m₁ ⟨rfl, rfl⟩
  dsimp only
  rw [Nat.zero_add]
  refine carve_spec sound bound (fresh_whole page) lower (fresh_beyond page) fun m₂ P' carved carvedSound frame => ?_
  rw [wpm_pure]
  obtain ⟨_, rfl⟩ := carved_blank carved
  exact ⟨rfl, chained.replace (r := []) carved.base carvedSound frame⟩

/-- The new page of `get_free_buffer`: linked behind the last page, its header block carved. -/
theorem appendPage_spec {post : Int → Machine → Prop} (heap : Heap s room (first :: ps)) (offered : Offered s)
    (roomy : ∀ offer ∈ s.supply, room offer.1 = openRoom offer.1)
    (exhausted : s.supply = [] → exc .allPagesAllocated)
    (done : ∀ page link rest m', s.supply = (page, link) :: rest →
      Heap { s.grant page link rest with memory := m' } room (first :: ps ++ [blank page]) →
      post (blank page).header { s.grant page link rest with memory := m' }) :
    wp appendPage post exc s := by
  have := ptr_bounds
  unfold appendPage
  rw [wp_bind, wp_get, heap.firstHeader]
  refine (lastPage_spec (l := []) heap.chained (Nat.lt_of_succ_lt heap.chained.threaded.short)).wp_bind ?_
  rintro last _ ⟨rfl, rfl⟩
  rw [wp_bind]
  refine initPage_spec offered exhausted fun page link rest m₁ left sound outside => ?_
  have offer : (page, link) ∈ s.supply := by rw [left]; exact List.mem_cons_self
  have roomQ := roomy _ offer
  have new : page ∉ (first :: ps).map Page.base := fun member =>
    offered.unused _ offer (heap.pages.symm.subset member)
  obtain ⟨l, P, split⟩ : ∃ l P, first :: ps = l ++ [P] :=
    ⟨_, _, (List.dropLast_append_getLast (List.cons_ne_nil first ps)).symm⟩
  have memberP : P ∈ first :: ps := by rw [split]; simp
  have legal := sound.legal
  have other : ∀ R ∈ first :: ps, R.base ≠ page := fun R member same =>
    new (same ▸ List.mem_map_of_mem member)
  have chained : Chained m₁ (Function.update room page (wholeRoom page)) (first :: ps) := by
    have kept := heap.chained.elsewhere fun R member x low high => outside x (by
      have apart := (heap.chained.legal member).apart legal (other R member)
      change R.base + 8192 ≤ page ∨ page + 8192 ≤ R.base at apart
      omega)
    refine kept.rooms (fun R member => ?_) fun R member => ?_
    · rw [Function.update_of_ne (other R member)]
      exact (kept.sound R member).ok
    · rw [Function.update_of_ne (other R member)]
      exact kept.inside R member
  rw [split] at chained new
  have linked := chained.append (Q := fresh page)
    (by rw [show (fresh page).base = page from rfl, Function.update_self]; exact sound)
    (fun x member => by
      rw [show (fresh page).base = page from rfl, Function.update_self] at member
      exact member) new
  have last : ((first :: ps).map Page.header).getLastD 0 = P.header := by
    rw [split, List.map_append, List.map_singleton, List.getLastD_concat]
  have lastNe := header_ne (heap.chained.legal memberP)
  rw [last]
  refine wp_mono (wpm.wp (s := { s.grant page link rest with memory := m₁ }) (?_ : wpm _ (fun r m' =>
    r = (fresh page).header ∧ Chained m' (Function.update room page (wholeRoom page)) (l ++ [P] ++ [blank page])) _ _)) ?_
  · rw [wpm_write_bind]
    exact ⟨lastNe, carveHeader_spec linked⟩
  · rintro _ _ ⟨m₂, rfl, rfl, carved⟩
    rw [← split] at carved
    have ok : ∀ R ∈ first :: ps ++ [blank page], R.Ok (room R.base) ∧ ∀ x ∈ room R.base, R.base ≤ x ∧ x < R.base + 8192 := by
      intro R member
      rcases List.mem_append.mp member with old | new'
      · exact ⟨(heap.chained.sound R old).ok, heap.chained.inside R old⟩
      · cases List.mem_singleton.mp new'
        rw [blank_base, roomQ]
        exact ⟨blank_ok page, openRoom_inside page⟩
    have grown := heap.grant (Q := blank page) link rest (List.cons_ne_nil _ _)
      (carved.rooms (fun R member => (ok R member).1) fun R member => (ok R member).2)
    rw [blank_base] at grown
    have header : (fresh page).header = (blank page).header := (blank_header page).symm
    rw [header]
    exact done page link rest m₂ left grown

/-- One page of the list has a block of class `k` carved and counted. -/
inductive Served (ps : List Page) (k : Nat) (b : Int) : List Page → Prop where
  | mk {l P r P'} (split : ps = l ++ P :: r) (carved : Carved P k b P') : Served ps k b (l ++ P'.addUsed 1 :: r)

omit [Target] in
theorem Served.bases (served : Served ps k b qs) : qs.map Page.base = ps.map Page.base := by
  cases served with
  | mk split carved =>
    rw [split]
    simp [carved.base]

omit [Target] in
theorem Served.singleton (served : Served [P] k b qs) : ∃ P', Carved P k b P' ∧ qs = [P'.addUsed 1] := by
  cases served with
  | @mk l _ _ P' split carved =>
    cases l with
    | nil =>
      cases split
      exact ⟨P', carved, rfl⟩
    | cons _ l => exact absurd (congrArg List.length split) (by simp)

omit [Target] in
theorem Found.served (found : Found ps k b qs) : Served ps k b qs := by
  cases found with
  | mk split bound list lower before =>
    refine .mk split (.mk bound list fun x less => lower _ ?_ x less)
    rw [split]
    simp

/-- No page has a free block of class `k` or more. -/
def NoneFrom (k : Nat) (ps : List Page) : Prop := ∀ P ∈ ps, ∀ x, k + x < 9 → P.free (k + x) = []

omit [Target] in
theorem Found.some (found : Found ps k b qs) : ¬ NoneFrom k ps := by
  cases found with
  | @mk l P r i rest split bound list _ _ =>
    intro none
    have empty := none P (by rw [split]; simp) i bound
    rw [list] at empty
    cases empty

theorem search_spec (heap : Heap s room (first :: ps)) (ready : Ready k (first :: ps)) (bound : k < 9) :
    wpm (searchBuffers fuel 0 (blockSize k) first.header (getRequiredBuffer (blockSize k) first.header))
      (fun b m' => (∃ qs, Found (first :: ps) k b qs ∧ b ≠ 0 ∧ Heap { s with memory := m' } room qs) ∨
        (b = 0 ∧ m' = s.memory ∧ NoneFrom k (first :: ps))) s s.memory := by
  refine wpm_mono (searchBuffers_spec (k := k) (i := 0) heap.chained ready heap.first
    (Nat.le_add_right_of_le (by decide)) (by omega)
    (fun _ _ x less => absurd less (Nat.not_lt_zero x)) (Nat.lt_of_succ_lt heap.chained.threaded.short)) ?_
  rintro b m' (⟨qs, found, chained⟩ | ⟨rfl, rfl, none⟩)
  · refine .inl ⟨qs, found, ?_, heap.update chained found.served.bases⟩
    cases found with
    | @mk l P r i rest split bound list _ _ =>
      have sound := heap.chained.sound P (by rw [split]; simp)
      exact (Sound.block sound.legal (sound.ok.holds _ bound b (by simp [list]))).1
  · exact .inr ⟨rfl, rfl, none⟩

/-- What a successful request does to the pages: a page has a block, a new page is made for it, or
    a new page is given to it whole. -/
inductive Allocated (ps : List Page) (k : Nat) (b : Int) : List Page → Prop where
  | kept {qs : List Page} (served : Served ps k b qs) : Allocated ps k b qs
  | grown {page : Int} {qs : List Page} (none : NoneFrom k ps) (served : Served (ps ++ [blank page]) k b qs) : Allocated ps k b qs
  | whole {page : Int} (none : NoneFrom k ps) (last : k = 8) (start : b = page + 24 * ptr) :
    Allocated ps k b (ps ++ [(blank page).clear.addUsed 1])

theorem realSize_eq {size : Int} (low : 0 ≤ size) (high : size < 2 ^ 31) : realSize size = size + 3 * ptr := by
  unfold realSize sizeofAllocheader
  rcases Target.ptr_cases with h | h <;> rw [h] <;> norm_num <;> omega

theorem roundUp_realSize {size : Int} (low : 1 ≤ size) (high : size + 3 * ptr ≤ 8192) :
    roundUp (realSize size) = blockSize (sizeClass (size + 3 * ptr)) := by
  have := ptr_bounds
  rw [realSize_eq (by omega) (by omega), roundUp_sizeClass (by omega) high]

omit [Target] in
theorem blockSize_whole (bound : k < 9) : blockSize k = 8192 ↔ k = 8 := by
  rcases blockSize_cases bound with ⟨rfl, h⟩ | ⟨rfl, h⟩ | ⟨rfl, h⟩ | ⟨rfl, h⟩ | ⟨rfl, h⟩ | ⟨rfl, h⟩ |
    ⟨rfl, h⟩ | ⟨rfl, h⟩ | ⟨rfl, h⟩ <;> rw [h] <;> decide

theorem blank_ready (page : Int) (k : Nat) : Ready k [blank page] := by
  intro P member
  cases List.mem_singleton.mp member
  refine ⟨by rw [blank_used]; constructor <;> norm_num, fun j bound b memberB => ?_⟩
  have low := ((blank_ok page).holds j bound b memberB).beyond (by rw [blank_base]; exact openRoom_reserved page)
  have := blockSize_pos k
  omega

theorem Ready.append (left : Ready k ps) (right : Ready k qs) : Ready k (ps ++ qs) := by
  intro P member
  rcases List.mem_append.mp member with member | member
  · exact left P member
  · exact right P member

/-- One pass of `get_free_buffer`: a page serves the request, or all pages are too full. -/
theorem getFreeBuffer_step {post : Int → Machine → Prop} {size : Int} {n : Nat} (low : 1 ≤ size)
    (high : size + 3 * ptr ≤ 8192) (class_eq : sizeClass (size + 3 * ptr) = k) (heap : Heap s room (first :: ps))
    (ready : Ready k (first :: ps))
    (found : ∀ b m' qs, Found (first :: ps) k b qs → Heap { s with memory := m' } room qs →
      post b { s with memory := m' })
    (grow : NoneFrom k (first :: ps) → wp (do
      let header ← appendPage
      if blockSize k = 8192 then
        clearLists header 9
        writeInt header (20 * ptr) ((← readInt header (20 * ptr)) + 1)
        return header + sizeofPageheader
      getFreeBufferDepth n size) post exc s) : wp (getFreeBufferDepth (n + 1) size) post exc s := by
  have rounded := roundUp_realSize low high
  have bound := sizeClass_lt (size + 3 * ptr)
  rw [class_eq] at rounded bound
  unfold getFreeBufferDepth
  rw [wp_bind, wp_get]
  dsimp only
  rw [heap.firstHeader, rounded]
  refine (search_spec heap ready bound).wp_bind ?_
  rintro b m₁ (⟨qs, taken, nonzero, heap'⟩ | ⟨rfl, rfl, none⟩)
  · rw [if_pos nonzero, wp_pure]
    exact found b m₁ qs taken heap'
  · rw [if_neg (by simp)]
    exact grow none

/-- The new page, with the block of a request taken from it or given to the request whole. -/
inductive Grown (page : Int) (k : Nat) (b : Int) : Page → Prop where
  | carved {P' : Page} (carved : Carved (blank page) k b P') : Grown page k b (P'.addUsed 1)
  | whole (last : k = 8) (start : b = page + 24 * ptr) : Grown page k b ((blank page).clear.addUsed 1)

theorem Grown.base (grown : Grown page k b Q) : Q.base = page := by
  cases grown with
  | carved carved => exact carved.base.trans (blank_base page)
  | whole => exact blank_base page

theorem Found.grown (found : Found (ps ++ [blank page]) k b qs) (none : NoneFrom k ps) :
    ∃ Q, Grown page k b Q ∧ qs = ps ++ [Q] := by
  cases found with
  | @mk l P r i rest split bound list lower _ =>
    have last : r = [] := by
      by_contra more
      rw [← List.dropLast_append_getLast more, ← List.cons_append, ← List.append_assoc] at split
      have member : P ∈ ps := by
        rw [(List.append_inj' split rfl).1]
        simp
      rw [none P member i bound] at list
      cases list
    subst last
    obtain ⟨rfl, same⟩ := List.append_inj' split rfl
    cases same
    exact ⟨_, .carved (.mk bound list fun x less => lower _ (by simp) x less), rfl⟩

theorem getFreeBuffer_grown {post : Int → Machine → Prop} {size : Int} {n : Nat} (depth : 2 ≤ n) (low : 1 ≤ size)
    (high : size + 24 * ptr ≤ 8192) (class_eq : sizeClass (size + 3 * ptr) = k) (heap : Heap s room (first :: ps))
    (ready : Ready k (first :: ps)) (offered : Offered s)
    (roomy : ∀ offer ∈ s.supply, room offer.1 = openRoom offer.1)
    (exhausted : s.supply = [] → exc .allPagesAllocated)
    (found : ∀ b m' qs, Found (first :: ps) k b qs → Heap { s with memory := m' } room qs → post b { s with memory := m' })
    (done : NoneFrom k (first :: ps) → ∀ page link rest b m' Q, s.supply = (page, link) :: rest → Grown page k b Q →
      Heap { s.grant page link rest with memory := m' } room (first :: ps ++ [Q]) →
      post b { s.grant page link rest with memory := m' }) :
    wp (getFreeBufferDepth n size) post exc s := by
  have := ptr_bounds
  have bound : k < 9 := class_eq ▸ sizeClass_lt (size + 3 * ptr)
  obtain ⟨n, rfl⟩ : ∃ n', n = n' + 1 + 1 := ⟨n - 2, by omega⟩
  refine getFreeBuffer_step low (by omega) class_eq heap ready found fun none => ?_
  rw [wp_bind]
  refine appendPage_spec heap offered roomy exhausted fun page link rest m₂ left grown => ?_
  by_cases whole : k = 8
  · have member : blank page ∈ first :: ps ++ [blank page] := by simp
    have sound := grown.chained.sound _ member
    have fits : Fits 4 ((blank page).clear.used + 1) := by
      change Fits 4 ((blank page).used + 1)
      rw [blank_used]
      constructor <;> norm_num
    rw [if_pos ((blockSize_whole bound).mpr whole)]
    refine wp_mono (wpm.wp (?_ : wpm _ (fun r m' => r = (blank page).header + sizeofPageheader ∧
      Chained m' room (first :: ps ++ [(blank page).clear.addUsed 1])) _ _)) ?_
    · apply wpm_bind
      refine wpm_mono sound.clear ?_
      intro _ m₃ ⟨cleared, frame⟩
      refine cleared.count fits fun m₄ counted frame' => ?_
      rw [wpm_pure]
      exact ⟨rfl, grown.chained.replace (r := []) rfl counted (frame.trans frame').widen⟩
    · rintro b _ ⟨m₃, rfl, start, chained⟩
      have heap' := grown.update chained (by simp [Page.clear])
      refine done none page link rest b m₃ _ left (.whole whole ?_) heap'
      rw [start, blank_header]
      unfold sizeofPageheader
      ring
  · rw [if_neg fun eq => whole ((blockSize_whole bound).mp eq)]
    refine getFreeBuffer_step low (by omega) class_eq grown (ready.append (blank_ready page k))
      (fun b m' qs found heap' => ?_) fun none' => ?_
    · obtain ⟨Q, from_, rfl⟩ := found.grown none
      exact done none page link rest b m' Q left from_ heap'
    · obtain ⟨x, inside, some⟩ := blank_serves page (show k < 8 from by omega)
      exact absurd (none' (blank page) (by simp) x inside) some

theorem Grown.allocated (grown : Grown page k b Q) (none : NoneFrom k ps) : Allocated ps k b (ps ++ [Q]) := by
  cases grown with
  | carved carved => exact .grown none (.mk rfl carved)
  | whole last start => exact .whole none last start

theorem getFreeBuffer_spec {post : Int → Machine → Prop} {size : Int} {n : Nat} (depth : 2 ≤ n) (low : 1 ≤ size)
    (high : size + 24 * ptr ≤ 8192) (class_eq : sizeClass (size + 3 * ptr) = k) (heap : Heap s room (first :: ps))
    (ready : Ready k (first :: ps)) (offered : Offered s)
    (roomy : ∀ offer ∈ s.supply, room offer.1 = openRoom offer.1)
    (exhausted : s.supply = [] → exc .allPagesAllocated)
    (done : ∀ b t qs, Allocated (first :: ps) k b qs → Heap t room qs → post b t) :
    wp (getFreeBufferDepth n size) post exc s := by
  apply getFreeBuffer_grown depth low high class_eq heap ready offered roomy exhausted
  · intro b m' qs found heap'
    exact done b _ qs (.kept found.served) heap'
  · intro none page link rest b m' Q left grown heap'
    exact done b _ _ (grown.allocated none) heap'

theorem Heap.firstPage_ne (heap : Heap s room (first :: ps)) : s.firstPage ≠ 0 := by
  rw [heap.first]
  exact (heap.chained.legal List.mem_cons_self).nonzero

theorem accepts_iff {size : Int} (low : 1 ≤ size) (high : size < 2 ^ 31) :
    (realSize size + sizeofPageheader) % 256 ^ ptr > 8192 ↔ 8192 < size + 24 * ptr := by
  rw [realSize_eq (by omega) high]
  unfold sizeofPageheader
  rcases Target.ptr_cases with h | h <;> rw [h] <;> norm_num <;> omega

theorem headerRequest : sizeClass (sizeofPageheader + 3 * ptr) = headerClass := by
  unfold sizeofPageheader
  rcases headerClass_cases with ⟨h, c⟩ | ⟨h, c⟩ <;> rw [h, c] <;> rfl

omit [Target] in
theorem fuel_pred (n : Nat) (small : n ≤ 4) : fuel - n + n = fuel := by
  unfold fuel
  omega

theorem kmaMalloc_step {post : Int → Machine → Prop} {size : Int} {n : Nat}
    (accepted : ¬ (realSize size + sizeofPageheader) % 256 ^ ptr > 8192) (started : s.firstPage ≠ 0)
    (h : wp (getFreeBuffer size) post exc s) : wp (kmaMallocDepth (n + 1) size) post exc s := by
  unfold kmaMallocDepth
  rw [if_neg accepted, wp_bind, wp_get]
  dsimp only
  rw [if_neg started]
  exact h

theorem Heap.grantFirst (heap : Heap s room []) (link : Int) (rest : List (Int × Int))
    (sound : Sound m (wholeRoom page) (fresh page) 0) :
    Heap { s.grant page link rest with memory := m, firstPage := page } (Function.update room page (wholeRoom page))
      [fresh page] := by
  refine ⟨⟨⟨rfl, ?_⟩, ?_, ?_, List.nodup_singleton _⟩, rfl, ?_, ?_, ?_⟩
  · exact sound.rep.next
  · intro P member
    cases List.mem_singleton.mp member
    rw [show (fresh page).base = page from rfl, Function.update_self]
    have link := sound.rep.next
    rw [← link] at sound
    exact sound
  · intro P member
    cases List.mem_singleton.mp member
    rw [show (fresh page).base = page from rfl, Function.update_self]
    exact fun x inside => inside
  · have none := heap.pages.eq_nil
    change (page :: s.pages).Perm [page]
    rw [none]
  · have none := heap.inUse
    change s.numInUse + 1 = 1
    rw [none]
    rfl
  · have balance := heap.balance
    change s.numRequested + 1 = s.numFreed + (s.numInUse + 1)
    omega

theorem firstPage_spec {post : Int → Machine → Prop} {size : Int} {n : Nat} (heap : Heap s room []) (offered : Offered s)
    (roomy : ∀ offer ∈ s.supply, room offer.1 = openRoom offer.1)
    (exhausted : s.supply = [] → exc .allPagesAllocated)
    (done : ∀ page link rest m', s.supply = (page, link) :: rest →
      Heap { s.grant page link rest with memory := m', firstPage := page } room [blank page] →
      wp (getFreeBuffer size) post exc { s.grant page link rest with memory := m', firstPage := page }) :
    wp (do
      let page ← initPage
      modify fun s => { s with firstPage := page }
      let _ ← kmaMallocDepth (n + 1) sizeofPageheader
      writeInt (pageHeader (← get).firstPage) (20 * ptr) 0
      getFreeBuffer size) post exc s := by
  have bounds := ptr_bounds
  rw [wp_bind]
  refine initPage_spec offered exhausted fun page link rest m₁ left sound outside => ?_
  have offer : (page, link) ∈ s.supply := by rw [left]; exact List.mem_cons_self
  have heap₁ := heap.grantFirst link rest sound
  have ready : Ready headerClass [fresh page] := by
    intro P member
    cases List.mem_singleton.mp member
    refine ⟨by constructor <;> norm_num [fresh], fun j bound b memberB => ?_⟩
    by_cases last : j = 8
    · subst last
      cases List.mem_singleton.mp memberB
      exact fresh_beyond page
    · simp [fresh, last] at memberB
  have accepted : ¬ (realSize sizeofPageheader + sizeofPageheader) % 256 ^ ptr > 8192 := by
    have positive : 1 ≤ sizeofPageheader ∧ sizeofPageheader < 2 ^ 31 := by
      unfold sizeofPageheader
      omega
    rw [accepts_iff positive.1 positive.2]
    unfold sizeofPageheader
    omega
  rw [wp_bind, wp_modify, wp_bind]
  refine kmaMalloc_step accepted sound.legal.nonzero ?_
  unfold getFreeBuffer
  rw [← fuel_pred 1 (by decide)]
  have low : 1 ≤ sizeofPageheader ∧ sizeofPageheader + 3 * ptr ≤ 8192 := by
    unfold sizeofPageheader
    omega
  refine getFreeBuffer_step low.1 low.2 headerRequest heap₁ ready (fun b m₂ qs found heap₂ => ?_) fun none => ?_
  · obtain ⟨P', carved, rfl⟩ := found.served.singleton
    obtain ⟨rfl, rfl⟩ := carved_blank carved
    have counted := heap₂.chained.sound _ List.mem_cons_self
    have fits : Fits 4 (((blank b).addUsed 1).used + -1) := by
      rw [Page.addUsed_used, blank_used]
      constructor <;> norm_num
    obtain ⟨reset, frame⟩ := counted.addUsed fits
    rw [Page.addUsed_cancel] at reset
    have chained := heap₂.chained.replace (l := []) (r := [])
      (show (blank b).base = ((blank b).addUsed 1).base from rfl) reset frame.widen
    -- the block of the header is counted and then taken out of the count
    have zero : ((blank b).addUsed 1).used + -1 = 0 := by
      rw [Page.addUsed_used, blank_used]
      rfl
    rw [zero] at chained
    rw [wp_bind, wp_get]
    have header : pageHeader b = ((blank b).addUsed 1).header := (blank_header b).symm
    dsimp only
    rw [header, wp_bind]
    refine wp_write (header_ne counted.legal) (done b link rest _ left (heap₂.update ?_ rfl))
    refine chained.rooms (fun P member => ?_) fun P member => ?_
    · cases List.mem_singleton.mp member
      rw [blank_base, roomy _ offer]
      exact blank_ok b
    · cases List.mem_singleton.mp member
      rw [blank_base, roomy _ offer]
      exact openRoom_inside b
  · have some := none (fresh page) List.mem_cons_self (8 - headerClass) (by rw [headerClass_top]; decide)
    rw [fresh_whole] at some
    exact absurd some (List.cons_ne_nil _ _)

/-- `kma_malloc` returns NULL when the page header and the block header leave too little room, and
    else a block, from the pages in use or a new one. -/
theorem kmaMalloc_spec {post : Int → Machine → Prop} {size : Int} (low : 1 ≤ size) (high : size < 2 ^ 31)
    (class_eq : sizeClass (size + 3 * ptr) = k) (heap : Heap s room ps) (ready : Ready k ps) (offered : Offered s)
    (roomy : ∀ offer ∈ s.supply, room offer.1 = openRoom offer.1)
    (exhausted : s.supply.length < 2 → exc .allPagesAllocated)
    (rejected : 8192 < size + 24 * ptr → post 0 s)
    (kept : size + 24 * ptr ≤ 8192 → ps ≠ [] → ∀ b t qs, Allocated ps k b qs → Heap t room qs → post b t)
    (started : size + 24 * ptr ≤ 8192 → ps = [] → ∀ page link rest, s.supply = (page, link) :: rest →
      ∀ b t qs, Allocated [blank page] k b qs → Heap t room qs → post b t) :
    wp (kmaMalloc size) post exc s := by
  unfold kmaMalloc
  rw [← fuel_pred 2 (by decide)]
  by_cases accepted : (realSize size + sizeofPageheader) % 256 ^ ptr > 8192
  · unfold kmaMallocDepth
    rw [if_pos accepted, wp_pure]
    exact rejected ((accepts_iff low high).mp accepted)
  · have fits : size + 24 * ptr ≤ 8192 := Int.not_lt.mp fun excess => accepted ((accepts_iff low high).mpr excess)
    cases ps with
    | cons first ps =>
      refine kmaMalloc_step accepted heap.firstPage_ne ?_
      exact getFreeBuffer_spec (by decide) low fits class_eq heap ready offered roomy
        (fun none => exhausted (by rw [none]; decide)) (kept fits (List.cons_ne_nil _ _))
    | nil =>
      have none : s.firstPage = 0 := heap.first
      unfold kmaMallocDepth
      rw [if_neg accepted, wp_bind, wp_get]
      dsimp only
      rw [if_pos none]
      refine firstPage_spec heap offered roomy (fun none => exhausted (by rw [none]; decide))
        fun page link rest m' left heap' => ?_
      have offered' : Offered { s.grant page link rest with memory := m', firstPage := page } :=
        ⟨(offered.grant left).legal, (offered.grant left).unused, (offered.grant left).distinct⟩
      refine getFreeBuffer_spec (by decide) low fits class_eq heap' (blank_ready page k) offered'
        (fun offer member => roomy offer (left ▸ List.mem_cons_of_mem _ member))
        (fun none => exhausted ?_) (started fits rfl page link rest left)
      change rest = [] at none
      rw [left, none]
      exact Nat.lt_succ_self 1

end Eecs343.Kma.Buddy
