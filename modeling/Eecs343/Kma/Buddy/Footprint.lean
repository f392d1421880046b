import Eecs343.Kma.Footprint
import Eecs343.Kma.Buddy.Steps

namespace Eecs343.Kma.Buddy

open Bytes Effect Linked Relation

variable [Target]

variable {s t : Machine} {m m' : Memory} {P Q first : Page} {room : Int → Set Int} {L : Set Int} {ps l r : List Page}
  {page b size : Int} {k n : Nat}

/-- `L` has nothing of the headers of the pages and of what `room` gives of them. -/
structure Shielded (L : Set Int) (room : Int → Set Int) (ps : List Page) : Prop where
  room : ∀ P ∈ ps, ∀ x ∈ room P.base, x ∉ L
  header : ∀ P ∈ ps, ∀ x, P.header ≤ x → x < P.header + 21 * ptr → x ∉ L

/-- What an operation on one of the pages does to memory is something an allocator may do. -/
theorem Heap.writes (heap : Heap s room ps) (member : P ∈ ps) (shielded : Shielded L room ps)
    (frame : Frame P.header (room P.base) s.memory m') : Write L s { s with memory := m' } := by
  have bounds := ptr_bounds
  have eq := header_eq P
  have legal := heap.chained.legal member
  have used : P.base ∈ s.pages := heap.pages.symm.subset (List.mem_map_of_mem member)
  refine .mk fun x changed => ?_
  by_cases inRoom : x ∈ room P.base
  · have inside := heap.chained.inside P member x inRoom
    rw [legal.baseAddr inside.1 inside.2]
    exact ⟨used, shielded.room P member x inRoom⟩
  · have inHeader : P.header ≤ x ∧ x < P.header + 21 * ptr := by
      by_contra outside
      exact changed (frame x inRoom (by omega))
    rw [legal.baseAddr (by omega) (by omega)]
    exact ⟨used, shielded.header P member x inHeader.1 inHeader.2⟩

theorem searchBuffers_grows {i : Nat} (heap : Heap s room (first :: ps)) (ready : Ready k (first :: ps))
    (shielded : Shielded L room (first :: ps)) (enough : 10 ≤ n + (k + i)) (bound : k + i ≤ 9)
    (lower : ∀ P ∈ first :: ps, ∀ x < i, P.free (k + x) = []) :
    wpm (searchBuffers n i (blockSize (k + i)) first.header (getRequiredBuffer (blockSize (k + i)) first.header))
      (fun _ m' => ReflTransGen (Grow L) s { s with memory := m' }) s s.memory := by
  induction n generalizing i with
  | zero => omega
  | succ n ih =>
    unfold searchBuffers
    by_cases last : k + i = 9
    · have big : ¬ blockSize (k + i) ≤ 8192 := by rw [last]; decide
      rw [wpm_neg big, wpm_pure]
    · have small : blockSize (k + i) ≤ 8192 := blockSize_mono (j := k + i) (k := 8) (by omega)
      have inside : k + i < 9 := by omega
      rw [wpm_pos small]
      apply wpm_bind
      have short := heap.chained.threaded.short
      refine wpm_mono (walkPages_spec (l := []) heap.chained inside (by simp at short ⊢; omega)) ?_
      intro stopped m₁ walked
      obtain ⟨rfl, ⟨l, P, r, split, before, some, rfl⟩ | ⟨none, rfl⟩⟩ := walked
      · have member : P ∈ first :: ps := by rw [split]; simp
        obtain ⟨b, rest, list⟩ := List.exists_cons_of_ne_nil some
        obtain ⟨fits, beyond⟩ := ready P member
        have sound := heap.chained.sound P member
        dsimp only
        rw [wpm_neg (buffer_ne sound.legal inside)]
        refine wpm_mono (takeBlock_spec sound inside list (fun x less => lower P member x less)
          (beyond (k + i) inside b (by simp [list])) fits) ?_
        intro taken m₂ served
        obtain ⟨_, _, _, _, frame⟩ := served
        exact .single (.write (heap.writes member shielded frame))
      · dsimp only
        rw [wpm_pos rfl, wpm_get_bind]
        dsimp only
        rw [heap.firstHeader, Int.mul_comm, ← blockSize_succ]
        refine ih (i := i + 1) (by omega) (by omega) fun P member x less => ?_
        rcases Nat.lt_succ_iff_lt_or_eq.mp less with less | rfl
        · exact lower P member x less
        · exact none P member

theorem search_grows (heap : Heap s room (first :: ps)) (ready : Ready k (first :: ps))
    (shielded : Shielded L room (first :: ps)) (bound : k < 9) :
    wpm (searchBuffers fuel 0 (blockSize k) first.header (getRequiredBuffer (blockSize k) first.header))
      (fun _ m' => ReflTransGen (Grow L) s { s with memory := m' }) s s.memory :=
  searchBuffers_grows (i := 0) heap ready shielded (Nat.le_add_right_of_le (by decide)) (by omega)
    fun _ _ x less => absurd less (Nat.not_lt_zero x)

theorem grows_initPage {link : Int} {rest : List (Int × Int)} (offered : Offered s)
    (left : s.supply = (page, link) :: rest)
    (apart : ∀ offer ∈ s.supply, ∀ x ∈ L, baseAddr x ≠ offer.1)
    (outside : ∀ x, (x < page ∨ page + 8192 ≤ x) → m' x = s.memory x) :
    ReflTransGen (Grow L) s { s.grant page link rest with memory := m' } := by
  have offer : (page, link) ∈ s.supply := by rw [left]; exact List.mem_cons_self
  have legal := offered.legal _ offer
  refine (ReflTransGen.single (.grant left)).tail (.write (.mk fun x changed => ?_))
  have inside : page ≤ x ∧ x < page + 8192 := by
    by_contra other
    exact changed (outside x (by omega))
  have base := legal.baseAddr inside.1 inside.2
  rw [base]
  exact ⟨List.mem_cons_self, fun shielded => apart _ offer x shielded base⟩

theorem carveHeader_frame {next : Int} (sound : Sound m (wholeRoom page) (fresh page) next) :
    wpm (do
      let (i, list) ← firstList fuel 0 (getRequiredBuffer sizeofPageheader (fresh page).header)
      let list ← splitTimes i list (fresh page).header
      let block ← readPtr list 0
      writePtr list 0 (← readPtr block (2 * ptr))
      return (fresh page).header)
      (fun _ m' => Frame (fresh page).header (wholeRoom page) m m') s m := by
  have bound : headerClass + (8 - headerClass) < 9 := by rw [headerClass_top]; decide
  have lower := fresh_lower page
  rw [getRequiredBuffer_eq sound.legal (k := headerClass) rfl]
  apply wpm_bind
  refine wpm_mono (firstList_spec (n := fuel) (i := 0) sound (Nat.lt_of_le_of_lt (Nat.sub_le 8 _) (by decide)) bound lower
    (by rw [fresh_whole]; exact List.cons_ne_nil _ _)) ?_
  intro found m₁ walked
  obtain ⟨rfl, rfl⟩ := walked
  dsimp only
  rw [Nat.zero_add]
  refine carve_spec sound bound (fresh_whole page) lower (fresh_beyond page) fun m₂ P' _ _ frame => ?_
  rw [wpm_pure]
  exact frame

theorem appendPage_grows (heap : Heap s room (first :: ps)) (offered : Offered s)
    (shielded : Shielded L room (first :: ps))
    (apart : ∀ offer ∈ s.supply, ∀ x ∈ L, baseAddr x ≠ offer.1) :
    wp appendPage (fun _ t => ReflTransGen (Grow L) s t) (fun _ => True) s := by
  have bounds := ptr_bounds
  unfold appendPage
  rw [wp_bind, wp_get, heap.firstHeader]
  refine (lastPage_spec (l := []) heap.chained (Nat.lt_of_succ_lt heap.chained.threaded.short)).wp_bind ?_
  intro last _ walked
  obtain ⟨rfl, rfl⟩ := walked
  rw [wp_bind]
  refine initPage_spec offered (fun _ => trivial) fun page link rest m₁ left sound outside => ?_
  have offer : (page, link) ∈ s.supply := by rw [left]; exact List.mem_cons_self
  have grown := grows_initPage offered left apart outside
  obtain ⟨l, P, split⟩ : ∃ l P, first :: ps = l ++ [P] :=
    ⟨_, _, (List.dropLast_append_getLast (List.cons_ne_nil first ps)).symm⟩
  have memberP : P ∈ first :: ps := by rw [split]; simp
  have legalP := heap.chained.legal memberP
  have usedP : P.base ∈ s.pages := heap.pages.symm.subset (List.mem_map_of_mem memberP)
  have eqP := header_eq P
  have eqQ := header_eq (fresh page)
  have base : (fresh page).base = page := rfl
  have other := legalP.apart sound.legal fun same => by
    rw [same] at usedP
    exact offered.unused _ offer usedP
  have last : ((first :: ps).map Page.header).getLastD 0 = P.header := by
    rw [split, List.map_append, List.map_singleton, List.getLastD_concat]
  rw [last]
  refine wp_mono (wpm.wp (s := { s.grant page link rest with memory := m₁ }) (?_ : wpm _ (fun _ m' =>
    ∀ x, (x < P.header ∨ P.header + 21 * ptr ≤ x) → (x < page ∨ page + 8192 ≤ x) → m' x = m₁ x) _ _)) ?_
  · rw [wpm_write_bind]
    refine ⟨header_ne legalP, ?_⟩
    have linked : Sound (store m₁ ptr (P.header + ptr) (fresh page).header) (wholeRoom page) (fresh page) 0 :=
      sound.elsewhere fun x low high => store_outside _ _ _ _ (by omega)
    refine wpm_mono (carveHeader_frame linked) ?_
    intro _ m₂ frame x away beyond
    rw [frame x (fun inside => by unfold wholeRoom at inside; simp at inside; omega) (by omega)]
    exact store_outside _ _ _ _ (by omega)
  · intro _ _ written
    obtain ⟨m₂, rfl, kept⟩ := written
    refine grown.tail (.write (.mk fun x changed => ?_))
    by_cases here : page ≤ x ∧ x < page + 8192
    · have at_page := sound.legal.baseAddr (x := x) here.1 here.2
      rw [at_page]
      exact ⟨List.mem_cons_self, fun shielded => apart _ offer x shielded at_page⟩
    · have inHeader : P.header ≤ x ∧ x < P.header + 21 * ptr := by
        by_contra outside
        exact changed (kept x (by omega) (by omega))
      rw [legalP.baseAddr (by omega) (by omega)]
      exact ⟨List.mem_cons_of_mem _ usedP, shielded.header P memberP x inHeader.1 inHeader.2⟩

theorem getFreeBuffer_grows_step (low : 1 ≤ size) (high : size + 3 * ptr ≤ 8192)
    (class_eq : sizeClass (size + 3 * ptr) = k) (heap : Heap s room (first :: ps)) (ready : Ready k (first :: ps))
    (shielded : Shielded L room (first :: ps))
    (grow : NoneFrom k (first :: ps) → wp (do
      let header ← appendPage
      if blockSize k = 8192 then
        clearLists header 9
        writeInt header (20 * ptr) ((← readInt header (20 * ptr)) + 1)
        return header + sizeofPageheader
      getFreeBufferDepth n size) (fun _ t => ReflTransGen (Grow L) s t) (fun _ => True) s) :
    wp (getFreeBufferDepth (n + 1) size) (fun _ t => ReflTransGen (Grow L) s t) (fun _ => True) s := by
  have rounded := roundUp_realSize low high
  have bound := sizeClass_lt (size + 3 * ptr)
  rw [class_eq] at rounded bound
  unfold getFreeBufferDepth
  rw [wp_bind, wp_get]
  dsimp only
  rw [heap.firstHeader, rounded]
  refine (wpm_and (search_spec heap ready bound) (search_grows heap ready shielded bound)).wp_bind ?_
  intro b m₁ searched
  obtain ⟨⟨_, _, nonzero, _⟩ | ⟨rfl, rfl, none⟩, grows⟩ := searched
  · rw [if_pos nonzero, wp_pure]
    exact grows
  · rw [if_neg (by simp)]
    exact grow none

theorem Shielded.append (shielded : Shielded L room ps) (legal : Legal page) (unprotected : ∀ x ∈ L, baseAddr x ≠ page)
    (roomy : room page = openRoom page) : Shielded L room (ps ++ [blank page]) := by
  have bounds := ptr_bounds
  refine ⟨fun P member x inside => ?_, fun P member x low high => ?_⟩
  · rcases List.mem_append.mp member with old | new
    · exact shielded.room P old x inside
    · cases List.mem_singleton.mp new
      rw [blank_base, roomy] at inside
      have here := openRoom_inside page x inside
      exact fun protect => unprotected x protect (legal.baseAddr here.1 here.2)
  · rcases List.mem_append.mp member with old | new
    · exact shielded.header P old x low high
    · cases List.mem_singleton.mp new
      rw [blank_header] at low high
      exact fun protect => unprotected x protect (legal.baseAddr (by omega) (by omega))

theorem getFreeBuffer_grows (depth : 2 ≤ n) (low : 1 ≤ size) (high : size + 24 * ptr ≤ 8192)
    (class_eq : sizeClass (size + 3 * ptr) = k) (heap : Heap s room (first :: ps)) (ready : Ready k (first :: ps))
    (offered : Offered s) (roomy : ∀ offer ∈ s.supply, room offer.1 = openRoom offer.1)
    (shielded : Shielded L room (first :: ps)) (apart : ∀ offer ∈ s.supply, ∀ x ∈ L, baseAddr x ≠ offer.1) :
    wp (getFreeBufferDepth n size) (fun _ t => ReflTransGen (Grow L) s t) (fun _ => True) s := by
  have bounds := ptr_bounds
  have bound : k < 9 := class_eq ▸ sizeClass_lt (size + 3 * ptr)
  obtain ⟨n, rfl⟩ : ∃ n', n = n' + 1 + 1 := ⟨n - 2, by omega⟩
  refine getFreeBuffer_grows_step low (by omega) class_eq heap ready shielded fun none => ?_
  rw [wp_bind]
  have appended : wp appendPage (fun header t => ∃ page link rest m', s.supply = (page, link) :: rest ∧
      header = (blank page).header ∧ t = { s.grant page link rest with memory := m' } ∧
      Heap t room (first :: ps ++ [blank page])) (fun _ => True) s :=
    appendPage_spec heap offered roomy (fun _ => trivial)
      fun page link rest m' left grown => ⟨page, link, rest, m', left, rfl, rfl, grown⟩
  refine wp_exc (wp_mono (wp_and appended (appendPage_grows heap offered shielded apart)) ?_) fun _ _ => trivial
  intro header t made
  obtain ⟨⟨page, link, rest, m', left, rfl, rfl, grown⟩, path⟩ := made
  have offer : (page, link) ∈ s.supply := by rw [left]; exact List.mem_cons_self
  have member : blank page ∈ first :: ps ++ [blank page] := by simp
  have wider := shielded.append (offered.legal _ offer) (apart _ offer) (roomy _ offer)
  by_cases whole : k = 8
  · have sound := grown.chained.sound _ member
    have fits : Fits 4 ((blank page).clear.used + 1) := by
      change Fits 4 ((blank page).used + 1)
      rw [blank_used]
      constructor <;> norm_num
    rw [if_pos ((blockSize_whole bound).mpr whole)]
    refine wp_mono (wpm.wp (?_ : wpm _ (fun _ m'' => Frame (blank page).header (room (blank page).base) m' m'') _ _)) ?_
    · apply wpm_bind
      refine wpm_mono sound.clear ?_
      intro _ m₃ emptied
      obtain ⟨cleared, frame⟩ := emptied
      refine cleared.count fits fun m₄ _ frame' => ?_
      rw [wpm_pure]
      exact (frame.trans frame').widen
    · intro b _ written
      obtain ⟨m₃, rfl, frame⟩ := written
      exact path.tail (.write (grown.writes member wider frame))
  · rw [if_neg fun eq => whole ((blockSize_whole bound).mp eq)]
    refine wp_mono (getFreeBuffer_grows_step low (by omega) class_eq grown (ready.append (blank_ready page k)) wider
      fun none' => ?_) fun _ _ grows => path.trans grows
    obtain ⟨x, inside, some⟩ := blank_serves page (show k < 8 from by omega)
    exact absurd (none' (blank page) (by simp) x inside) some

theorem getFreeBuffer_header (heap : Heap s room [fresh page]) (legal : Legal page) (whole : room page = wholeRoom page)
    (unprotected : ∀ x ∈ L, baseAddr x ≠ page) :
    wp (getFreeBufferDepth (n + 1) sizeofPageheader) (fun _ t => (∃ m', t = { s with memory := m' }) ∧
      Heap t room [(blank page).addUsed 1] ∧ ReflTransGen (Grow L) s t) (fun _ => True) s := by
  have bounds := ptr_bounds
  have low : 1 ≤ sizeofPageheader ∧ sizeofPageheader + 3 * ptr ≤ 8192 := by
    unfold sizeofPageheader
    omega
  have ready : Ready headerClass [fresh page] := by
    intro P member
    cases List.mem_singleton.mp member
    refine ⟨by constructor <;> norm_num [fresh], fun j bound b memberB => ?_⟩
    by_cases last : j = 8
    · subst last
      cases List.mem_singleton.mp memberB
      exact fresh_beyond page
    · simp [fresh, last] at memberB
  have shielded : Shielded L room [fresh page] := by
    refine ⟨fun P member x inside => ?_, fun P member x above below => ?_⟩
    · cases List.mem_singleton.mp member
      rw [show (fresh page).base = page from rfl, whole] at inside
      exact fun protect => unprotected x protect (legal.baseAddr inside.1 inside.2)
    · cases List.mem_singleton.mp member
      have eq := header_eq (fresh page)
      have base : (fresh page).base = page := rfl
      exact fun protect => unprotected x protect (legal.baseAddr (by omega) (by omega))
  have some : ¬ NoneFrom headerClass [fresh page] := by
    intro none
    have here := none (fresh page) List.mem_cons_self (8 - headerClass) (by rw [headerClass_top]; decide)
    rw [fresh_whole] at here
    exact absurd here (List.cons_ne_nil _ _)
  have served : wp (getFreeBufferDepth (n + 1) sizeofPageheader) (fun _ t => (∃ m', t = { s with memory := m' }) ∧
      Heap t room [(blank page).addUsed 1]) (fun _ => True) s := by
    refine getFreeBuffer_step low.1 low.2 headerRequest heap ready (fun b m' qs found heap' => ?_) fun none => absurd none some
    obtain ⟨P', carved, rfl⟩ := found.served.singleton
    obtain ⟨rfl, rfl⟩ := carved_blank carved
    exact ⟨⟨m', rfl⟩, heap'⟩
  have grows :=
    getFreeBuffer_grows_step (n := n) low.1 low.2 headerRequest heap ready shielded fun none => absurd none some
  exact wp_exc (wp_mono (wp_and served grows) fun _ _ both => ⟨both.1.1, both.1.2, both.2⟩) fun _ _ => trivial

theorem firstPage_grows (heap : Heap s room []) (offered : Offered s) (low : 1 ≤ size) (high : size + 24 * ptr ≤ 8192)
    (class_eq : sizeClass (size + 3 * ptr) = k) (roomy : ∀ offer ∈ s.supply, room offer.1 = openRoom offer.1)
    (shielded : Shielded L room []) (apart : ∀ offer ∈ s.supply, ∀ x ∈ L, baseAddr x ≠ offer.1) :
    wp (do
      let page ← initPage
      modify fun s => { s with firstPage := page }
      let _ ← kmaMallocDepth (n + 1) sizeofPageheader
      writeInt (pageHeader (← get).firstPage) (20 * ptr) 0
      getFreeBuffer size) (fun _ t => ReflTransGen (Grow L) s t) (fun _ => True) s := by
  have bounds := ptr_bounds
  rw [wp_bind]
  refine initPage_spec offered (fun _ => trivial) fun page link rest m₁ left sound outside => ?_
  have offer : (page, link) ∈ s.supply := by rw [left]; exact List.mem_cons_self
  have unprotected := apart _ offer
  have granted := offered.grant left
  have path₁ := (grows_initPage offered left apart outside).tail (.write (write_firstPage page))
  have heap₁ := heap.grantFirst link rest sound
  have accepted : ¬ (realSize sizeofPageheader + sizeofPageheader) % 256 ^ ptr > 8192 := by
    have positive : 1 ≤ sizeofPageheader ∧ sizeofPageheader < 2 ^ 31 := by
      unfold sizeofPageheader
      omega
    rw [accepts_iff positive.1 positive.2]
    unfold sizeofPageheader
    omega
  rw [wp_bind, wp_modify, wp_bind]
  refine kmaMalloc_step accepted sound.legal.nonzero ?_
  unfold getFreeBuffer
  rw [← fuel_pred 1 (by decide)]
  refine wp_mono (getFreeBuffer_header heap₁ sound.legal (Function.update_self _ _ _) unprotected) ?_
  intro _ t headed
  obtain ⟨⟨m₂, rfl⟩, heap₂, path₂⟩ := headed
  have counted := heap₂.chained.sound _ List.mem_cons_self
  have fits : Fits 4 (((blank page).addUsed 1).used + -1) := by
    rw [Page.addUsed_used, blank_used]
    constructor <;> norm_num
  obtain ⟨reset, frame⟩ := counted.addUsed fits
  rw [Page.addUsed_cancel] at reset
  have chained := heap₂.chained.replace (l := []) (r := [])
    (show (blank page).base = ((blank page).addUsed 1).base from rfl) reset frame.widen
  have zero : ((blank page).addUsed 1).used + -1 = 0 := by
    rw [Page.addUsed_used, blank_used]
    rfl
  rw [zero] at chained frame
  rw [wp_bind, wp_get]
  have header : pageHeader page = ((blank page).addUsed 1).header := (blank_header page).symm
  dsimp only
  rw [header, wp_bind]
  refine wp_write (header_ne counted.legal) ?_
  have path₃ := write_memory (L := L) (s := { s.grant page link rest with memory := m₂, firstPage := page })
    (m := store m₂ 4 (((blank page).addUsed 1).header + 20 * ptr) 0) fun x changed => by
      have inside : page ≤ x ∧ x < page + 8192 := by
        by_contra other
        have eq := blank_header page
        rw [Page.addUsed_header] at changed
        exact changed (store_outside _ _ _ _ (by omega))
      have base := sound.legal.baseAddr (x := x) inside.1 inside.2
      rw [base]
      exact ⟨List.mem_cons_self, fun protect => unprotected x protect base⟩
  have heap₃ : Heap { s.grant page link rest with
      memory := store m₂ 4 (((blank page).addUsed 1).header + 20 * ptr) 0, firstPage := page } room [blank page] := by
    refine heap₂.update (chained.rooms (fun P member => ?_) fun P member => ?_) rfl
    · cases List.mem_singleton.mp member
      rw [blank_base, roomy _ offer]
      exact blank_ok page
    · cases List.mem_singleton.mp member
      rw [blank_base, roomy _ offer]
      exact openRoom_inside page
  have rest_apart : ∀ other ∈ rest, other ∈ s.supply := fun other member => left ▸ List.mem_cons_of_mem _ member
  refine wp_mono (getFreeBuffer_grows (by decide) low high class_eq heap₃ (blank_ready page k)
    ⟨granted.legal, granted.unused, granted.distinct⟩ (fun other member => roomy other (rest_apart other member))
    (shielded.append sound.legal unprotected (roomy _ offer)) fun other member => apart other (rest_apart other member)) ?_
  exact fun _ _ grows => ((path₁.trans path₂).tail (.write path₃)).trans grows

theorem kmaMalloc_grows (low : 1 ≤ size) (high : size < 2 ^ 31) (class_eq : sizeClass (size + 3 * ptr) = k)
    (heap : Heap s room ps) (ready : Ready k ps) (offered : Offered s)
    (roomy : ∀ offer ∈ s.supply, room offer.1 = openRoom offer.1) (shielded : Shielded L room ps)
    (apart : ∀ offer ∈ s.supply, ∀ x ∈ L, baseAddr x ≠ offer.1) :
    wp (kmaMalloc size) (fun _ t => ReflTransGen (Grow L) s t) (fun _ => True) s := by
  unfold kmaMalloc
  rw [← fuel_pred 2 (by decide)]
  by_cases accepted : (realSize size + sizeofPageheader) % 256 ^ ptr > 8192
  · unfold kmaMallocDepth
    rw [if_pos accepted, wp_pure]
  · have fits : size + 24 * ptr ≤ 8192 := Int.not_lt.mp fun excess => accepted ((accepts_iff low high).mpr excess)
    cases ps with
    | cons first ps =>
      refine kmaMalloc_step accepted heap.firstPage_ne ?_
      exact getFreeBuffer_grows (by decide) low fits class_eq heap ready offered roomy shielded apart
    | nil =>
      have none : s.firstPage = 0 := heap.first
      unfold kmaMallocDepth
      rw [if_neg accepted, wp_bind, wp_get]
      dsimp only
      rw [if_pos none]
      exact firstPage_grows heap offered low fits class_eq roomy shielded apart

theorem releasePage_shrinks (beside : Beside s room l P r)
    (headers : ∀ Q ∈ l ++ r, ∀ x, Q.header ≤ x → x < Q.header + 21 * ptr → x ∉ L)
    (unprotected : ∀ x ∈ L, baseAddr x ≠ P.base) :
    wp (releasePage P.header) (fun _ t => ReflTransGen (Shrink L) s t) (fun _ => True) s := by
  have bounds := ptr_bounds
  have memberP : P ∈ l ++ P :: r := by simp
  have legal := beside.threaded.legal P memberP
  have self := beside.threaded.self P memberP
  have link := beside.threaded.link
  have usedP : P.base ∈ s.pages := beside.pages.symm.subset (List.mem_map_of_mem memberP)
  have used : 0 < s.numInUse := by
    rw [beside.inUse]
    simp
    omega
  unfold releasePage
  rw [wp_bind, wp_get, wp_bind]
  refine wp_read (header_ne legal) ?_
  rw [Int.add_zero, self, wp_bind]
  refine wp_read (header_ne legal) ?_
  rw [link]
  rcases List.eq_nil_or_concat l with rfl | ⟨l', R, split⟩
  · have first : s.firstPage = P.base := beside.first
    have back := ReflTransGen.single (Shrink.reclaim (L := L) usedP legal.aligned unprotected)
    rw [first]
    cases r with
    | nil =>
      rw [if_neg (by simp [headHeader]), if_pos rfl, wp_bind]
      refine wp_freePage legal.nonzero used ?_
      rw [wp_modify]
      exact back.tail (.write (write_firstPage 0))
    | cons Q r =>
      have memberQ : Q ∈ [] ++ P :: Q :: r := by simp
      have nonzero := header_ne (beside.threaded.legal Q memberQ)
      rw [if_pos ⟨rfl, nonzero⟩, wp_bind]
      refine wp_read nonzero ?_
      rw [Int.add_zero, headHeader_cons, beside.threaded.self Q memberQ, wp_bind]
      refine wp_freePage legal.nonzero used ?_
      rw [wp_modify]
      exact back.tail (.write (write_firstPage Q.base))
  · rw [List.concat_eq_append] at split
    subst split
    have ne : ¬ P.base = s.firstPage := by
      rw [beside.first]
      intro same
      cases l' with
      | nil => exact base_ne (Q := R) beside.threaded.distinct (by simp) same.symm
      | cons Q l' => exact base_ne (Q := Q) beside.threaded.distinct (by simp) same.symm
    have start : pageHeader s.firstPage = headHeader (l' ++ [R] ++ P :: r) := by
      rw [beside.first]
      cases l' <;> rfl
    have memberR : R ∈ l' ++ [R] ++ r := by simp
    have legalR := (beside.other memberR).1
    have usedR : R.base ∈ s.pages := beside.pages.symm.subset (List.mem_map_of_mem (by simp))
    have short : (l' ++ [R]).length < fuel := by
      have all := beside.threaded.short
      rw [List.length_append] at all
      omega
    rw [if_neg fun both => ne both.1, if_neg ne, start]
    have threaded : Threaded s.memory ([] ++ (l' ++ [R] ++ P :: r)) := beside.threaded
    refine (previousPage_spec threaded short).wp_bind ?_
    intro prev _ walked
    obtain ⟨rfl, rfl⟩ := walked
    have last : ((l' ++ [R]).map Page.header).getLastD 0 = R.header := by
      rw [List.map_append, List.map_singleton, List.getLastD_concat]
    have apart := (beside.other memberR).2
    have eqP := header_eq P
    have eqR := header_eq R
    rw [last, wp_bind]
    refine wp_read (header_ne legal) ?_
    rw [wp_bind]
    refine wp_write (header_ne legalR) ?_
    rw [wp_bind]
    refine wp_read (header_ne legal) ?_
    dsimp only
    rw [Int.add_zero, link, load_store_of_disjoint _ _ (by omega), self]
    refine wp_freePage legal.nonzero used ?_
    have linked :=
      write_memory (L := L) (s := s) (m := store s.memory ptr (R.header + ptr) (headHeader r)) fun x changed => by
      have inside : R.header ≤ x ∧ x < R.header + 21 * ptr := by
        by_contra outside
        exact changed (store_outside _ _ _ _ (by omega))
      rw [legalR.baseAddr (by omega) (by omega)]
      exact ⟨usedR, headers R memberR x inside.1 inside.2⟩
    exact (ReflTransGen.single (.write linked)).tail (.reclaim usedP legal.aligned unprotected)

theorem kmaFree_shrinks (heap : Heap s room (l ++ P :: r)) (reserved : P.base ∉ room P.base)
    (holds : P.Holds (room P.base) k b)
    (separate : P.Separate k b) (bound : k < 9) (used : 1 ≤ P.used) (small : P.used ≤ 8192) (rounded : roundUp size = blockSize k)
    (ladder : sizeClass size = k) (shielded : Shielded L room (l ++ P :: r)) (alone : P.used = 1 → ∀ x ∈ L, baseAddr x ≠ P.base) :
    wp (kmaFree b size) (fun _ t => ReflTransGen (Shrink L) s t) (fun _ => True) s := by
  have sound := heap.member
  have member : P ∈ l ++ P :: r := by simp
  have few := sound.ok.blocks_le
  have page : baseAddr b + sizeofAllocheader = P.header := by
    rw [(Sound.block sound.legal holds).2.2.1]
    rfl
  unfold kmaFree
  rw [← fuel_pred 1 (by decide)]
  unfold kmaFreeDepth
  rw [kmaFreeDepth_eq]
  refine wpm.wp_bind (insertBlock_freed (lt_of_le_of_lt few (by decide)) sound reserved holds separate bound used (by omega)
    rounded ladder) ?_
  intro _ m₁ inserted
  obtain ⟨P', freed, sound', frame⟩ := inserted
  have header : P'.header = P.header := by rw [header_eq, freed.base]; rfl
  have fits : Fits 4 (P'.used + -1) := by
    rw [freed.used]
    constructor <;> norm_num <;> omega
  obtain ⟨counted, frame'⟩ := sound'.addUsed fits
  have base : (P'.addUsed (-1)).base = P.base := freed.base
  have now := counted.rep.used
  rw [Page.addUsed_header, Page.addUsed_used] at now
  rw [header] at counted frame' now
  have written := frame.trans frame'.widen
  have chained := heap.chained.replace base counted written
  have path := heap.writes member shielded written
  have heap' := heap.update chained (by simp [freed.base])
  have nonzero := header_ne sound.legal
  have here : load m₁ 4 (P.header + 20 * ptr) = P'.used := header ▸ sound'.rep.used
  dsimp only
  rw [page, wp_bind]
  refine wp_read nonzero ?_
  rw [here, wp_bind]
  refine wp_write nonzero ?_
  rw [wp_bind]
  refine wp_read nonzero ?_
  have value : load (store m₁ 4 (P.header + 20 * ptr) (P'.used - 1)) 4 (P.header + 20 * ptr) = P.used - 1 := by
    rw [← freed.used]
    exact now
  dsimp only
  rw [value]
  by_cases one : P.used = 1
  · rw [if_pos (sub_eq_zero.mpr one)]
    have same : (P'.addUsed (-1)).header = P.header := header
    have headers : ∀ Q ∈ l ++ r, ∀ x, Q.header ≤ x → x < Q.header + 21 * ptr → x ∉ L :=
      fun Q inside => shielded.header Q (mem_beside inside)
    have released := releasePage_shrinks heap'.beside headers fun x protect => base ▸ alone one x protect
    rw [same] at released
    exact wp_mono released fun _ _ shrinks => (ReflTransGen.single (.write path)).trans shrinks
  · rw [if_neg fun zero => one (sub_eq_zero.mp zero), wp_pure]
    exact .single (.write path)

theorem kmaFree_whole_shrinks (heap : Heap s room (l ++ P :: r)) (empty : ∀ k < 9, P.free k = []) (used : P.used = 1)
    (start : b = P.header + 21 * ptr) (shielded : Shielded L room (l ++ P :: r)) (alone : ∀ x ∈ L, baseAddr x ≠ P.base) :
    wp (kmaFree b size) (fun _ t => ReflTransGen (Shrink L) s t) (fun _ => True) s := by
  have bounds := ptr_bounds
  have eq := header_eq P
  have sound := heap.member
  have nonzero := header_ne sound.legal
  have usedP : P.base ∈ s.pages := heap.pages.symm.subset (by simp)
  have page : baseAddr b + sizeofAllocheader = P.header := by
    rw [sound.legal.baseAddr (by omega) (by omega)]
    rfl
  unfold kmaFree
  rw [← fuel_pred 1 (by decide)]
  unfold kmaFreeDepth
  refine wpm.wp_bind (sound.insertBlock_whole empty start) ?_
  intro _ m₁ inserted
  obtain ⟨count, outside⟩ := inserted
  rw [used] at count
  dsimp only
  rw [page, wp_bind]
  refine wp_read nonzero ?_
  rw [count, wp_bind]
  refine wp_write nonzero ?_
  rw [wp_bind]
  refine wp_read nonzero ?_
  dsimp only
  rw [show (1 : Int) - 1 = 0 from rfl, load_store _ (fits_zero 4), if_pos rfl]
  have kept : ∀ x, (x < P.base ∨ P.base + 8192 ≤ x ∨ (P.header ≤ x ∧ x < P.header + 2 * ptr)) →
      store m₁ 4 (P.header + 20 * ptr) 0 x = s.memory x := by
    intro x away
    rw [store_outside _ _ _ _ (by omega)]
    exact outside x away
  have path := write_memory (L := L) (s := s) (m := store m₁ 4 (P.header + 20 * ptr) 0) fun x changed => by
    have inside : P.base ≤ x ∧ x < P.base + 8192 := by
      by_contra other
      exact changed (kept x (by omega))
    have base := sound.legal.baseAddr inside.1 inside.2
    rw [base]
    exact ⟨usedP, fun protect => alone x protect base⟩
  refine wp_mono (releasePage_shrinks (heap.scribble kept) (fun Q inside => shielded.header Q (mem_beside inside)) alone) ?_
  exact fun _ _ shrinks => (ReflTransGen.single (.write path)).trans shrinks

end Eecs343.Kma.Buddy
