import Eecs343.Kma.Buddy.Layout

namespace Eecs343.Kma.Buddy

open Bytes Linked

variable [Target]

variable {s t : Machine} {w : World} {P P' Q : Page} {q : Int × Int} {live live' : List (Int × Int)} {ps qs l r : List Page}
  {b size page : Int} {k : Nat}

omit [Target] in
theorem mem_own : q ∈ own live P ↔ q ∈ live ∧ baseAddr q.1 = P.base := by
  unfold own
  rw [List.mem_filter, decide_eq_true_eq]

omit [Target] in
theorem own_base (same : Q.base = P.base) : own live Q = own live P := by
  unfold own
  rw [same]

omit [Target] in
theorem own_cons : own (q :: live) P = if baseAddr q.1 = P.base then q :: own live P else own live P := by
  unfold own
  by_cases here : baseAddr q.1 = P.base <;> simp [here]

omit [Target] in
theorem own_perm (perm : live.Perm live') : (own live P).Perm (own live' P) := perm.filter _

theorem Books.place (books : Books live ps) (member : q ∈ live) :
    ∃ P ∈ ps, baseAddr q.1 = P.base ∧ P.base + 24 * ptr ≤ q.1 ∧ q.1 + liveLength q ≤ P.base + 8192 ∧
      q.2 ≤ liveLength q ∧ 32 ≤ liveLength q := by
  obtain ⟨P, memberP, page⟩ := books.home q member
  exact ⟨P, memberP, page, (books.shared P memberP).place (mem_own.mpr ⟨member, page⟩) page⟩

theorem Books.own_unused (books : Books live ps) (unused : page ∉ ps.map Page.base) (base : P.base = page) :
    own live P = [] := by
  rw [List.eq_nil_iff_forall_not_mem]
  intro q member
  obtain ⟨inLive, here⟩ := mem_own.mp member
  obtain ⟨Q, memberQ, there⟩ := books.home q inLive
  exact unused (base ▸ here ▸ there ▸ List.mem_map_of_mem memberQ)

theorem Books.roomy (books : Books live ps) (legal : ∀ P ∈ ps, Legal P.base) (new : Legal page)
    (unused : page ∉ ps.map Page.base) : room live page = openRoom page := by
  ext x
  constructor
  · exact fun member => ⟨member.1, member.2.1⟩
  · intro ⟨low, high⟩
    refine ⟨low, high, fun q member => ?_⟩
    obtain ⟨P, memberP, _, above, below, _⟩ := books.place member
    have bounds := ptr_bounds
    have apart := (legal P memberP).apart new fun same => unused (same ▸ List.mem_map_of_mem memberP)
    omega

omit [Target] in
theorem fresh_bytes (page : Int) : (fresh page).freeBytes = 8192 := by
  unfold Page.freeBytes Page.total fresh
  rw [Finset.sum_eq_single 8]
  · rfl
  · intro k _ ne
    simp [ne]
  · intro absent
    exact absurd (Finset.mem_range.mpr (by decide)) absent

theorem blank_bytes (page : Int) : (blank page).freeBytes = 8192 - 32 * ptr := by
  rw [(blank_carved page).freeBytes, fresh_bytes, headerClass_size]

theorem blank_shared (page : Int) : (blank page).Shared [] := by
  refine .carved (fun q member => absurd member List.not_mem_nil) ?_
  rw [blank_bytes, List.map_nil, List.sum_nil]
  omega

theorem Books.append (books : Books live ps) (unused : page ∉ ps.map Page.base) : Books live (ps ++ [blank page]) := by
  have none : own live (blank page) = [] := books.own_unused unused (blank_base page)
  refine ⟨fun q member => ?_, books.apart, fun P member => ?_, fun P member => ?_⟩
  · obtain ⟨P, memberP, page⟩ := books.home q member
    exact ⟨P, List.mem_append_left _ memberP, page⟩
  · rcases List.mem_append.mp member with old | new
    · exact books.used P old
    · cases List.mem_singleton.mp new
      rw [none, blank_used]
      rfl
  · rcases List.mem_append.mp member with old | new
    · exact books.shared P old
    · cases List.mem_singleton.mp new
      rw [none]
      exact blank_shared page

theorem Page.Shared.length_le (shared : P.Shared live) (lengths : ∀ q ∈ live, 32 ≤ liveLength q) :
    (live.length : Int) ≤ 256 := by
  have := ptr_bounds
  cases shared with
  | carved carries bytes =>
    have few : 32 * (live.length : Int) ≤ (live.map liveLength).sum := by
      have least := List.card_nsmul_le_sum (live.map liveLength) 32 fun n member => by
        obtain ⟨q, inLive, rfl⟩ := List.mem_map.mp member
        exact lengths q inLive
      simpa [mul_comm] using least
    have := P.blocks_nonneg
    have := P.blocks_le_freeBytes
    omega
  | whole only _ _ _ _ =>
    rw [only]
    simp

theorem Books.few (books : Books live ps) (member : P ∈ ps) : 0 ≤ P.used ∧ P.used ≤ 256 := by
  rw [books.used P member]
  refine ⟨Int.natCast_nonneg _, (books.shared P member).length_le fun q own => ?_⟩
  exact ((books.shared P member).place own (mem_own.mp own).2).2.2.2

theorem room_reserved (live : List (Int × Int)) (page : Int) : page ∉ room live page := by
  have := ptr_bounds
  intro ⟨low, _⟩
  omega

theorem room_inside (live : List (Int × Int)) (page : Int) : ∀ x ∈ room live page, page ≤ x ∧ x < page + 8192 := by
  have := ptr_bounds
  intro x ⟨low, high, _⟩
  omega

theorem Carved.home (carved : Carved P k b P') (ok : P.Ok (room live P.base)) (legal : Legal P.base) :
    baseAddr b = P.base := by
  have := ptr_bounds
  obtain ⟨j, bound, _, source⟩ := carved.source
  have holds := ok.holds j bound b source
  have low := holds.beyond (room_reserved live P.base)
  have high := holds.high
  have := blockSize_pos j
  exact legal.baseAddr (by omega) (by omega)

theorem Inv.ready (inv : Inv w ps) (k : Nat) : Ready k ps := by
  intro P member
  obtain ⟨nonneg, few⟩ := inv.books.few member
  refine ⟨by constructor <;> norm_num <;> omega, fun j bound b memberB => ?_⟩
  have low := ((inv.heap.chained.sound P member).ok.holds j bound b memberB).beyond (room_reserved _ _)
  have := blockSize_pos k
  omega

theorem Inv.serve (books : Books live ps) (ok : ∀ P ∈ ps, P.Ok (room live P.base))
    (served : Served ps (sizeClass (size + 3 * ptr)) b qs) (heap : Heap t (room live) qs) (low : 1 ≤ size)
    (small : size + 3 * ptr ≤ 4096) : Inv ⟨t, (b, size) :: live⟩ qs := by
  have bounds := ptr_bounds
  cases served with
  | @mk l P r P' split carved =>
    have memberP : P ∈ ps := by rw [split]; simp
    have base := carved.base
    obtain ⟨j, bound, _, source⟩ := carved.source
    have beyond := ((ok P memberP).holds j bound b source).beyond (room_reserved live P.base)
    have positive := blockSize_pos (sizeClass (size + 3 * ptr))
    have spare := carved.spare (ok P memberP) (by omega)
    have legal : Legal P.base := base ▸ heap.chained.legal (P := P'.addUsed 1) (by simp)
    have blockLow := spare.holds.beyond (base ▸ room_reserved live P.base)
    have blockHigh := spare.holds.high
    have aligned := spare.holds.aligned
    rw [base] at blockLow blockHigh aligned
    have page : baseAddr b = P.base := carved.home (ok P memberP) legal
    have carries : Carries P (b, size) := ⟨low, small, aligned, blockLow, blockHigh⟩
    have length : liveLength (b, size) = blockSize (sizeClass (size + 3 * ptr)) := carries.length
    have here : ∀ live, own live (P'.addUsed 1) = own live P := fun live => own_base base
    have others : ∀ Q ∈ l ++ r, Q.base ≠ P.base := fun Q member => by
      have distinct := heap.chained.distinct
      exact base ▸ base_ne (P := P'.addUsed 1) distinct member
    refine ⟨⟨?_, heap.first, heap.pages, heap.inUse, heap.balance⟩, ⟨?_, ?_, ?_, ?_⟩⟩
    · refine heap.chained.rooms (fun Q member => ?_) fun Q _ => room_inside _ _
      rcases mem_replace member with rfl | other
      -- the room shrinks by the bytes of the block, which no list has any more
      · refine (spare.taken.addUsed 1).change fun k _ a _ x inside _ _ => ?_
        obtain ⟨⟨above, below, apart⟩, outside⟩ := inside
        rw [Page.addUsed_base, base]
        refine ⟨above, below, List.forall_mem_cons.mpr ⟨?_, apart⟩⟩
        rw [length]
        by_contra inBlock
        exact outside ⟨by omega, by omega⟩
      · have legalQ := heap.chained.legal (mem_beside other)
        have apart := legalQ.apart legal (others Q other)
        refine (heap.chained.sound Q (mem_beside other)).ok.change fun k _ a _ x inside _ _ => ?_
        obtain ⟨above, below, outside⟩ := inside
        refine ⟨above, below, List.forall_mem_cons.mpr ⟨?_, outside⟩⟩
        rw [length]
        omega
    · refine List.forall_mem_cons.mpr ⟨⟨P'.addUsed 1, by simp, page.trans base.symm⟩, fun q member => ?_⟩
      obtain ⟨Q, memberQ, there⟩ := books.home q member
      rw [split] at memberQ
      rcases mem_replace memberQ with rfl | other
      · exact ⟨P'.addUsed 1, by simp, there.trans base.symm⟩
      · exact ⟨Q, mem_beside other, there⟩
    · refine List.pairwise_cons.mpr ⟨fun q member => ?_, books.apart⟩
      obtain ⟨_, _, _, _, _, _, least⟩ := books.place member
      rw [length]
      refine apart_of_outside (by omega) (by omega) fun x above below => ?_
      exact (spare.holds.inRoom x above below).2.2 q member
    · intro Q member
      rcases mem_replace member with rfl | other
      · rw [here, own_cons, if_pos page, Page.addUsed_used, carved.used, books.used P memberP]
        rfl
      · rw [own_cons, if_neg fun same => others Q other (same.symm.trans page)]
        exact books.used Q (split ▸ mem_beside other)
    · intro Q member
      rcases mem_replace member with rfl | other
      · rw [here, own_cons, if_pos page]
        cases books.shared P memberP with
        | carved carries' bytes =>
          refine .carved (List.forall_mem_cons.mpr ⟨?_, fun q own => ?_⟩) ?_
          · exact ⟨low, small, base ▸ aligned, base ▸ blockLow, base ▸ blockHigh⟩
          · have old := carries' q own
            exact ⟨old.positive, old.small, base ▸ old.aligned, base ▸ old.low, base ▸ old.high⟩
          · have bytes' : (P'.addUsed 1).freeBytes = P.freeBytes - blockSize (sizeClass (size + 3 * ptr)) := carved.freeBytes
            rw [List.map_cons, List.sum_cons, length, bytes']
            omega
        | whole _ _ _ _ empty =>
          rw [empty j bound] at source
          exact absurd source List.not_mem_nil
      · rw [own_cons, if_neg fun same => others Q other (same.symm.trans page)]
        exact books.shared Q (split ▸ mem_beside other)

theorem Inv.give (books : Books live ps) (heap : Heap t (room live) (ps ++ [(blank page).clear.addUsed 1]))
    (low : 1 ≤ size) (large : 4096 < size + 3 * ptr) (fits : size + 24 * ptr ≤ 8192) :
    Inv ⟨t, (page + 24 * ptr, size) :: live⟩ (ps ++ [(blank page).clear.addUsed 1]) := by
  have bounds := ptr_bounds
  have base : ((blank page).clear.addUsed 1).base = page := blank_base page
  have distinct := heap.chained.distinct
  rw [List.map_append, List.map_singleton, base, List.nodup_append] at distinct
  have others : ∀ Q ∈ ps, Q.base ≠ page := fun Q member same =>
    distinct.2.2 page (same ▸ List.mem_map_of_mem member) page (List.mem_singleton_self page) rfl
  have unused : page ∉ ps.map Page.base := fun member =>
    distinct.2.2 page member page (List.mem_singleton_self page) rfl
  have legal : Legal page := base ▸ heap.chained.legal (P := (blank page).clear.addUsed 1) (by simp)
  have here : baseAddr (page + 24 * ptr) = page := legal.baseAddr (by omega) (by omega)
  have none : own live ((blank page).clear.addUsed 1) = [] := books.own_unused unused base
  have length : liveLength (page + 24 * ptr, size) = 8192 - 24 * ptr := by
    rw [liveLength, if_pos (whole_of_large low large fits), here]
    omega
  have kept : ∀ Q ∈ ps, own ((page + 24 * ptr, size) :: live) Q = own live Q := fun Q member => by
    rw [own_cons, if_neg fun same => others Q member (same.symm.trans here)]
  have added : own ((page + 24 * ptr, size) :: live) ((blank page).clear.addUsed 1) = [(page + 24 * ptr, size)] := by
    rw [own_cons, if_pos (here.trans base.symm), none]
  refine ⟨⟨?_, heap.first, heap.pages, heap.inUse, heap.balance⟩, ⟨?_, ?_, ?_, ?_⟩⟩
  · refine heap.chained.rooms (fun Q member => ?_) fun Q _ => room_inside _ _
    rcases List.mem_append.mp member with old | new
    · have apart := (heap.chained.legal member).apart legal (others Q old)
      refine (heap.chained.sound Q member).ok.change fun k _ a _ x inside _ _ => ?_
      obtain ⟨above, below, outside⟩ := inside
      refine ⟨above, below, List.forall_mem_cons.mpr ⟨?_, outside⟩⟩
      rw [length]
      dsimp only
      omega
    · cases List.mem_singleton.mp new
      exact (Page.clear_ok _).addUsed 1
  · refine List.forall_mem_cons.mpr ⟨⟨(blank page).clear.addUsed 1, by simp, here.trans base.symm⟩, fun q member => ?_⟩
    obtain ⟨Q, memberQ, there⟩ := books.home q member
    exact ⟨Q, List.mem_append_left _ memberQ, there⟩
  · refine List.pairwise_cons.mpr ⟨fun q member => ?_, books.apart⟩
    obtain ⟨Q, memberQ, _, above, below, _⟩ := books.place member
    have apart := (heap.chained.legal (List.mem_append_left _ memberQ)).apart legal (others Q memberQ)
    rw [length]
    unfold Apart
    dsimp only
    omega
  · intro Q member
    rcases List.mem_append.mp member with old | new
    · rw [kept Q old]
      exact books.used Q old
    · cases List.mem_singleton.mp new
      rw [added, Page.addUsed_used]
      change (blank page).used + 1 = 1
      rw [blank_used]
      rfl
  · intro Q member
    rcases List.mem_append.mp member with old | new
    · rw [kept Q old]
      exact books.shared Q old
    · cases List.mem_singleton.mp new
      rw [added]
      refine .whole rfl large fits ?_ fun k _ => rfl
      rw [header_eq, base]
      dsimp only
      omega

theorem Served.class_lt (served : Served ps k b qs) (ok : ∀ P ∈ ps, P.Ok (room live P.base)) : k < 8 := by
  cases served with
  | @mk l P r P' split carved =>
    obtain ⟨j, bound, above, source⟩ := carved.source
    have memberP : P ∈ ps := by rw [split]; simp
    have less := ((ok P memberP).holds j bound b source).class_lt (room_reserved live P.base) bound
    omega

omit [Target] in
theorem small_of_class (range : size ≤ 8192) (less : sizeClass size < 8) : size ≤ 4096 := by
  have enough := (sizeClass_cases range).1
  have most := blockSize_mono (Nat.lt_succ_iff.mp less)
  have : blockSize 7 = 4096 := rfl
  omega

omit [Target] in
theorem large_of_class (last : sizeClass size = 8) : 4096 < size := by
  by_contra less
  have := sizeClass_le (show size ≤ blockSize 7 from Int.not_lt.mp less)
  omega

theorem Inv.allocate (books : Books live ps) (legal : ∀ P ∈ ps, Legal P.base) (ok : ∀ P ∈ ps, P.Ok (room live P.base))
    (allocated : Allocated ps (sizeClass (size + 3 * ptr)) b qs) (heap : Heap t (room live) qs) (low : 1 ≤ size)
    (fits : size + 24 * ptr ≤ 8192) : Inv ⟨t, (b, size) :: live⟩ qs := by
  have bounds := ptr_bounds
  cases allocated with
  | kept served => exact Inv.serve books ok served heap low (small_of_class (by omega) (served.class_lt ok))
  | @grown page _ none served =>
    have bases := served.bases
    have distinct := heap.chained.distinct
    rw [bases, List.map_append, List.map_singleton, blank_base, List.nodup_append] at distinct
    have unused : page ∉ ps.map Page.base := fun member =>
      distinct.2.2 page member page (List.mem_singleton_self page) rfl
    have legalPage : Legal page := by
      have member : page ∈ qs.map Page.base := by
        rw [bases]
        simp
      obtain ⟨Q, memberQ, same⟩ := List.mem_map.mp member
      exact same ▸ heap.chained.legal memberQ
    have ok' : ∀ P ∈ ps ++ [blank page], P.Ok (room live P.base) := by
      intro P member
      rcases List.mem_append.mp member with old | new
      · exact ok P old
      · cases List.mem_singleton.mp new
        rw [blank_base, books.roomy legal legalPage unused]
        exact blank_ok page
    exact Inv.serve (books.append unused) ok' served heap low (small_of_class (by omega) (served.class_lt ok'))
  | @whole page none last start =>
    subst start
    exact Inv.give books heap low (large_of_class last) fits

end Eecs343.Kma.Buddy
