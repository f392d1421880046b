import Eecs343.Kma.Buddy.Books

namespace Eecs343.Kma.Buddy

open Bytes Effect Linked

variable [Target]

variable {s t : Machine} {w w' : World} {P P' Q : Page} {q : Int × Int} {live live' : List (Int × Int)}
  {ps qs l r : List Page} {b p size page : Int} {k : Nat}

theorem Page.Shared.perm (shared : P.Shared live) (perm : live.Perm live') : P.Shared live' := by
  cases shared with
  | carved carries bytes =>
    refine .carved (fun q member => carries q (perm.symm.subset member)) ?_
    rw [(perm.map liveLength).sum_eq] at bytes
    exact bytes
  | whole only large fits start empty =>
    rw [only] at perm
    exact .whole (List.singleton_perm.mp perm).symm large fits start empty

theorem Books.perm (books : Books live ps) (perm : live.Perm live') : Books live' ps := by
  refine ⟨fun q member => books.home q (perm.symm.subset member), ?_, fun P member => ?_, fun P member => ?_⟩
  · exact (perm.pairwise_iff fun {_ _} apart => apart.symm).mp books.apart
  · rw [← (own_perm perm).length_eq]
    exact books.used P member
  · exact (books.shared P member).perm (own_perm perm)

theorem Heap.widen (heap : Heap s (room live) ps) (sub : ∀ q ∈ live', q ∈ live) : Heap s (room live') ps := by
  refine ⟨heap.chained.rooms (fun P member => ?_) fun P _ => room_inside _ _, heap.first, heap.pages, heap.inUse,
    heap.balance⟩
  refine (heap.chained.sound P member).ok.change fun k _ a _ x inside _ _ => ?_
  exact ⟨inside.1, inside.2.1, fun q live => inside.2.2 q (sub q live)⟩

omit [Target] in
theorem own_elsewhere (live : List (Int × Int)) {rest : List Page} (page : baseAddr q.1 = P.base)
    (others : ∀ Q ∈ rest, Q.base ≠ P.base) :
    ∀ Q ∈ rest, own (q :: live) Q = own live Q := by
  intro Q member
  rw [own_cons, if_neg fun same => others Q member (same.symm.trans page)]

theorem Books.release (books : Books (q :: live) (l ++ P :: r)) (page : baseAddr q.1 = P.base) (last : P.used = 1)
    (others : ∀ Q ∈ l ++ r, Q.base ≠ P.base) : Books live (l ++ r) := by
  have count := books.used P (by simp)
  rw [last, own_cons, if_pos page, List.length_cons] at count
  have none : own live P = [] := List.length_eq_zero_iff.mp (by omega)
  have kept := own_elsewhere live page others
  refine ⟨fun q' member => ?_, (List.pairwise_cons.mp books.apart).2, fun Q member => ?_, fun Q member => ?_⟩
  · obtain ⟨Q, memberQ, there⟩ := books.home q' (List.mem_cons_of_mem _ member)
    rcases mem_replace memberQ with rfl | other
    · exact absurd (mem_own.mpr ⟨member, there⟩) (none ▸ List.not_mem_nil)
    · exact ⟨Q, other, there⟩
  · rw [← kept Q member]
    exact books.used Q (mem_beside member)
  · rw [← kept Q member]
    exact books.shared Q (mem_beside member)

theorem Books.free (books : Books (q :: live) (l ++ P :: r)) (page : baseAddr q.1 = P.base) (more : P.used ≠ 1)
    (others : ∀ Q ∈ l ++ r, Q.base ≠ P.base) (base : P'.base = P.base) (used : P'.used = P.used - 1)
    (bytes : P'.freeBytes ≤ P.freeBytes + liveLength q) : Books live (l ++ P' :: r) := by
  have count := books.used P (by simp)
  have shared := books.shared P (by simp)
  rw [own_cons, if_pos page] at count shared
  have kept := own_elsewhere live page others
  refine ⟨fun q' member => ?_, (List.pairwise_cons.mp books.apart).2, fun Q member => ?_, fun Q member => ?_⟩
  · obtain ⟨Q, memberQ, there⟩ := books.home q' (List.mem_cons_of_mem _ member)
    rcases mem_replace memberQ with rfl | other
    · exact ⟨P', by simp, there.trans base.symm⟩
    · exact ⟨Q, mem_beside other, there⟩
  · rcases mem_replace member with rfl | other
    · rw [own_base base, used, count, List.length_cons]
      omega
    · rw [← kept Q other]
      exact books.used Q (mem_beside other)
  · rcases mem_replace member with rfl | other
    · rw [own_base base]
      cases shared with
      | carved carries sum =>
        refine .carved (fun q' member => ?_) ?_
        · have old := carries q' (List.mem_cons_of_mem _ member)
          exact ⟨old.positive, old.small, base ▸ old.aligned, base ▸ old.low, base ▸ old.high⟩
        · rw [List.map_cons, List.sum_cons] at sum
          omega
      | whole only _ _ _ _ =>
        rw [only] at count
        exact absurd count more
    · rw [← kept Q other]
      exact books.shared Q (mem_beside other)

/-- The block `kma_free` puts back: at the address of the live block, with the class of its size. -/
theorem Carries.spare (carries : Carries P (p, size)) (ok : P.Ok (room ((p, size) :: live) P.base))
    (apart : ∀ q ∈ live, Apart p (liveLength (p, size)) q.1 (liveLength q)) :
    P.Spare (room live P.base) (sizeClass size) p := by
  have bounds := ptr_bounds
  have small : size + 3 * ptr ≤ 4096 := carries.small
  have le : sizeClass size ≤ sizeClass (size + 3 * ptr) := sizeClass_mono (by omega) (by omega)
  have shorter := blockSize_mono le
  have positive := blockSize_pos (sizeClass size)
  have length : liveLength (p, size) = blockSize (sizeClass (size + 3 * ptr)) := carries.length
  have low : P.base + 32 * ptr ≤ p := carries.low
  have high : p + blockSize (sizeClass (size + 3 * ptr)) ≤ P.base + 8192 := carries.high
  have aligned := Int.dvd_of_emod_eq_zero carries.aligned
  rw [length] at apart
  refine ⟨ok.change fun k _ b _ x inside _ _ => ?_, ⟨?_, .inr low, by omega, fun x above below => ?_⟩, ?_⟩
  · exact ⟨inside.1, inside.2.1, fun q member => inside.2.2 q (List.mem_cons_of_mem _ member)⟩
  · exact Int.emod_eq_zero_of_dvd ((blockSize_dvd le).trans aligned)
  · refine ⟨by omega, by omega, fun q member => ?_⟩
    have := apart q member
    unfold Apart at this
    omega
  · intro j bound a member
    refine apart_of_outside (by have := blockSize_pos j; omega) (by omega) fun x above below => ?_
    have outside := ((ok.holds j bound a member).inRoom x above below).2.2 (p, size) List.mem_cons_self
    rw [length] at outside
    dsimp only at outside
    omega

/-- A carved live block is one that the first half of `kma_free` can put back. -/
theorem Inv.spare (inv : Inv ⟨s, live⟩ (l ++ P :: r)) (member : (p, size) ∈ live) (carries : Carries P (p, size)) :
    P.Spare (room (live.erase (p, size)) P.base) (sizeClass size) p := by
  have perm := List.perm_cons_erase member
  have heap : Heap s (room ((p, size) :: live.erase (p, size))) (l ++ P :: r) :=
    inv.heap.widen fun q inside => perm.symm.subset inside
  have ok := (heap.chained.sound P (by simp)).ok
  exact carries.spare ok (List.pairwise_cons.mp (inv.books.perm perm).apart).1

theorem Inv.used_pos (inv : Inv ⟨s, live⟩ (l ++ P :: r)) (member : (p, size) ∈ live) (page : baseAddr p = P.base) :
    1 ≤ P.used := by
  have some := List.length_pos_of_mem (mem_own.mpr ⟨member, page⟩)
  rw [inv.books.used P (by simp)]
  exact_mod_cast some

theorem Inv.free (inv : Inv ⟨s, live⟩ ps) (member : (p, size) ∈ live) :
    ∃ l P r, ps = l ++ P :: r ∧ baseAddr p = P.base ∧ wp (kmaFree p size) (fun _ t =>
      (P.used = 1 ∧ Inv ⟨t, live.erase (p, size)⟩ (l ++ r)) ∨
        (P.used ≠ 1 ∧ P.Spare (room (live.erase (p, size)) P.base) (sizeClass size) p ∧ ∃ P', Freed P (sizeClass size) p P' ∧
          Inv ⟨t, live.erase (p, size)⟩ (l ++ P'.addUsed (-1) :: r))) (fun _ => False) s := by
  obtain ⟨P, memberP, page⟩ := inv.books.home (p, size) member
  obtain ⟨l, r, rfl⟩ := List.append_of_mem memberP
  have put := inv.spare member
  obtain ⟨heap, books⟩ := inv
  have perm := List.perm_cons_erase member
  have books' := books.perm perm
  refine ⟨l, P, r, rfl, page, ?_⟩
  have wider := heap.widen fun q (inside : q ∈ live.erase (p, size)) => List.mem_of_mem_erase inside
  have others : ∀ Q ∈ l ++ r, Q.base ≠ P.base := fun Q inside => base_ne heap.chained.distinct inside
  have few := books.few memberP
  have count := books'.used P (by simp)
  have shared := books'.shared P (by simp)
  rw [own_cons, if_pos page] at count shared
  have used : 1 ≤ P.used := by
    rw [count, List.length_cons]
    omega
  cases shared with
  | carved carries _ =>
    have here := carries (p, size) List.mem_cons_self
    have small : size + 3 * ptr ≤ 4096 := here.small
    have positive : 1 ≤ size := here.positive
    have bounds := ptr_bounds
    have spare := put here
    refine kmaFree_spec wider (room_reserved _ _) spare.holds spare.separate (sizeClass_lt size) used (by omega)
      (roundUp_sizeClass positive (by omega)) rfl (fun one t heap => .inl ⟨one, heap, books'.release page one others⟩)
      fun more t P' freed heap => .inr ⟨more, spare, P', freed, heap, books'.free page more others freed.base ?_ ?_⟩
    · rw [Page.addUsed_used, freed.used]
      rfl
    · have most := (freed.freeBytes spare.ok spare.holds spare.separate (sizeClass_lt size)).1
      have shorter := blockSize_mono (sizeClass_mono (show size ≤ size + 3 * ptr by omega) (by omega))
      have length : liveLength (p, size) = blockSize (sizeClass (size + 3 * ptr)) := here.length
      rw [length]
      change P'.freeBytes ≤ _
      omega
  | whole only large fits start empty =>
    rw [only] at count
    cases List.cons.inj only |>.1
    have one : P.used = 1 := count
    exact kmaFree_whole wider empty one start fun t heap => .inl ⟨one, heap, books'.release page one others⟩

end Eecs343.Kma.Buddy
