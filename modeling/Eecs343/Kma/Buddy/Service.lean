import Eecs343.Kma.Buddy.Contents
import Eecs343.Kma.Buddy.NoLeak
import Eecs343.Kma.Contract

namespace Eecs343.Kma.Buddy

open Bytes Effect Transition Relation

variable [Target]

variable {w : World} {ps : List Page} {size : Int} {supply : List (Int × Int)} {p x : Int} {m : Memory}

/-- Every page in use has a live block. -/
def Tidy (w : World) : Prop := ∃ ps, Inv w ps ∧ ∀ P ∈ ps, 1 ≤ P.used

theorem Inv.owned (inv : Inv w ps) : ∀ x ∈ liveBytes w.live, baseAddr x ∈ w.machine.pages := by
  intro x live
  obtain ⟨q, member, low, high⟩ := live
  obtain ⟨P, memberP, _, base, _⟩ := inv.books.byte (fun P member => inv.heap.chained.legal member) member low high
  rw [base]
  exact inv.heap.pages.symm.subset (List.mem_map_of_mem memberP)

theorem Inv.apart (inv : Inv w ps) : w.live.Pairwise fun q q' => q.1 + q.2 ≤ q'.1 ∨ q'.1 + q'.2 ≤ q.1 := by
  refine inv.books.apart.imp_of_mem ?_
  intro q q' member member' apart
  obtain ⟨_, _, _, _, _, least, _⟩ := inv.books.place member
  obtain ⟨_, _, _, _, _, least', _⟩ := inv.books.place member'
  unfold Apart at apart
  omega

theorem Inv.few (inv : Inv w ps) (occupied : ∀ P ∈ ps, 1 ≤ P.used) : w.machine.pages.length ≤ w.live.length := by
  have within : ps.map Page.base ⊆ w.live.map fun q => baseAddr q.1 := by
    intro base member
    obtain ⟨P, memberP, rfl⟩ := List.mem_map.mp member
    have some := occupied P memberP
    rw [inv.books.used P memberP] at some
    obtain ⟨q, own⟩ := List.exists_mem_of_length_pos (l := own w.live P) (by omega)
    obtain ⟨live, home⟩ := mem_own.mp own
    exact List.mem_map.mpr ⟨q, live, home⟩
  have length := (inv.heap.chained.distinct.subperm within).length_le
  rw [inv.heap.pages.length_eq]
  rwa [List.length_map (f := fun q : Int × Int => baseAddr q.1)] at length

theorem Inv.idle (inv : Inv w ps) (none : ps = []) : w.live = [] := by
  subst none
  refine List.eq_nil_iff_forall_not_mem.mpr fun q member => ?_
  obtain ⟨P, absent, _⟩ := inv.books.home q member
  cases absent

theorem Tidy.malloc (tidy : Tidy w) (low : 1 ≤ size) (high : size < 2 ^ 31)
    (admitted : ¬(w.live.length = 0 ∧ 4096 < size + 3 * ptr ∧ size + 24 * ptr ≤ 8192))
    (offered : Offered { w.machine with supply := supply }) (enough : 2 ≤ supply.length) :
    ∃ p t, (kmaMalloc size).run { w.machine with supply := supply } = .ok (p, t) ∧
      (∃ u, ReflTransGen (Grow (liveBytes w.live)) { w.machine with supply := supply } u ∧
        ReflTransGen (Shrink (liveBytes w.live)) u t) ∧ (p ≠ 0 ↔ size + 24 * ptr ≤ 8192) ∧
      Tidy ⟨t, if p = 0 then w.live else (p, size) :: w.live⟩ := by
  obtain ⟨ps, inv, occupied⟩ := tidy
  obtain ⟨b, t, ran, served⟩ := inv.malloc_returns low high offered enough
  have grows := wp_of_run ran (inv.malloc_grows low high offered)
  obtain ⟨qs, inv', origin⟩ := inv.step (.malloc low high offered ran)
  refine ⟨b, t, ran, ⟨t, grows, .refl⟩, ?_, qs, inv', fun Q member => (origin Q member).occupied occupied ?_⟩
  · rcases served with ⟨excess, null⟩ | ⟨fits, some, _⟩
    · exact iff_of_false (fun some => some null) (by omega)
    · exact iff_of_true some fits
  · intro size' supply' same none large fits
    cases same
    exact admitted ⟨by rw [inv.idle none]; rfl, large, fits⟩

theorem Tidy.free (tidy : Tidy w) (member : (p, size) ∈ w.live) :
    ∃ t, (kmaFree p size).run w.machine = .ok ((), t) ∧
      ReflTransGen (Shrink (liveBytes (w.live.erase (p, size)))) w.machine t ∧ Tidy ⟨t, w.live.erase (p, size)⟩ := by
  obtain ⟨ps, inv, occupied⟩ := tidy
  obtain ⟨t, _, _, _, _, _, step, _⟩ := inv.free_step member
  obtain ⟨qs, inv', origin⟩ := inv.step step
  cases step with
  | free live ran =>
    have held := inv.free_shrinks live
    have shrinks := wp_of_run ran held
    refine ⟨t, ran, shrinks, qs, inv', fun Q inside => (origin Q inside).occupied occupied ?_⟩
    intro size' supply' same
    cases same

/-- It serves what fits on a page behind its header, and promises that no page outlives its blocks unless a request
    takes a page whole while there is no block. -/
def contract : Contract buddyAllocator where
  Inv := Tidy
  serves size := size + 24 * ptr ≤ 8192
  admits n size := ¬(n = 0 ∧ 4096 < size + 3 * ptr ∧ size + 24 * ptr ≤ 8192)
  initial initial := ⟨[], .initial initial, by simp⟩
  client := by
    intro w m tidy kept
    obtain ⟨ps, inv, occupied⟩ := tidy
    exact ⟨ps, inv.client kept, occupied⟩
  malloc tidy low high admitted offered enough := by
    obtain ⟨p, t, ran, path, served, tidy'⟩ := tidy.malloc low high (of_decide_eq_true admitted) offered enough
    exact ⟨p, t, ran, path, by rw [served, decide_eq_true_eq], tidy'⟩
  free := Tidy.free
  owned := by
    intro w tidy
    obtain ⟨ps, inv, _⟩ := tidy
    exact inv.owned
  apart := by
    intro w tidy
    obtain ⟨ps, inv, _⟩ := tidy
    exact inv.apart
  few := by
    intro w tidy
    obtain ⟨ps, inv, occupied⟩ := tidy
    exact inv.few occupied
  counted := by
    intro w tidy
    obtain ⟨ps, inv, _⟩ := tidy
    have length := inv.heap.pages.length_eq
    rw [List.length_map] at length
    exact ⟨by rw [inv.heap.inUse, length], inv.heap.balance⟩

end Eecs343.Kma.Buddy
