import Eecs343.Kma.Buddy.Footprint
import Eecs343.Kma.Buddy.Progress

namespace Eecs343.Kma.Buddy

open Bytes Effect Transition Relation

variable [Target]

variable {s t : Machine} {w start last : World} {steps : List (World × Call)} {P : Page} {live live' : List (Int × Int)}
  {ps l r : List Page} {q : Int × Int} {supply : List (Int × Int)} {p size x : Int}

theorem Books.byte (books : Books live ps) (legal : ∀ P ∈ ps, Legal P.base) (member : q ∈ live) (low : q.1 ≤ x)
    (high : x < q.1 + q.2) :
    ∃ P ∈ ps, baseAddr q.1 = P.base ∧ baseAddr x = P.base ∧ P.base + 24 * ptr ≤ x ∧ x < q.1 + liveLength q := by
  have bounds := ptr_bounds
  obtain ⟨P, memberP, page, above, below, length, _⟩ := books.place member
  exact ⟨P, memberP, page, (legal P memberP).baseAddr (by omega) (by omega), by omega, by omega⟩

theorem Books.shielded (books : Books live ps) (legal : ∀ P ∈ ps, Legal P.base) (sub : ∀ q ∈ live', q ∈ live) :
    Shielded (liveBytes live') (room live') ps := by
  have bounds := ptr_bounds
  refine ⟨fun P member x inside shielded => ?_, fun P member x low high shielded => ?_⟩
  · obtain ⟨q, memberQ, above, below⟩ := shielded
    obtain ⟨_, _, _, _, _, within⟩ := books.byte legal (sub q memberQ) above below
    have outside := inside.2.2 q memberQ
    omega
  · obtain ⟨q, memberQ, above, below⟩ := shielded
    obtain ⟨R, memberR, _, base, behind, _⟩ := books.byte legal (sub q memberQ) above below
    have eq := header_eq P
    have here := (legal P member).baseAddr (x := x) (by omega) (by omega)
    omega

theorem Inv.malloc_grows (inv : Inv w ps) (low : 1 ≤ size) (high : size < 2 ^ 31)
    (offered : Offered { w.machine with supply := supply }) :
    wp (kmaMalloc size) (fun _ t => ReflTransGen (Grow (liveBytes w.live)) { w.machine with supply := supply } t)
      (fun _ => True) { w.machine with supply := supply } := by
  obtain ⟨heap, books⟩ := inv
  have legal : ∀ P ∈ ps, Legal P.base := fun P member => heap.chained.legal member
  have unused : ∀ offer ∈ supply, offer.1 ∉ ps.map Page.base := fun offer member used =>
    offered.unused offer member (heap.pages.symm.subset used)
  refine kmaMalloc_grows low high rfl (heap.offer supply) (Inv.ready ⟨heap, books⟩ _) offered
    (fun offer member => books.roomy legal (offered.legal offer member) (unused offer member))
    (books.shielded legal fun _ member => member) fun offer member x shielded same => ?_
  obtain ⟨q, memberQ, above, below⟩ := shielded
  obtain ⟨P, memberP, _, base, _⟩ := books.byte legal memberQ above below
  refine unused offer member ?_
  rw [← same, base]
  exact List.mem_map_of_mem memberP

theorem Inv.free_shrinks (inv : Inv ⟨s, live⟩ ps) (member : (p, size) ∈ live) :
    wp (kmaFree p size) (fun _ t => ReflTransGen (Shrink (liveBytes (live.erase (p, size)))) s t) (fun _ => True) s := by
  obtain ⟨P, memberP, page⟩ := inv.books.home (p, size) member
  obtain ⟨l, r, rfl⟩ := List.append_of_mem memberP
  have put := inv.spare member
  obtain ⟨heap, books⟩ := inv
  have legal : ∀ Q ∈ l ++ P :: r, Legal Q.base := fun Q member => heap.chained.legal member
  have perm := List.perm_cons_erase member
  have books' := books.perm perm
  have sub : ∀ q ∈ live.erase (p, size), q ∈ live := fun q inside => List.mem_of_mem_erase inside
  have wider := heap.widen sub
  have shielded := books.shielded legal sub
  have few := books.few memberP
  have count := books'.used P (by simp)
  have shared := books'.shared P (by simp)
  rw [own_cons, if_pos page] at count shared
  rw [List.length_cons] at count
  have alone : P.used = 1 → ∀ x ∈ liveBytes (live.erase (p, size)), baseAddr x ≠ P.base := by
    intro one x inside base
    obtain ⟨q, memberQ, above, below⟩ := inside
    obtain ⟨Q, _, home, base', _⟩ := books.byte legal (sub q memberQ) above below
    have some := List.length_pos_of_mem (mem_own.mpr ⟨memberQ, home.trans (base'.symm.trans base)⟩)
    omega
  cases shared with
  | carved carries _ =>
    have here := carries (p, size) List.mem_cons_self
    have small : size + 3 * ptr ≤ 4096 := here.small
    have positive : 1 ≤ size := here.positive
    have bounds := ptr_bounds
    have spare := put here
    exact kmaFree_shrinks wider (room_reserved _ _) spare.holds spare.separate (sizeClass_lt size) (by omega)
      (by omega) (roundUp_sizeClass positive (by omega)) rfl shielded alone
  | whole only large fits start empty =>
    obtain ⟨rfl, none⟩ := List.cons.inj only
    rw [none] at count
    have one : P.used = 1 := count
    exact kmaFree_whole_shrinks wider empty one start shielded (alone one)

/-- In every run of `kma_bud` no call writes to a block that stays live, or to a page that the allocator has
    neither before nor after the call. -/
theorem calls_untouched (run : Calls buddyAllocator start steps last) :
    ∀ taken ∈ transitions steps last, (∀ memory, taken.2.1 ≠ .client memory) → Untouched taken.1 taken.2.2 := by
  intro taken member call
  obtain ⟨w, made, w'⟩ := taken
  obtain ⟨before, _, _, step⟩ := run.2.transition member
  obtain ⟨ps, inv⟩ := calls_inv run w before
  cases step with
  | malloc low high offered ran =>
    have held := inv.malloc_grows low high offered
    have grows := wp_of_run ran held
    obtain ⟨_, kept⟩ := grows_kept grows
    refine ⟨fun q live _ x above below => kept x (.inr ⟨q, live, above, below⟩), fun x _ unused => kept x (.inl unused)⟩
  | free live ran =>
    have held := inv.free_shrinks live
    have shrinks := wp_of_run ran held
    obtain ⟨_, kept⟩ := shrinks_kept shrinks
    exact ⟨fun q _ stays x above below => kept x (.inr ⟨q, stays, above, below⟩), fun x unused _ => kept x (.inl unused)⟩
  | client => exact absurd rfl (call _)

omit [Target] in
theorem second_request_untouched : ∃ target : Target, target.ptr = 8 ∧ ∃ w₁ w₂,
    Calls buddyAllocator idle [(w₁, .malloc 16 (twoPages 16384)), (idle, .malloc 16 (twoPages 8192))] w₂ ∧
      w₂.live = [(8512, 16), (8448, 16)] ∧ Untouched w₁ w₂ := by
  obtain ⟨w₁, w₂, step₁, step₂, live, _⟩ := two_requests (show (1 : Int) ≤ 16 by decide) (by decide) rfl
  let target : Target := ⟨8, .inr rfl⟩
  have run : Calls buddyAllocator idle [(w₁, .malloc 16 (twoPages 16384)), (idle, .malloc 16 (twoPages 8192))] w₂ :=
    ⟨idle_initial, .snoc (.snoc .refl step₁) step₂⟩
  refine ⟨target, rfl, w₁, w₂, run, live, ?_⟩
  exact calls_untouched run (w₁, .malloc 16 (twoPages 16384), w₂) List.mem_cons_self fun _ same => by cases same

end Eecs343.Kma.Buddy
