import Eecs343.Kma.Contract

namespace Eecs343.Kma.Dummy

open Bytes Effect Relation

variable [Target]

/-- `kma_malloc`: a page for every request, with a pointer to its record in front of the block. -/
def kmaMalloc (size : Int) : C Int := do
  let page ← getPage
  writePtr page 0 page
  if (size + ptr) % 256 ^ ptr > 8192 then
    freePage page
    return 0
  return page + ptr

def kmaFree (p _size : Int) : C Unit := do
  let page ← readPtr (p - ptr) 0
  freePage page

def dummyAllocator : Allocator := ⟨kmaMalloc, kmaFree⟩

/-- Every live block is alone on a page, behind a pointer to it. -/
structure Inv (w : World) : Prop where
  pages : w.machine.pages.Perm (w.live.map fun q => q.1 - ptr)
  distinct : (w.live.map Prod.fst).Nodup
  place : ∀ q ∈ w.live, Legal (q.1 - ptr) ∧ (1 ≤ q.2 ∧ q.2 + ptr ≤ 8192) ∧ load w.machine.memory ptr (q.1 - ptr) = q.1 - ptr
  inUse : w.machine.numInUse = w.live.length
  balance : w.machine.numRequested = w.machine.numFreed + w.machine.numInUse

variable {w : World} {s t : Machine} {live supply : List (Int × Int)} {p size x : Int} {m : Memory} {q q' : Int × Int}

theorem Inv.initial (initial : w.Initial) : Inv w := by
  refine ⟨?_, ?_, ?_, ?_, ?_⟩
  · rw [initial.pages, initial.live, List.map_nil]
  · simp [initial.live]
  · simp [initial.live]
  · simp [initial.live, initial.inUse]
  · simp [initial.requested, initial.freed, initial.inUse]

theorem Inv.home (inv : Inv w) (member : q ∈ w.live) (low : q.1 - ptr ≤ x) (high : x < q.1 + q.2) :
    baseAddr x = q.1 - ptr := by
  obtain ⟨legal, ⟨_, fits⟩, _⟩ := inv.place q member
  exact legal.baseAddr low (by omega)

theorem Inv.used (inv : Inv w) (member : q ∈ w.live) : q.1 - ptr ∈ w.machine.pages :=
  inv.pages.mem_iff.mpr (List.mem_map.mpr ⟨q, member, rfl⟩)

theorem Inv.owned (inv : Inv w) : ∀ x ∈ liveBytes w.live, baseAddr x ∈ w.machine.pages := by
  intro x live
  obtain ⟨q, member, low, high⟩ := live
  rw [inv.home member (by omega) high]
  exact inv.used member

theorem Inv.away (inv : Inv w) (member : q ∈ w.live) (member' : q' ∈ w.live) (ne : q.1 ≠ q'.1) :
    q.1 + 8192 ≤ q'.1 ∨ q'.1 + 8192 ≤ q.1 := by
  have apart := (inv.place q member).1.apart (inv.place q' member').1 fun same => ne (by omega)
  omega

theorem Inv.apart (inv : Inv w) : w.live.Pairwise fun q q' => q.1 + q.2 ≤ q'.1 ∨ q'.1 + q'.2 ≤ q.1 := by
  have bounds := ptr_bounds
  refine (List.pairwise_map.mp inv.distinct).imp_of_mem ?_
  intro q q' member member' ne
  have away := inv.away member member' ne
  have fits := (inv.place q member).2.1.2
  have fits' := (inv.place q' member').2.1.2
  omega

theorem Inv.word (inv : Inv w) (member : q ∈ w.live) (low : q.1 - ptr ≤ x) (high : x < q.1) : w.Private x := by
  have bounds := ptr_bounds
  have positive := (inv.place q member).2.1.1
  refine ⟨inv.home member low (by omega) ▸ inv.used member, fun q' member' => ?_⟩
  by_cases same : q'.1 = q.1
  · exact .inl (by omega)
  · have away := inv.away member' member same
    have fits' := (inv.place q' member').2.1.2
    omega

theorem Inv.client (inv : Inv w) (kept : ∀ x, w.Private x → m x = w.machine.memory x) :
    Inv ⟨{ w.machine with memory := m }, w.live⟩ := by
  refine ⟨inv.pages, inv.distinct, fun q member => ?_, inv.inUse, inv.balance⟩
  obtain ⟨legal, fits, word⟩ := inv.place q member
  refine ⟨legal, fits, (load_congr fun x low high => kept x ?_).trans word⟩
  exact inv.word member low (by omega)

/-- What `kma_malloc` does before it looks at the size. -/
def taken (s : Machine) (page link : Int) (rest : List (Int × Int)) : Machine :=
  { s.grant page link rest with memory := store s.memory ptr page page }

theorem taken_grows {L : Set Int} {page link : Int} {rest : List (Int × Int)} (left : s.supply = (page, link) :: rest)
    (aligned : page % 8192 = 0) (away : ∀ x ∈ L, baseAddr x ≠ page) : ReflTransGen (Grow L) s (taken s page link rest) := by
  have bounds := ptr_bounds
  refine .tail (.single (.grant left)) (.write (write_memory fun x changed => ?_))
  have within : page ≤ x ∧ x < page + ptr := by
    by_contra outside
    exact changed (store_outside _ _ _ _ (by omega))
  have base : baseAddr x = page := by
    unfold baseAddr
    omega
  exact ⟨base ▸ List.mem_cons_self, fun inside => away x inside base⟩

theorem Inv.store (inv : Inv w) {page v : Int} (legal : Legal page) (unused : page ∉ w.machine.pages)
    (member : q ∈ w.live) :
    load (store w.machine.memory ptr page v) ptr (q.1 - ptr) = load w.machine.memory ptr (q.1 - ptr) := by
  have bounds := ptr_bounds
  have apart := (inv.place q member).1.apart legal fun same => unused (same ▸ inv.used member)
  exact load_store_of_disjoint _ _ (by omega)

theorem kmaMalloc_run {page link : Int} {rest : List (Int × Int)} (left : s.supply = (page, link) :: rest)
    (nonzero : page ≠ 0)
    (inUse : 0 ≤ s.numInUse) (low : 1 ≤ size) (high : size < 2 ^ 31) :
    (kmaMalloc size).run s = .ok (if 8192 < size + ptr then
      (0, { (taken s page link rest).reclaim page with memory := Bytes.store (taken s page link rest).memory ptr page link })
      else (page + ptr, taken s page link rest)) := by
  have space := PagePool.space
  have bounds := ptr_bounds
  have small : (size + ptr) % 256 ^ ptr = size + ptr := by
    refine Int.emod_eq_of_lt (by omega) ?_
    have wide : ((256 ^ ptr : Nat) : Int) = 256 ^ ptr := by push_cast; rfl
    rcases space with h | h <;> rw [← wide, h] <;> omega
  have used : ¬ s.numInUse + 1 ≤ 0 := by omega
  split
  · rename_i large
    simp [kmaMalloc, getPage, left, write, nonzero, small, large, freePage, Machine.grant, used, taken, Machine.reclaim]
    rfl
  · rename_i fits
    simp [kmaMalloc, getPage, left, write, nonzero, small, fits, Machine.grant, taken]
    rfl

theorem Inv.malloc (inv : Inv w) (low : 1 ≤ size) (high : size < 2 ^ 31)
    (offered : Offered { w.machine with supply := supply })
    (enough : supply ≠ []) :
    ∃ p t, (kmaMalloc size).run { w.machine with supply := supply } = .ok (p, t) ∧
      (∃ u, ReflTransGen (Grow (liveBytes w.live)) { w.machine with supply := supply } u ∧
        ReflTransGen (Shrink (liveBytes w.live)) u t) ∧ (p ≠ 0 ↔ size + ptr ≤ 8192) ∧
      Inv ⟨t, if p = 0 then w.live else (p, size) :: w.live⟩ := by
  have bounds := ptr_bounds
  obtain ⟨⟨page, link⟩, rest, rfl⟩ := List.exists_cons_of_ne_nil enough
  have legal : Legal page := offered.legal (page, link) List.mem_cons_self
  have unused : page ∉ w.machine.pages := offered.unused (page, link) List.mem_cons_self
  have away : ∀ x ∈ liveBytes w.live, baseAddr x ≠ page := fun x live same => unused (same ▸ inv.owned x live)
  have ran := kmaMalloc_run (s := { w.machine with supply := (page, link) :: rest }) rfl legal.nonzero
    (by rw [show Machine.numInUse { w.machine with supply := _ } = w.live.length from inv.inUse]; omega) low high
  have grows := taken_grows (s := { w.machine with supply := (page, link) :: rest }) rfl legal.aligned away
  by_cases large : 8192 < size + ptr
  · rw [if_pos large] at ran
    refine ⟨_, _, ran, ⟨_, grows, .single (.reclaim List.mem_cons_self legal.aligned away)⟩, by simp; omega, ?_⟩
    rw [if_pos rfl]
    refine ⟨?_, inv.distinct, fun q member => ?_, ?_, ?_⟩
    · change ((page :: w.machine.pages).erase page).Perm _
      rw [List.erase_cons_head]
      exact inv.pages
    · obtain ⟨legal', fits, word⟩ := inv.place q member
      have apart := legal'.apart legal fun same => unused (same ▸ inv.used member)
      refine ⟨legal', fits, (load_store_of_disjoint _ _ (by omega)).trans ?_⟩
      exact (inv.store legal unused member).trans word
    · change w.machine.numInUse + 1 - 1 = (w.live.length : Int)
      rw [inv.inUse]
      omega
    · change w.machine.numRequested + 1 = w.machine.numFreed + 1 + (w.machine.numInUse + 1 - 1)
      have balance := inv.balance
      omega
  · rw [if_neg large] at ran
    have nonzero : page + ptr ≠ 0 := legal.ne_zero (by omega) (by omega)
    refine ⟨_, _, ran, ⟨_, grows, .refl⟩, iff_of_true nonzero (by omega), ?_⟩
    rw [if_neg nonzero]
    refine ⟨?_, ?_, fun q member => ?_, ?_, ?_⟩
    · change (page :: w.machine.pages).Perm _
      rw [List.map_cons, Int.add_sub_cancel]
      exact inv.pages.cons page
    · refine List.nodup_cons.mpr ⟨fun listed => ?_, inv.distinct⟩
      obtain ⟨q, member, same⟩ := List.mem_map.mp listed
      refine unused ?_
      rw [show page = q.1 - ptr by omega]
      exact inv.used member
    · rcases List.mem_cons.mp member with rfl | member
      · dsimp only
        rw [Int.add_sub_cancel]
        exact ⟨legal, ⟨low, by omega⟩, load_store _ (legal.fits (le_refl _) (by omega))⟩
      · obtain ⟨legal', fits, word⟩ := inv.place q member
        exact ⟨legal', fits, (inv.store legal unused member).trans word⟩
    · change w.machine.numInUse + 1 = _
      rw [inv.inUse, List.length_cons]
      omega
    · change w.machine.numRequested + 1 = w.machine.numFreed + (w.machine.numInUse + 1)
      have balance := inv.balance
      omega

theorem Inv.free (inv : Inv w) (member : (p, size) ∈ w.live) :
    ∃ t, (kmaFree p size).run w.machine = .ok ((), t) ∧
      ReflTransGen (Shrink (liveBytes (w.live.erase (p, size)))) w.machine t ∧ Inv ⟨t, w.live.erase (p, size)⟩ := by
  have bounds := ptr_bounds
  obtain ⟨legal, _, word⟩ := inv.place (p, size) member
  dsimp only at legal word
  have some := List.length_pos_of_mem member
  have used : ¬ w.machine.numInUse ≤ 0 := by
    rw [inv.inUse]
    omega
  have perm := List.perm_cons_erase member
  have names := perm.map Prod.fst
  have distinct := names.nodup_iff.mp inv.distinct
  rw [List.map_cons, List.nodup_cons] at distinct
  have others : ∀ q ∈ w.live.erase (p, size), q ∈ w.live ∧ q.1 ≠ p := by
    intro q inside
    refine ⟨List.mem_of_mem_erase inside, fun same => distinct.1 ?_⟩
    have listed := List.mem_map_of_mem (f := Prod.fst) inside
    rwa [same] at listed
  have ran : (kmaFree p size).run w.machine = .ok ((), { w.machine.reclaim (p - ptr) with
      memory := Bytes.store w.machine.memory ptr (p - ptr) w.machine.nextFreePage }) := by
    simp [kmaFree, read, legal.nonzero, word, freePage, used, write, Machine.reclaim]
    rfl
  refine ⟨_, ran, .single (.reclaim (inv.used member) legal.aligned fun x live base => ?_), ?_⟩
  · obtain ⟨q, inside, low, high⟩ := live
    obtain ⟨listed, ne⟩ := others q inside
    have home := inv.home listed (by omega) high
    exact ne (by omega)
  · refine ⟨?_, distinct.2, fun q inside => ?_, ?_, ?_⟩
    · have pages := (perm.map fun q => q.1 - (ptr : Int)).symm.trans inv.pages.symm
      exact (List.perm_cons _).mp ((pages.trans (List.perm_cons_erase (inv.used member))).symm)
    · obtain ⟨listed, ne⟩ := others q inside
      obtain ⟨legal', fits, word'⟩ := inv.place q listed
      have apart := legal'.apart legal (by omega)
      exact ⟨legal', fits, (load_store_of_disjoint _ _ (by omega)).trans word'⟩
    · change w.machine.numInUse - 1 = _
      rw [inv.inUse, List.length_erase_of_mem member]
      omega
    · change w.machine.numRequested = w.machine.numFreed + 1 + (w.machine.numInUse - 1)
      have balance := inv.balance
      omega

/-- It serves what fits on a page behind a pointer, with a page for every live block. -/
def contract : Contract dummyAllocator where
  Inv := Inv
  serves size := size + ptr ≤ 8192
  admits _ _ := true
  initial := Inv.initial
  client := Inv.client
  malloc inv low high _ offered enough := by
    obtain ⟨p, t, ran, path, served, inv'⟩ := inv.malloc low high offered (List.ne_nil_of_length_pos (by omega))
    exact ⟨p, t, ran, path, by rw [served, decide_eq_true_eq], inv'⟩
  free := Inv.free
  owned := Inv.owned
  apart := Inv.apart
  few inv := by
    have length := inv.pages.length_eq
    rw [List.length_map] at length
    exact length.le
  counted inv := by
    have length := inv.pages.length_eq
    rw [List.length_map] at length
    exact ⟨by rw [inv.inUse, length], inv.balance⟩

end Eecs343.Kma.Dummy
