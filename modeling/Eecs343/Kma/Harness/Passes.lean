import Eecs343.Kma.Buddy.Service
import Eecs343.Kma.Dummy
import Eecs343.Kma.Harness.Generator
import Eecs343.Kma.Harness.Verdict

namespace Eecs343.Kma.Harness

open Bytes Effect PagePool Dummy Buddy

variable [Target] {A : Allocator} {C : Contract A} {region : Int → Int} {m : Memory} {L : Ledger} {nReq : Int}
  {cs : List Command} {c : Command} {count k : Nat} {size : Nat → Int} {pick : Nat → Nat → Nat}

/-- The rest of a generated trace frees each of the requests outstanding, and has the others whole or not at all. -/
structure Pending (count : Nat) (size : Nat → Int) (L : Ledger) (cs : List Command) : Prop where
  distinct : L.names.Nodup
  bound : ∀ k ∈ L.names, k < count
  begun : ∀ k ∈ L.names, about k cs = [.free k]
  others : ∀ i : Int, (∀ k ∈ L.names, i ≠ k) → about i cs = [] ∨ Names count size i (about i cs) true

omit [Target] in
theorem names_erase (L : Ledger) (k : Nat) :
    Ledger.names { L with outstanding := L.outstanding.eraseP fun e => e.1 = k } = L.names.erase k := by
  rw [Ledger.names, Ledger.names, List.erase_eq_eraseP', List.eraseP_map]
  rfl

omit [Target] in
theorem Pending.few (pending : Pending count size L cs) : L.outstanding.length ≤ count := by
  have within : L.names ⊆ List.range count := fun k listed => List.mem_range.mpr (pending.bound k listed)
  have length := (pending.distinct.subperm within).length_le
  rwa [Ledger.names, List.length_map, List.length_range] at length

omit [Target] in
theorem Pending.sums (pending : Pending count size L cs) (sums : List Int) :
    Pending count size { L with sums := sums } cs :=
  ⟨pending.distinct, pending.bound, pending.begun, pending.others⟩

omit [Target] in
theorem Pending.request {j s : Int} (pending : Pending count size L (.request j s :: cs)) :
    ∃ k < count, j = k ∧ s = size k ∧ k ∉ L.names ∧ Pending count size { L with outstanding := (k, size k) :: L.outstanding } cs := by
  have fresh : ∀ k ∈ L.names, j ≠ k := by
    rintro k listed rfl
    have lines := pending.begun k listed
    rw [about_request, if_pos rfl] at lines
    cases lines
  rcases pending.others j fresh with none | ⟨k, bound, rfl, lines⟩
  · rw [about_request, if_pos rfl] at none
    cases none
  · rw [about_request, if_pos rfl] at lines
    obtain ⟨first, rest⟩ := List.cons.inj lines
    have unlisted : k ∉ L.names := fun listed => fresh k listed rfl
    refine ⟨k, bound, rfl, (Command.request.inj first).2, unlisted, List.nodup_cons.mpr ⟨unlisted, pending.distinct⟩, ?_, ?_, ?_⟩
    · intro k' listed
      rcases List.mem_cons.mp listed with rfl | listed
      · exact bound
      · exact pending.bound k' listed
    · intro k' listed
      rcases List.mem_cons.mp listed with rfl | listed
      · exact rest
      · have lines := pending.begun k' listed
        rwa [about_request, if_neg (fresh k' listed)] at lines
    · intro i apart
      have other := pending.others i fun k' listed => apart k' (List.mem_cons_of_mem _ listed)
      rwa [about_request, if_neg (Ne.symm (apart k List.mem_cons_self))] at other

omit [Target] in
theorem Pending.free {j : Int} (pending : Pending count size L (.free j :: cs)) :
    ∃ k < count, j = k ∧ k ∈ L.names ∧
      Pending count size { L with outstanding := L.outstanding.eraseP fun e => e.1 = k } cs := by
  obtain ⟨k, listed, rfl⟩ : ∃ k ∈ L.names, j = k := by
    by_contra absent
    rcases pending.others j fun k listed same => absent ⟨k, listed, same⟩ with none | ⟨k, _, _, lines⟩
    · rw [about_free, if_pos rfl] at none
      cases none
    · rw [about_free, if_pos rfl] at lines
      cases lines
  have lines := pending.begun k listed
  rw [about_free, if_pos rfl] at lines
  have later := (List.cons.inj lines).2
  refine ⟨k, pending.bound k listed, rfl, listed, ?_, ?_, ?_, ?_⟩
  · rw [names_erase]
    exact pending.distinct.erase k
  · intro k' listed'
    rw [names_erase] at listed'
    exact pending.bound k' (List.mem_of_mem_erase listed')
  · intro k' listed'
    rw [names_erase, pending.distinct.mem_erase_iff] at listed'
    have lines := pending.begun k' listed'.2
    rwa [about_free, if_neg (by exact_mod_cast Ne.symm listed'.1)] at lines
  · intro i apart
    by_cases here : i = k
    · exact .inl (here ▸ later)
    · have other := pending.others i fun k' listed' same => apart k' ?_ same
      · rwa [about_free, if_neg (Ne.symm here)] at other
      · rw [names_erase, pending.distinct.mem_erase_iff]
        exact ⟨fun same' => here (same' ▸ same), listed'⟩

theorem Pending.run (pending : Pending count size L cs) (fits : count ≤ nReq) (few : count ≤ 4094)
    (sizes : ∀ k < count, 1 ≤ size k ∧ size k < 2 ^ 31 ∧ C.serves (size k) = true ∧ allocable (size k) = true ∧
      ∀ n, C.admits n (size k) = true) :
    L.FairAll C nReq cs ∧ ∃ L', L.run C.serves nReq cs = .ok L' ∧ L'.outstanding = [] := by
  induction cs generalizing L with
  | nil =>
    refine ⟨trivial, L, rfl, ?_⟩
    cases outstanding : L.outstanding with
    | nil => rfl
    | cons e rest =>
      have lines := pending.begun e.1 (by rw [Ledger.names, outstanding]; exact List.mem_cons_self)
      cases lines
  | cons c cs ih =>
    have counts := pending.few
    cases c with
    | request j s =>
      obtain ⟨k, bound, rfl, rfl, unlisted, pending'⟩ := pending.request
      obtain ⟨low, high, serves, allocable, admits⟩ := sizes k bound
      have booked : L.book C.serves nReq (.request k (size k)) = .ok { L with outstanding := (k, size k) :: L.outstanding } := by
        simp [Ledger.book, unlisted, serves, allocable, show (k : Int) < nReq by omega]
      have rest := ih (pending'.sums (Ledger.bytes { L with outstanding := (k, size k) :: L.outstanding } :: L.sums))
      refine ⟨⟨⟨low, high, admits _, by omega⟩, fun L' booked' => ?_⟩, ?_⟩
      · cases booked.symm.trans booked'
        exact rest.1
      · rw [Ledger.run, booked]
        exact rest.2
    | free j =>
      obtain ⟨k, bound, rfl, listed, pending'⟩ := pending.free
      have booked : L.book C.serves nReq (.free k) = .ok { L with outstanding := L.outstanding.eraseP fun e => e.1 = k } := by
        simp [Ledger.book, listed, show (k : Int) < nReq by omega]
      have rest :=
        ih (pending'.sums (Ledger.bytes { L with outstanding := L.outstanding.eraseP fun e => e.1 = k } :: L.sums))
      refine ⟨⟨trivial, fun L' booked' => ?_⟩, ?_⟩
      · cases booked.symm.trans booked'
        exact rest.1
      · rw [Ledger.run, booked]
        exact rest.2

omit [Target] in
theorem Paired.pending (paired : Paired count size cs) : Pending count size .blank cs :=
  ⟨.nil, fun _ listed => absurd listed List.not_mem_nil, fun _ listed => absurd listed List.not_mem_nil, fun i _ => paired i⟩

omit [Target] in
theorem Paired.ints (paired : Paired count size cs) (few : count < 2 ^ 31)
    (sizes : ∀ k < count, 1 ≤ size k ∧ size k < 2 ^ 31) :
    ∀ c ∈ cs, c.Ints := by
  intro c member
  have line : c ∈ about c.reqId cs := List.mem_filter.mpr ⟨member, by simp⟩
  rcases paired c.reqId with none | ⟨k, bound, same, lines⟩
  · rw [none] at line
    cases line
  · have fits : ∀ v : Int, 0 ≤ v → v < 2 ^ 31 → Fits 4 v := fun v low high => ⟨by norm_num; omega, by norm_num; omega⟩
    have size := sizes k bound
    rw [lines] at line
    rcases List.mem_cons.mp line with rfl | line
    · exact ⟨fits _ (by omega) (by omega), fits _ (by omega) (by omega)⟩
    · cases List.mem_singleton.mp line
      exact fits _ (by omega) (by omega)

/-- The test passes on whatever trace the generator draws. -/
theorem generated_passes (C : Contract A) (pools : ∀ n, Region (region n)) (m : Memory) (draws : Draws pick)
    (few : count ≤ 4094)
    (sizes : ∀ k < count, 1 ≤ size k ∧ size k < 2 ^ 31 ∧ C.serves (size k) = true ∧ allocable (size k) = true ∧
      ∀ n, C.admits n (size k) = true) :
    ∃ cs L t, allocationStream count size pick = some cs ∧ FreedLater count size cs ∧
      Ledger.blank.run C.serves cs.length cs = .ok L ∧
      (main A region (trace cs.length cs)).run (start (loaded m)) = .ok ((), t) ∧ Prints t L := by
  obtain ⟨cs, made, paired, freed, length⟩ := allocationStream_paired draws count size
  have enough : (count : Int) ≤ cs.length := by omega
  obtain ⟨fair, L, booked, none⟩ := paired.pending.run enough few sizes
  have ints := paired.ints (by omega) fun k bound => ⟨(sizes k bound).1, (sizes k bound).2.1⟩
  obtain ⟨t, ran, prints⟩ := (follows C pools m (by omega) (by omega) ints fair).passes L booked none
  exact ⟨cs, L, t, made, freed, booked, ran, prints⟩

theorem allocable_iff {n : Int} (low : 0 ≤ n) (high : n < 2 ^ 31) : allocable n = true ↔ n + ptr ≤ 8192 := by
  have space := PagePool.space
  have small : n % 256 ^ ptr = n := by
    refine Int.emod_eq_of_lt low ?_
    have wide : ((256 ^ ptr : Nat) : Int) = 256 ^ ptr := by push_cast; rfl
    rcases space with h | h <;> rw [← wide, h] <;> omega
  rw [allocable, small, decide_eq_true_eq]
  omega

/-- A trace that `generate_trace` writes frees each request later, and it passes with `kma_dummy` if a block of each
    size fits on a page behind a pointer, and with `kma_bud` if it fits on half a page with three pointers. -/
theorem generated_traces_pass (pools : ∀ n, Region (region n)) (m : Memory) (draws : Draws pick) (few : count ≤ 4094)
    (positive : ∀ k < count, 1 ≤ size k) :
    ((∀ k < count, size k + ptr ≤ 8192) → ∃ cs t, allocationStream count size pick = some cs ∧
      FreedLater count size cs ∧ (main dummyAllocator region (trace cs.length cs)).run (start (loaded m)) = .ok ((), t)) ∧
    ((∀ k < count, size k + 3 * ptr ≤ 4096) → ∃ cs t, allocationStream count size pick = some cs ∧
      FreedLater count size cs ∧ (main buddyAllocator region (trace cs.length cs)).run (start (loaded m)) = .ok ((), t)) := by
  have bounds := ptr_bounds
  constructor
  · intro fits
    have sizes : ∀ k < count, 1 ≤ size k ∧ size k < 2 ^ 31 ∧ Dummy.contract.serves (size k) = true ∧
        allocable (size k) = true ∧ ∀ n, Dummy.contract.admits n (size k) = true := by
      intro k bound
      have low := positive k bound
      have high := fits k bound
      exact ⟨low, by omega, decide_eq_true high, (allocable_iff (by omega) (by omega)).mpr high, fun _ => rfl⟩
    obtain ⟨cs, _, t, made, freed, _, ran, _⟩ := generated_passes Dummy.contract pools m draws few sizes
    exact ⟨cs, t, made, freed, ran⟩
  · intro fits
    have sizes : ∀ k < count, 1 ≤ size k ∧ size k < 2 ^ 31 ∧ Buddy.contract.serves (size k) = true ∧
        allocable (size k) = true ∧ ∀ n, Buddy.contract.admits n (size k) = true := by
      intro k bound
      have low := positive k bound
      have high := fits k bound
      have large : size k + 24 * ptr ≤ 8192 := by omega
      refine ⟨low, by omega, decide_eq_true large, (allocable_iff (by omega) (by omega)).mpr (by omega), fun _ => ?_⟩
      exact decide_eq_true fun whole => by omega
    obtain ⟨cs, _, t, made, freed, _, ran, _⟩ := generated_passes Buddy.contract pools m draws few sizes
    exact ⟨cs, t, made, freed, ran⟩

omit [Target] in
theorem generated_pair_passes : ∃ target : Target, target.ptr = 8 ∧ ∃ cs t,
    allocationStream 2 (fun _ => 16) (fun index _ => index + 1) = some cs ∧ about 0 cs = [.request 0 16, .free 0] ∧
      about 1 cs = [.request 1 16, .free 1] ∧ (main buddyAllocator (fun _ => 8192) (trace cs.length cs)).run (start (loaded fun _ => 0)) = .ok ((), t) := by
  let target : Target := ⟨8, .inr rfl⟩
  have draws : Draws fun index _ => index + 1 := fun _ _ below => ⟨le_refl _, below⟩
  have positive : ∀ k < 2, 1 ≤ (fun _ : Nat => (16 : Int)) k := fun _ _ => show (1 : Int) ≤ 16 by decide
  obtain ⟨_, bud⟩ := generated_traces_pass (fun _ => region_8192) (fun _ => 0) draws (by decide) positive
  obtain ⟨cs, t, made, freed, ran⟩ := bud fun _ _ => by decide
  exact ⟨target, rfl, cs, t, made, freed 0, freed 1, ran⟩

end Eecs343.Kma.Harness
