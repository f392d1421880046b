import Eecs343.Kma.Harness.Agreement

namespace Eecs343.Kma.Harness

open Bytes Effect PagePool

variable [Target] {A : Allocator} {C : Contract A} {region : Int → Int} {s t : State} {L : Ledger} {exc : Halt → Prop}
  {id : Nat} {size p nReq : Int} {u : Machine} {c : Command} {cs : List Command}

omit [Target] in
theorem bcopy_getD (m : Memory) (p : Int) {n i : Nat} (bound : i < n) : (bcopy m p n).getD i 0 = m (p + i) := by
  simp [bcopy, List.getD, bound]

theorem fillBlock_spec (tallies : Tallies s L) (held : C.Holds ⟨s.machine, (p, size) :: s.blocks L⟩)
    (unused : id ∉ L.names)
    (low : 1 ≤ size) (record : (s.requests id).size = size ∧ (s.requests id).ptr = p) :
    wp (do
      modify fun s => { s with currentAllocBytes := s.currentAllocBytes + BitVec.ofInt 32 size }
      fill p 0 size.toNat
      let value := bcopy (← get).machine.memory p size.toNat
      setRequest id fun new => { new with value := value }
      check p value 0 size.toNat
      setRequest id fun new => { new with state := .used })
      (fun _ t => Agrees C t { L with outstanding := (id, size) :: L.outstanding }) exc s := by
  simp only [wp_bind, wp_modify]
  refine wp_mono fill_spec ?_
  intro _ t filled
  obtain ⟨m, v, rfl, own⟩ := filled
  have apart := (List.pairwise_cons.mp (C.apart held.inv)).1
  have kept : ∀ x ∈ liveBytes (s.blocks L), m x = s.machine.memory x := by
    intro x live
    obtain ⟨q, member, above, below⟩ := live
    by_contra changed
    have within := own x changed
    have outside := apart q member
    dsimp only at outside
    omega
  have held' : C.Holds ⟨{ s.machine with memory := m }, (p, size) :: s.blocks L⟩ := by
    refine held.client fun x changed => ⟨(p, size), List.mem_cons_self, ?_, ?_⟩
    · have within := own x changed
      dsimp only
      omega
    · have within := own x changed
      dsimp only
      omega
  simp only [wp_get]
  refine wp_setRequest (wp_mono (check_spec fun j low high => ?_) ?_)
  · exact (bcopy_getD _ _ (by omega)).symm
  · rintro _ t rfl
    refine wp_setRequest ?_
    have kept' : Tallies { s with machine.memory := m, val := v } L := by
      have moved := tallies.machine (u := { s.machine with memory := m }) kept
      exact ⟨moved.distinct, moved.used, moved.others, moved.contents, moved.bytes, moved.calm, moved.rows, moved.index⟩
    have filled := kept'.insert (p := p) unused low fun i bound => (bcopy_getD m p bound).symm
    have agreed : Agrees C { s with
        machine.memory := m
        val := v
        requests := Function.update s.requests id ⟨size, p, bcopy m p size.toNat, .used⟩
        currentAllocBytes := s.currentAllocBytes + BitVec.ofInt 32 size } { L with outstanding := (id, size) :: L.outstanding } := by
      refine ⟨filled, ?_⟩
      have blocks := blocks_update (s := s) (v := ⟨size, p, bcopy m p size.toNat, .used⟩) unused
      unfold State.blocks at blocks held' ⊢
      rw [List.map_cons, blocks]
      simpa using held'
    simpa [record] using agreed

theorem allocate_spec (pools : ∀ n, Region (region n)) (agrees : Agrees C s L) (low : 1 ≤ size) (high : size < 2 ^ 31)
    (admitted : C.admits L.outstanding.length size) (few : L.outstanding.length ≤ 4094) :
    wp (allocate A region id size)
      (fun _ t => id ∉ L.names ∧ C.serves size = allocable size ∧
        Agrees C t { L with outstanding := if C.serves size then (id, size) :: L.outstanding else L.outstanding })
      (fun h => id ∈ L.names ∧ h = .assertion ∨ id ∉ L.names ∧ C.serves size ≠ allocable size ∧
        h = .error "got NULL from kma_malloc for alloc'able request" "") s := by
  obtain ⟨tallies, held⟩ := agrees
  simp only [allocate, wp_bind, wp_get]
  by_cases listed : id ∈ L.names
  · obtain ⟨e, member, rfl⟩ := List.mem_map.mp listed
    simp [(tallies.used e member).1, listed]
  · simp only [tallies.others id listed, ne_eq, not_true_eq_false, ↓reduceIte, wp_bind]
    have length : (s.blocks L).length = L.outstanding.length := List.length_map _
    obtain ⟨p, u, ran, held', served, kept⟩ := held.malloc (pools s.machine.numRequested) (length ▸ few) low high
      (length ▸ admitted)
    refine wp_setRequest ?_
    simp only [kmaMalloc, wp_bind, wp_get]
    refine wp_call ran (wp_setRequest ?_)
    have state : (s.requests id).state = .free := tallies.others id listed
    have same : Tallies { s with machine := u, requests := Function.update s.requests id ⟨size, p, (s.requests id).value, .free⟩ } L :=
      (tallies.machine kept).requests listed rfl
    by_cases block : p = 0
    · have refused : C.serves size = false := by simpa [block] using served
      cases room : allocable size with
      | true => simp [block, listed, refused]
      | false =>
        rw [if_pos block] at held'
        have agreed : Agrees C { s with
            machine := u
            requests := Function.update s.requests id ⟨size, p, (s.requests id).value, .free⟩ } L :=
          ⟨same, (blocks_update listed).symm ▸ held'⟩
        simpa [block, listed, refused, state] using agreed
    · have accepted : C.serves size = true := served.mp block
      cases room : allocable size with
      | false => simp [block, listed, accepted]
      | true =>
        rw [if_neg block] at held'
        have tail : wp _ _ (fun _ => False) _ :=
          fillBlock_spec same ((blocks_update listed).symm ▸ held') listed low (by simp)
        simpa [block, listed, accepted, room, state] using tail

theorem deallocate_spec (agrees : Agrees C s L) :
    wp (deallocate A id)
      (fun _ t => id ∈ L.names ∧ Agrees C t { L with outstanding := L.outstanding.eraseP fun e => e.1 = id })
      (fun h => id ∉ L.names ∧ h = .assertion) s := by
  obtain ⟨tallies, held⟩ := agrees
  simp only [deallocate, wp_bind, wp_get]
  by_cases listed : id ∈ L.names
  · obtain ⟨e, member, rfl⟩ := List.mem_map.mp listed
    obtain ⟨used, size, low⟩ := tallies.used e member
    obtain ⟨l, r, split⟩ := List.append_of_mem member
    have distinct := tallies.distinct
    rw [Ledger.names, split, List.map_append, List.map_cons, List.nodup_middle, List.nodup_cons, ← List.map_append] at distinct
    have erased : L.outstanding.eraseP (fun e' => e'.1 = e.1) = l ++ r := by
      rw [split, List.eraseP_append_right, List.eraseP_cons_of_pos (by simp)]
      intro e' inside same
      exact distinct.1 (List.mem_map.mpr ⟨e', List.mem_append_left _ inside, by simpa using same⟩)
    have block : ((s.requests e.1).ptr, e.2) ∈ s.blocks L := List.mem_map.mpr ⟨e, member, rfl⟩
    obtain ⟨u, ran, held', kept⟩ := held.free block
    rw [Agrees.blocks_erase ⟨tallies, held⟩ split] at held' kept
    have unlisted : e.1 ∉ Ledger.names { L with outstanding := l ++ r } := distinct.1
    have blocks := blocks_update (s := s) (v := { s.requests e.1 with value := [], state := .free }) unlisted
    have moved := tallies.erase (v := { s.requests e.1 with value := [], state := .free }) split rfl
    have agreed : Agrees C { s with
        machine := u
        requests := Function.update s.requests e.1 { s.requests e.1 with value := [], state := .free }
        currentAllocBytes := s.currentAllocBytes - BitVec.ofInt 32 e.2 } { L with outstanding := l ++ r } := by
      refine ⟨moved.machine fun x live => kept x ?_, ?_⟩
      · rw [← blocks]
        exact live
      · rw [← blocks] at held'
        exact held'
    simp only [used, ne_eq, not_true_eq_false, ↓reduceIte, size, Int.not_le.mpr (Int.lt_of_lt_of_le Int.zero_lt_one low), wp_bind]
    refine wp_mono (check_spec fun j _ bound => tallies.contents e member j (by omega)) ?_
    rintro _ t rfl
    refine wp_call ran ?_
    rw [wp_modify]
    refine wp_setRequest ⟨listed, ?_⟩
    rw [erased]
    exact agreed
  · simp [tallies.others id listed, listed]

/-- A command that the allocator promises to obey. -/
def Ledger.Fair (L : Ledger) (C : Contract A) : Command → Prop
  | .request _ reqSize => 1 ≤ reqSize ∧ reqSize < 2 ^ 31 ∧ C.admits L.outstanding.length reqSize ∧ L.outstanding.length ≤ 4094
  | .free _ => True

theorem execute_spec (pools : ∀ n, Region (region n)) (agrees : Agrees C s L) (fair : L.Fair C c) :
    wp (execute A region nReq c) (fun _ t => ∃ L', L.book C.serves nReq c = .ok L' ∧ Agrees C t L')
      (fun h => L.book C.serves nReq c = .error h) s := by
  cases c with
  | request reqId reqSize =>
    obtain ⟨low, high, admitted, few⟩ := fair
    simp only [execute]
    by_cases range : 0 ≤ reqId ∧ reqId < nReq
    · simp only [range, and_self, not_true_eq_false, ↓reduceIte]
      refine wp_exc (wp_mono (allocate_spec pools agrees low high admitted few) ?_) ?_
      · intro _ t done
        obtain ⟨unlisted, same, agreed⟩ := done
        exact ⟨_, by simp [Ledger.book, range, unlisted, same], same ▸ agreed⟩
      · rintro h (⟨listed, rfl⟩ | ⟨unlisted, differ, rfl⟩)
        · simp [Ledger.book, listed]
        · simp [Ledger.book, range, unlisted, differ]
    · simp [range, Ledger.book]
  | free reqId =>
    simp only [execute]
    by_cases range : 0 ≤ reqId ∧ reqId < nReq
    · simp only [range, and_self, not_true_eq_false, ↓reduceIte]
      refine wp_exc (wp_mono (deallocate_spec agrees) ?_) ?_
      · intro _ t done
        obtain ⟨listed, agreed⟩ := done
        exact ⟨_, by simp [Ledger.book, range, listed], agreed⟩
      · rintro h ⟨unlisted, rfl⟩
        simp [Ledger.book, unlisted]
    · simp [range, Ledger.book]

theorem report_spec (agrees : Agrees C s L) :
    wp report (fun _ t => Agrees C t { L with sums := L.bytes :: L.sums }) exc s := by
  obtain ⟨tallies, held⟩ := agrees
  refine ⟨⟨tallies.distinct, tallies.used, tallies.others, tallies.contents, tallies.bytes, tallies.calm, ?_, ?_⟩, held⟩
  · dsimp only
    rw [List.map_cons, List.map_cons, tallies.rows, tallies.bytes]
  · obtain ⟨length, indices⟩ := tallies.index
    dsimp only
    rw [List.map_cons, indices, List.range_succ, List.reverse_append, length]
    exact ⟨rfl, rfl⟩

/-- Each command of the trace when its turn comes. -/
def Ledger.FairAll (C : Contract A) (nReq : Int) (L : Ledger) : List Command → Prop
  | [] => True
  | c :: cs => L.Fair C c ∧ ∀ L', L.book C.serves nReq c = .ok L' →
      Ledger.FairAll C nReq { L' with sums := L'.bytes :: L'.sums } cs

theorem executeAll_spec (pools : ∀ n, Region (region n)) (agrees : Agrees C s L) (fair : L.FairAll C nReq cs) :
    wp (executeAll A region nReq cs) (fun _ t => ∃ L', L.run C.serves nReq cs = .ok L' ∧ Agrees C t L')
      (fun h => L.run C.serves nReq cs = .error h) s := by
  induction cs generalizing s L with
  | nil => exact ⟨L, rfl, agrees⟩
  | cons c cs ih =>
    obtain ⟨first, rest⟩ := fair
    simp only [executeAll, wp_bind]
    refine wp_exc (wp_mono (execute_spec pools agrees first) ?_) ?_
    · intro _ t done
      obtain ⟨L', booked, agreed⟩ := done
      refine wp_mono (report_spec agreed) ?_
      intro _ u reported
      rw [Ledger.run, booked]
      exact ih reported (rest L' booked)
    · intro h failed
      rw [Ledger.run, failed]

end Eecs343.Kma.Harness
