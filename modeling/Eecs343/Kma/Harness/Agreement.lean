import Eecs343.Kma.Harness.Ledger

namespace Eecs343.Kma.Harness

open Bytes Effect

def State.blocks (s : State) (L : Ledger) : List (Int × Int) := L.outstanding.map fun e => ((s.requests e.1).ptr, e.2)

/-- The table of the program has the requests outstanding as used, their blocks have the bytes they were filled with,
    and nothing has gone wrong. -/
structure Tallies (s : State) (L : Ledger) : Prop where
  distinct : L.names.Nodup
  used : ∀ e ∈ L.outstanding, (s.requests e.1).state = .used ∧ (s.requests e.1).size = e.2 ∧ 1 ≤ e.2
  others : ∀ id ∉ L.names, (s.requests id).state = .free
  contents : ∀ e ∈ L.outstanding, ∀ i < e.2.toNat,
    s.machine.memory ((s.requests e.1).ptr + i) = (s.requests e.1).value.getD i 0
  bytes : s.currentAllocBytes = BitVec.ofInt 32 L.bytes
  calm : s.anyMismatches = false ∧ s.stderr = []
  rows : s.allocTrace.map Row.allocBytes = L.sums.map (BitVec.ofInt 32)
  index : s.index = L.sums.length ∧ s.allocTrace.map Row.index = (List.range s.index).reverse

variable {s t : State} {L : Ledger} {id : Nat} {size p : Int} {e : Nat × Int} {u : Machine} {v : Mem}
  {value : List (BitVec 8)} {l r : List (Nat × Int)}

theorem update_used (unused : id ∉ L.names) :
    ∀ e ∈ L.outstanding, Function.update s.requests id v e.1 = s.requests e.1 := by
  intro e member
  apply Function.update_of_ne
  rintro rfl
  exact unused (List.mem_map_of_mem member)

theorem blocks_update (unused : id ∉ L.names) :
    State.blocks { s with requests := Function.update s.requests id v } L = s.blocks L :=
  List.map_congr_left fun e member => by
    dsimp only
    rw [update_used unused e member]

theorem Tallies.requests (tallies : Tallies s L) (unused : id ∉ L.names) (state : v.state = .free) :
    Tallies { s with requests := Function.update s.requests id v } L := by
  have same := update_used (s := s) (v := v) unused
  refine ⟨tallies.distinct, fun e member => ?_, fun other absent => ?_, fun e member => ?_, tallies.bytes, tallies.calm,
    tallies.rows, tallies.index⟩
  · dsimp only
    rw [same e member]
    exact tallies.used e member
  · by_cases here : other = id
    · subst here
      simpa using state
    · dsimp only
      rw [Function.update_of_ne here]
      exact tallies.others other absent
  · dsimp only
    rw [same e member]
    exact tallies.contents e member

theorem Tallies.machine (tallies : Tallies s L) (kept : ∀ x ∈ liveBytes (s.blocks L), u.memory x = s.machine.memory x) :
    Tallies { s with machine := u } L := by
  refine ⟨tallies.distinct, tallies.used, tallies.others, fun e member i bound => ?_, tallies.bytes, tallies.calm,
    tallies.rows, tallies.index⟩
  refine (kept _ ⟨_, List.mem_map_of_mem member, ?_, ?_⟩).trans (tallies.contents e member i bound)
  · dsimp only
    omega
  · dsimp only
    omega

theorem Tallies.insert (tallies : Tallies s L) (unused : id ∉ L.names) (low : 1 ≤ size)
    (filled : ∀ i < size.toNat, s.machine.memory (p + i) = value.getD i 0) :
    Tallies { s with
      requests := Function.update s.requests id ⟨size, p, value, .used⟩
      currentAllocBytes := s.currentAllocBytes + BitVec.ofInt 32 size } { L with outstanding := (id, size) :: L.outstanding } := by
  have same := update_used (s := s) (v := ⟨size, p, value, .used⟩) unused
  refine ⟨List.nodup_cons.mpr ⟨unused, tallies.distinct⟩, fun e member => ?_, fun other absent => ?_, fun e member => ?_,
    ?_, tallies.calm, tallies.rows, tallies.index⟩
  · rcases List.mem_cons.mp member with rfl | member
    · simpa using low
    · dsimp only
      rw [same e member]
      exact tallies.used e member
  · obtain ⟨ne, absent⟩ := not_or.mp (List.mem_cons.not.mp absent)
    dsimp only
    rw [Function.update_of_ne ne]
    exact tallies.others other absent
  · rcases List.mem_cons.mp member with rfl | member
    · simpa using filled
    · dsimp only
      rw [same e member]
      exact tallies.contents e member
  · dsimp only
    rw [tallies.bytes, ← BitVec.ofInt_add]
    refine congrArg _ ?_
    rw [Ledger.bytes, Ledger.bytes, List.map_cons, List.sum_cons]
    omega

theorem Tallies.erase (tallies : Tallies s L) (split : L.outstanding = l ++ e :: r) (state : v.state = .free) :
    Tallies { s with
      requests := Function.update s.requests e.1 v
      currentAllocBytes := s.currentAllocBytes - BitVec.ofInt 32 e.2 } { L with outstanding := l ++ r } := by
  have distinct := tallies.distinct
  rw [Ledger.names, split, List.map_append, List.map_cons, List.nodup_middle, List.nodup_cons] at distinct
  have inside : ∀ e' ∈ l ++ r, e' ∈ L.outstanding := fun e' member => split ▸ Linked.mem_beside member
  have same : ∀ e' ∈ l ++ r, Function.update s.requests e.1 v e'.1 = s.requests e'.1 := by
    intro e' member
    apply Function.update_of_ne
    intro here
    have listed := List.mem_map_of_mem (f := Prod.fst) member
    rw [List.map_append, here] at listed
    exact distinct.1 listed
  refine ⟨?_, fun e' member => ?_, fun other absent => ?_, fun e' member => ?_, ?_, tallies.calm, tallies.rows,
    tallies.index⟩
  · rw [Ledger.names, List.map_append]
    exact distinct.2
  · dsimp only
    rw [same e' member]
    exact tallies.used e' (inside e' member)
  · by_cases here : other = e.1
    · subst here
      simpa using state
    · dsimp only
      rw [Function.update_of_ne here]
      refine tallies.others other fun listed => ?_
      rw [Ledger.names, split, List.map_append, List.map_cons] at listed
      rw [Ledger.names, List.map_append] at absent
      rcases Linked.mem_replace listed with first | listed
      · exact here first
      · exact absent listed
  · dsimp only
    rw [same e' member]
    exact tallies.contents e' (inside e' member)
  · dsimp only
    rw [tallies.bytes, BitVec.sub_eq_add_neg, ← BitVec.ofInt_neg, ← BitVec.ofInt_add]
    refine congrArg _ ?_
    rw [Ledger.bytes, Ledger.bytes, split]
    simp only [List.map_append, List.map_cons, List.sum_append, List.sum_cons]
    omega

variable [Target] {A : Allocator}

/-- The program stands where the ledger does, and its blocks are the live blocks of the allocator. -/
structure Agrees (C : Contract A) (s : State) (L : Ledger) : Prop where
  tallies : Tallies s L
  holds : C.Holds ⟨s.machine, s.blocks L⟩

variable {C : Contract A}

theorem Agrees.separate (agrees : Agrees C s L) (split : L.outstanding = l ++ e :: r) :
    ∀ e' ∈ l ++ r, ((s.requests e'.1).ptr, e'.2) ≠ ((s.requests e.1).ptr, e.2) := by
  intro e' member same
  have apart := C.apart agrees.holds.inv
  rw [State.blocks, split, List.map_append, List.map_cons] at apart
  have moved := (List.perm_middle.pairwise_iff fun {_ _} h => Or.symm h).mp apart
  have other := (List.pairwise_cons.mp moved).1 ((s.requests e'.1).ptr, e'.2) ?_
  · have low := (agrees.tallies.used e (by rw [split]; simp)).2.2
    rw [same] at other
    dsimp only at other
    omega
  · rw [← List.map_append]
    exact List.mem_map_of_mem member

theorem Agrees.blocks_erase (agrees : Agrees C s L) (split : L.outstanding = l ++ e :: r) :
    (s.blocks L).erase ((s.requests e.1).ptr, e.2) = s.blocks { L with outstanding := l ++ r } := by
  have absent : ((s.requests e.1).ptr, e.2) ∉ l.map fun e => ((s.requests e.1).ptr, e.2) := by
    intro member
    obtain ⟨e', inside, same⟩ := List.mem_map.mp member
    exact agrees.separate split e' (List.mem_append_left _ inside) same
  rw [State.blocks, State.blocks, split, List.map_append, List.map_append, List.map_cons, List.erase_append_right _ absent,
    List.erase_cons_head]

end Eecs343.Kma.Harness
