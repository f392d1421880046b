import Eecs343.Kma.Harness.Trace

namespace Eecs343.Kma.Harness

open Bytes Effect PagePool Scanf

variable [Target] {A : Allocator} {C : Contract A} {region : Int → Int} {m : Memory} {s : State} {L : Ledger} {nReq : Int}
  {cs : List Command} {exc : Halt → Prop}

def Ledger.blank : Ledger := ⟨[], [0]⟩

omit [Target] in
theorem skip_render : skip ('\n' :: cs.flatMap Command.render) = cs.flatMap Command.render := by
  rw [skip_cons_of_isSpace (by decide)]
  cases cs with
  | nil => rfl
  | cons c cs =>
    rw [List.flatMap_cons]
    cases c with
    | request => exact skip_cons_of_not (c := 'R') (by decide)
    | free => exact skip_cons_of_not (c := 'F') (by decide)

omit [Target] in
theorem one_le_line (text : List Char) : 1 ≤ (text ++ ['\n']).length := by simp

omit [Target] in
theorem length_render : cs.length ≤ (cs.flatMap Command.render).length := by
  induction cs with
  | nil => exact Nat.zero_le _
  | cons c cs ih =>
    have some : 1 ≤ c.render.length := by
      cases c with
      | request => exact one_le_line _
      | free => exact one_le_line _
    rw [List.flatMap_cons, List.length_cons, List.length_append]
    omega

theorem agrees_blank (C : Contract A) (m : Memory) :
    Agrees C { start (loaded m) with allocTrace := [⟨0, 0, 0⟩], requests := fun _ => .zero } .blank :=
  ⟨⟨.nil, by simp [Ledger.blank], fun _ _ => rfl, by simp [Ledger.blank], rfl, ⟨rfl, rfl⟩, rfl, rfl, rfl⟩, C.holds_loaded m⟩

theorem verdict_spec (agrees : Agrees C s L) :
    wp verdict (fun _ t => L.outstanding = [] ∧ t = s)
      (fun h => L.outstanding ≠ [] ∧ h = .error "not all pages freed" "") s := by
  obtain ⟨tallies, held⟩ := agrees
  obtain ⟨inUse, balance⟩ := C.counted held.inv
  have few := C.few held.inv
  dsimp only at inUse balance few
  rw [State.blocks, List.length_map] at few
  have idle : s.machine.numInUse = 0 ↔ L.outstanding = [] := by
    constructor
    · intro none
      cases outstanding : L.outstanding with
      | nil => rfl
      | cons e rest =>
        have low := (tallies.used e (by rw [outstanding]; exact List.mem_cons_self)).2.2
        have owned := C.owned held.inv (s.requests e.1).ptr ⟨((s.requests e.1).ptr, e.2), ?_, le_refl _, ?_⟩
        · have some := List.length_pos_of_mem owned
          dsimp only at some
          omega
        · exact List.mem_map.mpr ⟨e, by rw [outstanding]; exact List.mem_cons_self, rfl⟩
        · dsimp only
          omega
    · intro none
      rw [none, List.length_nil] at few
      omega
  simp only [verdict, wp_bind, wp_get]
  by_cases none : L.outstanding = []
  · have zero := idle.mpr none
    have equal : s.machine.numRequested = s.machine.numFreed := by omega
    simp [zero, equal, tallies.calm.1, none]
  · have some : s.machine.numInUse ≠ 0 := fun zero => none (idle.mp zero)
    simp [some, none]

theorem main_spec (pools : ∀ n, Region (region n)) (m : Memory) (low : 0 ≤ nReq) (high : nReq < 2 ^ 31 - 1)
    (ints : ∀ c ∈ cs, c.Ints) (fair : Ledger.blank.FairAll C nReq cs) :
    wp (main A region (trace nReq cs))
      (fun _ t => ∃ L, Ledger.blank.run C.serves nReq cs = .ok L ∧ L.outstanding = [] ∧ Tallies t L)
      (fun h => Ledger.blank.run C.serves nReq cs = .error h ∨ ∃ L, Ledger.blank.run C.serves nReq cs = .ok L ∧
        L.outstanding ≠ [] ∧ h = .error "not all pages freed" "")
      (start (loaded m)) := by
  have number : scanInt (trace nReq cs) "Couldn't read number of requests at head of file" =
      pure (nReq, '\n' :: cs.flatMap Command.render) :=
    scanInt_toString (by constructor <;> norm_num <;> omega) (by simp)
  have enough : cs.length ≤ (trace nReq cs).length := by
    have shorter : cs.length ≤ (cs.flatMap Command.render).length := length_render
    rw [trace, List.length_append, List.length_cons]
    omega
  simp only [main, number, wp_bind, wp_modify, wp_pure, skip_render, commands_render ints enough]
  rw [if_neg (by omega), if_neg (by omega)]
  simp only [wp_bind, wp_modify]
  refine wp_exc (wp_mono (executeAll_spec pools (agrees_blank C m) fair) ?_) fun h failed => .inl failed
  intro _ t done
  obtain ⟨L, booked, agrees⟩ := done
  refine wp_exc (wp_mono (verdict_spec agrees) ?_) ?_
  · rintro _ t ⟨none, rfl⟩
    exact ⟨L, booked, none, agrees.tallies⟩
  · rintro h ⟨some, rfl⟩
    exact .inr ⟨L, booked, some, rfl⟩

/-- What is printed: no mismatches, and a table with the bytes outstanding at the start and after each command. -/
structure Prints (s : State) (L : Ledger) : Prop where
  calm : s.anyMismatches = false ∧ s.stderr = []
  rows : s.allocTrace.map Row.allocBytes = L.sums.map (BitVec.ofInt 32)
  index : s.allocTrace.map Row.index = (List.range L.sums.length).reverse

/-- The program ends as the ledger does: where the ledger stops, with the same error, and else it passes if nothing is
    outstanding and complains of pages if something is. -/
structure Follows (C : Contract A) (region : Int → Int) (m : Memory) (nReq : Int) (cs : List Command) : Prop where
  stops : ∀ h, Ledger.blank.run C.serves nReq cs = .error h → (main A region (trace nReq cs)).run (start (loaded m)) = .error h
  passes : ∀ L, Ledger.blank.run C.serves nReq cs = .ok L → L.outstanding = [] →
    ∃ t, (main A region (trace nReq cs)).run (start (loaded m)) = .ok ((), t) ∧ Prints t L
  fails : ∀ L, Ledger.blank.run C.serves nReq cs = .ok L → L.outstanding ≠ [] →
    (main A region (trace nReq cs)).run (start (loaded m)) = .error (.error "not all pages freed" "")

theorem follows (C : Contract A) (pools : ∀ n, Region (region n)) (m : Memory) (low : 0 ≤ nReq) (high : nReq < 2 ^ 31 - 1)
    (ints : ∀ c ∈ cs, c.Ints) (fair : Ledger.blank.FairAll C nReq cs) : Follows C region m nReq cs := by
  have spec := main_spec pools m low high ints fair
  unfold wp at spec
  cases ran : (main A region (trace nReq cs)).run (start (loaded m)) with
  | ok r =>
    rw [ran] at spec
    obtain ⟨L, booked, none, tallies⟩ := spec
    refine ⟨fun h failed => ?_, fun L' booked' _ => ?_, fun L' booked' some => ?_⟩
    · cases booked.symm.trans failed
    · cases booked.symm.trans booked'
      have index := tallies.index
      exact ⟨r.2, ran, tallies.calm, tallies.rows, index.1 ▸ index.2⟩
    · cases booked.symm.trans booked'
      exact absurd none some
  | error e =>
    rw [ran] at spec
    rcases spec with failed | ⟨L, booked, some, rfl⟩
    · refine ⟨fun h failed' => ?_, fun L' booked' _ => ?_, fun L' booked' _ => ?_⟩
      · cases failed.symm.trans failed'
        exact ran
      · cases failed.symm.trans booked'
      · cases failed.symm.trans booked'
    · refine ⟨fun h failed => ?_, fun L' booked' none => ?_, fun L' _ _ => ran⟩
      · cases booked.symm.trans failed
      · cases booked.symm.trans booked'
        exact absurd none some

end Eecs343.Kma.Harness
