import Eecs343.Kma.Contract
import Eecs343.Kma.Harness.Program

namespace Eecs343.Kma.Harness

open Bytes Effect Transition PagePool

inductive Command where
  | request (reqId reqSize : Int)
  | free (reqId : Int)

/-- What a test amounts to: the requests outstanding, each with its size, and the bytes that were outstanding at the
    start and after each command, all latest first. -/
structure Ledger where
  outstanding : List (Nat × Int)
  sums : List Int

def Ledger.names (L : Ledger) : List Nat := L.outstanding.map Prod.fst

def Ledger.bytes (L : Ledger) : Int := (L.outstanding.map Prod.snd).sum

section

variable [Target]

def Ledger.book (serves : Int → Bool) (nReq : Int) (L : Ledger) : Command → Except Halt Ledger
  | .request reqId reqSize =>
    if ¬(0 ≤ reqId ∧ reqId < nReq) ∨ reqId.toNat ∈ L.names then .error .assertion
    else if serves reqSize ≠ allocable reqSize then .error (.error "got NULL from kma_malloc for alloc'able request" "")
    else .ok { L with outstanding := if serves reqSize then (reqId.toNat, reqSize) :: L.outstanding else L.outstanding }
  | .free reqId =>
    if ¬(0 ≤ reqId ∧ reqId < nReq) ∨ reqId.toNat ∉ L.names then .error .assertion
    else .ok { L with outstanding := L.outstanding.eraseP fun e => e.1 = reqId.toNat }

def Ledger.run (serves : Int → Bool) (nReq : Int) (L : Ledger) : List Command → Except Halt Ledger
  | [] => .ok L
  | c :: cs =>
    match L.book serves nReq c with
    | .ok L' => Ledger.run serves nReq { L' with sums := L'.bytes :: L'.sums } cs
    | .error h => .error h

variable (A : Allocator) (region : Int → Int)

/-- What a line of the trace makes the program do, but for its line in the table. -/
def execute (nReq : Int) : Command → H Unit
  | .request reqId reqSize => do
    if ¬(0 ≤ reqId ∧ reqId < nReq) then throw .assertion
    allocate A region reqId.toNat reqSize
  | .free reqId => do
    if ¬(0 ≤ reqId ∧ reqId < nReq) then throw .assertion
    deallocate A reqId.toNat

def executeAll (nReq : Int) : List Command → H Unit
  | [] => return ()
  | c :: cs => do
    execute A region nReq c
    report
    executeAll nReq cs

end

variable {s t : State} {L : Ledger} {exc : Halt → Prop} {p : Int} {i left : Nat}

theorem fill_spec : wp (fill p i left) (fun _ t => ∃ m v, t = { s with machine.memory := m, val := v } ∧
    ∀ x, m x ≠ s.machine.memory x → p + i ≤ x ∧ x < p + i + left) exc s := by
  induction left generalizing i s with
  | zero => exact ⟨s.machine.memory, s.val, rfl, fun x changed => absurd rfl changed⟩
  | succ left ih =>
    simp only [fill, wp_bind, wp_modify]
    refine wp_mono ih ?_
    intro _ t filled
    obtain ⟨m, v, rfl, own⟩ := filled
    refine ⟨m, v, rfl, fun x changed => ?_⟩
    by_cases here : m x = Function.update s.machine.memory (p + i) (s.val.setWidth 8) x
    · rw [here] at changed
      have at_p : x = p + i := by
        by_contra away
        exact changed (Function.update_of_ne away _ _)
      omega
    · have within := own x here
      push_cast at within ⊢
      omega

theorem check_spec {rhs : List (BitVec 8)} (same : ∀ j, i ≤ j → j < i + left → s.machine.memory (p + j) = rhs.getD j 0) :
    wp (check p rhs i left) (fun _ t => t = s) exc s := by
  induction left generalizing i with
  | zero => rfl
  | succ left ih =>
    simp only [check, wp_bind, wp_get, same i (le_refl i) (by omega), ne_eq, not_true_eq_false, ↓reduceIte]
    exact ih fun j low high => same j (by omega) (by omega)

theorem wp_call {α : Type} {x : C α} {prepare : Machine → Machine} {a : α} {u : Machine} {post : α → State → Prop}
    (ran : x.run (prepare s.machine) = .ok (a, u)) (h : post a { s with machine := u }) : wp (call x prepare) post exc s := by
  simpa [call, ran] using h

theorem wp_setRequest {reqId : Nat} {f : Mem → Mem} {post : Unit → State → Prop}
    (h : post () { s with requests := Function.update s.requests reqId (f (s.requests reqId)) }) :
    wp (setRequest reqId f) post exc s := h

end Eecs343.Kma.Harness
