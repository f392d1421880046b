import Eecs343.Base.Scanf
import Eecs343.Kma.PagePool.Backing
import Eecs343.Kma.Run

namespace Eecs343.Kma.Harness

open Bytes Effect

inductive ReqState where
  | free
  | used
  deriving DecidableEq

/-- `mem_t`, with the bytes that `value` points to. -/
structure Mem where
  size : Int
  ptr : Int
  value : List (BitVec 8)
  state : ReqState

def Mem.zero : Mem := ⟨0, 0, [], .free⟩

/-- What `check` prints: the position, and the two bytes found there. -/
structure Mismatch where
  position : Nat
  lhs : BitVec 8
  rhs : BitVec 8

/-- A line of `kma_output.dat`. -/
structure Row where
  index : Nat
  allocBytes : BitVec 32
  totalBytes : Int

/-- How the program ends other than with `pass`: with `error`, which prints its arguments and that the test has
    failed, in an assertion, in the allocator, without memory for the table, or with a number that is not an `int`. -/
inductive Halt where
  | error (message arg : String)
  | assertion
  | kma (stop : Stop)
  | outOfMemory
  | undefined

/-- The variables of the test program, the allocator it tests and what it has printed. -/
structure State where
  machine : Machine
  requests : Nat → Mem
  val : BitVec 32
  anyMismatches : Bool
  currentAllocBytes : BitVec 32
  index : Nat
  stderr : List Mismatch
  allocTrace : List Row

abbrev H (α : Type) := Comp State Halt α

def setRequest (reqId : Nat) (f : Mem → Mem) : H Unit :=
  modify fun s => { s with requests := Function.update s.requests reqId (f (s.requests reqId)) }

/-- A call of the allocator. The `error` of the page allocator is that of the test program. -/
def call {α : Type} (x : C α) (prepare : Machine → Machine) : H α := do
  match x.run (prepare (← get).machine) with
  | .ok (a, t) =>
    modify fun s => { s with machine := t }
    return a
  | .error .allPagesAllocated => throw (.error "error: all pages already allocated" "")
  | .error stop => throw (.kma stop)

/-- The passes of the loop of `fill` from `i` on, `left` of them. -/
def fill (p : Int) : (i left : Nat) → H Unit
  | _, 0 => return ()
  | i, left + 1 => do
    modify fun s => { s with
      machine.memory := Function.update s.machine.memory (p + i) (s.val.setWidth 8)
      val := s.val + 1 }
    fill p (i + 1) left

/-- The passes of the loop of `check`, `lhs` pointing into the memory of the allocator. -/
def check (lhs : Int) (rhs : List (BitVec 8)) : (i left : Nat) → H Unit
  | _, 0 => return ()
  | i, left + 1 => do
    let byte := (← get).machine.memory (lhs + i)
    if byte ≠ rhs.getD i 0 then
      modify fun s => { s with stderr := ⟨i, byte, rhs.getD i 0⟩ :: s.stderr, anyMismatches := true }
    check lhs rhs (i + 1) left

/-- What `bcopy` copies. -/
def bcopy (m : Memory) (p : Int) (n : Nat) : List (BitVec 8) := (List.range n).map fun i : Nat => m (p + i)

section

variable [Target] (A : Allocator) (region : Int → Int)

/-- `kma_malloc`, over a page allocator whose pools are put at `region n` once `n` pages have been requested. -/
def kmaMalloc (size : Int) : H Int := do
  let requested := (← get).machine.numRequested
  call (A.malloc size) (PagePool.supplied (region requested))

def kmaFree (p size : Int) : H Unit := call (A.free p size) id

/-- The size, which is compared as an unsigned long, leaves room for a pointer on a page. -/
def allocable (size : Int) : Bool := size % 256 ^ ptr ≤ 8192 - ptr

def allocate (reqId : Nat) (reqSize : Int) : H Unit := do
  if ((← get).requests reqId).state ≠ .free then throw .assertion
  setRequest reqId fun new => { new with size := reqSize }
  let p ← kmaMalloc A region reqSize
  setRequest reqId fun new => { new with ptr := p }
  if ¬(p ≠ 0 ∧ allocable reqSize ∨ p = 0 ∧ ¬allocable reqSize) then
    throw (.error "got NULL from kma_malloc for alloc'able request" "")
  if p = 0 then return ()
  modify fun s => { s with currentAllocBytes := s.currentAllocBytes + BitVec.ofInt 32 reqSize }
  fill p 0 reqSize.toNat
  let value := bcopy (← get).machine.memory p reqSize.toNat
  setRequest reqId fun new => { new with value := value }
  check p value 0 reqSize.toNat
  setRequest reqId fun new => { new with state := .used }

def deallocate (reqId : Nat) : H Unit := do
  let cur := (← get).requests reqId
  if cur.state ≠ .used then throw .assertion
  if cur.size ≤ 0 then throw .assertion
  check cur.ptr cur.value 0 cur.size.toNat
  kmaFree A cur.ptr cur.size
  modify fun s => { s with currentAllocBytes := s.currentAllocBytes - BitVec.ofInt 32 cur.size }
  setRequest reqId fun cur => { cur with value := [], state := .free }

/-- Reads an `int`. -/
def scanInt (text : List Char) (message : String) : H (Int × List Char) :=
  match Scanf.decimal text with
  | none => throw (.error message "")
  | some (v, rest) => if -2 ^ 31 ≤ v ∧ v < 2 ^ 31 then return (v, rest) else throw .undefined

/-- The two branches of the main loop, and what they leave of the trace. -/
def request (nReq : Int) (text : List Char) : H (List Char) := do
  let reqId ← scanInt text "Not enough arguments to REQUEST"
  let reqSize ← scanInt reqId.2 "Not enough arguments to REQUEST"
  if ¬(0 ≤ reqId.1 ∧ reqId.1 < nReq) then throw .assertion
  allocate A region reqId.1.toNat reqSize.1
  return reqSize.2

def free (nReq : Int) (text : List Char) : H (List Char) := do
  let reqId ← scanInt text "Not enough arguments to FREE"
  if ¬(0 ≤ reqId.1 ∧ reqId.1 < nReq) then throw .assertion
  deallocate A reqId.1.toNat
  return reqId.2

def report : H Unit :=
  modify fun s => { s with
    allocTrace := ⟨s.index, s.currentAllocBytes, s.machine.numInUse * 8192⟩ :: s.allocTrace
    index := s.index + 1 }

/-- The main loop, which takes fewer passes than the trace has characters. -/
def commands (nReq : Int) : Nat → List Char → H Unit
  | 0, _ => return ()
  | passes + 1, text =>
    match Scanf.word 10 text with
    | none => return ()
    | some (command, rest) => do
      let rest ←
        if command = "REQUEST".toList then request A region nReq rest
        else if command = "FREE".toList then free A nReq rest
        else throw (.error "unknown command type:" (String.ofList command))
      report
      commands nReq passes rest

/-- What follows the main loop. -/
def verdict : H Unit := do
  let s ← get
  if s.machine.numRequested ≠ s.machine.numFreed ∨ s.machine.numInUse ≠ 0 then throw (.error "not all pages freed" "")
  if s.anyMismatches then throw (.error "there were memory mismatches" "")

/-- `main` in correctness mode, on a trace file it can open; it returns where it calls `pass`. -/
def main (text : List Char) : H Unit := do
  modify fun s => { s with allocTrace := [⟨0, 0, 0⟩] }
  let nReq ← scanInt text "Couldn't read number of requests at head of file"
  if nReq.1 = 2 ^ 31 - 1 then throw .undefined
  if nReq.1 + 1 < 0 then throw .outOfMemory
  modify fun s => { s with requests := fun _ => .zero }
  commands A region nReq.1 text.length (Scanf.skip nReq.2)
  verdict

end

def start (machine : Machine) : State := ⟨machine, fun _ => .zero, 0, false, 0, 1, [], []⟩

end Eecs343.Kma.Harness
