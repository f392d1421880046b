import Mathlib.Algebra.Order.Ring.Int
import Mathlib.Logic.Function.Basic
import Eecs343.Base.Prog

namespace Eecs343.Server.Seats

open Prog

inductive SeatState where
  | available
  | pending
  | occupied
  deriving DecidableEq

def SeatState.toChar : SeatState → Char
  | available => 'A'
  | pending => 'P'
  | occupied => 'O'

structure Seat where
  id : Int
  customerId : Int
  state : SeatState
  deriving DecidableEq

/-- `standbyL`. -/
structure Standby where
  customerId : Int
  next : Option Nat

def standbySize : Int := 8

/-- The globals of `seats.c` and what they point to. A seat's address is its place in the list,
    whose links never change after `load_seats`; `nodes` is the heap of the standby list.
    `listed` and `served` record the customers that entered the list and that got a seat from it. -/
structure Store where
  numberOfSeats : Nat
  seats : Nat → Seat
  locked : Nat → Bool
  semaphore : Int
  head : Option Nat
  standbyLength : Int
  nodes : Nat → Standby
  allocated : Nat
  listed : List Int
  served : List Int

def loadSeats (numberOfSeats : Nat) : Store where
  numberOfSeats
  seats := fun i => ⟨i, -1, .available⟩
  locked := fun _ => false
  semaphore := 1
  head := none
  standbyLength := 0
  nodes := fun _ => ⟨0, none⟩
  allocated := 0
  listed := []
  served := []

/-- What a handler leaves in `buf`. -/
inductive Reply where
  | confirm (id : Int) (state : SeatState)
  | unavailable
  | confirmed (id : Int) (state : SeatState)
  | cancelled (id : Int) (state : SeatState)
  | denied
  | noPending
  | requestedNotFound
  | notFound
  /-- `list_seats` has filled the buffer. -/
  | listing (buf : Nat → Char)
  /-- No `snprintf` was reached. -/
  | unwritten

/-- The text printed into `buf`. -/
def Reply.text : Reply → Option String
  | confirm id state => some ("Confirm seat: " ++ toString id ++ " " ++ state.toChar.toString ++ " ?\n\n")
  | unavailable => some "Seat unavailable\n\n"
  | confirmed id state => some ("Seat confirmed: " ++ toString id ++ " " ++ state.toChar.toString ++ "\n\n")
  | cancelled id state => some ("Seat request cancelled: " ++ toString id ++ " " ++ state.toChar.toString ++ "\n\n")
  | denied => some "Permission denied - seat held by another user\n\n"
  | noPending => some "No pending request\n\n"
  | requestedNotFound => some "Requested seat not found\n\n"
  | notFound => some "Seat not found\n\n"
  | listing _ => none
  | unwritten => none

namespace Store

variable (s : Store)

def seatHeader : Option Nat := if 0 < s.numberOfSeats then some 0 else none

/-- `curr->next`. -/
def nextSeat (curr : Nat) : Option Nat := if curr + 1 < s.numberOfSeats then some (curr + 1) else none

def setState (curr : Nat) (state : SeatState) : Store :=
  { s with seats := Function.update s.seats curr { s.seats curr with state } }

def setCustomer (curr : Nat) (customerId : Int) : Store :=
  { s with seats := Function.update s.seats curr { s.seats curr with customerId } }

def setLocked (curr : Nat) (locked : Bool) : Store :=
  { s with locked := Function.update s.locked curr locked }

def setNode (node : Nat) (content : Standby) : Store :=
  { s with nodes := Function.update s.nodes node content }

end Store

abbrev Op := Prog Store

def semWait : Op Unit := await (fun s => 0 < s.semaphore) fun s => { s with semaphore := s.semaphore - 1 }

def semPost : Op Unit := write fun s => { s with semaphore := s.semaphore + 1 }

def lock (curr : Nat) : Op Unit := await (fun s => s.locked curr = false) fun s => s.setLocked curr true

def unlock (curr : Nat) : Op Unit := write fun s => s.setLocked curr false

def malloc : Op Nat := access (fun s => some (s.allocated, { s with allocated := s.allocated + 1 })) .done

/-- One round of `while (curr != NULL) { if (curr->id == seat_id) .. curr = curr->next; }`. -/
def searchRound (seatId : Int) : Option Nat → Op (Option Nat ⊕ Option Nat)
  | none => pure (.inr none)
  | some curr => do
    let id ← read fun s => (s.seats curr).id
    if id = seatId then pure (.inr (some curr))
    else do
      let next ← read fun s => s.nextSeat curr
      pure (.inl next)

def withSeat (seatId : Int) (found : Nat → Op Reply) (missing : Op Reply) : Op Reply := do
  let header ← read Store.seatHeader
  loop (searchRound seatId) header fun stopped => match stopped with
    | none => missing
    | some curr => found curr

/-- `curr->state == PENDING && curr->customer_id == customer_id`. -/
def pendingFor (curr : Nat) (customerId : Int) : Op Bool := do
  let state ← read fun s => (s.seats curr).state
  if state = .pending then do
    let holder ← read fun s => (s.seats curr).customerId
    pure (decide (holder = customerId))
  else pure false

/-- `snprintf(buf, bufsize, .., curr->id, seat_state_to_char(curr->state))`. -/
def announce (curr : Nat) (reply : Int → SeatState → Reply) : Op Reply := do
  let id ← read fun s => (s.seats curr).id
  let state ← read fun s => (s.seats curr).state
  pure (reply id state)

/-- One round of `while (iter->next != NULL) iter = iter->next;`. -/
def tailRound (iter : Option Nat) : Op (Option Nat ⊕ Nat) := do
  let node ← deref iter
  let next ← read fun s => (s.nodes node).next
  match next with
  | none => pure (.inr node)
  | some _ => do
    let iter ← read fun s => (s.nodes node).next
    pure (.inl iter)

/-- The protected part of `view_seat`: a new node behind the last one. -/
def addStandby (customerId : Int) : Op Unit := do
  semWait
  let newStandby ← malloc
  write fun s => s.setNode newStandby { s.nodes newStandby with customerId }
  write fun s => s.setNode newStandby { s.nodes newStandby with next := none }
  let iter ← read Store.head
  let length ← read Store.standbyLength
  if length = 0 then
    write fun s => { s with head := some newStandby, listed := s.listed ++ [customerId] }
  else do
    let last ← loop tailRound iter pure
    write fun s =>
      { s.setNode last { s.nodes last with next := some newStandby } with listed := s.listed ++ [customerId] }
  let length ← read Store.standbyLength
  write fun s => { s with standbyLength := length + 1 }
  semPost

def grantSeat (curr : Nat) (customerId : Int) : Op Reply := do
  let reply ← announce curr .confirm
  write fun s => s.setState curr .pending
  write fun s => s.setCustomer curr customerId
  pure reply

def refuseSeat (customerId : Int) : Op Reply := do
  let length ← read Store.standbyLength
  if length ≠ standbySize then do
    addStandby customerId
    pure .unavailable
  else pure .unavailable

def viewSeat (seatId customerId : Int) : Op Reply :=
  withSeat seatId
    (fun curr => do
      let state ← read fun s => (s.seats curr).state
      let free ← if state = .available then pure true else pendingFor curr customerId
      if free then grantSeat curr customerId else refuseSeat customerId)
    (pure .requestedNotFound)

/-- The two refusals that `confirm_seat` and `cancel` share. -/
def refuse (curr : Nat) (customerId : Int) : Op Reply := do
  let holder ← read fun s => (s.seats curr).customerId
  if holder ≠ customerId then pure .denied
  else do
    let state ← read fun s => (s.seats curr).state
    if state ≠ .pending then pure .noPending else pure .unwritten

def confirmSeat (seatId customerId : Int) : Op Reply :=
  withSeat seatId
    (fun curr => do
      lock curr
      let mine ← pendingFor curr customerId
      let reply ←
        if mine then do
          let reply ← announce curr .confirmed
          write fun s => s.setState curr .occupied
          pure reply
        else refuse curr customerId
      unlock curr
      pure reply)
    (pure .requestedNotFound)

/-- The protected part of `cancel`: the seat goes to the head of the standby list. -/
def serveStandby (curr : Nat) : Op Unit := do
  semWait
  let first ← read Store.head
  let node ← deref first
  let customerId ← read fun s => (s.nodes node).customerId
  write fun s => { s.setCustomer curr customerId with served := s.served ++ [customerId] }
  let first ← read Store.head
  let node ← deref first
  let next ← read fun s => (s.nodes node).next
  write fun s => { s with head := next }
  write fun s => s.setState curr .occupied
  let length ← read Store.standbyLength
  write fun s => { s with standbyLength := length - 1 }
  semPost

def cancel (seatId customerId : Int) : Op Reply :=
  withSeat seatId
    (fun curr => do
      lock curr
      let mine ← pendingFor curr customerId
      let reply ←
        if mine then do
          let reply ← announce curr .cancelled
          let length ← read Store.standbyLength
          if 0 < length then serveStandby curr else write fun s => s.setState curr .available
          pure reply
        else refuse curr customerId
      unlock curr
      pure reply)
    (pure .notFound)

/-- `snprintf(buf + offset, size, text)`: an `int` size becomes a `size_t`. -/
def snprintf (buf : Nat → Char) (offset : Nat) (size : Int) (text : String) : Nat → Char :=
  let room := (size % 2 ^ 64).toNat
  let shown := text.toList.take (room - 1)
  fun i =>
    if room = 0 ∨ i < offset then buf i
    else match shown[i - offset]? with
      | some c => c
      | none => if i - offset = shown.length then Char.ofNat 0 else buf i

/-- `"%d %c,"`. -/
def entry (id : Int) (state : SeatState) : String := toString id ++ " " ++ state.toChar.toString ++ ","

def listRound (bufsize : Int) : Option Nat × Nat × (Nat → Char) → Op ((Option Nat × Nat × (Nat → Char)) ⊕ Nat × (Nat → Char))
  | (none, index, buf) => pure (.inr (index, buf))
  | (some curr, index, buf) =>
    if (index : Int) < (bufsize + 6) % 2 ^ 64 then do
      let id ← read fun s => (s.seats curr).id
      let state ← read fun s => (s.seats curr).state
      let buf := snprintf buf index (bufsize - index) (entry id state)
      let next ← read fun s => s.nextSeat curr
      pure (.inl (next, index + (entry id state).length, buf))
    else pure (.inr (index, buf))

def listSeats (buf : Nat → Char) (bufsize : Int) : Op Reply := do
  let header ← read Store.seatHeader
  loop (listRound bufsize) (header, 0, buf) fun (index, buf) =>
    if 0 < index then pure (.listing (snprintf buf (index - 1) (bufsize - index - 1) "\n"))
    else pure (.listing (snprintf buf 0 bufsize "No seats not found\n\n"))

end Eecs343.Server.Seats
