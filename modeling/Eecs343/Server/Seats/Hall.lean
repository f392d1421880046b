import Mathlib.Data.List.Nodup
import Eecs343.Base.Linked
import Eecs343.Server.Seats.Model

namespace Eecs343.Server.Seats

/-- What the server is for: seats with their holders, and the customers who wait, first come first.
    `listed` are all who ever waited, `served` those who got a seat for it. -/
structure Hall where
  numberOfSeats : Nat
  seats : Nat → Seat
  waiting : List Int
  listed : List Int
  served : List Int

namespace Hall

variable (h : Hall)

def find (seatId : Int) : Option Nat :=
  if 0 ≤ seatId ∧ seatId < h.numberOfSeats then some seatId.toNat else none

/-- Seat `i` waits for the decision of `customerId`. -/
def PendingFor (i : Nat) (customerId : Int) : Prop :=
  (h.seats i).state = .pending ∧ (h.seats i).customerId = customerId

instance (i : Nat) (customerId : Int) : Decidable (h.PendingFor i customerId) :=
  inferInstanceAs (Decidable (_ ∧ _))

def put (i : Nat) (customerId : Int) (state : SeatState) : Hall :=
  { h with seats := Function.update h.seats i ⟨(h.seats i).id, customerId, state⟩ }

def push (customerId : Int) : Hall :=
  { h with waiting := h.waiting ++ [customerId], listed := h.listed ++ [customerId] }

def enlist (customerId : Int) : Hall := if h.waiting.length < 8 then h.push customerId else h

def viewSeat (seatId customerId : Int) : Reply × Hall :=
  match h.find seatId with
  | none => (.requestedNotFound, h)
  | some i =>
    if (h.seats i).state = .available ∨ h.PendingFor i customerId then
      (.confirm (h.seats i).id (h.seats i).state, h.put i customerId .pending)
    else (.unavailable, h.enlist customerId)

def refuse (i : Nat) (customerId : Int) : Reply :=
  if (h.seats i).customerId ≠ customerId then .denied else .noPending

def confirmSeat (seatId customerId : Int) : Reply × Hall :=
  match h.find seatId with
  | none => (.requestedNotFound, h)
  | some i =>
    if h.PendingFor i customerId then
      (.confirmed (h.seats i).id (h.seats i).state, h.put i (h.seats i).customerId .occupied)
    else (h.refuse i customerId, h)

def serve (i : Nat) (customerId : Int) (rest : List Int) : Hall :=
  { h.put i customerId .occupied with waiting := rest, served := h.served ++ [customerId] }

/-- The seat goes to the customer who has waited longest, or back to everybody. -/
def release (i : Nat) : Hall :=
  match h.waiting with
  | [] => h.put i (h.seats i).customerId .available
  | customerId :: rest => h.serve i customerId rest

def cancel (seatId customerId : Int) : Reply × Hall :=
  match h.find seatId with
  | none => (.notFound, h)
  | some i =>
    if h.PendingFor i customerId then (.cancelled (h.seats i).id (h.seats i).state, h.release i)
    else (h.refuse i customerId, h)

end Hall

/-- `iter->next`. -/
def Store.follow (s : Store) (iter : Option Nat) : Option Nat := iter.bind fun node => (s.nodes node).next

/-- `nodes` is the standby list: all that can be reached from `head`, as many as the counter says. -/
structure Waits (s : Store) (nodes : List Nat) : Prop where
  path : Linked.Path s.follow s.head (nodes.map some) none
  nodup : nodes.Nodup
  old : ∀ node ∈ nodes, node < s.allocated
  counted : s.standbyLength = nodes.length
  bounded : nodes.length ≤ 8

/-- Between two calls the store shows the hall `h`. -/
structure Shows (s : Store) (h : Hall) : Prop where
  count : s.numberOfSeats = h.numberOfSeats
  seats : s.seats = h.seats
  ids : ∀ i < h.numberOfSeats, (h.seats i).id = i
  unlocked : ∀ i, s.locked i = false
  semaphore : s.semaphore = 1
  waits : ∃ nodes, Waits s nodes ∧ nodes.map (fun node => (s.nodes node).customerId) = h.waiting
  listed : s.listed = h.listed
  served : s.served = h.served
  accounted : h.served ++ h.waiting = h.listed

/-- The hall as `load_seats` leaves it. -/
def Hall.empty (numberOfSeats : Nat) : Hall := ⟨numberOfSeats, fun i => ⟨i, -1, .available⟩, [], [], []⟩

theorem shows_loadSeats (numberOfSeats : Nat) : Shows (loadSeats numberOfSeats) (Hall.empty numberOfSeats) where
  count := rfl
  seats := rfl
  ids := fun _ _ => rfl
  unlocked := fun _ => rfl
  semaphore := rfl
  waits := ⟨[], ⟨rfl, List.nodup_nil, by simp, rfl, by simp⟩, rfl⟩
  listed := rfl
  served := rfl
  accounted := rfl

end Eecs343.Server.Seats
