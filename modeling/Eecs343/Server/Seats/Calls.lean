import Eecs343.Base.Transition
import Eecs343.Server.Seats.Refine

namespace Eecs343.Server.Seats

open Prog Transition

/-- A call of one of the operations on a seat. -/
inductive Call where
  | viewSeat (seatId customerId : Int)
  | confirmSeat (seatId customerId : Int)
  | cancel (seatId customerId : Int)

def Call.customerId : Call → Int
  | viewSeat _ customerId | confirmSeat _ customerId | cancel _ customerId => customerId

def Call.program : Call → Op Reply
  | viewSeat seatId customerId => Seats.viewSeat seatId customerId
  | confirmSeat seatId customerId => Seats.confirmSeat seatId customerId
  | cancel seatId customerId => Seats.cancel seatId customerId

def Step (s : Store) (made : Call × Reply) (t : Store) : Prop := Runs made.1.program s made.2 t

def Hall.answer (h : Hall) : Call → Reply × Hall
  | .viewSeat seatId customerId => h.viewSeat seatId customerId
  | .confirmSeat seatId customerId => h.confirmSeat seatId customerId
  | .cancel seatId customerId => h.cancel seatId customerId

theorem call_refines {s : Store} {h : Hall} (shows : Shows s h) (call : Call) :
    Ends call.program s fun reply t => reply = (h.answer call).1 ∧ Shows t (h.answer call).2 := by
  cases call with
  | viewSeat seatId customerId => exact viewSeat_refines shows seatId customerId
  | confirmSeat seatId customerId => exact confirmSeat_refines shows seatId customerId
  | cancel seatId customerId => exact cancel_refines shows seatId customerId

/-- The store shows some hall with `n` seats. -/
def Consistent (n : Nat) (s : Store) : Prop := ∃ h, Shows s h ∧ h.numberOfSeats = n

theorem consistent_loadSeats (n : Nat) : Consistent n (loadSeats n) := ⟨Hall.empty n, shows_loadSeats n, rfl⟩

theorem answer_numberOfSeats (h : Hall) (call : Call) : (h.answer call).2.numberOfSeats = h.numberOfSeats := by
  cases call with
  | viewSeat seatId customerId =>
    simp only [Hall.answer, Hall.viewSeat, Hall.enlist]
    split
    · rfl
    · split
      · rfl
      · split <;> rfl
  | confirmSeat seatId customerId =>
    simp only [Hall.answer, Hall.confirmSeat]
    split
    · rfl
    · split <;> rfl
  | cancel seatId customerId =>
    simp only [Hall.answer, Hall.cancel, Hall.release]
    split
    · rfl
    · split
      · cases h.waiting <;> rfl
      · rfl

theorem Shows.step {s t : Store} {h : Hall} {made : Call × Reply} (shows : Shows s h) (step : Step s made t) :
    made.2 = (h.answer made.1).1 ∧ Shows t (h.answer made.1).2 := (call_refines shows made.1).post step

theorem Consistent.step {n : Nat} {s t : Store} {made : Call × Reply} (consistent : Consistent n s)
    (step : Step s made t) : Consistent n t := by
  obtain ⟨h, shows, count⟩ := consistent
  exact ⟨_, (shows.step step).2, by rw [answer_numberOfSeats, count]⟩

end Eecs343.Server.Seats
