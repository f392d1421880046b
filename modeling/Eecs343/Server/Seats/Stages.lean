import Eecs343.Base.Interleave
import Eecs343.Server.Seats.Truthful

namespace Eecs343.Server.Seats

open Prog Interleave

/-- How far a request has come: what it does in its next step, with the local variables it has by then. -/
inductive Stage where
  | begin (call : Call)
  /-- `view_seat` writes the seat it has found free. -/
  | grant (curr : Nat) (customerId : Int)
  /-- It tests `standby_length`, and then puts the customer on the list. -/
  | test (customerId : Int)
  | enlist (customerId : Int)
  | enqueue (customerId : Int)
  | enlisted
  /-- `confirm_seat` and `cancel` lock the seat. -/
  | lock (decision : Decision) (curr : Nat) (customerId : Int)
  | decide (decision : Decision) (curr : Nat) (customerId : Int)
  /-- `cancel` tests `standby_length`, and then serves the list or frees the seat. -/
  | release (curr : Nat) (reply : Reply)
  | serve (curr : Nat) (reply : Reply)
  | dequeue (curr : Nat) (reply : Reply)
  | served (curr : Nat) (reply : Reply)
  | free (curr : Nat) (reply : Reply)
  | unlock (curr : Nat) (reply : Reply)
  | done (reply : Reply)

def search (seatId : Int) : Op (Option Nat) := do
  let header ← read Store.seatHeader
  loop (searchRound seatId) header pure

/-- An operation up to the end of its search. -/
def start (seatId : Int) (missing : Reply) (found : Nat → Op Stage) : Op Stage := do
  match ← search seatId with
  | none => pure (.done missing)
  | some curr => found curr

/-- The test of the seat's state in `view_seat`. -/
def look (curr : Nat) (customerId : Int) : Op Stage := do
  let state ← read fun s => (s.seats curr).state
  let free ← if state = .available then pure true else pendingFor curr customerId
  pure (if free then .grant curr customerId else .test customerId)

/-- What a decision does under the lock of the seat, up to its next test. -/
def decided (curr : Nat) (customerId : Int) (decision : Decision) : Op Stage := do
  let mine ← pendingFor curr customerId
  if mine then match decision with
    | .confirm => do
      let reply ← announce curr .confirmed
      write fun s => s.setState curr .occupied
      pure (.unlock curr reply)
    | .cancel => do
      let reply ← announce curr .cancelled
      pure (.release curr reply)
  else do
    let reply ← refuse curr customerId
    pure (.unlock curr reply)

/-- The next atomic step of a request. -/
def block : Stage → Option (Op Stage)
  | .begin (.viewSeat seatId customerId) => some (start seatId .requestedNotFound fun curr => look curr customerId)
  | .begin (.confirmSeat seatId customerId) =>
    some (start seatId .requestedNotFound fun curr => pure (.lock .confirm curr customerId))
  | .begin (.cancel seatId customerId) => some (start seatId .notFound fun curr => pure (.lock .cancel curr customerId))
  | .grant curr customerId => some do
    let reply ← grantSeat curr customerId
    pure (.done reply)
  | .test customerId => some do
    let length ← read Store.standbyLength
    pure (if length ≠ standbySize then .enlist customerId else .done .unavailable)
  | .enlist customerId => some do
    semWait
    pure (.enqueue customerId)
  | .enqueue customerId => some do
    enqueue customerId
    pure .enlisted
  | .enlisted => some do
    semPost
    pure (.done .unavailable)
  | .lock decision curr customerId => some do
    lock curr
    pure (.decide decision curr customerId)
  | .decide decision curr customerId => some (decided curr customerId decision)
  | .release curr reply => some do
    let length ← read Store.standbyLength
    pure (if 0 < length then .serve curr reply else .free curr reply)
  | .serve curr reply => some do
    semWait
    pure (.dequeue curr reply)
  | .dequeue curr reply => some do
    dequeue curr
    pure (.served curr reply)
  | .served curr reply => some do
    semPost
    pure (.unlock curr reply)
  | .free curr reply => some do
    write fun s => s.setState curr .available
    pure (.unlock curr reply)
  | .unlock curr reply => some do
    unlock curr
    pure (.done reply)
  | .done _ => none

/-- What `confirm_seat` and `cancel` do once they have the lock. -/
def decisionBody (decision : Decision) (curr : Nat) (customerId : Int) : Op Reply := do
  let mine ← pendingFor curr customerId
  let reply ←
    if mine then match decision with
      | .confirm => do
        let reply ← announce curr .confirmed
        write fun s => s.setState curr .occupied
        pure reply
      | .cancel => do
        let reply ← announce curr .cancelled
        let length ← read Store.standbyLength
        if 0 < length then serveStandby curr else write fun s => s.setState curr .available
        pure reply
    else refuse curr customerId
  unlock curr
  pure reply

/-- What a request still does. -/
def Stage.program : Stage → Op Reply
  | begin call => call.program
  | grant curr customerId => grantSeat curr customerId
  | test customerId => refuseSeat customerId
  | enlist customerId => do
    addStandby customerId
    pure .unavailable
  | enqueue customerId => do
    Seats.enqueue customerId
    semPost
    pure .unavailable
  | enlisted => do
    semPost
    pure .unavailable
  | lock decision curr customerId => do
    Seats.lock curr
    decisionBody decision curr customerId
  | decide decision curr customerId => decisionBody decision curr customerId
  | release curr reply => do
    let length ← read Store.standbyLength
    if 0 < length then serveStandby curr else write fun s => s.setState curr .available
    Seats.unlock curr
    pure reply
  | serve curr reply => do
    serveStandby curr
    Seats.unlock curr
    pure reply
  | dequeue curr reply => do
    Seats.dequeue curr
    semPost
    Seats.unlock curr
    pure reply
  | served curr reply => do
    semPost
    Seats.unlock curr
    pure reply
  | free curr reply => do
    write fun s => s.setState curr .available
    Seats.unlock curr
    pure reply
  | unlock curr reply => do
    Seats.unlock curr
    pure reply
  | done reply => pure reply

theorem start_program {seatId : Int} {missing : Reply} {next : Nat → Op Stage} {found : Nat → Op Reply}
    (goes : ∀ curr, found curr = (next curr).bind Stage.program) :
    withSeat seatId found (pure missing) = (start seatId missing next).bind Stage.program := by
  change (search seatId).bind _ = _
  rw [start, bind_eq, bind_assoc]
  congr 1
  funext stopped
  cases stopped with
  | none => rfl
  | some curr => exact goes curr

theorem look_program (curr : Nat) (customerId : Int) :
    (do
      let state ← read fun s => (s.seats curr).state
      let free ← if state = .available then pure true else pendingFor curr customerId
      if free then grantSeat curr customerId else refuseSeat customerId) = (look curr customerId).bind Stage.program := by
  simp only [look, bind_eq, pure_eq, bind_assoc, done_bind]
  congr 1
  funext state
  split
  · rfl
  · rw [bind_assoc]
    congr 1
    funext free
    cases free <;> rfl

theorem decided_program (curr : Nat) (customerId : Int) (decision : Decision) :
    decisionBody decision curr customerId = (decided curr customerId decision).bind Stage.program := by
  simp only [decisionBody, decided, bind_eq, pure_eq, bind_assoc]
  congr 1
  funext mine
  simp only [ite_bind]
  split
  · cases decision with
    | confirm => rfl
    | cancel => simp only [bind_assoc, done_bind, Stage.program, bind_eq]; rfl
  · simp only [bind_assoc, done_bind, Stage.program, bind_eq]; rfl

/-- Step by step a request does what its operation does. -/
theorem composes_block : Composes block Stage.program := by
  intro place p here
  cases place with
  | begin call =>
    cases call with
    | viewSeat seatId customerId =>
      cases here
      exact start_program fun curr => look_program curr customerId
    | confirmSeat seatId customerId =>
      cases here
      exact start_program fun _ => rfl
    | cancel seatId customerId =>
      cases here
      exact start_program fun _ => rfl
  | grant =>
    cases here
    simp only [Stage.program, bind_eq, pure_eq, bind_assoc, done_bind, bind_done]
  | test customerId =>
    cases here
    simp only [Stage.program, refuseSeat, bind_eq, pure_eq, bind_assoc, done_bind]
    congr 1
    funext length
    split <;> rfl
  | enlist =>
    cases here
    simp only [Stage.program, addStandby_eq, bind_eq, pure_eq, bind_assoc, done_bind]
  | enqueue =>
    cases here
    simp only [Stage.program, bind_eq, pure_eq, bind_assoc, done_bind]
  | enlisted =>
    cases here
    rfl
  | lock =>
    cases here
    rfl
  | decide decision curr customerId =>
    cases here
    exact decided_program curr customerId decision
  | release curr reply =>
    cases here
    simp only [Stage.program, bind_eq, pure_eq, bind_assoc, done_bind]
    congr 1
    funext length
    split <;> rfl
  | serve =>
    cases here
    simp only [Stage.program, serveStandby_eq, bind_eq, pure_eq, bind_assoc, done_bind]
  | dequeue =>
    cases here
    simp only [Stage.program, bind_eq, pure_eq, bind_assoc, done_bind]
  | served =>
    cases here
    rfl
  | free =>
    cases here
    rfl
  | unlock =>
    cases here
    rfl
  | done => cases here

theorem request_alone {ι : Type} [DecidableEq ι] {block : Stage → Option (Op Stage)}
    (composes : Composes block Stage.program)
    {x y : Store × (ι → Stage)} {i : ι} {steps : List ((Store × (ι → Stage)) × ι)} {call : Call} {reply : Reply}
    (run : Transition.Run (Interleave.Step block) x steps y) (alone : ∀ taken ∈ steps, taken.2 = i)
    (begins : x.2 i = .begin call) (replies : y.2 i = .done reply) : Runs call.program x.1 reply y.1 := by
  have ends : Runs (y.2 i).program y.1 reply y.1 := by
    rw [replies]
    exact runs_done.mpr ⟨rfl, rfl⟩
  have whole := composes.alone run alone ends
  rwa [begins] at whole

/-- All requests at their begin, on a hall of `n` seats. -/
def loaded {ι : Type} (n : Nat) (calls : ι → Call) : Store × (ι → Stage) := (loadSeats n, fun i => .begin (calls i))

section

variable {s t : Store} {next : Stage}

theorem ends_searching (seatId : Int) (left curr : Nat) (reached : left + curr = s.numberOfSeats) :
    Ends (loop (searchRound seatId) (if curr < s.numberOfSeats then some curr else none) pure) s fun _ t => t = s := by
  induction left generalizing curr with
  | zero =>
    rw [if_neg (by omega), ends_loop]
    simp [searchRound]
  | succ left ih =>
    rw [if_pos (by omega), ends_loop]
    simp only [searchRound, ends_bind, ends_read, ends_ite, ends_pure, again_inr, again_inl]
    split
    · trivial
    · exact ih (curr + 1) (by omega)

theorem runs_start {seatId : Int} {missing : Reply} {found : Nat → Op Stage}
    (runs : Runs (start seatId missing found) s next t) :
    next = .done missing ∧ t = s ∨ ∃ curr, Runs (found curr) s next t := by
  obtain ⟨stopped, u, searched, rest⟩ := runs.of_bind
  have ends : Ends (search seatId) s fun _ t => t = s := by
    simp only [search, ends_bind, ends_read]
    exact ends_searching seatId s.numberOfSeats 0 rfl
  obtain rfl : u = s := ends.post searched
  cases stopped with
  | none =>
    obtain ⟨rfl, rfl⟩ := runs_done.mp rest
    exact .inl ⟨rfl, rfl⟩
  | some curr => exact .inr ⟨curr, rest⟩

theorem runs_look {curr : Nat} {customerId : Int} (runs : Runs (look curr customerId) s next t) :
    (next = .grant curr customerId ∨ next = .test customerId) ∧ t = s := by
  have ends := runs.ends
  simp only [look, ends_bind, ends_read, ends_ite, ends_pure, ends_pendingFor] at ends
  split at ends
  · obtain ⟨rfl, rfl⟩ := ends
    exact ⟨.inl rfl, rfl⟩
  · obtain ⟨rfl, rfl⟩ := ends
    split
    · exact ⟨.inl rfl, rfl⟩
    · exact ⟨.inr rfl, rfl⟩

end

end Eecs343.Server.Seats
