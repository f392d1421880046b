import Eecs343.Server.Seats.Calls
import Eecs343.Server.ThreadPool.Serial

namespace Eecs343.Server

open Prog Transition Seats ThreadPool

/-- What a connection asks for. -/
inductive Request where
  /-- `buf` is what the buffer holds before. -/
  | listSeats (buf : Nat → Char)
  | seat (call : Call)
  /-- A page, which is sent without a look at the seats. -/
  | page

def bufsize : Int := 1024

/-- The part of `handle_connection` that works on the seats. -/
def handleConnection : Request → Op Reply
  | .listSeats buf => Seats.listSeats buf bufsize
  | .seat call => call.program
  | .page => pure .unwritten

/-- While the queue never fills up, one worker at a time handles a request, and whenever none does the
    seats, the standby list and the replies are those of the requests handled one after the other, which
    are no others. -/
theorem requests_serialised {queueSize numThreads n : Nat} {queue : Nat → Request}
    {steps : List (Serving Request Store Reply × Move Request)} {s : Serving Request Store Reply}
    (run : Run (serving handleConnection).Step (.start queueSize numThreads queue (loadSeats n)) steps s)
    (fits : ∀ t ∈ visited steps s, t.pool.queued < t.pool.pool.taskQueueSizeLimit) :
    ∀ t ∈ visited steps s, Serialised handleConnection (loadSeats n) t ∧
      ((∀ i request, ¬ Calling t.pool i request) →
        Prog.Serial handleConnection (loadSeats n) t.pool.handed t.replies t.store ∧ ∀ replies u,
          Prog.Serial handleConnection (loadSeats n) t.pool.handed replies u → t.replies = replies ∧ t.store = u) := by
  intro t member
  have serialised := serving_serialised run fits t member
  refine ⟨serialised, ?_⟩
  intro nobody
  cases serialised.progress with
  | idle _ reached => exact ⟨reached, fun replies u serial => reached.unique serial⟩
  | busy calling => exact (nobody _ _ calling).elim

/-- What worker `i` does for one task, whose call takes some accesses. -/
def handles (i accesses : Nat) : List (Move Request) :=
  [.pool (.release i), .pool (.finish i)] ++ List.replicate accesses (.run i) ++
    [.pool (.take i), .pool (.check i), .pool (.test i), .pool (.acquire i)]

/-- Two customers for the one seat. -/
def viewTwice : List (Move Request) :=
  handles 1 17 ++ handles 0 8 ++
    [.pool (.addTask (.seat (.viewSeat 0 8)) none), .pool (.addTask (.seat (.viewSeat 0 7)) none)]

def twoWorkers : Serving Request Store Reply := .start 20 2 (fun _ => .page) (loadSeats 1)

theorem viewTwice_admitted : (serving handleConnection).Admits twoWorkers viewTwice := by
  repeat' apply And.intro
  all_goals first
    | trivial
    | rfl
    | decide
    | exact ⟨_, by decide, rfl⟩
    | exact ⟨_, rfl⟩
    | exact fun _ _ => by simp [twoWorkers, Serving.start, poolCreate, Transition.System.final, serving, Serving.next,
        ThreadPool.next, State.enqueue, State.wakeOne]

theorem serialised_view_twice :
    Run (serving handleConnection).Step twoWorkers ((serving handleConnection).trace twoWorkers viewTwice)
        ((serving handleConnection).final twoWorkers viewTwice) ∧
      ((serving handleConnection).final twoWorkers viewTwice).replies = [.confirm 0 .available, .unavailable] ∧
      Serialised handleConnection (loadSeats 1) ((serving handleConnection).final twoWorkers viewTwice) := by
  have run := (serving handleConnection).run_of_admits viewTwice_admitted
  refine ⟨run, rfl, ?_⟩
  exact (requests_serialised run (by decide) _ (last_mem_visited _ _)).1

end Eecs343.Server
