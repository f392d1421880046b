import Eecs343.Server.Connection.Arguments
import Eecs343.Server.Connection.Dispatch
import Eecs343.Server.Connection.Response
import Eecs343.Server.ThreadPool.Losses

namespace Eecs343.Server

open Prog Transition Seats ThreadPool Connection

/-- `main` with `num_seats` seats, before its first connection: `QUEUE_SIZE` and `MAX_THREADS` are 20. -/
def serverStart (numSeats : Nat) (queue : Nat → Conn) :
    Serving Conn Store Descriptor := .start 20 20 queue (loadSeats numSeats)

/-- The loop of `main` adds the connections it accepts to the pool, whose workers run `handle_connection`. -/
def server (files : Files) : Transition.System (Serving Conn Store Descriptor) (Move Conn) := serving (respond files)

/-- The answers to connections that are dealt with one after the other, and the hall that they leave. -/
def answers (files : Files) (h : Hall) (conns : List Conn) : List (List Char) × Hall :=
  conns.foldl (fun done conn => (done.1 ++ [(answer files done.2 conn.action).1], (answer files done.2 conn.action).2)) ([], h)

section Pool

variable {α σ ρ : Type} {function : α → Prog σ ρ} {queueSize numThreads : Nat} {queue : Nat → α} {store : σ}
  {steps : List (Serving α σ ρ × Move α)} {s : Serving α σ ρ}

def poolSteps : List (Serving α σ ρ × Move α) → List (State α × Action α)
  | [] => []
  | (s, .pool action) :: earlier => (s.pool, action) :: poolSteps earlier
  | (_, .run _) :: earlier => poolSteps earlier

theorem pool_run (run : Run (serving function).Step (.start queueSize numThreads queue store) steps s) :
    Run ThreadPool.Step (poolCreate queueSize numThreads queue) (poolSteps steps) s.pool := by
  induction run with
  | refl => exact .refl
  | @snoc steps s move t before taken ih =>
    cases move with
    | pool action => exact .snoc ih (serving_pool taken)
    | run i =>
      obtain ⟨_, _, _, _, _, _, same, _⟩ := serving_run taken
      rw [same]
      exact ih

/-- Whether or not the queue overflows, the calls run one after the other. -/
theorem progress_run (run : Run (serving function).Step (.start queueSize numThreads queue store) steps s) :
    Owned s.pool ∧ Progress function store s := by
  induction run with
  | refl =>
    refine ⟨poolCreate_owned queueSize numThreads queue, .idle ?_ .nil⟩
    intro i argument calling
    cases calling.2
  | @snoc steps s move t before taken ih =>
    refine ⟨?_, ih.2.step ih.1 taken⟩
    cases move with
    | pool action => exact ih.1.step (serving_pool taken)
    | run i =>
      obtain ⟨_, _, _, _, _, _, same, _⟩ := serving_run taken
      rw [same]
      exact ih.1

end Pool

variable {files : Files} {n : Nat} {queue : Nat → Conn} {h : Hall} {conns : List Conn} {replies : List Descriptor} {t : Store}

theorem answer_seats (action : Connection.Action) : (answer files h action).2.numberOfSeats = h.numberOfSeats := by
  cases action with
  | badRequest => rfl
  | file resource =>
    rw [answer]
    split <;> rfl
  | run operation seatId userId priority =>
    cases operation with
    | listSeats => rfl
    | viewSeat => exact answer_numberOfSeats h (.viewSeat seatId userId)
    | confirm => exact answer_numberOfSeats h (.confirmSeat seatId userId)
    | cancel => exact answer_numberOfSeats h (.cancel seatId userId)

theorem answers_snoc (conn : Conn) : answers files h (conns ++ [conn]) =
    ((answers files h conns).1 ++ [(answer files (answers files h conns).2 conn.action).1],
      (answer files (answers files h conns).2 conn.action).2) := by
  rw [answers, List.foldl_append]
  rfl

theorem answers_seats : (answers files h conns).2.numberOfSeats = h.numberOfSeats := by
  induction conns using List.reverseRecOn with
  | nil => rfl
  | append_singleton conns conn ih => rw [answers_snoc, answer_seats, ih]

/-- What the handlers do one after the other is what the hall answers. -/
theorem serial_answers (listable : Listable n) (sound : ∀ conn ∈ conns, conn.Sound)
    (serial : Prog.Serial (respond files) (loadSeats n) conns replies t) :
    replies.map Descriptor.sent = (answers files (Hall.empty n) conns).1 ∧ (∀ d ∈ replies, d.closed = 1) ∧
      Shows t (answers files (Hall.empty n) conns).2 := by
  induction serial with
  | nil => exact ⟨rfl, by simp, shows_loadSeats n⟩
  | @snoc conns replies s conn d t before runs ih =>
    obtain ⟨sent, closed, shows⟩ := ih fun other member => sound other (List.mem_append_left _ member)
    have here := sound conn (List.mem_append_right _ List.mem_cons_self)
    have seats : (answers files (Hall.empty n) conns).2.numberOfSeats = n := answers_seats
    have fits : Listable (answers files (Hall.empty n) conns).2.numberOfSeats := by
      rw [seats]
      exact listable
    obtain ⟨⟨answered, once⟩, after⟩ := (respond_refines shows fits here).post runs
    rw [answers_snoc]
    refine ⟨?_, ?_, after⟩
    · rw [List.map_append, sent, List.map_singleton, answered]
    · intro other member
      rcases List.mem_append.mp member with earlier | last
      · exact closed other earlier
      · rw [List.mem_singleton.mp last]
        exact once

/-- The connections in `done` have been dealt with, and no other: each was closed once and got the answer of a hall
    that serves them one after the other. -/
structure Answered (files : Files) (numSeats : Nat) (s : Serving Conn Store Descriptor) (done : List Conn) : Prop where
  sent : s.replies.map Descriptor.sent = (answers files (Hall.empty numSeats) done).1
  closed : ∀ d ∈ s.replies, d.closed = 1
  /-- Either the seats are those of the hall, or a worker is busy with the next connection. -/
  reached : s.pool.handed = done ∧ (∀ i conn, ¬ Calling s.pool i conn) ∧ Shows s.store (answers files (Hall.empty numSeats) done).2 ∨
    ∃ i conn, Calling s.pool i conn ∧ s.pool.handed = done ++ [conn]

/-- Whatever the schedule of the workers, and however the kernel cuts what is read and written: the server answers
    connections in the order in which it accepted them, each as one hall would that serves them one after the other,
    and loses none but the twenty that the queue holds each time it overflows. -/
theorem server_answers (listable : Listable n) {steps : List (Serving Conn Store Descriptor × Move Conn)}
    {s : Serving Conn Store Descriptor} (run : Run (server files).Step (serverStart n queue) steps s)
    (sound : ∀ conn ∈ s.pool.added, conn.Sound) :
    (∃ done, Answered files n s done) ∧
      ∃ before, s.pool.added = before ++ s.pool.stored ∧ HandedBut 20 (overflowed (poolSteps steps)) before s.pool.handed := by
  obtain ⟨accounted, limit⟩ := Accounted.run (show 1 ≤ 20 by decide) (pool_run run)
  obtain ⟨before, added, handedBut⟩ := accounted.tasks
  rw [limit] at handedBut
  refine ⟨?_, before, added, handedBut⟩
  have handed : ∀ conn ∈ s.pool.handed, conn.Sound := by
    intro conn member
    rw [added] at sound
    exact sound conn (List.mem_append_left _ (handedBut.sublist.subset member))
  -- the only worker is between two connections, or in the middle of one
  cases (progress_run run).2 with
  | idle nobody serial =>
    obtain ⟨sent, closed, shows⟩ := serial_answers listable handed serial
    exact ⟨s.pool.handed, sent, closed, .inl ⟨rfl, nobody, shows⟩⟩
  | @busy i conn done _ _ calling _ _ last serial _ =>
    rw [last] at handed
    obtain ⟨sent, closed, _⟩ :=
      serial_answers listable (fun other member => handed other (List.mem_append_left _ member)) serial
    exact ⟨done, sent, closed, .inr ⟨i, conn, calling, last⟩⟩

/-- A kernel that does a byte at a time. -/
def byteByByte : Kernel := fun _ size => some (min 1 size)

theorem obliging_byteByByte : byteByByte.Obliging where
  nothing := fun _ => rfl
  something := fun _ size positive => ⟨1, congrArg some (Nat.min_eq_left positive), by decide, positive⟩

/-- The path of a request of customer 7 for seat 0. -/
def seatPath (operation : Operation) : List Char := operation.name ++ "?user=7&seat=0".toList

def seatConn (operation : Operation) : Conn :=
  ⟨⟨requestLine (seatPath operation) "HTTP/1.0".toList ++ "\r\n\r\n".toList, [], 0, 0⟩, byteByByte, byteByByte, fun _ => nul⟩

theorem seatConn_sound (operation : Operation) : (seatConn operation).Sound :=
  ⟨rfl, rfl, obliging_byteByByte, obliging_byteByByte⟩

theorem seatConn_action (operation : Operation) : (seatConn operation).action = .run operation 0 7 0 := by
  have solid : ∀ c ∈ seatPath operation, isSpace c = false := solid_of_any (by cases operation <;> decide)
  have short : (seatPath operation).length ≤ 99 := by cases operation <;> decide
  have seat : parseIntArg (cString (seatPath operation)) "seat=".toList = 0 := by
    rw [parseIntArg_eq]
    cases operation <;> decide +kernel
  have user : parseIntArg (cString (seatPath operation)) "user=".toList = 7 := by
    rw [parseIntArg_eq]
    cases operation <;> decide +kernel
  have priority : parseIntArg (cString (seatPath operation)) "priority=".toList = 0 := by
    rw [parseIntArg_eq]
    cases operation <;> decide +kernel
  rw [Conn.action, seatConn, handleConnection_action _ _ _ solid short]
  simp only [dispatch, seat, user, priority]
  cases operation with
  | listSeats => rw [if_pos (by decide +kernel)]
  | viewSeat => rw [if_neg (by decide +kernel), if_pos (by decide +kernel)]
  | confirm => rw [if_neg (by decide +kernel), if_neg (by decide +kernel), if_pos (by decide +kernel)]
  | cancel =>
    rw [if_neg (by decide +kernel), if_neg (by decide +kernel), if_neg (by decide +kernel), if_pos (by decide +kernel)]

section Pool

variable {α σ ρ : Type} {function : α → Prog σ ρ} {store t₁ t₂ : σ} {r₁ r₂ : ρ}

/-- Two tasks are added, and worker 0 takes the first one. -/
def accepting (first second : α) : List (Move α) :=
  [.pool (.take 0), .pool (.check 0), .pool (.test 0), .pool (.acquire 0), .pool (.addTask second none), .pool (.addTask first none)]

/-- Worker 0 is done, and worker 1 takes the second one. -/
def passing : List (Move α) :=
  [.pool (.take 1), .pool (.check 1), .pool (.test 1), .pool (.acquire 1), .pool (.release 0), .pool (.finish 0)]

def leaving : List (Move α) := [.pool (.release 1), .pool (.finish 1)]

theorem two_calls (queue : Nat → α) (first second : α) (runs₁ : Runs (function first) store r₁ t₁)
    (runs₂ : Runs (function second) t₁ r₂ t₂) :
    ∃ steps s, Run (serving function).Step (.start 20 20 queue store) steps s ∧ s.pool.added = [first, second] ∧
      s.pool.handed = [first, second] ∧ ∀ i argument, ¬ Calling s.pool i argument := by
  have zero : 0 < 20 := by decide
  have one : 1 < 20 := by decide
  have admits₁ : (serving function).Admits (.start 20 20 queue store) (accepting first second) := by
    refine ⟨⟨⟨⟨⟨⟨trivial, rfl, rfl, ?_⟩, rfl, rfl, ?_⟩, ⟨zero, rfl⟩, rfl⟩, zero, rfl⟩, zero, rfl⟩, zero, rfl⟩
    · intro i _
      simp [Serving.start, poolCreate, Transition.System.final]
    · intro i _
      simp [Serving.start, poolCreate, Transition.System.final, serving, Serving.next, ThreadPool.next, State.enqueue, State.wakeOne]
  have run₁ := (serving function).run_of_admits admits₁
  obtain ⟨_, run₂⟩ := run_call run₁ ⟨zero, rfl⟩ rfl runs₁
  have run₃ := @System.run_on _ _ (serving function) _ _ _ passing run₂
    ⟨⟨⟨⟨⟨⟨trivial, ⟨zero, _, rfl⟩, rfl⟩, zero, rfl⟩, ⟨one, rfl⟩, rfl⟩,
      one, rfl⟩, one, rfl⟩, one, rfl⟩
  obtain ⟨_, run₄⟩ := run_call run₃ ⟨one, rfl⟩ rfl runs₂
  have run₅ := @System.run_on _ _ (serving function) _ _ _ leaving run₄
    ⟨⟨trivial, ⟨one, _, rfl⟩, rfl⟩, one, rfl⟩
  refine ⟨_, _, run₅, rfl, rfl, ?_⟩
  -- a worker in a call would own the lock
  rintro i argument ⟨bound, calls⟩
  have owns := (progress_run run₅).1 i bound (by rw [calls]; trivial)
  cases owns

end Pool

/-- Customer 7 views seat 0 on one connection and confirms it on the next. -/
theorem two_connections_answered : ∃ steps s, Run (server fun _ => none).Step (serverStart 20 fun _ => seatConn .cancel) steps s ∧
    s.pool.handed = [seatConn .viewSeat, seatConn .confirm] ∧
    Answered (fun _ => none) 20 s [seatConn .viewSeat, seatConn .confirm] ∧
    s.replies.map Descriptor.sent = [(Response.okResponse ++ "Confirm seat: 0 A ?\n\n").toList,
      (Response.okResponse ++ "Seat confirmed: 0 P\n\n").toList] := by
  let files : Files := fun _ => none
  have listable : Listable 20 := by decide
  obtain ⟨d₁, t₁, runs₁, _, shows₁⟩ := @respond_refines _ _ files _ (shows_loadSeats 20) listable (seatConn_sound .viewSeat)
  have listable₁ : Listable (answer files (Hall.empty 20) (seatConn .viewSeat).action).2.numberOfSeats := by
    rw [answer_seats]
    exact listable
  obtain ⟨d₂, t₂, runs₂, _⟩ := @respond_refines _ _ files _ shows₁ listable₁ (seatConn_sound .confirm)
  obtain ⟨steps, s, run, added, handed, nobody⟩ := two_calls (fun _ => seatConn .cancel) _ _ runs₁ runs₂
  have sound : ∀ conn ∈ s.pool.added, conn.Sound := by
    simp [added, seatConn_sound]
  obtain ⟨⟨done, answered⟩, _⟩ := server_answers listable run sound
  obtain rfl : done = [seatConn .viewSeat, seatConn .confirm] := by
    rcases answered.reached with ⟨same, _⟩ | ⟨i, conn, calling, _⟩
    · exact same.symm.trans handed
    · exact absurd calling (nobody i conn)
  refine ⟨steps, s, run, handed, answered, answered.sent.trans ?_⟩
  simp only [answers, List.foldl_cons, List.foldl_nil, seatConn_action, answer]
  decide +kernel

end Eecs343.Server
