import Eecs343.Base.Transition
import Eecs343.Base.Circular

namespace Eecs343.Server.ThreadPool

variable {α : Type}

/-- Where a worker stands in `thread_do_work`. -/
inductive Pc (α : Type) where
  | lock
  /-- At the condition of the inner `while`, with the lock. -/
  | test
  /-- The condition was true: about to enter `pthread_cond_wait`, still with the lock. -/
  | wait
  | asleep
  /-- Still inside `pthread_cond_wait`, which returns only with the lock. -/
  | woken
  /-- At `if (threadpool->shutdown == TRUE)`, with the lock. -/
  | check
  /-- At `if (threadpool->q_start != threadpool->q_end)`, with the lock. -/
  | take
  /-- Inside `threadpool->function(argument)`, with the lock. -/
  | call (argument : α)
  | unlock
  | exited
  deriving DecidableEq

/-- Where the main thread stands: it adds tasks until `pool_destroy` runs. -/
inductive Main where
  | serving
  | raised
  | joining (i : Nat)
  | destroyed
  deriving DecidableEq

/-- `poolT`. The owner of the mutex is a worker; the handles and `function` carry no state. -/
structure Pool (α : Type) where
  lock : Option Nat
  shutdown : Bool
  queue : Nat → α
  qStart : Nat
  qEnd : Nat
  threadCount : Nat
  taskQueueSizeLimit : Nat

/-- `added` and `handed` record the arguments given to `pool_add_task` and to the function. -/
structure State (α : Type) where
  pool : Pool α
  workers : Nat → Pc α
  main : Main
  added : List α
  handed : List α

/-- `pool_create`: `malloc` leaves the queue with whatever `queue` holds. -/
def poolCreate (queueSize numThreads : Nat) (queue : Nat → α) : State α where
  pool :=
    { lock := none, shutdown := false, queue, qStart := 0, qEnd := 0
      threadCount := numThreads, taskQueueSizeLimit := queueSize }
  workers := fun _ => .lock
  main := .serving
  added := []
  handed := []

/-- One step of a worker `i` or of the main thread. `addTask` is the whole of `pool_add_task`,
    which runs under the lock; its signal wakes the sleeper named, and names one if there is one. -/
inductive Action (α : Type) where
  | addTask (argument : α) (signalled : Option Nat)
  | acquire (i : Nat)
  | test (i : Nat)
  | sleep (i : Nat)
  | wake (i : Nat)
  | reacquire (i : Nat)
  | check (i : Nat)
  | take (i : Nat)
  | finish (i : Nat)
  | release (i : Nat)
  | raise
  | broadcast
  | join
  | free

namespace State

variable (s : State α)

def goto (i : Nat) (pc : Pc α) : State α := { s with workers := Function.update s.workers i pc }

def withLock (owner : Option Nat) : State α := { s with pool := { s.pool with lock := owner } }

/-- Worker `i` exists and stands at `pc`. -/
def At (i : Nat) (pc : Pc α) : Prop := i < s.pool.threadCount ∧ s.workers i = pc

instance [DecidableEq α] (i : Nat) (pc : Pc α) : Decidable (s.At i pc) :=
  inferInstanceAs (Decidable (_ ∧ _))

/-- The condition of the inner `while`. -/
def idle : Bool := decide (s.pool.qStart = s.pool.qEnd) && !s.pool.shutdown

def wakeOne : Option Nat → State α
  | none => s
  | some i => s.goto i .woken

def wakeAll : State α :=
  { s with workers := fun i => match s.workers i with
      | .asleep => .woken
      | pc => pc }

/-- `pool->queue[pool->q_end] = argument; pool->q_end = (pool->q_end + 1) % limit`. -/
def enqueue (argument : α) : State α :=
  { s with
    pool :=
      { s.pool with
        queue := Function.update s.pool.queue s.pool.qEnd argument
        qEnd := Circular.succ s.pool.taskQueueSizeLimit s.pool.qEnd }
    added := s.added ++ [argument] }

/-- `argument = queue[q_start]; q_start = (q_start + 1) % limit; function(argument)`. -/
def dequeue : State α :=
  { s with
    pool := { s.pool with qStart := Circular.succ s.pool.taskQueueSizeLimit s.pool.qStart }
    handed := s.handed ++ [s.pool.queue s.pool.qStart] }

end State

def enabled (s : State α) : Action α → Prop
  | .addTask _ (some i) => s.main = .serving ∧ s.pool.lock = none ∧ s.At i .asleep
  | .addTask _ none => s.main = .serving ∧ s.pool.lock = none ∧
      ∀ i < s.pool.threadCount, s.workers i ≠ .asleep
  | .acquire i => s.At i .lock ∧ s.pool.lock = none
  | .test i => s.At i .test
  | .sleep i => s.At i .wait
  | .wake i => s.At i .asleep
  | .reacquire i => s.At i .woken ∧ s.pool.lock = none
  | .check i => s.At i .check
  | .take i => s.At i .take
  | .finish i => i < s.pool.threadCount ∧ ∃ argument, s.workers i = .call argument
  | .release i => s.At i .unlock
  | .raise => s.main = .serving
  | .broadcast => s.main = .raised
  | .join => ∃ i < s.pool.threadCount, s.main = .joining i ∧ s.workers i = .exited
  | .free => s.main = .joining s.pool.threadCount

def next (s : State α) : Action α → State α
  | .addTask argument signalled => (s.enqueue argument).wakeOne signalled
  | .acquire i => (s.withLock (some i)).goto i .test
  | .test i => s.goto i (if s.idle then .wait else .check)
  | .sleep i => (s.withLock none).goto i .asleep
  | .wake i => s.goto i .woken
  | .reacquire i => (s.withLock (some i)).goto i .test
  -- `break` leads straight to `pthread_exit`: nothing gives the lock back.
  | .check i => s.goto i (if s.pool.shutdown then .exited else .take)
  | .take i =>
    if s.pool.qStart ≠ s.pool.qEnd then
      s.dequeue.goto i (.call (s.pool.queue s.pool.qStart))
    else s.goto i .unlock
  | .finish i => s.goto i .unlock
  | .release i => (s.withLock none).goto i .lock
  | .raise => { s with pool := { s.pool with shutdown := true }, main := .raised }
  | .broadcast => { s.wakeAll with main := .joining 0 }
  | .join => match s.main with
    | .joining i => { s with main := .joining (i + 1) }
    | _ => s
  | .free => { s with main := .destroyed }

def system (α : Type) : Transition.System (State α) (Action α) := ⟨enabled, next⟩

abbrev Step : State α → Action α → State α → Prop := (system α).Step

instance [DecidableEq α] (s : State α) (a : Action α) : Decidable ((system α).enabled s a) := by
  cases a with
  | addTask _ signalled => cases signalled <;> unfold system enabled <;> infer_instance
  | finish i =>
    have : Decidable (∃ argument, s.workers i = .call argument) :=
      match h : s.workers i with
      | .call argument => isTrue ⟨argument, rfl⟩
      | .lock | .test | .wait | .asleep | .woken | .check | .take | .unlock | .exited =>
        isFalse (by intro ⟨_, h⟩; cases h)
    unfold system enabled
    infer_instance
  | join =>
    have : DecidablePred fun i => s.main = .joining i ∧ s.workers i = .exited := fun _ => inferInstance
    unfold system enabled
    infer_instance
  | _ => unfold system enabled; infer_instance

end Eecs343.Server.ThreadPool
