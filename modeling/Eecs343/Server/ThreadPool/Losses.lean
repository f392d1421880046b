import Eecs343.Server.ThreadPool.Queue

namespace Eecs343.Server.ThreadPool

open Transition

variable {α : Type}

/-- Of the tasks in the first list those in the second were handed out, in order. The others were lost, `k` times
    `n` tasks that stand one behind the other. -/
inductive HandedBut (n : Nat) : (k : Nat) → List α → List α → Prop where
  | nothing : HandedBut n 0 [] []
  | hand {k tasks handed} (earlier : HandedBut n k tasks handed) (x : α) : HandedBut n k (tasks ++ [x]) (handed ++ [x])
  | lose {k tasks handed} (earlier : HandedBut n k tasks handed) (block : List α) (full : block.length = n) :
      HandedBut n (k + 1) (tasks ++ block) handed

variable {n k : Nat} {tasks handed : List α}

theorem HandedBut.sublist (handedBut : HandedBut n k tasks handed) : handed.Sublist tasks := by
  induction handedBut with
  | nothing => exact List.Sublist.refl _
  | hand _ x ih => exact ih.append (List.Sublist.refl _)
  | lose _ block _ ih => exact ih.trans (List.sublist_append_left _ _)

theorem HandedBut.length (handedBut : HandedBut n k tasks handed) : tasks.length = handed.length + n * k := by
  induction handedBut with
  | nothing => rfl
  | hand _ x ih =>
    rw [List.length_append, List.length_append, ih]
    exact Nat.add_right_comm _ _ _
  | lose _ block full ih =>
    rw [List.length_append, ih, full, Nat.mul_succ, Nat.add_assoc]

/-- `pool_add_task` closes the circle. -/
def overflows (s : State α) : Action α → Bool
  | .addTask _ _ => (s.pool.qEnd + 1) % s.pool.taskQueueSizeLimit = s.pool.qStart
  | _ => false

/-- The indices lie in the array, which holds the last tasks added. Of those before them all were handed out but for
    the ones lost when the circle was closed, `k` times. -/
structure Accounted (k : Nat) (s : State α) : Prop where
  start_lt : s.pool.qStart < s.pool.taskQueueSizeLimit
  end_lt : s.pool.qEnd < s.pool.taskQueueSizeLimit
  tasks : ∃ before, s.added = before ++ s.stored ∧ HandedBut s.pool.taskQueueSizeLimit k before s.handed

variable {s t : State α} {a : Action α}

theorem Accounted.same (accounted : Accounted k s) (same : SameQueue s t) : Accounted k t where
  start_lt := by rw [same.qStart, same.limit]; exact accounted.start_lt
  end_lt := by rw [same.qEnd, same.limit]; exact accounted.end_lt
  tasks := by rw [same.added, same.handed, same.stored, same.limit]; exact accounted.tasks

theorem Accounted.enqueue (accounted : Accounted k s) (x : α)
    (room : (s.pool.qEnd + 1) % s.pool.taskQueueSizeLimit ≠ s.pool.qStart) : Accounted k (s.enqueue x) where
  start_lt := accounted.start_lt
  end_lt := Circular.succ_lt (Nat.lt_of_le_of_lt (Nat.zero_le _) accounted.start_lt) _
  tasks := by
    obtain ⟨before, added, handedBut⟩ := accounted.tasks
    refine ⟨before, ?_, handedBut⟩
    have pushed := Circular.window_push s.pool.queue x accounted.start_lt accounted.end_lt room
    simp only [State.enqueue, State.stored] at pushed added ⊢
    rw [pushed, added, List.append_assoc]

/-- The task that closes the circle is lost with all that were in the array. -/
theorem Accounted.overflow (accounted : Accounted k s) (x : α)
    (full : (s.pool.qEnd + 1) % s.pool.taskQueueSizeLimit = s.pool.qStart) : Accounted (k + 1) (s.enqueue x) where
  start_lt := accounted.start_lt
  end_lt := Circular.succ_lt (Nat.lt_of_le_of_lt (Nat.zero_le _) accounted.start_lt) _
  tasks := by
    obtain ⟨before, added, handedBut⟩ := accounted.tasks
    have closed : (s.enqueue x).stored = [] := by
      simp only [State.stored, State.enqueue, Circular.succ, full]
      exact Circular.window_empty _ accounted.start_lt
    have length : (s.stored ++ [x]).length = s.pool.taskQueueSizeLimit := by
      rw [List.length_append, State.stored, Circular.window_length]
      exact Circular.size_full accounted.start_lt accounted.end_lt full
    refine ⟨before ++ (s.stored ++ [x]), ?_, handedBut.lose _ length⟩
    rw [closed, List.append_nil, ← List.append_assoc, ← added]
    rfl

theorem Accounted.dequeue (accounted : Accounted k s) (nonempty : s.pool.qStart ≠ s.pool.qEnd) :
    Accounted k s.dequeue where
  start_lt := Circular.succ_lt (Nat.lt_of_le_of_lt (Nat.zero_le _) accounted.start_lt) _
  end_lt := accounted.end_lt
  tasks := by
    obtain ⟨before, added, handedBut⟩ := accounted.tasks
    refine ⟨before ++ [s.pool.queue s.pool.qStart], ?_, handedBut.hand _⟩
    have popped := Circular.window_pop s.pool.queue accounted.start_lt accounted.end_lt nonempty
    simp only [State.dequeue, State.stored] at popped added ⊢
    rw [added, popped, List.append_assoc]
    rfl

theorem Accounted.addTask (accounted : Accounted k s) {x : α} {w : Option Nat} (step : Step s (.addTask x w) t) :
    Accounted (k + (overflows s (.addTask x w)).toNat) t := by
  have same : SameQueue (s.enqueue x) t := by
    obtain ⟨_, rfl⟩ := step
    exact (SameQueue.refl _).wakeOne w
  by_cases full : (s.pool.qEnd + 1) % s.pool.taskQueueSizeLimit = s.pool.qStart
  · have counted : (overflows s (.addTask x w)).toNat = 1 := by simp [overflows, full]
    rw [counted]
    exact (accounted.overflow x full).same same
  · have counted : (overflows s (.addTask x w)).toNat = 0 := by simp [overflows, full]
    rw [counted]
    exact (accounted.enqueue x full).same same

theorem Accounted.step (accounted : Accounted k s) (step : Step s a t) : Accounted (k + (overflows s a).toNat) t := by
  by_cases adds : ∃ x w, a = .addTask x w
  · obtain ⟨x, w, rfl⟩ := adds
    exact accounted.addTask step
  · have counted : (overflows s a).toNat = 0 := by
      cases a with
      | addTask x w => exact absurd ⟨x, w, rfl⟩ adds
      | _ => rfl
    rw [counted]
    rcases step_queue step with ⟨x, w, rfl, _⟩ | ⟨nonempty, same⟩ | ⟨_, same⟩
    · exact absurd ⟨x, w, rfl⟩ adds
    · exact (accounted.dequeue nonempty).same same
    · exact accounted.same same

theorem poolCreate_accounted {queueSize : Nat} (size : 1 ≤ queueSize) (numThreads : Nat) (queue : Nat → α) :
    Accounted 0 (poolCreate queueSize numThreads queue) where
  start_lt := size
  end_lt := size
  tasks := ⟨[], (Circular.window_empty queue size).symm, .nothing⟩

def overflowed (steps : List (State α × Action α)) : Nat := steps.countP fun taken => overflows taken.1 taken.2

theorem Accounted.run {queueSize numThreads : Nat} {queue : Nat → α} {steps : List (State α × Action α)}
    (size : 1 ≤ queueSize) (run : Run Step (poolCreate queueSize numThreads queue) steps s) :
    Accounted (overflowed steps) s ∧ s.pool.taskQueueSizeLimit = queueSize := by
  induction run with
  | refl => exact ⟨poolCreate_accounted size numThreads queue, rfl⟩
  | @snoc steps state a next before taken ih =>
    constructor
    · have counted : overflowed ((state, a) :: steps) = overflowed steps + (overflows state a).toNat := by
        rw [overflowed, List.countP_cons, overflowed]
        cases overflows state a <;> rfl
      rw [counted]
      exact ih.1.step taken
    · rw [← ih.2]
      rcases step_queue taken with ⟨_, _, _, same⟩ | ⟨_, same⟩ | ⟨_, same⟩
      · exact same.limit
      · exact same.limit
      · exact same.limit

/-- In every run, with any number of workers and whether or not the array overflows, no task is handed out twice or
    before an older one, and exactly `queueSize` tasks are lost each time that the circle is closed. -/
theorem losses_accounted {queueSize numThreads : Nat} {queue : Nat → α} {steps : List (State α × Action α)}
    {s : State α} (size : 1 ≤ queueSize) (run : Run Step (poolCreate queueSize numThreads queue) steps s) :
    (∃ before, s.added = before ++ s.stored ∧ HandedBut queueSize (overflowed steps) before s.handed) ∧
      s.handed.Sublist s.added ∧
      s.added.length = s.handed.length + s.stored.length + queueSize * overflowed steps := by
  obtain ⟨accounted, limit⟩ := Accounted.run size run
  obtain ⟨before, added, handedBut⟩ := accounted.tasks
  rw [limit] at handedBut
  refine ⟨⟨before, added, handedBut⟩, ?_, ?_⟩
  · rw [added]
    exact handedBut.sublist.trans (List.sublist_append_left _ _)
  · rw [added, List.length_append, handedBut.length]
    exact Nat.add_right_comm _ _ _

def burstAndOne : List (Action Nat) :=
  [.take 0, .check 0, .test 0, .acquire 0] ++ (List.range 21).reverse.map fun x => .addTask x none

theorem burst_loses_twenty :
    ((system Nat).final (poolCreate 20 20 fun _ => 0) burstAndOne).handed = [20] ∧
      overflowed ((system Nat).trace (poolCreate 20 20 fun _ => 0) burstAndOne) = 1 ∧
      ((system Nat).final (poolCreate 20 20 fun _ => 0) burstAndOne).handed.Sublist
        ((system Nat).final (poolCreate 20 20 fun _ => 0) burstAndOne).added := by
  have run := (system Nat).run_of_admits (show (system Nat).Admits (poolCreate 20 20 fun _ => 0) burstAndOne by decide)
  exact ⟨by decide, by decide, (losses_accounted (by decide) run).2.1⟩

end Eecs343.Server.ThreadPool
