import Eecs343.Server.ThreadPool.Model

namespace Eecs343.Server.ThreadPool

open Transition

variable {α : Type}

/-- The arguments stored from `q_start` up to `q_end` of the circular array. -/
def State.stored (s : State α) : List α :=
  Circular.window s.pool.taskQueueSizeLimit s.pool.queue s.pool.qStart s.pool.qEnd

/-- What was handed out is a prefix of what was added, and the rest is what the array stores. -/
def Fifo (s : State α) : Prop :=
  s.handed <+: s.added ∧ s.added.drop s.handed.length = s.stored

instance [DecidableEq α] (s : State α) : Decidable (Fifo s) :=
  inferInstanceAs (Decidable (_ ∧ _))

/-- `pool_add_task` finds a slot that can be filled without closing the circle. -/
def Room (s : State α) : Action α → Prop
  | .addTask _ _ => (s.pool.qEnd + 1) % s.pool.taskQueueSizeLimit ≠ s.pool.qStart
  | _ => True

instance (s : State α) : (a : Action α) → Decidable (Room s a)
  | .addTask _ _ => inferInstanceAs (Decidable (_ ≠ _))
  | .acquire _ | .test _ | .sleep _ | .wake _ | .reacquire _ | .check _ | .take _ | .finish _ | .release _
  | .raise | .broadcast | .join | .free => .isTrue trivial

theorem fifo_iff (s : State α) : Fifo s ↔ s.added = s.handed ++ s.stored := by
  constructor
  · intro ⟨⟨rest, added⟩, stored⟩
    rw [← added, List.drop_left] at stored
    rw [← added, stored]
  · intro added
    refine ⟨⟨s.stored, added.symm⟩, ?_⟩
    rw [added, List.drop_left]

structure SameQueue (s t : State α) : Prop where
  queue : t.pool.queue = s.pool.queue
  qStart : t.pool.qStart = s.pool.qStart
  qEnd : t.pool.qEnd = s.pool.qEnd
  limit : t.pool.taskQueueSizeLimit = s.pool.taskQueueSizeLimit
  added : t.added = s.added
  handed : t.handed = s.handed

theorem SameQueue.refl (s : State α) : SameQueue s s := ⟨rfl, rfl, rfl, rfl, rfl, rfl⟩

theorem SameQueue.goto {s t : State α} (same : SameQueue s t) (i : Nat) (pc : Pc α) :
    SameQueue s (t.goto i pc) :=
  ⟨same.queue, same.qStart, same.qEnd, same.limit, same.added, same.handed⟩

theorem SameQueue.wakeOne {s t : State α} (same : SameQueue s t) (signalled : Option Nat) :
    SameQueue s (t.wakeOne signalled) := by
  cases signalled with
  | none => exact same
  | some i => exact same.goto i .woken

theorem SameQueue.stored {s t : State α} (same : SameQueue s t) : t.stored = s.stored := by
  unfold State.stored
  rw [same.queue, same.qStart, same.qEnd, same.limit]

theorem step_queue {s t : State α} {a : Action α} (step : Step s a t) :
    (∃ x w, a = .addTask x w ∧ SameQueue (s.enqueue x) t) ∨
      (s.pool.qStart ≠ s.pool.qEnd ∧ SameQueue s.dequeue t) ∨
      ((∀ x w, a ≠ .addTask x w) ∧ SameQueue s t) := by
  obtain ⟨enabled, rfl⟩ := step
  cases a with
  | addTask x w => exact .inl ⟨x, w, rfl, (SameQueue.refl _).wakeOne w⟩
  | take i =>
    right
    by_cases empty : s.pool.qStart = s.pool.qEnd
    · refine .inr ⟨by simp, ?_⟩
      simp only [system, next, empty, ne_eq, not_true_eq_false, if_false]
      exact (SameQueue.refl s).goto i .unlock
    · refine .inl ⟨empty, ?_⟩
      simp only [system, next, ne_eq, empty, not_false_eq_true, if_true]
      exact (SameQueue.refl _).goto i _
  | join =>
    obtain ⟨i, _, joining, _⟩ := enabled
    refine .inr (.inr ⟨by simp, ?_⟩)
    simp only [system, next, joining]
    exact ⟨rfl, rfl, rfl, rfl, rfl, rfl⟩
  | _ => exact .inr (.inr ⟨by simp, rfl, rfl, rfl, rfl, rfl, rfl⟩)

/-- The indices lie in the array, and the array holds what is still to be handed out. -/
structure Queued (s : State α) : Prop where
  start_lt : s.pool.qStart < s.pool.taskQueueSizeLimit
  end_lt : s.pool.qEnd < s.pool.taskQueueSizeLimit
  fifo : s.added = s.handed ++ s.stored

theorem Queued.same {s t : State α} (queued : Queued s) (same : SameQueue s t) : Queued t where
  start_lt := by rw [same.qStart, same.limit]; exact queued.start_lt
  end_lt := by rw [same.qEnd, same.limit]; exact queued.end_lt
  fifo := by rw [same.added, same.handed, same.stored]; exact queued.fifo

theorem Queued.enqueue {s : State α} (queued : Queued s) (x : α)
    (room : (s.pool.qEnd + 1) % s.pool.taskQueueSizeLimit ≠ s.pool.qStart) : Queued (s.enqueue x) where
  start_lt := queued.start_lt
  end_lt := Circular.succ_lt (Nat.lt_of_le_of_lt (Nat.zero_le _) queued.start_lt) _
  fifo := by
    have pushed := Circular.window_push s.pool.queue x queued.start_lt queued.end_lt room
    simp only [State.enqueue, State.stored] at pushed ⊢
    rw [pushed, queued.fifo, List.append_assoc]
    rfl

theorem Queued.dequeue {s : State α} (queued : Queued s) (nonempty : s.pool.qStart ≠ s.pool.qEnd) :
    Queued s.dequeue where
  start_lt := Circular.succ_lt (Nat.lt_of_le_of_lt (Nat.zero_le _) queued.start_lt) _
  end_lt := queued.end_lt
  fifo := by
    have popped := Circular.window_pop s.pool.queue queued.start_lt queued.end_lt nonempty
    simp only [State.dequeue, State.stored] at popped ⊢
    rw [List.append_assoc, List.singleton_append, ← popped]
    exact queued.fifo

theorem Queued.step {s t : State α} {a : Action α} (queued : Queued s) (room : Room s a)
    (step : Step s a t) : Queued t := by
  rcases step_queue step with ⟨x, w, rfl, same⟩ | ⟨nonempty, same⟩ | ⟨_, same⟩
  · exact (queued.enqueue x room).same same
  · exact (queued.dequeue nonempty).same same
  · exact queued.same same

theorem poolCreate_queued {queueSize : Nat} (size : 2 ≤ queueSize) (numThreads : Nat) (queue : Nat → α) :
    Queued (poolCreate queueSize numThreads queue) where
  start_lt := Nat.lt_of_lt_of_le Nat.two_pos size
  end_lt := Nat.lt_of_lt_of_le Nat.two_pos size
  fifo := (Circular.window_empty queue (Nat.lt_of_lt_of_le Nat.two_pos size)).symm

/-- A task added when the array is full closes the circle: the array then looks empty. -/
theorem full_loses {s t : State α} {x : α} {w : Option Nat} (queued : Queued s)
    (full : (s.pool.qEnd + 1) % s.pool.taskQueueSizeLimit = s.pool.qStart)
    (step : Step s (.addTask x w) t) : ¬ Fifo t := by
  have same : SameQueue (s.enqueue x) t := by
    obtain ⟨_, rfl⟩ := step
    exact (SameQueue.refl _).wakeOne w
  have closed : t.stored = [] := by
    rw [same.stored]
    simp only [State.stored, State.enqueue, Circular.succ, full]
    exact Circular.window_empty _ queued.start_lt
  rw [fifo_iff, closed, same.added, same.handed]
  simp only [State.enqueue, queued.fifo, List.append_nil]
  intro same
  have longer := congrArg List.length same
  simp at longer

/-- No task is lost, duplicated or reordered on the way of a run exactly when every
    `pool_add_task` of the run finds room. -/
theorem fifo_iff_room {queueSize numThreads : Nat} {queue : Nat → α} {steps : List (State α × Action α)}
    {s : State α} (size : 2 ≤ queueSize)
    (run : Run Step (poolCreate queueSize numThreads queue) steps s) :
    (∀ t ∈ visited steps s, Fifo t) ↔ ∀ taken ∈ steps, Room taken.1 taken.2 := by
  constructor
  · intro fifo
    -- up to the first task without room the array holds the queue, and that task would lose it
    suffices (∀ taken ∈ steps, Room taken.1 taken.2) ∧ Queued s from this.1
    induction run with
    | refl => exact ⟨by simp, poolCreate_queued size numThreads queue⟩
    | @snoc steps state a next before taken ih =>
      rw [visited_cons] at fifo
      obtain ⟨rooms, queued⟩ := ih fun t member => fifo t (List.mem_cons_of_mem _ member)
      have room : Room state a := by
        cases a with
        | addTask x w => exact fun full => full_loses queued full taken (fifo next List.mem_cons_self)
        | _ => trivial
      refine ⟨?_, queued.step room taken⟩
      intro other member
      rcases List.mem_cons.mp member with rfl | member
      · exact room
      · exact rooms other member
  · intro rooms t member
    have queued := run.invariant_visited Room Queued (poolCreate_queued size numThreads queue)
      (fun _ _ _ queued room step => queued.step room step) rooms t member
    exact (fifo_iff t).mpr queued.fifo

/-- What worker `i` does for one task. -/
def serves (i : Nat) : List (Action Nat) := [.release i, .finish i, .take i, .check i, .test i, .acquire i]

/-- Three tasks for two workers, in an array of three: both ends come round to its beginning. -/
def threeTasks : List (Action Nat) := serves 0 ++ serves 1 ++ [.addTask 9 none] ++ serves 0 ++ [.addTask 8 none, .addTask 7 none]

theorem fifo_three_tasks :
    Run Step (poolCreate 3 2 fun _ => 0) ((system Nat).trace (poolCreate 3 2 fun _ => 0) threeTasks)
        ((system Nat).final (poolCreate 3 2 fun _ => 0) threeTasks) ∧
      ((system Nat).final (poolCreate 3 2 fun _ => 0) threeTasks).handed = [7, 8, 9] ∧
      ((system Nat).final (poolCreate 3 2 fun _ => 0) threeTasks).pool.qEnd = 0 ∧
      Fifo ((system Nat).final (poolCreate 3 2 fun _ => 0) threeTasks) := by
  have run := (system Nat).run_of_admits (show (system Nat).Admits (poolCreate 3 2 fun _ => 0) threeTasks by decide)
  have fifo := (fifo_iff_room (by decide) run).mpr (by decide)
  exact ⟨run, by decide, by decide, fifo _ (last_mem_visited _ _)⟩

/-- Twenty connections before any worker gets the lock, as one burst on the server's own pool. -/
def burst : List (Action Nat) := (List.range 20).reverse.map fun x => .addTask x none

theorem burst_loses_tasks :
    Run Step (poolCreate 20 20 fun _ => 0) ((system Nat).trace (poolCreate 20 20 fun _ => 0) burst)
        ((system Nat).final (poolCreate 20 20 fun _ => 0) burst) ∧
      ¬ Fifo ((system Nat).final (poolCreate 20 20 fun _ => 0) burst) :=
  ⟨(system Nat).run_of_admits (by decide), by decide⟩

end Eecs343.Server.ThreadPool
