import Eecs343.Base.Prog
import Eecs343.Server.ThreadPool.Queue
import Eecs343.Server.ThreadPool.Shutdown

namespace Eecs343.Server.ThreadPool

open Prog Transition

variable {α σ ρ : Type}

/-- The pool with the state its function works on. `programs i` is what is left of the call worker
    `i` is in, and `replies` holds the results of the calls that have returned. -/
structure Serving (α σ ρ : Type) where
  pool : State α
  store : σ
  programs : Nat → Option (Prog σ ρ)
  replies : List ρ

/-- A step of the pool, or the next step of the call that worker `i` is in. -/
inductive Move (α : Type) where
  | pool (action : Action α)
  | run (i : Nat)

def Serving.start (queueSize numThreads : Nat) (queue : Nat → α) (store : σ) : Serving α σ ρ where
  pool := poolCreate queueSize numThreads queue
  store
  programs := fun _ => none
  replies := []

/-- Worker `i` is inside `threadpool->function(argument)`. -/
def Calling (s : State α) (i : Nat) (argument : α) : Prop := s.At i (.call argument)

def Serving.enabled (s : Serving α σ ρ) : Move α → Prop
  | .pool (.finish i) => ThreadPool.enabled s.pool (.finish i) ∧ ((s.programs i).bind Prog.result).isSome
  | .pool action => ThreadPool.enabled s.pool action
  | .run i => (∃ argument, Calling s.pool i argument) ∧ ((s.programs i).bind (Prog.step · s.store)).isSome

def Serving.next (function : α → Prog σ ρ) (s : Serving α σ ρ) : Move α → Serving α σ ρ
  | .pool (.take i) =>
    { s with
      pool := ThreadPool.next s.pool (.take i)
      programs :=
        if s.pool.pool.qStart ≠ s.pool.pool.qEnd then
          Function.update s.programs i (some (function (s.pool.pool.queue s.pool.pool.qStart)))
        else s.programs }
  | .pool (.finish i) =>
    { s with
      pool := ThreadPool.next s.pool (.finish i)
      replies := s.replies ++ ((s.programs i).bind Prog.result).toList }
  | .pool action => { s with pool := ThreadPool.next s.pool action }
  | .run i => match (s.programs i).bind (Prog.step · s.store) with
    | some (program, store) => { s with store, programs := Function.update s.programs i (some program) }
    | none => s

def serving (function : α → Prog σ ρ) : Transition.System (Serving α σ ρ) (Move α) :=
  ⟨Serving.enabled, Serving.next function⟩

variable {function : α → Prog σ ρ}

theorem serving_pool {s t : Serving α σ ρ} {action : Action α}
    (step : (serving function).Step s (.pool action) t) : Step s.pool action t.pool := by
  obtain ⟨enabled, rfl⟩ := step
  cases action with
  | finish i => exact ⟨enabled.1, rfl⟩
  | _ => exact ⟨enabled, rfl⟩

theorem serving_run {s t : Serving α σ ρ} {i : Nat} (step : (serving function).Step s (.run i) t) :
    ∃ argument p q, Calling s.pool i argument ∧ s.programs i = some p ∧ p.step s.store = some (q, t.store) ∧
      t.pool = s.pool ∧ t.programs i = some q ∧ t.replies = s.replies := by
  obtain ⟨⟨⟨argument, calling⟩, steps⟩, rfl⟩ := step
  obtain ⟨⟨q, u⟩, taken⟩ := Option.isSome_iff_exists.mp steps
  obtain ⟨p, program, step⟩ := Option.bind_eq_some_iff.mp taken
  refine ⟨argument, p, q, calling, program, ?_⟩
  simp [serving, Serving.next, taken, step]

/-- A call that returns does so when its worker is the only one that is scheduled. -/
theorem run_call {start s : Serving α σ ρ} {steps : List (Serving α σ ρ × Move α)} {i : Nat} {argument : α} {p : Prog σ ρ}
    {r : ρ} {t : σ} (run : Run (serving function).Step start steps s) (calling : Calling s.pool i argument)
    (program : s.programs i = some p) (runs : Runs p s.store r t) :
    ∃ steps, Run (serving function).Step start steps
      { s with store := t, programs := Function.update s.programs i (some (.done r)) } := by
  suffices ∀ x, Steps (p, s.store) x → ∃ steps, Run (serving function).Step start steps
      { s with store := x.2, programs := Function.update s.programs i (some x.1) } from this _ runs
  intro x reached
  induction reached with
  | refl => exact ⟨steps, by rwa [← program, Function.update_eq_self]⟩
  | @tail x y _ taken ih =>
    obtain ⟨earlier, run⟩ := ih
    have step : (serving function).Step { s with store := x.2, programs := Function.update s.programs i (some x.1) } (.run i)
        { s with store := y.2, programs := Function.update s.programs i (some y.1) } := by
      refine ⟨⟨⟨argument, calling⟩, ?_⟩, ?_⟩
      · simp [taken]
      · simp [serving, Serving.next, taken]
    exact ⟨_, .snoc run step⟩

theorem serving_finish {s t : Serving α σ ρ} {i : Nat} (step : (serving function).Step s (.pool (.finish i)) t) :
    ∃ reply, s.programs i = some (.done reply) ∧ t.store = s.store ∧ t.replies = s.replies ++ [reply] := by
  obtain ⟨⟨_, finished⟩, rfl⟩ := step
  obtain ⟨reply, result⟩ := Option.isSome_iff_exists.mp finished
  obtain ⟨p, program, result'⟩ := Option.bind_eq_some_iff.mp result
  refine ⟨reply, by rw [program, eq_done result'], rfl, ?_⟩
  simp [serving, Serving.next, result]

/-- Of the pool's own steps only taking and finishing a task change who calls and what was handed out. -/
def Outside : Action α → Prop
  | .take _ | .finish _ => False
  | _ => True

theorem serving_outside {s t : Serving α σ ρ} {action : Action α} (outside : Outside action)
    (step : (serving function).Step s (.pool action) t) :
    t.store = s.store ∧ t.programs = s.programs ∧ t.replies = s.replies := by
  obtain ⟨_, rfl⟩ := step
  cases action with
  | take | finish => exact outside.elim
  | _ => exact ⟨rfl, rfl, rfl⟩

theorem goto_calls (s : State α) {t : State α} {i : Nat} {pc : Pc α} (others : t.workers = s.workers)
    (here : ∀ argument, s.workers i ≠ .call argument) (there : ∀ argument, pc ≠ .call argument) (j : Nat) (argument : α) :
    (t.goto i pc).workers j = .call argument ↔ s.workers j = .call argument := by
  by_cases same : j = i
  · subst same
    simp [State.goto, here, there]
  · simp [State.goto, same, others]

theorem outside_calls {s t : State α} {action : Action α} (outside : Outside action) (step : Step s action t)
    (j : Nat) (argument : α) : t.workers j = .call argument ↔ s.workers j = .call argument := by
  obtain ⟨enabled, rfl⟩ := step
  cases action with
  | take | finish => exact outside.elim
  | addTask x w =>
    cases w with
    | none => exact Iff.rfl
    | some i => exact goto_calls s rfl (by simp [enabled.2.2.2]) (by simp) j argument
  | acquire i | reacquire i => exact goto_calls s rfl (by simp [enabled.1.2]) (by simp) j argument
  | sleep i | wake i | release i => exact goto_calls s rfl (by simp [enabled.2]) (by simp) j argument
  | test i | check i =>
    apply goto_calls s rfl (by simp [enabled.2])
    intro argument
    split <;> simp
  | broadcast =>
    simp only [system, next, State.wakeAll]
    cases s.workers j <;> simp
  | join =>
    obtain ⟨i, _, joining, _⟩ := enabled
    simp only [system, next, joining]
  | _ => exact Iff.rfl

theorem outside_handed {s t : State α} {action : Action α} (outside : Outside action) (step : Step s action t) :
    t.handed = s.handed ∧ t.pool.threadCount = s.pool.threadCount := by
  obtain ⟨enabled, rfl⟩ := step
  cases action with
  | take | finish => exact outside.elim
  | addTask x w => cases w <;> exact ⟨rfl, rfl⟩
  | join =>
    obtain ⟨i, _, joining, _⟩ := enabled
    simp only [system, next, joining, and_self]
  | _ => exact ⟨rfl, rfl⟩

/-- Nobody calls, and what was handed out has run one after the other; or one worker calls, and its
    program is on its way from where the others left the store. -/
inductive Progress (function : α → Prog σ ρ) (store : σ) (s : Serving α σ ρ) : Prop where
  | idle (nobody : ∀ i argument, ¬ Calling s.pool i argument)
    (serial : Prog.Serial function store s.pool.handed s.replies s.store)
  | busy {i argument before program reached} (calling : Calling s.pool i argument)
    (alone : ∀ j argument, Calling s.pool j argument → j = i) (running : s.programs i = some program)
    (handed : s.pool.handed = before ++ [argument]) (serial : Prog.Serial function store before s.replies reached)
    (steps : Steps (function argument, reached) (program, s.store))

theorem Owned.calling {s : State α} (owned : Owned s) {i : Nat} {argument : α} (calling : Calling s i argument) :
    s.pool.lock = some i := owned i calling.1 (by rw [calling.2]; trivial)

theorem Progress.outside {store : σ} {s t : Serving α σ ρ} {action : Action α} (progress : Progress function store s)
    (outside : Outside action) (step : (serving function).Step s (.pool action) t) : Progress function store t := by
  obtain ⟨sameStore, programs, replies⟩ := serving_outside outside step
  have pool := serving_pool step
  obtain ⟨handed, count⟩ := outside_handed outside pool
  have calls : ∀ j argument, Calling t.pool j argument ↔ Calling s.pool j argument := by
    intro j argument
    unfold Calling State.At
    rw [count, outside_calls outside pool]
  cases progress with
  | idle nobody serial =>
    apply Progress.idle
    · intro i argument calling
      exact nobody i argument ((calls i argument).mp calling)
    · rw [handed, replies, sameStore]
      exact serial
  | busy calling alone running before serial steps =>
    apply Progress.busy ((calls _ _).mpr calling)
    · intro j argument calling
      exact alone j argument ((calls j argument).mp calling)
    · rw [programs]
      exact running
    · rw [handed]
      exact before
    · rw [replies]
      exact serial
    · rw [sameStore]
      exact steps

theorem Progress.run {store : σ} {s t : Serving α σ ρ} {i : Nat} (progress : Progress function store s)
    (step : (serving function).Step s (.run i) t) : Progress function store t := by
  obtain ⟨argument, p, q, calling, program, taken, pool, program', replies⟩ := serving_run step
  cases progress with
  | idle nobody => exact (nobody i argument calling).elim
  | busy calling' alone running before serial steps =>
    obtain rfl := alone i argument calling
    obtain rfl := Option.some.inj (program.symm.trans running)
    apply Progress.busy (pool ▸ calling') (pool ▸ alone) program' (pool ▸ before) (replies ▸ serial)
    exact steps.tail taken

theorem Progress.finish {store : σ} {s t : Serving α σ ρ} {i : Nat} (progress : Progress function store s)
    (step : (serving function).Step s (.pool (.finish i)) t) : Progress function store t := by
  obtain ⟨reply, program, sameStore, replies⟩ := serving_finish step
  obtain ⟨⟨bound, argument, calling⟩, pool⟩ := serving_pool step
  cases progress with
  | idle nobody => exact (nobody i argument ⟨bound, calling⟩).elim
  | busy calling' alone running before serial steps =>
    obtain rfl := alone i argument ⟨bound, calling⟩
    obtain rfl := Option.some.inj (program.symm.trans running)
    have handed : t.pool.handed = s.pool.handed := by rw [pool]; rfl
    apply Progress.idle
    · intro j other calls
      rw [pool] at calls
      by_cases same : j = i
      · subst same
        simp [Calling, State.At, system, next, State.goto] at calls
      · exact same (alone j other ⟨calls.1, by simpa [system, next, State.goto, same] using calls.2⟩)
    · rw [handed, before, replies, sameStore]
      exact serial.snoc steps

theorem Progress.take {store : σ} {s t : Serving α σ ρ} {i : Nat} (progress : Progress function store s)
    (owned : Owned s.pool) (step : (serving function).Step s (.pool (.take i)) t) : Progress function store t := by
  obtain ⟨⟨bound, here⟩, rfl⟩ := step
  have mine : s.pool.pool.lock = some i := owned i bound (by rw [here]; trivial)
  cases progress with
  | busy calling =>
    obtain rfl := Option.some.inj (mine.symm.trans (owned.calling calling))
    cases here.symm.trans calling.2
  | idle nobody serial =>
    by_cases empty : s.pool.pool.qStart = s.pool.pool.qEnd
    · apply Progress.idle
      · intro j argument calling
        apply nobody j argument
        simp only [serving, Serving.next, next, empty, ne_eq, not_true_eq_false, if_false] at calling
        exact ⟨calling.1, (goto_calls s.pool rfl (by simp [here]) (by simp) j argument).mp calling.2⟩
      · simpa [serving, Serving.next, next, empty, State.goto] using serial
    · have others : ∀ j argument, j ≠ i → ¬ Calling (next s.pool (.take i)) j argument := by
        intro j argument other calling
        apply nobody j argument
        simp only [next, ne_eq, empty, not_false_eq_true, if_true] at calling
        refine ⟨calling.1, ?_⟩
        simpa [State.goto, other, State.dequeue] using calling.2
      apply @Progress.busy α σ ρ function store _ i (s.pool.pool.queue s.pool.pool.qStart) s.pool.handed
        (function (s.pool.pool.queue s.pool.pool.qStart)) s.store
      · simp only [serving, Serving.next, next, ne_eq, empty, not_false_eq_true, if_true]
        exact ⟨bound, by simp [State.goto]⟩
      · intro j argument calling
        by_contra other
        exact others j argument other calling
      · simp [serving, Serving.next, empty]
      · simp [serving, Serving.next, next, empty, State.goto, State.dequeue]
      · exact serial
      · exact Relation.ReflTransGen.refl

theorem Progress.step {store : σ} {s t : Serving α σ ρ} {move : Move α} (progress : Progress function store s)
    (owned : Owned s.pool) (step : (serving function).Step s move t) : Progress function store t := by
  cases move with
  | run i => exact progress.run step
  | pool action =>
    cases action with
    | take i => exact progress.take owned step
    | finish i => exact progress.finish step
    | _ => exact progress.outside (by trivial) step

def State.queued (s : State α) : Nat := s.added.length - s.handed.length

theorem Queued.length {s : State α} (queued : Queued s) :
    s.queued = Circular.size s.pool.taskQueueSizeLimit s.pool.qStart s.pool.qEnd := by
  rw [State.queued, queued.fifo, List.length_append, Nat.add_sub_cancel_left, State.stored, Circular.window_length]

theorem Queued.room {s t : State α} {action : Action α} (queued : Queued s) (step : Step s action t)
    (fits : t.queued < t.pool.taskQueueSizeLimit) : Room s action := by
  cases action with
  | addTask argument signalled =>
    intro full
    have size := Circular.size_full queued.start_lt queued.end_lt full
    have length := queued.length
    have within : s.handed.length ≤ s.added.length := by rw [queued.fifo]; simp
    have same : SameQueue (s.enqueue argument) t := by
      obtain ⟨_, rfl⟩ := step
      exact (SameQueue.refl _).wakeOne signalled
    have more : t.queued = s.queued + 1 := by
      rw [State.queued, same.added, same.handed]
      simp only [State.enqueue, List.length_append, List.length_singleton, State.queued]
      omega
    rw [more, same.limit, length] at fits
    simp only [State.enqueue] at fits
    omega
  | _ => trivial

/-- One worker at a time is in the function, and the calls have the effect and the results of running
    them one after the other, in the order in which the tasks were added. -/
structure Serialised (function : α → Prog σ ρ) (store : σ) (s : Serving α σ ρ) : Prop where
  alone : ∀ i j x y, Calling s.pool i x → Calling s.pool j y → i = j
  ordered : s.pool.handed <+: s.pool.added
  progress : Progress function store s

theorem pool_step {s t : Serving α σ ρ} {move : Move α} (owned : Owned s.pool) (queued : Queued s.pool)
    (fits : t.pool.queued < t.pool.pool.taskQueueSizeLimit) (step : (serving function).Step s move t) :
    Owned t.pool ∧ Queued t.pool := by
  cases move with
  | run i =>
    obtain ⟨_, _, _, _, _, _, same, _⟩ := serving_run step
    rw [same]
    exact ⟨owned, queued⟩
  | pool action =>
    have step := serving_pool step
    exact ⟨owned.step step, queued.step (queued.room step fits) step⟩

theorem Progress.serialised {store : σ} {s : Serving α σ ρ} (progress : Progress function store s) (owned : Owned s.pool)
    (queued : Queued s.pool) : Serialised function store s where
  alone := by
    intro i j x y here there
    exact Option.some.inj ((owned.calling here).symm.trans (owned.calling there))
  ordered := ⟨s.pool.stored, queued.fifo.symm⟩
  progress := progress

theorem serving_serialised {queueSize numThreads : Nat} {queue : Nat → α} {store : σ}
    {steps : List (Serving α σ ρ × Move α)} {s : Serving α σ ρ}
    (run : Run (serving function).Step (.start queueSize numThreads queue store) steps s)
    (fits : ∀ t ∈ visited steps s, t.pool.queued < t.pool.pool.taskQueueSizeLimit) :
    ∀ t ∈ visited steps s, Serialised function store t := by
  suffices ((Owned s.pool ∧ Queued s.pool) ∧ Progress function store s) ∧
      ∀ t ∈ visited steps s, Serialised function store t from this.2
  induction run with
  | refl =>
    have size : 0 < queueSize := fits _ (last_mem_visited _ _)
    have owned := poolCreate_owned queueSize numThreads queue
    have queued : Queued (poolCreate queueSize numThreads queue) := ⟨size, size, (Circular.window_empty queue size).symm⟩
    have progress : Progress function store (Serving.start queueSize numThreads queue store) := by
      apply Progress.idle
      · intro i argument calling
        cases calling.2
      · exact .nil
    refine ⟨⟨⟨owned, queued⟩, progress⟩, ?_⟩
    intro t member
    obtain rfl : t = Serving.start queueSize numThreads queue store := by simpa [visited] using member
    exact progress.serialised owned queued
  | @snoc steps state move next before taken ih =>
    rw [visited_cons] at fits
    obtain ⟨⟨⟨owned, queued⟩, progress⟩, earlier⟩ := ih fun t member => fits t (List.mem_cons_of_mem _ member)
    have pool := pool_step owned queued (fits next List.mem_cons_self) taken
    have after := progress.step owned taken
    refine ⟨⟨pool, after⟩, ?_⟩
    intro t member
    rw [visited_cons] at member
    rcases List.mem_cons.mp member with rfl | member
    · exact after.serialised pool.1 pool.2
    · exact earlier t member

end Eecs343.Server.ThreadPool
