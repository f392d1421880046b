import Eecs343.Server.ThreadPool.Model

namespace Eecs343.Server.ThreadPool

open Transition

variable {α : Type}

/-- The mutex belongs to a worker that has left its loop and exited. -/
def Orphaned (s : State α) : Prop :=
  ∃ i < s.pool.threadCount, s.pool.lock = some i ∧ s.workers i = .exited

/-- No worker is at `if (threadpool->shutdown == TRUE)` with the flag set: none takes the `break`. -/
def StaysInLoop (s : State α) : Action α → Prop
  | .check _ => s.pool.shutdown = false
  | _ => True

/-- The places of `thread_do_work` between acquiring the lock and giving it back. -/
def Pc.locked : Pc α → Prop
  | .test | .wait | .check | .take | .call _ | .unlock => True
  | _ => False

/-- A worker inside its critical section owns the mutex. -/
def Owned (s : State α) : Prop :=
  ∀ i < s.pool.threadCount, (s.workers i).locked → s.pool.lock = some i

theorem poolCreate_owned (queueSize numThreads : Nat) (queue : Nat → α) :
    Owned (poolCreate queueSize numThreads queue) := fun _ _ locked => locked.elim

theorem Owned.goto {s t : State α} {i : Nat} {pc : Pc α} (owned : Owned s) (bound : i < s.pool.threadCount)
    (count : t.pool.threadCount = s.pool.threadCount) (others : t.workers = s.workers)
    (mine : pc.locked → t.pool.lock = some i)
    (kept : t.pool.lock = s.pool.lock ∨ s.pool.lock = none ∨ s.pool.lock = some i) :
    Owned (t.goto i pc) := by
  intro j inside locked
  change j < t.pool.threadCount at inside
  change t.pool.lock = some j
  by_cases same : j = i
  · subst same
    exact mine (by simpa [State.goto] using locked)
  · simp only [State.goto, Function.update_of_ne same, others] at locked
    have held := owned j (count ▸ inside) locked
    rcases kept with kept | free | mine'
    · exact kept.trans held
    · exact absurd (free.symm.trans held) (by simp)
    · exact absurd (Option.some.inj (mine'.symm.trans held)) (Ne.symm same)

theorem Owned.step {s t : State α} {a : Action α} (owned : Owned s) (step : Step s a t) : Owned t := by
  obtain ⟨enabled, rfl⟩ := step
  cases a with
  | addTask x w =>
    cases w with
    | none => exact owned
    | some i => exact owned.goto enabled.2.2.1 rfl rfl False.elim (.inl rfl)
  | acquire i => exact owned.goto enabled.1.1 rfl rfl (fun _ => rfl) (.inr (.inl enabled.2))
  | test i =>
    have mine := owned i enabled.1 (by rw [enabled.2]; trivial)
    exact owned.goto enabled.1 rfl rfl (fun _ => mine) (.inl rfl)
  | sleep i =>
    have mine := owned i enabled.1 (by rw [enabled.2]; trivial)
    exact owned.goto enabled.1 rfl rfl False.elim (.inr (.inr mine))
  | wake i => exact owned.goto enabled.1 rfl rfl False.elim (.inl rfl)
  | reacquire i => exact owned.goto enabled.1.1 rfl rfl (fun _ => rfl) (.inr (.inl enabled.2))
  | check i =>
    have mine := owned i enabled.1 (by rw [enabled.2]; trivial)
    exact owned.goto enabled.1 rfl rfl (fun _ => mine) (.inl rfl)
  | take i =>
    have mine := owned i enabled.1 (by rw [enabled.2]; trivial)
    simp only [system, next]
    split
    · exact owned.goto enabled.1 rfl rfl (fun _ => mine) (.inl rfl)
    · exact owned.goto enabled.1 rfl rfl (fun _ => mine) (.inl rfl)
  | finish i =>
    obtain ⟨bound, argument, calling⟩ := enabled
    have mine := owned i bound (by rw [calling]; trivial)
    exact owned.goto bound rfl rfl (fun _ => mine) (.inl rfl)
  | release i =>
    have mine := owned i enabled.1 (by rw [enabled.2]; trivial)
    exact owned.goto enabled.1 rfl rfl False.elim (.inr (.inr mine))
  | broadcast =>
    intro j inside locked
    refine owned j inside ?_
    simp only [system, next, State.wakeAll] at locked
    split at locked
    · exact locked.elim
    · exact locked
  | join =>
    obtain ⟨i, _, joining, _⟩ := enabled
    simp only [system, next, joining]
    exact owned
  | _ => exact owned

theorem mem_goto_exited {s : State α} {i j : Nat} {pc : Pc α} (leaves : pc ≠ .exited)
    (exited : (s.goto i pc).workers j = .exited) : s.workers j = .exited := by
  by_cases same : j = i
  · subst same
    exact absurd (by simpa [State.goto] using exited) leaves
  · simpa [State.goto, same] using exited

theorem step_exited {s t : State α} {a : Action α} (stays : StaysInLoop s a) (step : Step s a t) {j : Nat}
    (exited : t.workers j = .exited) : s.workers j = .exited := by
  obtain ⟨enabled, rfl⟩ := step
  cases a with
  | addTask x w =>
    cases w with
    | none => exact exited
    | some i => exact mem_goto_exited (by simp) exited
  | test i => exact mem_goto_exited (by split <;> simp) exited
  | check i =>
    have flag : s.pool.shutdown = false := stays
    simp only [system, next, flag] at exited
    exact mem_goto_exited (by simp) exited
  | take i =>
    simp only [system, next] at exited
    split at exited
    · exact mem_goto_exited (s := s.dequeue) (by simp) exited
    · exact mem_goto_exited (by simp) exited
  | broadcast =>
    simp only [system, next, State.wakeAll] at exited
    split at exited
    · cases exited
    · exact exited
  | join =>
    obtain ⟨i, _, joining, _⟩ := enabled
    simpa only [system, next, joining] using exited
  | acquire i | sleep i | wake i | reacquire i | finish i | release i =>
    exact mem_goto_exited (s := State.withLock s _) (by simp) exited
  | _ => exact exited

/-- A worker that sees the flag exits with the lock. -/
theorem break_orphans {s t : State α} {i : Nat} (owned : Owned s) (raised : s.pool.shutdown = true)
    (step : Step s (.check i) t) : Orphaned t := by
  obtain ⟨⟨bound, here⟩, rfl⟩ := step
  refine ⟨i, bound, owned i bound (by rw [here]; trivial), ?_⟩
  simp [system, next, raised, State.goto]

/-- No state of a run has the lock with an exited worker exactly when no worker of the run
    takes the `break`. -/
theorem never_orphaned_iff_stays {queueSize numThreads : Nat} {queue : Nat → α}
    {steps : List (State α × Action α)} {s : State α}
    (run : Run Step (poolCreate queueSize numThreads queue) steps s) :
    (∀ t ∈ visited steps s, ¬ Orphaned t) ↔ ∀ taken ∈ steps, StaysInLoop taken.1 taken.2 := by
  constructor
  · intro safe
    -- while no lock is orphaned, a worker inside its critical section owns the mutex
    suffices (∀ taken ∈ steps, StaysInLoop taken.1 taken.2) ∧ Owned s from this.1
    induction run with
    | refl => exact ⟨by simp, poolCreate_owned queueSize numThreads queue⟩
    | @snoc steps state a next before taken ih =>
      rw [visited_cons] at safe
      obtain ⟨stays, owned⟩ := ih fun t member => safe t (List.mem_cons_of_mem _ member)
      refine ⟨?_, owned.step taken⟩
      intro other member
      rcases List.mem_cons.mp member with rfl | member
      · cases a with
        | check i =>
          by_contra raised
          exact safe next List.mem_cons_self (break_orphans owned (by simpa [StaysInLoop] using raised) taken)
        | _ => trivial
      · exact stays other member
  · intro stays t member ⟨i, _, _, exited⟩
    exact run.invariant_visited StaysInLoop (fun s => ∀ j, s.workers j ≠ .exited)
      (fun j exited => by simp [poolCreate] at exited)
      (fun _ _ _ none stays step j exited => none j (step_exited stays step exited)) stays t member i exited

def serveOne : List (Action Nat) :=
  [.release 0, .finish 0, .take 0, .check 0, .test 0, .reacquire 0, .addTask 7 (some 0),
    .sleep 1, .test 1, .acquire 1, .sleep 0, .test 0, .acquire 0]

theorem never_orphaned_serve_one :
    Run Step (poolCreate 20 2 fun _ => 0) ((system Nat).trace (poolCreate 20 2 fun _ => 0) serveOne)
        ((system Nat).final (poolCreate 20 2 fun _ => 0) serveOne) ∧
      ¬ Orphaned ((system Nat).final (poolCreate 20 2 fun _ => 0) serveOne) := by
  have run := (system Nat).run_of_admits (show (system Nat).Admits (poolCreate 20 2 fun _ => 0) serveOne by decide)
  have safe := (never_orphaned_iff_stays run).mpr
    (by simp [serveOne, Transition.System.trace, Transition.System.final, StaysInLoop, poolCreate, system, next,
      State.goto, State.withLock, State.enqueue, State.wakeOne])
  exact ⟨run, safe _ (last_mem_visited _ _)⟩

/-- The mutex is gone for good, and worker `j`, which `pool_destroy` has still to join, needs it. -/
structure Stuck (i j : Nat) (s : State α) : Prop where
  distinct : j ≠ i
  owner : s.pool.lock = some i
  exited : s.workers i = .exited
  waits : s.workers j = .lock ∨ s.workers j = .asleep ∨ s.workers j = .woken
  unlocked : ∀ k < s.pool.threadCount, ¬ (s.workers k).locked
  unjoined : ∀ k, s.main = .joining k → k ≤ j
  counted : j < s.pool.threadCount
  alive : s.main ≠ .destroyed

theorem Stuck.wake {i j k : Nat} {s : State α} (stuck : Stuck i j s) (asleep : s.workers k = .asleep) :
    Stuck i j (s.goto k .woken) where
  distinct := stuck.distinct
  owner := stuck.owner
  exited := by
    have other : i ≠ k := fun same => by have := stuck.exited; rw [same, asleep] at this; cases this
    simpa [State.goto, other] using stuck.exited
  waits := by
    by_cases same : j = k
    · exact .inr (.inr (by simp [State.goto, same]))
    · simpa [State.goto, same] using stuck.waits
  unlocked := by
    intro l bound locked
    by_cases same : l = k
    · simp [State.goto, same, Pc.locked] at locked
    · exact stuck.unlocked l bound (by simpa [State.goto, same] using locked)
  unjoined := stuck.unjoined
  counted := stuck.counted
  alive := stuck.alive

theorem Stuck.step {i j : Nat} {s t : State α} {a : Action α} (stuck : Stuck i j s) (step : Step s a t) :
    Stuck i j t := by
  obtain ⟨enabled, rfl⟩ := step
  have held : s.pool.lock ≠ none := by rw [stuck.owner]; simp
  cases a with
  | addTask x w => cases w <;> exact absurd enabled.2.1 held
  | acquire k => exact absurd enabled.2 held
  | reacquire k => exact absurd enabled.2 held
  | wake k => exact stuck.wake enabled.2
  | test k | sleep k | check k | take k | release k =>
    exact absurd (by rw [enabled.2]; trivial) (stuck.unlocked k enabled.1)
  | finish k =>
    obtain ⟨bound, argument, calling⟩ := enabled
    exact absurd (by rw [calling]; trivial) (stuck.unlocked k bound)
  | raise => exact ⟨stuck.distinct, stuck.owner, stuck.exited, stuck.waits, stuck.unlocked, by simp [system, next],
      stuck.counted, by simp [system, next]⟩
  | broadcast =>
    refine ⟨stuck.distinct, stuck.owner, ?_, ?_, ?_, ?_, stuck.counted, by simp [system, next]⟩
    · simp [system, next, State.wakeAll, stuck.exited]
    · rcases stuck.waits with h | h | h <;> simp [system, next, State.wakeAll, h]
    · intro k bound locked
      refine stuck.unlocked k bound ?_
      simp only [system, next, State.wakeAll] at locked
      split at locked
      · exact locked.elim
      · exact locked
    · intro k joining
      simp only [system, next, Main.joining.injEq] at joining
      omega
  | join =>
    obtain ⟨k, bound, joining, done⟩ := enabled
    have before := stuck.unjoined k joining
    have other : k ≠ j := by
      rintro rfl
      rcases stuck.waits with h | h | h <;> rw [h] at done <;> cases done
    simp only [system, next, joining]
    refine ⟨stuck.distinct, stuck.owner, stuck.exited, stuck.waits, stuck.unlocked, ?_, stuck.counted, by simp⟩
    intro l after
    simp only [Main.joining.injEq] at after
    omega
  | free =>
    have := stuck.unjoined _ enabled
    have := stuck.counted
    omega

/-- From then on worker `j` never leaves `thread_do_work` and `pool_destroy` never returns. -/
theorem Stuck.forever {i j : Nat} {s t : State α} {steps : List (State α × Action α)} (stuck : Stuck i j s)
    (run : Run Step s steps t) : t.workers j ≠ .exited ∧ t.main ≠ .destroyed := by
  have still := run.invariant (fun _ _ => True) (Stuck i j) stuck
    (fun _ _ _ stuck _ step => stuck.step step) (fun _ _ => trivial)
  refine ⟨?_, still.alive⟩
  rcases still.waits with h | h | h <;> rw [h] <;> simp

/-- SIGINT while both workers sleep: worker 0 wakes up, sees the flag and exits with the lock. -/
def interrupted : List (Action Nat) :=
  [.check 0, .test 0, .reacquire 0, .broadcast, .raise, .sleep 1, .test 1, .acquire 1, .sleep 0, .test 0, .acquire 0]

theorem interrupted_orphans_lock :
    Run Step (poolCreate 20 2 fun _ => 0) ((system Nat).trace (poolCreate 20 2 fun _ => 0) interrupted)
        ((system Nat).final (poolCreate 20 2 fun _ => 0) interrupted) ∧
      Orphaned ((system Nat).final (poolCreate 20 2 fun _ => 0) interrupted) ∧
      ∀ steps t, Run Step ((system Nat).final (poolCreate 20 2 fun _ => 0) interrupted) steps t →
        t.workers 1 ≠ .exited ∧ t.main ≠ .destroyed := by
  refine ⟨(system Nat).run_of_admits (by decide), ⟨0, by decide, by decide, by decide⟩, ?_⟩
  intro steps t run
  refine Stuck.forever (i := 0) ⟨by decide, by decide, by decide, by decide, ?_, ?_, by decide, by decide⟩ run
  · intro k bound
    have cases : k = 0 ∨ k = 1 := by
      change k < 2 at bound
      omega
    rcases cases with rfl | rfl <;> exact id
  · intro k joining
    have first : Main.joining 0 = Main.joining k := joining
    cases first
    omega

end Eecs343.Server.ThreadPool
