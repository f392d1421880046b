import Eecs343.Server.ThreadPool.Model

namespace Eecs343.Server.ThreadPool

open Transition

variable {α : Type}

/-- `pool_destroy` is past its `pthread_cond_broadcast`. -/
def Main.delivered : Main → Prop
  | .joining _ | .destroyed => True
  | .serving | .raised => False

/-- A worker sleeps, or will sleep because the flag was FALSE when it looked, after the only
    broadcast there is. -/
def MissedWakeup (s : State α) : Prop :=
  s.main.delivered ∧ ∃ i < s.pool.threadCount, s.workers i = .asleep ∨ s.workers i = .wait

/-- The broadcast meets no worker that has tested the condition and not gone to sleep yet. -/
def NoneDeciding (s : State α) : Action α → Prop
  | .broadcast => ∀ i < s.pool.threadCount, s.workers i ≠ .wait
  | _ => True

instance [DecidableEq α] (s : State α) : (a : Action α) → Decidable (NoneDeciding s a)
  | .broadcast => inferInstanceAs (Decidable (∀ i < s.pool.threadCount, s.workers i ≠ .wait))
  | .addTask .. | .acquire _ | .test _ | .sleep _ | .wake _ | .reacquire _ | .check _ | .take _ | .finish _ | .release _
  | .raise | .join | .free => inferInstanceAs (Decidable True)

/-- `pool_destroy` sets the flag before everything else it does, and nothing clears it. -/
def Raised (s : State α) : Prop := s.main ≠ .serving → s.pool.shutdown = true

theorem Raised.step {s t : State α} {a : Action α} (raised : Raised s) (step : Step s a t) : Raised t := by
  obtain ⟨enabled, rfl⟩ := step
  cases a with
  | addTask x w => cases w <;> exact raised
  | take i =>
    simp only [system, next]
    split
    · exact raised
    · exact raised
  | raise => exact fun _ => rfl
  | broadcast =>
    intro _
    apply raised
    rw [show s.main = .raised from enabled]
    simp
  | join =>
    obtain ⟨i, _, joining, _⟩ := enabled
    intro _
    simp only [system, next, joining]
    apply raised
    simp [joining]
  | free =>
    intro _
    apply raised
    rw [show s.main = .joining _ from enabled]
    simp
  | _ => exact raised

/-- What a worker does after the broadcast leaves nobody asleep or about to be. -/
theorem not_missed_goto {s t : State α} {i : Nat} {pc : Pc α} (safe : ¬ MissedWakeup s) (main : t.main = s.main)
    (count : t.pool.threadCount = s.pool.threadCount) (others : t.workers = s.workers)
    (awake : s.main.delivered → pc ≠ .asleep ∧ pc ≠ .wait) : ¬ MissedWakeup (t.goto i pc) := by
  intro ⟨delivered, j, inside, missed⟩
  change t.main.delivered at delivered
  change j < t.pool.threadCount at inside
  rw [main] at delivered
  apply safe
  by_cases same : j = i
  · subst same
    simp only [State.goto, Function.update_self] at missed
    exact (missed.elim (awake delivered).1 (awake delivered).2).elim
  · simp only [State.goto, Function.update_of_ne same, others] at missed
    exact ⟨delivered, j, count ▸ inside, missed⟩

/-- With no worker between its test and its sleep at the broadcast, a step keeps the wake-ups. -/
theorem not_missed_step {s t : State α} {a : Action α} (raised : Raised s) (safe : ¬ MissedWakeup s)
    (quiet : NoneDeciding s a) (step : Step s a t) : ¬ MissedWakeup t := by
  obtain ⟨enabled, rfl⟩ := step
  cases a with
  | addTask x w =>
    have serving : s.main = .serving := by cases w <;> exact enabled.1
    have main : ((system α).next s (.addTask x w)).main = s.main := by cases w <;> rfl
    intro ⟨delivered, _⟩
    rw [main, serving] at delivered
    exact delivered
  | test i =>
    apply not_missed_goto safe rfl rfl rfl
    intro delivered
    -- the flag is up before the broadcast, so that the test does not lead to sleep
    have flag : s.pool.shutdown = true := by
      apply raised
      intro serving
      rw [serving] at delivered
      exact delivered
    simp [State.idle, flag]
  | sleep i =>
    apply not_missed_goto safe rfl rfl rfl
    intro delivered
    exact (safe ⟨delivered, i, enabled.1, .inr enabled.2⟩).elim
  | check i =>
    apply not_missed_goto safe rfl rfl rfl
    intro _
    split <;> simp
  | take i =>
    simp only [system, next]
    split
    · exact not_missed_goto safe rfl rfl rfl (by simp)
    · exact not_missed_goto safe rfl rfl rfl (by simp)
  | raise => exact fun missed => missed.1
  | broadcast =>
    intro ⟨_, i, inside, missed⟩
    have steady := quiet i inside
    simp only [system, next, State.wakeAll] at missed
    cases here : s.workers i <;> simp_all
  | join =>
    obtain ⟨i, _, joining, _⟩ := enabled
    simp only [system, next, joining]
    intro ⟨_, sleeper⟩
    exact safe ⟨by rw [joining]; trivial, sleeper⟩
  | free =>
    intro ⟨_, sleeper⟩
    exact safe ⟨by rw [show s.main = .joining _ from enabled]; trivial, sleeper⟩
  | acquire i | wake i | reacquire i | finish i | release i =>
    exact not_missed_goto safe rfl rfl rfl (by simp)

/-- A worker the broadcast finds past its test and not asleep goes to sleep after it. -/
theorem none_deciding_of_not_missed {s t : State α} {a : Action α} (safe : ¬ MissedWakeup t)
    (step : Step s a t) : NoneDeciding s a := by
  obtain ⟨_, rfl⟩ := step
  cases a with
  | broadcast =>
    intro i inside deciding
    apply safe
    refine ⟨trivial, i, inside, .inr ?_⟩
    simp [system, next, State.wakeAll, deciding]
  | _ => trivial

/-- No state of a run has a worker asleep, or about to sleep, behind the broadcast exactly when
    the broadcast of the run met no worker between its test and its sleep. -/
theorem never_missed_iff_none_deciding {queueSize numThreads : Nat} {queue : Nat → α}
    {steps : List (State α × Action α)} {s : State α}
    (run : Run Step (poolCreate queueSize numThreads queue) steps s) :
    (∀ t ∈ visited steps s, ¬ MissedWakeup t) ↔ ∀ taken ∈ steps, NoneDeciding taken.1 taken.2 := by
  apply run.invariant_iff NoneDeciding Raised (fun s => ¬ MissedWakeup s)
  · intro started
    exact (started rfl).elim
  · exact fun missed => missed.1
  · exact fun _ _ _ raised step => raised.step step
  · intro state action next raised safe step
    exact ⟨fun after => none_deciding_of_not_missed after step,
      fun quiet => not_missed_step raised safe quiet step⟩

def stoppedAsleep : List (Action Nat) :=
  [.broadcast, .raise, .sleep 1, .test 1, .acquire 1, .sleep 0, .test 0, .acquire 0]

theorem never_missed_stopped_asleep :
    Run Step (poolCreate 20 2 fun _ => 0) ((system Nat).trace (poolCreate 20 2 fun _ => 0) stoppedAsleep)
        ((system Nat).final (poolCreate 20 2 fun _ => 0) stoppedAsleep) ∧
      ¬ MissedWakeup ((system Nat).final (poolCreate 20 2 fun _ => 0) stoppedAsleep) := by
  have run := (system Nat).run_of_admits
    (show (system Nat).Admits (poolCreate 20 2 fun _ => 0) stoppedAsleep by decide)
  have safe := (never_missed_iff_none_deciding run).mpr
    (by decide)
  exact ⟨run, safe _ (last_mem_visited _ _)⟩

def stoppedDeciding : List (Action Nat) := [.sleep 0, .broadcast, .raise, .test 0, .acquire 0]

theorem stopped_deciding_misses :
    Run Step (poolCreate 20 20 fun _ => 0) ((system Nat).trace (poolCreate 20 20 fun _ => 0) stoppedDeciding)
        ((system Nat).final (poolCreate 20 20 fun _ => 0) stoppedDeciding) ∧
      MissedWakeup ((system Nat).final (poolCreate 20 20 fun _ => 0) stoppedDeciding) :=
  ⟨(system Nat).run_of_admits (by decide), trivial, 0, by decide, .inl (by decide)⟩

end Eecs343.Server.ThreadPool
