import Mathlib.Logic.Function.Basic
import Eecs343.Base.Prog
import Eecs343.Base.Transition

namespace Interleave

open Prog Transition

variable {σ κ ρ ι : Type}

/-- Threads that share a store. From the place where it stands a thread runs the block there in one step, which leads
    it to its next place; where there is none, the thread is done. -/
def Step [DecidableEq ι] (block : κ → Option (Prog σ κ)) (x : σ × (ι → κ)) (i : ι) (y : σ × (ι → κ)) : Prop :=
  ∃ p place, block (x.2 i) = some p ∧ Runs p x.1 place y.1 ∧ y.2 = Function.update x.2 i place

/-- What is left to do at a place is its block, and then what is left at the place behind it. -/
def Composes (block : κ → Option (Prog σ κ)) (program : κ → Prog σ ρ) : Prop :=
  ∀ place p, block place = some p → program place = p.bind program

section

variable [DecidableEq ι] {block : κ → Option (Prog σ κ)} {x y : σ × (ι → κ)} {i j : ι}

theorem Step.here (step : Step block x i y) : ∃ p, block (x.2 i) = some p ∧ Runs p x.1 (y.2 i) y.1 := by
  obtain ⟨p, place, here, runs, places⟩ := step
  rw [places, Function.update_self]
  exact ⟨p, here, runs⟩

theorem Step.places (step : Step block x i y) : y.2 = Function.update x.2 i (y.2 i) := by
  obtain ⟨_, _, _, _, places⟩ := step
  rw [places, Function.update_self]

theorem Step.other (step : Step block x i y) (different : j ≠ i) : y.2 j = x.2 j := by
  obtain ⟨_, _, _, _, places⟩ := step
  rw [places, Function.update_of_ne different]

/-- A thread that has the store to itself does block by block what its program does. -/
theorem Composes.alone {program : κ → Prog σ ρ} (composes : Composes block program) {steps : List ((σ × (ι → κ)) × ι)}
    (run : Run (Step block) x steps y) (alone : ∀ taken ∈ steps, taken.2 = i) {r : ρ} {t : σ}
    (ends : Runs (program (y.2 i)) y.1 r t) : Runs (program (x.2 i)) x.1 r t := by
  induction run with
  | refl => exact ends
  | @snoc steps state label next before taken ih =>
    obtain ⟨rfl, earlier⟩ := List.forall_mem_cons.mp alone
    apply ih earlier
    obtain ⟨p, here, runs⟩ := taken.here
    rw [composes _ _ here]
    exact ends.after (runs.bind program)

/-- The steps of a schedule, whose last thread comes first, and what it makes of a state. -/
def schedule (fuel : Nat) (block : κ → Option (Prog σ κ)) (x : σ × (ι → κ)) :
    List ι → Option (List ((σ × (ι → κ)) × ι) × σ × (ι → κ))
  | [] => some ([], x)
  | i :: earlier => (schedule fuel block x earlier).bind fun ran => (block (ran.2.2 i)).bind fun p =>
      (exec fuel p ran.2.1).map fun done => ((ran.2, i) :: ran.1, done.2, Function.update ran.2.2 i done.1)

theorem run_of_schedule {fuel : Nat} {threads : List ι} {ran : List ((σ × (ι → κ)) × ι) × σ × (ι → κ)}
    (scheduled : schedule fuel block x threads = some ran) : Run (Step block) x ran.1 ran.2 := by
  induction threads generalizing ran with
  | nil =>
    cases scheduled
    exact .refl
  | cons i earlier ih =>
    obtain ⟨before, first, advanced⟩ := Option.bind_eq_some_iff.mp scheduled
    obtain ⟨p, here, advanced⟩ := Option.bind_eq_some_iff.mp advanced
    obtain ⟨⟨place, t⟩, executed, rfl⟩ := Option.map_eq_some_iff.mp advanced
    exact (ih first).snoc ⟨p, place, here, runs_of_exec executed, rfl⟩

end

/-- No thread stands at a place inside. -/
def Nobody (inside : κ → Prop) (places : ι → κ) : Prop := ∀ j, ¬ inside (places j)

/-- One thread alone does. -/
def Only (inside : κ → Prop) (places : ι → κ) (i : ι) : Prop := ∀ j, inside (places j) ↔ j = i

section

variable [DecidableEq ι] {inside : κ → Prop} {places : ι → κ} {i j : ι} {place : κ}

theorem Nobody.enter (nobody : Nobody inside places) (enters : inside place) :
    Only inside (Function.update places i place) i := by
  intro k
  by_cases same : k = i
  · simpa [same] using enters
  · simpa [same] using nobody k

theorem Nobody.stay (nobody : Nobody inside places) (outside : ¬ inside place) :
    Nobody inside (Function.update places i place) := by
  intro k
  by_cases same : k = i
  · simpa [same] using outside
  · simpa [same] using nobody k

theorem Only.stay (only : Only inside places i) (remains : inside place) :
    Only inside (Function.update places i place) i := by
  intro k
  by_cases same : k = i
  · simpa [same] using remains
  · simpa [same] using only k

theorem Only.leave (only : Only inside places i) (leaves : ¬ inside place) :
    Nobody inside (Function.update places i place) := by
  intro k
  by_cases same : k = i
  · simpa [same] using leaves
  · have := only k
    simpa [same] using this

theorem Only.beside (only : Only inside places i) (before : ¬ inside (places j)) (after : ¬ inside place) :
    Only inside (Function.update places j place) i := by
  intro k
  by_cases same : k = j
  · subst same
    have different : k ≠ i := fun here => before ((only k).mpr here)
    simpa [different] using after
  · simpa [same] using only k

end

end Interleave
