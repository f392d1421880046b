import Mathlib.Data.List.Basic

namespace Transition

variable {σ ι : Type*}

/-- A run from `start`: its steps, latest first, each with the state it was taken from. -/
inductive Run (step : σ → ι → σ → Prop) (start : σ) : List (σ × ι) → σ → Prop where
  | refl : Run step start [] start
  | snoc {steps state label next} (before : Run step start steps state)
      (taken : step state label next) : Run step start ((state, label) :: steps) next

def visited (steps : List (σ × ι)) (last : σ) : List σ := last :: steps.map Prod.fst

@[simp] theorem visited_cons (state : σ) (label : ι) (steps : List (σ × ι)) (last : σ) :
    visited ((state, label) :: steps) last = last :: visited steps state := rfl

theorem last_mem_visited (steps : List (σ × ι)) (last : σ) : last ∈ visited steps last := by
  simp [visited]

variable {step : σ → ι → σ → Prop} {start : σ}

theorem Run.start_mem_visited {steps : List (σ × ι)} {last : σ} (run : Run step start steps last) :
    start ∈ visited steps last := by
  induction run with
  | refl => exact last_mem_visited _ _
  | snoc before taken ih => exact List.mem_cons_of_mem _ ih

/-- The invariant rule: what the first state has and every admitted step keeps, a run of
    admitted steps has at its end. -/
theorem Run.invariant {steps : List (σ × ι)} {last : σ} (run : Run step start steps last)
    (admitted : σ → ι → Prop) (inv : σ → Prop) (initial : inv start)
    (kept : ∀ state label next, inv state → admitted state label → step state label next → inv next)
    (good : ∀ taken ∈ steps, admitted taken.1 taken.2) : inv last := by
  induction run with
  | refl => exact initial
  | snoc before taken ih =>
    have held := ih fun earlier member => good earlier (List.mem_cons_of_mem _ member)
    exact kept _ _ _ held (good (_, _) List.mem_cons_self) taken

theorem Run.invariant_visited {steps : List (σ × ι)} {last : σ} (run : Run step start steps last)
    (admitted : σ → ι → Prop) (inv : σ → Prop) (initial : inv start)
    (kept : ∀ state label next, inv state → admitted state label → step state label next → inv next)
    (good : ∀ taken ∈ steps, admitted taken.1 taken.2) : ∀ state ∈ visited steps last, inv state := by
  induction run with
  | refl => simpa [visited] using initial
  | snoc before taken ih =>
    have earlier := ih fun other member => good other (List.mem_cons_of_mem _ member)
    intro state member
    rw [visited_cons] at member
    rcases List.mem_cons.mp member with rfl | member
    · exact kept _ _ _ (earlier _ (last_mem_visited _ _)) (good (_, _) List.mem_cons_self) taken
    · exact earlier state member

/-- Where a property of states survives exactly the admitted steps, every state of a run has it
    exactly when all steps were admitted. -/
theorem Run.invariant_iff {steps : List (σ × ι)} {last : σ} (run : Run step start steps last)
    (admitted : σ → ι → Prop) (inv good : σ → Prop) (initial : inv start) (sound : good start)
    (kept : ∀ state label next, inv state → step state label next → inv next)
    (survives : ∀ state label next, inv state → good state → step state label next →
      (good next ↔ admitted state label)) :
    (∀ state ∈ visited steps last, good state) ↔ ∀ taken ∈ steps, admitted taken.1 taken.2 := by
  have held : ∀ {steps : List (σ × ι)} {last : σ}, Run step start steps last → inv last := fun run =>
    run.invariant (fun _ _ => True) inv initial (fun _ _ _ holds _ => kept _ _ _ holds) fun _ _ => trivial
  induction run with
  | refl => simpa [visited] using sound
  | @snoc steps state label next before taken ih =>
    rw [visited_cons, List.forall_mem_cons, List.forall_mem_cons]
    constructor
    · intro ⟨now, earlier⟩
      have here := earlier state (last_mem_visited _ _)
      exact ⟨(survives _ _ _ (held before) here taken).mp now, ih.mp earlier⟩
    · intro ⟨now, earlier⟩
      have here := ih.mpr earlier state (last_mem_visited _ _)
      exact ⟨(survives _ _ _ (held before) here taken).mpr now, ih.mpr earlier⟩

def transitions : List (σ × ι) → σ → List (σ × ι × σ)
  | [], _ => []
  | (state, label) :: earlier, last => (state, label, last) :: transitions earlier state

theorem mem_transitions {steps : List (σ × ι)} {last : σ} {taken : σ × ι} (member : taken ∈ steps) :
    ∃ next, (taken.1, taken.2, next) ∈ transitions steps last := by
  induction steps generalizing last with
  | nil => cases member
  | cons first earlier ih =>
    rcases List.mem_cons.mp member with rfl | member
    · exact ⟨last, List.mem_cons_self⟩
    · obtain ⟨next, found⟩ := @ih first.1 member
      exact ⟨next, List.mem_cons_of_mem _ found⟩

theorem Run.transition {steps : List (σ × ι)} {state next last : σ} {label : ι} (run : Run step start steps last)
    (member : (state, label, next) ∈ transitions steps last) :
    state ∈ visited steps last ∧ (state, label) ∈ steps ∧ next ∈ visited steps last ∧ step state label next := by
  induction run with
  | refl => cases member
  | snoc before taken ih =>
    rcases List.mem_cons.mp member with same | member
    · cases same
      exact ⟨List.mem_cons_of_mem _ (last_mem_visited _ _), List.mem_cons_self, last_mem_visited _ _, taken⟩
    · obtain ⟨first, inside, after, taken⟩ := ih member
      exact ⟨List.mem_cons_of_mem _ first, List.mem_cons_of_mem _ inside, List.mem_cons_of_mem _ after, taken⟩

/-- What every step from a state with the invariant does, every step of a run does. -/
theorem Run.always {steps : List (σ × ι)} {last : σ} (run : Run step start steps last) (inv : σ → Prop)
    (does : σ → ι → σ → Prop) (initial : inv start)
    (kept : ∀ state label next, inv state → step state label next → inv next ∧ does state label next) :
    ∀ taken ∈ transitions steps last, does taken.1 taken.2.1 taken.2.2 := by
  suffices inv last ∧ ∀ taken ∈ transitions steps last, does taken.1 taken.2.1 taken.2.2 from this.2
  induction run with
  | refl => exact ⟨initial, by simp [transitions]⟩
  | snoc before taken ih =>
    obtain ⟨held, done⟩ := kept _ _ _ ih.1 taken
    refine ⟨held, ?_⟩
    intro other member
    rcases List.mem_cons.mp member with rfl | member
    · exact done
    · exact ih.2 other member

/-- Where a step does something exactly when it is admitted, all steps of a run do so exactly when
    all are admitted. -/
theorem Run.always_iff {steps : List (σ × ι)} {last : σ} (run : Run step start steps last)
    (admitted : σ → ι → Prop) (does : σ → ι → σ → Prop)
    (exact : ∀ state label next, step state label next → (does state label next ↔ admitted state label)) :
    (∀ taken ∈ transitions steps last, does taken.1 taken.2.1 taken.2.2) ↔ ∀ taken ∈ steps, admitted taken.1 taken.2 := by
  induction run with
  | refl => simp [transitions]
  | snoc before taken ih =>
    simp only [transitions, List.forall_mem_cons]
    rw [ih, exact _ _ _ taken]

/-- A run is the run up to any of its steps, that step and the run from there. -/
theorem Run.split {later earlier : List (σ × ι)} {state last : σ} {label : ι}
    (run : Run step start (later ++ (state, label) :: earlier) last) :
    ∃ next, Run step start earlier state ∧ step state label next ∧ Run step next later last := by
  induction later generalizing last with
  | nil =>
    cases run with
    | snoc before taken => exact ⟨last, before, taken, .refl⟩
  | cons other later ih =>
    cases run with
    | snoc before taken =>
      obtain ⟨next, first, here, rest⟩ := ih before
      exact ⟨next, first, here, .snoc rest taken⟩

/-- A deterministic system: which actions a state admits, and where each leads. -/
structure System (σ ι : Type*) where
  enabled : σ → ι → Prop
  next : σ → ι → σ

namespace System

variable (system : System σ ι)

def Step (state : σ) (action : ι) (next : σ) : Prop :=
  system.enabled state action ∧ next = system.next state action

def final (start : σ) : List ι → σ
  | [] => start
  | action :: earlier => system.next (final start earlier) action

def trace (start : σ) : List ι → List (σ × ι)
  | [] => []
  | action :: earlier => (system.final start earlier, action) :: trace start earlier

/-- Every action of the schedule is admitted when its turn comes. -/
def Admits (start : σ) : List ι → Prop
  | [] => True
  | action :: earlier => Admits start earlier ∧ system.enabled (system.final start earlier) action

def decideAdmits [∀ state action, Decidable (system.enabled state action)] (start : σ) :
    ∀ schedule, Decidable (system.Admits start schedule)
  | [] => inferInstanceAs (Decidable True)
  | action :: earlier =>
    have := decideAdmits start earlier
    inferInstanceAs (Decidable (system.Admits start earlier ∧ system.enabled (system.final start earlier) action))

instance [∀ state action, Decidable (system.enabled state action)] (start : σ) (schedule : List ι) :
    Decidable (system.Admits start schedule) := system.decideAdmits start schedule

/-- A run goes on with a schedule that its last state admits. -/
theorem run_on {start state : σ} {steps : List (σ × ι)} {schedule : List ι} (run : Run system.Step start steps state)
    (admits : system.Admits state schedule) :
    Run system.Step start (system.trace state schedule ++ steps) (system.final state schedule) := by
  induction schedule with
  | nil => exact run
  | cons action earlier ih => exact .snoc (ih admits.1) ⟨admits.2, rfl⟩

theorem run_of_admits {start : σ} {schedule : List ι} (admits : system.Admits start schedule) :
    Run system.Step start (system.trace start schedule) (system.final start schedule) := by
  simpa using system.run_on .refl admits

end System

end Transition
