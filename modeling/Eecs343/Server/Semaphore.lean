import Mathlib.Data.Finset.Card
import Mathlib.Data.Fintype.Basic
import Eecs343.Base.Transition

namespace Eecs343.Server.Semaphore

open Transition Transition.System

inductive Pc where
  | outside
  /-- At `pthread_mutex_lock` of `sem_wait`. -/
  | waitLock
  /-- At the condition `s->count <= 0`, with the mutex. -/
  | test
  /-- The condition was true: about to enter `pthread_cond_wait`, still with the mutex. -/
  | wait
  | asleep
  /-- Still inside `pthread_cond_wait`, which returns only with the mutex. -/
  | woken
  | decrement
  | waitUnlock
  /-- `sem_wait` has returned: in the protected section. -/
  | inside
  /-- At `pthread_mutex_lock` of `sem_post`. -/
  | postLock
  | increment
  | broadcast
  | postUnlock
  deriving DecidableEq

/-- The thread has the mutex. -/
def Pc.locked : Pc → Prop
  | .test | .wait | .decrement | .waitUnlock | .increment | .broadcast | .postUnlock => True
  | .outside | .waitLock | .asleep | .woken | .inside | .postLock => False

/-- The thread has taken the unit of the semaphore in `sem_wait` and not given it back in `sem_post`. -/
def Pc.holding : Pc → Prop
  | .waitUnlock | .inside | .postLock | .increment => True
  | .outside | .waitLock | .test | .wait | .asleep | .woken | .decrement | .broadcast | .postUnlock => False

/-- `sem_wait` has returned, and the `sem_post` that answers it has not. -/
def Pc.between : Pc → Prop
  | .inside | .postLock | .increment | .broadcast | .postUnlock => True
  | .outside | .waitLock | .test | .wait | .asleep | .woken | .decrement | .waitUnlock => False

instance : DecidablePred Pc.locked := fun pc => by cases pc <;> unfold Pc.locked <;> infer_instance
instance : DecidablePred Pc.holding := fun pc => by cases pc <;> unfold Pc.holding <;> infer_instance
instance : DecidablePred Pc.between := fun pc => by cases pc <;> unfold Pc.between <;> infer_instance

variable {ι : Type}

/-- `m_sem_t`, the mutex with its owner, and the threads that use it. -/
structure State (ι : Type) where
  mutex : Option ι
  count : Int
  threads : ι → Pc

/-- After `sem_init`. -/
def semInit : State ι := ⟨none, 1, fun _ => .outside⟩

/-- A thread takes its next step, or wakes up in `pthread_cond_wait` for no reason. -/
inductive Action (ι : Type) where
  | run (i : ι)
  | wake (i : ι)

variable [DecidableEq ι]

def State.goto (s : State ι) (i : ι) (pc : Pc) : State ι := { s with threads := Function.update s.threads i pc }

/-- What `pthread_cond_broadcast` does to the threads. -/
def State.wakeAll (s : State ι) : State ι :=
  { s with threads := fun i => match s.threads i with
      | .asleep => .woken
      | pc => pc }

/-- A thread at `pc` can go on while `mutex` is the owner of the mutex. -/
def Pc.runs (mutex : Option ι) : Pc → Prop
  | .waitLock | .woken | .postLock => mutex = none
  | .asleep => False
  | _ => True

instance (mutex : Option ι) (pc : Pc) : Decidable (pc.runs mutex) := by
  cases pc <;> unfold Pc.runs <;> infer_instance

def enabled (s : State ι) : Action ι → Prop
  | .run i => (s.threads i).runs s.mutex
  | .wake i => s.threads i = .asleep

/-- The next step of thread `i`, which calls `sem_wait` and `sem_post` by turns. -/
def run (s : State ι) (i : ι) : State ι :=
  match s.threads i with
  | .outside => s.goto i .waitLock
  | .waitLock => { s.goto i .test with mutex := some i }
  | .test => if s.count ≤ 0 then s.goto i .wait else s.goto i .decrement
  | .wait => { s.goto i .asleep with mutex := none }
  | .asleep => s
  | .woken => { s.goto i .test with mutex := some i }
  | .decrement => { s.goto i .waitUnlock with count := s.count - 1 }
  | .waitUnlock => { s.goto i .inside with mutex := none }
  | .inside => s.goto i .postLock
  | .postLock => { s.goto i .increment with mutex := some i }
  | .increment => { s.goto i .broadcast with count := s.count + 1 }
  | .broadcast => s.wakeAll.goto i .postUnlock
  | .postUnlock => { s.goto i .outside with mutex := none }

instance (s : State ι) : ∀ action, Decidable (enabled s action)
  | .run i => inferInstanceAs (Decidable ((s.threads i).runs s.mutex))
  | .wake i => inferInstanceAs (Decidable (s.threads i = .asleep))

def next (s : State ι) : Action ι → State ι
  | .run i => run s i
  | .wake i => s.goto i .woken

/-- The threads and the semaphore, in any interleaving. -/
def system (ι : Type) [DecidableEq ι] : System (State ι) (Action ι) := ⟨enabled, next⟩

instance (s : State ι) (action : Action ι) : Decidable ((system ι).enabled s action) :=
  inferInstanceAs (Decidable (enabled s action))

variable {s : State ι} {i j : ι} {pc : Pc}

theorem goto_self : (s.goto i pc).threads i = pc := Function.update_self ..

theorem goto_of_ne (ne : j ≠ i) : (s.goto i pc).threads j = s.threads j := Function.update_of_ne ne ..

variable [Fintype ι]

def State.holders (s : State ι) : Finset ι := Finset.univ.filter fun i => (s.threads i).holding

/-- What holds between any two steps. A thread that sleeps, or has decided to, finds the count taken
    or a poster that has not broadcast yet. -/
structure Inv (s : State ι) : Prop where
  owner : ∀ i, (s.threads i).locked → s.mutex = some i
  nonneg : 0 ≤ s.count
  unit : s.count + s.holders.card = 1
  taking : ∀ i, s.threads i = .decrement → 0 < s.count
  told : ∀ i, s.threads i = .asleep ∨ s.threads i = .wait → 0 < s.count → ∃ j, s.threads j = .broadcast

omit [DecidableEq ι] in
theorem Inv.initial : Inv (semInit : State ι) := by
  refine ⟨?_, Int.one_nonneg, ?_, ?_, ?_⟩
  · intro i locked
    exact locked.elim
  · have none : (semInit : State ι).holders = ∅ := Finset.filter_false_of_mem fun i _ holds => holds
    rw [none]
    rfl
  · intro i at_decrement
    cases at_decrement
  · intro i stopped
    rcases stopped with stopped | stopped <;> cases stopped

omit [DecidableEq ι] in
theorem Inv.locked_unique (inv : Inv s) (left : (s.threads i).locked) (right : (s.threads j).locked) : i = j :=
  Option.some.inj ((inv.owner i left).symm.trans (inv.owner j right))

omit [DecidableEq ι] in
/-- A thread with the mutex that is about to sleep has found the count taken. -/
theorem Inv.none_left (inv : Inv s) (here : s.threads i = .wait) : s.count ≤ 0 := by
  by_contra left
  obtain ⟨j, posting⟩ := inv.told i (.inr here) (Int.not_le.mp left)
  have same := inv.locked_unique (i := i) (j := j) (by rw [here]; trivial) (by rw [posting]; trivial)
  rw [← same, here] at posting
  cases posting

theorem holders_goto : (s.goto i pc).holders = if pc.holding then insert i s.holders else s.holders.erase i := by
  ext j
  by_cases same : j = i
  · subst same
    by_cases holds : pc.holding <;> simp [State.holders, goto_self, holds]
  · by_cases holds : pc.holding <;> simp [State.holders, goto_of_ne, same, holds]

theorem holders_goto_same (same : pc.holding ↔ (s.threads i).holding) : (s.goto i pc).holders = s.holders := by
  rw [holders_goto]
  split
  · rename_i holds
    apply Finset.insert_eq_of_mem
    simpa [State.holders] using same.mp holds
  · rename_i holds
    apply Finset.erase_eq_of_notMem
    simpa [State.holders] using fun held => holds (same.mpr held)

theorem Inv.goto (inv : Inv s) {mutex : Option ι} (own : pc.locked → mutex = some i)
    (others : ∀ j, j ≠ i → (s.threads j).locked → mutex = some j) (same : pc.holding ↔ (s.threads i).holding)
    (taking : pc = .decrement → 0 < s.count) (told : pc = .asleep ∨ pc = .wait → s.count ≤ 0)
    (quiet : s.threads i ≠ .broadcast) : Inv { s.goto i pc with mutex := mutex } := by
  refine ⟨?_, inv.nonneg, ?_, ?_, ?_⟩
  · intro j locked
    change ((s.goto i pc).threads j).locked at locked
    by_cases here : j = i
    · subst here
      rw [goto_self] at locked
      exact own locked
    · rw [goto_of_ne here] at locked
      exact others j here locked
  · exact (congrArg (fun held => s.count + (held.card : Int)) (holders_goto_same same)).trans inv.unit
  · intro j deciding
    change (s.goto i pc).threads j = _ at deciding
    by_cases here : j = i
    · subst here
      rw [goto_self] at deciding
      exact taking deciding
    · rw [goto_of_ne here] at deciding
      exact inv.taking j deciding
  · intro j stopped left
    change (s.goto i pc).threads j = _ ∨ (s.goto i pc).threads j = _ at stopped
    by_cases here : j = i
    · subst here
      rw [goto_self] at stopped
      exact absurd left (Int.not_lt.mpr (told stopped))
    · rw [goto_of_ne here] at stopped
      obtain ⟨k, posting⟩ := inv.told j stopped left
      refine ⟨k, ?_⟩
      change (s.goto i pc).threads k = _
      rw [goto_of_ne, posting]
      intro same
      rw [same] at posting
      exact quiet posting

omit [DecidableEq ι] in
theorem Inv.others_unlocked (inv : Inv s) (locked : (s.threads i).locked) {mutex : Option ι} (j : ι) (ne : j ≠ i)
    (other : (s.threads j).locked) : mutex = some j :=
  absurd (inv.locked_unique other locked) ne

theorem Inv.stay (inv : Inv s) (own : pc.locked → (s.threads i).locked) (same : pc.holding ↔ (s.threads i).holding)
    (taking : pc = .decrement → 0 < s.count) (told : pc = .asleep ∨ pc = .wait → s.count ≤ 0)
    (quiet : s.threads i ≠ .broadcast) : Inv (s.goto i pc) :=
  inv.goto (fun locked => inv.owner i (own locked)) (fun j _ locked => inv.owner j locked) same taking told quiet

theorem Inv.lock (inv : Inv s) (free : s.mutex = none) (same : pc.holding ↔ (s.threads i).holding)
    (awake : pc ≠ .decrement ∧ pc ≠ .asleep ∧ pc ≠ .wait) (quiet : s.threads i ≠ .broadcast) :
    Inv { s.goto i pc with mutex := some i } := by
  refine inv.goto (fun _ => rfl) ?_ same (fun taking => absurd taking awake.1)
    (fun told => (told.elim awake.2.1 awake.2.2).elim) quiet
  intro j _ locked
  have held := inv.owner j locked
  rw [free] at held
  cases held

theorem Inv.unlock (inv : Inv s) (locked : (s.threads i).locked) (unlocked : ¬ pc.locked)
    (same : pc.holding ↔ (s.threads i).holding)
    (told : pc = .asleep → s.count ≤ 0) (quiet : s.threads i ≠ .broadcast) : Inv { s.goto i pc with mutex := none } := by
  refine inv.goto (fun held => absurd held unlocked) (inv.others_unlocked locked) same ?_ ?_ quiet
  · intro taking
    exact absurd (taking ▸ trivial) unlocked
  · rintro (asleep | wait)
    · exact told asleep
    · exact absurd (wait ▸ trivial) unlocked

theorem Inv.recount (inv : Inv s) (locked : (s.threads i).locked) (stays : pc.locked ∧ pc ≠ .wait ∧ pc ≠ .decrement)
    {count : Int}
    (nonneg : 0 ≤ count) (unit : count + (s.goto i pc).holders.card = 1) (told : 0 < count → pc = .broadcast) :
    Inv { s.goto i pc with count := count } := by
  have elsewhere : ∀ {j}, j ≠ i → ¬ (s.threads j).locked := fun ne other => ne (inv.locked_unique other locked)
  refine ⟨?_, nonneg, unit, ?_, ?_⟩
  · intro j other
    change ((s.goto i pc).threads j).locked at other
    by_cases here : j = i
    · rw [here]
      exact inv.owner i locked
    · rw [goto_of_ne here] at other
      exact absurd other (elsewhere here)
  · intro j deciding
    change (s.goto i pc).threads j = _ at deciding
    by_cases here : j = i
    · rw [here, goto_self] at deciding
      exact absurd deciding stays.2.2
    · rw [goto_of_ne here] at deciding
      exact absurd (by rw [deciding]; trivial) (elsewhere here)
  · intro j _ left
    exact ⟨i, by rw [← told left]; exact goto_self⟩

omit [DecidableEq ι] in
theorem mem_holders : i ∈ s.holders ↔ (s.threads i).holding := by simp [State.holders]

theorem Inv.decrement (inv : Inv s) (here : s.threads i = .decrement) :
    Inv { s.goto i .waitUnlock with count := s.count - 1 } := by
  have left := inv.taking i here
  have unit := inv.unit
  have outside : i ∉ s.holders := by
    rw [mem_holders, here]
    exact id
  have card : (s.goto i .waitUnlock).holders.card = s.holders.card + 1 := by
    rw [holders_goto, if_pos (show Pc.waitUnlock.holding from trivial), Finset.card_insert_of_notMem outside]
  have stays : Pc.waitUnlock.locked ∧ Pc.waitUnlock ≠ .wait ∧ Pc.waitUnlock ≠ .decrement :=
    ⟨trivial, by decide, by decide⟩
  apply inv.recount (by rw [here]; trivial) stays (by omega) (by omega)
  intro more
  omega

theorem Inv.increment (inv : Inv s) (here : s.threads i = .increment) :
    Inv { s.goto i .broadcast with count := s.count + 1 } := by
  have nonneg := inv.nonneg
  have unit := inv.unit
  have inside : i ∈ s.holders := by
    rw [mem_holders, here]
    trivial
  have card : (s.goto i .broadcast).holders.card + 1 = s.holders.card := by
    rw [holders_goto, if_neg (show ¬ Pc.broadcast.holding from id), Finset.card_erase_add_one inside]
  have stays : Pc.broadcast.locked ∧ Pc.broadcast ≠ .wait ∧ Pc.broadcast ≠ .decrement := ⟨trivial, by decide, by decide⟩
  exact inv.recount (by rw [here]; trivial) stays (by omega) (by omega) fun _ => rfl

omit [DecidableEq ι] [Fintype ι] in
theorem wakeAll_iff {p : Pc → Prop} (blind : p .woken ↔ p .asleep) : p (s.wakeAll.threads j) ↔ p (s.threads j) := by
  change p (match s.threads j with | .asleep => .woken | pc => pc) ↔ _
  split
  · rename_i asleep
    rw [asleep]
    exact blind
  · rfl

omit [DecidableEq ι] in
theorem holders_wakeAll : s.wakeAll.holders = s.holders := by
  ext j
  rw [mem_holders, mem_holders]
  exact wakeAll_iff Iff.rfl

theorem Inv.broadcast (inv : Inv s) (here : s.threads i = .broadcast) : Inv (s.wakeAll.goto i .postUnlock) := by
  have locked : (s.threads i).locked := by rw [here]; trivial
  have same : Pc.postUnlock.holding ↔ (s.wakeAll.threads i).holding := by
    rw [wakeAll_iff (p := Pc.holding) Iff.rfl, here]
    exact Iff.rfl
  refine ⟨?_, inv.nonneg, ?_, ?_, ?_⟩
  · intro j other
    by_cases at_i : j = i
    · rw [at_i]
      exact inv.owner i locked
    · rw [goto_of_ne at_i] at other
      exact inv.owner j ((wakeAll_iff Iff.rfl).mp other)
  · rw [holders_goto_same same, holders_wakeAll]
    exact inv.unit
  · intro j deciding
    by_cases at_i : j = i
    · rw [at_i, goto_self] at deciding
      cases deciding
    · rw [goto_of_ne at_i] at deciding
      exact inv.taking j ((wakeAll_iff (p := (· = .decrement)) (by simp)).mp deciding)
  · -- the sleepers have all been woken, and a thread about to sleep would have the mutex too
    intro j stopped
    by_cases at_i : j = i
    · rw [at_i, goto_self] at stopped
      rcases stopped with stopped | stopped <;> cases stopped
    · rw [goto_of_ne at_i] at stopped
      rcases stopped with asleep | wait
      · change (match s.threads j with | .asleep => .woken | pc => pc) = Pc.asleep at asleep
        split at asleep
        · cases asleep
        · exact absurd asleep ‹_›
      · have waiting := (wakeAll_iff (p := (· = .wait)) (by simp)).mp wait
        exact absurd (inv.locked_unique (by rw [waiting]; trivial) locked) at_i

theorem Inv.step {t : State ι} {action : Action ι} (inv : Inv s) (step : (system ι).Step s action t) : Inv t := by
  obtain ⟨enabled, rfl⟩ := step
  cases action with
  | wake i =>
    have here : s.threads i = .asleep := enabled
    apply inv.stay <;> simp [here, Pc.locked, Pc.holding]
  | run i =>
    change Inv (run s i)
    change (s.threads i).runs s.mutex at enabled
    cases here : s.threads i <;> rw [here] at enabled <;> rw [run, here]
    case outside | inside => apply inv.stay <;> simp [here, Pc.locked, Pc.holding]
    case waitLock | woken | postLock => apply inv.lock enabled <;> simp [here, Pc.holding]
    case asleep => exact enabled.elim
    case test =>
      dsimp only
      split
      · rename_i none_left
        apply inv.stay <;> simp [here, Pc.locked, Pc.holding, none_left]
      · rename_i left
        apply inv.stay <;> simp [here, Pc.locked, Pc.holding, Int.not_le.mp left]
    case wait => apply inv.unlock <;> simp [here, Pc.locked, Pc.holding, inv.none_left here]
    case waitUnlock | postUnlock => apply inv.unlock <;> simp [here, Pc.locked, Pc.holding]
    case decrement => exact inv.decrement here
    case increment => exact inv.increment here
    case broadcast => exact inv.broadcast here

/-- To the count a step is one of two atomic operations, the decrement of a positive count and the
    increment, or nothing at all. -/
theorem Inv.atomic {t : State ι} {action : Action ι} (inv : Inv s) (step : (system ι).Step s action t) :
    t.count = s.count ∨ ∃ i, action = .run i ∧
      (s.threads i = .decrement ∧ 0 < s.count ∧ t.count = s.count - 1 ∨ s.threads i = .increment ∧ t.count = s.count + 1) := by
  obtain ⟨-, rfl⟩ := step
  cases action with
  | wake i => exact .inl rfl
  | run i =>
    change (run s i).count = _ ∨ ∃ j, _ ∧ (_ ∧ _ ∧ (run s i).count = _ ∨ _ ∧ (run s i).count = _)
    cases here : s.threads i <;> rw [run, here]
    case decrement => exact .inr ⟨i, rfl, .inl ⟨here, inv.taking i here, rfl⟩⟩
    case increment => exact .inr ⟨i, rfl, .inr ⟨here, rfl⟩⟩
    case test =>
      dsimp only
      split <;> exact .inl rfl
    all_goals exact .inl rfl

/-- What is promised of every state. While nobody has the mutex, the threads with the unit are those
    between a completed `sem_wait` and the end of their `sem_post`. -/
structure Exclusive (s : State ι) : Prop where
  count : s.count = 0 ∨ s.count = 1
  unit : s.count + (Finset.univ.filter fun i => (s.threads i).holding).card = 1
  between : s.mutex = none → s.count + (Finset.univ.filter fun i => (s.threads i).between).card = 1
  alone : ∀ i j, s.threads i = .inside → s.threads j = .inside → i = j
  awake : ¬ (0 < s.count ∧ s.mutex = none ∧ ∃ i, s.threads i = .asleep)

omit [DecidableEq ι] in
theorem Inv.exclusive (inv : Inv s) : Exclusive s := by
  have unit := inv.unit
  have nonneg := inv.nonneg
  refine ⟨by omega, unit, ?_, ?_, ?_⟩
  · intro free
    have same : (Finset.univ.filter fun i => (s.threads i).between) = s.holders := by
      ext i
      have unlocked : ¬ (s.threads i).locked := by
        intro locked
        have owner := inv.owner i locked
        rw [free] at owner
        cases owner
      rw [mem_holders, Finset.mem_filter]
      cases here : s.threads i <;> simp_all [Pc.locked, Pc.between, Pc.holding]
    rw [same]
    exact unit
  · intro i j left right
    have few : s.holders.card ≤ 1 := by omega
    apply Finset.card_le_one.mp few
    · rw [mem_holders, left]
      trivial
    · rw [mem_holders, right]
      trivial
  · intro ⟨left, free, i, asleep⟩
    obtain ⟨j, posting⟩ := inv.told i (.inl asleep) left
    have owner := inv.owner j (by rw [posting]; trivial)
    rw [free] at owner
    cases owner

/-- In every state of every interleaving the semaphore excludes, and no wake-up is lost. -/
theorem semaphore_excludes {steps : List (State ι × Action ι)} {last : State ι}
    (run : Run (system ι).Step semInit steps last) :
    ∀ s ∈ visited steps last, Exclusive s := by
  intro s member
  refine (run.invariant_visited (fun _ _ => True) Inv .initial ?_ (fun _ _ => trivial) s member).exclusive
  exact fun _ _ _ inv _ step => inv.step step

def handOver : List (Action (Fin 2)) :=
  List.replicate 4 (.run 1) ++ List.replicate 5 (.run 0) ++ List.replicate 4 (.run 1) ++ List.replicate 5 (.run 0)

omit [DecidableEq ι] [Fintype ι] in
theorem semaphore_excludes_hand_over : (system (Fin 2)).Admits semInit handOver ∧
    ((system (Fin 2)).final semInit handOver).threads 1 = .inside ∧ Exclusive ((system (Fin 2)).final semInit handOver) := by
  have admits : (system (Fin 2)).Admits semInit handOver := by decide
  refine ⟨admits, by decide, ?_⟩
  exact semaphore_excludes (run_of_admits (system (Fin 2)) admits) _ (last_mem_visited _ _)

end Eecs343.Server.Semaphore
