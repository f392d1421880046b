import Eecs343.Base.Access
import Eecs343.Server.Semaphore

namespace Eecs343.Server.Semaphore

open Prog Transition

inductive Call where
  | wait
  | post
  deriving DecidableEq

/-- Code that works on a store in blocks, and calls the semaphore whose count the store has between two of them. -/
structure Client (σ κ : Type) where
  block : κ → Option (Prog σ κ)
  /-- The call at a place, and the place behind it. -/
  call : κ → Option (Call × κ)
  count : σ → Int
  setCount : σ → Int → σ

/-- The threads of a program that share a store. `threads i` is what is left of the block that thread `i` is in. -/
structure Shared (σ κ ι : Type) where
  store : σ
  mutex : Option ι
  pcs : ι → Pc
  threads : ι → Prog σ κ

/-- What a thread does next: the start of a block, the next access in one, the start of a call, the next step of
    `sem_wait` or `sem_post`. Or it wakes up for no reason. -/
inductive Move (ι : Type) where
  | begin (i : ι)
  | access (i : ι)
  | call (i : ι)
  | run (i : ι)
  | wake (i : ι)

/-- Where `sem_wait` and `sem_post` begin. -/
def Call.start : Call → Pc
  | wait => .waitLock
  | post => .postLock

/-- The function a thread is in. -/
def Pc.calling : Pc → Option Call
  | .outside | .inside => none
  | .waitLock | .test | .wait | .asleep | .woken | .decrement | .waitUnlock => some .wait
  | .postLock | .increment | .broadcast | .postUnlock => some .post

def Pc.returns : Pc → Bool
  | .waitUnlock | .postUnlock => true
  | _ => false

variable {σ τ κ ι : Type}

namespace Shared

variable [DecidableEq ι] (s : Shared σ κ ι) (i : ι)

def setThread (p : Prog σ κ) : Shared σ κ ι := { s with threads := Function.update s.threads i p }

def goto (pc : Pc) : Shared σ κ ι := { s with pcs := Function.update s.pcs i pc }

end Shared

namespace Client

variable (client : Client σ κ)

def start (place : κ) : Option (Prog σ κ) :=
  match client.call place with
  | some _ => none
  | none => client.block place

def view (s : Shared σ κ ι) : State ι := ⟨s.mutex, client.count s.store, s.pcs⟩

/-- The threads of `s` around another state of the semaphore. -/
def withView (s : Shared σ κ ι) (v : State ι) : Shared σ κ ι :=
  { s with store := client.setCount s.store v.count, mutex := v.mutex, pcs := v.threads }

def enabled (s : Shared σ κ ι) : Move ι → Prop
  | .begin i => (s.pcs i).calling = none ∧ ((s.threads i).result.bind client.start).isSome
  | .access i => (s.pcs i).calling = none ∧ ((s.threads i).step s.store).isSome
  | .call i => (s.pcs i).calling = none ∧ ((s.threads i).result.bind client.call).isSome
  | .run i => (s.pcs i).calling ≠ none ∧ (s.pcs i).runs s.mutex
  | .wake i => s.pcs i = .asleep

instance [DecidableEq ι] (s : Shared σ κ ι) : ∀ move, Decidable (client.enabled s move)
  | .begin i => inferInstanceAs (Decidable ((s.pcs i).calling = none ∧ ((s.threads i).result.bind client.start).isSome))
  | .access i => inferInstanceAs (Decidable ((s.pcs i).calling = none ∧ ((s.threads i).step s.store).isSome))
  | .call i => inferInstanceAs (Decidable ((s.pcs i).calling = none ∧ ((s.threads i).result.bind client.call).isSome))
  | .run i => inferInstanceAs (Decidable ((s.pcs i).calling ≠ none ∧ (s.pcs i).runs s.mutex))
  | .wake i => inferInstanceAs (Decidable (s.pcs i = .asleep))

variable [DecidableEq ι]

/-- A step in the function a thread has called, which leads to `place` where it returns. -/
def inCall (s : Shared σ κ ι) (i : ι) (place : κ) : Shared σ κ ι :=
  let t := client.withView s (Semaphore.run (client.view s) i)
  if (s.pcs i).returns then t.setThread i (.done place) else t

def next (s : Shared σ κ ι) : Move ι → Shared σ κ ι
  | .begin i => match (s.threads i).result.bind client.start with
    | some p => s.setThread i p
    | none => s
  | .access i => match (s.threads i).step s.store with
    | some (p, store) => { s.setThread i p with store }
    | none => s
  | .call i => match (s.threads i).result.bind client.call with
    | some (call, _) => s.goto i call.start
    | none => s
  | .run i => match (s.threads i).result.bind client.call with
    | some (_, place) => client.inCall s i place
    | none => s
  | .wake i => s.goto i .woken

def system (ι : Type) [DecidableEq ι] : System (Shared σ κ ι) (Move ι) := ⟨client.enabled, client.next⟩

instance (s : Shared σ κ ι) (move : Move ι) : Decidable ((client.system ι).enabled s move) :=
  inferInstanceAs (Decidable (client.enabled s move))

end Client

namespace Shared

variable [DecidableEq ι] (s : Shared σ κ ι) {i j : ι}

theorem setThread_self (i : ι) (p : Prog σ κ) : (s.setThread i p).threads i = p := Function.update_self ..

theorem setThread_other (p : Prog σ κ) (other : j ≠ i) : (s.setThread i p).threads j = s.threads j :=
  Function.update_of_ne other ..

theorem goto_self (i : ι) (pc : Pc) : (s.goto i pc).pcs i = pc := Function.update_self ..

theorem goto_other (pc : Pc) (other : j ≠ i) : (s.goto i pc).pcs j = s.pcs j := Function.update_of_ne other ..

end Shared

/-- Threads at their places, with the semaphore as `sem_init` leaves it. -/
def Shared.start (store : σ) (places : ι → κ) :
    Shared σ κ ι := ⟨store, none, fun _ => .outside, fun i => .done (places i)⟩

/-- The threads call the two functions by turns, the part of the store that `get` shows is the business of those inside,
    and run alone each of their blocks keeps it whole. -/
structure Client.Protects (client : Client σ κ) (inside : κ → Prop) (get : σ → τ) (whole : σ → Prop) : Prop where
  count : ∀ s n, client.count (client.setCount s n) = n
  apart : ∀ s n, get (client.setCount s n) = get s
  blind : ∀ s t, get s = get t → (whole s ↔ whole t)
  waits : ∀ place next, client.call place = some (.wait, next) → ¬ inside place ∧ inside next
  posts : ∀ place next, client.call place = some (.post, next) → inside place ∧ ¬ inside next
  counts : ∀ place p, client.start place = some p → Keeps client.count p
  outer : ∀ place p, client.start place = some p → ¬ inside place → Keeps get p ∧ Answers (fun next => ¬ inside next) p
  inner : ∀ place p, client.start place = some p → inside place →
    Reads get p ∧ Answers inside p ∧ ∀ s, whole s → Safe p s fun _ t => whole t

/-- What is left to a thread that stands at `pc`. -/
def Client.Standing (client : Client σ κ) (inside : κ → Prop) (get : σ → τ) (pc : Pc) (p : Prog σ κ) : Prop :=
  match pc.calling with
  | some call => ∃ place next, p = .done place ∧ client.call place = some (call, next)
  | none => Keeps client.count p ∧
      if pc = .inside then Reads get p ∧ Answers inside p else Keeps get p ∧ Answers (fun next => ¬ inside next) p

/-- Where a thread that goes on at `pc` stands next. -/
def Pc.after (count : Int) : Pc → Pc
  | .outside => .waitLock
  | .waitLock | .woken => .test
  | .test => if count ≤ 0 then .wait else .decrement
  | .wait | .asleep => .asleep
  | .decrement => .waitUnlock
  | .waitUnlock => .inside
  | .inside => .postLock
  | .postLock => .increment
  | .increment => .broadcast
  | .broadcast => .postUnlock
  | .postUnlock => .outside

def Call.returned : Call → Pc
  | wait => .inside
  | post => .outside

theorem Pc.after_calling {pc : Pc} {call : Call} (count : Int) (calling : pc.calling = some call) :
    if pc.returns then pc.after count = call.returned else (pc.after count).calling = some call := by
  cases pc <;> cases calling
  case test =>
    change (if count ≤ 0 then Pc.wait else Pc.decrement).calling = _
    split <;> rfl
  all_goals rfl

section

variable [DecidableEq ι] {s : State ι} {i j : ι}

theorem run_self : (run s i).threads i = (s.threads i).after s.count := by
  cases here : s.threads i <;> simp only [run, here, Pc.after]
  case test => split <;> exact goto_self
  all_goals exact goto_self

theorem run_other (other : j ≠ i) : (run s i).threads j = s.threads j ∨
    s.threads j = .asleep ∧ (run s i).threads j = .woken := by
  cases here : s.threads i <;> simp [run, here, goto_of_ne other]
  case test => split <;> simp [goto_of_ne other]
  case broadcast => cases waiting : s.threads j <;> simp [State.wakeAll, waiting]

/-- Nobody but the thread that decrements the count comes to hold the unit. -/
theorem run_holding (holding : ((run s i).threads j).holding) :
    (s.threads j).holding ∨ j = i ∧ s.threads i = .decrement := by
  by_cases same : j = i
  · subst same
    rw [run_self] at holding
    cases here : s.threads j <;> rw [here] at holding
    case decrement => exact .inr ⟨rfl, rfl⟩
    case waitUnlock | inside | postLock | increment => exact .inl trivial
    case test =>
      rw [Pc.after] at holding
      split at holding <;> exact holding.elim
    all_goals exact holding.elim
  · rcases run_other (s := s) same with unchanged | ⟨_, woken⟩
    · rw [unchanged] at holding
      exact .inl holding
    · rw [woken] at holding
      exact holding.elim

theorem run_count : (run s i).count ≤ s.count ∨ s.threads i = .increment := by
  cases here : s.threads i <;> simp only [run, here]
  case test => split <;> exact .inl (le_refl _)
  case decrement => exact .inl (by omega)
  case increment => exact .inr trivial
  all_goals exact .inl (le_refl _)

end

/-- What holds after every move. What is protected is whole while the count is up, and otherwise whoever has taken the
    unit leaves it whole. -/
structure Client.Kept [Fintype ι] (client : Client σ κ) (inside : κ → Prop) (get : σ → τ) (whole : σ → Prop)
    (s : Shared σ κ ι) : Prop where
  sem : Inv (client.view s)
  standing : ∀ i, client.Standing inside get (s.pcs i) (s.threads i)
  free : 0 < client.count s.store → whole s.store
  held : ∀ i, (s.pcs i).holding → Safe (s.threads i) s.store fun _ t => whole t

section

variable [Fintype ι] {s : State ι} {i j : ι}

theorem Inv.holding_unique [DecidableEq ι] (inv : Inv s) (left : (s.threads i).holding) (right : (s.threads j).holding) :
    i = j := by
  have unit := inv.unit
  have nonneg := inv.nonneg
  have few : s.holders.card ≤ 1 := by omega
  exact Finset.card_le_one.mp few i (mem_holders.mpr left) j (mem_holders.mpr right)

theorem Inv.holding_taken (inv : Inv s) (holds : (s.threads i).holding) : s.count = 0 := by
  have unit := inv.unit
  have nonneg := inv.nonneg
  have some : 0 < s.holders.card := Finset.card_pos.mpr ⟨i, mem_holders.mpr holds⟩
  omega

end

namespace Client

variable {client : Client σ κ} {inside : κ → Prop} {get : σ → τ} {whole : σ → Prop} {pc : Pc} {p q : Prog σ κ}

theorem Standing.reads (standing : client.Standing inside get pc p) (holding : pc.holding) : Reads get p := by
  cases pc with
  | inside => exact standing.2.1
  | waitUnlock | postLock | increment =>
    obtain ⟨place, next, rfl, _⟩ := standing
    trivial
  | _ => exact holding.elim

theorem Standing.idle (standing : client.Standing inside get pc p) (idle : pc.calling = none) :
    pc = .inside ∧ Keeps client.count p ∧ Reads get p ∧ Answers inside p ∨
      pc = .outside ∧ Keeps client.count p ∧ Keeps get p ∧ Answers (fun next => ¬ inside next) p := by
  cases pc with
  | inside => exact .inl ⟨rfl, standing.1, standing.2⟩
  | outside => exact .inr ⟨rfl, standing.1, standing.2⟩
  | _ => cases idle

theorem Standing.step {s t : σ} (standing : client.Standing inside get pc p) (taken : step p s = some (q, t)) :
    client.Standing inside get pc q := by
  cases calling : pc.calling with
  | some call =>
    unfold Standing at standing
    rw [calling] at standing
    obtain ⟨place, next, rfl, _⟩ := standing
    cases taken
  | none =>
    rcases standing.idle calling with ⟨rfl, counts, reads, answers⟩ | ⟨rfl, counts, keeps, answers⟩
    · exact ⟨Each.step counts taken, Each.step reads taken, answers.step taken⟩
    · exact ⟨Each.step counts taken, Each.step keeps taken, answers.step taken⟩

theorem Standing.counts {s t : σ} (standing : client.Standing inside get pc p) (idle : pc.calling = none)
    (taken : p.step s = some (q, t)) : client.count t = client.count s := by
  rcases standing.idle idle with ⟨_, counts, _⟩ | ⟨_, counts, _⟩
  · exact counts.step taken
  · exact counts.step taken

variable [Fintype ι] {s t : Shared σ κ ι} {i : ι}

/-- After a move that leaves the protected part alone. Only a thread that finds it whole takes the unit, and only one that
    leaves it whole gives it back. -/
theorem Kept.next (kept : client.Kept inside get whole s) (protects : client.Protects inside get whole)
    (sem : Inv (client.view t))
    (same : get s.store = get t.store) (standing : ∀ j, client.Standing inside get (t.pcs j) (t.threads j))
    (held : ∀ j, (t.pcs j).holding → (s.pcs j).holding ∧ t.threads j = s.threads j ∨
      whole s.store ∧ ∃ place, t.threads j = .done place)
    (free : 0 < client.count t.store → 0 < client.count s.store ∨ ∃ j place, (s.pcs j).holding ∧ s.threads j = .done place) :
    client.Kept inside get whole t := by
  refine ⟨sem, standing, ?_, ?_⟩
  · intro left
    rw [← protects.blind _ _ same]
    rcases free left with left | ⟨j, place, holding, here⟩
    · exact kept.free left
    · have safe := kept.held j holding
      rw [here, safe_done] at safe
      exact safe
  · intro j holding
    rcases held j holding with ⟨before, rest⟩ | ⟨found, place, here⟩
    · rw [rest]
      exact (kept.held j before).congr ((kept.standing j).reads before) same fun _ => protects.blind
    · rw [here, safe_done, ← protects.blind _ _ same]
      exact found

variable [DecidableEq ι]

theorem Kept.thread (kept : client.Kept inside get whole s) (here : client.Standing inside get (s.pcs i) q) (j : ι) :
    client.Standing inside get (s.pcs j) ((s.setThread i q).threads j) := by
  by_cases other : j = i
  · subst other
    rw [s.setThread_self]
    exact here
  · rw [s.setThread_other q other]
    exact kept.standing j

theorem Kept.access (kept : client.Kept inside get whole s) (protects : client.Protects inside get whole)
    (idle : (s.pcs i).calling = none) {store : σ} (taken : (s.threads i).step s.store = some (q, store)) :
    client.Kept inside get whole { s.setThread i q with store } := by
  have standing := kept.thread ((kept.standing i).step taken)
  have counts : client.count store = client.count s.store := (kept.standing i).counts idle taken
  have sem : Inv (⟨s.mutex, client.count store, s.pcs⟩ : State ι) := by
    rw [counts]
    exact kept.sem
  rcases (kept.standing i).idle idle with ⟨here, _, reads, answers⟩ | ⟨here, _, keeps, answers⟩
  · have holding : (s.pcs i).holding := by
      rw [here]
      trivial
    have unit : client.count s.store = 0 := kept.sem.holding_taken holding
    refine ⟨sem, standing, ?_, ?_⟩
    · intro left
      exact absurd left (by simp only [counts, unit]; omega)
    · intro j holds
      obtain rfl : j = i := kept.sem.holding_unique holds holding
      have safe := (kept.held j holding).step taken
      rwa [← s.setThread_self j q] at safe
  · apply Kept.next (t := { s.setThread i q with store }) kept protects sem (keeps.step taken).symm standing
    · intro j holds
      have other : j ≠ i := by
        rintro rfl
        rw [show ({ s.setThread j q with store } : Shared σ κ ι).pcs j = s.pcs j from rfl, here] at holds
        exact holds
      exact .inl ⟨holds, s.setThread_other q other⟩
    · intro left
      exact .inl (by rwa [← counts])

theorem Kept.begin (kept : client.Kept inside get whole s) (protects : client.Protects inside get whole)
    (idle : (s.pcs i).calling = none) {place : κ} (here : s.threads i = .done place) (start : client.start place = some p) :
    client.Kept inside get whole (s.setThread i p) := by
  have counts := protects.counts place p start
  have at_start := (kept.standing i).idle idle
  rw [here] at at_start
  have standing : client.Standing inside get (s.pcs i) p := by
    rcases at_start with ⟨at_pc, _, _, answers⟩ | ⟨at_pc, _, _, answers⟩
    · rw [at_pc]
      obtain ⟨reads, answers, _⟩ := protects.inner place p start answers
      exact ⟨counts, reads, answers⟩
    · rw [at_pc]
      exact ⟨counts, protects.outer place p start answers⟩
  refine ⟨kept.sem, kept.thread standing, kept.free, ?_⟩
  intro j holds
  replace holds : (s.pcs j).holding := holds
  by_cases other : j = i
  · subst other
    rcases at_start with ⟨_, _, _, answers⟩ | ⟨at_pc, _⟩
    · have found := kept.held j holds
      rw [here, safe_done] at found
      rw [s.setThread_self]
      exact (protects.inner place p start answers).2.2 _ found
    · rw [at_pc] at holds
      exact holds.elim
  · rw [s.setThread_other p other]
    exact kept.held j holds

/-- A thread calls `sem_wait` or `sem_post`. -/
theorem Kept.call (kept : client.Kept inside get whole s) (protects : client.Protects inside get whole)
    (idle : (s.pcs i).calling = none) {place place' : κ} {call : Call} (here : s.threads i = .done place)
    (calls : client.call place = some (call, place')) : client.Kept inside get whole (s.goto i call.start) := by
  have at_start := (kept.standing i).idle idle
  rw [here] at at_start
  have goes : call.start.holding ↔ (s.pcs i).holding := by
    rcases at_start with ⟨at_pc, _, _, answers⟩ | ⟨at_pc, _, _, answers⟩
    · cases call with
      | wait => exact absurd answers (protects.waits place place' calls).1
      | post => rw [at_pc]; exact Iff.rfl
    · cases call with
      | wait => rw [at_pc]; exact Iff.rfl
      | post => exact absurd (protects.posts place place' calls).1 answers
  apply kept.next protects
  · have unlocked : ¬ call.start.locked := by cases call <;> exact id
    apply kept.sem.stay (fun locked => absurd locked unlocked) goes
    · cases call <;> exact nofun
    · cases call <;> exact nofun
    · intro at_pc
      rw [show s.pcs i = _ from at_pc] at idle
      cases idle
  · rfl
  · intro j
    by_cases other : j = i
    · subst other
      rw [s.goto_self]
      cases call <;> exact ⟨place, place', here, calls⟩
    · rw [s.goto_other _ other]
      exact kept.standing j
  · intro j holds
    refine .inl ⟨?_, rfl⟩
    by_cases other : j = i
    · subst other
      rw [s.goto_self] at holds
      exact goes.mp holds
    · rwa [s.goto_other _ other] at holds
  · exact .inl

/-- A thread takes a step in `sem_wait` or `sem_post`. -/
theorem Kept.run (kept : client.Kept inside get whole s) (protects : client.Protects inside get whole) {call : Call}
    (calling : (s.pcs i).calling = some call) (runs : (s.pcs i).runs s.mutex) {place place' : κ}
    (here : s.threads i = .done place) (calls : client.call place = some (call, place')) :
    client.Kept inside get whole (client.inCall s i place') := by
  have view : client.view (client.inCall s i place') = Semaphore.run (client.view s) i := by
    unfold inCall
    split <;> exact congrArg (fun n => (⟨_, n, _⟩ : State ι)) (protects.count _ _)
  have pcs : (client.inCall s i place').pcs = (Semaphore.run (client.view s) i).threads := congrArg State.threads view
  have store : get s.store = get (client.inCall s i place').store := by
    unfold inCall
    split <;> exact (protects.apart _ _).symm
  have others : ∀ j, j ≠ i → (client.inCall s i place').threads j = s.threads j := by
    intro j other
    unfold inCall
    split
    · exact Shared.setThread_other _ _ other
    · rfl
  have mine : (client.inCall s i place').threads i = if (s.pcs i).returns then .done place' else .done place := by
    unfold inCall
    split
    · exact Shared.setThread_self _ _ _
    · exact here
  have found : (s.pcs i).holding → whole s.store := by
    intro holding
    have safe := kept.held i holding
    rwa [here, safe_done] at safe
  -- what a step of the semaphore does, thread by thread: the caller, and those that it wakes
  apply kept.next protects _ store
  · intro j
    rw [pcs]
    by_cases other : j = i
    · subst other
      rw [run_self, mine]
      have after := Pc.after_calling (client.count s.store) calling
      change client.Standing inside get ((s.pcs j).after (client.count s.store)) _
      split at after
      · rename_i returns
        rw [after, if_pos returns]
        cases call with
        | wait => exact ⟨trivial, trivial, (protects.waits place place' calls).2⟩
        | post => exact ⟨trivial, trivial, (protects.posts place place' calls).2⟩
      · rename_i stays
        rw [if_neg stays]
        unfold Standing
        rw [after]
        exact ⟨place, place', rfl, calls⟩
    · rw [others j other]
      rcases run_other (s := client.view s) other with unchanged | ⟨asleep, woken⟩
      · rw [unchanged]
        exact kept.standing j
      · rw [woken]
        have standing := kept.standing j
        rw [show s.pcs j = _ from asleep] at standing
        exact standing
  · intro j holding
    rw [pcs] at holding
    by_cases other : j = i
    · subst other
      rw [mine]
      rcases run_holding holding with before | ⟨_, taking⟩
      · exact .inr ⟨found before, by split <;> exact ⟨_, rfl⟩⟩
      · exact .inr ⟨kept.free (kept.sem.taking j taking), by split <;> exact ⟨_, rfl⟩⟩
    · rcases run_holding holding with before | ⟨same, _⟩
      · exact .inl ⟨before, others j other⟩
      · exact absurd same other
  · intro left
    rw [show client.count _ = _ from congrArg State.count view] at left
    rcases run_count (s := client.view s) (i := i) with fewer | giving
    · exact .inl (lt_of_lt_of_le left fewer)
    · refine .inr ⟨i, place, ?_, here⟩
      rw [show s.pcs i = _ from giving]
      trivial
  · rw [view]
    exact kept.sem.step (show (Semaphore.system ι).Step _ (.run i) _ from ⟨runs, rfl⟩)

theorem Kept.wake (kept : client.Kept inside get whole s) (protects : client.Protects inside get whole)
    (asleep : s.pcs i = .asleep) : client.Kept inside get whole (s.goto i .woken) := by
  have sem : Inv (client.view (s.goto i .woken)) := kept.sem.step
    (show (Semaphore.system ι).Step _ (.wake i) _ from ⟨asleep, rfl⟩)
  apply kept.next protects sem rfl
  · intro j
    by_cases other : j = i
    · subst other
      have standing := kept.standing j
      rw [asleep] at standing
      rw [s.goto_self]
      exact standing
    · rw [s.goto_other _ other]
      exact kept.standing j
  · intro j holding
    by_cases other : j = i
    · subst other
      rw [s.goto_self] at holding
      exact holding.elim
    · rw [s.goto_other _ other] at holding
      exact .inl ⟨holding, rfl⟩
  · exact .inl

theorem Kept.step (kept : client.Kept inside get whole s) (protects : client.Protects inside get whole) {move : Move ι}
    (step : (client.system ι).Step s move t) : client.Kept inside get whole t := by
  obtain ⟨enabled, rfl⟩ := step
  cases move with
  | begin i =>
    obtain ⟨idle, starts⟩ := enabled
    obtain ⟨p, starts⟩ := Option.isSome_iff_exists.mp starts
    obtain ⟨place, result, start⟩ := Option.bind_eq_some_iff.mp starts
    rw [show (client.system ι).next s (.begin i) = s.setThread i p by simp only [system, Client.next, starts]]
    exact kept.begin protects idle (eq_done result) start
  | access i =>
    obtain ⟨idle, steps⟩ := enabled
    obtain ⟨⟨p, store⟩, taken⟩ := Option.isSome_iff_exists.mp steps
    rw [show (client.system ι).next s (.access i) = { s.setThread i p with store } by simp only [system, Client.next, taken]]
    exact kept.access protects idle taken
  | call i =>
    obtain ⟨idle, calls⟩ := enabled
    obtain ⟨⟨call, place'⟩, calls⟩ := Option.isSome_iff_exists.mp calls
    obtain ⟨place, result, here⟩ := Option.bind_eq_some_iff.mp calls
    rw [show (client.system ι).next s (.call i) = s.goto i call.start by simp only [system, Client.next, calls]]
    exact kept.call protects idle (eq_done result) here
  | run i =>
    obtain ⟨calling, runs⟩ := enabled
    obtain ⟨call, calling⟩ := Option.ne_none_iff_exists'.mp calling
    have standing := kept.standing i
    unfold Standing at standing
    rw [calling] at standing
    obtain ⟨place, place', here, calls⟩ := standing
    have at_call : (s.threads i).result.bind client.call = some (call, place') := by
      rw [here]
      exact calls
    rw [show (client.system ι).next s (.run i) = client.inCall s i place' by simp only [system, Client.next, at_call]]
    exact kept.run protects calling runs here calls
  | wake i => exact kept.wake protects enabled

omit [DecidableEq ι] in
theorem Kept.start {store : σ} (unit : client.count store = 1) (found : whole store)
    {places : ι → κ} (outside : ∀ i, ¬ inside (places i)) : client.Kept inside get whole (Shared.start store places) where
  sem := by
    rw [show client.view (Shared.start store places) = semInit from congrArg
      (fun n => (⟨none, n, fun _ => .outside⟩ : State ι)) unit]
    exact .initial
  standing := fun i => ⟨trivial, trivial, outside i⟩
  free := fun _ => found
  held := fun _ holding => holding.elim

/-- Nobody touches what is protected but a thread between the end of its `sem_wait` and the start of its `sem_post`. -/
theorem Kept.untouched (kept : client.Kept inside get whole s) (protects : client.Protects inside get whole)
    {move : Move ι}
    (step : (client.system ι).Step s move t) : get t.store = get s.store ∨ ∃ i, move = .access i ∧ s.pcs i = .inside := by
  obtain ⟨enabled, rfl⟩ := step
  cases move with
  | access i =>
    obtain ⟨idle, steps⟩ := enabled
    obtain ⟨⟨p, store⟩, taken⟩ := Option.isSome_iff_exists.mp steps
    rcases (kept.standing i).idle idle with ⟨here, _⟩ | ⟨_, _, keeps, _⟩
    · exact .inr ⟨i, rfl, here⟩
    · refine .inl ?_
      simp only [system, Client.next, taken]
      exact keeps.step taken
  | run i =>
    refine .inl ?_
    simp only [system, Client.next]
    split
    · unfold inCall
      split <;> exact protects.apart _ _
    · rfl
  | begin i | call i =>
    refine .inl ?_
    simp only [system, Client.next]
    split <;> rfl
  | wake i => exact .inl rfl

/-- The rule for what a semaphore protects: in every interleaving of the threads' accesses and of the steps of
    `sem_wait` and `sem_post`. -/
theorem Protects.kept (protects : client.Protects inside get whole) {store : σ} (unit : client.count store = 1)
    (found : whole store) {places : ι → κ} (outside : ∀ i, ¬ inside (places i)) {steps : List (Shared σ κ ι × Move ι)}
    {last : Shared σ κ ι} (run : Run (client.system ι).Step (Shared.start store places) steps last) :
    ∀ s ∈ visited steps last, client.Kept inside get whole s :=
  run.invariant_visited (fun _ _ => True) (client.Kept inside get whole) (.start unit found outside)
    (fun _ _ _ kept _ step => kept.step protects step) fun _ _ => trivial

end Client

end Eecs343.Server.Semaphore
