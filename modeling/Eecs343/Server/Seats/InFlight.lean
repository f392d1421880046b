import Eecs343.Server.Seats.Stages

namespace Eecs343.Server.Seats

open Prog Transition Interleave

/-- Between `sem_wait` and `sem_post`. -/
def Stage.Inside : Stage → Prop
  | enqueue _ | enlisted | dequeue _ _ | served _ _ => True
  | _ => False

/-- About to take the first customer from the list. -/
def Stage.Takes : Stage → Prop
  | dequeue _ _ => True
  | _ => False

/-- What a request has found in its test of `standby_length` still holds when it matters: when `view_seat` puts a
    customer on the list, and when `cancel` passes `sem_wait`. -/
def Timely (s : Store) : Stage → Prop
  | .enqueue _ => s.standbyLength ≠ standbySize
  | .serve _ _ => 0 < s.standbyLength
  | _ => True

instance (s : Store) : DecidablePred (Timely s)
  | .enqueue _ => inferInstanceAs (Decidable (_ ≠ _))
  | .serve _ _ => inferInstanceAs (Decidable (_ < _))
  | .begin _ | .grant _ _ | .test _ | .enlist _ | .enlisted | .lock _ _ _ | .decide _ _ _ | .release _ _ | .dequeue _ _
  | .served _ _ | .free _ _ | .unlock _ _ | .done _ => isTrue trivial

section

variable {s t : Store} {place next : Stage} {p : Op Stage}

/-- What a step does to the standby list and its semaphore. -/
inductive Effect (s t : Store) (place next : Stage) : Prop
  | quiet (before : ¬ place.Inside) (after : ¬ next.Inside) (timely : Timely s place) (same : SameList s t)
    (semaphore : t.semaphore = s.semaphore)
  | enter (before : ¬ place.Inside) (after : next.Inside) (timely : Timely s place ↔ (next.Takes → 0 < s.standbyLength))
    (same : SameList s t) (free : 0 < s.semaphore) (semaphore : t.semaphore = s.semaphore - 1)
  | leave (before : place.Inside) (after : ¬ next.Inside) (timely : Timely s place) (same : SameList s t)
    (semaphore : t.semaphore = s.semaphore + 1)
  | stay (before : place.Inside) (after : next.Inside) (passed : ¬ next.Takes) (semaphore : t.semaphore = s.semaphore)
    (chained : ∃ nodes, Chained t nodes)
    (bounded : s.standbyLength ≤ standbySize → (t.standbyLength ≤ standbySize ↔ Timely s place))

theorem start_effect {call : Call} {seatId : Int} {missing : Reply} {found : Nat → Op Stage}
    (runs : Runs (start seatId missing found) s next t)
    (quiet : ∀ curr next t, Runs (found curr) s next t → ¬ next.Inside ∧ t = s) : Effect s t (.begin call) next := by
  rcases runs_start runs with ⟨rfl, rfl⟩ | ⟨curr, goes⟩
  · exact .quiet id id trivial ⟨rfl, rfl, rfl, rfl⟩ rfl
  · obtain ⟨outside, rfl⟩ := quiet curr next t goes
    exact .quiet id outside trivial ⟨rfl, rfl, rfl, rfl⟩ rfl

theorem lock_effect {decision : Decision} {curr : Nat} {customerId : Int}
    (runs : Runs (pure (.lock decision curr customerId)) s next t) : ¬ next.Inside ∧ t = s := by
  obtain ⟨rfl, rfl⟩ := runs_done.mp runs
  exact ⟨id, rfl⟩

theorem decided_effect {curr : Nat} {customerId : Int} {decision : Decision}
    (runs : Runs (decided curr customerId decision) s next t) : ¬ next.Inside ∧ SameList s t ∧ t.semaphore = s.semaphore := by
  have ends := runs.ends
  simp only [decided, ends_bind, ends_ite, ends_pendingFor] at ends
  split at ends
  · cases decision with
    | confirm =>
      simp only [ends_bind, ends_announce, ends_write, ends_pure] at ends
      obtain ⟨rfl, rfl⟩ := ends
      exact ⟨id, ⟨rfl, rfl, rfl, rfl⟩, rfl⟩
    | cancel =>
      simp only [ends_bind, ends_announce, ends_pure] at ends
      obtain ⟨rfl, rfl⟩ := ends
      exact ⟨id, ⟨rfl, rfl, rfl, rfl⟩, rfl⟩
  · rename_i other
    rw [decide_eq_true_iff] at other
    obtain ⟨reply, u, refused, rest⟩ := ends
    obtain ⟨_, rfl⟩ := (ends_refuse other).post refused
    obtain ⟨rfl, rfl⟩ := ends_pure.mp rest
    exact ⟨id, ⟨rfl, rfl, rfl, rfl⟩, rfl⟩

theorem enqueue_effect {nodes : List Nat} (chained : Chained s nodes) {customerId : Int}
    (runs : Runs (enqueue customerId) s () t) : Effect s t (.enqueue customerId) .enlisted := by
  obtain ⟨longer, _, same⟩ := (ends_enqueue chained customerId).post runs
  refine .stay trivial trivial id (by rw [same]) ⟨_, longer⟩ ?_
  intro bounded
  rw [same]
  simp only [Timely, standbySize] at bounded ⊢
  omega

theorem dequeue_effect {nodes : List Nat} (chained : Chained s nodes) {curr : Nat} {reply : Reply}
    (runs : Runs (dequeue curr) s () t) : Effect s t (.dequeue curr reply) (.served curr reply) := by
  cases nodes with
  | nil =>
    have ends := runs.ends
    have empty : s.head = none := chained.path
    simp only [dequeue, ends_bind, ends_read, ends_deref, empty] at ends
    obtain ⟨_, none, _⟩ := ends
    cases none
  | cons node nodes =>
    obtain ⟨shorter, same⟩ := (ends_dequeue chained curr).post runs
    refine .stay trivial trivial id (by rw [same]) ⟨_, shorter⟩ ?_
    intro bounded
    refine iff_of_true ?_ trivial
    rw [same]
    simp only [standbySize] at bounded ⊢
    omega

theorem effect_of_runs {nodes : List Nat} (chained : Chained s nodes) (here : block place = some p)
    (runs : Runs p s next t) :
    Effect s t place next := by
  cases place with
  | begin call =>
    cases call with
    | viewSeat seatId customerId =>
      cases here
      apply start_effect runs
      intro curr next t looks
      obtain ⟨rfl | rfl, same⟩ := runs_look looks
      · exact ⟨id, same⟩
      · exact ⟨id, same⟩
    | confirmSeat seatId customerId =>
      cases here
      exact start_effect runs fun _ _ _ goes => lock_effect goes
    | cancel seatId customerId =>
      cases here
      exact start_effect runs fun _ _ _ goes => lock_effect goes
  | grant curr customerId =>
    cases here
    obtain ⟨rfl, rfl⟩ := by simpa only [grantSeat, ends_bind, ends_announce, ends_write, ends_pure] using runs.ends
    exact .quiet id id trivial ⟨rfl, rfl, rfl, rfl⟩ rfl
  | test customerId =>
    cases here
    obtain ⟨rfl, rfl⟩ := by simpa only [ends_bind, ends_read, ends_pure] using runs.ends
    refine .quiet id ?_ trivial ⟨rfl, rfl, rfl, rfl⟩ rfl
    split <;> exact id
  | enlist customerId =>
    cases here
    obtain ⟨free, rfl, rfl⟩ := by simpa only [semWait, ends_bind, ends_await, ends_pure] using runs.ends
    -- only the write that follows needs room on the list
    exact .enter id trivial (iff_of_true trivial False.elim) ⟨rfl, rfl, rfl, rfl⟩ free rfl
  | enqueue customerId =>
    cases here
    obtain ⟨_, u, added, rest⟩ := runs.of_bind
    obtain ⟨rfl, rfl⟩ := runs_done.mp rest
    exact enqueue_effect chained added
  | enlisted =>
    cases here
    obtain ⟨rfl, rfl⟩ := by simpa only [semPost, ends_bind, ends_write, ends_pure] using runs.ends
    exact .leave trivial id trivial ⟨rfl, rfl, rfl, rfl⟩ rfl
  | lock decision curr customerId =>
    cases here
    obtain ⟨_, rfl, rfl⟩ := by simpa only [Seats.lock, ends_bind, ends_await, ends_pure] using runs.ends
    exact .quiet id id trivial ⟨rfl, rfl, rfl, rfl⟩ rfl
  | decide decision curr customerId =>
    cases here
    obtain ⟨outside, same, semaphore⟩ := decided_effect runs
    exact .quiet id outside trivial same semaphore
  | release curr reply =>
    cases here
    obtain ⟨rfl, rfl⟩ := by simpa only [ends_bind, ends_read, ends_pure] using runs.ends
    refine .quiet id ?_ trivial ⟨rfl, rfl, rfl, rfl⟩ rfl
    split <;> exact id
  | serve curr reply =>
    cases here
    obtain ⟨free, rfl, rfl⟩ := by simpa only [semWait, ends_bind, ends_await, ends_pure] using runs.ends
    exact .enter id trivial ⟨fun timely _ => timely, fun timely => timely trivial⟩ ⟨rfl, rfl, rfl, rfl⟩ free rfl
  | dequeue curr reply =>
    cases here
    obtain ⟨_, u, taken, rest⟩ := runs.of_bind
    obtain ⟨rfl, rfl⟩ := runs_done.mp rest
    exact dequeue_effect chained taken
  | served curr reply =>
    cases here
    obtain ⟨rfl, rfl⟩ := by simpa only [semPost, ends_bind, ends_write, ends_pure] using runs.ends
    exact .leave trivial id trivial ⟨rfl, rfl, rfl, rfl⟩ rfl
  | free curr reply =>
    cases here
    obtain ⟨rfl, rfl⟩ := by simpa only [ends_bind, ends_write, ends_pure] using runs.ends
    exact .quiet id id trivial ⟨rfl, rfl, rfl, rfl⟩ rfl
  | unlock curr reply =>
    cases here
    obtain ⟨rfl, rfl⟩ := by simpa only [Seats.unlock, ends_bind, ends_write, ends_pure] using runs.ends
    exact .quiet id id trivial ⟨rfl, rfl, rfl, rfl⟩ rfl
  | done => cases here

end

variable {ι : Type} {x y : Store × (ι → Stage)} {i : ι}

/-- Whoever is inside has taken the semaphore, and the list is whole. -/
structure Guarded (x : Store × (ι → Stage)) : Prop where
  semaphore : x.1.semaphore = 1 ∧ Nobody Stage.Inside x.2 ∨ x.1.semaphore = 0 ∧ ∃ i, Only Stage.Inside x.2 i
  chained : ∃ nodes, Chained x.1 nodes

/-- The counter of the standby list stays in its bounds and, whenever the semaphore is free, is the list's length, and
    nobody is about to take a customer from an empty list. -/
structure StandbySafe (x : Store × (ι → Stage)) : Prop where
  bounded : x.1.standbyLength ≤ standbySize
  counted : 0 < x.1.semaphore → ∃ nodes : List Nat, Linked.Path x.1.follow x.1.head (nodes.map some) none ∧
    x.1.standbyLength = nodes.length
  taken : ∀ i, (x.2 i).Takes → x.1.head ≠ none

theorem Guarded.counted (guarded : Guarded x) : ∃ nodes : List Nat,
    Linked.Path x.1.follow x.1.head (nodes.map some) none ∧ x.1.standbyLength = nodes.length := by
  obtain ⟨nodes, chained⟩ := guarded.chained
  exact ⟨nodes, chained.path, chained.counted⟩

theorem Stage.Takes.inside {place : Stage} (takes : place.Takes) : place.Inside := by
  cases place with
  | dequeue => exact trivial
  | _ => exact takes.elim

section

variable [DecidableEq ι]

theorem Guarded.step (guarded : Guarded x) (step : Interleave.Step block x i y) : Guarded y := by
  obtain ⟨p, here, runs⟩ := step.here
  obtain ⟨nodes, chained⟩ := guarded.chained
  have places := step.places
  cases effect_of_runs chained here runs with
  | quiet before after timely same semaphore =>
    refine ⟨?_, nodes, chained.congr same⟩
    rw [semaphore, places]
    rcases guarded.semaphore with ⟨free, nobody⟩ | ⟨taken, k, only⟩
    · exact .inl ⟨free, nobody.stay after⟩
    · exact .inr ⟨taken, k, only.beside before after⟩
  | enter before after timely same free semaphore =>
    refine ⟨?_, nodes, chained.congr same⟩
    rw [semaphore, places]
    rcases guarded.semaphore with ⟨one, nobody⟩ | ⟨taken, k, only⟩
    · exact .inr ⟨by omega, i, nobody.enter after⟩
    · omega
  | leave before after timely same semaphore =>
    refine ⟨?_, nodes, chained.congr same⟩
    rw [semaphore, places]
    rcases guarded.semaphore with ⟨free, nobody⟩ | ⟨taken, k, only⟩
    · exact (nobody i before).elim
    · obtain rfl := (only i).mp before
      exact .inl ⟨by omega, only.leave after⟩
  | stay before after passed semaphore chained bounded =>
    refine ⟨?_, chained⟩
    rw [semaphore, places]
    rcases guarded.semaphore with ⟨free, nobody⟩ | ⟨taken, k, only⟩
    · exact (nobody i before).elim
    · obtain rfl := (only i).mp before
      exact .inr ⟨taken, i, only.stay after⟩

theorem takes_before (step : Interleave.Step block x i y) (passed : ¬ (y.2 i).Takes) {j : ι} (takes : (y.2 j).Takes) :
    j ≠ i ∧ (x.2 j).Takes := by
  have other : j ≠ i := fun same => passed (same ▸ takes)
  rw [step.other other] at takes
  exact ⟨other, takes⟩

theorem StandbySafe.kept (safe : StandbySafe x) (guarded : Guarded y) (step : Interleave.Step block x i y)
    (same : SameList x.1 y.1) (passed : ¬ (y.2 i).Takes) : StandbySafe y where
  bounded := by
    rw [same.standbyLength]
    exact safe.bounded
  counted := fun _ => guarded.counted
  taken := by
    intro j takes
    rw [same.head]
    exact safe.taken j (takes_before step passed takes).2

/-- A step leaves the list safe exactly where it is timely. -/
theorem Guarded.safe_iff (guarded : Guarded x) (safe : StandbySafe x) (step : Interleave.Step block x i y) :
    StandbySafe y ↔ Timely x.1 (x.2 i) := by
  have later := guarded.step step
  obtain ⟨p, here, runs⟩ := step.here
  obtain ⟨nodes, chained⟩ := guarded.chained
  cases effect_of_runs chained here runs with
  | quiet before after timely same semaphore =>
    exact iff_of_true (safe.kept later step same fun takes => after takes.inside) timely
  | enter before after timely same free semaphore =>
    rw [timely, ← chained.head_iff]
    constructor
    · intro stillSafe takes
      rw [← same.head]
      exact stillSafe.taken i takes
    · intro found
      refine ⟨?_, fun _ => later.counted, ?_⟩
      · rw [same.standbyLength]
        exact safe.bounded
      · intro j takes
        rw [same.head]
        by_cases here : j = i
        · exact found (here ▸ takes)
        · rw [step.other here] at takes
          exact safe.taken j takes
  | leave before after timely same semaphore =>
    exact iff_of_true (safe.kept later step same fun takes => after takes.inside) timely
  | stay before after passed semaphore chained bounded =>
    rw [← bounded safe.bounded]
    constructor
    · intro stillSafe
      exact stillSafe.bounded
    · intro bounded
      refine ⟨bounded, fun _ => later.counted, ?_⟩
      intro j takes
      obtain ⟨other, takes⟩ := takes_before step passed takes
      -- Two threads would be inside.
      rcases guarded.semaphore with ⟨_, nobody⟩ | ⟨_, k, only⟩
      · exact (nobody i before).elim
      · exact (other (((only j).mp takes.inside).trans ((only i).mp before).symm)).elim

end

theorem guarded_loaded (n : Nat) (calls : ι → Call) : Guarded (loaded n calls) where
  semaphore := .inl ⟨rfl, fun _ => id⟩
  chained := ⟨[], rfl, List.nodup_nil, by simp, rfl⟩

theorem safe_loaded (n : Nat) (calls : ι → Call) : StandbySafe (loaded n calls) where
  bounded := show (0 : Int) ≤ 8 by decide
  counted := fun _ => (guarded_loaded n calls).counted
  taken := fun _ takes => takes.elim

/-- In whatever order the requests take their steps, the standby list is safe as long as, and only as long as, every
    step is timely. -/
theorem standby_safe_iff [DecidableEq ι] (n : Nat) (calls : ι → Call) {steps : List ((Store × (ι → Stage)) × ι)}
    {last : Store × (ι → Stage)} (run : Run (Interleave.Step block) (loaded n calls) steps last) :
    (∀ x ∈ visited steps last, StandbySafe x) ↔ ∀ taken ∈ steps, Timely taken.1.1 (taken.1.2 taken.2) :=
  run.invariant_iff (fun x i => Timely x.1 (x.2 i)) Guarded StandbySafe (guarded_loaded n calls) (safe_loaded n calls)
    (fun _ _ _ guarded step => guarded.step step) fun _ _ _ guarded safe step => guarded.safe_iff safe step

def twoCancels : Nat → Call
  | 0 => .viewSeat 0 7
  | 1 => .viewSeat 1 8
  | 2 => .viewSeat 0 9
  | 3 => .cancel 0 7
  | _ => .cancel 1 8

/-- One cancel after the other. -/
theorem served_in_turn : ∃ steps last, Run (Interleave.Step block) (loaded 2 twoCancels) steps last ∧
    (∀ x ∈ visited steps last, StandbySafe x) ∧ last.1.standbyLength = 0 := by
  let threads := [4, 4, 4, 4, 4, 4, 3, 3, 3, 3, 3, 3, 3, 3, 2, 2, 2, 2, 2, 1, 1, 0, 0]
  have evaluated : (schedule 50 block (loaded 2 twoCancels) threads).map (fun ran =>
      (ran.1.all fun taken => Timely taken.1.1 (taken.1.2 taken.2), ran.2.1.standbyLength)) = some (true, 0) := rfl
  obtain ⟨⟨steps, last⟩, ran, shows⟩ := Option.map_eq_some_iff.mp evaluated
  rw [Prod.mk.injEq, List.all_eq_true] at shows
  have run := run_of_schedule ran
  have timely : ∀ taken ∈ steps, Timely taken.1.1 (taken.1.2 taken.2) :=
    fun taken member => of_decide_eq_true (shows.1 taken member)
  exact ⟨steps, last, run, (standby_safe_iff 2 twoCancels run).mpr timely, shows.2⟩

/-- Both cancels find customer 9 waiting; the second then looks for a customer in an empty list. -/
theorem empty_list_served : ∃ n, ∃ calls : Nat → Call, ∃ steps last,
    Run (Interleave.Step block) (loaded n calls) steps last ∧ ¬ ∀ x ∈ visited steps last, StandbySafe x := by
  let threads := [4, 3, 3, 3, 4, 4, 4, 4, 3, 3, 3, 3, 2, 2, 2, 2, 2, 1, 1, 0, 0]
  have evaluated : (schedule 50 block (loaded 2 twoCancels) threads).map (fun ran =>
      (ran.2.1.head, ran.2.2 4)) = some (none, .dequeue 1 (.cancelled 1 .pending)) := rfl
  obtain ⟨⟨steps, last⟩, ran, shows⟩ := Option.map_eq_some_iff.mp evaluated
  rw [Prod.mk.injEq] at shows
  refine ⟨2, twoCancels, steps, last, run_of_schedule ran, ?_⟩
  intro safe
  exact (safe last (last_mem_visited _ _)).taken 4 (by rw [shows.2]; trivial) shows.1

end Eecs343.Server.Seats
