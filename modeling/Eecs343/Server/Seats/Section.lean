import Eecs343.Server.Seats.InFlight
import Eecs343.Server.Semaphore.Section

namespace Eecs343.Server.Seats

open Prog Transition Semaphore

/-- The requests, with the calls of `sem_wait` and `sem_post` in the hands of `semaphore.c`. -/
def client : Client Store Stage where
  block := block
  call
    | .enlist customerId => some (.wait, .enqueue customerId)
    | .serve curr reply => some (.wait, .dequeue curr reply)
    | .enlisted => some (.post, .done .unavailable)
    | .served curr reply => some (.post, .unlock curr reply)
    | _ => none
  count := Store.semaphore
  setCount s count := { s with semaphore := count }

def Store.standby (s : Store) : Option Nat × Int × (Nat → Standby) × Nat × List Int × List Int :=
  (s.head, s.standbyLength, s.nodes, s.allocated, s.listed, s.served)

/-- The list is linked to its end, `standby_length` counts it, and the customers put on it are those served followed by
    those on it, in that order. -/
def Whole (s : Store) : Prop := ∃ nodes, Chained s nodes ∧ s.served ++ customers s nodes = s.listed

/-- A part of the store apart from the seats. -/
structure Elsewhere {τ : Type} (get : Store → τ) : Prop where
  state : ∀ s curr state, get (s.setState curr state) = get s
  customer : ∀ s curr customerId, get (s.setCustomer curr customerId) = get s
  locked : ∀ s curr locked, get (s.setLocked curr locked) = get s

section

variable {τ : Type} {get : Store → τ}

theorem keeps_search (seatId : Int) : Keeps get (search seatId) := by
  apply each_bind keeps_read
  intro header
  refine ⟨?_, fun _ => each_pure⟩
  intro curr
  cases curr with
  | none => exact each_pure
  | some curr => exact each_bind keeps_read fun _ => each_ite each_pure (each_bind keeps_read fun _ => each_pure)

theorem keeps_start {seatId : Int} {missing : Reply} {found : Nat → Op Stage} (goes : ∀ curr, Keeps get (found curr)) :
    Keeps get (start seatId missing found) := by
  apply each_bind (keeps_search seatId)
  intro stopped
  cases stopped with
  | none => exact each_pure
  | some curr => exact goes curr

theorem keeps_pendingFor (curr : Nat) (customerId : Int) : Keeps get (pendingFor curr customerId) :=
  each_bind keeps_read fun _ => each_ite (each_bind keeps_read fun _ => each_pure) trivial

theorem keeps_look (curr : Nat) (customerId : Int) : Keeps get (look curr customerId) :=
  each_bind keeps_read fun _ =>
    each_ite (each_bind each_pure fun _ => each_pure) (each_bind (keeps_pendingFor curr customerId) fun _ => each_pure)

theorem keeps_announce (curr : Nat) (reply : Int → SeatState → Reply) : Keeps get (announce curr reply) :=
  each_bind keeps_read fun _ => each_bind keeps_read fun _ => each_pure

theorem keeps_refuse (curr : Nat) (customerId : Int) : Keeps get (refuse curr customerId) :=
  each_bind keeps_read fun _ => each_ite each_pure (each_bind keeps_read fun _ => each_ite each_pure each_pure)

theorem Elsewhere.keeps_decided (elsewhere : Elsewhere get) (curr : Nat) (customerId : Int) (decision : Decision) :
    Keeps get (decided curr customerId decision) := by
  apply each_bind (keeps_pendingFor curr customerId)
  intro mine
  apply each_ite
  · cases decision with
    | confirm =>
      exact each_bind (keeps_announce curr _) fun _ => each_bind
        (keeps_write fun s => elsewhere.state s curr _) fun _ => each_pure
    | cancel => exact each_bind (keeps_announce curr _) fun _ => each_pure
  · exact each_bind (keeps_refuse curr customerId) fun _ => each_pure

/-- A block outside the protected section keeps whatever is not part of a seat. -/
theorem Elsewhere.keeps_block (elsewhere : Elsewhere get) {place : Stage} {p : Op Stage} (outside : ¬ place.Inside)
    (here : client.start place = some p) : Keeps get p := by
  cases place with
  | begin call =>
    cases call with
    | viewSeat seatId customerId =>
      cases here
      exact keeps_start fun curr => keeps_look curr customerId
    | confirmSeat | cancel =>
      cases here
      exact keeps_start fun _ => each_pure
  | grant curr customerId =>
    cases here
    refine each_bind ?_ fun _ => each_pure
    apply each_bind (keeps_announce curr _)
    intro reply
    apply each_bind (keeps_write fun s => elsewhere.state s curr _)
    exact fun _ => each_bind (keeps_write fun s => elsewhere.customer s curr _) fun _ => each_pure
  | test | release =>
    cases here
    exact each_bind keeps_read fun _ => each_pure
  | lock decision curr =>
    cases here
    exact each_bind (keeps_await fun s => elsewhere.locked s curr _) fun _ => each_pure
  | decide decision curr customerId =>
    cases here
    exact elsewhere.keeps_decided curr customerId decision
  | free curr =>
    cases here
    exact each_bind (keeps_write fun s => elsewhere.state s curr _) fun _ => each_pure
  | unlock curr =>
    cases here
    exact each_bind (keeps_write fun s => elsewhere.locked s curr _) fun _ => each_pure
  | enqueue | dequeue | enlisted | served => exact absurd trivial outside
  | enlist | serve | done => cases here

end

theorem answers_outside {place : Stage} {p : Op Stage} (outside : ¬ place.Inside) (here : client.start place = some p) :
    Answers (fun next => ¬ next.Inside) p := by
  cases place with
  | begin call =>
    cases call with
    | viewSeat seatId customerId =>
      cases here
      apply answers_bind
      intro stopped
      cases stopped with
      | none => exact answers_pure id
      | some curr =>
        exact answers_bind fun _ => answers_ite (answers_bind fun _ => answers_pure (by split <;> exact id))
          (answers_bind fun _ => answers_pure (by split <;> exact id))
    | confirmSeat | cancel =>
      cases here
      apply answers_bind
      intro stopped
      cases stopped with
      | none => exact answers_pure id
      | some curr => exact answers_pure id
  | decide decision curr customerId =>
    cases here
    apply answers_bind
    intro mine
    apply answers_ite
    · cases decision with
      | confirm => exact answers_bind fun _ => answers_bind fun _ => answers_pure id
      | cancel => exact answers_bind fun _ => answers_pure id
    · exact answers_bind fun _ => answers_pure id
  | test | release =>
    cases here
    exact answers_bind fun _ => answers_pure (by split <;> exact id)
  | grant | lock | free | unlock =>
    cases here
    exact answers_bind fun _ => answers_pure id
  | enqueue | dequeue | enlisted | served => exact absurd trivial outside
  | enlist | serve | done => cases here

theorem standby_iff {s t : Store} : s.standby = t.standby ↔ s.head = t.head ∧ s.standbyLength = t.standbyLength ∧
    s.nodes = t.nodes ∧ s.allocated = t.allocated ∧ s.listed = t.listed ∧ s.served = t.served := by
  simp only [Store.standby, Prod.mk.injEq]

/-- Every access works on the standby list alone, or on the seats. -/
def OnList : {ρ : Type} → Op ρ → Prop :=
  Each fun _ act => ∀ s s' b t, s.standby = s'.standby → act s = some (b, t) →
    t.semaphore = s.semaphore ∧ ∃ t', act s' = some (b, t') ∧ t.standby = t'.standby

section

variable {ρ : Type} {p : Op ρ}

theorem OnList.keeps (onList : OnList p) : Keeps Store.semaphore p :=
  Each.mono onList fun _ _ works s b t acted => (works s s b t rfl acted).1

theorem OnList.reads (onList : OnList p) : Reads Store.standby p :=
  Each.mono onList fun _ _ works s s' b t same acted => (works s s' b t same acted).2

theorem onList_read {f : Store → ρ} (alike : ∀ s s', s.standby = s'.standby → f s = f s') : OnList (read f) := by
  refine ⟨?_, fun _ => each_pure⟩
  intro s s' b t same answered
  cases answered
  exact ⟨rfl, s', by rw [alike s s' same], same⟩

theorem onList_write {put : Store → Store} (keeps : ∀ s, (put s).semaphore = s.semaphore)
    (alike : ∀ s s', s.standby = s'.standby → (put s).standby = (put s').standby) : OnList (write put) := by
  refine ⟨?_, fun _ => each_pure⟩
  intro s s' b t same answered
  cases answered
  exact ⟨keeps s, put s', rfl, alike s s' same⟩

theorem onList_deref {pointer : Option ρ} : OnList (deref pointer) := by
  refine ⟨?_, fun _ => each_pure⟩
  intro s s' b t same followed
  obtain ⟨a, here, followed⟩ := Option.map_eq_some_iff.mp followed
  cases followed
  exact ⟨rfl, s', by rw [here]; rfl, same⟩

theorem onList_malloc : OnList malloc := by
  refine ⟨?_, fun _ => each_pure⟩
  intro s s' b t same allocated
  cases allocated
  obtain ⟨head, length, nodes, allocated, listed, served⟩ := standby_iff.mp same
  exact ⟨rfl, _, by rw [allocated], by simp [Store.standby, *]⟩

theorem onList_head : OnList (read Store.head) := onList_read fun _ _ same => (standby_iff.mp same).1

theorem onList_length : OnList (read Store.standbyLength) := onList_read fun _ _ same => (standby_iff.mp same).2.1

theorem onList_node {f : Standby → ρ} (node : Nat) : OnList (read fun s => f (s.nodes node)) :=
  onList_read fun _ _ same => by rw [(standby_iff.mp same).2.2.1]

theorem onList_setNode (node : Nat) (content : (Nat → Standby) → Standby) :
    OnList (write fun s => s.setNode node (content s.nodes)) := by
  refine onList_write (fun _ => rfl) ?_
  intro s s' same
  obtain ⟨head, length, nodes, allocated, listed, served⟩ := standby_iff.mp same
  simp [Store.standby, Store.setNode, *]

theorem onList_count (more : Int → Int) : OnList (do
    let length ← read Store.standbyLength
    write fun s => { s with standbyLength := more length }) := by
  refine each_bind onList_length fun length => onList_write (fun _ => rfl) ?_
  intro s s' same
  obtain ⟨head, _, nodes, allocated, listed, served⟩ := standby_iff.mp same
  simp [Store.standby, *]

theorem onList_tailRound (iter : Option Nat) : OnList (tailRound iter) := by
  refine each_bind onList_deref fun node => each_bind (onList_node node) fun next => ?_
  cases next with
  | none => exact each_pure
  | some _ => exact each_bind (onList_node node) fun _ => each_pure

theorem onList_enqueue (customerId : Int) : OnList (enqueue customerId) := by
  refine each_bind onList_malloc fun newStandby => ?_
  refine each_bind (onList_setNode newStandby fun nodes => { nodes newStandby with customerId }) fun _ => ?_
  refine each_bind (onList_setNode newStandby fun nodes => { nodes newStandby with next := none }) fun _ => ?_
  refine each_bind onList_head fun iter => each_bind onList_length fun length => each_ite ?_ ?_
  · refine each_bind (onList_write (fun _ => rfl) ?_) fun _ => onList_count (· + 1)
    intro s s' same
    obtain ⟨_, length, nodes, allocated, listed, served⟩ := standby_iff.mp same
    simp [Store.standby, *]
  · refine each_bind ⟨onList_tailRound, fun _ => each_pure⟩ fun last => ?_
    refine each_bind (onList_write (fun _ => rfl) ?_) fun _ => onList_count (· + 1)
    intro s s' same
    obtain ⟨head, length, nodes, allocated, listed, served⟩ := standby_iff.mp same
    simp [Store.standby, Store.setNode, *]

theorem onList_dequeue (curr : Nat) : OnList (dequeue curr) := by
  refine each_bind onList_head fun first => each_bind onList_deref fun node => ?_
  refine each_bind (onList_node node) fun customerId => each_bind (onList_write (fun _ => rfl) ?_) fun _ => ?_
  · intro s s' same
    obtain ⟨head, length, nodes, allocated, listed, served⟩ := standby_iff.mp same
    simp [Store.standby, Store.setCustomer, *]
  refine each_bind onList_head fun first => each_bind onList_deref fun node => each_bind (onList_node node) fun next => ?_
  refine each_bind (onList_write (fun _ => rfl) ?_) fun _ => ?_
  · intro s s' same
    obtain ⟨head, length, nodes, allocated, listed, served⟩ := standby_iff.mp same
    simp [Store.standby, *]
  exact each_bind (onList_write (fun _ => rfl) fun _ _ same => same) fun _ => onList_count (· - 1)

end

section

variable {s : Store}

theorem safe_enqueue (whole : Whole s) (customerId : Int) : Safe (enqueue customerId) s fun _ t => Whole t := by
  intro r t runs
  obtain ⟨nodes, chained, order⟩ := whole
  obtain ⟨longer, waiting, same⟩ := (ends_enqueue chained customerId).post runs
  refine ⟨_, longer, ?_⟩
  rw [waiting, same, ← List.append_assoc, order]

theorem safe_dequeue (whole : Whole s) (curr : Nat) : Safe (dequeue curr) s fun _ t => Whole t := by
  intro r t runs
  obtain ⟨nodes, chained, order⟩ := whole
  cases nodes with
  | nil =>
    have ends := runs.ends
    have empty : s.head = none := chained.path
    simp only [dequeue, ends_bind, ends_read, ends_deref, empty] at ends
    obtain ⟨_, none, _⟩ := ends
    cases none
  | cons node nodes =>
    obtain ⟨shorter, same⟩ := (ends_dequeue chained curr).post runs
    refine ⟨nodes, shorter, ?_⟩
    rw [same]
    simpa [customers] using order

end

theorem safe_bind {p : Op Unit} {place : Stage} {s : Store} {post : Store → Prop} (safe : Safe p s fun _ t => post t) :
    Safe (p >>= fun _ => pure place) s fun _ t => post t := by
  intro r t runs
  obtain ⟨_, u, first, rest⟩ := runs.of_bind
  obtain ⟨rfl, rfl⟩ := runs_done.mp rest
  exact safe _ _ first

theorem Whole.congr {s t : Store} (whole : Whole s) (same : s.standby = t.standby) : Whole t := by
  obtain ⟨nodes, chained, order⟩ := whole
  obtain ⟨head, length, contents, allocated, listed, served⟩ := standby_iff.mp same
  refine ⟨nodes, chained.congr ⟨head.symm, length.symm, contents.symm, allocated.symm⟩, ?_⟩
  rw [← listed, ← served, ← order]
  simp only [customers, contents]

theorem protects : client.Protects Stage.Inside Store.standby Whole where
  count := fun _ _ => rfl
  apart := fun _ _ => rfl
  blind := fun _ _ same => ⟨fun whole => whole.congr same, fun whole => whole.congr same.symm⟩
  waits := by
    intro place next calls
    cases place <;> cases calls <;> exact ⟨id, trivial⟩
  posts := by
    intro place next calls
    cases place <;> cases calls <;> exact ⟨trivial, id⟩
  counts := by
    intro place p here
    by_cases inside : place.Inside
    · cases place with
      | enqueue customerId =>
        cases here
        exact each_bind (onList_enqueue customerId).keeps fun _ => each_pure
      | dequeue curr =>
        cases here
        exact each_bind (onList_dequeue curr).keeps fun _ => each_pure
      | enlisted | served => cases here
      | _ => exact inside.elim
    · exact Elsewhere.keeps_block ⟨fun _ _ _ => rfl, fun _ _ _ => rfl, fun _ _ _ => rfl⟩ inside here
  outer := by
    intro place p here outside
    refine ⟨?_, answers_outside outside here⟩
    exact Elsewhere.keeps_block ⟨fun _ _ _ => rfl, fun _ _ _ => rfl, fun _ _ _ => rfl⟩ outside here
  inner := by
    intro place p here inside
    cases place with
    | enqueue customerId =>
      cases here
      refine ⟨each_bind (onList_enqueue customerId).reads fun _ => each_pure, answers_bind fun _ => answers_pure trivial, ?_⟩
      exact fun s whole => safe_bind (safe_enqueue whole customerId)
    | dequeue curr =>
      cases here
      refine ⟨each_bind (onList_dequeue curr).reads fun _ => each_pure, answers_bind fun _ => answers_pure trivial, ?_⟩
      exact fun s whole => safe_bind (safe_dequeue whole curr)
    | enlisted | served => cases here
    | _ => exact inside.elim

/-- Requests in flight, access by access, on a hall of `n` seats. -/
def opened {ι : Type} (n : Nat) (calls : ι → Call) :
    Shared Store Stage ι := .start (loadSeats n) fun i => .begin (calls i)

/-- However the accesses of the requests and the steps of `sem_wait` and `sem_post` follow on each other, the semaphore
    excludes, the standby list is a queue in order whenever the count is up, and nobody but the request between its
    `sem_wait` and its `sem_post` changes it. -/
theorem standby_protected {ι : Type} [Fintype ι] [DecidableEq ι] {n : Nat} {calls : ι → Call}
    {steps : List (Shared Store Stage ι × Move ι)} {last : Shared Store Stage ι}
    (run : Run (client.system ι).Step (opened n calls) steps last) :
    (∀ s ∈ visited steps last, Semaphore.Exclusive (client.view s) ∧ (0 < s.store.semaphore → Whole s.store)) ∧
      ∀ taken ∈ transitions steps last, taken.2.2.store.standby = taken.1.store.standby ∨
        ∃ i, taken.2.1 = .access i ∧ taken.1.pcs i = .inside := by
  have found : Whole (loadSeats n) := ⟨[], ⟨rfl, List.nodup_nil, by simp, rfl⟩, rfl⟩
  have start : client.Kept Stage.Inside Store.standby Whole (opened n calls) := Client.Kept.start rfl found fun _ => id
  constructor
  · intro s member
    have kept := protects.kept rfl found (fun _ => id) run s member
    exact ⟨kept.sem.exclusive, kept.free⟩
  · apply run.always (client.Kept Stage.Inside Store.standby Whole) (fun s move t =>
      t.store.standby = s.store.standby ∨ ∃ i, move = .access i ∧ s.pcs i = .inside) start
    exact fun _ _ _ kept step => ⟨kept.step protects step, kept.untouched protects step⟩

def takenSeat : Bool → Call
  | false => .viewSeat 0 7
  | true => .viewSeat 0 8

def takenMoves : List (Move Bool) := List.flatten [
  List.replicate 4 (.run true), .call true :: List.replicate 8 (.access true), .begin true :: List.replicate 4 (.run true),
  [.call true, .access true, .begin true], List.replicate 6 (.access true), .begin true :: List.replicate 4 (.access false),
  .begin false :: List.replicate 4 (.access false), [.begin false]]

theorem second_customer_protected : ∃ steps last, Run (client.system Bool).Step (opened 1 takenSeat) steps last ∧
    last.store.listed = [8] ∧ (0 < last.store.semaphore → Whole last.store) := by
  have admits : (client.system Bool).Admits (opened 1 takenSeat) takenMoves := by decide +kernel
  have listed : ((client.system Bool).final (opened 1 takenSeat) takenMoves).store.listed = [8] := by decide +kernel
  have run := System.run_of_admits (client.system Bool) admits
  have whole := (standby_protected run).1 _ (last_mem_visited _ _)
  exact ⟨_, _, run, listed, whole.2⟩

end Eecs343.Server.Seats
