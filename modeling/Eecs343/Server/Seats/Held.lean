import Eecs343.Server.Seats.Stages

namespace Eecs343.Server.Seats

open Prog Transition Interleave

def whole (p : Op Reply) : Op Stage := do
  let reply ← p
  pure (.done reply)

/-- The steps of requests whose decisions are atomic under the lock of their seat: `view_seat` alone takes two. -/
def atomicBlock : Stage → Option (Op Stage)
  | .begin (.viewSeat seatId customerId) => some (start seatId .requestedNotFound fun curr => look curr customerId)
  | .begin (.confirmSeat seatId customerId) => some (whole (confirmSeat seatId customerId))
  | .begin (.cancel seatId customerId) => some (whole (cancel seatId customerId))
  | .grant curr customerId => some (whole (grantSeat curr customerId))
  | .test customerId => some (whole (refuseSeat customerId))
  | _ => none

theorem whole_program (p : Op Reply) : p = (whole p).bind Stage.program := by
  rw [whole, bind_eq, bind_assoc]
  exact (bind_done p).symm

theorem composes_atomicBlock : Composes atomicBlock Stage.program := by
  intro place p here
  cases place with
  | begin call =>
    cases call with
    | viewSeat seatId customerId =>
      cases here
      exact start_program fun curr => look_program curr customerId
    | confirmSeat seatId customerId =>
      cases here
      exact whole_program _
    | cancel seatId customerId =>
      cases here
      exact whole_program _
  | grant curr customerId =>
    cases here
    exact whole_program _
  | test customerId =>
    cases here
    exact whole_program _
  | _ => cases here

/-- A step of one of the requests, between the state it is taken from and the state it leads to. -/
abbrev Taken (ι : Type) := (Store × (ι → Stage)) × ι × (Store × (ι → Stage))

variable {ι : Type} {curr n : Nat} {customerId : Int} {taken : Taken ι}

/-- `view_seat` replies `Confirm seat` to the customer. -/
def Tells (curr : Nat) (customerId : Int) (taken : Taken ι) : Prop := taken.1.2 taken.2.1 = .grant curr customerId

def Decides (curr : Nat) (customerId : Int) (taken : Taken ι) : Prop :=
  ∃ decision : Decision, taken.1.2 taken.2.1 = .begin (decision.call curr customerId)

/-- A cancel of the seat goes through. -/
def Cancels (curr : Nat) (taken : Taken ι) : Prop :=
  ∃ customerId id state, taken.1.2 taken.2.1 = .begin (.cancel curr customerId) ∧
    taken.2.2.2 taken.2.1 = .done (.cancelled id state)

/-- The customer was told to confirm the seat and has not confirmed or cancelled it since. Steps are listed latest
    first. -/
def Promised (curr : Nat) (customerId : Int) : List (Taken ι) → Prop
  | [] => False
  | taken :: earlier => Tells curr customerId taken ∨ Promised curr customerId earlier ∧ ¬ Decides curr customerId taken

/-- The customer was told to confirm the seat, and no cancel has gone through since. -/
def Outstanding (curr : Nat) (customerId : Int) : List (Taken ι) → Prop
  | [] => False
  | taken :: earlier => Tells curr customerId taken ∨ Outstanding curr customerId earlier ∧ ¬ Cancels curr taken

/-- What the last of these steps owes the customers who were told to confirm the seat. -/
def Honoured (curr : Nat) : List (Taken ι) → Prop
  | [] => True
  | taken :: earlier =>
    (∀ customerId, Promised curr customerId (taken :: earlier) → Awaits taken.2.2.1 curr customerId) ∧
      (∀ customerId other, Outstanding curr other earlier → Tells curr customerId taken → customerId = other) ∧
      ((taken.1.1.seats curr).state = .occupied → (taken.2.2.1.seats curr).state ≠ .pending)

/-- When `view_seat` writes the seat, the test that it has made still holds. -/
def Fresh (curr : Nat) (s : Store) : Stage → Prop
  | .grant written customerId => written = curr → (s.seats curr).state = .available ∨ Awaits s curr customerId
  | _ => True

instance (s : Store) : Decidable (Awaits s curr customerId) := inferInstanceAs (Decidable (_ ∧ _))

instance (s : Store) : DecidablePred (Fresh curr s)
  | .grant _ _ => inferInstanceAs (Decidable (_ → _ ∨ _))
  | .begin _ | .test _ | .enlist _ | .enqueue _ | .enlisted | .lock _ _ _ | .decide _ _ _ | .release _ _ | .serve _ _
  | .dequeue _ _ | .served _ _ | .free _ _ | .unlock _ _ | .done _ => isTrue trivial

theorem fresh_iff {s : Store} {place : Stage} : Fresh curr s place ↔
    ∀ customerId, place = .grant curr customerId → (s.seats curr).state = .available ∨ Awaits s curr customerId := by
  cases place with
  | grant written told =>
    constructor
    · intro fresh customerId same
      cases same
      exact fresh rfl
    · intro fresh same
      subst same
      exact fresh told rfl
  | _ => exact iff_of_true trivial fun _ other => by cases other

theorem Awaits.unique {s : Store} {other : Int} (awaits : Awaits s curr customerId) (awaits' : Awaits s curr other) :
    customerId = other := awaits.2.symm.trans awaits'.2

theorem Tells.unique {other : Int} (tells : Tells curr customerId taken) (tells' : Tells curr other taken) :
    customerId = other := by
  cases tells.symm.trans tells'
  rfl

theorem Tells.undecided {other : Int} (tells : Tells curr customerId taken) : ¬ Decides curr other taken := by
  intro ⟨decision, decides⟩
  cases tells.symm.trans decides

/-- What a step does to one seat. -/
inductive SeatEffect (curr : Nat) (taken : Taken ι) : Prop
  | granted (customerId : Int) (tells : Tells curr customerId taken) (awaits : Awaits taken.2.2.1 curr customerId)
  | decided (customerId : Int) (decides : Decides curr customerId taken) (awaited : Awaits taken.1.1 curr customerId)
    (after : (taken.2.2.1.seats curr).state ≠ .pending)
    (settled : Cancels curr taken ∨ (taken.2.2.1.seats curr).state = .occupied)
  | kept (same : taken.2.2.1.seats curr = taken.1.1.seats curr) (silent : ∀ customerId, ¬ Tells curr customerId taken)
    (refused : ∀ customerId, Decides curr customerId taken → ¬ Awaits taken.1.1 curr customerId)
    (uncancelled : ¬ Cancels curr taken)

theorem Shows.confirmed {s t : Store} {h : Hall} (shows : Shows s h) (inside : curr < h.numberOfSeats)
    (awaits : Awaits s curr customerId) {reply : Reply} (step : Step s (.confirmSeat curr customerId, reply) t) :
    (t.seats curr).state = .occupied := by
  have found : h.find curr = some curr := find_eq_some.mpr ⟨rfl, inside⟩
  have mine : h.PendingFor curr customerId := by
    unfold Awaits at awaits
    rwa [shows.seats] at awaits
  have after := (shows.step step).2
  simp only [Hall.answer, Hall.confirmSeat, found, mine, if_true] at after
  rw [after.seats, put_seats, if_pos rfl]

theorem Shows.decision_elsewhere {s t : Store} {h : Hall} (shows : Shows s h) (inside : curr < h.numberOfSeats)
    {decision : Decision} {seatId : Int} {reply : Reply} (elsewhere : seatId ≠ curr)
    (step : Step s (decision.call seatId customerId, reply) t) : t.seats curr = s.seats curr := by
  have change := shows.change step inside
  rw [shows.seats]
  generalize call : decision.call seatId customerId = made at change
  generalize t.seats curr = after at change
  cases change with
  | same => rfl
  | held => cases decision <;> cases call
  | sold =>
    cases decision with
    | confirm => cases call; exact (elsewhere rfl).elim
    | cancel => cases call
  | freed =>
    cases decision with
    | confirm => cases call
    | cancel => cases call; exact (elsewhere rfl).elim
  | passed =>
    cases decision with
    | confirm => cases call
    | cancel => cases call; exact (elsewhere rfl).elim

theorem Decision.call_inj {decision decision' : Decision} {seatId seatId' customerId' : Int}
    (same : decision.call seatId customerId = decision'.call seatId' customerId') :
    seatId = seatId' ∧ customerId = customerId' := by
  cases decision <;> cases decision' <;> cases same <;> exact ⟨rfl, rfl⟩

theorem SeatEffect.of_other (same : taken.2.2.1.seats curr = taken.1.1.seats curr)
    (silent : ∀ customerId, ¬ Tells curr customerId taken)
    (other : ∀ (decision : Decision) customerId, taken.1.2 taken.2.1 ≠ .begin (decision.call curr customerId)) :
    SeatEffect curr taken := by
  refine .kept same silent ?_ ?_
  · intro customerId ⟨decision, decides⟩
    exact (other decision customerId decides).elim
  · intro ⟨customerId, _, _, cancels, _⟩
    exact other .cancel customerId cancels

theorem Shows.decision_effect {h : Hall} (shows : Shows taken.1.1 h) (inside : curr < h.numberOfSeats)
    {decision : Decision}
    {seatId : Int} {reply : Reply} (place : taken.1.2 taken.2.1 = .begin (decision.call seatId customerId))
    (step : Step taken.1.1 (decision.call seatId customerId, reply) taken.2.2.1)
    (replied : taken.2.2.2 taken.2.1 = .done reply) : SeatEffect curr taken := by
  have silent : ∀ customerId, ¬ Tells curr customerId taken := by
    intro customerId tells
    cases place.symm.trans tells
  by_cases here : seatId = curr
  · subst here
    by_cases awaits : Awaits taken.1.1 curr customerId
    · cases decision with
      | confirm =>
        have sold := shows.confirmed inside awaits step
        exact .decided customerId ⟨.confirm, place⟩ awaits (by simp [sold]) (.inr sold)
      | cancel =>
        have mine : h.PendingFor curr customerId := by
          unfold Awaits at awaits
          rwa [shows.seats] at awaits
        obtain ⟨rfl, seat⟩ := shows.cancelled inside mine step
        refine .decided customerId ⟨.cancel, place⟩ awaits ?_ (.inl ⟨customerId, _, _, place, replied⟩)
        rw [seat]
        cases h.waiting.head? <;> simp
    · obtain ⟨refused, same⟩ := (shows.ends_refused inside awaits decision).post step
      refine .kept (by rw [same.seats]) silent ?_ ?_
      · intro other ⟨_, decides⟩
        obtain ⟨_, rfl⟩ := Decision.call_inj (Stage.begin.inj (place.symm.trans decides))
        exact awaits
      · intro ⟨_, _, _, _, cancelled⟩
        replace refused : reply = _ := refused
        rw [replied, refused] at cancelled
        split at cancelled <;> cases cancelled
  · apply SeatEffect.of_other (shows.decision_elsewhere inside here step) silent
    intro other _ decides
    exact here (Decision.call_inj (Stage.begin.inj (place.symm.trans decides))).1

/-- What is told and owed up to now, as long as every write was fresh. -/
structure Sound (curr : Nat) (history : List (Taken ι)) (x : Store × (ι → Stage)) : Prop where
  held : ∀ customerId, Promised curr customerId history → Awaits x.1 curr customerId
  told : ∀ customerId, Awaits x.1 curr customerId → Promised curr customerId history
  outstanding : ∀ customerId, Outstanding curr customerId history →
    Awaits x.1 curr customerId ∨ (x.1.seats curr).state = .occupied

section

variable {x y : Store × (ι → Stage)} {i : ι} {history : List (Taken ι)}

theorem Awaits.not_available {s : Store} (awaits : Awaits s curr customerId) : (s.seats curr).state ≠ .available := by
  rw [awaits.1]
  simp

theorem Sound.granted (sound : Sound curr history x) (fresh : Fresh curr x.1 (x.2 i))
    (tells : Tells curr customerId (x, i, y))
    (awaits : Awaits y.1 curr customerId) : Sound curr ((x, i, y) :: history) y ∧ Honoured curr ((x, i, y) :: history) := by
  have holder : ∀ other, Awaits x.1 curr other ∨ (x.1.seats curr).state = .occupied → customerId = other := by
    intro other taken
    rcases fresh_iff.mp fresh customerId tells with free | mine
    · rcases taken with another | sold
      · exact (another.not_available free).elim
      · cases free.symm.trans sold
    · rcases taken with another | sold
      · exact mine.unique another
      · cases mine.1.symm.trans sold
  have held : ∀ other, Promised curr other ((x, i, y) :: history) → Awaits y.1 curr other := by
    intro other owed
    rcases owed with again | ⟨earlier, _⟩
    · exact tells.unique again ▸ awaits
    · exact holder other (.inl (sound.held other earlier)) ▸ awaits
  refine ⟨⟨held, ?_, ?_⟩, held, ?_, ?_⟩
  · intro other another
    exact .inl (awaits.unique another ▸ tells)
  · intro other owed
    rcases owed with again | ⟨earlier, _⟩
    · exact .inl (tells.unique again ▸ awaits)
    · exact .inl (holder other (sound.outstanding other earlier) ▸ awaits)
  · intro told other outstanding again
    rw [← tells.unique again]
    exact holder other (sound.outstanding other outstanding)
  · intro sold
    rcases fresh_iff.mp fresh customerId tells with free | mine
    · cases free.symm.trans sold
    · cases mine.1.symm.trans sold

theorem Sound.decided (sound : Sound curr history x) (decides : Decides curr customerId (x, i, y))
    (awaited : Awaits x.1 curr customerId) (after : (y.1.seats curr).state ≠ .pending)
    (settled : Cancels curr (x, i, y) ∨ (y.1.seats curr).state = .occupied) :
    Sound curr ((x, i, y) :: history) y ∧ Honoured curr ((x, i, y) :: history) := by
  have held : ∀ other, Promised curr other ((x, i, y) :: history) → Awaits y.1 curr other := by
    intro other owed
    rcases owed with tells | ⟨earlier, undecided⟩
    · exact (tells.undecided decides).elim
    · exact (undecided (awaited.unique (sound.held other earlier) ▸ decides)).elim
  refine ⟨⟨held, ?_, ?_⟩, held, ?_, fun _ => after⟩
  · intro other awaits
    exact (after awaits.1).elim
  · intro other owed
    rcases owed with tells | ⟨earlier, uncancelled⟩
    · exact (tells.undecided decides).elim
    · exact .inr (settled.resolve_left uncancelled)
  · intro told other _ tells
    exact (tells.undecided decides).elim

theorem Sound.kept (sound : Sound curr history x) (same : y.1.seats curr = x.1.seats curr)
    (silent : ∀ customerId, ¬ Tells curr customerId (x, i, y))
    (refused : ∀ customerId, Decides curr customerId (x, i, y) → ¬ Awaits x.1 curr customerId) :
    Sound curr ((x, i, y) :: history) y ∧ Honoured curr ((x, i, y) :: history) := by
  have awaits_iff : ∀ other, Awaits y.1 curr other ↔ Awaits x.1 curr other := by
    intro other
    rw [Awaits, same, Awaits]
  have held : ∀ other, Promised curr other ((x, i, y) :: history) → Awaits y.1 curr other := by
    intro other owed
    rcases owed with tells | ⟨earlier, _⟩
    · exact (silent other tells).elim
    · exact (awaits_iff other).mpr (sound.held other earlier)
  refine ⟨⟨held, ?_, ?_⟩, held, ?_, ?_⟩
  · intro other awaits
    have before := (awaits_iff other).mp awaits
    exact .inr ⟨sound.told other before, fun decides => refused other decides before⟩
  · intro other owed
    rcases owed with tells | ⟨earlier, _⟩
    · exact (silent other tells).elim
    · rw [awaits_iff, same]
      exact sound.outstanding other earlier
  · intro told other _ tells
    exact (silent told tells).elim
  · intro sold
    rw [same, sold]
    simp

theorem Sound.step (sound : Sound curr history x) (effect : SeatEffect curr (x, i, y)) (fresh : Fresh curr x.1 (x.2 i)) :
    Sound curr ((x, i, y) :: history) y ∧ Honoured curr ((x, i, y) :: history) := by
  cases effect with
  | granted customerId tells awaits => exact sound.granted fresh tells awaits
  | decided customerId decides awaited after settled => exact sound.decided decides awaited after settled
  | kept same silent refused uncancelled => exact sound.kept same silent refused

/-- A write to a seat that is no longer free either takes it from somebody or makes an OCCUPIED seat PENDING. -/
theorem Sound.fresh (sound : Sound curr history x) (effect : SeatEffect curr (x, i, y))
    (honoured : Honoured curr ((x, i, y) :: history)) : Fresh curr x.1 (x.2 i) := by
  apply fresh_iff.mpr
  intro customerId tells
  replace tells : Tells curr customerId (x, i, y) := tells
  cases effect with
  | granted told tells' awaits =>
    obtain rfl := tells.unique tells'
    cases state : (x.1.seats curr).state with
    | available => exact .inl rfl
    | pending =>
      have before : Awaits x.1 curr (x.1.seats curr).customerId := ⟨state, rfl⟩
      have promised : Promised curr _ ((x, i, y) :: history) := .inr ⟨sound.told _ before, tells'.undecided⟩
      rw [awaits.unique (honoured.1 _ promised)]
      exact .inr before
    | occupied => exact (honoured.2.2 state awaits.1).elim
  | decided other decides => exact (tells.undecided decides).elim
  | kept same silent => exact (silent customerId tells).elim

end

theorem runs_whole {p : Op Reply} {s t : Store} {next : Stage} (runs : Runs (whole p) s next t) :
    ∃ reply, Runs p s reply t ∧ next = .done reply := by
  obtain ⟨reply, u, ran, rest⟩ := runs.of_bind
  obtain ⟨rfl, rfl⟩ := runs_done.mp rest
  exact ⟨reply, ran, rfl⟩

theorem runs_view {seatId : Int} {missing : Reply} {s t : Store} {next : Stage}
    (runs : Runs (start seatId missing fun curr => look curr customerId) s next t) : t = s := by
  rcases runs_start runs with ⟨_, same⟩ | ⟨_, looks⟩
  · exact same
  · exact (runs_look looks).2

theorem Shows.grant_effect {h : Hall} (shows : Shows taken.1.1 h) {j : Nat} {customerId : Int}
    (after : Shows taken.2.2.1 (h.put j customerId .pending)) (place : taken.1.2 taken.2.1 = .grant j customerId) :
    SeatEffect curr taken := by
  have seat := put_seats h j curr customerId .pending
  rw [← after.seats] at seat
  by_cases here : curr = j
  · subst here
    rw [if_pos rfl] at seat
    exact .granted customerId place ⟨by rw [seat], by rw [seat]⟩
  · rw [if_neg here, ← shows.seats] at seat
    refine .of_other seat ?_ ?_
    · intro _ tells
      cases place.symm.trans tells
      exact here rfl
    · intro _ _ decides
      cases place.symm.trans decides

theorem sound_loaded (curr n : Nat) (calls : ι → Call) : Sound curr [] (loaded n calls) where
  held := fun _ none => none.elim
  told := by
    intro _ awaits
    exact (awaits.not_available rfl).elim
  outstanding := fun _ none => none.elim

variable [DecidableEq ι]

/-- A step keeps the tables consistent, and does one of these things to each seat. -/
theorem Consistent.atomic_step {x y : Store × (ι → Stage)} {i : ι} (consistent : Consistent n x.1)
    (step : Interleave.Step atomicBlock x i y) : Consistent n y.1 ∧ ∀ curr < n, SeatEffect curr (x, i, y) := by
  obtain ⟨p, here, runs⟩ := step.here
  obtain ⟨h, shows, rfl⟩ := consistent
  -- `confirm_seat` and `cancel` are whole in one step
  have decision : ∀ (decision : Decision) seatId customerId reply, x.2 i = .begin (decision.call seatId customerId) →
      Runs (decision.call seatId customerId).program x.1 reply y.1 → y.2 i = .done reply →
      Consistent h.numberOfSeats y.1 ∧ ∀ curr < h.numberOfSeats, SeatEffect curr (x, i, y) := by
    intro decision seatId customerId reply place ran replied
    have consistent : Consistent h.numberOfSeats x.1 := ⟨h, shows, rfl⟩
    have step : Step x.1 (decision.call seatId customerId, reply) y.1 := ran
    refine ⟨consistent.step step, ?_⟩
    intro curr inside
    exact Shows.decision_effect shows inside place ran replied
  cases place : x.2 i with
  | begin call =>
    rw [place] at here
    cases call with
    | viewSeat seatId customerId =>
      cases here
      have same := runs_view runs
      rw [same]
      refine ⟨⟨h, shows, rfl⟩, ?_⟩
      intro curr _
      refine .of_other (by rw [same]) ?_ ?_
      · intro _ tells
        cases place.symm.trans tells
      · intro decision _ decides
        cases decision <;> cases place.symm.trans decides
    | confirmSeat seatId customerId =>
      cases here
      obtain ⟨reply, ran, replied⟩ := runs_whole runs
      exact decision .confirm seatId customerId reply place ran replied
    | cancel seatId customerId =>
      cases here
      obtain ⟨reply, ran, replied⟩ := runs_whole runs
      exact decision .cancel seatId customerId reply place ran replied
  | grant j customerId =>
    rw [place] at here
    cases here
    obtain ⟨reply, ran, _⟩ := runs_whole runs
    have after := ((ends_grantSeat shows j customerId).post ran).2
    exact ⟨⟨_, after, rfl⟩, fun curr _ => Shows.grant_effect shows after place⟩
  | test customerId =>
    rw [place] at here
    cases here
    obtain ⟨reply, ran, _⟩ := runs_whole runs
    have after := ((ends_refuseSeat shows customerId).post ran).2
    refine ⟨⟨_, after, ?_⟩, ?_⟩
    · rw [Hall.enlist]
      split <;> rfl
    · intro curr _
      refine .of_other ?_ ?_ ?_
      · rw [after.seats, shows.seats, Hall.enlist]
        split <;> rfl
      · intro _ tells
        cases place.symm.trans tells
      · intro _ _ decides
        cases place.symm.trans decides
  | _ =>
    rw [place] at here
    cases here

section

variable {calls : ι → Call} {steps : List ((Store × (ι → Stage)) × ι)} {last : Store × (ι → Stage)}

theorem run_consistent (run : Run (Interleave.Step atomicBlock) (loaded n calls) steps last) : Consistent n last.1 :=
  run.invariant (fun _ _ => True) (fun x => Consistent n x.1) (consistent_loadSeats n)
    (fun _ _ _ consistent _ step => (consistent.atomic_step step).1) fun _ _ => trivial

theorem run_sound (run : Run (Interleave.Step atomicBlock) (loaded n calls) steps last) (inside : curr < n)
    (fresh : ∀ taken ∈ steps, Fresh curr taken.1.1 (taken.1.2 taken.2)) : Sound curr (transitions steps last) last := by
  induction run with
  | refl => exact sound_loaded curr n calls
  | snoc before taken ih =>
    obtain ⟨now, earlier⟩ := List.forall_mem_cons.mp fresh
    have effect := ((run_consistent before).atomic_step taken).2 curr inside
    exact ((ih earlier).step effect now).1

end

/-- In whatever order the requests take their steps, what customers were told about a seat is honoured as long as, and
    only as long as, `view_seat` writes it while its test still holds. -/
theorem hold_honoured_iff (calls : ι → Call) {steps : List ((Store × (ι → Stage)) × ι)} {last : Store × (ι → Stage)}
    (run : Run (Interleave.Step atomicBlock) (loaded n calls) steps last) (inside : curr < n) :
    (∀ history, history <:+ transitions steps last → Honoured curr history) ↔
      ∀ taken ∈ steps, Fresh curr taken.1.1 (taken.1.2 taken.2) := by
  induction run with
  | refl =>
    apply iff_of_true
    · intro history prior
      rw [transitions, List.suffix_nil] at prior
      rw [prior]
      trivial
    · simp
  | snoc before taken ih =>
    have effect := ((run_consistent before).atomic_step taken).2 curr inside
    rw [transitions, List.forall_mem_cons]
    simp only [List.suffix_cons_iff, forall_eq_or_imp, ih]
    apply and_congr_left
    intro earlier
    -- every write before this step was fresh, so that nothing is owed wrongly
    have sound := run_sound before inside earlier
    constructor
    · exact sound.fresh effect
    · intro fresh
      exact (sound.step effect fresh).2

def twoViews : Nat → Call
  | 0 => .viewSeat 0 7
  | 1 => .viewSeat 0 8
  | _ => .confirmSeat 0 7

/-- One view after the other. -/
theorem first_view_honoured : ∃ steps last, Run (Interleave.Step atomicBlock) (loaded 1 twoViews) steps last ∧
    (∀ history, history <:+ transitions steps last → Honoured 0 history) ∧ (last.1.seats 0).state = .occupied := by
  have evaluated : (schedule 50 atomicBlock (loaded 1 twoViews) [2, 1, 1, 0, 0]).map (fun ran =>
      (ran.1.all fun taken => Fresh 0 taken.1.1 (taken.1.2 taken.2), (ran.2.1.seats 0).state)) = some (true, .occupied) := rfl
  obtain ⟨⟨steps, last⟩, ran, shows⟩ := Option.map_eq_some_iff.mp evaluated
  rw [Prod.mk.injEq, List.all_eq_true] at shows
  have run := run_of_schedule ran
  have fresh : ∀ taken ∈ steps, Fresh 0 taken.1.1 (taken.1.2 taken.2) :=
    fun taken member => of_decide_eq_true (shows.1 taken member)
  exact ⟨steps, last, run, (hold_honoured_iff twoViews run (by decide)).mpr fresh, shows.2⟩

/-- Both views find the seat available, and both customers are told to confirm it. -/
theorem seat_told_twice : ∃ n curr, curr < n ∧ ∃ calls : Nat → Call, ∃ steps last,
    Run (Interleave.Step atomicBlock) (loaded n calls) steps last ∧
      ¬ ∀ history, history <:+ transitions steps last → Honoured curr history := by
  obtain ⟨_, _, first, second, last, scheduled, seven, eight⟩ : ∃ start next first second last,
      schedule 50 atomicBlock (loaded 1 twoViews) [1, 0, 1, 0] =
        some ([(second, 1), (first, 0), (next, 1), (start, 0)], last) ∧
      first.2 0 = .grant 0 7 ∧ second.2 1 = .grant 0 8 := ⟨_, _, _, _, _, rfl, rfl, rfl⟩
  refine ⟨1, 0, by decide, twoViews, _, _, run_of_schedule scheduled, ?_⟩
  intro honoured
  have same := (honoured _ List.suffix_rfl).2.1 8 7 (.inl seven) eight
  cases same

end Eecs343.Server.Seats
