import Eecs343.Server.Seats.Exclusive

namespace Eecs343.Server.Seats

open Prog Transition

variable {n i : Nat} {s t : Store} {h : Hall}

def firstWaiting (s : Store) : Option Int := s.head.map fun node => (s.nodes node).customerId

/-- A customer whose cancel succeeds does not hold the seat afterwards: it is free where nobody waits, and
    otherwise belongs to the customer who waited longest. -/
def GivesUp (s : Store) (made : Call × Reply) (t : Store) : Prop :=
  ∀ (i : Nat) (customerId id : Int) (shown : SeatState), made = (.cancel i customerId, .cancelled id shown) →
    ¬ Holds t i customerId ∧
      ((t.seats i).state = .available ∧ firstWaiting s = none ∨
        (t.seats i).state = .occupied ∧ firstWaiting s = some (t.seats i).customerId)

/-- No call cancels a seat that is pending for the customer at the head of the standby list. -/
def OtherFirst (n : Nat) (s : Store) (call : Call) : Prop :=
  ∀ (i : Nat) (customerId : Int), i < n → call = .cancel i customerId → (s.seats i).state = .pending →
    (s.seats i).customerId = customerId → firstWaiting s ≠ some customerId

theorem Shows.firstWaiting (shows : Shows s h) : firstWaiting s = h.waiting.head? := by
  obtain ⟨nodes, waits, customers⟩ := shows.waits
  rw [← customers]
  have path := waits.path
  unfold Seats.firstWaiting
  cases nodes with
  | nil =>
    have last : s.head = none := path
    rw [last]
    rfl
  | cons node nodes =>
    have first : s.head = some node := path.1
    rw [first]
    rfl

theorem Shows.cancelled (shows : Shows s h) (inside : i < h.numberOfSeats) {customerId : Int}
    (mine : h.PendingFor i customerId) {reply : Reply} (step : Step s (.cancel i customerId, reply) t) :
    reply = .cancelled i .pending ∧
      t.seats i = match h.waiting.head? with
        | none => ⟨i, customerId, .available⟩
        | some next => ⟨i, next, .occupied⟩ := by
  obtain ⟨replied, after⟩ := shows.step step
  have found : h.find i = some i := find_eq_some.mpr ⟨rfl, inside⟩
  simp only [Hall.answer, Hall.cancel, found, mine, if_true, shows.ids i inside, mine.1] at replied after
  refine ⟨replied, ?_⟩
  rw [after.seats, Hall.release]
  cases h.waiting with
  | nil => simp [put_seats, shows.ids i inside, mine.2]
  | cons next rest => simp [Hall.serve, put_seats, shows.ids i inside]

theorem Shows.cancelled_pending (shows : Shows s h) {customerId id : Int} {shown : SeatState}
    (step : Step s (.cancel i customerId, .cancelled id shown) t) : i < h.numberOfSeats ∧ h.PendingFor i customerId := by
  have replied := (shows.step step).1
  cases found : h.find i with
  | none => simp [Hall.answer, Hall.cancel, found] at replied
  | some j =>
    obtain ⟨same, inside⟩ := find_eq_some.mp found
    obtain rfl : i = j := Int.ofNat_inj.mp same
    by_cases mine : h.PendingFor i customerId
    · exact ⟨inside, mine⟩
    · simp only [Hall.answer, Hall.cancel, found, mine, if_false, Hall.refuse] at replied
      split at replied <;> cases replied

theorem Consistent.gives_up_iff {made : Call × Reply} (consistent : Consistent n s) (step : Step s made t) :
    GivesUp s made t ↔ OtherFirst n s made.1 := by
  obtain ⟨h, shows, count⟩ := consistent
  subst count
  obtain ⟨call, reply⟩ := made
  constructor
  · intro givesUp i customerId inside cancels pending holder first
    obtain rfl : call = .cancel i customerId := cancels
    have mine : h.PendingFor i customerId := by
      rw [shows.seats] at pending holder
      exact ⟨pending, holder⟩
    obtain ⟨rfl, seat⟩ := shows.cancelled inside mine step
    have lost := (givesUp i customerId i .pending rfl).1
    rw [shows.firstWaiting] at first
    rw [first] at seat
    apply lost
    exact ⟨by simp [seat], by rw [seat]⟩
  · intro other i customerId id shown same
    cases same
    obtain ⟨inside, mine⟩ := shows.cancelled_pending step
    have pending := mine.1
    have holder := mine.2
    rw [← shows.seats] at pending holder
    have different := other i customerId inside rfl pending holder
    obtain ⟨_, seat⟩ := shows.cancelled inside mine step
    rw [shows.firstWaiting] at different ⊢
    cases waiting : h.waiting.head? with
    | none =>
      rw [waiting] at seat
      refine ⟨?_, .inl ⟨by rw [seat], rfl⟩⟩
      intro holds
      exact holds.1 (by rw [seat])
    | some next =>
      rw [waiting] at seat different
      refine ⟨?_, .inr ⟨by rw [seat], by rw [seat]⟩⟩
      intro holds
      apply different
      rw [← holds.2, seat]

/-- In every run a successful cancel gives the seat up exactly when the customer who cancels does not stand at
    the head of the standby list. -/
theorem cancel_gives_up_iff {n : Nat} {steps : List (Store × (Call × Reply))} {s : Store}
    (run : Run Step (loadSeats n) steps s) :
    ∀ taken ∈ transitions steps s, (GivesUp taken.1 taken.2.1 taken.2.2 ↔ OtherFirst n taken.1 taken.2.1.1) := by
  apply run.always (Consistent n) fun s made t => GivesUp s made t ↔ OtherFirst n s made.1
  · exact consistent_loadSeats n
  · exact fun _ _ _ consistent step => ⟨consistent.step step, consistent.gives_up_iff step⟩

/-- Customer 8 waits for the only seat, which customer 7 gives up. -/
theorem seat_given_up : ∃ steps s, Run Step (loadSeats 1) steps s ∧ ∃ taken ∈ transitions steps s,
    taken.2.1 = (.cancel 0 7, .cancelled 0 .pending) ∧ GivesUp taken.1 taken.2.1 taken.2.2 := by
  obtain ⟨_, viewed, u, refused, s, cancelled, other⟩ : ∃ t, Step (loadSeats 1) (.viewSeat 0 7, .confirm 0 .available) t ∧
      ∃ u, Step t (.viewSeat 0 8, .unavailable) u ∧ ∃ v, Step u (.cancel 0 7, .cancelled 0 .pending) v ∧
        firstWaiting u = some 8 :=
    ⟨_, runs_of_exec (n := 20) rfl, _, runs_of_exec (n := 40) rfl, _, runs_of_exec (n := 40) rfl, rfl⟩
  have run := Run.snoc (Run.snoc (Run.snoc Run.refl viewed) refused) cancelled
  refine ⟨_, s, run, _, List.mem_cons_self, rfl, ?_⟩
  apply (cancel_gives_up_iff run _ List.mem_cons_self).mpr
  intro i customerId _ cancels _ _
  cases cancels
  rw [other]
  decide

/-- Customer 7, who waits for seat 1, cancels seat 0 and is given it. -/
theorem own_seat_given_back : ∃ steps s, Run Step (loadSeats 2) steps s ∧
    ∃ taken ∈ transitions steps s, ¬ GivesUp taken.1 taken.2.1 taken.2.2 := by
  obtain ⟨_, viewed, _, taken, u, refused, s, cancelled, first⟩ :
      ∃ t, Step (loadSeats 2) (.viewSeat 0 7, .confirm 0 .available) t ∧
        ∃ u, Step t (.viewSeat 1 8, .confirm 1 .available) u ∧ ∃ v, Step u (.viewSeat 1 7, .unavailable) v ∧
          ∃ w, Step v (.cancel 0 7, .cancelled 0 .pending) w ∧ Holds w 0 7 :=
    ⟨_, runs_of_exec (n := 20) rfl, _, runs_of_exec (n := 30) rfl, _, runs_of_exec (n := 40) rfl, _,
      runs_of_exec (n := 40) rfl, by decide, rfl⟩
  have run := Run.snoc (Run.snoc (Run.snoc (Run.snoc Run.refl viewed) taken) refused) cancelled
  refine ⟨_, s, run, _, List.mem_cons_self, ?_⟩
  intro givesUp
  exact (givesUp 0 7 0 .pending rfl).1 first

end Eecs343.Server.Seats
