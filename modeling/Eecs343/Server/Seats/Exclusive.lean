import Eecs343.Server.Seats.Calls

namespace Eecs343.Server.Seats

open Prog Transition

/-- What a call with this reply makes of seat `i`. -/
inductive Change (h : Hall) (i : Nat) : Call → Reply → Seat → Prop where
  | same {call reply} (unsold : ∀ state, reply ≠ .confirmed i state) : Change h i call reply (h.seats i)
  | held {customerId} (free : (h.seats i).state = .available ∨ h.PendingFor i customerId) :
    Change h i (.viewSeat i customerId) (.confirm i (h.seats i).state) ⟨i, customerId, .pending⟩
  | sold {customerId} (mine : h.PendingFor i customerId) :
    Change h i (.confirmSeat i customerId) (.confirmed i .pending) ⟨i, customerId, .occupied⟩
  | freed {customerId} (mine : h.PendingFor i customerId) :
    Change h i (.cancel i customerId) (.cancelled i .pending) ⟨i, customerId, .available⟩
  | passed {customerId next} (mine : h.PendingFor i customerId) :
    Change h i (.cancel i customerId) (.cancelled i .pending) ⟨i, next, .occupied⟩

variable {h : Hall} {i : Nat}

theorem put_seats (h : Hall) (i j : Nat) (customerId : Int) (state : SeatState) :
    (h.put i customerId state).seats j = if j = i then ⟨(h.seats i).id, customerId, state⟩ else h.seats j := by
  simp only [Hall.put, Function.update_apply]

theorem change_viewSeat (ids : ∀ i < h.numberOfSeats, (h.seats i).id = i) (inside : i < h.numberOfSeats)
    (seatId customerId : Int) :
    Change h i (.viewSeat seatId customerId) (h.viewSeat seatId customerId).1
      ((h.viewSeat seatId customerId).2.seats i) := by
  cases found : h.find seatId with
  | none =>
    simp only [Hall.viewSeat, found]
    exact .same (by simp)
  | some j =>
    obtain ⟨rfl, _⟩ := find_eq_some.mp found
    simp only [Hall.viewSeat, found]
    split
    · rename_i free
      rw [put_seats]
      split
      · rename_i same
        subst same
        rw [ids _ inside]
        exact .held free
      · exact .same (by simp)
    · have same : (h.enlist customerId).seats i = h.seats i := by
        unfold Hall.enlist
        split <;> rfl
      rw [same]
      exact .same (by simp)

theorem change_refuse {call : Call} (j : Nat) (customerId : Int) :
    Change h i call (h.refuse j customerId) (h.seats i) := by
  apply Change.same
  intro state
  unfold Hall.refuse
  split <;> simp

theorem change_confirmSeat (ids : ∀ i < h.numberOfSeats, (h.seats i).id = i) (seatId customerId : Int) :
    Change h i (.confirmSeat seatId customerId) (h.confirmSeat seatId customerId).1
      ((h.confirmSeat seatId customerId).2.seats i) := by
  cases found : h.find seatId with
  | none =>
    simp only [Hall.confirmSeat, found]
    exact .same (by simp)
  | some j =>
    obtain ⟨rfl, bound⟩ := find_eq_some.mp found
    simp only [Hall.confirmSeat, found]
    split
    · rename_i mine
      rw [put_seats, ids j bound, mine.1, mine.2]
      split
      · rename_i same
        subst same
        exact .sold mine
      · exact .same (by simp; omega)
    · exact change_refuse j customerId

theorem change_cancel (ids : ∀ i < h.numberOfSeats, (h.seats i).id = i) (seatId customerId : Int) :
    Change h i (.cancel seatId customerId) (h.cancel seatId customerId).1
      ((h.cancel seatId customerId).2.seats i) := by
  cases found : h.find seatId with
  | none =>
    simp only [Hall.cancel, found]
    exact .same (by simp)
  | some j =>
    obtain ⟨rfl, bound⟩ := find_eq_some.mp found
    simp only [Hall.cancel, found]
    split
    · rename_i mine
      rw [ids j bound, mine.1, Hall.release]
      cases h.waiting with
      | nil =>
        simp only [put_seats, ids j bound, mine.2]
        split
        · rename_i same
          subst same
          exact .freed mine
        · exact .same (by simp)
      | cons next rest =>
        simp only [Hall.serve, put_seats, ids j bound]
        split
        · rename_i same
          subst same
          exact .passed mine
        · exact .same (by simp)
    · exact change_refuse j customerId

theorem change_answer (ids : ∀ i < h.numberOfSeats, (h.seats i).id = i) (inside : i < h.numberOfSeats) (call : Call) :
    Change h i call (h.answer call).1 ((h.answer call).2.seats i) := by
  cases call with
  | viewSeat seatId customerId => exact change_viewSeat ids inside seatId customerId
  | confirmSeat seatId customerId => exact change_confirmSeat ids seatId customerId
  | cancel seatId customerId => exact change_cancel ids seatId customerId

/-- `customerId` holds seat `i`, pending or for good. -/
def Holds (s : Store) (i : Nat) (customerId : Int) : Prop :=
  (s.seats i).state ≠ .available ∧ (s.seats i).customerId = customerId

def Sold (s : Store) (i : Nat) (customerId : Int) : Prop :=
  (s.seats i).state = .occupied ∧ (s.seats i).customerId = customerId

/-- A seat leaves its holder only when that customer cancels it, and nothing happens to an occupied one. -/
structure Exclusive (n : Nat) (s : Store) (made : Call × Reply) (t : Store) : Prop where
  holder : ∀ i < n, ∀ customerId, Holds s i customerId → ¬ Holds t i customerId →
    made = (.cancel i customerId, .cancelled i .pending)
  final : ∀ i < n, (s.seats i).state = .occupied → t.seats i = s.seats i

theorem Shows.change {s t : Store} {made : Call × Reply} (shows : Shows s h) (step : Step s made t)
    (inside : i < h.numberOfSeats) : Change h i made.1 made.2 (t.seats i) := by
  obtain ⟨reply, after⟩ := shows.step step
  rw [reply, after.seats]
  exact change_answer shows.ids inside made.1

theorem Consistent.exclusive {n : Nat} {s t : Store} {made : Call × Reply} (consistent : Consistent n s)
    (step : Step s made t) : Exclusive n s made t := by
  obtain ⟨h, shows, count⟩ := consistent
  subst count
  obtain ⟨call, reply⟩ := made
  constructor
  · intro i inside customerId ⟨taken, mine⟩ lost
    have change := shows.change step inside
    rw [shows.seats] at taken mine
    generalize seat : t.seats i = after at change
    cases change with
    | same => exact (lost ⟨by rwa [seat], by rwa [seat]⟩).elim
    | held free =>
      rcases free with free | free
      · exact (taken free).elim
      · exact (lost ⟨by simp [seat], by rw [seat, ← mine, free.2]⟩).elim
    | sold own => exact (lost ⟨by simp [seat], by rw [seat, ← mine, own.2]⟩).elim
    | freed own => rw [← mine, own.2]
    | passed own => rw [← mine, own.2]
  · intro i inside occupied
    have change := shows.change step inside
    rw [shows.seats] at occupied ⊢
    generalize t.seats i = after at change
    have notPending : ∀ customerId, ¬ h.PendingFor i customerId := by
      intro customerId pending
      rw [pending.1] at occupied
      cases occupied
    cases change with
    | same => rfl
    | held free =>
      rcases free with free | free
      · rw [free] at occupied
        cases occupied
      · exact (notPending _ free).elim
    | sold own => exact (notPending _ own).elim
    | freed own => exact (notPending _ own).elim
    | passed own => exact (notPending _ own).elim

theorem confirmed_inside (ids : ∀ i < h.numberOfSeats, (h.seats i).id = i) {call : Call} {seatId : Int}
    {state : SeatState} (confirmed : (h.answer call).1 = .confirmed seatId state) :
    ∃ i < h.numberOfSeats, seatId = i := by
  cases call with
  | viewSeat =>
    simp only [Hall.answer, Hall.viewSeat] at confirmed
    split at confirmed
    · cases confirmed
    · split at confirmed <;> cases confirmed
  | confirmSeat =>
    simp only [Hall.answer, Hall.confirmSeat] at confirmed
    split at confirmed
    · cases confirmed
    · rename_i i found
      obtain ⟨_, inside⟩ := find_eq_some.mp found
      split at confirmed
      · cases confirmed
        exact ⟨i, inside, ids i inside⟩
      · unfold Hall.refuse at confirmed
        split at confirmed <;> cases confirmed
  | cancel =>
    simp only [Hall.answer, Hall.cancel] at confirmed
    split at confirmed
    · cases confirmed
    · split at confirmed
      · cases confirmed
      · unfold Hall.refuse at confirmed
        split at confirmed <;> cases confirmed

/-- A seat is confirmed while it is pending for the customer who calls, and is then sold to that customer. -/
theorem Consistent.sells {n : Nat} {s t : Store} {made : Call × Reply} (consistent : Consistent n s)
    (step : Step s made t) {seatId : Int} {state : SeatState} (confirmed : made.2 = .confirmed seatId state) :
    ∃ i < n, seatId = i ∧ (s.seats i).state = .pending ∧ Sold t i made.1.customerId := by
  obtain ⟨h, shows, count⟩ := consistent
  subst count
  obtain ⟨i, inside, rfl⟩ := confirmed_inside shows.ids ((shows.step step).1.symm.trans confirmed)
  refine ⟨i, inside, rfl, ?_⟩
  have change := shows.change step inside
  rw [shows.seats]
  obtain ⟨call, reply⟩ := made
  subst confirmed
  generalize seat : t.seats i = after at change
  cases change with
  | same unsold => exact (unsold state rfl).elim
  | sold mine => exact ⟨mine.1, by simp [seat], by simp [seat, Call.customerId]⟩

theorem Consistent.stays_sold {n i : Nat} {s t : Store} {made : Call × Reply} {customerId : Int}
    (consistent : Consistent n s) (inside : i < n) (sold : Sold s i customerId) (step : Step s made t) :
    Sold t i customerId := by
  rw [Sold, (consistent.exclusive step).final i inside sold.1]
  exact sold

theorem Consistent.no_resale {n i : Nat} {s t : Store} {made : Call × Reply} {customerId : Int}
    (consistent : Consistent n s) (sold : Sold s i customerId) (step : Step s made t) (shown : SeatState) :
    made.2 ≠ .confirmed i shown := by
  intro confirmed
  obtain ⟨j, _, same, pending, _⟩ := consistent.sells step confirmed
  obtain rfl : i = j := Int.ofNat_inj.mp same
  exact absurd (pending.symm.trans sold.1) (by decide)

/-- In every run the seats are exclusive, and a confirmed seat is confirmed once and stays with the
    customer it was confirmed to. -/
theorem seats_exclusive {n : Nat} {steps : List (Store × (Call × Reply))} {s : Store}
    (run : Run Step (loadSeats n) steps s) :
    (∀ taken ∈ transitions steps s, Exclusive n taken.1 taken.2.1 taken.2.2) ∧
      ∀ (later earlier : List (Store × (Call × Reply))) (state : Store) (made : Call × Reply) (seatId : Int)
        (shown : SeatState), steps = later ++ (state, made) :: earlier → made.2 = .confirmed seatId shown →
        ∃ i < n, seatId = i ∧ (∀ taken ∈ later, ∀ shown, taken.2.2 ≠ .confirmed i shown) ∧
          ∀ t ∈ visited later s, Sold t i made.1.customerId := by
  constructor
  · apply run.always (Consistent n)
    · exact consistent_loadSeats n
    · exact fun _ _ _ consistent step => ⟨consistent.step step, consistent.exclusive step⟩
  · intro later earlier state made seatId shown split confirmed
    subst split
    -- the sale is one step of the run; what comes later is a run from the seat sold
    obtain ⟨next, before, step, after⟩ := run.split
    have consistent := before.invariant (fun _ _ => True) (Consistent n) (consistent_loadSeats n)
      (fun _ _ _ held _ step => held.step step) fun _ _ => trivial
    obtain ⟨i, inside, same, _, sold⟩ := consistent.sells step confirmed
    refine ⟨i, inside, same, ?_, ?_⟩
    · intro taken member
      obtain ⟨_, found⟩ := mem_transitions member
      apply after.always (fun s => Consistent n s ∧ Sold s i made.1.customerId)
        (fun _ made _ => ∀ shown, made.2 ≠ .confirmed i shown) ⟨consistent.step step, sold⟩ _ _ found
      intro s made t held step
      exact ⟨⟨held.1.step step, held.1.stays_sold inside held.2 step⟩, held.1.no_resale held.2 step⟩
    · intro t member
      apply And.right (a := Consistent n t)
      apply after.invariant_visited (fun _ _ => True) (fun s => Consistent n s ∧ Sold s i made.1.customerId)
        ⟨consistent.step step, sold⟩ _ (fun _ _ => trivial) t member
      intro s made t held _ step
      exact ⟨held.1.step step, held.1.stays_sold inside held.2 step⟩

/-- Customer 7 views seat 0 of two and confirms it. -/
theorem seat_zero_sold : ∃ steps s, Run Step (loadSeats 2) steps s ∧ steps.length = 2 ∧ Sold s 0 7 := by
  obtain ⟨viewed, first, ran⟩ : ∃ t, Step (loadSeats 2) (.viewSeat 0 7, .confirm 0 .available) t ∧
      (exec 20 (confirmSeat 0 7) t).map Prod.fst = some (.confirmed 0 .pending) :=
    ⟨_, runs_of_exec (n := 20) rfl, rfl⟩
  obtain ⟨⟨_, s⟩, ran, rfl⟩ := Option.map_eq_some_iff.mp ran
  have second : Step viewed (.confirmSeat 0 7, .confirmed 0 .pending) s := runs_of_exec ran
  have run := Run.snoc (Run.snoc Run.refl first) second
  obtain ⟨i, _, same, _, sold⟩ := (seats_exclusive run).2 [] _ _ _ 0 .pending rfl rfl
  obtain rfl : 0 = i := Int.ofNat_inj.mp same
  exact ⟨_, s, run, rfl, sold s List.mem_cons_self⟩

end Eecs343.Server.Seats
