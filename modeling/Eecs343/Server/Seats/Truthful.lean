import Eecs343.Server.Seats.Cancelled

namespace Eecs343.Server.Seats

open Prog Transition

/-- What a customer may decide about a seat that waits for it. -/
inductive Decision where
  | confirm
  | cancel

def Decision.call (seatId customerId : Int) : Decision → Call
  | confirm => .confirmSeat seatId customerId
  | cancel => .cancel seatId customerId

def Decision.success (seatId : Int) : Decision → Reply
  | confirm => .confirmed seatId .pending
  | cancel => .cancelled seatId .pending

/-- Seat `i` is PENDING for `customerId`. -/
def Awaits (s : Store) (i : Nat) (customerId : Int) : Prop :=
  (s.seats i).state = .pending ∧ (s.seats i).customerId = customerId

/-- Seat `i` is PENDING or OCCUPIED, for somebody other than `customerId`. -/
def HeldByAnother (s : Store) (i : Nat) (customerId : Int) : Prop :=
  ((s.seats i).state = .pending ∨ (s.seats i).state = .occupied) ∧ (s.seats i).customerId ≠ customerId

/-- The seats and the standby list of `s` are those of `t`. -/
structure SameTables (s t : Store) : Prop where
  seats : t.seats = s.seats
  head : t.head = s.head
  nodes : t.nodes = s.nodes
  standbyLength : t.standbyLength = s.standbyLength

/-- The reply to a decision of `customerId` about seat `i` says how the seat stands, and only a decision that goes
    through changes anything. -/
structure Truthful (s : Store) (i : Nat) (customerId : Int) (decision : Decision) (reply : Reply) (t : Store) : Prop where
  success : reply = decision.success i ↔ Awaits s i customerId
  denied : reply = .denied ↔ HeldByAnother s i customerId
  noPending : reply = .noPending ↔ ¬ Awaits s i customerId ∧ ¬ HeldByAnother s i customerId
  unchanged : reply ≠ decision.success i → SameTables s t

/-- Seat `i` is AVAILABLE and its owner field still names somebody other than `customerId`. -/
def Stale (s : Store) (i : Nat) (customerId : Int) : Prop :=
  (s.seats i).state = .available ∧ (s.seats i).customerId ≠ customerId

variable {n i : Nat} {s t : Store} {h : Hall} {customerId : Int}

theorem Shows.ends_locked_refuse (shows : Shows s h) (refused : ¬ Awaits s i customerId) (granted : Op Reply) :
    Ends (do
        lock i
        let mine ← pendingFor i customerId
        if mine then granted
        else do
          let reply ← refuse i customerId
          Seats.unlock i
          pure reply) s fun reply t =>
      reply = (if (s.seats i).customerId ≠ customerId then .denied else .noPending) ∧ SameTables s t := by
  simp only [ends_bind, ends_ite, ends_await, ends_pendingFor, ends_write, ends_pure, lock, Seats.unlock]
  refine ⟨shows.unlocked i, ?_⟩
  have other : ¬ decide ((s.seats i).state = .pending ∧ (s.seats i).customerId = customerId) = true := by
    rw [decide_eq_true_iff]
    exact refused
  rw [Store.setLocked, if_neg other]
  apply (ends_refuse (by exact refused)).mono
  intro reply t ended
  obtain ⟨replied, same⟩ := ended
  rw [same]
  exact ⟨replied, rfl, rfl, rfl, rfl⟩

theorem Shows.ends_refused (shows : Shows s h) (inside : i < h.numberOfSeats) (refused : ¬ Awaits s i customerId)
    (decision : Decision) :
    Ends (decision.call i customerId).program s fun reply t =>
      reply = (if (s.seats i).customerId ≠ customerId then .denied else .noPending) ∧ SameTables s t := by
  have found : h.find i = some i := find_eq_some.mpr ⟨rfl, inside⟩
  have missing : h.find i ≠ none := by simp [found]
  cases decision with
  | confirm =>
    apply ends_withSeat shows (fun none => (missing none).elim)
    intro j same
    obtain rfl : i = j := Option.some.inj (found.symm.trans same)
    exact shows.ends_locked_refuse refused _
  | cancel =>
    apply ends_withSeat shows (fun none => (missing none).elim)
    intro j same
    obtain rfl : i = j := Option.some.inj (found.symm.trans same)
    exact shows.ends_locked_refuse refused _

theorem Shows.ends_success (shows : Shows s h) (inside : i < h.numberOfSeats) (awaits : Awaits s i customerId)
    (decision : Decision) : Ends (decision.call i customerId).program s fun reply _ => reply = decision.success i := by
  have found : h.find i = some i := find_eq_some.mpr ⟨rfl, inside⟩
  have mine : h.PendingFor i customerId := by
    unfold Awaits at awaits
    rwa [shows.seats] at awaits
  apply (call_refines shows _).mono
  intro reply t ⟨replied, _⟩
  rw [replied]
  cases decision with
  | confirm => simp [Decision.call, Decision.success, Hall.answer, Hall.confirmSeat, found, mine, mine.1, shows.ids i inside]
  | cancel => simp [Decision.call, Decision.success, Hall.answer, Hall.cancel, found, mine, mine.1, shows.ids i inside]

theorem Decision.success_ne_denied (decision : Decision) (seatId : Int) : decision.success seatId ≠ .denied := by
  cases decision <;> simp [Decision.success]

theorem Decision.success_ne_noPending (decision : Decision) (seatId : Int) : decision.success seatId ≠ .noPending := by
  cases decision <;> simp [Decision.success]

theorem truthful_success (awaits : Awaits s i customerId) (decision : Decision) :
    Truthful s i customerId decision (decision.success i) t where
  success := iff_of_true rfl awaits
  denied := iff_of_false (decision.success_ne_denied i) fun held => held.2 awaits.2
  noPending := iff_of_false (decision.success_ne_noPending i) fun nobody => nobody.1 awaits
  unchanged := fun failed => (failed rfl).elim

/-- A refusal is truthful exactly where the owner field is not a leftover of an available seat. -/
theorem truthful_refused_iff (refused : ¬ Awaits s i customerId) (same : SameTables s t) (decision : Decision) :
    Truthful s i customerId decision (if (s.seats i).customerId ≠ customerId then .denied else .noPending) t ↔
      ¬ Stale s i customerId := by
  by_cases owner : (s.seats i).customerId = customerId
  · rw [if_neg (not_not.mpr owner)]
    have nobody : ¬ HeldByAnother s i customerId := fun held => held.2 owner
    apply iff_of_true
    · refine ⟨iff_of_false (decision.success_ne_noPending i).symm refused, iff_of_false (by simp) nobody,
        iff_of_true rfl ⟨refused, nobody⟩, fun _ => same⟩
    · exact fun stale => stale.2 owner
  · rw [if_pos owner]
    constructor
    · intro truthful stale
      have held := (truthful.denied.mp rfl).1
      rw [stale.1] at held
      simp at held
    · intro fresh
      have held : HeldByAnother s i customerId := by
        refine ⟨?_, owner⟩
        cases state : (s.seats i).state with
        | available => exact (fresh ⟨state, owner⟩).elim
        | pending => exact .inl rfl
        | occupied => exact .inr rfl
      exact ⟨iff_of_false (decision.success_ne_denied i).symm refused, iff_of_true rfl held,
        iff_of_false (by simp) fun nobody => nobody.2 held, fun _ => same⟩

/-- After every run, a decision about a seat is answered truthfully exactly where the seat is not AVAILABLE with
    somebody else's number left in it. -/
theorem decision_truthful_iff {steps : List (Store × (Call × Reply))} (run : Run Step (loadSeats n) steps s)
    (inside : i < n) (customerId : Int) (decision : Decision) :
    Ends (decision.call i customerId).program s (Truthful s i customerId decision) ↔ ¬ Stale s i customerId := by
  obtain ⟨h, shows, rfl⟩ : Consistent n s := run.invariant (fun _ _ => True) (Consistent n) (consistent_loadSeats n)
    (fun _ _ _ consistent _ step => consistent.step step) fun _ _ => trivial
  by_cases awaits : Awaits s i customerId
  · apply iff_of_true
    · apply (shows.ends_success inside awaits decision).mono
      intro reply t replied
      rw [replied]
      exact truthful_success awaits decision
    · exact fun stale => stale.2 awaits.2
  -- a refusal changes nothing, and is untrue where the owner that is left over makes it so
  · obtain ⟨reply, t, runs, replied, same⟩ := shows.ends_refused inside awaits decision
    rw [← truthful_refused_iff awaits same decision, ← replied]
    exact runs.ends_iff

/-- Customer 7, for whom the only seat is PENDING, confirms it. -/
theorem own_seat_confirmed : ∃ steps s, Run Step (loadSeats 1) steps s ∧
    Ends (confirmSeat 0 7) s (Truthful s 0 7 .confirm) := by
  obtain ⟨_, viewed, fresh⟩ : ∃ t, Step (loadSeats 1) (.viewSeat 0 7, .confirm 0 .available) t ∧ ¬ Stale t 0 7 :=
    ⟨_, runs_of_exec (n := 20) rfl, fun stale => absurd stale.1 (by decide)⟩
  have run := Run.snoc Run.refl viewed
  exact ⟨_, _, run, (decision_truthful_iff run (by decide) 7 .confirm).mpr fresh⟩

/-- Nobody holds the only seat, and customer 7 is told that another user does. -/
theorem fresh_seat_denied : ∃ s, Run Step (loadSeats 1) [] s ∧
    (∃ t, Step s (.confirmSeat 0 7, .denied) t) ∧ ¬ Ends (confirmSeat 0 7) s (Truthful s 0 7 .confirm) := by
  obtain ⟨t, step⟩ : ∃ t, Step (loadSeats 1) (.confirmSeat 0 7, .denied) t := ⟨_, runs_of_exec (n := 20) rfl⟩
  refine ⟨loadSeats 1, .refl, ⟨t, step⟩, ?_⟩
  intro ends
  have held := (ends.post step).denied.mp rfl
  rcases held.1 with pending | occupied
  · cases pending
  · cases occupied

end Eecs343.Server.Seats
