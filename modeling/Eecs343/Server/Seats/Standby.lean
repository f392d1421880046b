import Eecs343.Server.Seats.Calls

namespace Eecs343.Server.Seats

open Prog Transition

/-- The standby list is a bounded queue: the counter counts the nodes that `head` leads to, at most
    `STANDBY_SIZE`, and those served followed by those waiting are those listed, in that order. -/
def Queue (s : Store) : Prop :=
  ∃ nodes : List Nat, Linked.Path s.follow s.head (nodes.map some) none ∧ s.standbyLength = nodes.length ∧
    s.standbyLength ≤ standbySize ∧ s.served ++ nodes.map (fun node => (s.nodes node).customerId) = s.listed

/-- `listed` grows by the customers whom `view_seat` puts on standby, `served` by those to whom
    `cancel` gives a seat. -/
inductive Recorded (s : Store) : Call × Reply → Store → Prop where
  | neither {made t} (listed : t.listed = s.listed) (served : t.served = s.served)
    (length : t.standbyLength = s.standbyLength) : Recorded s made t
  | listed {seatId customerId t} (listed : t.listed = s.listed ++ [customerId]) (served : t.served = s.served)
    (length : t.standbyLength = s.standbyLength + 1) : Recorded s (.viewSeat seatId customerId, .unavailable) t
  | served {i : Nat} {customerId next : Int} {t} (listed : t.listed = s.listed) (served : t.served = s.served ++ [next])
    (length : t.standbyLength = s.standbyLength - 1) (seat : t.seats i = ⟨i, next, .occupied⟩) :
    Recorded s (.cancel i customerId, .cancelled i .pending) t

theorem Consistent.queue {n : Nat} {s : Store} (consistent : Consistent n s) : Queue s := by
  obtain ⟨h, shows, _⟩ := consistent
  obtain ⟨nodes, waits, customers⟩ := shows.waits
  refine ⟨nodes, waits.path, waits.counted, ?_, ?_⟩
  · rw [waits.counted]
    exact Int.ofNat_le.mpr waits.bounded
  · rw [customers, shows.served, shows.listed]
    exact shows.accounted

theorem Recorded.of_same {s t : Store} {h h' : Hall} {made : Call × Reply} (shows : Shows s h) (after : Shows t h')
    (waiting : h'.waiting = h.waiting) (listed : h'.listed = h.listed) (served : h'.served = h.served) :
    Recorded s made t := by
  apply Recorded.neither
  · rw [after.listed, listed, shows.listed]
  · rw [after.served, served, shows.served]
  · rw [after.full, waiting, shows.full]

theorem Consistent.recorded {n : Nat} {s t : Store} {made : Call × Reply} (consistent : Consistent n s)
    (step : Step s made t) : Recorded s made t := by
  obtain ⟨h, shows, _⟩ := consistent
  obtain ⟨replied, after⟩ := shows.step step
  obtain ⟨call, reply⟩ := made
  dsimp only at replied after
  subst replied
  cases call with
  | viewSeat seatId customerId =>
    simp only [Hall.answer, Hall.viewSeat] at after ⊢
    split at after
    · exact .of_same shows after rfl rfl rfl
    · split at after
      · exact .of_same shows after rfl rfl rfl
      · rename_i refused
        simp only [refused, if_false]
        unfold Hall.enlist at after
        split at after
        · apply Recorded.listed
          · rw [after.listed, shows.listed]
            rfl
          · rw [after.served, shows.served]
            rfl
          · rw [after.full, shows.full]
            simp [Hall.push]
        · exact .of_same shows after rfl rfl rfl
  | confirmSeat seatId customerId =>
    simp only [Hall.answer, Hall.confirmSeat] at after
    split at after
    · exact .of_same shows after rfl rfl rfl
    · split at after
      · exact .of_same shows after rfl rfl rfl
      · exact .of_same shows after rfl rfl rfl
  | cancel seatId customerId =>
    cases found : h.find seatId with
    | none =>
      simp only [Hall.answer, Hall.cancel, found] at after
      exact .of_same shows after rfl rfl rfl
    | some i =>
      obtain ⟨rfl, inside⟩ := find_eq_some.mp found
      by_cases mine : h.PendingFor i customerId
      · simp only [Hall.answer, Hall.cancel, found, mine, if_true, Hall.release, shows.ids i inside, mine.1] at after ⊢
        cases waiting : h.waiting with
        | nil =>
          simp only [waiting] at after
          exact .of_same shows after rfl rfl rfl
        | cons next rest =>
          simp only [waiting] at after
          apply Recorded.served
          · rw [after.listed, shows.listed]
            rfl
          · rw [after.served, shows.served]
            rfl
          · rw [after.full, shows.full, waiting]
            simp [Hall.serve]
          · rw [after.seats]
            simp [Hall.serve, Hall.put, shows.ids i inside]
      · simp only [Hall.answer, Hall.cancel, found, mine, if_false] at after
        exact .of_same shows after rfl rfl rfl

/-- In every state of every run the standby list is a bounded first-come-first-served queue. -/
theorem standby_queue {n : Nat} {steps : List (Store × (Call × Reply))} {s : Store}
    (run : Run Step (loadSeats n) steps s) :
    (∀ t ∈ visited steps s, Queue t) ∧ ∀ taken ∈ transitions steps s, Recorded taken.1 taken.2.1 taken.2.2 := by
  constructor
  · intro t member
    apply Consistent.queue (n := n)
    exact run.invariant_visited (fun _ _ => True) (Consistent n) (consistent_loadSeats n)
      (fun _ _ _ consistent _ step => consistent.step step) (fun _ _ => trivial) t member
  · apply run.always (Consistent n)
    · exact consistent_loadSeats n
    · exact fun _ _ _ consistent step => ⟨consistent.step step, consistent.recorded step⟩

/-- Customer 8 waits for the only seat, which customer 7 gives back. -/
theorem standby_customer_served : ∃ steps s, Run Step (loadSeats 1) steps s ∧ steps.length = 3 ∧ s.served = [8] ∧ Queue s := by
  obtain ⟨_, viewed, _, refused, s, cancelled, served⟩ : ∃ t, Step (loadSeats 1) (.viewSeat 0 7, .confirm 0 .available) t ∧
      ∃ u, Step t (.viewSeat 0 8, .unavailable) u ∧ ∃ v, Step u (.cancel 0 7, .cancelled 0 .pending) v ∧ v.served = [8] :=
    ⟨_, runs_of_exec (n := 20) rfl, _, runs_of_exec (n := 40) rfl, _, runs_of_exec (n := 40) rfl, rfl⟩
  have run := Run.snoc (Run.snoc (Run.snoc Run.refl viewed) refused) cancelled
  exact ⟨_, s, run, rfl, served, (standby_queue run).1 s (last_mem_visited _ _)⟩

end Eecs343.Server.Seats
