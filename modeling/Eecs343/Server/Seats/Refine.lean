import Eecs343.Server.Seats.Protected

namespace Eecs343.Server.Seats

open Prog

variable {s : Store} {h : Hall}

theorem find_eq_some {seatId : Int} {i : Nat} : h.find seatId = some i ↔ seatId = i ∧ i < h.numberOfSeats := by
  simp only [Hall.find, Option.ite_none_right_eq_some, Option.some.injEq]
  omega

theorem ends_search (shows : Shows s h) {seatId : Int} {stop : Option Nat → Op Reply} {post : Reply → Store → Prop}
    (ends : Ends (stop (h.find seatId)) s post) (left curr : Nat) (reached : left + curr = h.numberOfSeats)
    (passed : ∀ i < curr, seatId ≠ i) :
    Ends (loop (searchRound seatId) (if curr < h.numberOfSeats then some curr else none) stop) s post := by
  induction left generalizing curr with
  | zero =>
    have missing : h.find seatId = none := by
      apply Option.eq_none_iff_forall_ne_some.mpr
      intro i found
      obtain ⟨same, inside⟩ := find_eq_some.mp found
      exact passed i (by omega) same
    rw [if_neg (by omega), ends_loop]
    simpa only [searchRound, ends_pure, again_inr, missing] using ends
  | succ left ih =>
    rw [if_pos (by omega), ends_loop]
    simp only [searchRound, ends_bind, ends_read, ends_ite, ends_pure, again_inr, again_inl, shows.seats,
      shows.ids curr (by omega)]
    by_cases here : (curr : Int) = seatId
    · rw [if_pos here]
      rwa [find_eq_some.mpr ⟨here.symm, by omega⟩] at ends
    · rw [if_neg here, Store.nextSeat, shows.count]
      apply ih (curr + 1) (by omega)
      intro i before
      by_cases same : i = curr
      · rw [same]
        exact fun found => here found.symm
      · exact passed i (by omega)

theorem ends_withSeat (shows : Shows s h) {seatId : Int} {found : Nat → Op Reply} {missing : Op Reply}
    {post : Reply → Store → Prop} (absent : h.find seatId = none → Ends missing s post)
    (present : ∀ i, h.find seatId = some i → Ends (found i) s post) : Ends (withSeat seatId found missing) s post := by
  simp only [withSeat, ends_bind, ends_read, Store.seatHeader, shows.count]
  apply ends_search shows _ h.numberOfSeats 0 rfl
  · intro i before
    omega
  · cases outcome : h.find seatId with
    | none => exact absent outcome
    | some i => exact present i outcome

@[simp] theorem ends_pendingFor {curr : Nat} {customerId : Int} {post : Bool → Store → Prop} :
    Ends (pendingFor curr customerId) s post ↔
      post (decide ((s.seats curr).state = .pending ∧ (s.seats curr).customerId = customerId)) s := by
  simp only [pendingFor, ends_bind, ends_read, ends_ite, ends_pure]
  by_cases pending : (s.seats curr).state = .pending <;> simp [pending]

@[simp] theorem ends_announce {curr : Nat} {reply : Int → SeatState → Reply} {post : Reply → Store → Prop} :
    Ends (announce curr reply) s post ↔ post (reply (s.seats curr).id (s.seats curr).state) s := by
  simp [announce]

theorem ends_addStandby (shows : Shows s h) (room : h.waiting.length < 8) (customerId : Int) :
    Ends (addStandby customerId) s fun _ t => Shows t (h.push customerId) := by
  obtain ⟨nodes, waits, waiting⟩ := shows.waits
  have taken : Chained { s with semaphore := s.semaphore - 1 } nodes := waits.chained.congr ⟨rfl, rfl, rfl, rfl⟩
  have bounded : (nodes ++ [s.allocated]).length ≤ 8 := by
    rw [← waiting, List.length_map] at room
    simp
    omega
  rw [addStandby_eq]
  apply ends_bind.mpr
  rw [semWait, ends_await]
  refine ⟨by rw [shows.semaphore]; decide, ends_bind.mpr ?_⟩
  apply (ends_enqueue taken customerId).mono
  intro _ t queued
  obtain ⟨chained, added, same⟩ := queued
  rw [semPost, ends_write]
  refine ⟨?_, ?_, shows.ids, ?_, ?_,
    ⟨nodes ++ [s.allocated], .of_chained (.congr chained ⟨rfl, rfl, rfl, rfl⟩) bounded, ?_⟩, ?_, ?_, ?_⟩
  · rw [same]
    exact shows.count
  · rw [same]
    exact shows.seats
  · rw [same]
    exact shows.unlocked
  · rw [same]
    simp [shows.semaphore]
  · rw [Hall.push, ← waiting]
    exact added
  · rw [same, Hall.push, ← shows.listed]
  · rw [same]
    exact shows.served
  · rw [Hall.push, ← shows.accounted, List.append_assoc]

theorem Shows.put {t : Store} (shows : Shows s h) {i : Nat} {customerId : Int} {state : SeatState}
    (unlocked : ∀ j, t.locked j = false)
    (same : t = { s with seats := Function.update s.seats i ⟨(s.seats i).id, customerId, state⟩, locked := t.locked }) :
    Shows t (h.put i customerId state) := by
  obtain ⟨nodes, waits, customers⟩ := shows.waits
  rw [same]
  refine ⟨shows.count, by simp [Hall.put, shows.seats], ?_, unlocked, shows.semaphore, ?_, shows.listed,
    shows.served, shows.accounted⟩
  · intro j inside
    have id := shows.ids j inside
    by_cases same : j = i
    · subst same
      simpa [Hall.put] using id
    · simpa [Hall.put, same] using id
  · exact ⟨nodes, ⟨waits.path, waits.nodup, waits.old, waits.counted, waits.bounded⟩, customers⟩

theorem Shows.unlock {t : Store} (shows : Shows s h) (unlocked : ∀ j, t.locked j = false)
    (same : t = { s with locked := t.locked }) : Shows t h := by
  obtain ⟨nodes, waits, customers⟩ := shows.waits
  rw [same]
  refine ⟨shows.count, shows.seats, shows.ids, unlocked, shows.semaphore, ?_, shows.listed, shows.served,
    shows.accounted⟩
  exact ⟨nodes, ⟨waits.path, waits.nodup, waits.old, waits.counted, waits.bounded⟩, customers⟩

theorem unlocked_again {locked : Nat → Bool} (unlocked : ∀ j, locked j = false) (i j : Nat) :
    Function.update (Function.update locked i true) i false j = false := by
  rw [Function.update_idem]
  by_cases same : j = i
  · rw [same, Function.update_self]
  · rw [Function.update_of_ne same, unlocked]

theorem Shows.full (shows : Shows s h) : s.standbyLength = h.waiting.length := by
  obtain ⟨nodes, waits, customers⟩ := shows.waits
  rw [waits.counted, ← customers, List.length_map]

theorem Shows.bounded (shows : Shows s h) : h.waiting.length ≤ 8 := by
  obtain ⟨nodes, waits, customers⟩ := shows.waits
  rw [← customers, List.length_map]
  exact waits.bounded

theorem ends_grantSeat (shows : Shows s h) (i : Nat) (customerId : Int) :
    Ends (grantSeat i customerId) s fun reply t =>
      reply = .confirm (s.seats i).id (s.seats i).state ∧ Shows t (h.put i customerId .pending) := by
  simp only [grantSeat, ends_bind, ends_announce, ends_write, ends_pure, Store.setState, Store.setCustomer,
    Function.update_idem, Function.update_self, true_and]
  exact shows.put shows.unlocked rfl

theorem ends_refuseSeat (shows : Shows s h) (customerId : Int) :
    Ends (refuseSeat customerId) s fun reply t => reply = .unavailable ∧ Shows t (h.enlist customerId) := by
  simp only [refuseSeat, ends_bind, ends_read, ends_ite, ends_pure, shows.full, standbySize, Hall.enlist]
  have bounded := shows.bounded
  by_cases room : h.waiting.length < 8
  · rw [if_pos room, if_pos (by omega)]
    apply (ends_addStandby shows room customerId).mono
    intro _ t after
    exact ⟨trivial, after⟩
  · rw [if_neg room, if_neg (by omega)]
    exact ⟨trivial, shows⟩

theorem viewSeat_refines (shows : Shows s h) (seatId customerId : Int) :
    Ends (viewSeat seatId customerId) s fun reply t =>
      reply = (h.viewSeat seatId customerId).1 ∧ Shows t (h.viewSeat seatId customerId).2 := by
  apply ends_withSeat shows
  · intro missing
    simpa [Hall.viewSeat, missing] using shows
  · intro i found
    have granted := ends_grantSeat shows i customerId
    have refused := ends_refuseSeat shows customerId
    simp only [Hall.viewSeat, found, Hall.PendingFor, ← shows.seats, ends_bind, ends_read, ends_ite, ends_pure,
      ends_pendingFor, if_true, decide_eq_true_eq]
    by_cases available : (s.seats i).state = .available
    · simpa [available] using granted
    · by_cases mine : (s.seats i).state = .pending ∧ (s.seats i).customerId = customerId
      · simpa [mine] using granted
      · simpa [available, mine] using refused

/-- A refusal changes nothing, and says who may not or that nothing is pending. -/
theorem ends_refuse {i : Nat} {customerId : Int}
    (refused : ¬ ((s.seats i).state = .pending ∧ (s.seats i).customerId = customerId)) :
    Ends (refuse i customerId) s fun reply t =>
      reply = (if (s.seats i).customerId ≠ customerId then .denied else .noPending) ∧ t = s := by
  simp only [refuse, ends_bind, ends_read, ends_ite, ends_pure]
  by_cases other : (s.seats i).customerId = customerId
  · have idle : (s.seats i).state ≠ .pending := fun pending => refused ⟨pending, other⟩
    simp [other, idle]
  · simp [other]

theorem ends_refused (shows : Shows s h) {i : Nat} {customerId : Int}
    (refused : ¬ ((s.seats i).state = .pending ∧ (s.seats i).customerId = customerId)) :
    Ends (refuse i customerId) { s with locked := Function.update s.locked i true } fun reply t =>
      reply = h.refuse i customerId ∧ Shows { t with locked := Function.update t.locked i false } h := by
  apply (ends_refuse (by exact refused)).mono
  intro reply t ⟨replied, same⟩
  rw [same]
  constructor
  · rw [replied, Hall.refuse, shows.seats]
  · exact shows.unlock (unlocked_again shows.unlocked i) rfl

theorem confirmSeat_refines (shows : Shows s h) (seatId customerId : Int) :
    Ends (confirmSeat seatId customerId) s fun reply t =>
      reply = (h.confirmSeat seatId customerId).1 ∧ Shows t (h.confirmSeat seatId customerId).2 := by
  apply ends_withSeat shows
  · intro missing
    simpa [Hall.confirmSeat, missing] using shows
  · intro i found
    simp only [Hall.confirmSeat, found, Hall.PendingFor, ← shows.seats, ends_bind, ends_ite, ends_pure, ends_await,
      ends_pendingFor, ends_announce, ends_write, Store.setState, lock, unlock, Store.setLocked, decide_eq_true_eq]
    refine ⟨shows.unlocked i, ?_⟩
    split
    · exact ⟨rfl, shows.put (unlocked_again shows.unlocked i) rfl⟩
    · rename_i refused
      exact ends_refused shows refused

theorem ends_serveStandby (shows : Shows s h) (i : Nat) (locked : Nat → Bool) {customerId : Int} {rest : List Int}
    (waiting : h.waiting = customerId :: rest) :
    Ends (serveStandby i) { s with locked } fun _ t =>
      t.locked = locked ∧ Shows { t with locked := s.locked } (h.serve i customerId rest) := by
  obtain ⟨nodes, waits, all⟩ := shows.waits
  rw [waiting] at all
  obtain ⟨node, nodes, rfl, first, customers⟩ := List.map_eq_cons_iff.mp all
  subst first
  have taken : Chained { s with locked, semaphore := s.semaphore - 1 } (node :: nodes) :=
    waits.chained.congr ⟨rfl, rfl, rfl, rfl⟩
  have seated : Shows { s with seats := Function.update s.seats i ⟨(s.seats i).id, (s.nodes node).customerId, .occupied⟩ }
      (h.put i (s.nodes node).customerId .occupied) := shows.put shows.unlocked rfl
  rw [serveStandby_eq]
  apply ends_bind.mpr
  rw [semWait, ends_await]
  refine ⟨by rw [shows.semaphore]; decide, ends_bind.mpr ?_⟩
  apply (ends_dequeue taken i).mono
  intro _ t ⟨chained, same⟩
  have bounded := waits.bounded
  rw [List.length_cons] at bounded
  rw [semPost, ends_write]
  refine ⟨by rw [same], ?_, ?_, seated.ids, shows.unlocked, ?_,
    ⟨nodes, .of_chained (.congr chained ⟨rfl, rfl, rfl, rfl⟩) (Nat.le_of_succ_le bounded), ?_⟩, ?_, ?_, ?_⟩
  · rw [same]
    exact shows.count
  · rw [same]
    exact seated.seats
  · rw [same]
    simp [shows.semaphore]
  · rw [same]
    exact customers
  · rw [same]
    exact shows.listed
  · rw [same, Hall.serve, shows.served]
  · simpa [Hall.serve, Hall.put, waiting] using shows.accounted

theorem cancel_refines (shows : Shows s h) (seatId customerId : Int) :
    Ends (cancel seatId customerId) s fun reply t =>
      reply = (h.cancel seatId customerId).1 ∧ Shows t (h.cancel seatId customerId).2 := by
  apply ends_withSeat shows
  · intro missing
    simpa [Hall.cancel, missing] using shows
  · intro i found
    simp only [Hall.cancel, found, Hall.PendingFor, ← shows.seats, ends_bind, ends_ite, ends_pure, ends_await, ends_read,
      ends_pendingFor, ends_announce, ends_write, Store.setState, lock, unlock, Store.setLocked, decide_eq_true_eq]
    refine ⟨shows.unlocked i, ?_⟩
    have full := shows.full
    split
    · cases waiting : h.waiting with
      | nil =>
        rw [waiting] at full
        rw [if_neg (by rw [full]; exact Int.lt_irrefl 0)]
        simp only [true_and, Hall.release, waiting]
        rw [← shows.seats]
        exact shows.put (unlocked_again shows.unlocked i) rfl
      | cons first rest =>
        rw [waiting] at full
        rw [if_pos (by rw [full]; simp)]
        apply (ends_serveStandby shows i _ waiting).mono
        intro _ t served
        obtain ⟨locked, after⟩ := served
        simp only [true_and, Hall.release, waiting]
        apply after.unlock _ rfl
        simp only [locked]
        exact unlocked_again shows.unlocked i
    · rename_i refused
      exact ends_refused shows refused

end Eecs343.Server.Seats
