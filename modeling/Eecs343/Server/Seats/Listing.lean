import Eecs343.Server.Requests

namespace Eecs343.Server.Seats

open Prog

/-- A call of `snprintf(buf + offset, size, text)`. -/
structure Print where
  offset : Nat
  size : Int
  text : String

namespace Print

def run (buf : Nat → Char) (p : Print) : Nat → Char := snprintf buf p.offset p.size p.text

/-- What the size argument is as a `size_t`. -/
def room (p : Print) : Nat := (p.size % 2 ^ 64).toNat

/-- The call writes the byte `i` of the buffer: one of the characters that have room, or the NUL behind them. -/
def Writes (p : Print) (i : Nat) : Prop :=
  0 < p.room ∧ p.offset ≤ i ∧ i ≤ p.offset + min (p.room - 1) p.text.length

end Print

/-- The calls for the entries of `seats`, the first of them at `index`, and the index behind them. -/
def entryPrints (bufsize : Int) : Nat → List Seat → List Print × Nat
  | index, [] => ([], index)
  | index, seat :: rest =>
    if (index : Int) < (bufsize + 6) % 2 ^ 64 then
      let later := entryPrints bufsize (index + (entry seat.id seat.state).length) rest
      (⟨index, bufsize - index, entry seat.id seat.state⟩ :: later.1, later.2)
    else ([], index)

/-- The call behind the loop. -/
def lastPrint (bufsize : Int) (index : Nat) : Print :=
  if 0 < index then ⟨index - 1, bufsize - index - 1, "\n"⟩ else ⟨0, bufsize, "No seats not found\n\n"⟩

def prints (bufsize : Int) (seats : List Seat) : List Print :=
  (entryPrints bufsize 0 seats).1 ++ [lastPrint bufsize (entryPrints bufsize 0 seats).2]

/-- How many characters the entries of all seats take together. -/
def total (seats : List Seat) : Nat := (seats.map fun seat => (entry seat.id seat.state).length).sum

def Store.seatList (s : Store) : List Seat := (List.range s.numberOfSeats).map s.seats

variable {s : Store} {bufsize : Int}

theorem ends_entries {stop : Nat × (Nat → Char) → Op Reply} {post : Reply → Store → Prop} (left curr index : Nat)
    (buf : Nat → Char) (reached : left + curr = s.numberOfSeats)
    (stops : ∀ outcome, outcome = entryPrints bufsize index ((List.range' curr left).map s.seats) →
      Ends (stop (outcome.2, outcome.1.foldl Print.run buf)) s post) :
    Ends (loop (listRound bufsize) (if curr < s.numberOfSeats then some curr else none, index, buf) stop) s post := by
  induction left generalizing curr index buf with
  | zero =>
    rw [if_neg (by omega), ends_loop]
    simpa [listRound, entryPrints] using stops _ rfl
  | succ left ih =>
    rw [if_pos (by omega), ends_loop]
    simp only [List.range'_succ, List.map_cons, entryPrints] at stops
    simp only [listRound, ends_ite, ends_bind, ends_read, ends_pure, again_inl, again_inr]
    split
    · rename_i inside
      simp only [inside, if_true] at stops
      apply ih (curr + 1) _ _ (by omega)
      intro outcome same
      rw [same]
      exact stops _ rfl
    · rename_i outside
      simp only [outside, if_false] at stops
      exact stops _ rfl

/-- The buffer that `list_seats` leaves is what its calls make of the one it is given, one after the other. -/
theorem ends_listSeats_prints (buf : Nat → Char) (bufsize : Int) :
    Ends (listSeats buf bufsize) s fun reply t =>
      reply = .listing ((prints bufsize s.seatList).foldl Print.run buf) ∧ t = s := by
  simp only [listSeats, ends_bind, ends_read, Store.seatHeader]
  apply ends_entries s.numberOfSeats 0 0 buf rfl
  intro outcome same
  rw [prints, Store.seatList, List.range_eq_range', ← same, List.foldl_append, lastPrint]
  split
  · rw [ends_pure]
    exact ⟨rfl, rfl⟩
  · rw [ends_pure]
    exact ⟨rfl, rfl⟩

namespace Print

variable {p : Print} {buf : Nat → Char} {i : Nat}

theorem run_eq (p : Print) (buf : Nat → Char) : run buf p = fun i =>
    if p.room = 0 ∨ i < p.offset then buf i
    else match (p.text.toList.take (p.room - 1))[i - p.offset]? with
      | some c => c
      | none => if i - p.offset = (p.text.toList.take (p.room - 1)).length then Char.ofNat 0 else buf i := rfl

theorem length_shown (p : Print) : (p.text.toList.take (p.room - 1)).length = min (p.room - 1) p.text.length := by
  rw [List.length_take, String.length_toList]

theorem run_of_not_writes (untouched : ¬ p.Writes i) : run buf p i = buf i := by
  unfold Writes at untouched
  rw [run_eq]
  dsimp only
  split
  · rfl
  · rename_i behind
    rw [not_or] at behind
    have beyond : p.offset + min (p.room - 1) p.text.length < i := by omega
    have length := p.length_shown
    rw [List.getElem?_eq_none (by omega), if_neg (by omega)]

theorem run_nul (positive : 0 < p.room) : run buf p (p.offset + min (p.room - 1) p.text.length) = Char.ofNat 0 := by
  have length := p.length_shown
  rw [run_eq]
  dsimp only
  rw [if_neg (by omega), Nat.add_sub_cancel_left, List.getElem?_eq_none (by omega)]
  simp [length]

theorem run_text {k : Nat} (fits : k + 1 < p.room) (inside : k < p.text.length) :
    some (run buf p (p.offset + k)) = p.text.toList[k]? := by
  rw [run_eq]
  dsimp only
  rw [if_neg (by omega), Nat.add_sub_cancel_left, List.getElem?_take_of_lt (by omega),
    List.getElem?_eq_getElem (by rwa [String.length_toList])]

theorem room_of_nonneg (sized : 0 ≤ p.size) (int : p.size < 2 ^ 31) : (p.room : Int) = p.size := by
  unfold room
  omega

end Print

/-- Every call is told a size that is not negative and at most what the buffer has left, nothing is written behind
    the buffer, and it holds a string in the end. -/
structure Stays (bufsize : Int) (calls : List Print) : Prop where
  sized : ∀ p ∈ calls, 0 ≤ p.size ∧ p.offset + p.size ≤ bufsize
  inside : ∀ p ∈ calls, ∀ i, p.Writes i → (i : Int) < bufsize
  terminated : ∀ buf, ∃ i : Nat, (i : Int) < bufsize ∧ calls.foldl Print.run buf i = Char.ofNat 0

theorem writes_inside {p : Print} (int : bufsize < 2 ^ 31) (sized : 0 ≤ p.size ∧ p.offset + p.size ≤ bufsize) {i : Nat}
    (writes : p.Writes i) : (i : Int) < bufsize := by
  have room := p.room_of_nonneg sized.1 (by omega)
  unfold Print.Writes at writes
  omega

theorem terminated_run {calls : List Print} (int : bufsize < 2 ^ 31)
    (sized : ∀ p ∈ calls, 0 ≤ p.size ∧ p.offset + p.size ≤ bufsize) {buf : Nat → Char}
    (string : ∃ i : Nat, (i : Int) < bufsize ∧ buf i = Char.ofNat 0) :
    ∃ i : Nat, (i : Int) < bufsize ∧ calls.foldl Print.run buf i = Char.ofNat 0 := by
  induction calls generalizing buf with
  | nil => exact string
  | cons p rest ih =>
    have here := sized p List.mem_cons_self
    apply ih fun q member => sized q (List.mem_cons_of_mem _ member)
    obtain ⟨i, inside, nul⟩ := string
    by_cases writes : p.Writes i
    · have room := p.room_of_nonneg here.1 (by omega)
      have positive := writes.1
      exact ⟨_, by omega, Print.run_nul positive⟩
    · exact ⟨i, inside, by rw [Print.run_of_not_writes writes, nul]⟩

theorem stays_of_sized {first : Print} {rest : List Print} (int : bufsize < 2 ^ 31) (positive : 0 < first.size)
    (sized : ∀ p ∈ first :: rest, 0 ≤ p.size ∧ p.offset + p.size ≤ bufsize) : Stays bufsize (first :: rest) where
  sized := sized
  inside := fun p member _ writes => writes_inside int (sized p member) writes
  terminated := by
    intro buf
    have here := sized first List.mem_cons_self
    have room := first.room_of_nonneg here.1 (by omega)
    apply terminated_run int fun q member => sized q (List.mem_cons_of_mem _ member)
    exact ⟨_, by omega, Print.run_nul (by omega)⟩

theorem entry_length (id : Int) (state : SeatState) : 4 ≤ (entry id state).length := by
  have digits : 0 < (toString id).length := by
    rw [Int.toString_eq_repr, Int.repr_eq_if]
    split
    · exact Nat.length_repr_pos
    · rw [String.length_append]
      exact Nat.add_pos_right _ Nat.length_repr_pos
  simp only [entry, String.length_append]
  have blank : " ".length = 1 := rfl
  have comma : ",".length = 1 := rfl
  have letter : state.toChar.toString.length = 1 := by simp
  omega

theorem le_total (seats : List Seat) : 4 * seats.length ≤ total seats := by
  induction seats with
  | nil => exact Nat.zero_le _
  | cons seat rest ih =>
    have := entry_length seat.id seat.state
    simp only [total, List.map_cons, List.sum_cons, List.length_cons] at ih ⊢
    omega

theorem total_cons (seat : Seat) (rest : List Seat) :
    total (seat :: rest) = (entry seat.id seat.state).length + total rest := by
  simp [total]

theorem entryPrints_size {index : Nat} {seats : List Seat} : ∀ p ∈ (entryPrints bufsize index seats).1,
    p.size = bufsize - p.offset := by
  induction seats generalizing index with
  | nil => simp [entryPrints]
  | cons seat rest ih =>
    unfold entryPrints
    split
    · simpa using ih
    · simp

theorem entryPrints_fits {index : Nat} {seats : List Seat} (fits : index + total seats < bufsize)
    (int : bufsize < 2 ^ 31) :
    (entryPrints bufsize index seats).2 = index + total seats ∧
      ∀ p ∈ (entryPrints bufsize index seats).1, p.offset + p.text.length ≤ index + total seats := by
  induction seats generalizing index with
  | nil => simp [entryPrints, total]
  | cons seat rest ih =>
    rw [total_cons] at fits ⊢
    unfold entryPrints
    rw [if_pos (by omega)]
    obtain ⟨last, inside⟩ := @ih (index + (entry seat.id seat.state).length) (by push_cast; omega)
    refine ⟨by rw [last]; omega, ?_⟩
    intro p member
    rcases List.mem_cons.mp member with rfl | later
    · dsimp only
      omega
    · have := inside p later
      omega

/-- What does not fit leaves the index at the end of the buffer or behind it. -/
theorem entryPrints_beyond {index : Nat} {seats : List Seat} (beyond : bufsize ≤ index + total seats)
    (positive : 1 ≤ bufsize)
    (int : bufsize < 2 ^ 31) : bufsize ≤ (entryPrints bufsize index seats).2 := by
  induction seats generalizing index with
  | nil => simpa [entryPrints, total] using beyond
  | cons seat rest ih =>
    rw [total_cons] at beyond
    unfold entryPrints
    split
    · apply ih
      push_cast at beyond ⊢
      omega
    · dsimp only
      omega

theorem entryPrints_none_iff {seats : List Seat} (positive : 1 ≤ bufsize) (int : bufsize < 2 ^ 31) :
    (entryPrints bufsize 0 seats).2 = 0 ↔ seats = [] := by
  constructor
  · intro nothing
    cases seats with
    | nil => rfl
    | cons seat rest =>
      have more := le_total (seat :: rest)
      rw [List.length_cons] at more
      by_cases fits : (0 : Nat) + total (seat :: rest) < bufsize
      · have := (entryPrints_fits (by exact_mod_cast fits) int).1
        omega
      · have beyond : bufsize ≤ (0 : Nat) + total (seat :: rest) := by omega
        have := entryPrints_beyond beyond positive int
        omega
  · intro empty
    rw [empty]
    rfl

/-- Where the entries take the whole buffer, the call behind the loop is told a negative size. -/
theorem negative_size {seats : List Seat} (positive : 1 ≤ bufsize) (int : bufsize < 2 ^ 31)
    (full : bufsize ≤ total seats) :
    ∃ p ∈ prints bufsize seats, p.size < 0 := by
  have taken : bufsize ≤ (0 : Nat) + total seats := by push_cast; omega
  have beyond := entryPrints_beyond taken positive int
  refine ⟨_, List.mem_append_right _ List.mem_cons_self, ?_⟩
  rw [lastPrint, if_pos (by omega)]
  dsimp only
  omega

theorem prints_sized {seats : List Seat} (positive : 1 ≤ bufsize) (int : bufsize < 2 ^ 31)
    (fits : total seats < bufsize) :
    ∀ p ∈ prints bufsize seats, 0 ≤ p.size ∧ p.offset + p.size ≤ bufsize := by
  have left : (0 : Nat) + total seats < bufsize := by push_cast; omega
  obtain ⟨last, inside⟩ := entryPrints_fits left int
  intro p member
  rcases List.mem_append.mp member with entry | final
  · have := entryPrints_size p entry
    have := inside p entry
    omega
  · rw [List.mem_singleton.mp final, lastPrint, last]
    split
    · dsimp only
      omega
    · dsimp only
      omega

theorem prints_first {seats : List Seat} (positive : 1 ≤ bufsize) (int : bufsize < 2 ^ 31) :
    ∃ first rest, prints bufsize seats = first :: rest ∧ 0 < first.size := by
  cases seats with
  | nil => exact ⟨_, _, rfl, by simp [entryPrints, lastPrint]; omega⟩
  | cons seat rest =>
    have first : ((0 : Nat) : Int) < (bufsize + 6) % 2 ^ 64 := by omega
    simp only [prints, entryPrints, if_pos first, List.cons_append]
    exact ⟨_, _, rfl, by dsimp only; omega⟩

theorem stays_iff {seats : List Seat} (positive : 1 ≤ bufsize) (int : bufsize < 2 ^ 31) :
    Stays bufsize (prints bufsize seats) ↔ total seats < bufsize := by
  constructor
  · intro stays
    by_contra full
    obtain ⟨p, member, negative⟩ := negative_size positive int (Int.not_lt.mp full)
    have := (stays.sized p member).1
    omega
  · intro fits
    have sized := prints_sized positive int fits
    obtain ⟨first, rest, split, room⟩ := @prints_first _ seats positive int
    rw [split] at sized ⊢
    exact stays_of_sized int room sized

/-- Only an empty hall is listed with the space that is really left as the size of every call. -/
theorem exact_sizes_iff {seats : List Seat} (positive : 1 ≤ bufsize) (int : bufsize < 2 ^ 31) :
    (∀ p ∈ prints bufsize seats, p.size = bufsize - p.offset) ↔ seats = [] := by
  rw [← entryPrints_none_iff positive int]
  simp only [prints, List.forall_mem_append, List.forall_mem_singleton]
  rw [and_iff_right entryPrints_size, lastPrint]
  split
  · dsimp only
    omega
  · dsimp only
    omega

theorem length_seatList (s : Store) : s.seatList.length = s.numberOfSeats := by simp [Store.seatList]

/-- `list_seats` stays in its buffer exactly where the entries of all seats leave room in it for a NUL. -/
theorem listSeats_stays_iff (s : Store) (bufsize : Int) (positive : 1 ≤ bufsize) (int : bufsize < 2 ^ 31) :
    (∀ buf, Ends (listSeats buf bufsize) s fun reply t =>
      reply = .listing ((prints bufsize s.seatList).foldl Print.run buf) ∧ t = s) ∧
    (Stays bufsize (prints bufsize s.seatList) ↔ total s.seatList < bufsize) ∧
    ((∀ p ∈ prints bufsize s.seatList, p.size = bufsize - p.offset) ↔ s.numberOfSeats = 0) := by
  refine ⟨fun buf => ends_listSeats_prints buf bufsize, stays_iff positive int, ?_⟩
  rw [exact_sizes_iff positive int, ← length_seatList, List.length_eq_zero_iff]

/-- The three seats of a small hall and a buffer that has room for them. -/
theorem three_seats_stay : Stays 1024 (prints 1024 (loadSeats 3).seatList) :=
  (listSeats_stays_iff (loadSeats 3) 1024 (by decide) (by decide)).2.1.mpr (by decide)

/-- A hall with 256 seats takes more than the 1024 bytes that the server has for its list. -/
theorem many_seats_overrun : ¬ Stays 1024 (prints 1024 (loadSeats 256).seatList) := by
  have full := le_total (loadSeats 256).seatList
  rw [length_seatList] at full
  obtain ⟨p, member, negative⟩ := negative_size (by decide) (by decide) (Int.ofNat_le.mpr full)
  intro stays
  have := (stays.sized p member).1
  omega

end Eecs343.Server.Seats
