import Mathlib.Data.List.DropRight
import Eecs343.Server.Seats.Listing

namespace Eecs343.Server.Seats

open Prog

/-- A seat in the list: "id state". -/
def label (seat : Seat) : List Char := (toString seat.id).toList ++ [' ', seat.state.toChar]

/-- All seats in their order, separated by commas and ended by one newline. -/
def rendering (seats : List Seat) : List Char := [','].intercalate (seats.map label) ++ ['\n']

def Prefix (buf : Nat → Char) (text : List Char) : Prop := ∀ k, k < text.length → some (buf k) = text[k]?

/-- The buffer holds exactly this string. -/
def Contains (buf : Nat → Char) (text : List Char) : Prop := Prefix buf text ∧ buf text.length = Char.ofNat 0

/-- `$.trim`. -/
def trim (token : List Char) : List Char := (token.dropWhile Char.isWhitespace).rdropWhile Char.isWhitespace

def readId : List Char → Int
  | '-' :: digits => -Nat.ofDigitChars 10 digits 0
  | digits => Nat.ofDigitChars 10 digits 0

def readState : List Char → Option SeatState
  | ['A'] => some .available
  | ['P'] => some .pending
  | ['O'] => some .occupied
  | _ => none

/-- What `selectSeats.html` makes of one token. -/
def shownToken (token : List Char) : Option (Int × SeatState) :=
  match (trim token).splitOn ' ' with
  | id :: state :: _ => (readState state).map fun state => (readId id, state)
  | _ => none

/-- The seats that `selectSeats.html` shows, in order. -/
def shownSeats (data : List Char) : List (Int × SeatState) := (data.splitOn ',').filterMap shownToken

/-- Where the list fits with its NUL, the buffer holds it, and the page shows every seat with its state. -/
def Faithful (s : Store) (bufsize : Int) : Prop :=
  (rendering s.seatList).length + 1 ≤ bufsize → ∀ buf,
    Ends (listSeats buf bufsize) s fun reply _ => ∃ shown, reply = .listing shown ∧
      Contains shown (rendering s.seatList) ∧
      shownSeats (rendering s.seatList) = s.seatList.map fun seat => (seat.id, seat.state)

theorem toList_toString (id : Int) : (toString id).toList =
    if 0 ≤ id then Nat.toDigits 10 id.toNat else '-' :: Nat.toDigits 10 (-id).toNat := by
  rw [Int.toString_eq_repr, Int.repr_eq_if]
  split
  · exact Nat.toList_repr
  · rw [String.toList_append, Nat.toList_repr]
    rfl

theorem digit_or_minus {id : Int} {c : Char} (member : c ∈ (toString id).toList) : c.isDigit ∨ c = '-' := by
  rw [toList_toString] at member
  split at member
  · exact .inl (Nat.isDigit_of_mem_toDigits (by decide) (by decide) member)
  · rcases List.mem_cons.mp member with minus | digit
    · exact .inr minus
    · exact .inl (Nat.isDigit_of_mem_toDigits (by decide) (by decide) digit)

theorem readId_toString (id : Int) : readId (toString id).toList = id := by
  rw [toList_toString]
  split
  · have notMinus : ∀ digits, Nat.toDigits 10 id.toNat ≠ '-' :: digits := by
      intro digits same
      have digit :=
        Nat.isDigit_of_mem_toDigits (b := 10) (n := id.toNat) (c := '-') (by decide) (by decide) (by simp [same])
      exact absurd digit (by decide)
    unfold readId
    split
    · rename_i digits same
      exact (notMinus digits same).elim
    · rw [Nat.ofDigitChars_ten_toDigits]
      omega
  · rw [readId, Nat.ofDigitChars_ten_toDigits]
    omega

theorem readState_toChar (state : SeatState) : readState [state.toChar] = some state := by
  cases state <;> rfl

theorem isWhitespace_toChar (state : SeatState) : ¬ state.toChar.isWhitespace := by
  cases state <;> decide

theorem not_mem_toString {c : Char} (id : Int) (digit : c.isDigit = false) (minus : c ≠ '-') : c ∉ (toString id).toList := by
  intro member
  rcases digit_or_minus member with isDigit | isMinus
  · simp [digit] at isDigit
  · exact minus isMinus

theorem comma_not_mem_label (seat : Seat) : ',' ∉ label seat := by
  have state : ',' ≠ seat.state.toChar := by cases seat.state <;> decide
  have digits := not_mem_toString seat.id (c := ',') (by decide) (by decide)
  rw [label, List.mem_append, not_or]
  exact ⟨digits, by simp [state]⟩

theorem trim_label (seat : Seat) {rest : List Char} (blank : rest = [] ∨ rest = ['\n']) :
    trim (label seat ++ rest) = label seat := by
  have front : (label seat ++ rest).dropWhile Char.isWhitespace = label seat ++ rest := by
    cases digits : (toString seat.id).toList with
    | nil =>
      have positive := entry_length seat.id seat.state
      rw [toList_toString] at digits
      split at digits
      · exact (Nat.toDigits_ne_nil digits).elim
      · cases digits
    | cons c digits' =>
      have kept : ¬ c.isWhitespace := by
        intro white
        have member : c ∈ (toString seat.id).toList := by
          rw [digits]
          exact List.mem_cons_self
        simp only [Char.isWhitespace, Bool.or_eq_true, decide_eq_true_eq] at white
        rcases digit_or_minus member with digit | minus
        · rcases white with ((rfl | rfl) | rfl) | rfl <;> revert digit <;> decide
        · rw [minus] at white
          revert white
          decide
      rw [label, digits]
      exact List.dropWhile_cons_of_neg kept
  have back : (label seat).rdropWhile Char.isWhitespace = label seat := by
    rw [label, show [' ', seat.state.toChar] = [' '] ++ [seat.state.toChar] from rfl, ← List.append_assoc]
    exact List.rdropWhile_concat_neg _ _ _ (isWhitespace_toChar seat.state)
  rw [trim, front]
  rcases blank with rfl | rfl
  · rw [List.append_nil, back]
  · rw [List.rdropWhile_concat_pos _ _ _ (by decide), back]

theorem shownToken_label (seat : Seat) {rest : List Char} (blank : rest = [] ∨ rest = ['\n']) :
    shownToken (label seat ++ rest) = some (seat.id, seat.state) := by
  have noBlank := not_mem_toString seat.id (c := ' ') (by decide) (by decide)
  have state : ' ' ∉ [seat.state.toChar] := by cases seat.state <;> decide
  rw [shownToken, trim_label seat blank, label, List.splitOn_append_cons_self_of_not_mem noBlank,
    List.splitOn_eq_singleton state]
  simp only [readState_toChar, readId_toString, Option.map_some]

theorem shownSeats_rendering (seat : Seat) (rest : List Seat) :
    shownSeats (rendering (seat :: rest)) =
      (seat :: rest).map fun seat => (seat.id, seat.state) := by
  induction rest generalizing seat with
  | nil =>
    have noComma : ',' ∉ label seat ++ ['\n'] := by simp [comma_not_mem_label]
    simp [rendering, shownSeats, List.splitOn_eq_singleton noComma, shownToken_label seat (.inr rfl)]
  | cons next rest ih =>
    have first := shownToken_label seat (.inl rfl)
    rw [List.append_nil] at first
    have later := ih next
    simp only [rendering, List.map_cons, shownSeats, List.intercalate_cons_cons, List.append_assoc,
      List.singleton_append] at later ⊢
    rw [List.cons_append, List.splitOn_append_cons_self_of_not_mem (comma_not_mem_label seat),
      List.filterMap_cons_some first, later]

variable {buf : Nat → Char} {before : List Char} {bufsize : Int}

theorem contains_run {p : Print} (shows : Prefix buf before) (offset : p.offset = before.length)
    (fits : p.text.length < p.room) : Contains (Print.run buf p) (before ++ p.text.toList) := by
  constructor
  · intro k inside
    rw [List.length_append, String.length_toList] at inside
    by_cases earlier : k < before.length
    · have untouched : ¬ p.Writes k := by
        intro writes
        have := writes.2.1
        omega
      rw [Print.run_of_not_writes untouched, List.getElem?_append_left earlier]
      exact shows k earlier
    · obtain ⟨j, rfl⟩ := Nat.exists_eq_add_of_le (Nat.not_lt.mp earlier)
      rw [List.getElem?_append_right (Nat.le_add_right _ _), Nat.add_sub_cancel_left, ← offset]
      exact Print.run_text (by omega) (by omega)
  · have nul := @Print.run_nul p buf (by omega)
    rwa [Nat.min_eq_right (by omega), offset, ← String.length_toList, ← List.length_append] at nul

def entriesText (seats : List Seat) : List Char := seats.flatMap fun seat => (entry seat.id seat.state).toList

theorem length_entriesText (seats : List Seat) : (entriesText seats).length = total seats := by
  induction seats with
  | nil => rfl
  | cons seat rest ih =>
    rw [total_cons, ← ih, ← String.length_toList, ← List.length_append]
    rfl

theorem toList_entry (seat : Seat) : (entry seat.id seat.state).toList = label seat ++ [','] := by
  simp only [entry, String.toList_append, label, List.append_assoc]
  congr 1
  simp

theorem entriesText_eq (seat : Seat) (rest : List Seat) :
    entriesText (seat :: rest) = [','].intercalate ((seat :: rest).map label) ++ [','] := by
  induction rest generalizing seat with
  | nil => simp [entriesText, toList_entry]
  | cons next rest ih =>
    have later := ih next
    rw [entriesText, List.flatMap_cons, ← entriesText, later, toList_entry]
    simp [List.intercalate_cons_cons]

theorem contains_entry (int : bufsize < 2 ^ 31) (seat : Seat) (shows : Prefix buf before)
    (fits : before.length + (entry seat.id seat.state).length < bufsize) :
    Contains (Print.run buf ⟨before.length, bufsize - before.length, entry seat.id seat.state⟩)
      (before ++ (entry seat.id seat.state).toList) := by
  have room := Print.room_of_nonneg (p := ⟨before.length, bufsize - before.length, entry seat.id seat.state⟩)
    (by dsimp only; omega) (by dsimp only; omega)
  dsimp only at room
  apply contains_run shows rfl
  dsimp only
  omega

theorem contains_entries (int : bufsize < 2 ^ 31) (seat : Seat) (rest : List Seat) (shows : Prefix buf before)
    (fits : before.length + total (seat :: rest) < bufsize) :
    Contains ((entryPrints bufsize before.length (seat :: rest)).1.foldl Print.run buf)
      (before ++ entriesText (seat :: rest)) := by
  induction rest generalizing seat buf before with
  | nil =>
    rw [total_cons] at fits
    have added := contains_entry int seat shows (by omega)
    unfold entryPrints
    rw [if_pos (by omega)]
    simpa [entryPrints, entriesText] using added
  | cons next rest ih =>
    rw [total_cons] at fits
    have added := contains_entry int seat shows (by omega)
    have length : (before ++ (entry seat.id seat.state).toList).length = before.length + (entry seat.id seat.state).length := by
      rw [List.length_append, String.length_toList]
    have later := ih next added.1 (by rw [length]; push_cast; omega)
    rw [length] at later
    unfold entryPrints
    rw [if_pos (by omega), List.foldl_cons]
    simpa [entriesText] using later

theorem Prefix.of_append {text more : List Char} (shows : Prefix buf (text ++ more)) : Prefix buf text := by
  intro k inside
  have here := shows k (by rw [List.length_append]; omega)
  rwa [List.getElem?_append_left inside] at here

/-- The newline takes the place of the last comma exactly where the call has room for it and its NUL. -/
theorem newline_iff {text : List Char} {p : Print} (shows : Contains buf (text ++ [','])) (offset : p.offset = text.length)
    (newline : p.text = "\n") : Contains (Print.run buf p) (text ++ ['\n']) ↔ 2 ≤ p.room := by
  have one : p.text.length = 1 := by rw [newline]; rfl
  have last : ∀ c : Char, (text ++ [c])[text.length]? = some c := by simp
  constructor
  · intro contains
    by_contra tight
    have written := contains.1 text.length (by simp)
    rw [last, Option.some.injEq] at written
    by_cases nothing : p.room = 0
    · -- The call does nothing, and the comma stays.
      have comma := shows.1 text.length (by simp)
      rw [last, Option.some.injEq] at comma
      rw [Print.run_of_not_writes fun writes => Nat.ne_of_gt writes.1 nothing, comma] at written
      exact absurd written (by decide)
    · -- There is room for the NUL alone.
      have nul := @Print.run_nul p buf (by omega)
      rw [show p.offset + min (p.room - 1) p.text.length = text.length by omega, written] at nul
      exact absurd nul (by decide)
  · intro wide
    have added := contains_run shows.1.of_append offset (by omega)
    rwa [newline] at added

theorem length_rendering (seat : Seat) (rest : List Seat) : (rendering (seat :: rest)).length = total (seat :: rest) := by
  rw [← length_entriesText, entriesText_eq, rendering, List.length_append, List.length_append]
  rfl

theorem printed_list (int : bufsize < 2 ^ 31) {seat : Seat} {rest : List Seat} (fits : total (seat :: rest) + 1 ≤ bufsize)
    (buf : Nat → Char) :
    Contains ((prints bufsize (seat :: rest)).foldl Print.run buf) (rendering (seat :: rest)) ↔
      total (seat :: rest) + 3 ≤ bufsize := by
  have length := length_entriesText (seat :: rest)
  have loop := @contains_entries buf [] bufsize int seat rest (fun _ none => by cases none)
    (by simp only [List.length_nil]; omega)
  have left : (0 : Nat) + total (seat :: rest) < bufsize := by push_cast; omega
  have index := (entryPrints_fits left int).1
  rw [entriesText_eq, List.length_append, List.length_singleton] at length
  rw [List.nil_append, entriesText_eq, List.length_nil] at loop
  rw [prints, List.foldl_append, index, Nat.zero_add]
  have positive : 0 < total (seat :: rest) := by omega
  simp only [lastPrint, positive, if_true, List.foldl_cons, List.foldl_nil]
  rw [rendering, newline_iff loop (by dsimp only; omega) rfl]
  have room := Print.room_of_nonneg (p := ⟨total (seat :: rest) - 1, bufsize - total (seat :: rest) - 1, "\n"⟩)
    (by dsimp only; omega) (by dsimp only; omega)
  dsimp only at room
  omega

theorem printed_nothing (int : bufsize < 2 ^ 31) (fits : 2 ≤ bufsize) (buf : Nat → Char) :
    ¬ Contains ((prints bufsize []).foldl Print.run buf) (rendering []) := by
  intro contains
  have newline := contains.1 0 (by decide)
  have room := @Print.room_of_nonneg ⟨0, bufsize, "No seats not found\n\n"⟩ (by dsimp only; omega) int
  dsimp only at room
  have speaks : 0 < "No seats not found\n\n".length := by decide
  have shown := @Print.run_text ⟨0, bufsize, "No seats not found\n\n"⟩ buf 0 (by omega) speaks
  have spoken : (prints bufsize []).foldl Print.run buf = Print.run buf ⟨0, bufsize, "No seats not found\n\n"⟩ := rfl
  have different : "No seats not found\n\n".toList[0]? ≠ (rendering [])[0]? := by decide
  rw [spoken, shown] at newline
  exact different newline

/-- What can be said of the list is said of the buffer that its calls leave. -/
theorem ends_listing_iff {s : Store} {left : (Nat → Char) → Prop} :
    (Ends (listSeats buf bufsize) s fun reply _ => ∃ shown, reply = .listing shown ∧ left shown) ↔
      left ((prints bufsize s.seatList).foldl Print.run buf) := by
  obtain ⟨reply, t, runs, rfl, _⟩ := @ends_listSeats_prints s buf bufsize
  rw [runs.ends_iff]
  constructor
  · intro ⟨shown, same, holds⟩
    cases same
    exact holds
  · intro holds
    exact ⟨_, rfl, holds⟩

/-- `list_seats` is faithful exactly where the list does not fit, or where there is a seat and two bytes are left over. -/
theorem listSeats_faithful_iff (s : Store) (bufsize : Int) (int : bufsize < 2 ^ 31) :
    Faithful s bufsize ↔ bufsize ≤ (rendering s.seatList).length ∨
      0 < s.numberOfSeats ∧ (rendering s.seatList).length + 3 ≤ bufsize := by
  rw [← length_seatList]
  unfold Faithful
  simp only [ends_listing_iff]
  cases s.seatList with
  | nil =>
    have one : (rendering []).length = 1 := rfl
    rw [one]
    constructor
    · intro faithful
      by_contra fits
      have wide : 2 ≤ bufsize := by omega
      -- the one call prints its message about missing seats instead of a newline
      exact printed_nothing int wide _ (faithful (by omega) fun _ => 'A').1
    · intro tight fits buf
      simp at tight
      omega
  | cons seat rest =>
    rw [length_rendering]
    have shown := shownSeats_rendering seat rest
    constructor
    · intro faithful
      by_cases fits : total (seat :: rest) + 1 ≤ bufsize
      · exact .inr ⟨Nat.succ_pos _, (printed_list int fits _).mp (faithful fits fun _ => 'A').1⟩
      · left
        omega
    · intro roomy fits buf
      exact ⟨(printed_list int fits buf).mpr (by omega), shown⟩

/-- The list of one seat in a buffer of seven bytes. -/
theorem one_seat_faithful : Faithful (loadSeats 1) 7 :=
  (listSeats_faithful_iff (loadSeats 1) 7 (by decide)).mpr (.inr (by decide))

/-- The list of one seat takes four characters, and in five bytes the comma stays where its newline should be. -/
theorem one_seat_comma_stays : ¬ Faithful (loadSeats 1) 5 := by
  intro faithful
  have contains := (ends_listing_iff.mp (faithful (by decide) fun _ => 'A')).1
  have newline := contains.1 3 (by decide)
  have shown : (prints 5 (loadSeats 1).seatList).foldl Print.run (fun _ => 'A') 3 = ',' := by decide
  rw [shown] at newline
  exact absurd newline (by decide)

end Eecs343.Server.Seats
