import Mathlib.Data.List.TakeWhile
import Eecs343.Server.Connection.Model

namespace Eecs343.Server.Connection

/-- What follows the first question mark. -/
def arguments (path : List Char) : List Char := (path.dropWhile fun c => c ≠ '?').tail

/-- What follows the first occurrence of `key`. -/
def behind (key : List Char) : List Char → Option (List Char)
  | [] => if key = [] then some [] else none
  | c :: rest => if key <+: c :: rest then some ((c :: rest).drop key.length) else behind key rest

/-- The digits behind the first occurrence of `key` among the arguments. -/
def argumentDigits (path key : List Char) : List Char :=
  ((behind key (arguments path)).getD []).takeWhile Char.isDigit

/-- The number that a path denotes for a key. -/
def denoted (path key : List Char) : Nat := Nat.ofDigitChars 10 (argumentDigits path key) 0

section Loop

variable {α : Type} {arg : List Char} {digit : α → Char → α} {result : α}

@[simp] theorem parseLoop_nil {valueStart argListStart : Bool} :
    parseLoop arg digit valueStart argListStart result [] = result := by
  rw [parseLoop.eq_def]

theorem parseLoop_value (text : List Char) :
    parseLoop arg digit true true result text = (text.takeWhile Char.isDigit).foldl digit result := by
  induction text generalizing result with
  | nil => simp
  | cons c rest ih =>
    rw [parseLoop.eq_def]
    by_cases isDigit : c.isDigit <;> simp [isDigit, ih]

theorem parseLoop_found (rest : List Char) : parseLoop arg digit false true result (arg ++ rest) =
    (rest.takeWhile Char.isDigit).foldl digit result := by
  cases text : arg ++ rest with
  | nil =>
    obtain ⟨_, rfl⟩ := List.append_eq_nil_iff.mp text
    simp
  | cons c more =>
    have found : false = false ∧ arg.isPrefixOf (c :: more) = true := ⟨rfl, List.isPrefixOf_iff_prefix.mpr ⟨rest, text⟩⟩
    have jumped : (c :: more).drop arg.length = rest := by rw [← text, List.drop_left]
    rw [parseLoop.eq_def]
    dsimp only
    rw [if_neg (by simp), if_pos (.inr found)]
    split
    · rename_i empty
      rw [if_pos found, jumped] at empty
      simp [empty]
    · rename_i d after next
      rw [if_pos found, jumped] at next
      rw [next, parseLoop_value]
      by_cases isDigit : d.isDigit <;> simp [isDigit]

theorem parseLoop_passed {c : Char} {rest : List Char} (other : ¬ arg <+: c :: rest) :
    parseLoop arg digit false true result (c :: rest) = parseLoop arg digit false true result rest := by
  rw [parseLoop.eq_def]
  simp [other]

theorem parseLoop_search (text : List Char) : parseLoop arg digit false true result text =
    (((behind arg text).getD []).takeWhile Char.isDigit).foldl digit result := by
  induction text with
  | nil =>
    rw [behind]
    split <;> simp
  | cons c rest ih =>
    by_cases begins : arg <+: c :: rest
    · obtain ⟨after, text⟩ := begins
      rw [← text, parseLoop_found, text, behind, if_pos ⟨after, text⟩, ← text, List.drop_left, Option.getD_some]
    · rw [parseLoop_passed begins, ih, behind, if_neg begins]

/-- The three jobs of the loop, one after the other: it looks for the question mark, for the key, and reads digits. -/
theorem parseLoop_eq (path : List Char) :
    parseLoop arg digit false false result path = (argumentDigits path arg).foldl digit result := by
  induction path with
  | nil =>
    rw [argumentDigits, arguments, ← parseLoop_search]
    simp
  | cons c rest ih =>
    rw [parseLoop.eq_def]
    by_cases begins : c = '?'
    · simp [begins, argumentDigits, arguments, parseLoop_search]
    · simp [begins, ih, argumentDigits, arguments]

end Loop

theorem parseIntArg_eq (path key : List Char) : parseIntArg path key = (argumentDigits path key).foldl addDigit 0 :=
  parseLoop_eq path

theorem wrap_of_small {value : Nat} (small : value < 2 ^ 31) : wrap value = value := by
  apply Int.bmod_eq_of_le_mul_two <;> omega

theorem digit_toNat {c : Char} (isDigit : c.isDigit = true) : 48 ≤ c.toNat ∧ c.toNat ≤ 57 := by
  simp only [Char.isDigit, Bool.and_eq_true, decide_eq_true_eq, ge_iff_le, UInt32.le_iff_toNat_le] at isDigit
  exact isDigit

theorem addDigit_wrap (value : Nat) {c : Char} (isDigit : c.isDigit = true) :
    addDigit (wrap value) c = wrap (10 * value + (c.toNat - '0'.toNat) : Nat) := by
  have small := (digit_toNat isDigit).1
  have zero : '0'.toNat = 48 := rfl
  simp only [addDigit, wrap, Int.bmod_mul_bmod, Int.bmod_add_bmod, Int.bmod_sub_bmod]
  congr 1
  omega

theorem foldl_addDigit {digits : List Char} (isDigits : ∀ c ∈ digits, c.isDigit = true) (value : Nat) :
    digits.foldl addDigit (wrap value) = wrap (Nat.ofDigitChars 10 digits value : Nat) := by
  induction digits generalizing value with
  | nil => rw [List.foldl_nil, Nat.ofDigitChars_nil]
  | cons c digits ih =>
    obtain ⟨first, later⟩ := List.forall_mem_cons.mp isDigits
    rw [List.foldl_cons, addDigit_wrap value first, ih later, Nat.ofDigitChars_cons]

theorem isDigit_argumentDigits (path key : List Char) : ∀ c ∈ argumentDigits path key, c.isDigit = true :=
  fun _ => List.mem_takeWhile_imp

/-- What is returned is the number that the path denotes, as far as an `int` holds it. -/
theorem parseIntArg_denoted (path key : List Char) : parseIntArg path key = wrap (denoted path key) := by
  rw [parseIntArg_eq, denoted, ← foldl_addDigit (isDigit_argumentDigits path key) 0, wrap_of_small (by decide)]
  rfl

/-- An argument "key" with its number. -/
def argument (key : List Char) (value : Nat) : List Char := key ++ Nat.toDigits 10 value

theorem takeWhile_toDigits (value : Nat) {rest : List Char} (ends : ∀ c ∈ rest.head?, c.isDigit = false) :
    (Nat.toDigits 10 value ++ rest).takeWhile Char.isDigit = Nat.toDigits 10 value := by
  rw [List.takeWhile_append_of_pos fun c member => Nat.isDigit_of_mem_toDigits (by decide) (by decide) member]
  cases rest with
  | nil => simp
  | cons c rest => simp [ends c rfl]

theorem arguments_append {op : List Char} (plain : '?' ∉ op) (text : List Char) : arguments (op ++ '?' :: text) = text := by
  have passed : ∀ c ∈ op, (decide (c ≠ '?')) = true := by
    intro c member
    have different : c ≠ '?' := fun same => plain (same ▸ member)
    simpa using different
  rw [arguments, List.dropWhile_append_of_pos passed]
  simp

theorem behind_found {key : List Char} (filled : key ≠ []) (rest : List Char) : behind key (key ++ rest) = some rest := by
  cases text : key ++ rest with
  | nil => exact (filled (List.append_eq_nil_iff.mp text).1).elim
  | cons c more => rw [behind, if_pos ⟨rest, text⟩, ← text, List.drop_left]

theorem behind_passed {key rest : List Char} {c : Char} (other : ¬ key <+: c :: rest) :
    behind key (c :: rest) = behind key rest := by
  rw [behind, if_neg other]

theorem behind_skip {k : Char} {ks skip : List Char} (absent : k ∉ skip) (rest : List Char) :
    behind (k :: ks) (skip ++ rest) = behind (k :: ks) rest := by
  induction skip with
  | nil => rfl
  | cons c skip ih =>
    rw [List.mem_cons, not_or] at absent
    have other : ¬ k :: ks <+: c :: (skip ++ rest) := fun begins => absent.1 (List.cons_prefix_cons.mp begins).1
    rw [List.cons_append, behind_passed other, ih absent.2]

theorem not_mem_toDigits {c : Char} (letter : c.isDigit = false) (value : Nat) : c ∉ Nat.toDigits 10 value := by
  intro member
  have digit := Nat.isDigit_of_mem_toDigits (by decide) (by decide) member
  rw [letter] at digit
  cases digit

theorem parseIntArg_of_behind {path key rest : List Char} {value : Nat}
    (found : behind key (arguments path) = some (Nat.toDigits 10 value ++ rest))
    (ends : ∀ c ∈ rest.head?, c.isDigit = false) (int : value < 2 ^ 31) : parseIntArg path key = value := by
  rw [parseIntArg_denoted, denoted, argumentDigits, found, Option.getD_some, takeWhile_toDigits value ends,
    Nat.ofDigitChars_ten_toDigits, wrap_of_small int]

def user : List Char := "user=".toList

def seat : List Char := "seat=".toList

variable {sep : Char}

theorem behind_seat (separates : sep = '&' ∨ sep = '?') (u s : Nat) :
    behind seat (argument user u ++ sep :: argument seat s) = some (Nat.toDigits 10 s) := by
  have digits := not_mem_toDigits (c := 's') (by decide) u
  have notSep : 's' ≠ sep := by rcases separates with rfl | rfl <;> decide
  have skip : 's' ∉ ['e', 'r', '='] ++ Nat.toDigits 10 u ++ [sep] := by
    simp [digits, notSep]
  have split : argument user u ++ sep :: argument seat s =
      'u' :: 's' :: (['e', 'r', '='] ++ Nat.toDigits 10 u ++ [sep] ++ (seat ++ Nat.toDigits 10 s)) := by
    have begins : argument user u = 'u' :: 's' :: (['e', 'r', '='] ++ Nat.toDigits 10 u) := rfl
    have ends : argument seat s = seat ++ Nat.toDigits 10 s := rfl
    simp [begins, ends]
  have letters : seat = 's' :: ['e', 'a', 't', '='] := rfl
  rw [split, behind_passed (by simp [letters]), behind_passed (by simp [letters])]
  rw [letters, behind_skip skip, ← letters]
  exact behind_found (by decide) _

theorem behind_user (separates : sep = '&' ∨ sep = '?') (u s : Nat) :
    behind user (argument seat s ++ sep :: argument user u) = some (Nat.toDigits 10 u) := by
  have digits := not_mem_toDigits (c := 'u') (by decide) s
  have notSep : 'u' ≠ sep := by rcases separates with rfl | rfl <;> decide
  have noLetter : 'u' ∉ seat := by decide
  have skip : 'u' ∉ seat ++ Nat.toDigits 10 s ++ [sep] := by
    simp [noLetter, digits, notSep]
  have split : argument seat s ++ sep :: argument user u = seat ++ Nat.toDigits 10 s ++ [sep] ++ (user ++ Nat.toDigits 10 u) := by
    simp [argument]
  have letters : user = 'u' :: ['s', 'e', 'r', '='] := rfl
  rw [split, letters, behind_skip skip, ← letters]
  exact behind_found (by decide) _

theorem behind_none {key text : List Char} (absent : ¬ key <:+: text) : behind key text = none := by
  induction text with
  | nil =>
    have filled : key ≠ [] := by
      rintro rfl
      exact absent (List.infix_refl _)
    rw [behind, if_neg filled]
  | cons c rest ih =>
    have other : ¬ key <+: c :: rest := fun begins => absent begins.isInfix
    rw [behind_passed other]
    exact ih fun inside => absent (List.infix_cons inside)

theorem parseIntArg_absent {path key : List Char} (absent : ¬ key <:+: arguments path) : parseIntArg path key = 0 := by
  rw [parseIntArg_eq, argumentDigits, behind_none absent]
  rfl

def userFirst (op : List Char) (sep : Char) (u s : Nat) : List Char :=
  op ++ '?' :: (argument user u ++ sep :: argument seat s)

def seatFirst (op : List Char) (sep : Char) (u s : Nat) : List Char :=
  op ++ '?' :: (argument seat s ++ sep :: argument user u)

theorem parseIntArg_first {op key rest : List Char} {value : Nat} (plain : '?' ∉ op) (filled : key ≠ [])
    (separates : sep = '&' ∨ sep = '?') (int : value < 2 ^ 31) :
    parseIntArg (op ++ '?' :: (argument key value ++ sep :: rest)) key = value := by
  refine @parseIntArg_of_behind _ key (sep :: rest) value ?_ ?_ int
  · rw [arguments_append plain, argument, List.append_assoc]
    exact behind_found filled _
  · intro c first
    cases first
    rcases separates with rfl | rfl <;> decide

theorem parseIntArg_last {op key text : List Char} {value : Nat} (plain : '?' ∉ op)
    (found : behind key text = some (Nat.toDigits 10 value)) (int : value < 2 ^ 31) :
    parseIntArg (op ++ '?' :: text) key = value := by
  refine @parseIntArg_of_behind _ key [] value ?_ (by simp) int
  rw [arguments_append plain, found, List.append_nil]

/-- Both numbers come back from a request, in either order and with either separator, and a key that is not among the
    arguments gives 0. -/
theorem arguments_round_trip (op : List Char) (plain : '?' ∉ op) (separates : sep = '&' ∨ sep = '?') (u s : Nat)
    (uInt : u < 2 ^ 31) (sInt : s < 2 ^ 31) :
    (parseIntArg (userFirst op sep u s) user = u ∧ parseIntArg (userFirst op sep u s) seat = s ∧
      parseIntArg (seatFirst op sep u s) user = u ∧ parseIntArg (seatFirst op sep u s) seat = s) ∧
    ∀ path key, ¬ key <:+: arguments path → parseIntArg path key = 0 := by
  refine ⟨⟨?_, ?_, ?_, ?_⟩, fun _ _ => parseIntArg_absent⟩
  · exact parseIntArg_first plain (by decide) separates uInt
  · exact parseIntArg_last plain (behind_seat separates u s) sInt
  · exact parseIntArg_last plain (behind_user separates u s) uInt
  · exact parseIntArg_first plain (by decide) separates sInt

/-- "view_seat?user=20?seat=2", and a request without arguments. -/
theorem round_trip_view_seat : parseIntArg (userFirst "view_seat".toList '?' 20 2) seat = (2 : Nat) ∧
    parseIntArg "list_seats".toList seat = 0 := by
  have trip := @arguments_round_trip '?' "view_seat".toList (by decide) (.inr rfl) 20 2 (by decide) (by decide)
  exact ⟨trip.1.2.1, trip.2 _ _ (by decide)⟩

end Eecs343.Server.Connection
