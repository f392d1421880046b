import Mathlib.Data.List.TakeWhile
import Mathlib.Tactic.Common

namespace Scanf

def isSpace (c : Char) : Bool := c.toNat = 32 ∨ 9 ≤ c.toNat ∧ c.toNat ≤ 13

def skip (text : List Char) : List Char := text.dropWhile isSpace

/-- `%s` with a width: the word, and what it leaves. -/
def word (width : Nat) (text : List Char) : Option (List Char × List Char) :=
  let found := ((skip text).take width).takeWhile fun c => !isSpace c
  if found = [] then none else some (found, (skip text).drop found.length)

def natural (text : List Char) : Option (Int × List Char) :=
  let found := text.takeWhile Char.isDigit
  if found = [] then none else some (Nat.ofDigitChars 10 found 0, text.drop found.length)

/-- `%d`: the number, and what it leaves. -/
def decimal (text : List Char) : Option (Int × List Char) :=
  match skip text with
  | '-' :: rest => (natural rest).map fun read => (-read.1, read.2)
  | '+' :: rest => natural rest
  | rest => natural rest

variable {width : Nat} {text rest : List Char} {c : Char}

theorem not_isSpace_of_isDigit (digit : c.isDigit = true) : isSpace c = false := by
  simp only [Char.isDigit, Bool.and_eq_true, decide_eq_true_eq, UInt32.le_iff_toNat_le] at digit
  have low : 48 ≤ c.toNat := digit.1
  simp only [isSpace, decide_eq_false_iff_not]
  omega

theorem skip_cons_of_isSpace (blank : isSpace c = true) : skip (c :: text) = skip text := List.dropWhile_cons_of_pos blank

theorem skip_cons_of_not (letter : isSpace c = false) : skip (c :: text) = c :: text :=
  List.dropWhile_cons_of_neg (by simp [letter])

theorem word_append {letters : List Char} (some : letters ≠ []) (word : ∀ c ∈ letters, isSpace c = false)
    (fits : letters.length ≤ width) (ends : ∀ c ∈ rest.head?, isSpace c = true) :
    Scanf.word width (letters ++ rest) = .some (letters, rest) := by
  have start : skip (letters ++ rest) = letters ++ rest := by
    cases letters with
    | nil => exact absurd rfl some
    | cons c letters => exact skip_cons_of_not (word c List.mem_cons_self)
  have found : ((letters ++ rest).take width).takeWhile (fun c => !isSpace c) = letters := by
    rw [List.take_append, List.take_of_length_le fits, List.takeWhile_append_of_pos fun c member => by simp [word c member]]
    cases rest with
    | nil => simp
    | cons c rest =>
      have blank := ends c rfl
      cases width - letters.length <;> simp [blank]
  rw [Scanf.word, start, found, if_neg some, List.drop_left]

theorem natural_digits {n : Nat} (ends : ∀ c ∈ rest.head?, c.isDigit = false) :
    natural (Nat.toDigits 10 n ++ rest) = some ((n : Int), rest) := by
  have digits : ∀ c ∈ Nat.toDigits 10 n, c.isDigit = true := fun c member =>
    Nat.isDigit_of_mem_toDigits (by decide) (by decide) member
  have found : (Nat.toDigits 10 n ++ rest).takeWhile Char.isDigit = Nat.toDigits 10 n := by
    rw [List.takeWhile_append_of_pos digits]
    cases rest with
    | nil => simp
    | cons c rest => simp [ends c rfl]
  simp only [natural, found, if_neg Nat.toDigits_ne_nil, List.drop_left, Nat.ofDigitChars_ten_toDigits]

theorem decimal_toString (i : Int) (ends : ∀ c ∈ rest.head?, c.isDigit = false) :
    decimal ((toString i).toList ++ rest) = some (i, rest) := by
  rw [Int.toString_eq_repr, Int.repr_eq_if]
  split
  · rename_i nonneg
    have digits : ∀ c ∈ Nat.toDigits 10 i.toNat, c.isDigit = true := fun c member =>
      Nat.isDigit_of_mem_toDigits (by decide) (by decide) member
    rw [Nat.toList_repr]
    have read := natural_digits (n := i.toNat) ends
    rw [Int.toNat_of_nonneg nonneg] at read
    cases same : Nat.toDigits 10 i.toNat with
    | nil => exact absurd same Nat.toDigits_ne_nil
    | cons c more =>
      rw [same] at read digits
      have digit := digits c List.mem_cons_self
      rw [decimal, List.cons_append, skip_cons_of_not (not_isSpace_of_isDigit digit)]
      split
      · cases ‹_ = '-' :: _›
        cases digit
      · cases ‹_ = '+' :: _›
        cases digit
      · exact read
  · rename_i negative
    rw [String.toList_append, Nat.toList_repr]
    change decimal ('-' :: (Nat.toDigits 10 (-i).toNat ++ rest)) = _
    rw [decimal, skip_cons_of_not (by decide)]
    simp only [natural_digits ends, Option.map_some]
    rw [Int.toNat_of_nonneg (by omega), Int.neg_neg]

theorem decimal_cons (blank : isSpace c = true) : decimal (c :: text) = decimal text := by
  rw [decimal, decimal, skip_cons_of_isSpace blank]

theorem word_cons (blank : isSpace c = true) : word width (c :: text) = word width text := by
  rw [word, word, skip_cons_of_isSpace blank]

end Scanf
