import Eecs343.TinyShell.Interpreter.Count
import Eecs343.TinyShell.Interpreter.Tasks

namespace Eecs343.TinyShell.Interpreter

open Bytes

def Ordinary (c : BitVec 8) : Prop :=
  c ≠ nul ∧ c ≠ space ∧ c ≠ singleQuote ∧ c ≠ doubleQuote ∧ c ≠ less ∧ c ≠ greater ∧ c ≠ bar ∧ c ≠ ampersand

instance : DecidablePred Ordinary := fun c => inferInstanceAs (Decidable (c ≠ nul ∧ c ≠ space ∧ _))

inductive Mark where
  | single
  | double

def Mark.char : Mark → BitVec 8
  | .single => singleQuote
  | .double => doubleQuote

/-- The flags between two of these quotes. -/
def Mark.quotes : Mark → Quotes
  | .single => ⟨true, false⟩
  | .double => ⟨false, true⟩

/-- A word of a command line, with what may stand in it. -/
inductive Word where
  | plain (content : Text) (some : content ≠ []) (ordinary : ∀ c ∈ content, Ordinary c)
  | quoted (mark : Mark) (content : Text) (inside : ∀ c ∈ content, c ≠ nul ∧ c ≠ mark.char ∧ c ≠ less ∧ c ≠ greater)

namespace Word

def content : Word → Text
  | .plain content _ _ => content
  | .quoted _ content _ => content

def marks : Word → Text
  | .plain _ _ _ => []
  | .quoted mark _ _ => [mark.char]

def source (w : Word) : Text := w.marks ++ (w.content ++ w.marks)

def isPlain : Word → Prop
  | .plain _ _ _ => True
  | .quoted _ _ _ => False

end Word

def spaces (n : Nat) : Text := List.replicate n space

@[simp] theorem length_spaces (n : Nat) : (spaces n).length = n := List.length_replicate

/-- The words behind the first one, each behind one space and as many more as its number says, and
    the spaces behind the last. -/
def following : List (Nat × Word) → (trail : Nat) → Text
  | [], trail => spaces trail
  | (gap, word) :: rest, trail => spaces (gap + 1) ++ word.source ++ following rest trail

/-- A command line of words. `background` is there with a final `&`, and counts the spaces behind it. -/
structure Line where
  lead : Nat
  first : Word
  rest : List (Nat × Word)
  trail : Nat
  background : Option Nat

namespace Line

def words (line : Line) : List Word := line.first :: line.rest.map Prod.snd

/-- The line from the first word on, without a final `&`. -/
def command (line : Line) : Text := line.first.source ++ following line.rest line.trail

def ending (line : Line) : Text :=
  match line.background with
  | none => []
  | some after => ampersand :: spaces after

def text (line : Line) : Text := spaces line.lead ++ line.command ++ line.ending

end Line

variable {m : Memory} {c st tmp : Int} {fuel gap trail : Nat} {w : Word} {tail l : Text} {q : Quotes} {mark : Mark}

theorem reach_append (going : ∀ c ∈ l, stops q c = false) (stop : ∀ c rest, tail = c :: rest → stops q c = true) :
    reach q (l ++ tail) = l.length := by
  induction l with
  | nil =>
    cases tail with
    | nil => rfl
    | cons c rest => exact reach_stop (stop c rest rfl)
  | cons c l ih =>
    rw [List.cons_append, reach_cons (going c List.mem_cons_self), ih fun c member => going c (List.mem_cons_of_mem _ member)]
    rfl

theorem takeWhile_blank {c : BitVec 8} (n : Nat) (solid : blank c = false) :
    (spaces n ++ c :: l).takeWhile blank = spaces n ∧
    (spaces n ++ c :: l).dropWhile blank = c :: l := by
  have blanks : ∀ c ∈ spaces n, blank c = true := by
    intro c member
    rw [List.eq_of_mem_replicate member]
    decide
  constructor
  · rw [List.takeWhile_append_of_pos blanks]
    simp [solid]
  · rw [List.dropWhile_append_of_pos blanks]
    simp [solid]

theorem param_plain {c : BitVec 8} (solid : blank c = false) (unquoted : c ≠ doubleQuote ∧ c ≠ singleQuote) :
    param (spaces gap ++ c :: l) = some (gap, reach ⟨false, false⟩ l + 1) := by
  obtain ⟨skipped, left⟩ := takeWhile_blank (l := l) gap solid
  simp only [param, skipped, left, if_neg unquoted.1, if_neg unquoted.2]
  simp [spaces]

theorem param_mark : param (spaces gap ++ mark.char :: l) = some (gap + 1, reach mark.quotes l) := by
  have solid : blank mark.char = false := by cases mark <;> decide
  obtain ⟨skipped, left⟩ := takeWhile_blank (l := l) gap solid
  simp only [param, skipped, left]
  cases mark with
  | single =>
    rw [Mark.char, if_neg (by decide), if_pos rfl]
    simp [Mark.quotes, spaces]
  | double =>
    rw [Mark.char, if_pos rfl]
    simp [Mark.quotes, spaces]

theorem Word.source_append (w : Word) (tail : Text) : w.source ++ tail = w.marks ++ (w.content ++ (w.marks ++ tail)) := by
  simp [Word.source]

/-- `single_param` finds the content of a word that nothing follows directly, unless it is quoted. -/
theorem param_word (apart : w.isPlain → ∀ c rest, tail = c :: rest → c = space) :
    param (spaces gap ++ (w.source ++ tail)) = some (gap + w.marks.length, w.content.length) := by
  rw [w.source_append]
  cases w with
  | plain content some ordinary =>
    cases content with
    | nil => exact absurd rfl some
    | cons c content =>
      obtain ⟨notNul, notSpace, notSingle, notDouble, -⟩ := ordinary c List.mem_cons_self
      change param (spaces gap ++ c :: (content ++ tail)) = _
      rw [param_plain (by simp [blank, notNul, notSpace]) ⟨notDouble, notSingle⟩, reach_append]
      · rfl
      · intro c member
        obtain ⟨notNul, notSpace, notSingle, notDouble, notLess, notGreater, -⟩ :=
          ordinary c (List.mem_cons_of_mem _ member)
        simp [stops, notNul, notSpace, notLess, notGreater]
      · intro c rest same
        rw [apart trivial c rest same]
        decide
  | quoted mark content inside =>
    change param (spaces gap ++ mark.char :: (content ++ mark.char :: tail)) = _
    rw [param_mark, reach_append]
    · rfl
    · intro c member
      obtain ⟨notNul, notMark, notLess, notGreater⟩ := inside c member
      cases mark <;> simp_all [stops, Mark.quotes, Mark.char, Quotes.outside]
    · intro c rest same
      cases same
      cases mark <;> decide

theorem Word.proper (w : Word) : nul ∉ w.content ∧ nul ∉ w.marks := by
  cases w with
  | plain content some ordinary => exact ⟨fun member => (ordinary _ member).1 rfl, List.not_mem_nil⟩
  | quoted mark content inside =>
    exact ⟨fun member => (inside _ member).1 rfl, by cases mark <;> simp +decide [Word.marks, Mark.char]⟩

theorem nul_not_mem_spaces (n : Nat) : nul ∉ spaces n := by
  intro member
  have := List.eq_of_mem_replicate member
  exact absurd this (by decide)

theorem following_apart (rest : List (Nat × Word)) {c : BitVec 8} {l : Text} (same : following rest trail = c :: l) :
    c = space := by
  cases rest with
  | nil =>
    cases trail with
    | zero => cases same
    | succ trail => exact (List.cons.inj same).1.symm
  | cons next rest => exact (List.cons.inj same).1.symm

theorem Word.next_gap (w next : Word) (gap : Nat) (l : Text) :
    ∃ c gap', w.marks ++ (spaces (gap + 1) ++ (next.source ++ l)) = c :: (spaces gap' ++ (next.source ++ l)) := by
  cases w with
  | plain content some ordinary => exact ⟨space, gap, rfl⟩
  | quoted mark content inside => exact ⟨mark.char, gap + 1, rfl⟩

/-- One word of `argv`: its content is copied, and the next word is looked for behind the cut. -/
theorem readArgs_word (n : Nat) (holds : Holds m tmp (spaces gap ++ (w.source ++ tail)))
    (ended : m (tmp + (spaces gap ++ (w.source ++ tail)).length) = nul)
    (enough : (spaces gap ++ (w.source ++ tail)).length < fuel)
    (apart : w.isPlain → ∀ c rest, tail = c :: rest → c = space) :
    readArgs fuel (n + 1) m tmp = (readArgs fuel n (put m (tmp + (gap + w.marks.length + w.content.length : Nat)) nul)
      (tmp + (gap + w.marks.length + w.content.length : Nat) + 1)).map fun r => (w.content :: r.1, r.2) := by
  have found := singleParam_spec holds ended enough (param_word apart)
  obtain ⟨properContent, properMarks⟩ := w.proper
  rw [w.source_append] at holds enough
  obtain ⟨before, rest⟩ := holds_append.mp holds
  obtain ⟨opened, rest⟩ := holds_append.mp rest
  obtain ⟨content, -⟩ := holds_append.mp rest
  have whole : Holds m tmp (spaces gap ++ (w.marks ++ w.content)) :=
    holds_append.mpr ⟨before, holds_append.mpr ⟨opened, content⟩⟩
  simp only [List.length_append, length_spaces] at enough
  rw [length_spaces, Int.add_assoc, ← Nat.cast_add] at content
  rw [Int.add_assoc, ← Nat.cast_add] at found
  have copied : text (put m (tmp + (gap + w.marks.length + w.content.length : Nat)) nul) fuel (tmp + (gap + w.marks.length : Nat)) =
      some w.content := by
    apply text_of_string
    · refine ⟨content.put_outside (.inr (by omega)), ?_, properContent⟩
      rw [Int.add_assoc, ← Nat.cast_add]
      exact put_at
    · omega
  have length : (spaces gap ++ (w.marks ++ w.content)).length = gap + w.marks.length + w.content.length := by
    simp [Nat.add_assoc]
  have passed : text (put m (tmp + (gap + w.marks.length + w.content.length : Nat)) nul) fuel tmp =
      some (spaces gap ++ (w.marks ++ w.content)) := by
    apply text_of_string
    · refine ⟨whole.put_outside (.inr (by omega)), by rw [length]; exact put_at, ?_⟩
      simp only [List.mem_append, not_or]
      exact ⟨nul_not_mem_spaces gap, properMarks, properContent⟩
    · omega
  rw [readArgs, found]
  simp only [Option.bind_eq_bind, Option.bind_some, copied, passed, length]
  cases readArgs fuel n _ _ <;> rfl

/-- `argv` receives the contents of the words. -/
theorem readArgs_words (rest : List (Nat × Word)) (holds : Holds m tmp (spaces gap ++ (w.source ++ following rest trail)))
    (ended : m (tmp + (spaces gap ++ (w.source ++ following rest trail)).length) = nul)
    (enough : (spaces gap ++ (w.source ++ following rest trail)).length < fuel) :
    ∃ m', readArgs fuel (rest.length + 1) m tmp = some (w.content :: rest.map (·.2.content), m') := by
  induction rest generalizing gap w m tmp with
  | nil => exact ⟨_, readArgs_word 0 holds ended enough fun _ _ _ => following_apart []⟩
  | cons next rest ih =>
    obtain ⟨gap', next⟩ := next
    have step := readArgs_word (rest.length + 1) holds ended enough fun _ _ _ => following_apart ((gap', next) :: rest)
    obtain ⟨c, gap'', left⟩ := w.next_gap next gap' (following rest trail)
    -- what stands behind the cut, which is the character `c`
    have split : spaces gap ++ (w.source ++ following ((gap', next) :: rest) trail) =
        spaces gap ++ (w.marks ++ (w.content ++ c :: (spaces gap'' ++ (next.source ++ following rest trail)))) := by
      rw [w.source_append, ← left, following, List.append_assoc]
    rw [split] at holds ended enough
    obtain ⟨-, holds⟩ := holds_append.mp holds
    obtain ⟨-, holds⟩ := holds_append.mp holds
    obtain ⟨-, -, holds⟩ := holds_append.mp holds
    rw [List.length_append, List.length_append, List.length_append, List.length_cons, length_spaces] at ended enough
    rw [length_spaces] at holds
    generalize place : tmp + (gap + w.marks.length + w.content.length : Nat) = cut at step
    rw [show tmp + gap + w.marks.length + w.content.length + 1 = cut + 1 by omega] at holds
    obtain ⟨m', read⟩ := ih (holds.put_outside (x := cut) (c := nul) (.inl (by omega))) (by
      rw [put_of_ne (by omega), ← ended]
      congr 1
      omega) (by omega)
    rw [List.length_cons, step, read]
    exact ⟨m', rfl⟩

end Eecs343.TinyShell.Interpreter
