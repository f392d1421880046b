import Eecs343.TinyShell.Interpreter.Lines

namespace Eecs343.TinyShell.Interpreter

open Bytes

variable {m : Memory} {c st tmp : Int} {fuel gap trail i sz : Nat} {w : Word} {tail l : Text} {q : Quotes}
    {mark : Mark} {k : Count}
  {rest : List (Nat × Word)}

theorem Mark.next_open (mark : Mark) : Quotes.next ⟨false, false⟩ mark.char = mark.quotes := by
  cases mark <;> decide

theorem Mark.next_close (mark : Mark) : mark.quotes.next mark.char = ⟨false, false⟩ := by
  cases mark <;> decide

theorem Mark.next_inside (mark : Mark) {x : BitVec 8} (other : x ≠ mark.char) : mark.quotes.next x = mark.quotes := by
  cases mark <;> simp_all [Mark.char, Mark.quotes, Quotes.next]

theorem Mark.inside (mark : Mark) : mark.quotes.outside = false := by
  cases mark <;> rfl

theorem Mark.solid (mark : Mark) : mark.char ≠ less ∧ mark.char ≠ greater ∧ mark.char ≠ space ∧ mark.char ≠ bar := by
  cases mark <;> decide

theorem Ordinary.next {x : BitVec 8} (ordinary : Ordinary x) (q : Quotes) : q.next x = q := by
  obtain ⟨-, -, notSingle, notDouble, -⟩ := ordinary
  simp [Quotes.next, notSingle, notDouble]

theorem countFrom_word (w : Word) (holds : Holds m (c + i) w.source) (inside : i + w.source.length ≤ sz)
    (out : k.quotes = ⟨false, false⟩) :
    countFrom m c sz i k = countFrom m c sz (i + w.source.length) k := by
  cases w with
  | plain content some ordinary =>
    have source : (Word.plain content some ordinary).source = content := List.append_nil content
    rw [source] at holds inside ⊢
    apply countFrom_steady holds inside
    intro x member
    obtain ⟨-, notSpace, -, -, notLess, notGreater, -⟩ := ordinary x member
    refine ⟨(ordinary x member).next _, ?_⟩
    rintro ⟨redirect, -⟩
    rcases redirect with h | h | h
    · exact notLess h
    · exact notGreater h
    · exact notSpace h
  | quoted mark content free =>
    have source : (Word.quoted mark content free).source = mark.char :: (content ++ [mark.char]) := rfl
    rw [source] at holds inside ⊢
    obtain ⟨opened, rest⟩ := holds
    obtain ⟨within, closed, -⟩ := holds_append.mp rest
    simp only [List.length_cons, List.length_append, List.length_nil] at inside ⊢
    have open_step : countStep m c sz i k = (i + 1, { k with quotes := mark.quotes }) := by
      rw [countStep_other, opened, out, mark.next_open]
      rw [opened, out, mark.next_open, mark.inside]
      exact fun h => absurd h.2 Bool.false_ne_true
    have next : c + i + 1 = c + (i + 1 : Nat) := by omega
    have there : c + (i + 1 : Nat) + content.length = c + (i + 1 + content.length : Nat) := by omega
    rw [next] at within closed
    rw [there] at closed
    have close_step : countStep m c sz (i + 1 + content.length) { k with quotes := mark.quotes } =
        (i + 1 + content.length + 1, k) := by
      obtain ⟨notLess, notGreater, notSpace, -⟩ := mark.solid
      rw [countStep_other, closed, mark.next_close, ← out]
      rw [closed]
      rintro ⟨redirect, -⟩
      rcases redirect with h | h | h
      · exact notLess h
      · exact notGreater h
      · exact notSpace h
    rw [countFrom_step (by omega), open_step, countFrom_steady (k := { k with quotes := mark.quotes }) within (by omega),
      countFrom_step (by omega), close_step]
    · exact congrArg (countFrom m c sz · k) (by omega)
    · intro x member
      refine ⟨mark.next_inside (free x member).2.1, ?_⟩
      change ¬ (_ ∧ mark.quotes.outside = true)
      rw [mark.inside]
      exact fun h => absurd h.2 Bool.false_ne_true

theorem Word.source_cons (w : Word) : ∃ x l, w.source = x :: l ∧ x ≠ space := by
  cases w with
  | plain content some ordinary =>
    cases content with
    | nil => exact absurd rfl some
    | cons x content => exact ⟨x, _, rfl, (ordinary x List.mem_cons_self).2.1⟩
  | quoted mark content free => exact ⟨mark.char, _, rfl, mark.solid.2.2.1⟩

theorem Word.source_concat (w : Word) : ∃ x l, w.source = l ++ [x] ∧ x ≠ space ∧ x ≠ ampersand := by
  cases w with
  | plain content some ordinary =>
    obtain ⟨-, notSpace, -, -, -, -, -, notAmpersand⟩ := ordinary _ (List.getLast_mem some)
    refine ⟨content.getLast some, content.dropLast, ?_, notSpace, notAmpersand⟩
    rw [List.dropLast_concat_getLast]
    exact List.append_nil content
  | quoted mark content free =>
    refine ⟨mark.char, mark.char :: content, rfl, mark.solid.2.2.1, ?_⟩
    cases mark <;> decide

theorem countFrom_following (rest : List (Nat × Word)) (holds : Holds m (c + i) (following rest trail))
    (whole : i + (following rest trail).length = sz)
    (out : k.quotes = ⟨false, false⟩) (words : k.cmdLength = sz) :
    countFrom m c sz i k = { k with taskArgc := k.taskArgc + rest.length + if trail = 0 then 0 else 1 } := by
  induction rest generalizing i k with
  | nil =>
    cases trail with
    | zero => exact (congrArg (countFrom m c sz · k) whole).trans countFrom_end
    | succ trail =>
      rw [following, length_spaces] at whole
      rw [countFrom_spaces holds (by omega) (.inl whole) out words, show i + trail + 1 = sz from whole, countFrom_end]
      rfl
  | cons next rest ih =>
    obtain ⟨gap, next⟩ := next
    obtain ⟨x, l, first, solid⟩ := next.source_cons
    rw [following, List.append_assoc] at holds whole
    obtain ⟨before, holds⟩ := holds_append.mp holds
    obtain ⟨word, after⟩ := holds_append.mp holds
    rw [List.length_append, List.length_append, length_spaces] at whole
    rw [length_spaces, show c + i + (gap + 1 : Nat) = c + (i + gap + 1 : Nat) by omega] at word after
    rw [Int.add_assoc, ← Nat.cast_add] at after
    have here : m (c + (i + gap + 1 : Nat)) ≠ space := by
      rw [first] at word
      exact word.1.trans_ne solid
    rw [countFrom_spaces before (by omega) (.inr here) out words,
      countFrom_word (k := { k with taskArgc := k.taskArgc + 1 }) next word (by omega) out,
      ih (k := { k with taskArgc := k.taskArgc + 1 }) after (by omega) out words]
    simp only [List.length_cons]
    congr 1
    omega

theorem following_trail (rest : List (Nat × Word)) (trail : Nat) :
    following rest trail = following rest 0 ++ spaces trail := by
  induction rest with
  | nil => rfl
  | cons next rest ih =>
    obtain ⟨gap, next⟩ := next
    rw [following, ih, following, List.append_assoc _ (following rest 0)]

theorem words_concat (w : Word) (rest : List (Nat × Word)) :
    ∃ x l, w.source ++ following rest 0 = l ++ [x] ∧ x ≠ space ∧ x ≠ ampersand := by
  induction rest generalizing w with
  | nil =>
    obtain ⟨x, l, last, solid⟩ := w.source_concat
    exact ⟨x, l, by rw [last]; exact List.append_nil _, solid⟩
  | cons next rest ih =>
    obtain ⟨gap, next⟩ := next
    obtain ⟨x, l, last, solid⟩ := ih next
    refine ⟨x, w.source ++ (spaces (gap + 1) ++ l), ?_, solid⟩
    rw [following, List.append_assoc, last]
    simp

theorem Line.command_concat (line : Line) :
    ∃ x l, line.command = l ++ [x] ++ spaces line.trail ∧ x ≠ space ∧ x ≠ ampersand := by
  obtain ⟨x, l, last, solid⟩ := words_concat line.first line.rest
  refine ⟨x, l, ?_, solid⟩
  rw [Line.command, following_trail, ← List.append_assoc, last]

theorem holds_concat {x : BitVec 8} (holds : Holds m c (l ++ [x])) : m (c + l.length) = x :=
  (holds_append.mp holds).2.1

/-- `parser_single` counts the words of the line, and finds nothing to redirect. -/
theorem countArgs_command (line : Line) (holds : Holds m c line.command) :
    countArgs m c line.command.length = ⟨line.command.length, line.words.length, ⟨false, false⟩, none, none⟩ := by
  have counted : countFrom m c line.command.length 0 ⟨line.command.length, 0, ⟨false, false⟩, none, none⟩ =
      ⟨line.command.length, line.rest.length + if line.trail = 0 then 0 else 1, ⟨false, false⟩, none, none⟩ := by
    obtain ⟨first, rest⟩ := holds_append.mp holds
    have length : line.command.length = line.first.source.length + (following line.rest line.trail).length := List.length_append
    rw [countFrom_word line.first (by simpa using first) (by omega) rfl, Nat.zero_add,
      countFrom_following line.rest rest length.symm rfl rfl, Nat.zero_add]
  obtain ⟨x, l, last, solid, -⟩ := line.command_concat
  have length : line.words.length = line.rest.length + 1 := by simp [Line.words]
  rw [countFrom, Nat.sub_zero] at counted
  rw [countArgs, counted]
  by_cases none : line.trail = 0
  · rw [none, spaces, List.replicate_zero, List.append_nil] at last
    rw [last] at holds ⊢
    have ends : m (c + (l ++ [x]).length - 1) ≠ space := by
      rw [List.length_append, List.length_singleton, show c + (l.length + 1 : Nat) - 1 = c + l.length by omega, holds_concat holds]
      exact solid
    rw [if_pos ends, if_pos none, length]
    rfl
  · obtain ⟨trail, more⟩ := Nat.exists_eq_add_one_of_ne_zero none
    rw [more, spaces, List.replicate_succ', ← List.append_assoc] at last
    rw [last] at holds ⊢
    have ends : m (c + (l ++ [x] ++ List.replicate trail space ++ [space]).length - 1) = space := by
      rw [List.length_append, List.length_singleton,
        show ∀ n : Nat, c + (n + 1 : Nat) - 1 = c + n by intro n; omega, holds_concat holds]
    rw [if_neg (not_not_intro ends), if_neg none, length]

theorem leading_spaces {n : Nat} (holds : Holds m c (spaces n ++ l)) (solid : ∀ x r, l = x :: r → x ≠ space) :
    leading m c (n + l.length) = n := by
  induction n generalizing c with
  | zero =>
    rw [Nat.zero_add]
    cases l with
    | nil => rfl
    | cons x r =>
      rw [List.length_cons, leading, if_neg]
      rw [holds.1]
      exact solid x r rfl
  | succ n ih =>
    obtain ⟨here, rest⟩ := holds
    rw [Nat.add_right_comm, leading, if_pos here, ih rest]

theorem Word.source_proper (w : Word) : nul ∉ w.source := by
  obtain ⟨content, marks⟩ := w.proper
  simp [Word.source, content, marks]

theorem following_proper (rest : List (Nat × Word)) (trail : Nat) : nul ∉ following rest trail := by
  induction rest with
  | nil => exact nul_not_mem_spaces trail
  | cons next rest ih =>
    simp only [following, List.mem_append, not_or]
    exact ⟨⟨nul_not_mem_spaces _, next.2.source_proper⟩, ih⟩

theorem Line.command_proper (line : Line) : nul ∉ line.command := by
  simp only [Line.command, List.mem_append, not_or]
  exact ⟨line.first.source_proper, following_proper _ _⟩

theorem parserSingle_words (line : Line) (bg : Bool) (holds : Holds m c (spaces line.lead ++ line.command))
    (enough : line.lead + line.command.length < fuel) :
    ∃ m', parserSingle fuel m c (line.lead + line.command.length) bg =
      some (⟨line.command, none, none, bg, line.words.length, line.words.map Word.content⟩, m') := by
  have cut := holds.put_outside (x := c + (line.lead + line.command.length : Nat)) (c := nul) (.inr (by simp))
  have last : put m (c + (line.lead + line.command.length : Nat)) nul (c + (line.lead + line.command.length : Nat)) = nul := put_at
  rw [parserSingle]
  generalize put m (c + (line.lead + line.command.length : Nat)) nul = m₁ at cut last
  have skipped : leading m₁ c (line.lead + line.command.length) = line.lead := by
    apply leading_spaces cut
    intro x r same
    obtain ⟨y, l, first, solid⟩ := line.first.source_cons
    rw [Line.command, first, List.cons_append] at same
    cases same
    exact solid
  have command : Holds m₁ (c + line.lead) line.command := by simpa using (holds_append.mp cut).2
  rw [Nat.cast_add, ← Int.add_assoc] at last
  have copied : text m₁ fuel (c + line.lead) = some line.command :=
    text_of_string ⟨command, last, line.command_proper⟩ (by omega)
  have unspaced : Holds m₁ (c + line.lead) (spaces 0 ++ (line.first.source ++ following line.rest line.trail)) := command
  obtain ⟨m', args⟩ := readArgs_words line.rest unspaced last (by change line.command.length < fuel; omega)
  have length : line.words.length = line.rest.length + 1 := by simp [Line.words]
  have words : line.first.content :: line.rest.map (·.2.content) = line.words.map Word.content := by
    simp [Line.words]
  rw [words] at args
  refine ⟨m', ?_⟩
  dsimp only
  rw [skipped, Nat.add_sub_cancel_left, countArgs_command line command, copied]
  simp only [Option.bind_eq_bind, Option.bind_some, length, args, readTarget]
  rfl

theorem passes_spaces (n : Nat) : Passes ⟨false, false⟩ (spaces n) ⟨false, false⟩ := by
  apply Passes.of_steady
  intro x member
  rw [List.eq_of_mem_replicate member]
  decide

theorem Word.passes (w : Word) : Passes ⟨false, false⟩ w.source ⟨false, false⟩ := by
  cases w with
  | plain content some ordinary =>
    have source : (Word.plain content some ordinary).source = content := List.append_nil content
    rw [source]
    apply Passes.of_steady
    intro x member
    obtain ⟨-, -, -, -, -, -, notBar, -⟩ := ordinary x member
    exact ⟨(ordinary x member).next _, fun separates => notBar separates.1⟩
  | quoted mark content free =>
    have notBar := mark.solid.2.2.2
    have within : Passes mark.quotes content mark.quotes := by
      apply Passes.of_steady
      intro x member
      rw [mark.inside]
      exact ⟨mark.next_inside (free x member).2.1, fun separates => Bool.false_ne_true separates.2⟩
    have closed : Passes mark.quotes [mark.char] ⟨false, false⟩ := by
      rw [← mark.next_close]
      exact .cons (fun separates => notBar separates.1) .nil
    apply Passes.cons (fun separates => notBar separates.1)
    rw [mark.next_open]
    exact within.append closed

theorem following_passes (rest : List (Nat × Word)) (trail : Nat) :
    Passes ⟨false, false⟩ (following rest trail) ⟨false, false⟩ := by
  induction rest with
  | nil => exact passes_spaces trail
  | cons next rest ih => exact ((passes_spaces _).append next.2.passes).append ih

theorem Line.passes (line : Line) : Passes ⟨false, false⟩ (spaces line.lead ++ line.command) ⟨false, false⟩ :=
  (passes_spaces _).append (line.first.passes.append (following_passes _ _))

theorem parseTasks_words (line : Line) (bg : Bool) (holds : Holds m c (spaces line.lead ++ line.command))
    (enough : line.lead + line.command.length < fuel) :
    parseTasks fuel c bg (spaces line.lead ++ line.command).length m 0 0 ⟨false, false⟩ =
      some [⟨line.command, none, none, bg, line.words.length, line.words.map Word.content⟩] := by
  obtain ⟨m', parsed⟩ := parserSingle_words line bg holds enough
  have length : (spaces line.lead ++ line.command).length = line.lead + line.command.length := by simp
  rw [← Nat.add_zero (spaces line.lead ++ line.command).length, parseTasks_append (by simpa using holds) line.passes, parseTasks,
    length, Int.add_sub_cancel, Nat.zero_add, parsed]
  rfl

/-- Without a final `&` the whole line is one command. -/
theorem interpret_foreground (line : Line) (string : IsString m c (spaces line.lead ++ line.command))
    (enough : line.lead + line.command.length < fuel) : interpret fuel m c = some (.runCmd 1
      [⟨line.command, none, none, false, line.words.length, line.words.map Word.content⟩]) := by
  obtain ⟨x, l, last, notSpace, notAmpersand⟩ := line.command_concat
  have length : (spaces line.lead ++ line.command).length = (spaces line.lead ++ l).length + 1 + line.trail := by
    simp [last, Nat.add_assoc, Nat.add_comm 1]
  have holds : Holds m c (spaces line.lead ++ l ++ [x] ++ List.replicate line.trail space) := by
    simpa [last, spaces] using string.holds
  have trimmed : trim m c (spaces line.lead ++ line.command).length = (spaces line.lead ++ l).length := by
    rw [length]
    exact trim_spaces holds notSpace
  have final : m (c + (spaces line.lead ++ l).length) = x := holds_concat (holds_append.mp holds).1
  rw [interpret, if_neg (string.typed (by rw [last]; simp)), text_of_string string (by simpa using enough)]
  simp only [Option.bind_eq_bind, Option.bind_some, trimmed, final, if_neg notAmpersand,
    parseTasks_words line false string.holds enough]
  rw [countTasks_add, line.passes.quiet]
  rfl

/-- A final `&` is cut off, and what stands before it is one command. -/
theorem interpret_background (line : Line) (after : Nat)
    (string : IsString m c (spaces line.lead ++ line.command ++ ampersand :: spaces after))
    (enough : line.lead + line.command.length + 1 + after < fuel) : interpret fuel m c = some (.runCmd 1
      [⟨line.command, none, none, true, line.words.length, line.words.map Word.content⟩]) := by
  have length : (spaces line.lead ++ line.command).length = line.lead + line.command.length := by simp
  have copied : text m fuel c = _ := text_of_string string (by simp; omega)
  have split : spaces line.lead ++ line.command ++ ampersand :: spaces after =
      spaces line.lead ++ line.command ++ [ampersand] ++ List.replicate after space := by simp [spaces]
  have holds := split ▸ string.holds
  obtain ⟨kept, -⟩ := holds_append.mp string.holds
  have trimmed : trim m c (spaces line.lead ++ line.command ++ ampersand :: spaces after).length =
      (line.lead + line.command.length : Nat) := by
    rw [← length, ← trim_spaces holds (by decide), split]
    simp [Nat.add_assoc, Nat.add_comm 1]
  have final : m (c + (line.lead + line.command.length : Nat)) = ampersand := by
    rw [← length]
    exact holds_concat (holds_append.mp holds).1
  obtain ⟨x, l, last, -, -⟩ := line.command_concat
  have more : ((line.lead + line.command.length : Nat) : Int) ≠ 0 := by
    rw [last]
    simp
    omega
  -- the line as it is after the cut
  have cut : IsString (put m (c + (line.lead + line.command.length : Nat)) nul) c (spaces line.lead ++ line.command) := by
    refine ⟨kept.put_outside (.inr (by omega)), by rw [length]; exact put_at, fun member => string.proper ?_⟩
    exact List.mem_append_left _ member
  have recopied : text _ fuel c = _ := text_of_string cut (by omega)
  have parsed : parseTasks fuel _ _ _ _ _ _ _ = _ := parseTasks_words line true cut.holds (by omega)
  rw [interpret, if_neg (string.typed (by simp)), copied]
  simp only [Option.bind_eq_bind, Option.bind_some, trimmed, final, ↓reduceIte, if_neg more, recopied, parsed]
  rw [countTasks_add, countTasks_append, line.passes.flags, line.passes.quiet]
  have quiet : countTasks (ampersand :: spaces after) ⟨false, false⟩ 0 = 0 := (passes_spaces after).quiet
  rw [quiet]
  rfl

/-- `Interpret` gives back the words a line was written with. -/
theorem words_round_trip (line : Line) (string : IsString m c line.text) (enough : line.text.length < fuel) :
    interpret fuel m c = some (.runCmd 1
      [⟨line.command, none, none, line.background.isSome, line.words.length, line.words.map Word.content⟩]) := by
  rw [Line.text, Line.ending] at string enough
  cases background : line.background with
  | none =>
    simp only [background, List.append_nil] at string enough
    exact interpret_foreground line string (by simpa using enough)
  | some after =>
    simp only [background] at string enough
    exact interpret_background line after string (by simp at enough; omega)

/-- The line `a '|' &`. -/
def twoWords : Line :=
  ⟨0, .plain [97#8] (by decide) (by decide), [(0, .quoted .single [bar] (by decide))], 1, some 0⟩

theorem words_round_trip_two_words : interpret 100 (written twoWords.text) 0 =
    some (.runCmd 1 [⟨twoWords.command, none, none, true, 2, [[97#8], [bar]]⟩]) :=
  words_round_trip twoWords (written_string (by decide)) (by decide)

end Eecs343.TinyShell.Interpreter
