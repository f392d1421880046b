import Mathlib.Data.List.Forall2
import Eecs343.TinyShell.Interpreter.Lines
import Eecs343.TinyShell.Interpreter.Inside

namespace Eecs343.TinyShell.Interpreter

open Bytes

abbrev letter : BitVec 8 := 120#8

/-- `l` with a letter for every `<` and `>` inside quotes. -/
def shield : Quotes → Text → Text
  | _, [] => []
  | q, x :: l => (if (x = less ∨ x = greater) ∧ (q.next x).outside = false then letter else x) :: shield (q.next x) l

/-- A `sign` stands outside quotes. -/
def Unquoted (sign : BitVec 8) : Quotes → Text → Prop
  | _, [] => False
  | q, x :: l => x = sign ∧ (q.next x).outside ∨ Unquoted sign (q.next x) l

/-- The first `n` words of `l`, as far as they reach in `s`. -/
def arguments : (n : Nat) → (l s : Text) → List Text
  | 0, _, _ => []
  | n + 1, l, s =>
    match param s with
    | none => []
    | some (skipped, length) =>
      (l.drop skipped).take length :: arguments n (l.drop (skipped + length + 1)) (s.drop (skipped + length + 1))

/-- What stands in the first word of `s` behind its first character, which may be a quote. -/
def inner (s l : Text) : Text :=
  match param s with
  | none => []
  | some (skipped, length) => (l.take (skipped + length)).drop ((s.takeWhile blank).length + 1)

/-- In the first `n` words no character behind the first one of a word is shielded. -/
def Spared : (n : Nat) → (l s : Text) → Prop
  | 0, _, _ => True
  | n + 1, l, s =>
    match param s with
    | none => True
    | some (skipped, length) =>
      inner s l = inner s s ∧ Spared n (l.drop (skipped + length + 1)) (s.drop (skipped + length + 1))

instance Spared.decidable : ∀ n l s, Decidable (Spared n l s)
  | 0, _, _ => isTrue trivial
  | n + 1, l, s =>
    match found : param s with
    | none => isTrue (by rw [Spared, found]; trivial)
    | some (skipped, length) =>
      have := decidable n (l.drop (skipped + length + 1)) (s.drop (skipped + length + 1))
      decidable_of_iff (inner s l = inner s s ∧ Spared n (l.drop (skipped + length + 1)) (s.drop (skipped + length + 1)))
        (by rw [Spared, found])

/-- The number of words that `parser_single` counts. -/
def argc (m : Memory) (c : Int) (sz : Nat) : Nat :=
  (countArgs m (c + leading m c sz) (sz - leading m c sz)).taskArgc

variable {m m' : Memory} {c tmp : Int} {fuel sz i n gap : Nat} {l s r : Text} {q : Quotes} {k : Count} {bg : Bool}
    {x y sign : BitVec 8}

/-- One character stands for another: itself, or a letter for a sign. -/
def Alike (x y : BitVec 8) : Prop := x = y ∨ (x = less ∨ x = greater) ∧ y = letter

theorem shield_alike (q : Quotes) (l : Text) : List.Forall₂ Alike l (shield q l) := by
  induction l generalizing q with
  | nil => exact .nil
  | cons x l ih =>
    refine .cons ?_ (ih _)
    split
    · rename_i signs
      exact .inr ⟨signs.1, rfl⟩
    · exact .inl rfl

theorem Alike.blank (alike : Alike x y) : blank x = blank y := by
  rcases alike with rfl | ⟨rfl | rfl, rfl⟩
  · rfl
  · decide
  · decide

theorem Alike.quote (alike : Alike x y) : (x = doubleQuote ↔ y = doubleQuote) ∧ (x = singleQuote ↔ y = singleQuote) := by
  rcases alike with rfl | ⟨rfl | rfl, rfl⟩ <;> decide +revert

theorem takeWhile_alike (alike : List.Forall₂ Alike l s) : (l.takeWhile blank).length = (s.takeWhile blank).length ∧
    List.Forall₂ Alike (l.dropWhile blank) (s.dropWhile blank) := by
  induction alike with
  | nil => exact ⟨rfl, .nil⟩
  | @cons x y l s first rest ih =>
    rw [List.takeWhile_cons, List.takeWhile_cons, List.dropWhile_cons, List.dropWhile_cons, first.blank]
    by_cases blank : blank y = true
    · simpa only [if_pos blank, List.length_cons, Nat.add_right_cancel_iff] using ih
    · simpa only [if_neg blank] using ⟨trivial, .cons first rest⟩

theorem stops_letter (q : Quotes) : stops q letter = false := by
  obtain ⟨quot1, quot2⟩ := q
  cases quot1 <;> cases quot2 <;> decide

theorem stops_sign (q : Quotes) (signs : x = less ∨ x = greater) : stops q x = true := by
  rcases signs with rfl | rfl <;> simp [stops]

/-- A sign ends a word at once, the letter in its place does not. -/
theorem reach_alike (q : Quotes) (alike : List.Forall₂ Alike l s) :
    reach q l ≤ reach q s ∧ (reach q l = reach q s ↔ l.take (reach q s) = s.take (reach q s)) := by
  induction alike with
  | nil => simp
  | @cons x y l s first rest ih =>
    rcases first with rfl | ⟨signs, rfl⟩
    · cases stop : stops q x with
      | true => simp [reach_stop stop]
      | false => simpa [reach_cons stop] using ih
    · have apart : x ≠ letter := by rcases signs with rfl | rfl <;> decide
      simp [reach_stop (stops_sign q signs), reach_cons (stops_letter q), apart]

/-- A word in `l` starts where it does in `s`, and is as long exactly if nothing in it is shielded. -/
theorem param_alike (alike : List.Forall₂ Alike l s) : match param s with
    | none => param l = none
    | some (skipped, length) => ∃ length', param l = some (skipped, length') ∧ length' ≤ length ∧
        (length' = length ↔ inner s l = inner s s) := by
  obtain ⟨skipped, rest⟩ := takeWhile_alike alike
  have left := drop_blanks l
  have right := drop_blanks s
  unfold inner
  rw [param_cons s, param_cons l]
  rw [skipped] at left ⊢
  generalize (s.takeWhile blank).length = blanks at *
  generalize l.dropWhile blank = l₁ at *
  generalize s.dropWhile blank = s₁ at *
  cases rest with
  | nil => rfl
  | @cons x y r t first rest =>
    have inside : ∀ n, (l.take (blanks + 1 + n)).drop (blanks + 1) = r.take n ∧
      (s.take (blanks + 1 + n)).drop (blanks + 1) = t.take n := by
      intro n
      rw [List.drop_take, List.drop_take, Nat.add_sub_cancel_left, ← List.drop_drop, ← List.drop_drop, left, right]
      exact ⟨rfl, rfl⟩
    dsimp only
    simp only [first.quote]
    by_cases double : y = doubleQuote
    · simp only [if_pos double, inside]
      exact ⟨_, rfl, reach_alike _ rest⟩
    · by_cases single : y = singleQuote
      · simp only [if_neg double, if_pos single, inside]
        exact ⟨_, rfl, reach_alike _ rest⟩
      · simp only [if_neg double, if_neg single]
        obtain ⟨shorter, same⟩ := reach_alike ⟨false, false⟩ rest
        refine ⟨_, rfl, Nat.succ_le_succ shorter, ?_⟩
        rw [show blanks + (reach ⟨false, false⟩ t + 1) = blanks + 1 + reach ⟨false, false⟩ t by omega,
          (inside _).1, (inside _).2,
          Nat.add_right_cancel_iff, same]

theorem arguments_succ (n : Nat) (l s : Text) : arguments (n + 1) l s = match param s with
    | none => []
    | some (skipped, length) =>
      (l.drop skipped).take length :: arguments n (l.drop (skipped + length + 1)) (s.drop (skipped + length + 1)) := rfl

theorem arguments_iff {args : List Text} (alike : List.Forall₂ Alike l s) (read : arguments n l l <+: args) :
    arguments n l s <+: args ↔ Spared n l s := by
  induction n generalizing l s args with
  | zero => exact iff_of_true List.nil_prefix trivial
  | succ n ih =>
    have words := param_alike alike
    rw [arguments_succ] at read ⊢
    unfold Spared
    cases found : param s with
    | none => exact iff_of_true List.nil_prefix trivial
    | some word =>
      obtain ⟨skipped, length⟩ := word
      rw [found] at words
      obtain ⟨length', found', shorter, same⟩ := words
      rw [found'] at read
      obtain ⟨args, rfl⟩ : ∃ rest, args = (l.drop skipped).take length' :: rest := by
        obtain ⟨rest, rfl⟩ := read
        exact ⟨_, rfl⟩
      have bound := param_le found
      have equal := alike.length_eq
      dsimp only at read ⊢
      rw [List.cons_prefix_cons] at read ⊢
      rw [← same]
      constructor
      · rintro ⟨first, rest⟩
        have lengths := congrArg List.length first
        rw [List.length_take, List.length_take, List.length_drop] at lengths
        have whole : length' = length := by omega
        subst whole
        exact ⟨rfl, (ih (List.forall₂_drop _ alike) read.2).mp rest⟩
      · rintro ⟨rfl, rest⟩
        exact ⟨rfl, (ih (List.forall₂_drop _ alike) read.2).mpr rest⟩

/-- `argv` has the words of the text as `single_param` cuts them, and more if it passes the end. -/
theorem readArgs_arguments {args : List Text} (holds : Holds m tmp l) (ended : l ≠ [] → m (tmp + l.length) = nul)
    (enough : l.length < fuel) (proper : nul ∉ l) (ran : readArgs fuel n m tmp = some (args, m')) :
    arguments n l l <+: args := by
  induction n generalizing m tmp l args with
  | zero => exact List.nil_prefix
  | succ n ih =>
    rw [arguments_succ]
    cases found : param l with
    | none => exact List.nil_prefix
    | some word =>
      obtain ⟨skipped, length⟩ := word
      have some : l ≠ [] := by
        rintro rfl
        cases found
      have bound := param_le found
      rw [readArgs_succ, singleParam_spec holds (ended some) enough found, Option.bind_some] at ran
      obtain ⟨arg, read, ran⟩ := Option.bind_eq_some_iff.mp ran
      obtain ⟨passed, walked, ran⟩ := Option.bind_eq_some_iff.mp ran
      obtain ⟨⟨rest, m₂⟩, later, same⟩ := Option.bind_eq_some_iff.mp ran
      cases same
      dsimp only at read walked later ⊢
      have whole : IsString (put m (tmp + skipped + length) nul) tmp (l.take (skipped + length)) := by
        have cut := IsString.of_cut holds bound fun member => proper (List.mem_of_mem_take member)
        rwa [Nat.cast_add, ← Int.add_assoc] at cut
      have word : IsString (put m (tmp + skipped + length) nul) (tmp + skipped) ((l.drop skipped).take length) := by
        have string := word_string (i := 0) holds found (Nat.zero_le _)
        rwa [Nat.cast_zero, Int.add_zero, Nat.zero_add, Nat.cast_add, ← Int.add_assoc] at string
      have reached : passed.length = skipped + length := by
        rw [(string_of_text walked).unique whole, List.length_take_of_le bound]
      rw [(string_of_text read).unique word, List.cons_prefix_cons]
      refine ⟨rfl, ih ?_ ?_ ?_ ?_ later⟩
      · rw [reached, Int.add_assoc, ← Nat.cast_add, Int.add_assoc, show ((skipped + length : Nat) : Int) + 1 =
          (skipped + length + 1 : Nat) by omega]
        by_cases more : skipped + length + 1 ≤ l.length
        · exact (holds.drop more).put_outside (.inl (by omega))
        · rw [List.drop_eq_nil_of_le (by omega)]
          trivial
      · intro more
        have more : skipped + length + 1 < l.length := by
          by_contra past
          exact more (List.drop_eq_nil_of_le (by omega))
        rw [reached, List.length_drop, put_of_ne (by omega), ← ended some]
        congr 1
        omega
      · rw [List.length_drop]
        omega
      · exact fun member => proper (List.mem_of_mem_drop member)

theorem skipSpaces_split (fuel : Nat) (holds : Holds m (c + (i + 1 : Nat)) l) (whole : i + 1 + l.length = sz) :
    ∃ gap r, l = spaces gap ++ r ∧ skipSpaces m c sz fuel i = i + gap := by
  induction fuel generalizing i l with
  | zero => exact ⟨0, l, rfl, rfl⟩
  | succ fuel ih =>
    rw [skipSpaces]
    by_cases more : i + 1 < sz ∧ m (c + (i + 1 : Nat)) = space
    · rw [if_pos more]
      cases l with
      | nil =>
        rw [List.length_nil] at whole
        omega
      | cons x l =>
        obtain ⟨here, rest⟩ := holds
        rw [List.length_cons] at whole
        obtain ⟨gap, r, rfl, found⟩ := ih (i := i + 1) (l := l)
          (by rwa [Nat.cast_add (i + 1), Nat.cast_one, ← Int.add_assoc]) (by omega)
        refine ⟨gap + 1, r, ?_, by omega⟩
        rw [← here, more.2]
        rfl
    · rw [if_neg more]
      exact ⟨0, l, rfl, rfl⟩

/-- A step over `gap` spaces, that finds a source or a target if `input` or `out`. -/
structure Moves (t t' : Nat × Count) (gap : Nat) (input out : Prop) : Prop where
  place : t'.1 = t.1 + gap
  quotes : t'.2.quotes = t.2.quotes
  input : t'.2.input.isSome ↔ t.2.input.isSome ∨ input
  out : t'.2.out.isSome ↔ t.2.out.isSome ∨ out

theorem Moves.none {t : Nat × Count} {input out : Prop} (noInput : ¬ input) (noOut : ¬ out) : Moves t t 0 input out :=
  ⟨rfl, rfl, (or_iff_left noInput).symm, (or_iff_left noOut).symm⟩

section Steps

variable {t : Nat × Count} (holds : Holds m (c + (t.1 + 1 : Nat)) l) (whole : t.1 + 1 + l.length = sz)

include holds whole

theorem lessStep_moves : ∃ gap r, l = spaces gap ++ r ∧ (gap ≠ 0 → m (c + t.1) = less) ∧
    Moves t (lessStep m c sz t) gap (m (c + t.1) = less ∧ t.2.quotes.outside) False := by
  unfold lessStep
  by_cases here : m (c + t.1) = less ∧ t.2.quotes.outside
  · obtain ⟨gap, r, split, skipped⟩ := skipSpaces_split sz holds whole
    rw [if_pos here]
    exact ⟨gap, r, split, fun _ => here.1, skipped, rfl, iff_of_true rfl (.inr here), (or_iff_left id).symm⟩
  · rw [if_neg here]
    exact ⟨0, l, rfl, fun more => absurd rfl more, .none here id⟩

theorem greaterStep_moves : ∃ gap r, l = spaces gap ++ r ∧
    Moves t (greaterStep m c sz t) gap False (m (c + t.1) = greater ∧ t.2.quotes.outside) := by
  unfold greaterStep
  by_cases here : m (c + t.1) = greater ∧ t.2.quotes.outside
  · obtain ⟨gap, r, split, skipped⟩ := skipSpaces_split sz holds whole
    rw [if_pos here]
    exact ⟨gap, r, split, skipped, rfl, (or_iff_left id).symm, iff_of_true rfl (.inr here)⟩
  · rw [if_neg here]
    exact ⟨0, l, rfl, .none id here⟩

theorem spaceStep_moves : ∃ gap r, l = spaces gap ++ r ∧ Moves t (spaceStep m c sz t) gap False False := by
  unfold spaceStep
  by_cases here : m (c + t.1) = space ∧ t.2.quotes.outside
  · obtain ⟨gap, r, split, skipped⟩ := skipSpaces_split sz holds whole
    rw [if_pos here]
    exact ⟨gap, r, split, skipped, rfl, (or_iff_left id).symm, (or_iff_left id).symm⟩
  · rw [if_neg here]
    exact ⟨0, l, rfl, .none id id⟩

end Steps

/-- Behind a sign the loop stands at the sign or at a space. -/
theorem holds_spaces (holds : Holds m (c + i) (x :: (spaces gap ++ r))) :
    (m (c + (i + gap : Nat)) = if gap = 0 then x else space) ∧ Holds m (c + (i + gap + 1 : Nat)) r := by
  obtain ⟨here, rest⟩ := holds
  obtain ⟨between, behind⟩ := holds_append.mp rest
  rw [length_spaces, show c + (i : Int) + 1 + gap = c + (i + gap + 1 : Nat) by omega] at behind
  refine ⟨?_, behind⟩
  cases gap with
  | zero => exact here
  | succ gap =>
    rw [spaces, List.replicate_succ'] at between
    have last := (holds_append.mp between).2.1
    rwa [List.length_replicate, show c + (i : Int) + 1 + gap = c + (i + (gap + 1) : Nat) by omega] at last

theorem spaces_append (n k : Nat) : spaces n ++ spaces k = spaces (n + k) := List.replicate_append_replicate

/-- A pass of the loop in `parser_single` at a character `x` with `l` behind it. -/
theorem countStep_moves (holds : Holds m (c + i) (x :: l)) (whole : i + (x :: l).length = sz) :
    ∃ gap r, l = spaces gap ++ r ∧
    (countStep m c sz i k).1 = i + gap + 1 ∧ (countStep m c sz i k).2.quotes = k.quotes.next x ∧
    ((countStep m c sz i k).2.input.isSome ↔ k.input.isSome ∨ x = less ∧ (k.quotes.next x).outside) ∧
    ((countStep m c sz i k).2.out.isSome ↔ k.out.isSome ∨ x = greater ∧ (k.quotes.next x).outside) := by
  have here : m (c + i) = x := holds.1
  have rest : Holds m (c + (i + 1 : Nat)) l := by
    rw [show c + ((i + 1 : Nat) : Int) = c + i + 1 by omega]
    exact holds.2
  rw [List.length_cons, Nat.add_comm l.length, ← Nat.add_assoc] at whole
  obtain ⟨gap₁, r₁, rfl, isLess, first⟩ :=
    lessStep_moves (t := (i, { k with quotes := k.quotes.next (m (c + i)) })) rest whole
  obtain ⟨stands, behind⟩ := holds_spaces holds
  rw [List.length_append, length_spaces] at whole
  rw [countStep]
  dsimp only at isLess first ⊢
  generalize lessStep m c sz (i, { k with quotes := k.quotes.next (m (c + i)) }) = t₁ at *
  have place₁ : t₁.1 = i + gap₁ := first.place
  have whole₁ : t₁.1 + 1 + r₁.length = sz := by omega
  obtain ⟨gap₂, r₂, rfl, second⟩ := greaterStep_moves (m := m) (c := c) (by rwa [place₁]) whole₁
  rw [List.length_append, length_spaces] at whole
  -- the loop has moved on before it looks for `>` only if it has found `<`
  have signs : m (c + t₁.1) = greater ↔ x = greater := by
    rw [place₁, stands]
    by_cases still : gap₁ = 0
    · rw [if_pos still]
    · have sign : x = less := here.symm.trans (isLess still)
      rw [if_neg still, sign]
      decide
  have next : Holds m (c + (t₁.1 + gap₂ + 1 : Nat)) r₂ := by
    have later := (holds_append.mp behind).2
    rwa [length_spaces, show c + ((i + gap₁ + 1 : Nat) : Int) + gap₂ = c + (t₁.1 + gap₂ + 1 : Nat) by omega] at later
  generalize greaterStep m c sz t₁ = t₂ at *
  have place₂ : t₂.1 = t₁.1 + gap₂ := second.place
  have whole₂ : t₂.1 + 1 + r₂.length = sz := by omega
  obtain ⟨gap₃, r₃, rfl, third⟩ := spaceStep_moves (m := m) (c := c) (by rwa [place₂]) whole₂
  generalize spaceStep m c sz t₂ = t₃ at *
  have place₃ : t₃.1 = t₂.1 + gap₃ := third.place
  refine ⟨gap₁ + gap₂ + gap₃, r₃, by simp only [← spaces_append, List.append_assoc], by omega, ?_, ?_, ?_⟩
  · rw [third.quotes, second.quotes, first.quotes, here]
  · rw [third.input, second.input, first.input, here]
    simp
  · rw [third.out, second.out, first.out, first.quotes, here, signs]
    simp

theorem unquoted_spaces (gap : Nat) (solid : sign ≠ space) : Unquoted sign q (spaces gap ++ r) ↔ Unquoted sign q r := by
  induction gap with
  | zero => rfl
  | succ gap ih =>
    have flags : q.next space = q := Quotes.next_other (by decide) (by decide)
    change space = sign ∧ (q.next space).outside ∨ Unquoted sign (q.next space) (spaces gap ++ r) ↔ _
    rw [flags, ih]
    exact or_iff_right fun h => solid h.1.symm

theorem countFrom_signs (holds : Holds m (c + i) l) (whole : i + l.length = sz) :
    ((countFrom m c sz i k).input.isSome ↔ k.input.isSome ∨ Unquoted less k.quotes l) ∧
      ((countFrom m c sz i k).out.isSome ↔ k.out.isSome ∨ Unquoted greater k.quotes l) := by
  induction rest : l.length using Nat.strong_induction_on generalizing l i k with
  | _ n ih =>
    cases l with
    | nil =>
      obtain rfl : i = sz := whole
      rw [countFrom_end]
      simp [Unquoted]
    | cons x l =>
      obtain ⟨gap, r, rfl, place, quotes, input, out⟩ := countStep_moves (k := k) holds whole
      have behind := (holds_spaces holds).2
      simp only [List.length_cons, List.length_append, length_spaces] at whole rest
      have later := ih r.length (by omega) (k := (countStep m c sz i k).2) behind (by omega) rfl
      rw [countFrom_step (by omega), place, later.1, later.2, input, out, quotes]
      simp only [Unquoted, unquoted_spaces gap (show less ≠ space by decide),
        unquoted_spaces gap (show greater ≠ space by decide), or_assoc]
      exact ⟨trivial, trivial⟩

theorem skipSpaces_last : skipSpaces m c sz fuel i = i ∨ m (c + skipSpaces m c sz fuel i) = space := by
  induction fuel generalizing i with
  | zero => exact .inl rfl
  | succ fuel ih =>
    rw [skipSpaces]
    split
    · rename_i more
      right
      rcases ih (i := i + 1) with still | moved
      · rw [still]
        exact more.2
      · exact moved
    · exact .inl rfl

theorem shield_spaces (gap : Nat) : shield q (spaces gap ++ r) = spaces gap ++ shield q r := by
  induction gap with
  | zero => rfl
  | succ gap ih =>
    have flags : q.next space = q := Quotes.next_other (by decide) (by decide)
    have step : shield q (space :: (spaces gap ++ r)) = space :: shield (q.next space) (spaces gap ++ r) := by
      rw [shield, if_neg fun h => absurd h.1 (by decide)]
    rw [flags, ih] at step
    exact step

section Shielded

variable (spaced : ∀ p, c ≤ p → p < c + sz → (m' p = space ↔ m p = space))

include spaced

theorem skipSpaces_shielded : skipSpaces m' c sz fuel i = skipSpaces m c sz fuel i := by
  induction fuel generalizing i with
  | zero => rfl
  | succ fuel ih =>
    rw [skipSpaces, skipSpaces, ih]
    by_cases inside : i + 1 < sz
    · simp only [spaced (c + (i + 1 : Nat)) (by omega) (by omega)]
    · rw [if_neg (fun h => inside h.1), if_neg (fun h => inside h.1)]

theorem countStep_shielded (same : m' (c + i) = m (c + i)) (inside : i < sz) :
    countStep m' c sz i k = countStep m c sz i k := by
  have first : lessStep m' c sz (i, { k with quotes := k.quotes.next (m (c + i)) }) =
    lessStep m c sz (i, { k with quotes := k.quotes.next (m (c + i)) }) := by
    rw [lessStep, lessStep, skipSpaces_shielded spaced, same]
  have bound : (lessStep m c sz (i, { k with quotes := k.quotes.next (m (c + i)) })).1 < sz := lessStep_lt inside
  have here : (lessStep m c sz (i, { k with quotes := k.quotes.next (m (c + i)) })).1 = i ∨
      m (c + (lessStep m c sz (i, { k with quotes := k.quotes.next (m (c + i)) })).1) = space := by
    unfold lessStep
    split
    · exact skipSpaces_last
    · exact .inl rfl
  rw [countStep, countStep, same, first]
  generalize lessStep m c sz (i, { k with quotes := k.quotes.next (m (c + i)) }) = t at *
  have sign : m' (c + t.1) = greater ↔ m (c + t.1) = greater := by
    rcases here with still | moved
    · rw [still, same]
    · have moved' := (spaced (c + t.1) (by omega) (by omega)).mpr moved
      rw [moved, moved']
  have second : greaterStep m' c sz t = greaterStep m c sz t := by
    rw [greaterStep, greaterStep, skipSpaces_shielded spaced]
    simp only [sign]
  have bound : (greaterStep m c sz t).1 < sz := greaterStep_lt bound
  have third : spaceStep m' c sz (greaterStep m c sz t) = spaceStep m c sz (greaterStep m c sz t) := by
    rw [spaceStep, spaceStep, skipSpaces_shielded spaced]
    simp only [spaced (c + (greaterStep m c sz t).1) (by omega) (by omega)]
  rw [second, third]

theorem countFrom_shielded (holds : Holds m (c + i) l) (shielded : Holds m' (c + i) (shield k.quotes l))
    (whole : i + l.length = sz) :
    countFrom m' c sz i k = countFrom m c sz i k := by
  induction rest : l.length using Nat.strong_induction_on generalizing l i k with
  | _ n ih =>
    cases l with
    | nil =>
      obtain rfl : i = sz := whole
      rw [countFrom_end, countFrom_end]
    | cons x l =>
      rw [shield] at shielded
      simp only [List.length_cons] at whole rest
      by_cases hidden : (x = less ∨ x = greater) ∧ (k.quotes.next x).outside = false
      · rw [if_pos hidden] at shielded
        have flags : k.quotes.next x = k.quotes := by
          rcases hidden.1 with rfl | rfl <;> exact Quotes.next_other (by decide) (by decide)
        have flags' : k.quotes.next letter = k.quotes := Quotes.next_other (by decide) (by decide)
        have step : countStep m c sz i k = (i + 1, k) := by
          rw [countStep_other (by rw [holds.1, hidden.2]; simp), holds.1, flags]
        have step' : countStep m' c sz i k = (i + 1, k) := by
          rw [countStep_other fun h => absurd (shielded.1 ▸ h.1) (by decide), shielded.1, flags']
        have place : c + (i : Int) + 1 = c + (i + 1 : Nat) := by omega
        rw [countFrom_step (by omega), countFrom_step (m := m) (by omega), step, step']
        apply ih l.length (by omega) _ _ (by omega) rfl
        · rw [← place]
          exact holds.2
        · rw [← place, ← flags]
          exact shielded.2
      · rw [if_neg hidden] at shielded
        have same : m' (c + i) = m (c + i) := shielded.1.trans holds.1.symm
        obtain ⟨gap, r, rfl, place, quotes, -⟩ := countStep_moves (k := k) holds whole
        rw [shield_spaces] at shielded
        rw [List.length_append, length_spaces] at whole rest
        rw [countFrom_step (by omega), countFrom_step (m := m) (by omega), countStep_shielded spaced same (by omega), place]
        apply ih r.length (by omega) (holds_spaces holds).2 _ (by omega) rfl
        rw [quotes]
        exact (holds_spaces shielded).2

end Shielded

theorem holds_at {p : Int} (holds : Holds m p l) {i : Nat} (inside : i < l.length) : m (p + i) = l[i] := by
  have behind := holds.drop (Nat.le_of_lt inside)
  rw [List.drop_eq_getElem_cons inside] at behind
  exact behind.1

theorem shield_spaced {p : Int} (holds : Holds m p l) (shielded : Holds m' p (shield q l)) {x : Int} (low : p ≤ x)
    (high : x < p + l.length) :
    m' x = space ↔ m x = space := by
  have alike := shield_alike q l
  have equal := alike.length_eq
  obtain ⟨i, rfl⟩ : ∃ i : Nat, x = p + i := ⟨(x - p).toNat, by omega⟩
  have inside : i < l.length := by omega
  rw [holds_at holds inside, holds_at shielded (by omega)]
  have pair : Alike l[i] (shield q l)[i] := alike.get inside (by omega)
  rcases pair with same | ⟨signs, same⟩
  · rw [same]
  · rw [same]
    rcases signs with h | h
    · rw [h]
      decide
    · rw [h]
      decide

theorem leading_shielded (spaced : ∀ p, c ≤ p → p < c + sz → (m' p = space ↔ m p = space)) :
    leading m' c sz = leading m c sz := by
  induction sz generalizing c with
  | zero => rfl
  | succ sz ih =>
    have later : leading m' (c + 1) sz = leading m (c + 1) sz := ih fun p low high => spaced p (by omega) (by omega)
    simp only [leading, spaced c (by omega) (by omega), later]

theorem leading_split (holds : Holds m c l) : spaces (leading m c l.length) ++ l.drop (leading m c l.length) = l := by
  induction l generalizing c with
  | nil => rfl
  | cons x l ih =>
    obtain ⟨here, rest⟩ := holds
    rw [List.length_cons, leading]
    by_cases skipped : m c = space
    · rw [if_pos skipped, spaces, List.replicate_succ, List.cons_append, List.drop_succ_cons]
      exact congrArg₂ List.cons (skipped.symm.trans here) (ih rest)
    · rw [if_neg skipped]
      rfl

theorem unquoted_leading (holds : Holds m c l) (solid : sign ≠ space) :
    Unquoted sign q (l.drop (leading m c l.length)) ↔ Unquoted sign q l := by
  have all := unquoted_spaces (q := q) (r := l.drop (leading m c l.length)) (leading m c l.length) solid
  rw [leading_split holds] at all
  exact all.symm

theorem countArgs_eq (m : Memory) (c : Int) (sz : Nat) : countArgs m c sz =
    let k := countFrom m c sz 0 ⟨sz, 0, ⟨false, false⟩, none, none⟩
    if m (c + k.cmdLength - 1) ≠ space then { k with taskArgc := k.taskArgc + 1 } else k := rfl

/-- A sign inside quotes plays no part when the words are counted. -/
theorem argc_shielded (holds : Holds m c l) (shielded : Holds m' c (shield ⟨false, false⟩ l))
    (edge : m' (c - 1) = m (c - 1)) :
    argc m' c l.length = argc m c l.length := by
  have spaced : ∀ p, c ≤ p → p < c + l.length → (m' p = space ↔ m p = space) :=
    fun p low high => shield_spaced holds shielded low high
  have split := leading_split holds
  rw [argc, argc, leading_shielded spaced]
  generalize l.drop (leading m c l.length) = r at split
  generalize leading m c l.length = lead at split ⊢
  subst split
  rw [shield_spaces] at shielded
  have inner := (holds_append.mp holds).2
  have inner' := (holds_append.mp shielded).2
  rw [length_spaces] at inner inner'
  rw [List.length_append, length_spaces] at spaced ⊢
  rw [Nat.add_sub_cancel_left]
  have counted : countFrom m' (c + lead) r.length 0 ⟨r.length, 0, ⟨false, false⟩, none, none⟩ =
      countFrom m (c + lead) r.length 0 ⟨r.length, 0, ⟨false, false⟩, none, none⟩ := by
    apply countFrom_shielded
    · exact fun p low high => spaced p (by omega) (by omega)
    · simpa using inner
    · simpa using inner'
    · simp
  have placed : (countFrom m (c + lead) r.length 0 ⟨r.length, 0, ⟨false, false⟩, none, none⟩).Placed (c + lead) r.length :=
    countLoop_placed ⟨Nat.le_refl _, nofun, nofun⟩
  rw [countArgs_eq, countArgs_eq, counted]
  generalize countFrom m (c + lead) r.length 0 ⟨r.length, 0, ⟨false, false⟩, none, none⟩ = k at placed
  have bound := placed.cmdLength
  have last : m' (c + lead + k.cmdLength - 1) = space ↔ m (c + lead + k.cmdLength - 1) = space := by
    by_cases first : lead + k.cmdLength = 0
    · rw [show c + (lead : Int) + k.cmdLength - 1 = c - 1 by omega, edge]
    · exact spaced _ (by omega) (by omega)
  simp only [ne_eq, last]

theorem countArgs_signs (holds : Holds m c l) : ((countArgs m c l.length).input.isSome ↔ Unquoted less ⟨false, false⟩ l) ∧
    ((countArgs m c l.length).out.isSome ↔ Unquoted greater ⟨false, false⟩ l) := by
  have whole : 0 + l.length = l.length := Nat.zero_add _
  have found := countFrom_signs (k := ⟨l.length, 0, ⟨false, false⟩, none, none⟩) (by simpa using holds) whole
  simp only [Option.isSome_none, Bool.false_eq_true, false_or] at found
  rw [countArgs_eq]
  dsimp only
  split
  · exact found
  · exact found

theorem readTarget_isSome {target : Option Int} {name : Option Text} (ran : readTarget fuel m target = some (name, m')) :
    name.isSome = target.isSome := by
  cases target with
  | none =>
    cases ran
    rfl
  | some target =>
    rw [readTarget_some] at ran
    obtain ⟨⟨t, m₁⟩, -, ran⟩ := Option.bind_eq_some_iff.mp ran
    obtain ⟨copied, -, same⟩ := Option.bind_eq_some_iff.mp ran
    cases same
    rfl

/-- What quotes are for: a sign inside them starts no redirection, and neither ends nor shortens a word. Words behind
    the end of the command are left open. -/
structure Protected (m : Memory) (c : Int) (l : Text) (command : Command) : Prop where
  input : command.redirectIn.isSome ↔ Unquoted less ⟨false, false⟩ l
  out : command.redirectOut.isSome ↔ Unquoted greater ⟨false, false⟩ l
  argc : ∀ m', Holds m' c (shield ⟨false, false⟩ l) → m' (c - 1) = m (c - 1) → command.argc = argc m' c l.length
  argv : arguments command.argc (l.drop (leading m c l.length))
    ((shield ⟨false, false⟩ l).drop (leading m c l.length)) <+: command.argv

theorem parserSingle_made {command : Command} (ran : parserSingle fuel m c sz bg = some (command, m')) :
    let m₁ := put m (c + sz) nul
    let start := c + leading m c sz
    let k := countArgs m start (sz - leading m c sz)
    ∃ m₂ m₃, command.argc = argc m c sz ∧ readArgs fuel k.taskArgc m₁ start = some (command.argv, m₂) ∧
      readTarget fuel m₂ k.input = some (command.redirectIn, m₃) ∧
      readTarget fuel m₃ k.out = some (command.redirectOut, m') := by
  have same : ∀ x, c ≤ x → x < c + sz → put m (c + sz) nul x = m x := fun x low high => put_of_ne (by omega)
  have edge : put m (c + sz) nul (c - 1) = space ↔ m (c - 1) = space := by rw [put_of_ne (by omega)]
  have reads := parserSingle_reads ran
  dsimp only at reads
  rwa [leading_congr same, countArgs_inner_congr same edge] at reads

theorem protected_iff {command : Command} (holds : Holds m c l) (proper : nul ∉ l) (enough : l.length < fuel)
    (ran : parserSingle fuel m c l.length bg = some (command, m')) : Protected m c l command ↔
      Spared (argc m c l.length) (l.drop (leading m c l.length)) ((shield ⟨false, false⟩ l).drop (leading m c l.length)) := by
  obtain ⟨m₂, m₃, count, readArgs, readIn, readOut⟩ := parserSingle_made ran
  have shields : ∀ m', Holds m' c (shield ⟨false, false⟩ l) → m' (c - 1) = m (c - 1) → command.argc = argc m' c l.length :=
    fun m' shielded edge => count.trans (argc_shielded holds shielded edge).symm
  have last : put m (c + l.length) nul (c + l.length) = nul := put_at
  have cut := holds.put_outside (x := c + l.length) (c := nul) (.inr (Int.le_refl _))
  generalize put m (c + l.length) nul = m₁ at readArgs last cut
  have bound := leading_le m c l.length
  have alike := List.forall₂_drop (leading m c l.length) (shield_alike ⟨false, false⟩ l)
  have words : arguments (argc m c l.length) (l.drop (leading m c l.length))
    (l.drop (leading m c l.length)) <+: command.argv := by
    apply readArgs_arguments (cut.drop bound) _ _ (fun member => proper (List.mem_of_mem_drop member)) readArgs
    · intro _
      rw [List.length_drop, show c + (leading m c l.length : Int) + (l.length - leading m c l.length : Nat) =
        c + l.length by omega, last]
    · rw [List.length_drop]
      omega
  have spared := arguments_iff alike words
  have signs := countArgs_signs (holds.drop bound)
  rw [List.length_drop, unquoted_leading holds (by decide), unquoted_leading holds (by decide)] at signs
  constructor
  · intro protects
    have words := protects.argv
    rw [count] at words
    exact spared.mp words
  · intro spares
    have words := spared.mpr spares
    rw [← count] at words
    refine ⟨?_, ?_, shields, words⟩
    · rw [readTarget_isSome readIn]
      exact signs.1
    · rw [readTarget_isSome readOut]
      exact signs.2

/-- `parser_single` heeds the quotes of a command exactly if no word has a `<` or `>` inside quotes; and it returns if
    the command has as many words as are counted and a word for every target. -/
theorem quotes_heeded_iff (holds : Holds m c l) (proper : nul ∉ l) (enough : l.length < fuel) (bg : Bool) :
    (∀ command m', parserSingle fuel m c l.length bg = some (command, m') → (Protected m c l command ↔
      Spared (argc m c l.length) (l.drop (leading m c l.length)) ((shield ⟨false, false⟩ l).drop (leading m c l.length)))) ∧
    (Contained m c l.length → ∃ command m', parserSingle fuel m c l.length bg = some (command, m')) := by
  constructor
  · intro command m' ran
    exact protected_iff holds proper enough ran
  · intro contained
    obtain ⟨⟨command, m'⟩, ran⟩ := parserSingle_returns holds proper enough contained bg
    exact ⟨command, m', ran⟩

/-- The line `echo 'a b' x > f`. -/
def quotedLine : Text := [101, 99, 104, 111, 32, 39, 97, 32, 98, 39, 32, 120, 32, 62, 32, 102]

theorem quotes_heeded_quoted_line : ∃ command m',
    parserSingle 100 (written quotedLine) 0 quotedLine.length false = some (command, m') ∧
    Protected (written quotedLine) 0 quotedLine command := by
  have proper : nul ∉ quotedLine := by decide
  obtain ⟨heeded, returns⟩ := quotes_heeded_iff (written_string proper).holds proper
    (show quotedLine.length < 100 by decide) false
  obtain ⟨command, m', ran⟩ := returns (by decide +kernel)
  exact ⟨command, m', ran, (heeded command m' ran).mpr (by decide +kernel)⟩

/-- The line `echo "a>b"`. -/
def quotedSign : Text := [101, 99, 104, 111, 32, 34, 97, 62, 98, 34]

example : arguments 2 quotedSign (shield ⟨false, false⟩ quotedSign) = [[101, 99, 104, 111], [97, 62, 98]] := by decide

theorem quoted_sign_cuts : ∃ command m', parserSingle 100 (written quotedSign) 0 quotedSign.length false = some (command, m') ∧
    command.argv = [[101, 99, 104, 111], [97]] ∧ ¬ Protected (written quotedSign) 0 quotedSign command := by
  have made : (parserSingle 100 (written quotedSign) 0 quotedSign.length false).map Prod.fst =
      some ⟨quotedSign, none, none, false, 2, [[101, 99, 104, 111], [97]]⟩ := by decide +kernel
  obtain ⟨⟨command, m'⟩, ran, same⟩ := Option.map_eq_some_iff.mp made
  dsimp only at same
  subst same
  refine ⟨_, m', ran, rfl, ?_⟩
  intro protects
  exact absurd protects.argv (by decide +kernel)

end Eecs343.TinyShell.Interpreter
