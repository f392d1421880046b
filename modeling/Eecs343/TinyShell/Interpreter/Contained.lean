import Mathlib.Data.List.Induction
import Eecs343.TinyShell.Interpreter.Count
import Eecs343.TinyShell.Interpreter.Tasks
import Eecs343.TinyShell.Interpreter.Guarded

namespace Eecs343.TinyShell.Interpreter

open Bytes

variable {m m' m₁ : Memory} {c x : Int} {fuel sz i n tmp : Nat} {l l' : Text} {q : Quotes} {k : Count} {bg : Bool} {w : Window}

def bytes (m : Memory) (p : Int) : (n : Nat) → Text
  | 0 => []
  | n + 1 => m p :: bytes m (p + 1) n

@[simp] theorem length_bytes (m : Memory) (p : Int) (n : Nat) : (bytes m p n).length = n := by
  induction n generalizing p with
  | zero => rfl
  | succ n ih => rw [bytes, List.length_cons, ih]

theorem bytes_of_holds (holds : Holds m c l) : bytes m c l.length = l := by
  induction l generalizing c with
  | nil => rfl
  | cons y l ih => rw [List.length_cons, bytes, holds.1, ih holds.2]

/-- The text `l` after `n` words have been copied from `tmp` on and cut off, if it has as many. -/
def cutArgs : (n tmp : Nat) → (l : Text) → Option Text
  | 0, _, l => some l
  | n + 1, tmp, l =>
    match param (l.drop tmp) with
    | none => none
    | some (skipped, length) => cutArgs n (tmp + (skipped + length) + 1) (l.set (tmp + (skipped + length)) nul)

/-- The text `l` after the word at `target` has been copied and cut off, if there is one. -/
def cutTarget (target : Option Nat) (l : Text) : Option Text :=
  match target with
  | none => some l
  | some i =>
    match param (l.drop i) with
    | none => none
    | some (skipped, length) => some (l.set (i + (skipped + length)) nul)

/-- `parser_single` finds all the words it has counted, and what it redirects to, within the `sz`
    characters of its command. -/
def Contained (m : Memory) (c : Int) (sz : Nat) : Prop :=
  let lead := leading m c sz
  let k := countArgs m (c + lead) (sz - lead)
  let place : Option Int → Option Nat := Option.map fun target => (target - (c + lead)).toNat
  ((cutArgs k.taskArgc 0 (bytes m (c + lead) (sz - lead))).bind fun l =>
    (cutTarget (place k.input) l).bind (cutTarget (place k.out))).isSome

instance : Decidable (Contained m c sz) := inferInstanceAs (Decidable (_ = true))

theorem Holds.cut (holds : Holds m c l) (i : Nat) : Holds (put m (c + i) nul) c (l.set i nul) := by
  induction l generalizing c i with
  | nil => trivial
  | cons y l ih =>
    cases i with
    | zero =>
      rw [Nat.cast_zero, Int.add_zero]
      exact ⟨put_at, holds.2.put_outside (.inl (by omega))⟩
    | succ i =>
      have rest := ih holds.2 i
      rw [Nat.cast_add, Nat.cast_one, Int.add_comm (i : Int), ← Int.add_assoc]
      exact ⟨(put_of_ne (by omega)).trans holds.1, rest⟩

theorem Holds.drop (holds : Holds m c l) (within : i ≤ l.length) : Holds m (c + i) (l.drop i) := by
  rw [← List.take_append_drop i l] at holds
  have rest := (holds_append.mp holds).2
  rwa [List.length_take_of_le within] at rest

theorem reach_le (q : Quotes) (l : Text) : reach q l ≤ l.length := (List.takeWhile_prefix _).length_le

theorem param_le {skipped length : Nat} (found : param l = some (skipped, length)) : skipped + length ≤ l.length := by
  have split : l.takeWhile blank ++ l.dropWhile blank = l := List.takeWhile_append_dropWhile
  have whole := congrArg List.length split
  rw [param] at found
  cases rest : l.dropWhile blank with
  | nil => simp [rest] at found
  | cons y r =>
    have single := reach_le ⟨true, false⟩ r
    have double := reach_le ⟨false, true⟩ r
    have plain := reach_le ⟨false, false⟩ r
    rw [rest, List.length_append, List.length_cons] at whole
    simp only [rest] at found
    split at found
    · cases found
      omega
    · split at found
      all_goals
        cases found
        omega

theorem param_cons (l : Text) : param l = match l.dropWhile blank with
    | [] => none
    | x :: r => if x = doubleQuote then some ((l.takeWhile blank).length + 1, reach ⟨false, true⟩ r)
      else if x = singleQuote then some ((l.takeWhile blank).length + 1, reach ⟨true, false⟩ r)
      else some ((l.takeWhile blank).length, reach ⟨false, false⟩ r + 1) := rfl

theorem drop_blanks (l : Text) : l.drop (l.takeWhile blank).length = l.dropWhile blank := by
  have split : l.takeWhile blank ++ l.dropWhile blank = l := List.takeWhile_append_dropWhile
  have dropped : (l.takeWhile blank ++ l.dropWhile blank).drop (l.takeWhile blank).length = l.dropWhile blank := List.drop_left
  rwa [split] at dropped

theorem take_reach (q : Quotes) (l : Text) : l.take (reach q l) = l.takeWhile fun c => !stops q c :=
  (List.prefix_iff_eq_take.mp (List.takeWhile_prefix _)).symm

theorem reach_proper (q : Quotes) (l : Text) : nul ∉ l.take (reach q l) := by
  rw [take_reach]
  intro member
  have going := List.mem_takeWhile_imp member
  simp [stops] at going

theorem param_proper {skipped length : Nat} (found : param l = some (skipped, length)) :
    nul ∉ (l.drop skipped).take length := by
  have there := drop_blanks l
  have first := List.head?_dropWhile_not blank l
  rw [param_cons] at found
  generalize (l.takeWhile blank).length = blanks at there found
  cases rest : l.dropWhile blank with
  | nil => simp [rest] at found
  | cons y r =>
    rw [rest] at there found first
    have behind : l.drop (blanks + 1) = r := by rw [← List.drop_drop, there, List.drop_one, List.tail_cons]
    dsimp only at found
    split at found
    · cases found
      rw [behind]
      exact reach_proper _ r
    · split at found
      · cases found
        rw [behind]
        exact reach_proper _ r
      · cases found
        rw [there, List.take_succ_cons, List.mem_cons, not_or]
        have solid : blank y = false := by simpa using first
        refine ⟨?_, reach_proper _ r⟩
        rintro rfl
        simp [blank] at solid

/-- What a scan that stays within `l` leaves: the text `l'` in place of `l`, and the rest of memory. -/
structure Leaves (m : Memory) (c : Int) (l : Text) (m' : Memory) (l' : Text) : Prop where
  holds : Holds m' c l'
  length : l'.length = l.length
  behind : ∀ x, c + l.length ≤ x → m' x = m x

theorem Leaves.refl (holds : Holds m c l) : Leaves m c l m l := ⟨holds, rfl, fun _ _ => rfl⟩

theorem Leaves.trans {l'' : Text} {m'' : Memory} (first : Leaves m c l m' l') (second : Leaves m' c l' m'' l'') :
    Leaves m c l m'' l'' := by
  refine ⟨second.holds, second.length.trans first.length, ?_⟩
  intro x far
  rw [second.behind x (by rwa [first.length]), first.behind x far]

theorem Leaves.ended (leaves : Leaves m c l m' l') (ended : m (c + l.length) = nul) : m' (c + l'.length) = nul := by
  rw [leaves.length, leaves.behind _ (Int.le_refl _), ended]

theorem Leaves.cut (holds : Holds m c l) (ended : m (c + l.length) = nul) (within : i ≤ l.length) :
    Leaves m c l (put m (c + i) nul) (l.set i nul) := by
  refine ⟨holds.cut i, List.length_set, ?_⟩
  intro x far
  by_cases here : x = c + i
  · rw [here, put_at, show c + (i : Int) = c + l.length by omega, ended]
  · exact put_of_ne here

theorem singleParam_inside {skipped length : Nat} (holds : Holds m c l) (ended : m (c + l.length) = nul)
    (enough : l.length < fuel)
    (found : param (l.drop i) = some (skipped, length)) :
    singleParam fuel m (c + i) = some (c + i + skipped, put m (c + (i + (skipped + length) : Nat)) nul) ∧
      i + (skipped + length) ≤ l.length := by
  have within : i ≤ l.length := by
    by_contra past
    rw [List.drop_eq_nil_of_le (by omega)] at found
    cases found
  have bound := param_le found
  rw [List.length_drop] at bound
  refine ⟨?_, by omega⟩
  rw [singleParam_spec (holds.drop within) ?_ ?_ found]
  · congr 3
    omega
  · rw [List.length_drop, show c + (i : Int) + (l.length - i : Nat) = c + l.length by omega, ended]
  · rw [List.length_drop]
    omega

theorem singleParamIn_eq (low : w.low ≤ x) :
    singleParamIn w fuel m x = singleParam (min fuel (w.high + 1 - x).toNat) m x := by
  rw [singleParamIn, singleParam, singleParamFromIn_eq (by simpa using low), Nat.cast_zero, Int.add_zero]

/-- A walk that may not pass the end of the text finds the same word, or leaves its window. -/
theorem singleParamIn_inside (holds : Holds m c l) (ended : m (c + l.length) = nul) (enough : l.length < fuel)
    (low : w.low ≤ c) (high : w.high = c + l.length) :
    singleParamIn w fuel m (c + i) = if (param (l.drop i)).isSome then singleParam fuel m (c + i) else none := by
  rw [singleParamIn_eq (by omega), high]
  by_cases within : i ≤ l.length
  · have there := holds.drop within
    have length : (l.drop i).length = l.length - i := List.length_drop
    have ended : m (c + i + (l.drop i).length) = nul := by
      rw [length, show c + (i : Int) + (l.length - i : Nat) = c + l.length by omega, ended]
    rw [show min fuel (c + l.length + 1 - (c + i)).toNat = 0 + ((l.drop i).length + 1) by omega]
    cases found : param (l.drop i) with
    | none =>
      rw [singleParam_overrun there ended found]
      rfl
    | some word =>
      obtain ⟨skipped, length⟩ := word
      rw [singleParam_spec there ended (by omega) found, Option.isSome_some, if_pos rfl,
        singleParam_spec there ended (by omega) found]
  · rw [show min fuel (c + l.length + 1 - (c + i)).toNat = 0 by omega, List.drop_eq_nil_of_le (by omega)]
    rfl

theorem IsString.of_cut (holds : Holds m c l) (within : n ≤ l.length) (proper : nul ∉ l.take n) :
    IsString (put m (c + n) nul) c (l.take n) := by
  have taken : (l.take n).length = n := List.length_take_of_le within
  refine ⟨?_, ?_, proper⟩
  · rw [← List.take_append_drop n l] at holds
    exact (holds_append.mp holds).1.put_outside (.inr (by omega))
  · rw [taken]
    exact put_at

theorem word_string {skipped length : Nat} (holds : Holds m c l) (found : param (l.drop i) = some (skipped, length))
    (within : i ≤ l.length) :
    IsString (put m (c + (i + (skipped + length) : Nat)) nul) (c + i + skipped) (((l.drop i).drop skipped).take length) := by
  have bound := param_le found
  have there := (holds.drop within).drop (i := skipped) (by omega)
  have string := IsString.of_cut (n := length) there (by rw [List.length_drop]; omega) (param_proper found)
  rwa [show c + (i : Int) + skipped + length = c + (i + (skipped + length) : Nat) by omega] at string

theorem text_in_window {p : Int} (string : IsString m p l) (enough : l.length < fuel) (low : w.low ≤ p)
    (high : p + l.length ≤ w.high) :
    textIn w m fuel p = some l := by
  rw [textIn_eq low]
  exact text_of_string string (by omega)

theorem param_within {skipped length : Nat} (found : param (l.drop i) = some (skipped, length)) : i ≤ l.length := by
  by_contra past
  rw [List.drop_eq_nil_of_le (by omega)] at found
  cases found

theorem readTarget_some (target : Int) : readTarget fuel m (some target) =
    (singleParam fuel m target).bind fun r => (text r.2 fuel r.1).bind fun name => some (some name, r.2) := rfl

theorem readTargetIn_some (w : Window) (last target : Int) : readTargetIn w last fuel m (some target) =
    (singleParamIn (upTo w last) fuel m target).bind fun r => (textIn w r.2 fuel r.1).bind fun name =>
      some (some name, r.2) := rfl

section Walks

variable (holds : Holds m c l) (ended : m (c + l.length) = nul) (enough : l.length < fuel)

include holds ended enough

theorem readTargetIn_cut (target : Option Nat) (low : w.low ≤ c) (high : c + l.length ≤ w.high) :
    match cutTarget target l with
    | none => readTargetIn w (c + l.length) fuel m (target.map fun i : Nat => c + (i : Int)) = none
    | some l' => ∃ r, readTargetIn w (c + l.length) fuel m (target.map fun i : Nat => c + (i : Int)) = some r ∧
        readTarget fuel m (target.map fun i : Nat => c + (i : Int)) = some r ∧ Leaves m c l r.2 l' := by
  cases target with
  | none => exact ⟨(none, m), rfl, rfl, .refl holds⟩
  | some i =>
    have walk := singleParamIn_inside (i := i) (w := upTo w (c + l.length)) holds ended enough low rfl
    rw [cutTarget, Option.map_some, readTargetIn_some, readTarget_some, walk]
    cases word : param (l.drop i) with
    | none => rfl
    | some word' =>
      obtain ⟨skipped, length⟩ := word'
      obtain ⟨scanned, within⟩ := singleParam_inside holds ended enough word
      have string := word_string holds word (param_within word)
      have shorter : (((l.drop i).drop skipped).take length).length ≤ length := List.length_take_le _ _
      rw [Option.isSome_some, if_pos rfl, scanned, Option.bind_some, Option.bind_some, text_in_window string (by omega)
        (by omega) (by omega),
        text_of_string string (by omega)]
      exact ⟨_, rfl, rfl, .cut holds ended within⟩

end Walks

theorem readArgs_succ (n : Nat) (p : Int) : readArgs fuel (n + 1) m p =
    (singleParam fuel m p).bind fun r => (text r.2 fuel r.1).bind fun arg => (text r.2 fuel p).bind fun passed =>
      (readArgs fuel n r.2 (p + passed.length + 1)).bind fun args => some (arg :: args.1, args.2) := rfl

theorem readArgsIn_succ (w : Window) (n : Nat) (last p : Int) : readArgsIn w last fuel (n + 1) m p =
    (singleParamIn (upTo w last) fuel m p).bind fun r => (textIn w r.2 fuel r.1).bind fun arg =>
    (textIn w r.2 fuel p).bind fun passed =>
      (readArgsIn w last fuel n r.2 (p + passed.length + 1)).bind fun args => some (arg :: args.1, args.2) := rfl

theorem IsString.unique (first : IsString m c l) (second : IsString m c l') : l = l' := by
  have left : text m (l.length + l'.length + 1) c = some l := text_of_string first (by omega)
  have right : text m (l.length + l'.length + 1) c = some l' := text_of_string second (by omega)
  exact Option.some.inj (left.symm.trans right)

theorem readArgsIn_cut (holds : Holds m c l) (ended : m (c + l.length) = nul) (enough : l.length < fuel)
    (proper : nul ∉ l.drop tmp)
    (low : w.low ≤ c) (high : c + l.length ≤ w.high) : match cutArgs n tmp l with
    | none => readArgsIn w (c + l.length) fuel n m (c + tmp) = none
    | some l' => ∃ r, readArgsIn w (c + l.length) fuel n m (c + tmp) = some r ∧ readArgs fuel n m (c + tmp) = some r ∧
        Leaves m c l r.2 l' := by
  induction n generalizing tmp l m with
  | zero => exact ⟨([], m), rfl, rfl, .refl holds⟩
  | succ n ih =>
    have walk := singleParamIn_inside (i := tmp) (w := upTo w (c + l.length)) holds ended enough low rfl
    rw [cutArgs, readArgsIn_succ, readArgs_succ, walk]
    cases word : param (l.drop tmp) with
    | none => rfl
    | some word' =>
      obtain ⟨skipped, length⟩ := word'
      obtain ⟨scanned, within⟩ := singleParam_inside holds ended enough word
      have leaves : Leaves m c l (put m (c + (tmp + (skipped + length) : Nat)) nul) (l.set (tmp + (skipped + length)) nul) :=
        .cut holds ended within
      have string := word_string holds word (param_within word)
      have shorter : (((l.drop tmp).drop skipped).take length).length ≤ length := List.length_take_le _ _
      -- the walk to the next NUL ends at the cut
      have passed : IsString (put m (c + (tmp + (skipped + length) : Nat)) nul) (c + tmp)
        ((l.drop tmp).take (skipped + length)) := by
        have cut :=
          IsString.of_cut (n := skipped + length) (holds.drop (i := tmp) (by omega)) (by rw [List.length_drop]; omega)
          fun member => proper (List.mem_of_mem_take member)
        rwa [Int.add_assoc, ← Nat.cast_add] at cut
      have reached : ((l.drop tmp).take (skipped + length)).length = skipped + length := by
        rw [List.length_take, List.length_drop]
        omega
      have behind : nul ∉ (l.set (tmp + (skipped + length)) nul).drop (tmp + (skipped + length) + 1) := by
        rw [List.drop_set_of_lt (by omega)]
        intro member
        apply proper
        rw [show tmp + (skipped + length) + 1 = tmp + (skipped + length + 1) by omega, ← List.drop_drop] at member
        exact List.mem_of_mem_drop member
      have rest := ih leaves.holds (leaves.ended ended) (by rwa [leaves.length]) behind (by rwa [leaves.length])
      rw [leaves.length] at rest
      rw [Option.isSome_some, if_pos rfl, scanned, Option.bind_some, Option.bind_some, text_in_window string (by omega)
        (by omega) (by omega),
        text_of_string string (by omega), Option.bind_some, Option.bind_some, text_in_window passed (by omega)
        (by omega) (by omega),
        text_of_string passed (by omega), Option.bind_some, Option.bind_some, reached,
        show c + (tmp : Int) + (skipped + length : Nat) + 1 = c + (tmp + (skipped + length) + 1 : Nat) by omega]
      dsimp only at rest ⊢
      split at rest
      · rw [rest]
        rfl
      · obtain ⟨r, readIn, read, later⟩ := rest
        rw [readIn, read]
        exact ⟨_, rfl, rfl, leaves.trans later⟩

/-- What `parser_single` does behind its loop, within the characters of its command or not. -/
theorem readsIn_cut (holds : Holds m c l) (ended : m (c + l.length) = nul) (enough : l.length < fuel) (proper : nul ∉ l)
    (low : w.low ≤ c) (high : c + l.length ≤ w.high) (n : Nat) (input out : Option Nat) :
    match (cutArgs n 0 l).bind fun l => (cutTarget input l).bind (cutTarget out) with
    | none => ∀ args source target, readArgsIn w (c + l.length) fuel n m c = some args →
        readTargetIn w (c + l.length) fuel args.2 (input.map fun i : Nat => c + (i : Int)) = some source →
        readTargetIn w (c + l.length) fuel source.2 (out.map fun i : Nat => c + (i : Int)) = some target → False
    | some l' => ∃ args source target,
        (readArgsIn w (c + l.length) fuel n m c = some args ∧ readArgs fuel n m c = some args) ∧
        (readTargetIn w (c + l.length) fuel args.2 (input.map fun i : Nat => c + (i : Int)) = some source ∧
          readTarget fuel args.2 (input.map fun i : Nat => c + (i : Int)) = some source) ∧
        (readTargetIn w (c + l.length) fuel source.2 (out.map fun i : Nat => c + (i : Int)) = some target ∧
          readTarget fuel source.2 (out.map fun i : Nat => c + (i : Int)) = some target) ∧ Leaves m c l target.2 l' := by
  have whole : nul ∉ l.drop 0 := proper
  have words := readArgsIn_cut (n := n) holds ended enough whole low high
  rw [Nat.cast_zero, Int.add_zero] at words
  cases first : cutArgs n 0 l with
  | none =>
    rw [first] at words
    intro args _ _ read
    exact absurd (words.symm.trans read) nofun
  | some l₁ =>
    rw [first] at words
    obtain ⟨args, argsIn, args', leaves₁⟩ := words
    have short₁ : l₁.length < fuel := by rwa [leaves₁.length]
    have source := readTargetIn_cut leaves₁.holds (leaves₁.ended ended) short₁ input low (by rwa [leaves₁.length])
    rw [leaves₁.length] at source
    rw [Option.bind_some]
    cases second : cutTarget input l₁ with
    | none =>
      rw [second] at source
      rintro _ _ _ read read' -
      cases argsIn.symm.trans read
      exact absurd (source.symm.trans read') nofun
    | some l₂ =>
      rw [second] at source
      obtain ⟨source, sourceIn, source', leaves₂⟩ := source
      have leaves := leaves₁.trans leaves₂
      have short₂ : l₂.length < fuel := by rwa [leaves.length]
      have target := readTargetIn_cut leaves.holds (leaves.ended ended) short₂ out low (by rwa [leaves.length])
      rw [leaves.length] at target
      rw [Option.bind_some]
      cases third : cutTarget out l₂ with
      | none =>
        rw [third] at target
        rintro _ _ _ read read' read''
        cases argsIn.symm.trans read
        cases sourceIn.symm.trans read'
        exact absurd (target.symm.trans read'') nofun
      | some l₃ =>
        rw [third] at target
        obtain ⟨target, targetIn, target', leaves₃⟩ := target
        exact ⟨args, source, target, ⟨argsIn, args'⟩, ⟨sourceIn, source'⟩, ⟨targetIn, target'⟩, leaves.trans leaves₃⟩

theorem bytes_congr (same : ∀ x, c ≤ x → x < c + n → m' x = m x) : bytes m' c n = bytes m c n := by
  induction n generalizing c with
  | zero => rfl
  | succ n ih =>
    rw [bytes, bytes, same c (by omega) (by omega), ih]
    intro x low high
    exact same x (by omega) (by omega)

theorem leading_le (m : Memory) (c : Int) (sz : Nat) : leading m c sz ≤ sz := by
  induction sz generalizing c with
  | zero => exact Nat.le_refl 0
  | succ sz ih =>
    rw [leading]
    split
    · exact Nat.succ_le_succ (ih (c + 1))
    · exact Nat.zero_le _

/-- The character before the command is the same for this purpose, if it stands in the command or the
    two memories agree on whether it is a space. -/
theorem edge_congr (same : ∀ x, c ≤ x → x < c + sz → m' x = m x) (edge : m' (c - 1) = space ↔ m (c - 1) = space) :
    m' (c + leading m c sz - 1) = space ↔ m (c + leading m c sz - 1) = space := by
  have bound := leading_le m c sz
  by_cases none : leading m c sz = 0
  · rw [none, Nat.cast_zero, Int.add_zero]
    exact edge
  · rw [same _ (by omega) (by omega)]

theorem countArgs_inner_congr (same : ∀ x, c ≤ x → x < c + sz → m' x = m x)
    (edge : m' (c - 1) = space ↔ m (c - 1) = space) :
    countArgs m' (c + leading m c sz) (sz - leading m c sz) = countArgs m (c + leading m c sz) (sz - leading m c sz) := by
  have bound := leading_le m c sz
  apply countArgs_congr
  · intro x low high
    exact same x (by omega) (by omega)
  · exact edge_congr same edge

theorem Contained.congr (contained : Contained m c sz) (same : ∀ x, c ≤ x → x < c + sz → m' x = m x)
    (edge : m' (c - 1) = space ↔ m (c - 1) = space) : Contained m' c sz := by
  have bound := leading_le m c sz
  unfold Contained
  rw [leading_congr same]
  dsimp only
  rw [countArgs_inner_congr same edge, bytes_congr (m := m)]
  · exact contained
  · intro x low high
    exact same x (by omega) (by omega)

theorem parserSingle_eq (m : Memory) (c : Int) (sz : Nat) (bg : Bool) : parserSingle fuel m c sz bg =
    let m := put m (c + sz) nul
    let i := leading m c sz
    let k := countArgs m (c + i) (sz - i)
    (text m fuel (c + i)).bind fun cmdline => (readArgs fuel k.taskArgc m (c + i)).bind fun args =>
      (readTarget fuel args.2 k.input).bind fun input => (readTarget fuel input.2 k.out).bind fun out =>
        some (⟨cmdline, input.1, out.1, bg, k.taskArgc, args.1⟩, out.2) := rfl

/-- A `parser_single` that returns has read its words, then its two targets, into its command. -/
theorem parserSingle_reads {command : Command} (ran : parserSingle fuel m c sz bg = some (command, m')) :
    let m₁ := put m (c + sz) nul
    let start := leading m₁ c sz
    let k := countArgs m₁ (c + start) (sz - start)
    ∃ m₂ m₃, command.argc = k.taskArgc ∧ readArgs fuel k.taskArgc m₁ (c + start) = some (command.argv, m₂) ∧
      readTarget fuel m₂ k.input = some (command.redirectIn, m₃) ∧ readTarget fuel m₃ k.out = some (command.redirectOut, m') := by
  rw [parserSingle_eq] at ran
  obtain ⟨cmdline, -, ran⟩ := Option.bind_eq_some_iff.mp ran
  obtain ⟨⟨args, m₂⟩, readArgs, ran⟩ := Option.bind_eq_some_iff.mp ran
  obtain ⟨⟨input, m₃⟩, readIn, ran⟩ := Option.bind_eq_some_iff.mp ran
  obtain ⟨⟨out, m₄⟩, readOut, ran⟩ := Option.bind_eq_some_iff.mp ran
  cases ran
  exact ⟨m₂, m₃, rfl, readArgs, readIn, readOut⟩

theorem place_target {target : Option Int} (placed : ∀ p, target = some p → ∃ n : Nat, p = c + n) :
    (target.map fun p => (p - c).toNat).map (fun i : Nat => c + (i : Int)) = target := by
  cases target with
  | none => rfl
  | some p =>
    obtain ⟨n, rfl⟩ := placed p rfl
    simp only [Option.map_some, Option.some.injEq]
    omega

theorem parserSingle_inside {command : Command} (holds : Holds m c l) (proper : nul ∉ l) (enough : l.length < fuel)
    (contained : Contained m c l.length) (ran : parserSingle fuel m c l.length bg = some (command, m')) :
    m' (c + l.length) = nul ∧ ∀ x, c + l.length < x → m' x = m x := by
  have last : put m (c + l.length) nul (c + l.length) = nul := put_at
  have contained : Contained (put m (c + l.length) nul) c l.length := by
    apply contained.congr
    · intro x _ high
      exact put_of_ne (by omega)
    · rw [put_of_ne (by omega)]
  have holds := holds.put_outside (x := c + l.length) (c := nul) (.inr (Int.le_refl _))
  have others : ∀ x, c + l.length < x → put m (c + l.length) nul x = m x := fun x far => put_of_ne (by omega)
  have reads := parserSingle_reads ran
  generalize put m (c + l.length) nul = m₁ at holds contained reads last others
  dsimp only at reads
  have bound := leading_le m₁ c l.length
  unfold Contained at contained
  dsimp only at contained
  generalize leading m₁ c l.length = lead at reads bound contained
  have placed := countArgs_placed m₁ (c + lead) (l.length - lead)
  generalize countArgs m₁ (c + lead) (l.length - lead) = k at reads contained placed
  have command := holds.drop bound
  have shorter : (l.drop lead).length = l.length - lead := List.length_drop
  have behind : c + lead + ((l.drop lead).length : Nat) = c + l.length := by omega
  have short : (l.drop lead).length < fuel := by omega
  have walks := readsIn_cut (w := ⟨c + lead, c + l.length⟩) command (behind ▸ last) short
    (fun member => proper (List.mem_of_mem_drop member)) (Int.le_refl _) (by dsimp only; omega) k.taskArgc
    (k.input.map fun p => (p - (c + lead)).toNat) (k.out.map fun p => (p - (c + lead)).toNat)
  rw [place_target placed.input, place_target placed.out] at walks
  rw [← shorter, bytes_of_holds command] at contained
  obtain ⟨l', found⟩ := Option.isSome_iff_exists.mp contained
  rw [found] at walks
  obtain ⟨args, source, target, ⟨-, args'⟩, ⟨-, source'⟩, ⟨-, target'⟩, leaves⟩ := walks
  obtain ⟨m₂, m₃, -, readArgs, readIn, readOut⟩ := reads
  cases args'.symm.trans readArgs
  cases source'.symm.trans readIn
  cases target'.symm.trans readOut
  constructor
  · exact (leaves.behind _ (by omega)).trans last
  · intro x far
    exact (leaves.behind x (by omega)).trans (others x far)

end Eecs343.TinyShell.Interpreter
