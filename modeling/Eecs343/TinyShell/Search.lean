import Eecs343.Base.Window
import Eecs343.TinyShell.Interpreter.Scan

namespace Eecs343.TinyShell

open Bytes Interpreter

abbrev slash : BitVec 8 := 47#8
abbrev colon : BitVec 8 := 58#8

def intMax : Nat := 2147483647

def bufLength : Nat := 1024

/-- `char buf[1024]`, with addresses counted from its start. -/
def buf : Window := ⟨0, 1023⟩

/-- What the file system tells about path names: whether `stat` succeeds, and finds a directory, and whether
    `access(path, X_OK)` is 0. -/
structure Files where
  stat : Text → Option Bool
  access : Text → Bool

def Files.executable (files : Files) (path : Text) : Bool := files.stat path = some false && files.access path

/-- `i++`, where the `int` does not overflow. -/
def incremented (i : Nat) : Option Nat := if i < intMax then some (i + 1) else none

/-- `strchr(&(pathlist[i]), ':')`, as an index. -/
def strchrColon (pathlist : Text) (i : Nat) : Option Nat := ((pathlist.drop i).idxOf? colon).map (i + ·)

/-- `for(j = 0; ...; i++, j++) buf[j] = pathlist[i];` while `going`. Every pass moves `i`. -/
def copyWhile (pathlist : Text) (going : Nat → Bool) : (fuel i j : Nat) → Memory → Option (Nat × Nat × Memory)
  | 0, _, _, _ => none
  | fuel + 1, i, j, m =>
    if going i then do
      let m ← buf.poke m j (pathlist.getD i nul)
      let i ← incremented i
      copyWhile pathlist going fuel i (j + 1) m
    else some (i, j, m)

/-- The next component of `pathlist` is copied to `buf`, with one of the two loops. -/
def copyComponent (pathlist : Text) (i : Nat) (m : Memory) : Option (Nat × Nat × Memory) :=
  match strchrColon pathlist i with
  | some c => do
    let (i, j, m) ← copyWhile pathlist (fun i => c ≠ i) (pathlist.length + 1) i 0 m
    let i ← incremented i
    some (i, j, m)
  | none => copyWhile pathlist (fun i => i < pathlist.length) (pathlist.length + 1) i 0 m

/-- `strcat(buf, s)`. -/
def strcat (m : Memory) (s : Text) : Option Memory := do
  let present ← text m bufLength 0
  buf.pokeAll m present.length (s ++ [nul])

/-- What follows the copy loop, up to `stat`. -/
def appendName (name : Text) (j : Nat) (m : Memory) : Option Memory := do
  let m ← buf.poke m j nul
  let m ← strcat m [slash]
  strcat m name

/-- The loop over `pathlist`: every pass moves `i`. -/
def searchPath (files : Files) (pathlist name : Text) : (fuel i : Nat) → Memory → Option (Option Text)
  | 0, _, _ => none
  | fuel + 1, i, m =>
    if i < pathlist.length then do
      let (i, j, m) ← copyComponent pathlist i m
      let m ← appendName name j m
      let path ← text m bufLength 0
      if files.executable path then some (some path) else searchPath files pathlist name fuel i m
    else some none

/-- `ResolveExternalCmd` with what `getenv("PATH")` returns and with what stands in `buf`: the name it stores, if it finds
    one. It fails where it goes beyond `buf`, or `i` beyond `int`. -/
def resolveExternalCmd (files : Files) (path : Option Text) (name : Text) (m : Memory) : Option (Option Text) :=
  if name.contains slash then some (if files.executable name then some name else none)
  else
    match path with
    | none => some none
    | some pathlist => searchPath files pathlist name (pathlist.length + 1) 0 m

/-- The components of a `PATH`. An empty one at its end does not count. -/
def components (pathlist : Text) : List Text :=
  let parts := pathlist.splitOn colon
  if parts.getLast? = some [] then parts.dropLast else parts

def inDirectory (name d : Text) : Text := d ++ slash :: name

/-- The components up to the first that has the command. -/
def tried (files : Files) (name : Text) : List Text → List Text
  | [] => []
  | d :: ds => d :: if files.executable (inDirectory name d) then [] else tried files name ds

/-- What is tried from `i` on fits into `buf` with the name, and what is read of `pathlist` into an `int`. -/
structure InBounds (files : Files) (pathlist name : Text) (i : Nat) : Prop where
  room : ∀ d ∈ tried files name (components (pathlist.drop i)), d.length + name.length + 2 ≤ bufLength
  index : min pathlist.length (i + ((tried files name (components (pathlist.drop i))).map fun d => d.length + 1).sum) ≤ intMax

variable {files : Files} {pathlist name d rest : Text} {m m' : Memory} {i j k fuel : Nat} {l s : Text} {going : Nat → Bool}

theorem components_cons (more : l ≠ []) :
    components l = l.takeWhile (· ≠ colon) :: components (l.drop ((l.takeWhile (· ≠ colon)).length + 1)) := by
  have split : l.takeWhile (· ≠ colon) ++ l.dropWhile (· ≠ colon) = l := List.takeWhile_append_dropWhile
  have plain : colon ∉ l.takeWhile (· ≠ colon) := fun member => by simpa using List.mem_takeWhile_imp member
  have first := List.head?_dropWhile_not (· ≠ colon) l
  generalize l.takeWhile (· ≠ colon) = d at split plain ⊢
  cases behind : l.dropWhile (· ≠ colon) with
  | nil =>
    rw [behind, List.append_nil] at split
    subst split
    rw [List.drop_of_length_le (Nat.le_succ _), components, List.splitOn_eq_singleton plain]
    simp [components, more]
  | cons c after =>
    rw [behind] at split first
    have here : c = colon := by simpa using first
    subst here
    subst split
    have left : (d ++ colon :: after).drop (d.length + 1) = after := by simp
    rw [left, components, components, List.splitOn_append_cons_self_of_not_mem plain]
    obtain ⟨e, parts, parted⟩ := List.exists_cons_of_ne_nil (List.splitOn_ne_nil colon after)
    rw [parted]
    simp only [List.getLast?_cons_cons, List.dropLast_cons_cons]
    split <;> rfl

theorem incremented_eq_some (small : i < intMax) : incremented i = some (i + 1) := if_pos small

theorem drop_succ_of_cons {c : BitVec 8} (here : pathlist.drop i = c :: rest) : pathlist.drop (i + 1) = rest := by
  rw [← List.tail_drop, here, List.tail_cons]

theorem copyWhile_eq (here : pathlist.drop i = d ++ rest) (on : ∀ k, i ≤ k → k < i + d.length → going k = true)
    (off : going (i + d.length) = false) (enough : d.length < fuel) (small : i ≤ intMax) :
    copyWhile pathlist going fuel i j m =
      if i + d.length ≤ intMax then (buf.pokeAll m j d).map fun m => (i + d.length, j + d.length, m) else none := by
  induction d generalizing i j m fuel with
  | nil =>
    obtain ⟨fuel, rfl⟩ := Nat.exists_eq_add_one_of_ne_zero (Nat.ne_of_gt enough)
    rw [List.length_nil, Nat.add_zero] at off
    rw [copyWhile, off, if_neg Bool.false_ne_true, List.length_nil, Nat.add_zero, if_pos small]
    rfl
  | cons c d ih =>
    obtain ⟨fuel, rfl⟩ := Nat.exists_eq_add_one_of_ne_zero (Nat.ne_of_gt (Nat.zero_lt_of_lt enough))
    rw [List.length_cons] at on off enough ⊢
    have char : pathlist.getD i nul = c := by
      rw [List.getD_eq_getElem?_getD, ← Nat.add_zero i, ← List.getElem?_drop, here]
      rfl
    rw [copyWhile, if_pos (on i (Nat.le_refl _) (by omega)), char, Window.pokeAll]
    cases poked : buf.poke m j c with
    | none => simp
    | some m =>
      simp only [Option.bind_eq_bind, Option.bind_some]
      by_cases last : i < intMax
      · rw [incremented_eq_some last, Option.bind_some, ih (drop_succ_of_cons here)
          (fun k low high => on k (by omega) (by omega))
          (by rwa [Nat.add_right_comm, Nat.add_assoc]) (by omega) last]
        rw [show i + 1 + d.length = i + (d.length + 1) by omega, show j + 1 + d.length = j + (d.length + 1) by omega,
          Nat.cast_add, Nat.cast_one]
      · rw [incremented, if_neg last, if_neg (by omega)]
        rfl

/-- The first component of `pathlist` from `i` on. -/
def component (pathlist : Text) (i : Nat) : Text := (pathlist.drop i).takeWhile (· ≠ colon)

def following (pathlist : Text) (i : Nat) : Nat := min pathlist.length (i + ((component pathlist i).length + 1))

theorem copyComponent_eq (inside : i ≤ pathlist.length) (small : i ≤ intMax) :
    copyComponent pathlist i m =
      if following pathlist i ≤ intMax then
        (buf.pokeAll m 0 (component pathlist i)).map fun m => (following pathlist i, (component pathlist i).length, m)
      else none := by
  have split : component pathlist i ++ (pathlist.drop i).dropWhile (· ≠ colon) = pathlist.drop i :=
    List.takeWhile_append_dropWhile
  have plain : colon ∉ component pathlist i := fun member => by simpa using List.mem_takeWhile_imp member
  have first := List.head?_dropWhile_not (· ≠ colon) (pathlist.drop i)
  have length := congrArg List.length split
  rw [List.length_append, List.length_drop] at length
  unfold following
  generalize component pathlist i = d at *
  have missing : d.idxOf? colon = none := List.idxOf?_eq_none_iff.mpr plain
  cases behind : (pathlist.drop i).dropWhile (· ≠ colon) with
  | nil =>
    rw [behind, List.length_nil] at length
    rw [behind, List.append_nil] at split
    have last : strchrColon pathlist i = none := by rw [strchrColon, ← split, missing, Option.map_none]
    rw [copyComponent, last]
    dsimp only
    have whole : pathlist.drop i = d ++ [] := by rw [← split, List.append_nil]
    rw [copyWhile_eq whole (fun k _ high => by simp; omega) (by simp; omega) (by omega) small]
    rw [show i + d.length = pathlist.length by omega, Nat.min_eq_left (by omega), Nat.cast_zero, Nat.zero_add]
  | cons c after =>
    rw [behind] at split first length
    rw [List.length_cons] at length
    have here : c = colon := by simpa using first
    subst here
    have found : strchrColon pathlist i = some (i + d.length) := by
      have index : (d ++ colon :: after).idxOf? colon = some d.length := by
        rw [List.idxOf?, List.findIdx?_append, ← List.idxOf?, missing, List.idxOf?_cons]
        simp
      rw [strchrColon, ← split, index, Option.map_some]
    rw [copyComponent, found]
    dsimp only
    rw [copyWhile_eq split.symm (fun k _ high => by simp; omega) (by simp) (by omega) small]
    rw [Nat.min_eq_right (by omega), Nat.cast_zero, Nat.zero_add]
    by_cases last : i + d.length < intMax
    · rw [if_pos (Nat.le_of_lt last), if_pos (by omega)]
      cases buf.pokeAll m 0 d <;> simp [incremented_eq_some last, Nat.add_assoc]
    · rw [if_neg (show ¬ i + (d.length + 1) ≤ intMax by omega)]
      split
      · cases buf.pokeAll m 0 d <;> simp [incremented, last]
      · rfl

theorem buf_end : buf.high + 1 = bufLength := rfl

theorem strcat_inside (string : IsString m 0 l) (proper : nul ∉ s) (room : l.length + s.length < bufLength) :
    ∃ m', strcat m s = some m' ∧ IsString m' 0 (l ++ s) := by
  have length : (s ++ [nul]).length = s.length + 1 := List.length_append
  have enough := buf_end
  obtain ⟨m', done, new, old⟩ := Window.pokeAll_inside (w := buf) (m := m) (p := l.length) (l := s ++ [nul])
    (Int.natCast_nonneg _) (by omega)
  have added : Holds m' (0 + l.length) (s ++ [nul]) := by
    apply holds_of_getD
    rwa [Int.zero_add]
  have kept : Holds m' 0 l := string.holds.congr fun x _ high => old x (.inl (by omega))
  obtain ⟨added, ended, -⟩ := holds_append.mp added
  refine ⟨m', ?_, holds_append.mpr ⟨kept, added⟩, ?_, ?_⟩
  · rw [strcat, text_of_string string (by omega)]
    exact done
  · rw [← ended, List.length_append, Nat.cast_add, Int.add_assoc]
  · rw [List.mem_append, not_or]
    exact ⟨string.proper, proper⟩

theorem strcat_outside (string : IsString m 0 l) (fits : l.length < bufLength)
    (beyond : bufLength ≤ l.length + s.length) :
    strcat m s = none := by
  have length : (s ++ [nul]).length = s.length + 1 := List.length_append
  have enough := buf_end
  rw [strcat, text_of_string string fits]
  exact Window.pokeAll_outside (by omega) (by omega)

theorem ended_inside (holds : Holds m 0 d) (proper : nul ∉ d) (room : d.length < bufLength) :
    ∃ m', buf.poke m d.length nul = some m' ∧ IsString m' 0 d := by
  have enough := buf_end
  refine ⟨put m d.length nul, Window.poke_inside ⟨Int.natCast_nonneg _, by omega⟩, ?_, ?_, proper⟩
  · exact holds.put_outside (.inr (by omega))
  · rw [Int.zero_add]
    exact put_at

theorem appendName_inside (holds : Holds m 0 d) (proper : nul ∉ d) (named : nul ∉ name)
    (room : d.length + name.length + 2 ≤ bufLength) :
    ∃ m', appendName name d.length m = some m' ∧ IsString m' 0 (inDirectory name d) := by
  have length : (d ++ [slash]).length = d.length + 1 := List.length_append
  obtain ⟨m₀, ended, string⟩ := ended_inside holds proper (by omega)
  obtain ⟨m₁, slashed, string⟩ := strcat_inside string (s := [slash]) (by decide) (show d.length + 1 < bufLength by omega)
  obtain ⟨m₂, done, string⟩ := strcat_inside string named (by omega)
  refine ⟨m₂, ?_, ?_⟩
  · simp only [appendName, ended, slashed, done, Option.bind_eq_bind, Option.bind_some]
  · rwa [List.append_assoc] at string

theorem appendName_outside (holds : Holds m 0 d) (proper : nul ∉ d) (beyond : bufLength < d.length + name.length + 2) :
    appendName name d.length m = none := by
  have enough := buf_end
  unfold appendName
  by_cases first : d.length < bufLength
  · obtain ⟨m₀, ended, string⟩ := ended_inside holds proper first
    rw [ended, Option.bind_eq_bind, Option.bind_some]
    by_cases second : d.length + 1 < bufLength
    · have length : (d ++ [slash]).length = d.length + 1 := List.length_append
      obtain ⟨m₁, slashed, string⟩ := strcat_inside string (s := [slash]) (by decide) second
      rw [slashed]
      exact strcat_outside string (by omega) (by omega)
    · rw [strcat_outside (s := [slash]) string first (Nat.le_of_not_lt second)]
      rfl
  · rw [Window.poke_outside]
    · rfl
    · intro inside
      have high := inside.2
      omega

theorem component_proper (proper : nul ∉ pathlist) : nul ∉ component pathlist i := fun member =>
  proper (List.mem_of_mem_drop ((List.takeWhile_prefix _).subset member))

/-- A component that fits with the name is in `buf` with it, when the file system is asked. -/
theorem candidate_inside (inside : i ≤ pathlist.length) (small : i ≤ intMax) (proper : nul ∉ pathlist)
    (named : nul ∉ name)
    (room : (component pathlist i).length + name.length + 2 ≤ bufLength) (index : following pathlist i ≤ intMax) :
    ∃ m₁ m₂, copyComponent pathlist i m = some (following pathlist i, (component pathlist i).length, m₁) ∧
      appendName name (component pathlist i).length m₁ = some m₂ ∧
      text m₂ bufLength 0 = some (inDirectory name (component pathlist i)) := by
  have enough := buf_end
  have proper := component_proper (i := i) proper
  obtain ⟨m₁, copied, new, -⟩ := Window.pokeAll_inside (w := buf) (m := m) (p := 0) (l := component pathlist i)
    (Int.le_refl _) (by omega)
  obtain ⟨m₂, appended, string⟩ := appendName_inside (holds_of_getD new) proper named room
  refine ⟨m₁, m₂, ?_, appended, text_of_string string ?_⟩
  · rw [copyComponent_eq inside small, if_pos index, copied]
    rfl
  · rw [inDirectory, List.length_append, List.length_cons]
    omega

/-- One that does not fit is written beyond `buf`, in the copy loop or behind it. -/
theorem candidate_outside (inside : i ≤ pathlist.length) (small : i ≤ intMax) (proper : nul ∉ pathlist)
    (beyond : bufLength < (component pathlist i).length + name.length + 2 ∨ intMax < following pathlist i) :
    copyComponent pathlist i m = none ∨
      ∃ m₁, copyComponent pathlist i m = some (following pathlist i, (component pathlist i).length, m₁) ∧
        appendName name (component pathlist i).length m₁ = none := by
  have enough := buf_end
  have proper := component_proper (i := i) proper
  rw [copyComponent_eq inside small]
  by_cases index : following pathlist i ≤ intMax
  · rw [if_pos index]
    by_cases fits : (component pathlist i).length ≤ bufLength
    · obtain ⟨m₁, copied, new, -⟩ := Window.pokeAll_inside (w := buf) (m := m) (p := 0) (l := component pathlist i)
        (Int.le_refl _) (by omega)
      right
      refine ⟨m₁, ?_, appendName_outside (holds_of_getD new) proper (by omega)⟩
      rw [copied]
      rfl
    · left
      rw [Window.pokeAll_outside (by omega) (by omega)]
      rfl
  · left
    rw [if_neg index]

theorem components_nil : components [] = [] := rfl

theorem components_drop (more : i < pathlist.length) :
    components (pathlist.drop i) = component pathlist i :: components (pathlist.drop (following pathlist i)) := by
  have left : pathlist.drop (following pathlist i) = (pathlist.drop i).drop ((component pathlist i).length + 1) := by
    rw [List.drop_drop, following]
    rcases Nat.le_total pathlist.length (i + ((component pathlist i).length + 1)) with beyond | inside
    · rw [Nat.min_eq_left beyond, List.drop_length, List.drop_of_length_le beyond]
    · rw [Nat.min_eq_right inside]
  rw [left]
  apply components_cons
  intro empty
  have length := List.length_drop (i := i) (l := pathlist)
  rw [empty, List.length_nil] at length
  omega

theorem inBounds_iff (more : i < pathlist.length) :
    InBounds files pathlist name i ↔
      ((component pathlist i).length + name.length + 2 ≤ bufLength ∧ following pathlist i ≤ intMax) ∧
        (files.executable (inDirectory name (component pathlist i)) = false →
          InBounds files pathlist name (following pathlist i)) := by
  have sum : ∀ n, min pathlist.length (following pathlist i + n) =
      min pathlist.length (i + ((component pathlist i).length + 1 + n)) := by
    intro n
    unfold following
    omega
  constructor
  · intro ⟨room, index⟩
    rw [components_drop more, tried] at room index
    rw [List.forall_mem_cons] at room
    rw [List.map_cons, List.sum_cons] at index
    refine ⟨⟨room.1, ?_⟩, ?_⟩
    · unfold following
      omega
    · intro missing
      rw [missing, if_neg Bool.false_ne_true] at room index
      exact ⟨room.2, (sum _).trans_le index⟩
  · intro ⟨⟨room, index⟩, rest⟩
    cases found : files.executable (inDirectory name (component pathlist i)) with
    | true =>
      constructor <;> rw [components_drop more, tried, found, if_pos rfl]
      · exact List.forall_mem_singleton.mpr room
      · exact (sum 0).symm.trans_le (Nat.le_trans (Nat.min_le_right _ _) index)
    | false =>
      obtain ⟨rooms, indexes⟩ := rest found
      constructor <;> rw [components_drop more, tried, found, if_neg Bool.false_ne_true]
      · exact List.forall_mem_cons.mpr ⟨room, rooms⟩
      · exact (sum _).symm.trans_le indexes

theorem searchPath_cases (enough : pathlist.length - i < fuel) (inside : i ≤ pathlist.length) (small : i ≤ intMax)
    (proper : nul ∉ pathlist) (named : nul ∉ name) :
    (InBounds files pathlist name i →
      searchPath files pathlist name fuel i m =
        some (((components (pathlist.drop i)).map (inDirectory name)).find? files.executable)) ∧
    (¬ InBounds files pathlist name i → searchPath files pathlist name fuel i m = none) := by
  induction fuel generalizing i m with
  | zero => exact absurd enough (Nat.not_lt_zero _)
  | succ fuel ih =>
    rw [searchPath]
    by_cases more : i < pathlist.length
    · have moved : i < following pathlist i := by
        unfold following
        omega
      have inside' : following pathlist i ≤ pathlist.length := Nat.min_le_left _ _
      rw [if_pos more, inBounds_iff more, components_drop more, List.map_cons]
      by_cases fits : (component pathlist i).length + name.length + 2 ≤ bufLength ∧ following pathlist i ≤ intMax
      · obtain ⟨m₁, m₂, copied, appended, asked⟩ := candidate_inside (m := m) inside small proper named fits.1 fits.2
        simp only [copied, appended, asked, Option.bind_eq_bind, Option.bind_some, fits, and_self, true_and]
        cases found : files.executable (inDirectory name (component pathlist i)) with
        | true => simp [found]
        | false =>
          rw [if_neg Bool.false_ne_true, List.find?_cons_of_neg (by rw [found]; exact Bool.false_ne_true)]
          simpa using ih (m := m₂) (by omega) inside' fits.2
      · refine ⟨fun bounds => absurd bounds.1 fits, fun _ => ?_⟩
        have beyond : bufLength < (component pathlist i).length + name.length + 2 ∨ intMax < following pathlist i := by omega
        rcases candidate_outside (m := m) inside small proper beyond with stopped | ⟨m₁, copied, stopped⟩
        · rw [stopped]
          rfl
        · rw [copied, Option.bind_eq_bind, Option.bind_some]
          dsimp only
          rw [stopped]
          rfl
    · have last : pathlist.drop i = [] := List.drop_of_length_le (Nat.le_of_not_lt more)
      have bounds : InBounds files pathlist name i := by
        constructor <;> rw [last, components_nil, tried]
        · exact List.forall_mem_nil _
        · exact Nat.le_trans (Nat.min_le_right _ _) small
      rw [if_neg more, last, components_nil]
      exact ⟨fun _ => rfl, fun other => absurd bounds other⟩

theorem resolveExternalCmd_cases (files : Files) (m : Memory) (proper : nul ∉ pathlist) (named : nul ∉ name)
    (plain : slash ∉ name) :
    (InBounds files pathlist name 0 → resolveExternalCmd files (some pathlist) name m =
      some (((components pathlist).map (inDirectory name)).find? files.executable)) ∧
    (¬ InBounds files pathlist name 0 → resolveExternalCmd files (some pathlist) name m = none) := by
  rw [resolveExternalCmd, if_neg (by simpa using plain)]
  exact searchPath_cases (Nat.lt_succ_self pathlist.length) (Nat.zero_le _) (Nat.zero_le _) proper named

/-- The command is found in the first directory of the `PATH` that has it, with no write beyond `buf`, exactly if what is
    tried is in bounds. -/
theorem found_first_iff (files : Files) (m : Memory) (proper : nul ∉ pathlist) (named : nul ∉ name)
    (plain : slash ∉ name) :
    resolveExternalCmd files (some pathlist) name m =
        some (((components pathlist).map (inDirectory name)).find? files.executable) ↔
      InBounds files pathlist name 0 := by
  obtain ⟨good, bad⟩ := resolveExternalCmd_cases files m proper named plain
  constructor
  · intro found
    by_contra outside
    cases (bad outside).symm.trans found
  · exact good

def ls : Text := [108#8, 115#8]

/-- A file system where `/bin` has no `ls`, and `/usr/bin` has it. -/
def usrBin : Files where
  stat path := if path = inDirectory ls [47#8, 117#8, 115#8, 114#8, 47#8, 98#8, 105#8, 110#8] then some false else none
  access _ := true

def binPath : Text := [47#8, 98#8, 105#8, 110#8, 58#8, 47#8, 117#8, 115#8, 114#8, 47#8, 98#8, 105#8, 110#8]

theorem found_first_ls : resolveExternalCmd usrBin (some binPath) ls (fun _ => nul) =
    some (some (inDirectory ls [47#8, 117#8, 115#8, 114#8, 47#8, 98#8, 105#8, 110#8])) :=
  (found_first_iff usrBin (fun _ => nul) (by decide) (by decide) (by decide)).mpr ⟨by decide, by decide⟩

theorem long_component_overruns : resolveExternalCmd usrBin (some (List.replicate 1022 97#8)) ls (fun _ => nul) ≠
    some (((components (List.replicate 1022 97#8)).map (inDirectory ls)).find? usrBin.executable) := by
  have whole : component (List.replicate 1022 97#8) 0 = List.replicate 1022 97#8 := by
    apply List.takeWhile_eq_self_iff.mpr
    intro c member
    rw [List.eq_of_mem_replicate member]
    decide
  have proper : nul ∉ List.replicate 1022 97#8 := fun member => absurd (List.eq_of_mem_replicate member) (by decide)
  have outside : ¬ InBounds usrBin (List.replicate 1022 97#8) ls 0 := by
    intro bounds
    have more : 0 < (List.replicate 1022 97#8).length := by rw [List.length_replicate]; decide
    have room := ((inBounds_iff more).mp bounds).1.1
    rw [whole, List.length_replicate] at room
    exact absurd room (by decide)
  rw [(resolveExternalCmd_cases usrBin _ proper (by decide) (by decide)).2 outside]
  exact nofun

end Eecs343.TinyShell
