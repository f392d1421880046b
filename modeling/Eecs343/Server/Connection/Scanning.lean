import Mathlib.Data.List.TakeWhile
import Eecs343.Server.Connection.Model

namespace Eecs343.Server.Connection

open Seats

/-- The places of the buffer that the scanning loops of `handle_connection` read. -/
def readPlaces (buf : Nat → Char) : List Nat :=
  (instr buf).reads ++ if accepted buf then (file buf).reads ++ (type buf).reads else []

/-- Where the first word of a line ends for `handle_connection`, which takes at most 19 characters for it. -/
def wordEnd (line : List Char) : Nat := min 19 (line.findIdx isSpace)

/-- The first word ends inside the line. Where it begins with GET, so does the file name, which starts two places
    behind the word, and the place behind the name is still inside. -/
def Scannable (line : List Char) : Prop :=
  ((∃ c ∈ line, isSpace c = true) ∨ 19 ≤ line.length) ∧
    ("GET".toList <+: line →
      (∃ c ∈ line.drop (wordEnd line + 2), isSpace c = true) ∨ wordEnd line + 102 ≤ line.length)

structure Holds (buf : Nat → Char) (line : List Char) : Prop where
  chars : ∀ (i : Nat) (inside : i < line.length), buf i = (line)[i]
  ends : buf line.length = nul

theorem holds_fill (buf : Nat → Char) (text : List Char) : Holds (fill buf text) (cString text) where
  chars := by
    intro i inside
    have begins : cString text <+: text := List.takeWhile_prefix _
    have bound := Nat.lt_of_lt_of_le inside begins.length_le
    rw [fill, if_pos bound, begins.getElem inside]
    simp [bound]
  ends := by
    have whole := List.takeWhile_append_dropWhile (p := fun c => c ≠ nul) (l := text)
    change cString text ++ _ = text at whole
    cases rest : text.dropWhile fun c => c ≠ nul with
    | nil =>
      rw [rest, List.append_nil] at whole
      rw [whole]
      simp [fill]
    | cons c rest' =>
      rw [rest] at whole
      have cut : c = nul := by
        have stopped := List.head?_dropWhile_not (fun c => decide (c ≠ nul)) text
        rw [rest] at stopped
        simpa using stopped
      generalize cString text = line at whole
      rw [← whole, cut]
      simp [fill]

variable {stop : Char → Bool} {buf : Nat → Char} {limit j : Nat} {line : List Char}

theorem le_scan_next : j ≤ (scan stop buf limit j).next := by
  induction limit generalizing j with
  | zero => exact Nat.le_refl _
  | succ limit ih =>
    rw [scan]
    split
    · exact Nat.le_refl _
    · exact Nat.le_of_succ_le ih

theorem scan_reads (bound : Nat) : (∀ i ∈ (scan stop buf limit j).reads, i ≤ bound) ↔ (scan stop buf limit j).next ≤ bound := by
  induction limit generalizing j with
  | zero => simp [scan]
  | succ limit ih =>
    rw [scan]
    split
    · simp
    · have later : j + 1 ≤ (scan stop buf limit (j + 1)).next := le_scan_next
      rw [List.forall_mem_cons, ih]
      dsimp only
      omega

/-- It stops before `bound` at a character that stops it or at its limit. -/
theorem scan_next_lt (bound : Nat) : (scan stop buf limit j).next < bound ↔
    j + limit < bound ∨ ∃ w, j ≤ w ∧ w < bound ∧ stop (buf w) = true := by
  induction limit generalizing j with
  | zero =>
    rw [scan, Nat.add_zero]
    constructor
    · exact .inl
    · intro either
      rcases either with inside | ⟨w, after, inside, _⟩
      · exact inside
      · exact Nat.lt_of_le_of_lt after inside
  | succ limit ih =>
    rw [scan]
    split
    · rename_i stops
      dsimp only
      constructor
      · intro inside
        exact .inr ⟨j, Nat.le_refl j, inside, stops⟩
      · intro either
        rcases either with inside | ⟨w, after, inside, _⟩
        · omega
        · omega
    · rename_i goes
      dsimp only
      rw [ih, Nat.add_right_comm, Nat.add_assoc]
      apply or_congr_right
      constructor
      · intro later
        obtain ⟨w, after, inside, stops⟩ := later
        exact ⟨w, Nat.le_of_succ_le after, inside, stops⟩
      · intro later
        obtain ⟨w, after, inside, stops⟩ := later
        have different : w ≠ j := fun same => goes (same ▸ stops)
        exact ⟨w, by omega, inside, stops⟩

theorem isSpace_nul : isSpace nul = false := by decide

theorem Holds.blank_iff (holds : Holds buf line) (start : Nat) :
    (∃ c ∈ line.drop start, isSpace c = true) ↔ ∃ w, start ≤ w ∧ w < line.length ∧ isSpace (buf w) = true := by
  constructor
  · intro ⟨c, member, blank⟩
    obtain ⟨i, inside, rfl⟩ := List.getElem_of_mem member
    rw [List.length_drop] at inside
    refine ⟨start + i, Nat.le_add_right _ _, by omega, ?_⟩
    rw [holds.chars (start + i) (by omega)]
    rwa [List.getElem_drop] at blank
  · intro ⟨w, after, inside, blank⟩
    rw [holds.chars w inside] at blank
    refine ⟨(line)[w], ?_, blank⟩
    have place : (line.drop start)[w - start]? = some (line)[w] := by
      rw [List.getElem?_drop, show start + (w - start) = w by omega, List.getElem?_eq_getElem inside]
    exact List.mem_of_getElem? place

theorem Holds.blank_succ (holds : Holds buf line) (start : Nat) :
    (∃ w, start ≤ w ∧ w < line.length + 1 ∧ isSpace (buf w) = true) ↔ ∃ c ∈ line.drop start, isSpace c = true := by
  rw [holds.blank_iff]
  constructor
  · intro ⟨w, after, inside, blank⟩
    have different : w ≠ line.length := by
      rintro rfl
      rw [holds.ends, isSpace_nul] at blank
      cases blank
    exact ⟨w, after, by omega, blank⟩
  · intro ⟨w, after, inside, blank⟩
    exact ⟨w, after, Nat.lt_succ_of_lt inside, blank⟩

/-- The first loop stops in the line where the line has a blank, or enough characters for the whole of `instr`. -/
theorem Holds.instr_iff (holds : Holds buf line) :
    (instr buf).next ≤ line.length ↔ (∃ c ∈ line, isSpace c = true) ∨ 19 ≤ line.length := by
  have blank := holds.blank_succ 0
  rw [List.drop_zero] at blank
  rw [← Nat.lt_succ_iff, instr, scan_next_lt, blank, or_comm, Nat.zero_add, Nat.lt_succ_iff]

theorem Holds.instr_next (holds : Holds buf line) (ends : (∃ c ∈ line, isSpace c = true) ∨ 19 ≤ line.length) :
    (instr buf).next = wordEnd line := by
  have index : line.findIdx isSpace ≤ line.length := List.findIdx_le_length
  apply Nat.le_antisymm
  · rw [← Nat.lt_succ_iff, instr, scan_next_lt, wordEnd]
    by_cases long : 19 ≤ line.findIdx isSpace
    · left
      omega
    · have inside : line.findIdx isSpace < line.length := by
        rcases ends with blank | enough
        · exact List.findIdx_lt_length_of_exists blank
        · omega
      refine .inr ⟨line.findIdx isSpace, Nat.zero_le _, by omega, ?_⟩
      rw [holds.chars _ inside]
      exact List.findIdx_getElem
  · rw [← Nat.not_lt, instr, scan_next_lt, wordEnd]
    intro either
    rcases either with beyond | ⟨w, _, before, blank⟩
    · omega
    · have early : w < line.findIdx isSpace := by omega
      rw [holds.chars w (by omega)] at blank
      rw [List.not_of_lt_findIdx early] at blank
      cases blank

/-- The second and the third loop stop in the line where the second one finds a blank, or enough characters for the
    whole of `file` and one more. -/
theorem Holds.type_iff (holds : Holds buf line) : (type buf).next ≤ line.length ↔
    (∃ c ∈ line.drop ((instr buf).next + 2), isSpace c = true) ∨ (instr buf).next + 102 ≤ line.length := by
  have stops : isSpace (buf line.length) || decide (buf line.length = nul) := by simp [holds.ends]
  rw [← Nat.lt_succ_iff, type, scan_next_lt, holds.blank_iff]
  have second : (file buf).next < line.length ↔ (instr buf).next + 2 + 99 < line.length ∨
      ∃ w, (instr buf).next + 2 ≤ w ∧ w < line.length ∧ isSpace (buf w) = true := scan_next_lt line.length
  rw [or_comm] at second
  rw [show (instr buf).next + 102 ≤ line.length ↔ (instr buf).next + 2 + 99 < line.length by omega, ← second]
  constructor
  · rintro (inside | ⟨w, after, inside, _⟩) <;> omega
  · intro inside
    exact .inr ⟨line.length, inside, Nat.lt_succ_self _, stops⟩

theorem prefix_scan_iff {word : List Char} (solid : ∀ c ∈ word, stop c = false) (fits : word.length ≤ limit) :
    word <+: (scan stop buf limit j).text ↔ At buf j word := by
  induction word generalizing limit j with
  | nil => simp [At]
  | cons c word ih =>
    obtain ⟨limit, rfl⟩ : ∃ left, limit = left + 1 := ⟨limit - 1, by simp at fits; omega⟩
    obtain ⟨goes, solid⟩ := List.forall_mem_cons.mp solid
    have later : word <+: (scan stop buf limit (j + 1)).text ↔ At buf (j + 1) word := ih solid (by simpa using fits)
    rw [scan, At]
    split
    · rename_i stops
      apply iff_of_false
      · simp
      · rintro ⟨rfl, _⟩
        rw [goes] at stops
        cases stops
    · rw [List.cons_prefix_cons, later, eq_comm]

theorem equalUpTo_length_iff (bytes name : List Char) : equalUpTo name.length bytes name = true ↔ name <+: bytes := by
  induction name generalizing bytes with
  | nil => simp [equalUpTo]
  | cons d name ih =>
    cases bytes with
    | nil => simp [equalUpTo]
    | cons c bytes => simp [equalUpTo, ih, List.cons_prefix_cons, @eq_comm _ d c]

theorem prefix_cString_iff {word : List Char} (whole : nul ∉ word) (bytes : List Char) :
    word <+: cString bytes ↔ word <+: bytes := by
  induction word generalizing bytes with
  | nil => simp
  | cons c word ih =>
    rw [List.mem_cons, not_or] at whole
    cases bytes with
    | nil => simp [cString]
    | cons d bytes =>
      have later := ih whole.2 bytes
      rw [cString] at later ⊢
      by_cases cut : d = nul
      · rw [cut, List.takeWhile_cons_of_neg (by simp), List.cons_prefix_cons]
        exact iff_of_false (by simp) fun begins => whole.1 begins.1.symm
      · rw [List.takeWhile_cons_of_pos (by simpa using cut), List.cons_prefix_cons, List.cons_prefix_cons, later]

theorem Holds.at_iff (holds : Holds buf line) {word : List Char} (whole : nul ∉ word) (inside : j ≤ line.length) :
    At buf j word ↔ word <+: line.drop j := by
  induction word generalizing j with
  | nil => simp [At]
  | cons c word ih =>
    rw [List.mem_cons, not_or] at whole
    rw [At]
    by_cases before : j < line.length
    · rw [ih whole.2 before, List.drop_eq_getElem_cons before, List.cons_prefix_cons, holds.chars j before, eq_comm]
    · obtain rfl : j = line.length := by omega
      rw [holds.ends]
      apply iff_of_false
      · exact fun shows => whole.1 shows.1
      · simp

theorem Holds.accepted_iff (holds : Holds buf line) : accepted buf = true ↔ "GET".toList <+: line := by
  have get := equalUpTo_length_iff (cString (instr buf).text) "GET".toList
  have shows : At buf 0 "GET".toList ↔ "GET".toList <+: line.drop 0 := holds.at_iff (by decide) (Nat.zero_le _)
  have word : "GET".toList <+: (instr buf).text ↔ At buf 0 "GET".toList := prefix_scan_iff (solid_of_any (by decide)) (by decide)
  rw [List.drop_zero] at shows
  rw [accepted, ← shows, ← word, ← prefix_cString_iff (by decide)]
  exact get

theorem Holds.readPlaces_iff (holds : Holds buf line) : (∀ i ∈ readPlaces buf, i ≤ line.length) ↔ Scannable line := by
  rw [readPlaces, List.forall_mem_append, instr, scan_reads, ← instr, holds.instr_iff, Scannable]
  apply and_congr_right
  intro ends
  rw [← holds.accepted_iff, ← holds.instr_next ends, ← holds.type_iff]
  by_cases get : accepted buf = true
  · rw [if_pos get, List.forall_mem_append, file, scan_reads, ← file, type, scan_reads, ← type]
    have order : (file buf).next + 1 ≤ (type buf).next := le_scan_next
    constructor
    · exact fun both _ => both.2
    · exact fun inside => ⟨by have := inside get; omega, inside get⟩
  · simp [get]

/-- The scanning loops read only up to the NUL of the string that `get_line` has put into the buffer exactly where the
    string can be scanned. -/
theorem scanning_inside_iff (stack : Nat → Char) (stream : List Char) :
    (∀ i ∈ readPlaces (fill stack (getLine bufsize stream).1), i ≤ (cString (getLine bufsize stream).1).length) ↔
      Scannable (cString (getLine bufsize stream).1) :=
  (holds_fill stack _).readPlaces_iff

/-- "GET /" has no blank behind the file name. -/
theorem short_request_overread : ∃ stack stream, getLine bufsize stream = ("GET /".toList, "\r\n".toList) ∧
    ¬ ∀ i ∈ readPlaces (fill stack (getLine bufsize stream).1), i ≤ (cString (getLine bufsize stream).1).length := by
  refine ⟨fun _ => ' ', "GET /\r\n\r\n".toList, by decide, ?_⟩
  intro inside
  exact absurd (inside 6 (by decide)) (by decide)

end Eecs343.Server.Connection
