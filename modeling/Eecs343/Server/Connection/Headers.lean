import Eecs343.Server.Connection.Model

namespace Eecs343.Server.Connection

open Seats

def crlf : List Char := ['\r', '\n']

def block (headers : List (List Char)) : List Char := headers.flatMap fun header => header ++ crlf

/-- What the calls of `get_line` leave of a stream, for the request line and then for the headers. -/
def readRequest (stack : Nat → Char) (stream : List Char) : List Char :=
  (skipHeaders (fill stack (getLine bufsize stream).1) (getLine bufsize stream).2).2

/-- A line that `get_line` returns in whole buffers, with nothing over. -/
def Exhausts (line : List Char) : Prop := line ≠ [] ∧ 1023 ∣ line.length

theorem handleConnection_rest (stack : Nat → Char) (stream : List Char)
    (get : accepted (fill stack (getLine bufsize stream).1) = true) :
    (handleConnection stack stream).rest = readRequest stack stream := by
  simp only [handleConnection, get, if_true, readRequest]

theorem getLine_short {line : List Char} (unbroken : Unbroken line) (short : line.length < 1023) (rest : List Char) :
    getLine bufsize (line ++ crlf ++ rest) = (line, rest) := by
  obtain ⟨room, left⟩ : ∃ room, 1023 - line.length = room + 1 := ⟨1022 - line.length, by omega⟩
  rw [getLine_bufsize, List.append_assoc, getChars_append unbroken (Nat.le_of_lt short), left]
  simp [crlf, getChars]

theorem getLine_long {line : List Char} (unbroken : Unbroken line) (long : 1023 ≤ line.length) (rest : List Char) :
    getLine bufsize (line ++ crlf ++ rest) = (line.take 1023, line.drop 1023 ++ crlf ++ rest) := by
  have piece : (line.take 1023).length = 1023 := by
    rw [List.length_take]
    omega
  have start : Unbroken (line.take 1023) := fun c member => unbroken c (List.mem_of_mem_take member)
  have split : line ++ crlf ++ rest = line.take 1023 ++ (line.drop 1023 ++ crlf ++ rest) := by
    rw [← List.append_assoc, ← List.append_assoc, List.take_append_drop]
  rw [getLine_bufsize, split, getChars_append start (Nat.le_of_eq piece), piece]
  simp [getChars]

theorem skipHeaders_snd (buf buf' : Nat → Char) (stream : List Char) :
    (skipHeaders buf stream).2 = (skipHeaders buf' stream).2 := by
  induction buf, stream using skipHeaders.induct generalizing buf' with
  | case1 buf stream line stored ih =>
    rw [skipHeaders.eq_def buf, skipHeaders.eq_def buf', dif_pos stored, dif_pos stored]
    exact ih _
  | case2 buf stream line empty =>
    rw [skipHeaders.eq_def buf, skipHeaders.eq_def buf', dif_neg empty, dif_neg empty]

theorem dvd_rest {line : List Char} (long : 1023 ≤ line.length) :
    1023 ∣ (line.drop 1023).length ↔ 1023 ∣ line.length := by
  rw [List.length_drop]
  exact Nat.dvd_sub_iff_left long (Nat.dvd_refl _)

theorem skipHeaders_stored {buf : Nat → Char} {stream line rest : List Char} (got : getLine bufsize stream = (line, rest))
    (stored : line ≠ []) : (skipHeaders buf stream).2 = (skipHeaders buf rest).2 := by
  rw [skipHeaders.eq_def buf stream, got, dif_pos stored]
  exact skipHeaders_snd _ _ _

theorem skipHeaders_empty {buf : Nat → Char} {stream rest : List Char} (got : getLine bufsize stream = ([], rest)) :
    (skipHeaders buf stream).2 = rest := by
  rw [skipHeaders.eq_def buf stream, got, dif_neg (by simp)]

theorem skipHeaders_line {line : List Char} (unbroken : Unbroken line) (buf : Nat → Char) (rest : List Char) :
    (skipHeaders buf (line ++ crlf ++ rest)).2 = if 1023 ∣ line.length then rest else (skipHeaders buf rest).2 := by
  induction length : line.length using Nat.strongRecOn generalizing line with
  | _ count ih =>
    subst length
    by_cases short : line.length < 1023
    · have got := getLine_short unbroken short rest
      by_cases empty : line = []
      · rw [empty] at got ⊢
        rw [if_pos (by simp)]
        exact skipHeaders_empty got
      · have positive := List.length_pos_of_ne_nil empty
        rw [if_neg (Nat.not_dvd_of_pos_of_lt positive short)]
        exact skipHeaders_stored got empty
    · have got := getLine_long unbroken (Nat.le_of_not_lt short) rest
      have piece : line.take 1023 ≠ [] := by
        intro none
        have := congrArg List.length none
        rw [List.length_take, List.length_nil] at this
        omega
      have later : Unbroken (line.drop 1023) := fun c member => unbroken c (List.mem_of_mem_drop member)
      rw [skipHeaders_stored got piece, ih (line.drop 1023).length (by rw [List.length_drop]; omega) later rfl]
      simp only [dvd_rest (Nat.le_of_not_lt short)]

theorem block_longer (headers : List (List Char)) (body : List Char) : block headers ++ crlf ++ body ≠ body := by
  intro same
  have := congrArg List.length same
  simp [crlf] at this
  omega

theorem skipHeaders_block (buf : Nat → Char) {headers : List (List Char)} (unbroken : ∀ header ∈ headers, Unbroken header)
    (body : List Char) : (skipHeaders buf (block headers ++ crlf ++ body)).2 = body ↔
      ∀ header ∈ headers, ¬ 1023 ∣ header.length := by
  induction headers with
  | nil =>
    have empty := @skipHeaders_line [] (fun _ none => by cases none) buf body
    simpa [block] using empty
  | cons header headers ih =>
    obtain ⟨first, later⟩ := List.forall_mem_cons.mp unbroken
    have split : block (header :: headers) ++ crlf ++ body = header ++ crlf ++ (block headers ++ crlf ++ body) := by
      simp [block]
    rw [split, skipHeaders_line first, List.forall_mem_cons, ← ih later]
    split
    · rename_i divides
      exact iff_of_false (block_longer headers body) fun both => both.1 divides
    · rename_i divides
      exact (and_iff_right divides).symm

theorem exhausts_length {line : List Char} (short : line.length < 1023) : ¬ Exhausts line := by
  rintro ⟨some, divides⟩
  exact Nat.not_dvd_of_pos_of_lt (List.length_pos_of_ne_nil some) short divides

/-- A request and its headers are read up to the empty line behind them, and no further, exactly where no line takes
    whole buffers. -/
theorem readRequest_block_iff (stack : Nat → Char) {request : List Char} {headers : List (List Char)}
    (unbroken : ∀ line ∈ request :: headers, Unbroken line) (filled : ∀ header ∈ headers, header ≠ []) (body : List Char) :
    readRequest stack (request ++ crlf ++ (block headers ++ crlf ++ body)) = body ↔
      ∀ line ∈ request :: headers, ¬ Exhausts line := by
  obtain ⟨first, later⟩ := List.forall_mem_cons.mp unbroken
  have headersFit : (∀ header ∈ headers, ¬ Exhausts header) ↔ ∀ header ∈ headers, ¬ 1023 ∣ header.length := by
    apply forall₂_congr
    intro header member
    rw [Exhausts, and_iff_right (filled header member)]
  rw [List.forall_mem_cons, headersFit, readRequest]
  by_cases short : request.length < 1023
  · rw [getLine_short first short, skipHeaders_block _ later, and_iff_right (exhausts_length short)]
  · have long := Nat.le_of_not_lt short
    have rest : Unbroken (request.drop 1023) := fun c member => first c (List.mem_of_mem_drop member)
    have some : request ≠ [] := by
      rintro rfl
      simp at long
    rw [getLine_long first long, skipHeaders_line rest, Exhausts, and_iff_right some]
    simp only [dvd_rest long]
    split
    · rename_i divides
      exact iff_of_false (block_longer headers body) fun both => both.1 divides
    · rename_i divides
      rw [skipHeaders_block _ later, and_iff_right divides]

/-- The calls of `get_line` stop right behind the empty line exactly where no line takes whole buffers; they are all
    that `handle_connection` reads of a request that it accepts. -/
theorem header_block_consumed_iff (stack : Nat → Char) (request : List Char) (headers : List (List Char))
    (body : List Char)
    (unbroken : ∀ line ∈ request :: headers, Unbroken line) (filled : ∀ header ∈ headers, header ≠ []) :
    let stream := request ++ crlf ++ (block headers ++ crlf ++ body)
    (readRequest stack stream = body ↔ ∀ line ∈ request :: headers, ¬ Exhausts line) ∧
      (accepted (fill stack (getLine bufsize stream).1) = true →
        (handleConnection stack stream).rest = readRequest stack stream) :=
  ⟨readRequest_block_iff stack unbroken filled body, handleConnection_rest stack _⟩

/-- A request with one short header. -/
theorem short_header_consumed : readRequest (fun _ => nul)
    ("GET / HTTP/1.0".toList ++ crlf ++ (block ["Host: here".toList] ++ crlf ++ "body".toList)) = "body".toList := by
  have unbroken : ∀ line ∈ ["GET / HTTP/1.0".toList, "Host: here".toList], Unbroken line := by
    intro line member
    rcases List.mem_pair.mp member with rfl | rfl
    · exact unbroken_of_not_mem (by decide) (by decide)
    · exact unbroken_of_not_mem (by decide) (by decide)
  apply (header_block_consumed_iff _ _ _ _ unbroken (by decide)).1.mpr
  intro line member
  apply exhausts_length
  revert line
  decide

/-- The headers are taken to end behind a header of 1023 characters. -/
theorem long_header_ends : ∃ stack request headers body, (∀ line ∈ request :: headers, Unbroken line) ∧
    (∀ header ∈ headers, header ≠ []) ∧ readRequest stack (request ++ crlf ++ (block headers ++ crlf ++ body)) ≠ body := by
  obtain ⟨header, length, letters⟩ : ∃ header : List Char, header.length = 1023 ∧ ∀ c ∈ header, c = 'a' :=
    ⟨List.replicate 1023 'a', List.length_replicate, fun _ => List.eq_of_mem_replicate⟩
  have some : header ≠ [] := by
    rintro rfl
    cases length
  have unbroken : ∀ line ∈ ["GET / HTTP/1.0".toList, header], Unbroken line := by
    intro line member
    rcases List.mem_pair.mp member with rfl | rfl
    · exact unbroken_of_not_mem (by decide) (by decide)
    · intro c inside
      rw [letters c inside]
      decide
  have filled : ∀ line ∈ [header], line ≠ [] := by
    intro line member
    rwa [List.mem_singleton.mp member]
  refine ⟨fun _ => nul, _, _, [], unbroken, filled, ?_⟩
  intro consumed
  have fits := (readRequest_block_iff _ unbroken filled []).mp consumed _ (List.mem_cons_of_mem _ List.mem_cons_self)
  exact fits ⟨some, 1, length⟩

end Eecs343.Server.Connection
