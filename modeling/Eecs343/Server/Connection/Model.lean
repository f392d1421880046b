import Eecs343.Server.Requests

namespace Eecs343.Server.Connection

open Seats

def nul : Char := Char.ofNat 0

/-- `isspace`: the blank and the characters from tab to carriage return. -/
def isSpace (c : Char) : Bool := c.toNat = 32 ∨ 9 ≤ c.toNat ∧ c.toNat ≤ 13

/-- The string that starts here: everything before the first NUL. -/
def cString (bytes : List Char) : List Char := bytes.takeWhile fun c => c ≠ nul

/-- `strncmp(a, b, n) == 0`, for strings. -/
def equalUpTo : Nat → List Char → List Char → Bool
  | 0, _, _ => true
  | _ + 1, [], [] => true
  | n + 1, c :: a, d :: b => c = d && equalUpTo n a b
  | _ + 1, _, _ => false

/-- The loop of `get_line` with `room` characters left in the buffer: what it stores, and what it leaves of the
    stream. -/
def getChars : Nat → List Char → List Char × List Char
  | 0, stream => ([], stream)
  | _ + 1, [] => ([], [])
  | room + 1, c :: rest =>
    if c = '\r' then
      -- A return with a newline ends the line and is not stored; any other pair is stored as a newline.
      if rest.head? = some '\n' then ([], rest.tail) else (['\n'], rest.tail)
    else if c = '\n' then (['\n'], rest)
    else
      let later := getChars room rest
      (c :: later.1, later.2)

def getLine (size : Int) (stream : List Char) : List Char × List Char := getChars (size - 1).toNat stream

/-- The buffer after `get_line` has put `text` into it: behind its NUL is what was there before. -/
def fill (buf : Nat → Char) (text : List Char) : Nat → Char := fun i =>
  if i < text.length then text.getD i nul else if i = text.length then nul else buf i

/-- What a scanning loop has copied, where it stands and the places of `buf` it has read. -/
structure Scan where
  text : List Char
  next : Nat
  reads : List Nat

/-- `while (!stop(buf[j]) && i < limit) { to[i] = buf[j]; i++; j++; }`. The character is read before the limit is
    looked at. -/
def scan (stop : Char → Bool) (buf : Nat → Char) : Nat → Nat → Scan
  | 0, j => ⟨[], j, [j]⟩
  | limit + 1, j =>
    if stop (buf j) then ⟨[], j, [j]⟩
    else
      let later := scan stop buf limit (j + 1)
      ⟨buf j :: later.text, later.next, j :: later.reads⟩

/-- `char instr[20]`. -/
def instr (buf : Nat → Char) : Scan := scan isSpace buf 19 0

/-- `char file[100]`, from two characters behind the instruction. -/
def file (buf : Nat → Char) : Scan := scan isSpace buf 99 ((instr buf).next + 2)

/-- `char type[20]`. -/
def type (buf : Nat → Char) : Scan := scan (fun c => isSpace c || c = nul) buf 19 ((file buf).next + 1)

/-- `strncmp(instr, "GET", 3) == 0`. -/
def accepted (buf : Nat → Char) : Bool := equalUpTo 3 (cString (instr buf).text) "GET".toList

/-- The loop of `parse_int_arg`, with what it does to its result at a digit. The flags say that the key has been
    found and that the list of arguments has begun. -/
def parseLoop {α : Type} (arg : List Char) (digit : α → Char → α) (valueStart argListStart : Bool) (result : α)
    (filename : List Char) : α :=
  match filename with
  | [] => result
  | c :: rest =>
    if argListStart = false then parseLoop arg digit valueStart (c = '?') result rest
    else
      -- At the key the index jumps behind it, and the same round looks at the character there.
      let found := valueStart = false ∧ arg.isPrefixOf (c :: rest)
      if valueStart ∨ found then
        match _jumped : if found then (c :: rest).drop arg.length else c :: rest with
        | [] => result
        | d :: after => if d.isDigit then parseLoop arg digit true true (digit result d) after else result
      else parseLoop arg digit false true result rest
termination_by filename.length
decreasing_by
  · simp
  · have shorter := congrArg List.length _jumped
    split at shorter
    · simp only [List.length_drop, List.length_cons] at shorter ⊢
      omega
    · simp only [List.length_cons] at shorter ⊢
      omega
  · simp

/-- An `int` after a computation that left this number. -/
def wrap (value : Int) : Int := value.bmod (2 ^ 32)

/-- `seatnum * 10 + (int) filename[i] - (int) '0'`. -/
def addDigit (seatnum : Int) (c : Char) : Int := wrap (wrap (wrap (seatnum * 10) + c.toNat) - 48)

def parseIntArg (filename arg : List Char) : Int := parseLoop arg addDigit false false 0 filename

inductive Operation where
  | listSeats
  | viewSeat
  | confirm
  | cancel
  deriving DecidableEq

def Operation.name : Operation → List Char
  | listSeats => "list_seats".toList
  | viewSeat => "view_seat".toList
  | confirm => "confirm".toList
  | cancel => "cancel".toList

/-- What a connection is answered with. -/
inductive Action where
  | badRequest
  | run (operation : Operation) (seatId userId customerPriority : Int)
  /-- The file of this name, or 404 where it cannot be opened. -/
  | file (resource : List Char)
  deriving DecidableEq

/-- The choice that `handle_connection` makes, from the file name in the request line. -/
def dispatch (file : List Char) : Action :=
  let resource := file.takeWhile fun c => c ≠ '?'
  let seatId := parseIntArg file "seat=".toList
  let userId := parseIntArg file "user=".toList
  let customerPriority := parseIntArg file "priority=".toList
  if equalUpTo resource.length resource Operation.listSeats.name then .run .listSeats seatId userId customerPriority
  else if equalUpTo resource.length resource Operation.viewSeat.name then .run .viewSeat seatId userId customerPriority
  else if equalUpTo resource.length resource Operation.confirm.name then .run .confirm seatId userId customerPriority
  else if equalUpTo resource.length resource Operation.cancel.name then .run .cancel seatId userId customerPriority
  else .file resource

/-- What the action asks of the seats, with `buf` as `get_line` has left it. -/
def Action.request (buf : Nat → Char) : Action → Request
  | .run .listSeats _ _ _ => .listSeats buf
  | .run .viewSeat seatId userId _ => .seat (.viewSeat seatId userId)
  | .run .confirm seatId userId _ => .seat (.confirmSeat seatId userId)
  | .run .cancel seatId userId _ => .seat (.cancel seatId userId)
  | .badRequest | .file _ => .page

theorem getChars_length (room : Nat) (stream : List Char) : (getChars room stream).2.length ≤ stream.length := by
  induction stream generalizing room with
  | nil => cases room <;> exact Nat.le_refl _
  | cons c rest ih =>
    cases room with
    | zero => exact Nat.le_refl _
    | succ room =>
      have later := ih room
      simp only [getChars, List.length_cons]
      split
      · have tail : rest.tail.length ≤ rest.length := by rw [List.length_tail]; omega
        split <;> exact Nat.le_succ_of_le tail
      · split
        · exact Nat.le_succ _
        · exact Nat.le_succ_of_le later

theorem getChars_shorter {room : Nat} {stream : List Char} (stored : (getChars room stream).1 ≠ []) :
    (getChars room stream).2.length < stream.length := by
  cases room with
  | zero => exact (stored rfl).elim
  | succ room =>
    cases stream with
    | nil => exact (stored rfl).elim
    | cons c rest =>
      have later := getChars_length room rest
      simp only [getChars, List.length_cons]
      split
      · have tail : rest.tail.length ≤ rest.length := by rw [List.length_tail]; omega
        split <;> exact Nat.lt_succ_of_le tail
      · split
        · exact Nat.lt_succ_self _
        · exact Nat.lt_succ_of_le later

/-- `while (get_line(connfd, buf, BUFSIZE) > 0)`: the buffer and the stream behind the headers. -/
def skipHeaders (buf : Nat → Char) (stream : List Char) : (Nat → Char) × List Char :=
  let line := getLine bufsize stream
  if _stored : line.1 ≠ [] then skipHeaders (fill buf line.1) line.2 else (fill buf line.1, line.2)
termination_by stream.length
decreasing_by exact getChars_shorter _stored

structure Handled where
  action : Action
  buf : Nat → Char
  rest : List Char

/-- `handle_connection`, up to the action it takes; `stack` is what its buffer holds at first. -/
def handleConnection (stack : Nat → Char) (stream : List Char) : Handled :=
  let line := getLine bufsize stream
  let buf := fill stack line.1
  if accepted buf then
    let headers := skipHeaders buf line.2
    ⟨dispatch (cString (file buf).text), headers.1, headers.2⟩
  else ⟨.badRequest, buf, line.2⟩

theorem getLine_bufsize (stream : List Char) : getLine bufsize stream = getChars 1023 stream := rfl

/-- No character of `text` ends a line. -/
def Unbroken (text : List Char) : Prop := ∀ c ∈ text, c ≠ '\r' ∧ c ≠ '\n'

theorem unbroken_of_not_mem {text : List Char} (cr : '\r' ∉ text) (lf : '\n' ∉ text) : Unbroken text := by
  intro c member
  exact ⟨fun same => cr (same ▸ member), fun same => lf (same ▸ member)⟩

theorem solid_of_any {stop : Char → Bool} {word : List Char} (none : word.any stop = false) :
    ∀ c ∈ word, stop c = false := by
  simpa using none

theorem getChars_append {room : Nat} {text : List Char} (unbroken : Unbroken text) (fits : text.length ≤ room)
    (rest : List Char) : getChars room (text ++ rest) =
      (text ++ (getChars (room - text.length) rest).1, (getChars (room - text.length) rest).2) := by
  induction text generalizing room with
  | nil => simp
  | cons c text ih =>
    obtain ⟨room, rfl⟩ : ∃ left, room = left + 1 := ⟨room - 1, by simp at fits; omega⟩
    obtain ⟨plain, later⟩ := List.forall_mem_cons.mp unbroken
    have inside := @ih room later (by simpa using fits)
    simp only [List.cons_append, getChars, plain.1, plain.2, if_false, inside, List.length_cons, Nat.add_sub_add_right]

/-- The characters of `text` stand in the buffer from place `j` on. -/
def At (buf : Nat → Char) : Nat → List Char → Prop
  | _, [] => True
  | j, c :: rest => buf j = c ∧ At buf (j + 1) rest

theorem at_append {buf : Nat → Char} {j : Nat} {text more : List Char} :
    At buf j (text ++ more) ↔ At buf j text ∧ At buf (j + text.length) more := by
  induction text generalizing j with
  | nil => simp [At]
  | cons c text ih =>
    rw [List.cons_append, At, At, ih, and_assoc, List.length_cons, Nat.add_right_comm, Nat.add_assoc]

theorem at_fill (buf : Nat → Char) (before text : List Char) : At (fill buf (before ++ text)) before.length text := by
  induction text generalizing before with
  | nil => trivial
  | cons c text ih =>
    have later := ih (before ++ [c])
    rw [List.append_assoc, List.singleton_append, List.length_append, List.length_singleton] at later
    exact ⟨by simp [fill], later⟩

theorem scan_word {stop : Char → Bool} {buf : Nat → Char} {limit j : Nat} {word : List Char} (stands : At buf j word)
    (solid : ∀ c ∈ word, stop c = false) (fits : word.length ≤ limit)
    (ends : word.length = limit ∨ stop (buf (j + word.length)) = true) :
    (scan stop buf limit j).text = word ∧ (scan stop buf limit j).next = j + word.length := by
  induction word generalizing limit j with
  | nil =>
    cases limit with
    | zero => exact ⟨rfl, rfl⟩
    | succ limit =>
      have stops : stop (buf j) = true := ends.resolve_left (by simp)
      simp [scan, stops]
  | cons c word ih =>
    obtain ⟨limit, rfl⟩ : ∃ left, limit = left + 1 := ⟨limit - 1, by simp at fits; omega⟩
    obtain ⟨here, later⟩ := stands
    obtain ⟨goes, solid⟩ := List.forall_mem_cons.mp solid
    have rest := @ih limit (j + 1) later solid (by simpa using fits) (by
      rw [List.length_cons] at ends
      rw [Nat.add_right_comm, Nat.add_assoc]
      exact ends.imp_left Nat.succ.inj)
    rw [scan, here, goes]
    simp only [Bool.false_eq_true, if_false, rest, List.length_cons, true_and]
    omega

end Eecs343.Server.Connection
