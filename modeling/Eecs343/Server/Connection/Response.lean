import Eecs343.Server.Connection.Socket
import Eecs343.Server.Seats.Rendering

namespace Eecs343.Server.Seats

def Hall.seatList (h : Hall) : List Seat := (List.range h.numberOfSeats).map h.seats

end Eecs343.Server.Seats

namespace Eecs343.Server.Connection

open Prog Seats

def Response.okResponse : String := "HTTP/1.0 200 OK\r\nContent-type: text/html\r\n\r\n"

def Response.notokResponse : String :=
  "HTTP/1.0 404 FILE NOT FOUND\r\nContent-type: text/html\r\n\r\n" ++
    "<html><body bgColor=white text=black>\n<h2>404 FILE NOT FOUND</h2>\n</body></html>\n"

def Response.badRequest : String :=
  "HTTP/1.0 400 BAD REQUEST\r\nContent-type: text/html\r\n\r\n" ++
    "<html><body><h2>BAD REQUEST</h2></body></html>\n"

/-- The argument of `handle_connection`: the descriptor, the kernel behind it and behind the files that it opens, and
    what the buffer on the stack holds. -/
structure Conn where
  socket : Descriptor
  net : Kernel
  disk : Kernel
  stack : Nat → Char

/-- What `open` finds under a name: the contents, where it succeeds. -/
abbrev Files := List Char → Option (List Char)

namespace Descriptor

variable (kernel : Kernel) (d : Descriptor)

/-- `while (get_line(connfd, buf, BUFSIZE) > 0)`. -/
def skipHeaders (buf : Nat → Char) (d : Descriptor) : (Nat → Char) × Descriptor :=
  let line := d.getLine kernel bufsize
  if _stored : line.1 ≠ [] then skipHeaders (fill buf line.1) line.2 else (fill buf line.1, line.2)
termination_by d.incoming.length
decreasing_by exact (getChars_shorter kernel _ d).2 _stored

/-- `writenbytes(connfd, str, strlen(str))`. -/
def sendText (str : List Char) : Descriptor := (d.writenbytes kernel 0 str).2

/-- `while ((ret = read(fd, buf, BUFSIZE)) > 0) writenbytes(connfd, buf, ret);`. -/
def sendFile (disk : Kernel) (d file : Descriptor) : Descriptor :=
  let ret := file.read disk bufsize.toNat
  if _more : 0 < ret.1 then sendFile disk (d.sendText kernel ret.2.1) ret.2.2 else d
termination_by file.incoming.length
decreasing_by
  have length := read_length disk file bufsize.toNat
  have some := (read_bound disk file bufsize.toNat).2 _more
  omega

end Descriptor

/-- The string in `buf`, of 1025 characters. -/
def string (buf : Nat → Char) : List Char := cString ((List.range (bufsize.toNat + 1)).map buf)

/-- The buffer behind an operation. -/
def written (buf : Nat → Char) : Reply → Nat → Char
  | .listing buf => buf
  | reply => match reply.text with
    | some text => snprintf buf 0 bufsize text
    | none => buf

def Operation.program (buf : Nat → Char) (seatId userId : Int) : Operation → Op Reply
  | .listSeats => Seats.listSeats buf bufsize
  | .viewSeat => Seats.viewSeat seatId userId
  | .confirm => Seats.confirmSeat seatId userId
  | .cancel => Seats.cancel seatId userId

/-- What `handle_connection` does once it has its action, up to `close`. -/
def Action.perform (files : Files) (conn : Conn) (buf : Nat → Char) (d : Descriptor) : Action → Op Descriptor
  | .badRequest => pure (d.sendText conn.net Response.badRequest.toList)
  | .run operation seatId userId _ => do
    let reply ← operation.program buf seatId userId
    pure ((d.sendText conn.net Response.okResponse.toList).sendText conn.net (string (written buf reply)))
  | .file resource => match files resource with
    | none => pure (d.sendText conn.net Response.notokResponse.toList)
    | some contents => pure ((d.sendText conn.net Response.okResponse.toList).sendFile conn.net conn.disk ⟨contents, [], 0, 0⟩)

/-- `handle_connection`. -/
def respond (files : Files) (conn : Conn) : Op Descriptor := do
  let line := conn.socket.getLine conn.net bufsize
  let buf := fill conn.stack line.1
  if accepted buf then
    let headers := line.2.skipHeaders conn.net buf
    let d ← (dispatch (cString (file buf).text)).perform files conn headers.1 headers.2
    pure d.close
  else
    let d ← Action.badRequest.perform files conn buf line.2
    pure d.close

/-- What the server is to answer: the action that the request names, on the hall as it is. -/
def answer (files : Files) (h : Hall) : Action → List Char × Hall
  | .badRequest => (Response.badRequest.toList, h)
  | .run .listSeats _ _ _ =>
    (Response.okResponse.toList ++ if h.numberOfSeats = 0 then "No seats not found\n\n".toList else rendering h.seatList, h)
  | .run .viewSeat seatId userId _ =>
    let answered := h.viewSeat seatId userId
    (Response.okResponse.toList ++ (answered.1.text.getD "").toList, answered.2)
  | .run .confirm seatId userId _ =>
    let answered := h.confirmSeat seatId userId
    (Response.okResponse.toList ++ (answered.1.text.getD "").toList, answered.2)
  | .run .cancel seatId userId _ =>
    let answered := h.cancel seatId userId
    (Response.okResponse.toList ++ (answered.1.text.getD "").toList, answered.2)
  | .file resource => match files resource with
    | none => (Response.notokResponse.toList, h)
    | some contents => (Response.okResponse.toList ++ contents, h)

/-- The list of a hall of this size leaves two bytes of the buffer for more than its NUL. -/
def Listable (numberOfSeats : Nat) : Prop := total (Hall.empty numberOfSeats).seatList + 3 ≤ bufsize

instance (numberOfSeats : Nat) : Decidable (Listable numberOfSeats) := inferInstanceAs (Decidable (_ ≤ _))

variable {kernel disk : Kernel} {d d' d'' : Descriptor}

/-- Between `d` and `d'` the text has gone out. -/
structure Sent (text : List Char) (d d' : Descriptor) : Prop where
  sent : d'.sent = d.sent ++ text
  closed : d'.closed = d.closed

theorem Sent.trans {text more : List Char} (first : Sent text d d') (second : Sent more d' d'') :
    Sent (text ++ more) d d'' where
  sent := by rw [second.sent, first.sent, List.append_assoc]
  closed := second.closed.trans first.closed

theorem sent_text (obliging : kernel.Obliging) (text : List Char) (d : Descriptor) :
    Sent text d (d.sendText kernel text) := by
  obtain ⟨calls, written⟩ := writenbytes_eq obliging 0 text d
  rw [Descriptor.sendText, written]
  exact ⟨rfl, rfl⟩

theorem sendFile_eq {file file' : Descriptor} {rc : Int} {got : List Char}
    (ret : file.read disk bufsize.toNat = (rc, got, file')) :
    d.sendFile kernel disk file = if 0 < rc then (d.sendText kernel got).sendFile kernel disk file' else d := by
  rw [Descriptor.sendFile]
  simp [ret]

theorem sent_file (obliging : kernel.Obliging) (reads : disk.Obliging) (file d : Descriptor) :
    Sent file.incoming d (d.sendFile kernel disk file) := by
  induction length : file.incoming.length using Nat.strong_induction_on generalizing file d with
  | _ left ih =>
    obtain ⟨n, answer, low, high⟩ := reads.something file.calls bufsize.toNat (by decide)
    have ret : file.read disk bufsize.toNat = (((file.incoming.take n).length : Int), file.incoming.take n,
        { file with incoming := file.incoming.drop (file.incoming.take n).length, calls := file.calls + 1 }) := by
      simp only [Descriptor.read, answer, Nat.min_eq_left high]
    rw [sendFile_eq ret]
    by_cases ended : file.incoming = []
    · rw [if_neg (by simp [ended]), ended]
      exact ⟨(List.append_nil _).symm, rfl⟩
    · have positive := List.length_pos_iff.mpr ended
      have taken := List.length_take (i := n) (l := file.incoming)
      rw [if_pos (by omega)]
      have first := sent_text obliging (file.incoming.take n) d
      have later := ih _ (by rw [List.length_drop]; omega)
        { file with incoming := file.incoming.drop (file.incoming.take n).length, calls := file.calls + 1 }
        (d.sendText kernel (file.incoming.take n)) rfl
      have whole : file.incoming.take n ++ file.incoming.drop (file.incoming.take n).length = file.incoming := by
        rw [taken]
        by_cases inside : n ≤ file.incoming.length
        · rw [Nat.min_eq_left inside, List.take_append_drop]
        · rw [Nat.min_eq_right (by omega), List.drop_length, List.take_of_length_le (by omega), List.append_nil]
      have both := first.trans later
      dsimp only at both
      rwa [whole] at both

theorem getLine_eq (obliging : kernel.Obliging) (size : Int) (d : Descriptor) : ∃ calls, d.getLine kernel size =
    ((getLine size d.incoming).1, { d with incoming := (getLine size d.incoming).2, calls := calls }) :=
  getChars_eq obliging _ d

theorem skipHeaders_eq (obliging : kernel.Obliging) (buf : Nat → Char) (d : Descriptor) : ∃ calls,
    d.skipHeaders kernel buf =
      ((skipHeaders buf d.incoming).1, { d with incoming := (skipHeaders buf d.incoming).2, calls := calls }) := by
  induction length : d.incoming.length using Nat.strong_induction_on generalizing buf d with
  | _ left ih =>
    obtain ⟨calls, line⟩ := getLine_eq obliging bufsize d
    rw [Descriptor.skipHeaders, skipHeaders]
    simp only [line]
    by_cases stored : (getLine bufsize d.incoming).1 = []
    · exact ⟨calls, by simp [stored]⟩
    · have shorter := getChars_shorter stored
      obtain ⟨calls, later⟩ := ih _ (length ▸ shorter) (fill buf (getLine bufsize d.incoming).1)
        { d with incoming := (getLine bufsize d.incoming).2, calls := calls } rfl
      exact ⟨calls, by simp only [stored, ne_eq, not_false_eq_true, dif_pos]; exact later⟩

theorem string_of_contains {buf : Nat → Char} {text : List Char} (contains : Contains buf text) (clean : nul ∉ text)
    (short : text.length ≤ 1024) : string buf = text := by
  have front : ((List.range (bufsize.toNat + 1)).map buf).take text.length = text := by
    apply List.ext_getElem?
    intro k
    by_cases inside : k < text.length
    · rw [List.getElem?_take_of_lt inside, List.getElem?_map, List.getElem?_range (by simp [bufsize]; omega),
        Option.map_some]
      exact contains.1 k inside
    · rw [List.getElem?_eq_none (by rw [List.length_take]; omega), List.getElem?_eq_none (by omega)]
  have behind : ((List.range (bufsize.toNat + 1)).map buf)[text.length]? = some nul := by
    rw [List.getElem?_map, List.getElem?_range (by simp [bufsize]; omega), Option.map_some, contains.2]
    rfl
  obtain ⟨inside, here⟩ := List.getElem?_eq_some_iff.mp behind
  have solid : ∀ c ∈ text, decide (c ≠ nul) = true := by
    intro c member
    exact decide_eq_true fun same => clean (same ▸ member)
  rw [string, cString, ← List.take_append_drop text.length ((List.range (bufsize.toNat + 1)).map buf), front,
    List.takeWhile_append_of_pos solid, List.drop_eq_getElem_cons inside, here, List.takeWhile_cons_of_neg (by simp),
    List.append_nil]

/-- The reply is a text that fits into the buffer. -/
def Printed (reply : Reply) : Prop := ∃ text, reply.text = some text ∧ text.length ≤ 1022 ∧ nul ∉ text.toList

theorem string_written {reply : Reply} (printed : Printed reply) (buf : Nat → Char) :
    string (written buf reply) = (reply.text.getD "").toList := by
  obtain ⟨text, prints, short, clean⟩ := printed
  have same : written buf reply = Print.run buf ⟨0, bufsize, text⟩ := by
    unfold written
    cases reply with
    | listing => cases prints
    | _ => simp only [prints]; rfl
  have room := Print.room_of_nonneg (p := ⟨0, bufsize, text⟩) (show (0 : Int) ≤ bufsize by decide)
    (show bufsize < 2 ^ 31 by decide)
  have contains : Contains (Print.run buf ⟨0, bufsize, text⟩) ([] ++ text.toList) :=
    contains_run (fun k none => by cases none) rfl (by dsimp only [bufsize] at room ⊢; omega)
  have few : text.toList.length ≤ 1024 := by
    rw [String.length_toList]
    omega
  rw [same, prints]
  exact string_of_contains contains clean few

theorem length_toString {id : Int} (low : 0 ≤ id) (high : id < 1000) : (toString id).length ≤ 3 := by
  rw [← String.length_toList, toList_toString, if_pos low]
  exact (Nat.length_toDigits_le_iff (by decide) (by decide)).mpr (by omega)

theorem printed_constant {reply : Reply} {text : String} (prints : reply.text = some text) (short : text.length ≤ 1022)
    (clean : nul ∉ text.toList) : Printed reply := ⟨text, prints, short, clean⟩

theorem printed_seat {reply : Reply} {id : Int} {state : SeatState} {before behind : String} (low : 0 ≤ id)
    (high : id < 1000)
    (prints : reply.text = some (before ++ toString id ++ " " ++ state.toChar.toString ++ behind))
    (short : before.length + behind.length ≤ 1000) (clean : nul ∉ before.toList ∧ nul ∉ behind.toList) : Printed reply := by
  refine ⟨_, prints, ?_, ?_⟩
  · have digits := length_toString low high
    have blank : " ".length = 1 := rfl
    have letter : state.toChar.toString.length = 1 := by simp
    simp only [String.length_append, blank, letter]
    omega
  · have digits := not_mem_toString id (c := nul) (by decide) (by decide)
    have letter : nul ≠ state.toChar := by cases state <;> decide
    simp only [String.toList_append, List.mem_append, not_or]
    refine ⟨⟨⟨⟨clean.1, digits⟩, by decide⟩, ?_⟩, clean.2⟩
    simpa using letter

variable {h : Hall} {s : Store} {seatId customerId : Int}

theorem printed_viewSeat (ids : ∀ i < h.numberOfSeats, (h.seats i).id = i) (few : h.numberOfSeats ≤ 1000) :
    Printed (h.viewSeat seatId customerId).1 := by
  unfold Hall.viewSeat
  split
  · exact printed_constant rfl (by decide) (by decide)
  · rename_i i found
    have inside := (find_eq_some.mp found).2
    have id := ids i inside
    split
    · have prints : Reply.text (.confirm (h.seats i).id (h.seats i).state) =
          some ("Confirm seat: " ++ toString (h.seats i).id ++ " " ++ (h.seats i).state.toChar.toString ++ " ?\n\n") := rfl
      exact printed_seat (by omega) (by omega) prints (by decide) (by decide)
    · exact printed_constant rfl (by decide) (by decide)

theorem printed_refuse (i : Nat) : Printed (h.refuse i customerId) := by
  unfold Hall.refuse
  split
  · exact printed_constant rfl (by decide) (by decide)
  · exact printed_constant rfl (by decide) (by decide)

theorem printed_confirmSeat (ids : ∀ i < h.numberOfSeats, (h.seats i).id = i) (few : h.numberOfSeats ≤ 1000) :
    Printed (h.confirmSeat seatId customerId).1 := by
  unfold Hall.confirmSeat
  split
  · exact printed_constant rfl (by decide) (by decide)
  · rename_i i found
    have inside := (find_eq_some.mp found).2
    have id := ids i inside
    split
    · have prints : Reply.text (.confirmed (h.seats i).id (h.seats i).state) =
          some ("Seat confirmed: " ++ toString (h.seats i).id ++ " " ++ (h.seats i).state.toChar.toString ++ "\n\n") := rfl
      exact printed_seat (by omega) (by omega) prints (by decide) (by decide)
    · exact printed_refuse i

theorem printed_cancel (ids : ∀ i < h.numberOfSeats, (h.seats i).id = i) (few : h.numberOfSeats ≤ 1000) :
    Printed (h.cancel seatId customerId).1 := by
  unfold Hall.cancel
  split
  · exact printed_constant rfl (by decide) (by decide)
  · rename_i i found
    have inside := (find_eq_some.mp found).2
    have id := ids i inside
    split
    · have prints : Reply.text (.cancelled (h.seats i).id (h.seats i).state) = some ("Seat request cancelled: " ++
          toString (h.seats i).id ++ " " ++ (h.seats i).state.toChar.toString ++ "\n\n") := rfl
      exact printed_seat (by omega) (by omega) prints (by decide) (by decide)
    · exact printed_refuse i

theorem Listable.few {n : Nat} (listable : Listable n) : n ≤ 1000 := by
  have count := le_total (Hall.empty n).seatList
  have length : (Hall.empty n).seatList.length = n := by simp [Hall.seatList, Hall.empty]
  unfold Listable bufsize at listable
  omega

theorem total_seatList (ids : ∀ i < h.numberOfSeats, (h.seats i).id = i) :
    total h.seatList = total (Hall.empty h.numberOfSeats).seatList := by
  unfold total Hall.seatList
  rw [List.map_map, List.map_map]
  refine congrArg List.sum (List.map_congr_left ?_)
  intro i member
  have id := ids i (List.mem_range.mp member)
  simp only [Function.comp_apply, entry, String.length_append, id, Hall.empty]
  simp

theorem nul_not_mem_rendering (seats : List Seat) : nul ∉ rendering seats := by
  have label : ∀ seat, nul ∉ label seat := by
    intro seat
    have digits := not_mem_toString seat.id (c := nul) (by decide) (by decide)
    have letter : nul ≠ seat.state.toChar := by cases seat.state <;> decide
    simp only [Seats.label, List.mem_append, not_or]
    exact ⟨digits, by simp [letter]; decide⟩
  have newline : nul ∉ ['\n'] := by decide
  have comma : nul ≠ ',' := by decide
  rw [rendering, List.mem_append, not_or]
  refine ⟨?_, newline⟩
  induction seats with
  | nil => simp
  | cons seat rest ih =>
    cases rest with
    | nil => simpa using label seat
    | cons next rest =>
      simp only [List.map_cons, List.intercalate_cons_cons, List.mem_append, not_or, List.mem_singleton] at ih ⊢
      exact ⟨⟨label seat, comma⟩, ih⟩

theorem string_listing (ids : ∀ i < h.numberOfSeats, (h.seats i).id = i) (listable : Listable h.numberOfSeats)
    (buf : Nat → Char) : string ((prints bufsize h.seatList).foldl Print.run buf) =
      if h.numberOfSeats = 0 then "No seats not found\n\n".toList else rendering h.seatList := by
  have room : total h.seatList + 3 ≤ bufsize := by
    rw [total_seatList ids]
    exact listable
  have length : h.seatList.length = h.numberOfSeats := by simp [Hall.seatList]
  cases seats : h.seatList with
  | nil =>
    rw [seats] at length
    have none : h.numberOfSeats = 0 := by rw [← length, List.length_nil]
    rw [if_pos none]
    have contains : Contains (Print.run buf ⟨0, bufsize, "No seats not found\n\n"⟩) ([] ++ "No seats not found\n\n".toList) :=
      contains_run (fun k none => by cases none) rfl (by decide)
    exact string_of_contains contains (by decide) (by decide)
  | cons seat rest =>
    rw [seats] at length room
    rw [if_neg (by rw [← length]; simp)]
    have contains := (printed_list (by decide) (by omega) buf).mpr room
    have fits := length_rendering seat rest
    unfold bufsize at room
    exact string_of_contains contains (nul_not_mem_rendering _) (by omega)

variable {files : Files} {conn : Conn}

/-- The action is performed as it is to be answered. -/
theorem perform_refines (shows : Shows s h) (listable : Listable h.numberOfSeats) (net : conn.net.Obliging)
    (disk : conn.disk.Obliging) (action : Action) (buf : Nat → Char) (d : Descriptor) :
    Ends (action.perform files conn buf d) s fun d' t =>
      Sent (answer files h action).1 d d' ∧ Shows t (answer files h action).2 := by
  have few := listable.few
  have ids := shows.ids
  cases action with
  | badRequest =>
    simp only [Action.perform, ends_pure]
    exact ⟨sent_text net _ d, shows⟩
  | file resource =>
    cases found : files resource with
    | none =>
      simp only [Action.perform, answer, found, ends_pure]
      exact ⟨sent_text net _ d, shows⟩
    | some contents =>
      simp only [Action.perform, answer, found, ends_pure]
      have file := sent_file net disk ⟨contents, [], 0, 0⟩ (d.sendText conn.net Response.okResponse.toList)
      exact ⟨(sent_text net _ d).trans file, shows⟩
  | run operation seatId userId priority =>
    have replied : ∀ reply text, string (written buf reply) = text →
        Sent (Response.okResponse.toList ++ text) d
          ((d.sendText conn.net Response.okResponse.toList).sendText conn.net (string (written buf reply))) := by
      intro reply text same
      rw [same]
      exact (sent_text net _ d).trans (sent_text net _ _)
    cases operation with
    | listSeats =>
      simp only [Action.perform, Operation.program, ends_bind]
      refine (ends_listSeats_prints buf bufsize).mono ?_
      intro reply t listed
      obtain ⟨rfl, rfl⟩ := listed
      rw [ends_pure]
      have same : t.seatList = h.seatList := by rw [Store.seatList, Hall.seatList, shows.count, shows.seats]
      refine ⟨replied _ _ ?_, shows⟩
      rw [same]
      exact string_listing ids listable buf
    | viewSeat =>
      simp only [Action.perform, Operation.program, ends_bind]
      refine (viewSeat_refines shows seatId userId).mono ?_
      intro reply t viewed
      obtain ⟨rfl, after⟩ := viewed
      rw [ends_pure]
      exact ⟨replied _ _ (string_written (printed_viewSeat ids few) buf), after⟩
    | confirm =>
      simp only [Action.perform, Operation.program, ends_bind]
      refine (confirmSeat_refines shows seatId userId).mono ?_
      intro reply t confirmed
      obtain ⟨rfl, after⟩ := confirmed
      rw [ends_pure]
      exact ⟨replied _ _ (string_written (printed_confirmSeat ids few) buf), after⟩
    | cancel =>
      simp only [Action.perform, Operation.program, ends_bind]
      refine (cancel_refines shows seatId userId).mono ?_
      intro reply t cancelled
      obtain ⟨rfl, after⟩ := cancelled
      rw [ends_pure]
      exact ⟨replied _ _ (string_written (printed_cancel ids few) buf), after⟩

/-- Nothing has happened on the connection yet, and its calls block. -/
structure Conn.Sound (conn : Conn) : Prop where
  sent : conn.socket.sent = []
  closed : conn.socket.closed = 0
  net : conn.net.Obliging
  disk : conn.disk.Obliging

theorem Conn.Sound.close {conn : Conn} (sound : conn.Sound) {text rest : List Char} {calls : Nat}
    (sends : Sent text { conn.socket with incoming := rest, calls := calls } d) : d.close.sent = text ∧ d.close.closed = 1 := by
  constructor
  · rw [Descriptor.close, sends.sent, sound.sent, List.nil_append]
  · rw [Descriptor.close, sends.closed, sound.closed]

/-- The action that a connection asks for. -/
def Conn.action (conn : Conn) : Action := (handleConnection conn.stack conn.socket.incoming).action

/-- `handle_connection` sends the whole answer to what the request names, and closes the connection once. -/
theorem respond_refines (shows : Shows s h) (listable : Listable h.numberOfSeats) (sound : conn.Sound) :
    Ends (respond files conn) s fun d t =>
      (d.sent = (answer files h conn.action).1 ∧ d.closed = 1) ∧ Shows t (answer files h conn.action).2 := by
  obtain ⟨calls, line⟩ := getLine_eq sound.net bufsize conn.socket
  unfold respond Conn.action Connection.handleConnection
  simp only [line]
  by_cases accepts : accepted (fill conn.stack (getLine bufsize conn.socket.incoming).1) = true
  · obtain ⟨calls, headers⟩ := skipHeaders_eq sound.net (fill conn.stack (getLine bufsize conn.socket.incoming).1)
      { conn.socket with incoming := (getLine bufsize conn.socket.incoming).2, calls := calls }
    simp only [accepts, if_true, headers, ends_bind]
    refine (perform_refines shows listable sound.net sound.disk _ _ _).mono ?_
    intro d t done
    rw [ends_pure]
    exact ⟨sound.close done.1, done.2⟩
  · simp only [accepts, if_false, Bool.false_eq_true, ends_bind]
    refine (perform_refines shows listable sound.net sound.disk _ _ _).mono ?_
    intro d t done
    rw [ends_pure]
    exact ⟨sound.close done.1, done.2⟩

end Eecs343.Server.Connection
