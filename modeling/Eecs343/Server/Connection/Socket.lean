import Eecs343.Server.Connection.Model

namespace Eecs343.Server.Connection

/-- What the kernel answers a call of `read` or `write`, the `call`-th on its descriptor, that asks for `size` bytes:
    how many it takes on, or that the call fails. -/
abbrev Kernel := (call size : Nat) → Option Nat

/-- A descriptor: the bytes that come in before the stream ends, those that have gone out, how many calls were made
    and how often it was closed. -/
structure Descriptor where
  incoming : List Char
  sent : List Char
  calls : Nat
  closed : Nat
  deriving DecidableEq

/-- The blocking calls of the kernel: nothing is done for a call that asks for nothing, and every other one does at
    least one byte. -/
structure Kernel.Obliging (kernel : Kernel) : Prop where
  nothing : ∀ call, kernel call 0 = some 0
  something : ∀ call size, 0 < size → ∃ n, kernel call size = some n ∧ 1 ≤ n ∧ n ≤ size

namespace Descriptor

variable (kernel : Kernel) (d : Descriptor)

/-- `read(fd, buf, size)`: the result, and the bytes that it has put into the buffer. -/
def read (size : Nat) : Int × List Char × Descriptor :=
  match kernel d.calls size with
  | none => (-1, [], { d with calls := d.calls + 1 })
  | some n =>
    let got := d.incoming.take (min n size)
    (got.length, got, { d with incoming := d.incoming.drop got.length, calls := d.calls + 1 })

/-- `write(fd, str, size)`. -/
def write (str : List Char) : Int × Descriptor :=
  match kernel d.calls str.length with
  | none => (-1, { d with calls := d.calls + 1 })
  | some n => ((str.take n).length, { d with sent := d.sent ++ str.take n, calls := d.calls + 1 })

def close : Descriptor := { d with closed := d.closed + 1 }

theorem read_bound (size : Nat) : (d.read kernel size).1 ≤ size ∧
    (0 < (d.read kernel size).1 → 0 < (d.read kernel size).2.1.length ∧ (d.read kernel size).2.1.length ≤ size) := by
  unfold read
  split
  · simp
  · simp only [List.length_take]
    omega

theorem read_length (size : Nat) :
    (d.read kernel size).2.2.incoming.length + (d.read kernel size).2.1.length = d.incoming.length := by
  unfold read
  split
  · rfl
  · simp only [List.length_drop, List.length_take]
    omega

theorem read_positive (size : Nat) (some : 0 < (d.read kernel size).2.1.length) : 0 < (d.read kernel size).1 := by
  unfold read at some ⊢
  split
  · rename_i fails
    simp [fails] at some
  · rename_i answer
    simpa [answer] using some

theorem write_bound (str : List Char) : (d.write kernel str).1 ≤ str.length := by
  unfold write
  split
  · dsimp only
    omega
  · simp only [List.length_take]
    omega

/-- `readnbytes`, from the bytes in `buf` on. -/
def readnbytes (size : Nat) (buf : List Char) (d : Descriptor) : Int × List Char × Descriptor :=
  let rc := d.read kernel size
  if _more : 0 < rc.1 then readnbytes (size - rc.2.1.length) (buf ++ rc.2.1) rc.2.2
  else (if rc.1 < 0 then -1 else buf.length, buf, rc.2.2)
termination_by size
decreasing_by
  have bound := (read_bound kernel d size).2 _more
  omega

/-- `writenbytes`, with `totalwritten` bytes before `str`. -/
def writenbytes (totalwritten : Nat) (str : List Char) (d : Descriptor) : Int × Descriptor :=
  let rc := d.write kernel str
  if _more : 0 < rc.1 then writenbytes (totalwritten + rc.1.toNat) (str.drop rc.1.toNat) rc.2
  else (if rc.1 < 0 then -1 else totalwritten, rc.2)
termination_by str.length
decreasing_by
  have more : 0 < (d.write kernel str).1 := _more
  have bound := write_bound kernel d str
  rw [List.length_drop]
  omega

theorem readnbytes_length (size : Nat) (buf : List Char) (d : Descriptor) :
    (d.readnbytes kernel size buf).2.2.incoming.length + (d.readnbytes kernel size buf).2.1.length =
      d.incoming.length + buf.length := by
  fun_induction readnbytes kernel size buf d with
  | case1 size buf d rc more ih =>
    rw [ih, List.length_append]
    have kept : rc.2.2.incoming.length + rc.2.1.length = d.incoming.length := read_length kernel d size
    omega
  | case2 size buf d rc stops =>
    have kept : rc.2.2.incoming.length + rc.2.1.length = d.incoming.length := read_length kernel d size
    have none : rc.2.1.length = 0 := by
      by_contra some
      exact stops (read_positive kernel d size (Nat.pos_of_ne_zero some))
    change rc.2.2.incoming.length + buf.length = _
    omega

theorem readnbytes_result (size : Nat) (buf : List Char) (d : Descriptor) :
    (d.readnbytes kernel size buf).1 ≤ (d.readnbytes kernel size buf).2.1.length := by
  fun_induction readnbytes kernel size buf d with
  | case1 size buf d rc more ih => exact ih
  | case2 size buf d rc stops =>
    dsimp only
    split <;> omega

/-- The loop of `get_line` with `room` characters left in the buffer. -/
def getChars : (room : Nat) → Descriptor → List Char × Descriptor
  | 0, d => ([], d)
  | room + 1, d =>
    match d.readnbytes kernel 1 [] with
    | (n, got, d) =>
      if 0 < n then
        let c := got.headD nul
        if c = '\r' then
          match d.readnbytes kernel 1 [] with
          | (n, got, d) => if 0 < n ∧ got.head? = some '\n' then ([], d) else (['\n'], d)
        else if c = '\n' then (['\n'], d)
        else
          let later := getChars room d
          (c :: later.1, later.2)
      else ([], d)

def getLine (size : Int) : List Char × Descriptor := getChars kernel (size - 1).toNat d

/-- What `get_line` stores it has taken from the stream. -/
theorem getChars_shorter (room : Nat) (d : Descriptor) :
    (d.getChars kernel room).2.incoming.length ≤ d.incoming.length ∧
      ((d.getChars kernel room).1 ≠ [] → (d.getChars kernel room).2.incoming.length < d.incoming.length) := by
  induction room generalizing d with
  | zero => exact ⟨le_refl _, fun some => (some rfl).elim⟩
  | succ room ih =>
    have length := readnbytes_length kernel 1 [] d
    have result := readnbytes_result kernel 1 [] d
    rw [getChars]
    generalize d.readnbytes kernel 1 [] = answer at length result
    obtain ⟨n, got, d'⟩ := answer
    dsimp only at length result ⊢
    by_cases some : 0 < n
    · rw [if_pos some]
      by_cases cr : got.headD nul = '\r'
      · have later := readnbytes_length kernel 1 [] d'
        simp only [cr, if_true]
        generalize d'.readnbytes kernel 1 [] = other at later
        obtain ⟨n', got', d''⟩ := other
        have shorter : d''.incoming.length < d.incoming.length := by
          simp only [List.length_nil] at length later
          omega
        dsimp only
        split
        · exact ⟨Nat.le_of_lt shorter, fun _ => shorter⟩
        · exact ⟨Nat.le_of_lt shorter, fun _ => shorter⟩
      · have shorter : d'.incoming.length < d.incoming.length := by
          rw [List.length_nil] at length
          omega
        rw [if_neg cr]
        split
        · exact ⟨Nat.le_of_lt shorter, fun _ => shorter⟩
        · have later := (ih d').1
          dsimp only
          exact ⟨by omega, fun _ => by omega⟩
    · rw [if_neg some]
      rw [List.length_nil] at length
      exact ⟨by dsimp only; omega, fun stored => (stored rfl).elim⟩

end Descriptor

variable {kernel : Kernel} {d : Descriptor}

theorem readnbytes_nothing (obliging : kernel.Obliging) (buf : List Char) :
    d.readnbytes kernel 0 buf = ((buf.length : Int), buf, { d with calls := d.calls + 1 }) := by
  have answered : d.read kernel 0 = (0, [], { d with calls := d.calls + 1 }) := by
    simp [Descriptor.read, obliging.nothing]
  rw [Descriptor.readnbytes]
  simp [answered]

theorem readnbytes_ended (obliging : kernel.Obliging) (ended : d.incoming = []) :
    d.readnbytes kernel 1 [] = ((0 : Int), [], { d with calls := d.calls + 1 }) := by
  obtain ⟨n, answer, _⟩ := obliging.something d.calls 1 (by decide)
  have answered : d.read kernel 1 = (0, [], { d with calls := d.calls + 1 }) := by
    simp [Descriptor.read, answer, ended]
  rw [Descriptor.readnbytes]
  simp [answered]

theorem readnbytes_one (obliging : kernel.Obliging) {c : Char} {rest : List Char} (stream : d.incoming = c :: rest) :
    d.readnbytes kernel 1 [] = ((1 : Int), [c], { d with incoming := rest, calls := d.calls + 2 }) := by
  obtain ⟨n, answer, low, high⟩ := obliging.something d.calls 1 (by decide)
  obtain rfl : n = 1 := by omega
  have answered : d.read kernel 1 = (1, [c], { d with incoming := rest, calls := d.calls + 1 }) := by
    simp [Descriptor.read, answer, stream]
  rw [Descriptor.readnbytes]
  simp only [answered]
  rw [dif_pos Int.one_pos]
  exact readnbytes_nothing obliging [c]

/-- `get_line` takes from the stream what it is to take, however the kernel answers. -/
theorem getChars_eq (obliging : kernel.Obliging) (room : Nat) (d : Descriptor) : ∃ calls, d.getChars kernel room =
    ((getChars room d.incoming).1, { d with incoming := (getChars room d.incoming).2, calls := calls }) := by
  induction room generalizing d with
  | zero => exact ⟨d.calls, rfl⟩
  | succ room ih =>
    cases stream : d.incoming with
    | nil =>
      refine ⟨d.calls + 1, ?_⟩
      rw [Descriptor.getChars, readnbytes_ended obliging stream]
      simp [getChars, ← stream]
    | cons c rest =>
      rw [Descriptor.getChars, readnbytes_one obliging stream]
      simp only [Int.one_pos, if_true, List.headD_cons, getChars]
      by_cases cr : c = '\r'
      · simp only [cr, if_true]
        cases rest with
        | nil =>
          rw [readnbytes_ended obliging rfl]
          exact ⟨d.calls + 3, by simp⟩
        | cons other rest =>
          rw [readnbytes_one obliging rfl]
          refine ⟨d.calls + 4, ?_⟩
          simp only [Int.one_pos, true_and, List.head?_cons, List.tail_cons]
          by_cases newline : other = '\n' <;> simp [newline]
      · by_cases lf : c = '\n'
        · exact ⟨d.calls + 2, by simp [lf]⟩
        · obtain ⟨calls, later⟩ := ih { d with incoming := rest, calls := d.calls + 2 }
          refine ⟨calls, ?_⟩
          simp only [cr, lf, if_false, later]

/-- `writenbytes` sends all of the string, in as many pieces as the kernel makes of it. -/
theorem writenbytes_eq (obliging : kernel.Obliging) (totalwritten : Nat) (str : List Char) (d : Descriptor) :
    ∃ calls, d.writenbytes kernel totalwritten str =
      (((totalwritten + str.length : Nat) : Int), { d with sent := d.sent ++ str, calls := calls }) := by
  induction length : str.length using Nat.strong_induction_on generalizing totalwritten str d with
  | _ left ih =>
    rw [Descriptor.writenbytes]
    by_cases empty : str = []
    · subst empty
      have written : d.write kernel [] = (0, { d with calls := d.calls + 1 }) := by
        simp [Descriptor.write, obliging.nothing]
      refine ⟨d.calls + 1, ?_⟩
      simp [written, ← length]
    · have positive : 0 < str.length := List.length_pos_iff.mpr empty
      obtain ⟨n, answer, low, high⟩ := obliging.something d.calls str.length positive
      have taken : (str.take n).length = n := List.length_take_of_le high
      have written : d.write kernel str = ((n : Int), { d with sent := d.sent ++ str.take n, calls := d.calls + 1 }) := by
        simp [Descriptor.write, answer, taken]
      have shorter : (str.drop n).length < left := by
        rw [List.length_drop]
        omega
      obtain ⟨calls, later⟩ := ih _ shorter (totalwritten + n) (str.drop n)
        { d with sent := d.sent ++ str.take n, calls := d.calls + 1 } rfl
      refine ⟨calls, ?_⟩
      simp only [written, Int.natCast_pos, Int.toNat_natCast, later, List.append_assoc, List.take_append_drop,
        List.length_drop, ← length]
      rw [dif_pos (by omega), show totalwritten + n + (str.length - n) = totalwritten + str.length by omega]

end Eecs343.Server.Connection
