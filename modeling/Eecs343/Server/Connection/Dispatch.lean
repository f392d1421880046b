import Mathlib.Data.List.TakeWhile
import Eecs343.Server.Connection.Model

namespace Eecs343.Server.Connection

/-- The part of a path that names what is asked for. -/
def part (path : List Char) : List Char := path.takeWhile fun c => c ≠ '?'

/-- An operation runs exactly where its name was asked for, and everything else is taken for a file. -/
def Exact (action : Action) (asked : List Char) : Prop :=
  (∀ operation, (∃ seatId userId priority, action = .run operation seatId userId priority) ↔ asked = operation.name) ∧
    ((∀ operation : Operation, asked ≠ operation.name) → action = .file asked)

def requestLine (path version : List Char) : List Char := "GET /".toList ++ path ++ ' ' :: version

theorem equalUpTo_iff (resource name : List Char) :
    equalUpTo resource.length resource name = true ↔ resource <+: name := by
  induction resource generalizing name with
  | nil => simp [equalUpTo]
  | cons c resource ih =>
    cases name with
    | nil => simp [equalUpTo]
    | cons d name => simp [equalUpTo, ih, List.cons_prefix_cons]

/-- The first operation whose name begins with the resource runs; where there is none, it is a file. -/
theorem dispatch_cases (path : List Char) :
    (∃ operation seatId userId priority, dispatch path = .run operation seatId userId priority ∧ part path <+: operation.name) ∨
      dispatch path = .file (part path) ∧ ∀ operation : Operation, ¬ part path <+: operation.name := by
  have named : (path.takeWhile fun c => c ≠ '?') = part path := rfl
  simp only [dispatch, named, equalUpTo_iff]
  by_cases list : part path <+: Operation.listSeats.name
  · exact .inl ⟨_, _, _, _, if_pos list, list⟩
  by_cases view : part path <+: Operation.viewSeat.name
  · exact .inl ⟨_, _, _, _, by rw [if_neg list, if_pos view], view⟩
  by_cases confirm : part path <+: Operation.confirm.name
  · exact .inl ⟨_, _, _, _, by rw [if_neg list, if_neg view, if_pos confirm], confirm⟩
  by_cases cancel : part path <+: Operation.cancel.name
  · exact .inl ⟨_, _, _, _, by rw [if_neg list, if_neg view, if_neg confirm, if_pos cancel], cancel⟩
  right
  refine ⟨by rw [if_neg list, if_neg view, if_neg confirm, if_neg cancel], ?_⟩
  intro operation
  cases operation with
  | listSeats => exact list
  | viewSeat => exact view
  | confirm => exact confirm
  | cancel => exact cancel

theorem name_prefixes {operation other : Operation} (begins : operation.name <+: other.name) : operation = other := by
  cases operation <;> cases other <;> first | rfl | exact absurd begins (by decide)

theorem nul_not_mem_name (operation : Operation) : nul ∉ operation.name := by
  cases operation <;> decide

theorem part_cString (path : List Char) : part (cString path) = cString (part path) := by
  simp only [part, cString, List.takeWhile_takeWhile]
  congr 1
  funext c
  simp [and_comm]

theorem cString_eq_self {bytes : List Char} : cString bytes = bytes ↔ nul ∉ bytes := by
  rw [cString, List.takeWhile_eq_self_iff]
  constructor
  · intro solid member
    simpa using solid nul member
  · intro absent c member
    have different : c ≠ nul := fun same => absent (same ▸ member)
    simpa using different

/-- The choice is right exactly where no NUL cuts the name short and the name is not the beginning of an
    operation's. -/
theorem exact_dispatch_iff (path : List Char) : Exact (dispatch (cString path)) (part path) ↔
    nul ∉ part path ∧ ∀ operation : Operation, part path <+: operation.name → part path = operation.name := by
  have outcome := dispatch_cases (cString path)
  rw [part_cString] at outcome
  constructor
  · intro ⟨runs, serves⟩
    have whole : nul ∉ part path := by
      intro cut
      have noName : ∀ operation : Operation, part path ≠ operation.name :=
        fun operation same => nul_not_mem_name operation (same ▸ cut)
      have served := serves noName
      rcases outcome with ⟨operation, seatId, userId, priority, ran, _⟩ | ⟨file, _⟩
      · rw [served] at ran
        cases ran
      · rw [served] at file
        exact (cString_eq_self.mp (Action.file.inj file).symm) cut
    refine ⟨whole, ?_⟩
    intro operation begins
    rw [cString_eq_self.mpr whole] at outcome
    rcases outcome with ⟨other, seatId, userId, priority, ran, _⟩ | ⟨_, none⟩
    · have same := (runs other).mp ⟨seatId, userId, priority, ran⟩
      rw [same] at begins ⊢
      rw [name_prefixes begins]
    · exact (none operation begins).elim
  · intro ⟨whole, full⟩
    rw [cString_eq_self.mpr whole] at outcome
    rcases outcome with ⟨operation, seatId, userId, priority, ran, begins⟩ | ⟨file, none⟩
    · have same := full operation begins
      refine ⟨?_, fun noName => (noName operation same).elim⟩
      intro other
      constructor
      · intro ⟨_, _, _, ranOther⟩
        rw [ran] at ranOther
        cases ranOther
        exact same
      · intro sameOther
        have equal : operation = other := name_prefixes (same.symm.trans sameOther ▸ List.prefix_refl _)
        exact ⟨seatId, userId, priority, equal ▸ ran⟩
    · refine ⟨?_, fun _ => file⟩
      intro operation
      constructor
      · intro ⟨_, _, _, ran⟩
        rw [file] at ran
        cases ran
      · intro same
        exact (none operation (same ▸ List.prefix_refl _)).elim

theorem fits_line {path : List Char} (short : path.length ≤ 99) : ("GET /".toList ++ path ++ [' ']).length ≤ 1023 := by
  have five : "GET /".toList.length = 5 := rfl
  simp only [List.length_append, List.length_singleton, five]
  omega

theorem unbroken_line {path : List Char} (solid : ∀ c ∈ path, isSpace c = false) :
    Unbroken ("GET /".toList ++ path ++ [' ']) := by
  intro c member
  rw [List.mem_append, List.mem_append] at member
  rcases member with (fixed | inPath) | blank
  · exact unbroken_of_not_mem (by decide) (by decide) c fixed
  · have space := solid c inPath
    constructor
    · rintro rfl
      exact absurd space (by decide)
    · rintro rfl
      exact absurd space (by decide)
  · rw [List.mem_singleton.mp blank]
    decide

theorem scanned {buf : Nat → Char} {path : List Char} (stands : At buf 0 ("GET /".toList ++ path ++ [' ']))
    (solid : ∀ c ∈ path, isSpace c = false) (short : path.length ≤ 99) :
    accepted buf = true ∧ (file buf).text = path := by
  have split : "GET /".toList ++ path ++ [' '] = "GET".toList ++ (' ' :: '/' :: (path ++ [' '])) := rfl
  rw [split, at_append] at stands
  obtain ⟨get, blank, _, rest⟩ := stands
  obtain ⟨inPath, ends, _⟩ := at_append.mp rest
  have instruction : (instr buf).text = "GET".toList ∧ (instr buf).next = 3 :=
    scan_word get (solid_of_any (by decide)) (by decide) (.inr (by rw [blank]; decide))
  constructor
  · rw [accepted, instruction.1]
    decide
  · rw [file, instruction.2]
    exact (scan_word inPath solid short (.inr (by rw [ends]; decide))).1

/-- A path without blanks is copied as it stands in the request line. -/
theorem handleConnection_action (stack : Nat → Char) {path : List Char} (version rest : List Char)
    (solid : ∀ c ∈ path, isSpace c = false) (short : path.length ≤ 99) :
    (handleConnection stack (requestLine path version ++ rest)).action = dispatch (cString path) := by
  obtain ⟨more, line⟩ : ∃ more, (getLine bufsize (requestLine path version ++ rest)).1 =
      "GET /".toList ++ path ++ [' '] ++ more := by
    have split : requestLine path version ++ rest = ("GET /".toList ++ path ++ [' ']) ++ (version ++ rest) := by
      change "GET /".toList ++ path ++ ' ' :: version ++ rest = _
      simp only [List.append_assoc, List.cons_append, List.nil_append]
    rw [getLine_bufsize, split, getChars_append (unbroken_line solid) (fits_line short)]
    exact ⟨_, rfl⟩
  have stands := at_fill stack [] ("GET /".toList ++ path ++ [' '] ++ more)
  rw [List.nil_append, at_append] at stands
  obtain ⟨get, name⟩ := scanned stands.1 solid short
  simp only [handleConnection, line, get, name, if_true]

/-- `handle_connection` runs exactly the operation that the path names, and otherwise serves the file of that name,
    exactly where the name has no NUL and is not the beginning of an operation's. -/
theorem handleConnection_exact_iff (stack : Nat → Char) (path version rest : List Char)
    (solid : ∀ c ∈ path, isSpace c = false) (short : path.length ≤ 99) :
    Exact (handleConnection stack (requestLine path version ++ rest)).action (part path) ↔
      nul ∉ part path ∧ ∀ operation : Operation, part path <+: operation.name → part path = operation.name := by
  rw [handleConnection_action stack version rest solid short]
  exact exact_dispatch_iff path

/-- "GET /confirm?user=7&seat=0 HTTP/1.0" confirms. -/
theorem confirm_dispatched : Exact (handleConnection (fun _ => nul)
    (requestLine "confirm?user=7&seat=0".toList "HTTP/1.0".toList ++ "\r\n\r\n".toList)).action "confirm".toList := by
  apply (handleConnection_exact_iff _ _ _ _ (solid_of_any (by decide)) (by decide)).mpr
  refine ⟨by decide, ?_⟩
  intro operation
  cases operation <;> decide

/-- "GET /c?user=7&seat=0 HTTP/1.0" confirms as well. -/
theorem prefix_dispatched : ∃ stack path version rest, (∀ c ∈ path, isSpace c = false) ∧ path.length ≤ 99 ∧
    part path = ['c'] ∧ ¬ Exact (handleConnection stack (requestLine path version ++ rest)).action (part path) := by
  refine ⟨fun _ => nul, "c?user=7&seat=0".toList, "HTTP/1.0".toList, "\r\n\r\n".toList,
    solid_of_any (by decide), by decide, rfl, ?_⟩
  rw [handleConnection_action _ _ _ (solid_of_any (by decide)) (by decide), exact_dispatch_iff]
  intro ⟨_, full⟩
  exact absurd (full .confirm) (by decide)

end Eecs343.Server.Connection
