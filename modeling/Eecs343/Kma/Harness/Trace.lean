import Eecs343.Kma.Harness.Commands

namespace Eecs343.Kma.Harness

open Bytes Effect PagePool Scanf

def Command.render : Command → List Char
  | .request reqId reqSize => "REQUEST".toList ++ ' ' :: (toString reqId).toList ++ ' ' :: (toString reqSize).toList ++ ['\n']
  | .free reqId => "FREE".toList ++ ' ' :: (toString reqId).toList ++ ['\n']

def trace (nReq : Int) (cs : List Command) : List Char := (toString nReq).toList ++ '\n' :: cs.flatMap Command.render

/-- Its numbers are of type `int`. -/
def Command.Ints : Command → Prop
  | .request reqId reqSize => Fits 4 reqId ∧ Fits 4 reqSize
  | .free reqId => Fits 4 reqId

variable [Target] {A : Allocator} {region : Int → Int} {nReq i : Int} {text rest : List Char} {message : String} {c : Command}
  {cs : List Command}

omit [Target] in
theorem scanInt_toString (fits : Fits 4 i) (ends : ∀ c ∈ rest.head?, c.isDigit = false) :
    scanInt ((toString i).toList ++ rest) message = pure (i, rest) := by
  have bounds : -2 ^ 31 ≤ i ∧ i < 2 ^ 31 := by
    obtain ⟨low, high⟩ := fits
    norm_num at low high
    omega
  rw [scanInt, decimal_toString i ends]
  exact if_pos bounds

omit [Target] in
theorem scanInt_cons {blank : Char} (space : isSpace blank = true) :
    scanInt (blank :: text) message = scanInt text message := by
  rw [scanInt, scanInt, decimal_cons space]

theorem request_render {reqId reqSize : Int} (ints : Command.Ints (.request reqId reqSize)) :
    request A region nReq (' ' :: (toString reqId).toList ++ ' ' :: (toString reqSize).toList ++ '\n' :: rest) =
      (do execute A region nReq (.request reqId reqSize); return '\n' :: rest) := by
  obtain ⟨first, second⟩ := ints
  have id : scanInt (' ' :: (toString reqId).toList ++ ' ' :: (toString reqSize).toList ++ '\n' :: rest)
      "Not enough arguments to REQUEST" = pure (reqId, ' ' :: (toString reqSize).toList ++ '\n' :: rest) := by
    rw [List.append_assoc, List.cons_append, scanInt_cons (by decide)]
    exact scanInt_toString first (by simp)
  have size : scanInt (' ' :: (toString reqSize).toList ++ '\n' :: rest) "Not enough arguments to REQUEST" =
      pure (reqSize, '\n' :: rest) := by
    rw [List.cons_append, scanInt_cons (by decide)]
    exact scanInt_toString second (by simp)
  simp only [request, id, size, pure_bind, execute]
  split <;> simp

theorem free_render {reqId : Int} (region : Int → Int) (ints : Command.Ints (.free reqId)) :
    free A nReq (' ' :: (toString reqId).toList ++ '\n' :: rest) =
      (do execute A region nReq (.free reqId); return '\n' :: rest) := by
  have id : scanInt (' ' :: (toString reqId).toList ++ '\n' :: rest) "Not enough arguments to FREE" =
      pure (reqId, '\n' :: rest) := by
    rw [List.cons_append, scanInt_cons (by decide)]
    exact scanInt_toString ints (by simp)
  simp only [free, id, pure_bind, execute]
  split <;> simp

omit [Target] in
theorem word_render (letters : List Char) (some : letters ≠ []) (word : letters.all (fun c => !isSpace c) = true)
    (short : letters.length ≤ 10) : Scanf.word 10 (letters ++ ' ' :: rest) = .some (letters, ' ' :: rest) := by
  have solid : ∀ c ∈ letters, isSpace c = false := fun c member => by simpa using List.all_eq_true.mp word c member
  exact word_append some solid short (by simp [isSpace])

omit [Target] in
theorem append_arguments (letters x y text : List Char) : letters ++ ' ' :: x ++ ' ' :: y ++ ['\n'] ++ text =
    letters ++ ' ' :: (x ++ ' ' :: y ++ '\n' :: text) := by
  simp only [List.append_assoc, List.cons_append, List.nil_append]

omit [Target] in
theorem append_argument (letters x text : List Char) : letters ++ ' ' :: x ++ ['\n'] ++ text =
    letters ++ ' ' :: (x ++ '\n' :: text) := by
  simp only [List.append_assoc, List.cons_append, List.nil_append]

theorem commands_step {passes : Nat} (ints : c.Ints) :
    commands A region nReq (passes + 1) (c.render ++ text) =
      (do execute A region nReq c; report; commands A region nReq passes ('\n' :: text)) := by
  cases c with
  | request reqId reqSize =>
    have line : Command.render (.request reqId reqSize) ++ text =
        "REQUEST".toList ++ ' ' :: ((toString reqId).toList ++ ' ' :: (toString reqSize).toList ++ '\n' :: text) :=
      append_arguments _ _ _ _
    rw [commands, line, word_render _ (by decide) (by decide) (by decide)]
    dsimp only
    rw [if_pos rfl, ← List.cons_append, ← List.cons_append, request_render ints]
    simp
  | free reqId =>
    have line : Command.render (.free reqId) ++ text = "FREE".toList ++ ' ' :: ((toString reqId).toList ++ '\n' :: text) :=
      append_argument _ _ _
    rw [commands, line, word_render _ (by decide) (by decide) (by decide)]
    dsimp only
    rw [if_neg (by decide), if_pos rfl, ← List.cons_append, free_render region ints]
    simp

theorem commands_cons {passes : Nat} {blank : Char} (space : isSpace blank = true) :
    commands A region nReq passes (blank :: text) = commands A region nReq passes text := by
  cases passes with
  | zero => rfl
  | succ passes => rw [commands, commands, word_cons space]

theorem commands_render {passes : Nat} (ints : ∀ c ∈ cs, c.Ints) (enough : cs.length ≤ passes) :
    commands A region nReq passes (cs.flatMap Command.render) = executeAll A region nReq cs := by
  induction cs generalizing passes with
  | nil => cases passes <;> rfl
  | cons c cs ih =>
    cases passes with
    | zero => exact absurd enough (by simp)
    | succ passes =>
      have later := ih (fun c member => ints c (List.mem_cons_of_mem _ member)) (Nat.le_of_succ_le_succ enough)
      rw [List.flatMap_cons, commands_step (ints c List.mem_cons_self), commands_cons (by decide), later, executeAll]

end Eecs343.Kma.Harness
