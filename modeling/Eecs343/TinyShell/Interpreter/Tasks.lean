import Eecs343.TinyShell.Interpreter.Scan

namespace Eecs343.TinyShell.Interpreter

open Bytes

variable {m : Memory} {cmdLine : Int} {bg : Bool} {fuel i j left n task : Nat} {l l' : Text} {q q' q'' : Quotes} {x : BitVec 8}

theorem countTasks_add (l : Text) (q : Quotes) (task : Nat) : countTasks l q task = countTasks l q 0 + task := by
  induction l generalizing q task with
  | nil => simp [countTasks]
  | cons x l ih =>
    simp only [countTasks]
    split
    · rw [ih, ih _ (0 + 1)]
      omega
    · exact ih _ _

theorem countTasks_append : countTasks (l ++ l') q task = countTasks l' (l.foldl Quotes.next q) (countTasks l q task) := by
  induction l generalizing q task with
  | nil => rfl
  | cons x l ih => exact ih

/-- `l` takes the flags from `q` to `q'`, and no `|` in it separates tasks. -/
structure Passes (q : Quotes) (l : Text) (q' : Quotes) : Prop where
  flags : l.foldl Quotes.next q = q'
  quiet : countTasks l q 0 = 0

theorem Passes.nil : Passes q [] q := ⟨rfl, rfl⟩

theorem Passes.cons (other : ¬ (x = bar ∧ (q.next x).outside)) (rest : Passes (q.next x) l q') :
    Passes q (x :: l) q' := by
  refine ⟨rest.flags, ?_⟩
  rw [countTasks, if_neg other]
  exact rest.quiet

theorem Passes.append (first : Passes q l q') (second : Passes q' l' q'') : Passes q (l ++ l') q'' := by
  refine ⟨?_, ?_⟩
  · rw [List.foldl_append, first.flags, second.flags]
  · rw [countTasks_append, first.flags, first.quiet, second.quiet]

theorem Passes.of_steady (steady : ∀ x ∈ l, q.next x = q ∧ ¬ (x = bar ∧ q.outside)) : Passes q l q := by
  induction l with
  | nil => exact .nil
  | cons x l ih =>
    obtain ⟨same, other⟩ := steady x List.mem_cons_self
    apply Passes.cons
    · rwa [same]
    · rw [same]
      exact ih fun y member => steady y (List.mem_cons_of_mem _ member)

theorem parseTasks_append (holds : Holds m (cmdLine + i) l) (passes : Passes q l q') :
    parseTasks fuel cmdLine bg (l.length + left) m i j q =
      parseTasks fuel cmdLine bg left m (i + l.length) (j + l.length) q' := by
  induction l generalizing i j q with
  | nil =>
    rw [show q = q' from passes.flags]
    simp
  | cons x l ih =>
    obtain ⟨here, rest⟩ := holds
    have quiet := passes.quiet
    rw [countTasks] at quiet
    have other : ¬ (x = bar ∧ (q.next x).outside) := by
      intro separates
      rw [if_pos separates, countTasks_add] at quiet
      omega
    rw [if_neg other] at quiet
    rw [List.length_cons, Nat.add_right_comm, parseTasks, here]
    dsimp only
    rw [if_neg other, ih (by rwa [Nat.cast_add, Nat.cast_one, ← Int.add_assoc]) ⟨passes.flags, quiet⟩]
    congr 1 <;> omega

theorem trim_spaces (holds : Holds m cmdLine (l ++ [x] ++ List.replicate n space)) (solid : x ≠ space) :
    trim m cmdLine (l.length + 1 + n) = l.length := by
  obtain ⟨line, after⟩ := holds_append.mp holds
  obtain ⟨-, last, -⟩ := holds_append.mp line
  rw [List.length_append, List.length_singleton] at after
  clear holds line
  induction n with
  | zero => rw [Nat.add_zero, trim, if_neg (last.trans_ne solid)]
  | succ n ih =>
    rw [List.replicate_succ'] at after
    obtain ⟨before, here, -⟩ := holds_append.mp after
    rw [List.length_replicate, Int.add_assoc, ← Nat.cast_add] at here
    rw [← Nat.add_assoc, trim, if_pos here, ih before]

end Eecs343.TinyShell.Interpreter
