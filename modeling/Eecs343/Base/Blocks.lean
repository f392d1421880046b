import Mathlib.Data.List.Basic

/-! Lists of blocks of one length. -/

namespace Blocks

variable {α : Type*} {blocks : List (List α)} {n : Nat}

theorem drop_flatten (uniform : ∀ block ∈ blocks, block.length = n) (k : Nat) :
    blocks.flatten.drop (k * n) = (blocks.drop k).flatten := by
  induction k generalizing blocks with
  | zero => simp
  | succ k ih =>
    cases blocks with
    | nil => simp
    | cons first rest =>
      obtain ⟨here, others⟩ := List.forall_mem_cons.mp uniform
      rw [List.flatten_cons, List.drop_succ_cons, ← ih others, Nat.succ_mul, Nat.add_comm, ← here, List.drop_append]
      simp

theorem flatten_take (uniform : ∀ block ∈ blocks, block.length = n) (k : Nat) :
    blocks.flatten.take (k * n) = (blocks.take k).flatten := by
  induction k generalizing blocks with
  | zero => simp
  | succ k ih =>
    cases blocks with
    | nil => simp
    | cons first rest =>
      obtain ⟨here, others⟩ := List.forall_mem_cons.mp uniform
      rw [List.flatten_cons, List.take_succ_cons, List.flatten_cons, ← ih others, Nat.succ_mul, Nat.add_comm, ← here,
        List.take_append, List.take_of_length_le (by omega), Nat.add_sub_cancel_left]

/-- The first bytes up to some place in block `k` are those before the block and the first of the block. -/
theorem take_flatten (uniform : ∀ block ∈ blocks, block.length = n) {k m : Nat} {block : List α}
    (here : blocks[k]? = some block) (bound : m ≤ n) :
    blocks.flatten.take (k * n + m) = blocks.flatten.take (k * n) ++ block.take m := by
  obtain ⟨inside, same⟩ := List.getElem?_eq_some_iff.mp here
  have length : block.length = n := uniform block (List.mem_of_getElem? here)
  rw [List.take_add, drop_flatten uniform, List.drop_eq_getElem_cons inside, same, List.flatten_cons,
    List.take_append_of_le_length (by omega)]

/-- Block `k` of the first bytes, which may end in it. -/
theorem take_drop_flatten (uniform : ∀ block ∈ blocks, block.length = n) {k m : Nat} {block : List α}
    (here : blocks[k]? = some block) : ((blocks.flatten.take m).drop (k * n)).take n = block.take (m - k * n) := by
  obtain ⟨inside, same⟩ := List.getElem?_eq_some_iff.mp here
  have length : block.length = n := uniform block (List.mem_of_getElem? here)
  rw [List.drop_take, drop_flatten uniform, List.drop_eq_getElem_cons inside, same, List.flatten_cons, List.take_take,
    List.take_append_of_le_length (by omega), ← length, Nat.min_comm, ← List.take_take, List.take_length]

end Blocks
