import Eecs343.Base.Bytes

namespace Bytes

/-- A block of the heap, and whether the program has used a pointer that is not to it, or gone beyond its end. -/
structure HeapBlock where
  memory : Memory
  address : Int
  size : Nat
  wild : Bool
  somewhere : address ≠ 0

namespace HeapBlock

variable (block : HeapBlock)

/-- `p[i] = b`. -/
def store (p : Int) (i : Nat) (b : BitVec 8) : HeapBlock :=
  { block with
    memory := Function.update block.memory (p + i) b
    wild := block.wild || p ≠ block.address || block.size ≤ i }

/-- `realloc(p, n)` where it returns `answer`: NULL leaves the block as it is, any other address is the block's new one. -/
def realloc (p : Int) (n : Nat) (answer : Int) : HeapBlock :=
  if somewhere : answer = 0 then { block with wild := block.wild || p ≠ block.address }
  else
    { memory := fun x => if answer ≤ x ∧ x < answer + min block.size n then block.memory (p + (x - answer)) else block.memory x
      address := answer
      size := n
      wild := block.wild || p ≠ block.address
      somewhere }

variable {block} {p answer : Int} {i n : Nat} {b : BitVec 8}

theorem store_wild (wild : block.wild = true) : (block.store p i b).wild = true := by
  simp [store, wild]

theorem store_astray (astray : p ≠ block.address) : (block.store p i b).wild = true := by
  simp [store, astray]

theorem store_tame (tame : block.wild = false) (inside : i < block.size) :
    (block.store block.address i b).wild = false := by
  simp [store, tame, inside]

theorem realloc_wild (wild : block.wild = true) : (block.realloc p n answer).wild = true := by
  unfold realloc
  split <;> simp [wild]

theorem realloc_null : block.realloc p n 0 = { block with wild := block.wild || p ≠ block.address } := dif_pos rfl

theorem realloc_address (moved : answer ≠ 0) : (block.realloc p n answer).address = answer := by
  rw [realloc, dif_neg moved]

theorem realloc_size (moved : answer ≠ 0) : (block.realloc p n answer).size = n := by
  rw [realloc, dif_neg moved]

theorem realloc_tame (tame : block.wild = false) : (block.realloc block.address n answer).wild = false := by
  unfold realloc
  split <;> simp [tame]

theorem realloc_kept (moved : answer ≠ 0) (old : i < block.size) (new : i < n) :
    (block.realloc block.address n answer).memory (answer + i) = block.memory (block.address + i) := by
  rw [realloc, dif_neg moved]
  dsimp only
  rw [if_pos ⟨by omega, by omega⟩, add_sub_cancel_left]

end HeapBlock

end Bytes
