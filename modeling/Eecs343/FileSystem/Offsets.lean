import Eecs343.FileSystem.Image

namespace Eecs343.FileSystem

variable {fs : Image}

/-- `get_block` gives each block of the file system a range of its own, at the block's own offset. -/
structure Separated (fs : Image) : Prop where
  exact : ∀ blockNum < fs.sBlocksCount, fs.getBlock blockNum = blockNum * fs.getBlockSize
  apart : ∀ a < fs.sBlocksCount, ∀ b < fs.sBlocksCount, a ≠ b →
    fs.getBlock a + fs.getBlockSize ≤ fs.getBlock b ∨ fs.getBlock b + fs.getBlockSize ≤ fs.getBlock a

theorem getBlockSize_dvd (legal : fs.sLogBlockSize ≤ 6) : fs.getBlockSize ∣ 2 ^ 32 := by
  rw [getBlockSize_of_legal legal]
  exact Nat.pow_dvd_pow 2 (by omega)

theorem getBlock_lt (fs : Image) (blockNum : Nat) : fs.getBlock blockNum < 2 ^ 32 := Nat.mod_lt _ (by decide)

theorem before_of_lt (fs : Image) {a b : Nat} (lt : a < b) :
    a * fs.getBlockSize + fs.getBlockSize ≤ b * fs.getBlockSize := by
  rw [← Nat.succ_mul]
  exact Nat.mul_le_mul_right _ lt

/-- Blocks keep apart exactly in file systems of at most 4 GiB. -/
theorem separated_iff (legal : fs.sLogBlockSize ≤ 6) : Separated fs ↔ fs.sBlocksCount * fs.getBlockSize ≤ 2 ^ 32 := by
  constructor
  · intro separated
    obtain ⟨whole, count⟩ := getBlockSize_dvd legal
    cases blocks : fs.sBlocksCount with
    | zero => simp
    | succ last =>
      -- the offset of the last block is exact, so that the block begins below 4 GiB, and it is a whole one
      have below := getBlock_lt fs last
      rw [separated.exact last (by omega), count, Nat.mul_comm] at below
      have fewer := Nat.lt_of_mul_lt_mul_left below
      rw [count, Nat.mul_comm]
      exact Nat.mul_le_mul_left _ fewer
  · intro small
    have exact : ∀ blockNum < fs.sBlocksCount, fs.getBlock blockNum = blockNum * fs.getBlockSize := by
      intro blockNum inside
      have positive := getBlockSize_pos legal
      have before := before_of_lt fs inside
      exact getBlock_of_lt (by omega)
    refine ⟨exact, ?_⟩
    intro a insideA b insideB different
    rw [exact a insideA, exact b insideB]
    rcases Nat.lt_or_gt_of_ne different with lt | gt
    · exact .inl (before_of_lt fs lt)
    · exact .inr (before_of_lt fs gt)

/-- A file system of eight blocks of 1024 bytes. -/
def eightBlocks : Image := fun place => if place = 1028 then 8 else 0

theorem separated_eightBlocks : Separated eightBlocks := (separated_iff (by decide)).mpr (by decide)

/-- A file system of 4 GiB and one block. -/
def wrappingBlocks : Image := fun place => if place = 1028 then 1 else if place = 1030 then 64 else 0

/-- The last block of `wrappingBlocks` is placed on block 0. -/
theorem last_block_wraps : ¬ ∀ fs : Image, fs.sLogBlockSize ≤ 6 → Separated fs := by
  intro claimed
  have separated := claimed wrappingBlocks (by decide)
  exact absurd (separated.exact (2 ^ 22) (by decide)) (by decide)

end Eecs343.FileSystem
