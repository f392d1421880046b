import Eecs343.FileSystem.Cat

namespace Eecs343.FileSystem

namespace Image

variable (fs : Image)

/-- The places from which the loop over the indirect block takes its block numbers, in order. -/
def wordsRead (indirectBlock size i : Nat) (copied : Copied) : List Nat :=
  if copied.bytesRead < size ∧ i < fs.getBlockSize then
    (indirectBlock + 4 * i) ::
      (fs.copyBlock size (fs.getBlock (fs.readU32 (indirectBlock + 4 * i))) copied).elim []
        (wordsRead indirectBlock size (i + 1))
  else []
termination_by fs.getBlockSize - i

/-- The same for a call of `main`. -/
def indirectWords (inode : Nat) : List Nat :=
  let size := fs.iSize inode
  (fs.directLoop inode size 0 ⟨List.replicate size 0, 0⟩).elim []
    (fs.wordsRead (fs.getBlock (fs.iBlock inode 12)) size 0)

/-- The bytes that twelve direct blocks and the blocks of one indirect block hold. -/
def reach : Nat := (12 + fs.getBlockSize / 4) * fs.getBlockSize

end Image

variable {fs : Image} {inode : Nat}

/-- The output is the file up to the last block of the indirect block, and is reported as truncated. -/
def CutAtReach (fs : Image) (inode : Nat) : Prop :=
  ∃ copied, fs.readFile inode = some copied ∧ Image.written copied = (fs.fileBlocks inode).flatten.take fs.reach ∧
    fs.truncated inode copied

/-- Every block number that is taken stands in the indirect block. -/
def StaysInside (fs : Image) (inode : Nat) : Prop :=
  ∀ place ∈ fs.indirectWords inode, place + 4 ≤ fs.getBlock (fs.iBlock inode 12) + fs.getBlockSize

/-- The loop takes a number for each block that the file needs, up to as many as a block has bytes. -/
theorem Read.mem_wordsRead {copied : Copied} {i place : Nat} (read : Read fs inode (12 + i) copied) :
    place ∈ fs.wordsRead (fs.getBlock (fs.iBlock inode 12)) (fs.iSize inode) i copied ↔
      ∃ j, i ≤ j ∧ j < fs.getBlockSize ∧ (12 + j) * fs.getBlockSize < fs.iSize inode ∧
        place = fs.getBlock (fs.iBlock inode 12) + 4 * j := by
  induction left : fs.getBlockSize - i using Nat.strong_induction_on generalizing i copied with
  | _ left ih =>
    have bytesRead := read.bytesRead
    rw [Image.wordsRead]
    by_cases more : copied.bytesRead < fs.iSize inode ∧ i < fs.getBlockSize
    · obtain ⟨next, copies, after⟩ := read.step (by omega) (by omega)
      have later := ih (fs.getBlockSize - (i + 1)) (by omega) after rfl
      rw [if_pos more, taken_indirect, copies, Option.elim_some, List.mem_cons, later]
      constructor
      · rintro (here | ⟨j, first, inside, needed, there⟩)
        · exact ⟨i, Nat.le_refl i, more.2, by omega, here⟩
        · exact ⟨j, by omega, inside, needed, there⟩
      · intro ⟨j, first, inside, needed, there⟩
        by_cases same : j = i
        · rw [same] at there
          exact .inl there
        · exact .inr ⟨j, by omega, inside, needed, there⟩
    · rw [if_neg more]
      constructor
      · intro member
        cases member
      · intro ⟨j, first, inside, needed, _⟩
        have le : (12 + i) * fs.getBlockSize ≤ (12 + j) * fs.getBlockSize := Nat.mul_le_mul_right _ (by omega)
        omega

theorem mem_indirectWords {place : Nat} :
    place ∈ fs.indirectWords inode ↔
      ∃ j < fs.getBlockSize, (12 + j) * fs.getBlockSize < fs.iSize inode ∧
        place = fs.getBlock (fs.iBlock inode 12) + 4 * j := by
  obtain ⟨middle, first, read⟩ := (Read.start fs inode).direct (by decide)
  simp only [Image.indirectWords, first, Option.elim_some]
  rw [Read.mem_wordsRead (i := 0) read]
  simp

/-- For no file beyond its reach does `ext2cat` stop at the end of the indirect block. -/
theorem never_cut_at_reach (positive : 0 < fs.getBlockSize) (long : fs.reach < fs.iSize inode) :
    ¬CutAtReach fs inode ∧ ¬StaysInside fs inode := by
  constructor
  · intro ⟨copied, reads, output, _⟩
    obtain ⟨final, returns, read⟩ := read_file fs inode
    have same : copied = final := Option.some.inj (reads.symm.trans returns)
    subst same
    have bytesRead := read.bytesRead
    have buffer := read.buffer
    -- the second loop goes on behind the indirect block, so that the buffer holds more than the reach
    have beyond : fs.reach < (12 + fs.getBlockSize) * fs.getBlockSize :=
      Nat.mul_lt_mul_of_pos_right (by omega) positive
    have length : (Image.written copied).length ≤ fs.reach := by
      rw [output]
      exact List.length_take_le _ _
    rw [Image.written, List.length_take] at length
    omega
  · intro stays
    -- the number taken next after the last one of the indirect block
    have behind := stays _ (mem_indirectWords.mpr ⟨fs.getBlockSize / 4, by omega, long, rfl⟩)
    omega

/-- A file of one byte more than twelve and 256 blocks of 1024 bytes; its inode is in block 2. -/
def longFile : Image := fun place => if place = 2052 then 1 else if place = 2053 then 48 else if place = 2054 then 4 else 0

theorem longFile_not_cut : ¬CutAtReach longFile 2048 ∧ ¬StaysInside longFile 2048 :=
  never_cut_at_reach (by decide) (by decide)

theorem not_always_cut : ¬ ∀ fs inode, 0 < Image.getBlockSize fs → fs.reach < fs.iSize inode →
    CutAtReach fs inode ∧ StaysInside fs inode := by
  intro claimed
  obtain ⟨_, stays⟩ := claimed longFile 2048 (by decide) (by decide)
  have size : longFile.iSize 2048 = 274433 := by decide
  have blockSize : longFile.getBlockSize = 1024 := by decide
  have word : longFile.getBlock (longFile.iBlock 2048 12) + 4 * 256 ∈ longFile.indirectWords 2048 := by
    apply mem_indirectWords.mpr
    rw [size, blockSize]
    exact ⟨256, by decide, by decide, rfl⟩
  have behind := stays _ word
  rw [blockSize] at behind
  omega

end Eecs343.FileSystem
