import Eecs343.Base.Blocks
import Eecs343.FileSystem.Image

namespace Eecs343.FileSystem

/-- What `main` has read of the file so far. -/
structure Copied where
  buf : List (BitVec 8)
  bytesRead : Nat

/-- `memcpy(buf + place, source, source.length)`, which must stay inside the buffer. -/
def memcpy (buf : List (BitVec 8)) (place : Nat) (source : List (BitVec 8)) : Option (List (BitVec 8)) :=
  if place + source.length ≤ buf.length then some (buf.take place ++ source ++ buf.drop (place + source.length)) else none

namespace Image

variable (fs : Image)

/-- The body that the two loops share: at most one block from the place `block`. -/
def copyBlock (size block : Nat) (copied : Copied) : Option Copied :=
  let blockSize := fs.getBlockSize
  let bytesLeft := sub32 size copied.bytesRead
  let bytesToRead := if bytesLeft > blockSize then blockSize else bytesLeft
  (memcpy copied.buf copied.bytesRead (fs.bytes block bytesToRead)).map fun buf =>
    ⟨buf, u32 (copied.bytesRead + bytesToRead)⟩

/-- The loop over the direct blocks, from block `i` on. -/
def directLoop (inode size i : Nat) (copied : Copied) : Option Copied :=
  if i < 12 then
    if sub32 size copied.bytesRead = 0 then some copied
    else (fs.copyBlock size (fs.getBlock (fs.iBlock inode i)) copied).bind (directLoop inode size (i + 1))
  else some copied
termination_by 12 - i

/-- The loop over the indirect block; `i` is `next_block - indirect_block`. -/
def indirectLoop (indirectBlock size i : Nat) (copied : Copied) : Option Copied :=
  if copied.bytesRead < size ∧ i < fs.getBlockSize then
    (fs.copyBlock size (fs.getBlock (fs.readU32 (indirectBlock + 4 * i))) copied).bind
      (indirectLoop indirectBlock size (i + 1))
  else some copied
termination_by fs.getBlockSize - i

/-- `main` from the inode of the file on, up to the output. -/
def readFile (inode : Nat) : Option Copied :=
  let size := fs.iSize inode
  (fs.directLoop inode size 0 ⟨List.replicate size 0, 0⟩).bind
    (fs.indirectLoop (fs.getBlock (fs.iBlock inode 12)) size 0)

/-- `write(1, buf, bytes_read)`. -/
def written (copied : Copied) : List (BitVec 8) := copied.buf.take copied.bytesRead

/-- Whether `main` reports that the output was truncated. -/
def truncated (inode : Nat) (copied : Copied) : Prop := copied.bytesRead < fs.iSize inode

/-- The block number that `main` takes for block `k` of its output. -/
def taken (inode k : Nat) : Nat :=
  if k < 12 then fs.iBlock inode k else fs.readU32 (fs.getBlock (fs.iBlock inode 12) + 4 * (k - 12))

/-- What `main` can copy: the direct blocks, and one block in each round of its second loop. -/
def takenBlocks (inode : Nat) : List (List (BitVec 8)) :=
  (List.range (12 + fs.getBlockSize)).map fun k => fs.bytes (fs.getBlock (fs.taken inode k)) fs.getBlockSize

/-- The number of data block `k` of a file. -/
def fileBlock (inode k : Nat) : Nat :=
  if k < 12 then fs.iBlock inode k else fs.readU32 (fs.iBlock inode 12 * fs.getBlockSize + 4 * (k - 12))

def blockBytes (blockNum : Nat) : List (BitVec 8) :=
  if blockNum = 0 then List.replicate fs.getBlockSize 0 else fs.bytes (blockNum * fs.getBlockSize) fs.getBlockSize

def fileBlocks (inode : Nat) : List (List (BitVec 8)) :=
  (List.range ((fs.iSize inode + fs.getBlockSize - 1) / fs.getBlockSize)).map fun k =>
    fs.blockBytes (fs.fileBlock inode k)

end Image

/-- A file of an image of `length` bytes: its size is within reach of the indirect block, and the blocks it
    needs are in the image. -/
structure Mapped (fs : Image) (length inode : Nat) : Prop where
  small : length < 2 ^ 32
  legal : fs.sLogBlockSize ≤ 6
  fits : fs.iSize inode ≤ (12 + fs.getBlockSize / 4) * fs.getBlockSize
  indirect : 12 * fs.getBlockSize < fs.iSize inode →
    fs.iBlock inode 12 ≠ 0 ∧ (fs.iBlock inode 12 + 1) * fs.getBlockSize ≤ length
  blocks : ∀ k, k * fs.getBlockSize < fs.iSize inode →
    fs.fileBlock inode k ≠ 0 ∧ (fs.fileBlock inode k + 1) * fs.getBlockSize ≤ length

variable {fs : Image} {inode length : Nat}

theorem Mapped.reach (mapped : Mapped fs length inode) : fs.iSize inode ≤ (12 + fs.getBlockSize) * fs.getBlockSize := by
  have fits := mapped.fits
  have more : (12 + fs.getBlockSize / 4) * fs.getBlockSize ≤ (12 + fs.getBlockSize) * fs.getBlockSize :=
    Nat.mul_le_mul_right _ (by omega)
  omega

theorem le_blocks {size n : Nat} (positive : 0 < n) : size ≤ (size + n - 1) / n * n := by
  have rounded := Nat.div_add_mod (size + n - 1) n
  have rest := Nat.mod_lt (size + n - 1) positive
  rw [Nat.mul_comm]
  omega

theorem memcpy_inside {buf source : List (BitVec 8)} {place : Nat} (inside : place + source.length ≤ buf.length) :
    memcpy buf place source = some (buf.take place ++ source ++ buf.drop (place + source.length)) := if_pos inside

theorem uniform_takenBlocks (fs : Image) (inode : Nat) :
    ∀ block ∈ fs.takenBlocks inode, block.length = fs.getBlockSize := by
  intro block member
  obtain ⟨k, _, rfl⟩ := List.mem_map.mp member
  exact length_bytes fs _ _

theorem takenBlocks_get {k : Nat} (inside : k < 12 + fs.getBlockSize) :
    (fs.takenBlocks inode)[k]? = some (fs.bytes (fs.getBlock (fs.taken inode k)) fs.getBlockSize) := by
  rw [Image.takenBlocks, List.getElem?_map, List.getElem?_range inside, Option.map_some]

/-- The first `k` blocks have been read, or all of the file where it is shorter. -/
structure Read (fs : Image) (inode k : Nat) (copied : Copied) : Prop where
  buffer : copied.buf.length = fs.iSize inode
  bytesRead : copied.bytesRead = min (k * fs.getBlockSize) (fs.iSize inode)
  contents : Image.written copied = (fs.takenBlocks inode).flatten.take copied.bytesRead

theorem Read.mono {copied : Copied} {k m : Nat} (read : Read fs inode k copied)
    (whole : fs.iSize inode ≤ k * fs.getBlockSize)
    (le : k ≤ m) : Read fs inode m copied where
  buffer := read.buffer
  bytesRead := by
    have more := Nat.mul_le_mul_right fs.getBlockSize le
    rw [read.bytesRead, Nat.min_eq_right whole, Nat.min_eq_right (Nat.le_trans whole more)]
  contents := read.contents

theorem Read.start (fs : Image) (inode : Nat) : Read fs inode 0 ⟨List.replicate (fs.iSize inode) 0, 0⟩ :=
  ⟨List.length_replicate, by simp, by simp [Image.written]⟩

theorem Read.step {copied : Copied} {k : Nat} (read : Read fs inode k copied) (inside : k < 12 + fs.getBlockSize)
    (needed : k * fs.getBlockSize < fs.iSize inode) :
    ∃ next, fs.copyBlock (fs.iSize inode) (fs.getBlock (fs.taken inode k)) copied = some next ∧
      Read fs inode (k + 1) next := by
  have bytesRead : copied.bytesRead = k * fs.getBlockSize := by
    rw [read.bytesRead]
    omega
  have size := iSize_lt fs inode
  have left : sub32 (fs.iSize inode) copied.bytesRead = fs.iSize inode - k * fs.getBlockSize := by
    rw [bytesRead, sub32_of_le (by omega) size]
  generalize count : (if fs.iSize inode - k * fs.getBlockSize > fs.getBlockSize then fs.getBlockSize
    else fs.iSize inode - k * fs.getBlockSize) = n
  have whole : n ≤ fs.getBlockSize := by
    rw [← count]
    split <;> omega
  have sum : k * fs.getBlockSize + n = min ((k + 1) * fs.getBlockSize) (fs.iSize inode) := by
    rw [← count, Nat.succ_mul]
    split <;> omega
  have buffer := read.buffer
  have source := length_bytes fs (fs.getBlock (fs.taken inode k)) n
  have room : copied.bytesRead + (fs.bytes (fs.getBlock (fs.taken inode k)) n).length ≤ copied.buf.length := by
    omega
  have before : (copied.buf.take copied.bytesRead).length = copied.bytesRead := List.length_take_of_le (by omega)
  refine ⟨_, by simp only [Image.copyBlock, left, count, memcpy_inside room, Option.map_some]; rfl, ?_, ?_, ?_⟩
  · simp only [List.length_append, List.length_drop]
    omega
  · rw [bytesRead, sum]
    exact u32_of_lt (by omega)
  · have total : u32 (copied.bytesRead + n) = k * fs.getBlockSize + n := by
      rw [bytesRead]
      exact u32_of_lt (by omega)
    have contents := read.contents
    simp only [Image.written] at contents ⊢
    rw [total, Blocks.take_flatten (uniform_takenBlocks fs inode) (takenBlocks_get inside) whole, ← bytesRead, ← contents,
      take_bytes fs _ whole, List.take_left' (by rw [List.length_append]; omega)]

/-- The first loop reads the twelve direct blocks, or all of a shorter file. -/
theorem Read.direct {copied : Copied} {i : Nat} (read : Read fs inode i copied) (le : i ≤ 12) :
    ∃ next, fs.directLoop inode (fs.iSize inode) i copied = some next ∧ Read fs inode 12 next := by
  induction left : 12 - i generalizing i copied with
  | zero =>
    obtain rfl : i = 12 := by omega
    refine ⟨copied, ?_, read⟩
    rw [Image.directLoop]
    rfl
  | succ left ih =>
    have size := iSize_lt fs inode
    have bytesRead := read.bytesRead
    have remaining : sub32 (fs.iSize inode) copied.bytesRead = fs.iSize inode - copied.bytesRead :=
      sub32_of_le (by omega) size
    rw [Image.directLoop, if_pos (by omega), remaining]
    by_cases needed : i * fs.getBlockSize < fs.iSize inode
    · have direct : fs.taken inode i = fs.iBlock inode i := if_pos (by omega)
      obtain ⟨next, copies, after⟩ := read.step (by omega) needed
      rw [direct] at copies
      rw [if_neg (by omega), copies, Option.bind_some]
      exact ih after (by omega) (by omega)
    · rw [if_pos (by omega)]
      exact ⟨copied, rfl, read.mono (by omega) le⟩

theorem taken_indirect (fs : Image) (inode i : Nat) :
    fs.readU32 (fs.getBlock (fs.iBlock inode 12) + 4 * i) = fs.taken inode (12 + i) := by
  rw [Image.taken, if_neg (by omega), Nat.add_sub_cancel_left]

/-- The second loop has a round for each number up to the block size, or reads the whole of a shorter file. -/
theorem Read.indirect {copied : Copied} {i : Nat} (read : Read fs inode (12 + i) copied) (le : i ≤ fs.getBlockSize) :
    ∃ next, fs.indirectLoop (fs.getBlock (fs.iBlock inode 12)) (fs.iSize inode) i copied = some next ∧
      Read fs inode (12 + fs.getBlockSize) next := by
  induction left : fs.getBlockSize - i using Nat.strong_induction_on generalizing i copied with
  | _ left ih =>
    have bytesRead := read.bytesRead
    rw [Image.indirectLoop]
    by_cases more : copied.bytesRead < fs.iSize inode
    · by_cases inside : i < fs.getBlockSize
      · obtain ⟨next, copies, after⟩ := read.step (by omega) (by omega)
        rw [if_pos ⟨more, inside⟩, taken_indirect, copies, Option.bind_some]
        exact ih _ (by omega) after inside rfl
      · obtain rfl : i = fs.getBlockSize := by omega
        rw [if_neg (by omega)]
        exact ⟨copied, rfl, read⟩
    · rw [if_neg (by omega)]
      exact ⟨copied, rfl, read.mono (by omega) (by omega)⟩

/-- `main` always gets through, and its output is made of the blocks it takes. -/
theorem read_file (fs : Image) (inode : Nat) :
    ∃ copied, fs.readFile inode = some copied ∧ Read fs inode (12 + fs.getBlockSize) copied := by
  obtain ⟨middle, first, read⟩ := (Read.start fs inode).direct (by decide)
  obtain ⟨copied, second, after⟩ := Read.indirect (i := 0) read (Nat.zero_le _)
  refine ⟨copied, ?_, after⟩
  rw [Image.readFile]
  simp only [first, Option.bind_some, second]

theorem Mapped.taken (mapped : Mapped fs length inode) {k : Nat} (needed : k * fs.getBlockSize < fs.iSize inode) :
    fs.taken inode k = fs.fileBlock inode k := by
  unfold Image.taken Image.fileBlock
  split
  · rfl
  · rename_i behind
    have le : 12 * fs.getBlockSize ≤ k * fs.getBlockSize := Nat.mul_le_mul_right _ (by omega)
    obtain ⟨_, inside⟩ := mapped.indirect (by omega)
    rw [getBlock_inside mapped.legal mapped.small inside]

theorem Mapped.fileBlocks (mapped : Mapped fs length inode) :
    fs.fileBlocks inode = (fs.takenBlocks inode).take ((fs.iSize inode + fs.getBlockSize - 1) / fs.getBlockSize) := by
  have positive := getBlockSize_pos mapped.legal
  have reach := mapped.reach
  have count : (fs.iSize inode + fs.getBlockSize - 1) / fs.getBlockSize ≤ 12 + fs.getBlockSize := by
    apply Nat.le_of_lt_succ
    rw [Nat.div_lt_iff_lt_mul positive, Nat.succ_mul]
    omega
  rw [Image.fileBlocks, Image.takenBlocks, ← List.map_take, List.take_range, Nat.min_eq_left count]
  apply List.map_congr_left
  intro k member
  have needed : k * fs.getBlockSize < fs.iSize inode := by
    have below := List.mem_range.mp member
    rw [Nat.lt_div_iff_mul_lt positive] at below
    omega
  obtain ⟨nonzero, inside⟩ := mapped.blocks k needed
  rw [mapped.taken needed, Image.blockBytes, if_neg nonzero, getBlock_inside mapped.legal mapped.small inside]

/-- `ext2cat` writes the file: all its blocks in order, as far as its size goes, and no copy leaves the
    buffer. -/
theorem file_written (mapped : Mapped fs length inode) :
    ∃ copied, fs.readFile inode = some copied ∧
      Image.written copied = (fs.fileBlocks inode).flatten.take (fs.iSize inode) ∧
      copied.bytesRead = fs.iSize inode ∧ ¬fs.truncated inode copied := by
  obtain ⟨copied, reads, read⟩ := read_file fs inode
  have positive := getBlockSize_pos mapped.legal
  have whole : copied.bytesRead = fs.iSize inode := by
    rw [read.bytesRead, Nat.min_eq_right mapped.reach]
  refine ⟨copied, reads, ?_, whole, ?_⟩
  · have enough : fs.iSize inode ≤ (fs.iSize inode + fs.getBlockSize - 1) / fs.getBlockSize * fs.getBlockSize :=
      le_blocks positive
    rw [read.contents, whole, mapped.fileBlocks, ← Blocks.flatten_take (uniform_takenBlocks fs inode), List.take_take,
      Nat.min_eq_left enough]
  · unfold Image.truncated
    omega

/-- An image of 17 blocks: an inode in block 2 for a file of 12291 bytes, with 12 blocks from block 3 on and one more,
    block 16, behind the indirect block 15. -/
def indirectFile : Image := fun place =>
  if place = 2052 then 3
  else if place = 2053 then 48
  else if 2088 ≤ place ∧ place < 2140 ∧ place % 4 = 0 then BitVec.ofInt 8 ((place - 2088) / 4 + 3)
  else if place = 15360 then 16
  else if 3072 ≤ place ∧ place < 15360 then BitVec.ofInt 8 (place / 1024)
  else if 16384 ≤ place then BitVec.ofInt 8 place
  else 0

theorem iSize_indirectFile : indirectFile.iSize 2048 = 12291 := by decide

theorem getBlockSize_indirectFile : indirectFile.getBlockSize = 1024 := by decide

theorem mapped_indirectFile : Mapped indirectFile 17408 2048 where
  small := by decide
  legal := by decide
  fits := by decide
  indirect := fun _ => by decide
  blocks := by
    intro k needed
    rw [iSize_indirectFile, getBlockSize_indirectFile] at needed
    have each : ∀ k < 13, indirectFile.fileBlock 2048 k ≠ 0 ∧ (indirectFile.fileBlock 2048 k + 1) * 1024 ≤ 17408 := by decide
    rw [getBlockSize_indirectFile]
    exact each k (by omega)

theorem uniform_fileBlocks (fs : Image) (inode : Nat) : ∀ block ∈ fs.fileBlocks inode, block.length = fs.getBlockSize := by
  intro block member
  obtain ⟨k, _, rfl⟩ := List.mem_map.mp member
  unfold Image.blockBytes
  split
  · exact List.length_replicate
  · exact length_bytes fs _ _

/-- The last three bytes come from the block behind the indirect one. -/
theorem indirectFile_written :
    ∃ copied, indirectFile.readFile 2048 = some copied ∧ copied.bytesRead = 12291 ∧
      ((Image.written copied).drop (12 * 1024)).take 1024 = [0, 1, 2] := by
  obtain ⟨copied, reads, written, whole, _⟩ := file_written mapped_indirectFile
  have uniform := uniform_fileBlocks indirectFile 2048
  have last : (indirectFile.fileBlocks 2048)[12]? = some (indirectFile.bytes 16384 1024) := by
    have number : indirectFile.fileBlock 2048 12 = 16 := by decide
    rw [Image.fileBlocks, iSize_indirectFile, getBlockSize_indirectFile, List.getElem?_map, List.getElem?_range (by decide),
      Option.map_some, number, Image.blockBytes, if_neg (by decide), getBlockSize_indirectFile]
  rw [getBlockSize_indirectFile] at uniform
  refine ⟨copied, reads, whole.trans iSize_indirectFile, ?_⟩
  rw [written, iSize_indirectFile, Blocks.take_drop_flatten uniform last, take_bytes _ _ (by decide)]
  decide

end Eecs343.FileSystem
