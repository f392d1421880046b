import Eecs343.FileSystem.Cat

namespace Eecs343.FileSystem

variable {fs : Image} {inode : Nat}

/-- Block `k` of the file has no data block: its pointer is 0, or the indirect block is missing. -/
def Hole (fs : Image) (inode k : Nat) : Prop :=
  if k < 12 then fs.iBlock inode k = 0
  else fs.iBlock inode 12 = 0 ∨ k < 12 + fs.getBlockSize / 4 ∧ fs.fileBlock inode k = 0

instance (fs : Image) (inode k : Nat) : Decidable (Hole fs inode k) :=
  inferInstanceAs (Decidable (ite _ _ _))

/-- The bytes of block `k` that belong to the file. -/
def used (fs : Image) (inode k : Nat) : Nat := min fs.getBlockSize (fs.iSize inode - k * fs.getBlockSize)

/-- The holes are written as zeros. -/
def ZerosForHoles (fs : Image) (inode : Nat) (copied : Copied) : Prop :=
  ∀ k, Hole fs inode k → k * fs.getBlockSize < copied.bytesRead →
    ((Image.written copied).drop (k * fs.getBlockSize)).take fs.getBlockSize = List.replicate (used fs inode k) 0

/-- Every hole finds zeros in its place: one of the direct blocks in block 0, which its pointer leads to, and one
    behind them in the block that the word there names, where a missing indirect block is read from block 0. -/
structure BlankForHoles (fs : Image) (inode : Nat) : Prop where
  direct : ∀ k < 12, Hole fs inode k → k * fs.getBlockSize < fs.iSize inode → ∀ i < used fs inode k, fs (i : Nat) = 0
  indirect : ∀ k, 12 ≤ k → k < 12 + fs.getBlockSize → Hole fs inode k → k * fs.getBlockSize < fs.iSize inode →
    ∀ i < used fs inode k,
      fs (fs.getBlock (fs.readU32 (fs.getBlock (fs.iBlock inode 12) + 4 * (k - 12))) + i : Nat) = 0

theorem bytes_eq_replicate (fs : Image) (place n : Nat) :
    fs.bytes place n = List.replicate n 0 ↔ ∀ i < n, fs (place + i : Nat) = 0 := by
  rw [List.eq_replicate_iff, Image.bytes]
  simp

theorem Read.block {copied : Copied} {k : Nat} (read : Read fs inode (12 + fs.getBlockSize) copied)
    (inside : k < 12 + fs.getBlockSize) :
    ((Image.written copied).drop (k * fs.getBlockSize)).take fs.getBlockSize =
      fs.bytes (fs.getBlock (fs.taken inode k)) (used fs inode k) := by
  have before : (k + 1) * fs.getBlockSize ≤ (12 + fs.getBlockSize) * fs.getBlockSize := Nat.mul_le_mul_right _ inside
  rw [Nat.succ_mul] at before
  have bytesRead := read.bytesRead
  have count : min fs.getBlockSize (copied.bytesRead - k * fs.getBlockSize) = used fs inode k := by
    unfold used
    omega
  rw [read.contents, Blocks.take_drop_flatten (uniform_takenBlocks fs inode) (takenBlocks_get inside), Image.bytes,
    ← List.map_take, List.take_range, Nat.min_comm, count]
  rfl

theorem Hole.direct {k : Nat} (hole : Hole fs inode k) (direct : k < 12) : fs.getBlock (fs.taken inode k) = 0 := by
  have number : fs.iBlock inode k = 0 := by simpa [Hole, direct] using hole
  rw [Image.taken, if_pos direct, number, getBlock_zero]

theorem taken_behind (fs : Image) (inode : Nat) {k : Nat} (behind : 12 ≤ k) :
    fs.taken inode k = fs.readU32 (fs.getBlock (fs.iBlock inode 12) + 4 * (k - 12)) := if_neg (by omega)

theorem blankForHoles_iff : BlankForHoles fs inode ↔
    ∀ k < 12 + fs.getBlockSize, Hole fs inode k → k * fs.getBlockSize < fs.iSize inode →
      ∀ i < used fs inode k, fs (fs.getBlock (fs.taken inode k) + i : Nat) = 0 := by
  constructor
  · intro blank k inside hole needed i within
    by_cases direct : k < 12
    · rw [hole.direct direct, Nat.zero_add]
      exact blank.direct k direct hole needed i within
    · rw [taken_behind fs inode (by omega)]
      exact blank.indirect k (by omega) inside hole needed i within
  · intro blank
    constructor
    · intro k direct hole needed i within
      have zero := blank k (by omega) hole needed i within
      rw [hole.direct direct, Nat.zero_add] at zero
      exact zero
    · intro k behind inside hole needed i within
      rw [← taken_behind fs inode behind]
      exact blank k inside hole needed i within

/-- `ext2cat` writes zeros for the holes of a file exactly where it finds zeros in their place. -/
theorem holes_iff (fs : Image) (inode : Nat) :
    ∃ copied, fs.readFile inode = some copied ∧ (ZerosForHoles fs inode copied ↔ BlankForHoles fs inode) := by
  obtain ⟨copied, reads, read⟩ := read_file fs inode
  refine ⟨copied, reads, ?_⟩
  have bytesRead := read.bytesRead
  rw [blankForHoles_iff]
  constructor
  · intro zeros k inside hole needed i within
    have before : (k + 1) * fs.getBlockSize ≤ (12 + fs.getBlockSize) * fs.getBlockSize :=
      Nat.mul_le_mul_right _ inside
    rw [Nat.succ_mul] at before
    have count : used fs inode k ≤ fs.getBlockSize := Nat.min_le_left _ _
    have zero := zeros k hole (by omega)
    rw [read.block inside] at zero
    exact (bytes_eq_replicate fs _ _).mp zero i within
  · intro blank k hole needed
    have inside : k < 12 + fs.getBlockSize := by
      apply Nat.lt_of_mul_lt_mul_right (a := fs.getBlockSize)
      omega
    rw [read.block inside]
    exact (bytes_eq_replicate fs _ _).mpr (blank k inside hole (by omega))

/-- A file of five bytes whose only block is a hole, in an image with a block 0 of zeros. -/
def sparseFile : Image := fun place => if place = 2052 then 5 else 0

theorem blank_sparseFile : BlankForHoles sparseFile 2048 := by
  have size : sparseFile.iSize 2048 = 5 := by decide
  have blockSize : sparseFile.getBlockSize = 1024 := by decide
  constructor
  · intro k direct hole needed i within
    have count : used sparseFile 2048 k ≤ 1024 := Nat.min_le_left _ _
    exact if_neg (by omega)
  · intro k behind inside hole needed
    rw [size, blockSize] at needed
    omega

theorem sparseFile_zeros : ∃ copied, sparseFile.readFile 2048 = some copied ∧ ZerosForHoles sparseFile 2048 copied := by
  obtain ⟨copied, reads, exact⟩ := holes_iff sparseFile 2048
  exact ⟨copied, reads, exact.mpr blank_sparseFile⟩

/-- The same file with a boot sector that does not begin with 0. -/
def bootSector : Image := fun place => if place = 2052 then 5 else if place = 0 then 7 else 0

theorem boot_sector_written : ∃ copied, bootSector.readFile 2048 = some copied ∧
    ¬ZerosForHoles bootSector 2048 copied := by
  obtain ⟨copied, reads, read⟩ := read_file bootSector 2048
  refine ⟨copied, reads, ?_⟩
  intro zeros
  have hole : Hole bootSector 2048 0 := by decide
  have size : bootSector.iSize 2048 = 5 := by decide
  have blockSize : bootSector.getBlockSize = 1024 := by decide
  have bytesRead := read.bytesRead
  rw [blockSize, size] at bytesRead
  have zero := zeros 0 hole (by omega)
  rw [read.block (by omega)] at zero
  have first := (bytes_eq_replicate bootSector _ _).mp zero 0 (by decide)
  exact absurd first (by decide)

end Eecs343.FileSystem
