import Eecs343.FileSystem.Offsets

namespace Eecs343.FileSystem

variable {fs : Image}

namespace Image

variable (fs : Image)

/-- `EXT2_INODE_SIZE`. -/
def inodeSize : Nat := if fs.sRevLevel = 0 then 128 else fs.sInodeSize

/-- The inode table that the group descriptor names. The descriptors follow the superblock's block. -/
def inodeTable : Nat := fs.readU32 ((fs.sFirstDataBlock + 1) * fs.getBlockSize + 8)

def inodeRecord (inodeNum : Nat) : Nat := fs.inodeTable * fs.getBlockSize + (inodeNum - 1) * fs.inodeSize

/-- The number that stands in block 2 where a group descriptor has its inode table. -/
def secondTable : Nat := fs.readU32 (2 * fs.getBlockSize + 8)

end Image

/-- A file system with one block group. -/
structure SingleGroup (fs : Image) : Prop where
  magic : fs.readU16 (Image.getSuperBlock + 56) = 0xEF53
  legal : fs.sLogBlockSize ≤ 6
  first : fs.sFirstDataBlock = if fs.sLogBlockSize = 0 then 1 else 0
  records : fs.sRevLevel ≠ 0 → 128 ≤ fs.sInodeSize ∧ fs.sInodeSize ∣ fs.getBlockSize
  root : 2 ≤ fs.sInodesCount
  behind : fs.sFirstDataBlock + 1 < fs.inodeTable
  inside : fs.inodeTable * fs.getBlockSize + fs.sInodesCount * fs.inodeSize ≤ fs.sBlocksCount * fs.getBlockSize
  group : fs.sBlocksCount ≤ fs.sFirstDataBlock + 8 * fs.getBlockSize

/-- Block 2 is that of the descriptor or leads to the same table, the superblock states the size of the
    records, and the offsets of the table and in it stay below 4 GiB. -/
structure Reached (fs : Image) : Prop where
  descriptor : fs.sLogBlockSize = 0 ∨
    fs.secondTable * fs.getBlockSize % 2 ^ 32 = fs.inodeTable * fs.getBlockSize % 2 ^ 32
  table : fs.inodeTable * fs.getBlockSize < 2 ^ 32
  stated : fs.sRevLevel ≠ 0 ∨ fs.sInodeSize = 128
  last : (fs.sInodesCount - 1) * fs.inodeSize < 2 ^ 32

theorem getBlock_two (legal : fs.sLogBlockSize ≤ 6) : fs.getBlock 2 = 2 * fs.getBlockSize := by
  apply getBlock_of_lt
  have bound : (2 : Nat) ^ (10 + fs.sLogBlockSize) ≤ 2 ^ 16 := Nat.pow_le_pow_right (by decide) (by omega)
  rw [getBlockSize_of_legal legal]
  omega

theorem getInode_eq (legal : fs.sLogBlockSize ≤ 6) {inodeNum : Nat} (first : 1 ≤ inodeNum) (small : inodeNum < 2 ^ 32) :
    fs.getInode inodeNum = fs.getBlock fs.secondTable + u32 ((inodeNum - 1) * fs.sInodeSize) := by
  rw [Image.getInode, Image.getBlockGroup, Image.bgInodeTable, getBlock_two legal, sub32_of_le first small]
  rfl

/-- With blocks of 1024 bytes block 2 is the one with the descriptors. -/
theorem SingleGroup.secondTable (single : SingleGroup fs) (smallest : fs.sLogBlockSize = 0) :
    fs.secondTable = fs.inodeTable := by
  have first := single.first
  rw [if_pos smallest] at first
  rw [Image.secondTable, Image.inodeTable, first]

theorem SingleGroup.table_iff (single : SingleGroup fs) :
    fs.getBlock fs.secondTable = fs.inodeTable * fs.getBlockSize ↔
      (fs.sLogBlockSize = 0 ∨ fs.secondTable * fs.getBlockSize % 2 ^ 32 = fs.inodeTable * fs.getBlockSize % 2 ^ 32) ∧
        fs.inodeTable * fs.getBlockSize < 2 ^ 32 := by
  unfold Image.getBlock u32
  constructor
  · intro same
    have below := Nat.mod_lt (fs.secondTable * fs.getBlockSize) (y := 2 ^ 32) (by decide)
    rw [same] at below
    exact ⟨.inr (by rw [same, Nat.mod_eq_of_lt below]), below⟩
  · intro ⟨descriptor, below⟩
    rcases descriptor with smallest | same
    · rw [single.secondTable smallest, Nat.mod_eq_of_lt below]
    · rw [same, Nat.mod_eq_of_lt below]

theorem stated_iff (fs : Image) : fs.sInodeSize = fs.inodeSize ↔ fs.sRevLevel ≠ 0 ∨ fs.sInodeSize = 128 := by
  unfold Image.inodeSize
  split
  · rename_i old
    simp [old]
  · rename_i dynamic
    simp [dynamic]

/-- `get_inode` finds the records of all inodes exactly where the layout is the one it assumes. -/
theorem inode_addressing_iff (single : SingleGroup fs) :
    (∀ inodeNum, 1 ≤ inodeNum → inodeNum ≤ fs.sInodesCount → fs.getInode inodeNum = fs.inodeRecord inodeNum) ↔
      Reached fs := by
  have count : fs.sInodesCount < 2 ^ 32 := Bytes.loadNat_lt fs _ 4
  have root := single.root
  constructor
  · intro right
    -- inode 1 shows the table, inode 2 the size of a record, and the last inode that no product wraps around
    have one := right 1 (by omega) (by omega)
    have two := right 2 (by omega) root
    have last := right fs.sInodesCount (by omega) (by omega)
    rw [getInode_eq single.legal (by omega) (by omega), Image.inodeRecord] at one two last
    have table : fs.getBlock fs.secondTable = fs.inodeTable * fs.getBlockSize := by simpa [u32] using one
    have record : fs.sInodeSize < 2 ^ 16 := Bytes.loadNat_lt fs _ 2
    have size : fs.sInodeSize = fs.inodeSize := by
      rw [table, Nat.add_left_cancel_iff, Nat.one_mul, Nat.one_mul, u32_of_lt (by omega)] at two
      exact two
    obtain ⟨descriptor, below⟩ := single.table_iff.mp table
    refine ⟨descriptor, below, (stated_iff fs).mp size, ?_⟩
    rw [table, Nat.add_left_cancel_iff] at last
    rw [← last]
    exact Nat.mod_lt _ (by decide)
  · intro reached inodeNum first inside
    have size := (stated_iff fs).mpr reached.stated
    have before : (inodeNum - 1) * fs.inodeSize ≤ (fs.sInodesCount - 1) * fs.inodeSize :=
      Nat.mul_le_mul_right _ (by omega)
    have below := reached.last
    rw [getInode_eq single.legal first (by omega), single.table_iff.mpr ⟨reached.descriptor, reached.table⟩, size,
      u32_of_lt (by omega), Image.inodeRecord]

/-- A file system of 64 blocks of 1024 bytes with 16 inodes of 128 bytes from block 5 on. -/
def smallBlocks : Image := fun place =>
  match [(1024, 16), (1028, 64), (1044, 1), (1080, 0x53), (1081, 0xEF), (1100, 1), (1112, 128), (2056, 5)].lookup place with
  | some byte => byte
  | none => 0

theorem single_smallBlocks : SingleGroup smallBlocks where
  magic := by decide
  legal := by decide
  first := by decide
  records := by decide
  root := by decide
  behind := by decide
  inside := by decide
  group := by decide

theorem smallBlocks_addressed : smallBlocks.getInode 2 = 5 * 1024 + 128 :=
  (inode_addressing_iff single_smallBlocks).mpr ⟨by decide, by decide, by decide, by decide⟩ 2 (by decide) (by decide)

/-- The same with blocks of 2048 bytes, of which block 1 holds the descriptor. -/
def largeBlocks : Image := fun place =>
  match [(1024, 16), (1028, 64), (1048, 1), (1080, 0x53), (1081, 0xEF), (1100, 1), (1112, 128), (2056, 5)].lookup place with
  | some byte => byte
  | none => 0

theorem single_largeBlocks : SingleGroup largeBlocks where
  magic := by decide
  legal := by decide
  first := by decide
  records := by decide
  root := by decide
  behind := by decide
  inside := by decide
  group := by decide

/-- In `largeBlocks` the root directory is looked for in block 0. -/
theorem root_not_addressed : ¬ ∀ fs, SingleGroup fs → ∀ inodeNum, 1 ≤ inodeNum → inodeNum ≤ fs.sInodesCount →
    fs.getInode inodeNum = fs.inodeRecord inodeNum := by
  intro claimed
  have root := claimed largeBlocks single_largeBlocks 2 (by decide) (by decide)
  exact absurd root (by decide)

end Eecs343.FileSystem
