import Eecs343.Base.Bytes

namespace Eecs343.FileSystem

open Bytes

/-- The mapped image and what is mapped behind it. Addresses are offsets from `fs`. -/
abbrev Image := Memory

/-- Numbers of type `__u32`. -/
def u32 (n : Nat) : Nat := n % 2 ^ 32

def sub32 (a b : Nat) : Nat := u32 (a + 2 ^ 32 - b)

namespace Image

variable (fs : Image)

def readU8 (place : Nat) : Nat := loadNat fs place 1

def readU16 (place : Nat) : Nat := loadNat fs place 2

def readU32 (place : Nat) : Nat := loadNat fs place 4

def bytes (place n : Nat) : List (BitVec 8) := (List.range n).map fun i => fs (place + i : Nat)

def getSuperBlock : Nat := 1024

def sInodesCount : Nat := fs.readU32 getSuperBlock

def sBlocksCount : Nat := fs.readU32 (getSuperBlock + 4)

def sFirstDataBlock : Nat := fs.readU32 (getSuperBlock + 20)

def sLogBlockSize : Nat := fs.readU32 (getSuperBlock + 24)

def sRevLevel : Nat := fs.readU32 (getSuperBlock + 76)

def sInodeSize : Nat := fs.readU16 (getSuperBlock + 88)

def getBlockSize : Nat := u32 (1024 <<< fs.sLogBlockSize)

def getBlock (blockNum : Nat) : Nat := u32 (blockNum * fs.getBlockSize)

/-- There is one group; the number is not used. -/
def getBlockGroup (_ : Nat) : Nat := fs.getBlock 2

def bgInodeTable (group : Nat) : Nat := fs.readU32 (group + 8)

def getInode (inodeNum : Nat) : Nat :=
  fs.getBlock (fs.bgInodeTable (fs.getBlockGroup 0)) + u32 (sub32 inodeNum 1 * fs.sInodeSize)

def iSize (inode : Nat) : Nat := fs.readU32 (inode + 4)

def iBlock (inode i : Nat) : Nat := fs.readU32 (inode + 40 + 4 * i)

end Image

variable {fs : Image}

theorem u32_of_lt {n : Nat} (small : n < 2 ^ 32) : u32 n = n := Nat.mod_eq_of_lt small

theorem sub32_of_le {a b : Nat} (le : b ≤ a) (small : a < 2 ^ 32) : sub32 a b = a - b := by
  unfold sub32 u32
  omega

@[simp] theorem length_bytes (fs : Image) (place n : Nat) : (fs.bytes place n).length = n := by simp [Image.bytes]

theorem take_bytes (fs : Image) (place : Nat) {m n : Nat} (le : m ≤ n) :
    (fs.bytes place n).take m = fs.bytes place m := by
  rw [Image.bytes, Image.bytes, ← List.map_take, List.take_range, Nat.min_eq_left le]

theorem iSize_lt (fs : Image) (inode : Nat) : fs.iSize inode < 2 ^ 32 := loadNat_lt fs _ 4

theorem getBlockSize_of_legal (legal : fs.sLogBlockSize ≤ 6) : fs.getBlockSize = 2 ^ (10 + fs.sLogBlockSize) := by
  have bound : (2 : Nat) ^ (10 + fs.sLogBlockSize) < 2 ^ 32 := Nat.pow_lt_pow_right (by decide) (by omega)
  rw [Image.getBlockSize, Nat.shiftLeft_eq, show 1024 = 2 ^ 10 from rfl, ← Nat.pow_add, u32_of_lt bound]

theorem getBlockSize_pos (legal : fs.sLogBlockSize ≤ 6) : 0 < fs.getBlockSize := by
  rw [getBlockSize_of_legal legal]
  exact Nat.pow_pos (by decide)

theorem getBlock_of_lt {blockNum : Nat} (small : blockNum * fs.getBlockSize < 2 ^ 32) :
    fs.getBlock blockNum = blockNum * fs.getBlockSize := u32_of_lt small

theorem getBlock_zero (fs : Image) : fs.getBlock 0 = 0 := by
  rw [Image.getBlock, Nat.zero_mul]
  rfl

theorem getBlock_inside {blockNum length : Nat} (legal : fs.sLogBlockSize ≤ 6) (small : length < 2 ^ 32)
    (inside : (blockNum + 1) * fs.getBlockSize ≤ length) : fs.getBlock blockNum = blockNum * fs.getBlockSize := by
  have positive := getBlockSize_pos legal
  rw [Nat.succ_mul] at inside
  exact getBlock_of_lt (by omega)

end Eecs343.FileSystem
