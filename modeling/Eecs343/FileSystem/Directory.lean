import Eecs343.FileSystem.Image

namespace Eecs343.FileSystem

def CString := { chars : List (BitVec 8) // 0 ∉ chars }

def CString.char (s : CString) (i : Nat) : Nat := (s.val.getD i 0).toNat

/-- The difference of the first characters of `a` and `b` that differ, of at most `n`. -/
def strncmp (a b : Nat → Nat) : Nat → Int
  | 0 => 0
  | n + 1 =>
    if a 0 ≠ b 0 then (a 0 : Int) - b 0
    else if a 0 = 0 then 0
    else strncmp (fun i => a (i + 1)) (fun i => b (i + 1)) n

namespace Image

variable (fs : Image)

def inode (entry : Nat) : Nat := fs.readU32 entry

def recLen (entry : Nat) : Nat := fs.readU16 (entry + 4)

def nameLen (entry : Nat) : Nat := fs.readU8 (entry + 6)

def name (entry i : Nat) : Nat := fs.readU8 (entry + 8 + i)

/-- The comparison that `get_inode_from_dir` makes. -/
def accepts (wanted : CString) (entry : Nat) : Bool := strncmp wanted.char (fs.name entry) (fs.nameLen entry) = 0

/-- The loop over one block. `currentDir` is the record before the one at `ptr`, at first the same. -/
def scanBlock (wanted : CString) (endBlock ptr currentDir : Nat) : Option Nat :=
  if ptr ≤ endBlock ∧ fs.recLen currentDir ≠ 0 then
    if fs.accepts wanted ptr then some (fs.inode ptr)
    else scanBlock wanted endBlock (ptr + fs.recLen ptr) ptr
  else none
termination_by 2 * (endBlock + 1 - ptr) + if fs.recLen currentDir = 0 then 0 else 1
decreasing_by
  rename_i more _
  rw [if_neg more.2]
  split <;> omega

def getInodeFromDir (dir : Nat) (wanted : CString) : Nat :=
  let found := (List.range 12).findSome? fun i =>
    let currentBlock := fs.getBlock (fs.iBlock dir i)
    fs.scanBlock wanted (currentBlock + fs.getBlockSize) currentBlock currentBlock
  found.getD 0

/-- The records the loop over one block comes to as long as none is accepted. -/
def walkBlock (endBlock ptr currentDir : Nat) : List Nat :=
  if ptr ≤ endBlock ∧ fs.recLen currentDir ≠ 0 then ptr :: walkBlock endBlock (ptr + fs.recLen ptr) ptr else []
termination_by 2 * (endBlock + 1 - ptr) + if fs.recLen currentDir = 0 then 0 else 1
decreasing_by
  rename_i more
  rw [if_neg more.2]
  split <;> omega

/-- The same for all twelve blocks. -/
def walk (dir : Nat) : List Nat :=
  (List.range 12).flatMap fun i =>
    let currentBlock := fs.getBlock (fs.iBlock dir i)
    fs.walkBlock (currentBlock + fs.getBlockSize) currentBlock currentBlock

end Image

theorem scanBlock_eq_find (fs : Image) (wanted : CString) (endBlock ptr currentDir : Nat) :
    fs.scanBlock wanted endBlock ptr currentDir =
      ((fs.walkBlock endBlock ptr currentDir).find? (fs.accepts wanted)).map fs.inode := by
  induction ptr, currentDir using Image.walkBlock.induct fs endBlock with
  | case1 ptr currentDir more ih =>
    rw [Image.scanBlock, Image.walkBlock, if_pos more, if_pos more, List.find?_cons]
    cases accepted : fs.accepts wanted ptr with
    | true => rfl
    | false => exact ih
  | case2 ptr currentDir stops =>
    rw [Image.scanBlock, Image.walkBlock, if_neg stops, if_neg stops]
    rfl

/-- The lookup returns the inode number of the first record on its walk that it accepts. -/
theorem getInodeFromDir_eq_find (fs : Image) (dir : Nat) (wanted : CString) :
    fs.getInodeFromDir dir wanted = (((fs.walk dir).find? (fs.accepts wanted)).map fs.inode).getD 0 := by
  simp only [Image.getInodeFromDir, Image.walk, scanBlock_eq_find, List.find?_flatMap, List.map_findSome?]
  rfl

theorem strncmp_same {a b : Nat → Nat} {n : Nat} (same : ∀ i < n, a i = b i) : strncmp a b n = 0 := by
  induction n generalizing a b with
  | zero => rfl
  | succ n ih =>
    rw [strncmp, if_neg (not_not.mpr (same 0 (by omega)))]
    split
    · rfl
    · apply ih
      intro i inside
      exact same (i + 1) (by omega)

end Eecs343.FileSystem
