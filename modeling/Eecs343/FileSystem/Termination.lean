import Eecs343.Base.Rounds
import Eecs343.FileSystem.Path

namespace Eecs343.FileSystem

/-- The variables `current_block_ptr` and `current_dir`. -/
structure Scan where
  ptr : Nat
  currentDir : Nat

namespace Image

variable (fs : Image)

/-- One round of the loop over one block, which looks at one record at most. -/
def scanRound (wanted : CString) (endBlock : Nat) (s : Scan) : Scan ⊕ Option Nat :=
  if s.ptr ≤ endBlock ∧ fs.recLen s.currentDir ≠ 0 then
    if fs.accepts wanted s.ptr then .inr (some (fs.inode s.ptr)) else .inl ⟨s.ptr + fs.recLen s.ptr, s.ptr⟩
  else .inr none

/-- The lookup in the listed blocks of a directory, with at most `fuel` rounds in each. -/
def lookupWithin (fuel dir : Nat) (wanted : CString) : List Nat → Option Nat
  | [] => some 0
  | i :: later =>
    let currentBlock := fs.getBlock (fs.iBlock dir i)
    let scan := fs.scanRound wanted (currentBlock + fs.getBlockSize)
    (Rounds.within scan fuel ⟨currentBlock, currentBlock⟩).bind fun found => match found with
      | some inode => some inode
      | none => lookupWithin fuel dir wanted later

def getInodeFromDirWithin (fuel dir : Nat) (wanted : CString) : Option Nat :=
  fs.lookupWithin fuel dir wanted (List.range 12)

end Image

variable {fs : Image} {wanted : CString} {endBlock : Nat} {s s' : Scan}

theorem scanRound_goes (goes : fs.scanRound wanted endBlock s = .inl s') :
    (s.ptr ≤ endBlock ∧ fs.recLen s.currentDir ≠ 0) ∧ ¬fs.accepts wanted s.ptr ∧
      s' = ⟨s.ptr + fs.recLen s.ptr, s.ptr⟩ := by
  unfold Image.scanRound at goes
  split at goes
  · rename_i more
    split at goes
    · cases goes
    · rename_i refused
      exact ⟨more, refused, (Sum.inl.inj goes).symm⟩
  · cases goes

/-- How many rounds can follow: the pointer moves on in every round, unless the record it is at has the length 0,
    which ends the loop in the next one. -/
def roundsLeft (fs : Image) (endBlock : Nat) (s : Scan) : Nat :=
  (endBlock + 1 - s.ptr) + (if fs.recLen s.currentDir = 0 then 0 else 1) - 1

theorem roundsLeft_lowers (s s' : Scan) (goes : fs.scanRound wanted endBlock s = .inl s') :
    roundsLeft fs endBlock s' < roundsLeft fs endBlock s := by
  obtain ⟨⟨inside, more⟩, _, rfl⟩ := scanRound_goes goes
  simp only [roundsLeft, if_neg more]
  split <;> omega

theorem scanBlock_of_ends {n : Nat} {found : Option Nat}
    (ends : Rounds.Ends (fs.scanRound wanted endBlock) s n found) :
    fs.scanBlock wanted endBlock s.ptr s.currentDir = found := by
  induction ends with
  | last stops =>
    rw [Image.scanBlock]
    unfold Image.scanRound at stops
    split at stops
    · rename_i more
      rw [if_pos more]
      split at stops
      · rename_i accepted
        rw [if_pos accepted]
        exact Sum.inr.inj stops
      · cases stops
    · rename_i ended
      rw [if_neg ended]
      exact Sum.inr.inj stops
  | more goes _ ih =>
    obtain ⟨more, refused, rfl⟩ := scanRound_goes goes
    rw [Image.scanBlock, if_pos more, if_neg refused]
    exact ih

theorem scan_ends (fs : Image) (wanted : CString) (start : Nat) :
    ∃ rounds ≤ fs.getBlockSize + 2, Rounds.Ends (fs.scanRound wanted (start + fs.getBlockSize)) ⟨start, start⟩ rounds
      (fs.scanBlock wanted (start + fs.getBlockSize) start start) := by
  have lowers : ∀ s s', fs.scanRound wanted (start + fs.getBlockSize) s = .inl s' →
      roundsLeft fs (start + fs.getBlockSize) s' < roundsLeft fs (start + fs.getBlockSize) s := roundsLeft_lowers
  obtain ⟨rounds, few, found, ends⟩ := Rounds.ends_of_measure _ lowers ⟨start, start⟩
  rw [← scanBlock_of_ends ends] at ends
  refine ⟨rounds, ?_, ends⟩
  simp only [roundsLeft] at few
  split at few <;> omega

theorem lookupWithin_eq {fuel : Nat} (enough : fs.getBlockSize + 2 ≤ fuel) (dir : Nat) (wanted : CString)
    (blocks : List Nat) :
    fs.lookupWithin fuel dir wanted blocks = some ((blocks.findSome? fun i =>
      let currentBlock := fs.getBlock (fs.iBlock dir i)
      fs.scanBlock wanted (currentBlock + fs.getBlockSize) currentBlock currentBlock).getD 0) := by
  induction blocks with
  | nil => rfl
  | cons i later ih =>
    obtain ⟨rounds, few, ends⟩ := scan_ends fs wanted (fs.getBlock (fs.iBlock dir i))
    rw [Image.lookupWithin, Rounds.within_of_ends ends (by omega), Option.bind_some, List.findSome?_cons]
    cases fs.scanBlock wanted (fs.getBlock (fs.iBlock dir i) + fs.getBlockSize) (fs.getBlock (fs.iBlock dir i))
      (fs.getBlock (fs.iBlock dir i)) with
    | some inode => rfl
    | none => exact ih

/-- Whatever the image holds, the scan of a block ends within two rounds more than it has bytes, and with as many
    rounds for each block every lookup of a name and of a path returns. -/
theorem lookup_terminates (fs : Image) :
    (∀ wanted start, ∃ rounds ≤ fs.getBlockSize + 2, ∃ found,
      Rounds.Ends (fs.scanRound wanted (start + fs.getBlockSize)) ⟨start, start⟩ rounds found) ∧
    ∀ fuel ≥ fs.getBlockSize + 2,
      (∀ dir wanted, fs.getInodeFromDirWithin fuel dir wanted = some (fs.getInodeFromDir dir wanted)) ∧
      ∀ path behind : CString, ∃ inodeNum,
        fs.getInodeByPathWith (fs.getInodeFromDirWithin fuel) (path.afterFirst behind) = some inodeNum ∧
        fs.getInodeByPath (path.afterFirst behind) = some inodeNum := by
  constructor
  · intro wanted start
    obtain ⟨rounds, few, ends⟩ := scan_ends fs wanted start
    exact ⟨rounds, few, _, ends⟩
  · intro fuel enough
    have same : ∀ dir wanted, fs.getInodeFromDirWithin fuel dir wanted = some (fs.getInodeFromDir dir wanted) :=
      fun dir wanted => lookupWithin_eq enough dir wanted (List.range 12)
    refine ⟨same, ?_⟩
    intro path behind
    -- no lookup on the way comes to the limit
    have lookups : fs.getInodeFromDirWithin fuel = fun dir name => some (fs.getInodeFromDir dir name) :=
      funext₂ same
    rw [lookups]
    exact ⟨_, getInodeByPath_eq fs _, getInodeByPath_eq fs _⟩

end Eecs343.FileSystem
