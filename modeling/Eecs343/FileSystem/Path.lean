import Mathlib.Data.List.Basic
import Eecs343.FileSystem.Directory

namespace Eecs343.FileSystem

def slash : BitVec 8 := 47

namespace CString

variable (s : CString)

def strlen : Nat := s.val.length

def next : CString := ⟨s.val.tail, fun member => s.property (List.mem_of_mem_tail member)⟩

/-- The string that `strncpy` makes of the first `n` characters. -/
def take (n : Nat) : CString := ⟨s.val.take n, fun member => s.property (List.mem_of_mem_take member)⟩

/-- `strchr(s, '/')`: the string from the first `/` on. -/
def strchr : Option CString :=
  if slash ∈ s.val then
    some ⟨s.val.dropWhile (· ≠ slash), fun member => s.property ((List.dropWhile_sublist _).subset member)⟩
  else none

end CString

variable {s t : CString}

/-- A string with a `/` in it is what comes before the first one, the `/` and what comes behind. -/
theorem strchr_eq_some (found : s.strchr = some t) :
    slash ∉ s.val.take (s.strlen - t.strlen) ∧ s.val = s.val.take (s.strlen - t.strlen) ++ slash :: t.next.val := by
  unfold CString.strchr at found
  split at found
  · rename_i member
    obtain ⟨front, rest, split, clean⟩ := List.eq_append_cons_of_mem member
    have behind : s.val.dropWhile (· ≠ slash) = slash :: rest := by
      rw [split, List.dropWhile_append_of_pos, List.dropWhile_cons_of_neg]
      · simp
      · intro c inside
        have other : c ≠ slash := ne_of_mem_of_not_mem inside clean
        simpa using other
    obtain rfl := Option.some.inj found
    simp only [CString.strlen, CString.next, behind, List.tail_cons]
    have count : s.val.length - (slash :: rest).length = front.length := by
      rw [split, List.length_append, Nat.add_sub_cancel]
    rw [count, split, List.take_left]
    exact ⟨clean, rfl⟩
  · cases found

theorem strchr_shorter (found : s.strchr = some t) : t.next.strlen < s.strlen := by
  have parts := congrArg List.length (strchr_eq_some found).2
  rw [List.length_append, List.length_cons] at parts
  unfold CString.strlen
  omega

theorem strchr_eq_none (missing : s.strchr = none) : slash ∉ s.val := by
  unfold CString.strchr at missing
  split at missing
  · cases missing
  · assumption

/-- `for (slash = ..; slash != NULL; slash = strchr(slash + 1, '/')) num_slashes++;`. -/
def countSlashes (found : Option CString) : Nat :=
  match found with
  | none => 0
  | some slash => 1 + countSlashes slash.next.strchr
termination_by found.elim 0 fun slash => slash.next.strlen + 1
decreasing_by
  cases more : slash.next.strchr with
  | none => simp
  | some other => exact Nat.succ_lt_succ (strchr_shorter more)

/-- The slashes that both loops count in a path of which `rest` stands at `path + 1`: the place where the path
    starts and every `/` behind it. -/
def numSlashes (rest : CString) : Nat := 1 + countSlashes rest.strchr

/-- `parts[i] = ..`, which must stay inside the array. -/
def store (parts : List (Option CString)) (i : Nat) (part : CString) : Option (List (Option CString)) :=
  if i < parts.length then some (parts.set i (some part)) else none

/-- The copying loop of `split_path` and the last piece. -/
def copyPieces (parts : List (Option CString)) (pieceStart : CString) (i : Nat) (found : Option CString) :
    Option (List (Option CString)) :=
  match found with
  | some slash =>
    let partLen := pieceStart.strlen - slash.strlen
    (store parts i (pieceStart.take partLen)).bind fun parts =>
      copyPieces parts slash.next (i + 1) slash.next.strchr
  | none => store parts i (pieceStart.take pieceStart.strlen)
termination_by found.elim 0 fun slash => slash.next.strlen + 1
decreasing_by
  cases more : slash.next.strchr with
  | none => simp
  | some other => exact Nat.succ_lt_succ (strchr_shorter more)

def splitPath (rest : CString) : Option (List (Option CString)) :=
  copyPieces (List.replicate (numSlashes rest) none) rest 0 rest.strchr

namespace Image

variable (fs : Image)

def getRootDir : Nat := fs.getInode 2

/-- The loop of `get_inode_by_path`. It stops with an error at a part that is missing, and `res` has no value
    before the first lookup. -/
def resolve (lookup : Nat → CString → Option Nat) (paths : List (Option CString)) (count i root : Nat)
    (res : Option Nat) : Option Nat :=
  if i < count then
    paths[i]?.join.bind fun name => (lookup root name).bind fun res =>
      if res ≠ 0 then resolve lookup paths count (i + 1) (fs.getInode res) (some res) else some res
  else res
termination_by count - i

/-- `get_inode_by_path` with a given `get_inode_from_dir`. The first character of a path is never looked at:
    `rest` is the string that stands at `path + 1`. -/
def getInodeByPathWith (lookup : Nat → CString → Option Nat) (rest : CString) : Option Nat :=
  (splitPath rest).bind fun paths => fs.resolve lookup paths (numSlashes rest) 0 fs.getRootDir none

def getInodeByPath (rest : CString) : Option Nat :=
  fs.getInodeByPathWith (fun dir name => some (fs.getInodeFromDir dir name)) rest

end Image

/-- The string at `path + 1`. Behind an empty path it is whatever stands in memory there. -/
def CString.afterFirst (path behind : CString) : CString := if path.val = [] then behind else path.next

def components (s : CString) : List CString :=
  match _found : s.strchr with
  | none => [s]
  | some slash => s.take (s.strlen - slash.strlen) :: components slash.next
termination_by s.strlen
decreasing_by exact strchr_shorter _found

theorem components_none (missing : s.strchr = none) : components s = [s] := by
  rw [components]
  split
  · rfl
  · rename_i found
    cases missing.symm.trans found

theorem components_some (found : s.strchr = some t) :
    components s = s.take (s.strlen - t.strlen) :: components t.next := by
  rw [components]
  split
  · rename_i missing
    cases missing.symm.trans found
  · rename_i other
    cases found.symm.trans other
    rfl

/-- What holds of the last component and is kept by a component before it holds of all. -/
theorem components_induction {motive : CString → Prop} (last : ∀ s, s.strchr = none → motive s)
    (before : ∀ s t, s.strchr = some t → motive t.next → motive s) (s : CString) : motive s := by
  induction length : s.strlen using Nat.strong_induction_on generalizing s with
  | _ n ih =>
    cases found : s.strchr with
    | none => exact last s found
    | some t => exact before s t found (ih _ (length ▸ strchr_shorter found) t.next rfl)

theorem components_split (s : CString) : (components s).map (fun part => part.val) = s.val.splitOn slash := by
  induction s using components_induction with
  | last s missing =>
    rw [components_none missing, List.splitOn_eq_singleton (strchr_eq_none missing)]
    rfl
  | before s t found ih =>
    obtain ⟨clean, parts⟩ := strchr_eq_some found
    have split := List.splitOn_append_cons_self_of_not_mem clean t.next.val
    rw [← parts] at split
    rw [components_some found, List.map_cons, ih, split]
    rfl

theorem components_ne_nil (s : CString) : components s ≠ [] := by
  intro empty
  have split := components_split s
  rw [empty] at split
  exact List.splitOn_ne_nil slash s.val split.symm

theorem components_clean (s : CString) : ∀ part ∈ components s, slash ∉ part.val := by
  induction s using components_induction with
  | last s missing =>
    rw [components_none missing]
    simpa using strchr_eq_none missing
  | before s t found ih =>
    rw [components_some found]
    exact List.forall_mem_cons.mpr ⟨(strchr_eq_some found).1, ih⟩

theorem numSlashes_eq (s : CString) : numSlashes s = (components s).length := by
  induction s using components_induction with
  | last s missing =>
    rw [components_none missing, numSlashes, missing, countSlashes]
    rfl
  | before s t found ih =>
    rw [components_some found, List.length_cons, ← ih, numSlashes, found, countSlashes, numSlashes]
    omega

theorem store_next (done : List (Option CString)) (left : Nat) (part : CString) :
    store (done ++ List.replicate (left + 1) none) done.length part =
      some (done ++ some part :: List.replicate left none) := by
  unfold store
  rw [if_pos (by simp), List.replicate_succ, List.set_append_right (h := Nat.le_refl _), Nat.sub_self]
  rfl

/-- The copying loop fills the rest of the array with the components from `pieceStart` on. -/
theorem copyPieces_fills (pieceStart : CString) (done : List (Option CString)) :
    copyPieces (done ++ List.replicate (components pieceStart).length none) pieceStart done.length pieceStart.strchr =
      some (done ++ (components pieceStart).map some) := by
  induction pieceStart using components_induction generalizing done with
  | last s missing =>
    have whole : s.take s.strlen = s := Subtype.ext (List.take_length)
    rw [missing, copyPieces, components_none missing, whole]
    exact store_next done 0 s
  | before s t found ih =>
    rw [found, copyPieces, components_some found, List.length_cons, store_next, Option.bind_some]
    have rest := ih (done ++ [some (s.take (s.strlen - t.strlen))])
    rw [List.length_append, List.append_assoc, List.append_assoc] at rest
    exact rest

theorem splitPath_eq (s : CString) : splitPath s = some ((components s).map some) := by
  rw [splitPath, numSlashes_eq]
  exact copyPieces_fills s []

variable {fs : Image}

/-- The inode number of a component in the directory with the given number, where it is found. -/
def enter (fs : Image) (inodeNum : Nat) (part : CString) : Option Nat :=
  let found := fs.getInodeFromDir (fs.getInode inodeNum) part
  if found = 0 then none else some found

theorem resolve_fold (parts : List CString) {i inodeNum : Nat} {res : Option Nat} (le : i ≤ parts.length)
    (given : i < parts.length ∨ res = some inodeNum) :
    fs.resolve (fun dir name => some (fs.getInodeFromDir dir name)) (parts.map some) parts.length i
        (fs.getInode inodeNum) res = some (((parts.drop i).foldlM (enter fs) inodeNum).getD 0) := by
  induction left : parts.length - i generalizing i inodeNum res with
  | zero =>
    obtain rfl : i = parts.length := by omega
    rw [Image.resolve, if_neg (Nat.lt_irrefl _), given.resolve_left (Nat.lt_irrefl _), List.drop_length]
    rfl
  | succ left ih =>
    have inside : i < parts.length := by omega
    have here : (parts.map some)[i]?.join = some parts[i] := by
      rw [List.getElem?_map, List.getElem?_eq_getElem inside]
      rfl
    rw [Image.resolve, if_pos inside, here, Option.bind_some, Option.bind_some, List.drop_eq_getElem_cons inside,
      List.foldlM_cons, enter]
    by_cases found : fs.getInodeFromDir (fs.getInode inodeNum) parts[i] = 0
    · simp [found]
    · simp only [found, ne_eq, not_false_eq_true, if_true, if_false]
      exact ih inside (.inr rfl) (by omega)

theorem getInodeByPath_eq (fs : Image) (rest : CString) :
    fs.getInodeByPath rest = some (((components rest).foldlM (enter fs) 2).getD 0) := by
  have some_part := List.length_pos_iff.mpr (components_ne_nil rest)
  rw [Image.getInodeByPath, Image.getInodeByPathWith, splitPath_eq, Option.bind_some, numSlashes_eq]
  exact resolve_fold (components rest) (Nat.zero_le _) (.inl some_part)

/-- For a path that begins with `/` the loops agree on its components, which joined give the path again, and
    the result is that of looking them up one after the other from the root. -/
theorem path_resolution (fs : Image) (path behind : CString) (begins : path.val.head? = some slash) :
    ∃ parts : List CString, splitPath (path.afterFirst behind) = some (parts.map some) ∧
      numSlashes (path.afterFirst behind) = parts.length ∧ (∀ part ∈ parts, slash ∉ part.val) ∧
      slash :: [slash].intercalate (parts.map fun part => part.val) = path.val ∧
      fs.getInodeByPath (path.afterFirst behind) = some ((parts.foldlM (enter fs) 2).getD 0) := by
  have present : path.val ≠ [] := by
    intro empty
    rw [empty] at begins
    cases begins
  have rest : path.afterFirst behind = path.next := if_neg present
  rw [rest]
  refine ⟨components path.next, splitPath_eq _, numSlashes_eq _, components_clean _, ?_, getInodeByPath_eq fs _⟩
  rw [components_split, List.intercalate_splitOn]
  exact List.cons_head?_tail begins

/-- The path `/a//`. -/
def doubled : CString := ⟨[47, 97, 47, 47], by decide⟩

theorem resolution_of_doubled : ∃ parts : List CString, splitPath doubled.next = some (parts.map some) ∧
    (parts.map fun part => part.val) = [[97], [], []] := by
  obtain ⟨parts, split, counted, clean, joined, _⟩ := path_resolution (fun _ => 0) doubled doubled (by decide)
  refine ⟨parts, split, ?_⟩
  have pieces : [slash].intercalate (parts.map fun part => part.val) = [97, 47, 47] := (List.cons.inj joined).2
  have some_part : (parts.map fun part => part.val) ≠ [] := by
    intro empty
    rw [empty] at pieces
    cases pieces
  rw [← List.splitOn_intercalate slash (by simpa using clean) some_part, pieces]
  decide

end Eecs343.FileSystem
