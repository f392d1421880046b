import Mathlib.Data.List.Basic
import Eecs343.FileSystem.Inodes
import Eecs343.FileSystem.Lookup
import Eecs343.FileSystem.Program

namespace Eecs343.FileSystem

open Bytes

/-- The bytes of a file and, where it is a directory, what its names stand for. -/
structure Node where
  contents : Text
  names : Option (Text → Option Nat)

/-- A tree of files, which have numbers. Number 2 is the root. -/
structure Volume where
  node : Nat → Option Node
  root : (node 2).isSome
  closed : ∀ number file names, node number = some file → file.names = some names →
    ∀ name next, names name = some next → (node next).isSome

namespace Volume

variable (v : Volume)

def names (number : Nat) : Option (Text → Option Nat) := (v.node number).bind Node.names

def child (number : Nat) (name : Text) : Option Nat := (v.names number).bind fun names => names name

def find (path : List Text) : Option Nat := path.foldlM v.child 2

/-- What is to be printed for a path, which begins with `/`. -/
def cat (path : CString) : Output :=
  match (v.find (path.val.tail.splitOn slash)).bind v.node with
  | some file => ⟨file.contents, [], 0⟩
  | none => missing path

end Volume

/-- A file of the volume stands in the image, with the number of its inode. -/
structure Stored (fs : Image) (length number : Nat) (file : Node) : Prop where
  first : 1 ≤ number
  inside : number ≤ fs.sInodesCount
  mapped : Mapped fs length (fs.inodeRecord number)
  contents : file.contents = (fs.fileBlocks (fs.inodeRecord number)).flatten.take (fs.iSize (fs.inodeRecord number))
  wellFormed : file.names.isSome → WellFormed fs (fs.inodeRecord number)
  entries : ∀ names, file.names = some names → ∀ name next, names name = some next ↔
    ∃ r, Record fs (fs.inodeRecord number) r ∧ InUse fs r ∧ nameOf fs r = name ∧ fs.inode r = next

/-- An image of `length` bytes holds the volume. -/
structure Holds (fs : Image) (length : Nat) (v : Volume) : Prop where
  single : SingleGroup fs
  reached : Reached fs
  stored : ∀ number file, v.node number = some file → Stored fs length number file

/-- The path leads through directories in which nothing comes in the way of its components. -/
def Clear (fs : Image) (v : Volume) : Nat → List CString → Prop
  | _, [] => True
  | number, part :: path => (v.names number).isSome ∧ Undisturbed fs (fs.inodeRecord number) part ∧
    ∀ next, v.child number part.val = some next → Clear fs v next path

variable {fs : Image} {v : Volume} {length number dir next : Nat} {wanted part : CString} {parts : List CString}

namespace Volume

theorem node_child {name : Text} (found : v.child number name = some next) : (v.node next).isSome := by
  obtain ⟨names, here, found⟩ := Option.bind_eq_some_iff.mp found
  obtain ⟨file, here, names_file⟩ := Option.bind_eq_some_iff.mp here
  exact v.closed number file names here names_file _ _ found

end Volume

/-- What an undisturbed lookup finds. -/
theorem Undisturbed.right (undisturbed : Undisturbed fs dir wanted) (wellFormed : WellFormed fs dir) :
    Right fs dir wanted (fs.getInodeFromDir dir wanted) := by
  rw [getInodeFromDir_eq_find]
  cases found : (fs.walk dir).find? (fs.accepts wanted) with
  | some r =>
    obtain ⟨first, entry | decoy⟩ := (found_iff wellFormed).mp found
    · exact entry.right wellFormed
    · exact undisturbed.decoy r decoy first
  | none =>
    constructor
    · intro r entry
      by_cases near : Near fs dir
      · exact absurd (.inl entry) (not_found wellFormed found (entry.met wellFormed near))
      · obtain ⟨other, met, here⟩ := undisturbed.far near ⟨r, entry⟩
        exact absurd here (not_found wellFormed found met)
    · intro _
      rfl

theorem Holds.getInode (holds : Holds fs length v) (first : 1 ≤ number) (inside : number ≤ fs.sInodesCount) :
    fs.getInode number = fs.inodeRecord number := by
  have count : fs.sInodesCount < 2 ^ 32 := loadNat_lt fs _ 4
  have size := (stated_iff fs).mpr holds.reached.stated
  have before : (number - 1) * fs.inodeSize ≤ (fs.sInodesCount - 1) * fs.inodeSize := Nat.mul_le_mul_right _ (by omega)
  have below := holds.reached.last
  have table := holds.single.table_iff.mpr ⟨holds.reached.descriptor, holds.reached.table⟩
  rw [getInode_eq holds.single.legal first (by omega), table, size, u32_of_lt (by omega), Image.inodeRecord]

theorem Holds.enter (holds : Holds fs length v) (directory : (v.names number).isSome)
    (undisturbed : Undisturbed fs (fs.inodeRecord number) part) : enter fs number part = v.child number part.val := by
  obtain ⟨names, here⟩ := Option.isSome_iff_exists.mp directory
  obtain ⟨file, at_number, names_file⟩ := Option.bind_eq_some_iff.mp here
  have stored := holds.stored number file at_number
  have wellFormed := stored.wellFormed (by rw [names_file]; rfl)
  obtain ⟨present, absent⟩ := undisturbed.right wellFormed
  have entries := stored.entries names names_file part.val
  rw [FileSystem.enter, holds.getInode stored.first stored.inside, Volume.child, here, Option.bind_some]
  cases found : names part.val with
  | some next =>
    obtain ⟨r, record, use, named, target⟩ := (entries next).mp found
    rw [present r ⟨record, use, named⟩, if_neg use.1, target]
  | none =>
    have none : ∀ r, ¬Entry fs (fs.inodeRecord number) part r := by
      intro r entry
      have some_number := (entries (fs.inode r)).mpr ⟨r, entry.1, entry.2.1, entry.2.2, rfl⟩
      rw [found] at some_number
      cases some_number
    rw [absent none]
    rfl

/-- Lookups one after the other lead where the path leads in the volume. -/
theorem Holds.find (holds : Holds fs length v) (clear : Clear fs v number parts) :
    parts.foldlM (FileSystem.enter fs) number = (parts.map fun part => part.val).foldlM v.child number := by
  induction parts generalizing number with
  | nil => rfl
  | cons part parts ih =>
    obtain ⟨directory, undisturbed, further⟩ := clear
    rw [List.foldlM_cons, List.map_cons, List.foldlM_cons, holds.enter directory undisturbed]
    cases found : v.child number part.val with
    | none => rfl
    | some next => exact ih (further next found)

theorem Volume.node_find {names : List Text} (here : (v.node number).isSome)
    (found : names.foldlM v.child number = some next) : (v.node next).isSome := by
  induction names generalizing number with
  | nil =>
    cases found
    exact here
  | cons name names ih =>
    rw [List.foldlM_cons] at found
    obtain ⟨child, entered, found⟩ := Option.bind_eq_some_iff.mp found
    exact ih (v.node_child entered) found

theorem Mapped.printed {inode : Nat} (mapped : Mapped fs length inode) (program : CString) :
    ∃ copied, fs.readFile inode = some copied ∧ Image.written copied ++ fs.truncation program inode copied =
      (fs.fileBlocks inode).flatten.take (fs.iSize inode) := by
  obtain ⟨copied, reads, read⟩ := read_file fs inode
  have whole : copied.bytesRead = fs.iSize inode := by rw [read.bytesRead, Nat.min_eq_right mapped.reach]
  have enough : fs.iSize inode ≤ (fs.iSize inode + fs.getBlockSize - 1) / fs.getBlockSize * fs.getBlockSize :=
    le_blocks (getBlockSize_pos mapped.legal)
  refine ⟨copied, reads, ?_⟩
  rw [Image.truncation, if_neg (by omega), List.append_nil, read.contents, whole, mapped.fileBlocks,
    ← Blocks.flatten_take (uniform_takenBlocks fs inode), List.take_take, Nat.min_eq_left enough]

/-- `ext2cat` prints the files of the volume that the image holds, and says so where there is none. -/
theorem cat_prints {host : Host} {program fsPath filePath behind : CString} (mapped : mmapFs host fsPath = .ok fs)
    (holds : Holds fs length v) (absolute : filePath.val.head? = some slash)
    (clear : Clear fs v 2 (components filePath.next)) :
    main host behind [program, fsPath, filePath] = some (v.cat filePath) := by
  have present : filePath.val ≠ [] := by
    intro empty
    rw [empty] at absolute
    cases absolute
  have names : (components filePath.next).map (fun part => part.val) = filePath.val.tail.splitOn slash :=
    components_split filePath.next
  have found := getInodeByPath_eq fs filePath.next
  rw [holds.find clear, names] at found
  simp only [main, mapped]
  rw [Image.cat, CString.afterFirst, if_neg present, found, Option.bind_some, Volume.cat, Volume.find]
  cases target : (filePath.val.tail.splitOn slash).foldlM v.child 2 with
  | none => rfl
  | some number =>
    obtain ⟨file, here⟩ := Option.isSome_iff_exists.mp (Volume.node_find v.root target)
    have stored := holds.stored number file here
    have first : number ≠ 0 := Nat.ne_of_gt stored.first
    obtain ⟨copied, reads, prints⟩ := stored.mapped.printed program
    rw [Option.getD_some, if_neg first, holds.getInode stored.first stored.inside, reads, Option.map_some, prints,
      ← stored.contents, Option.bind_some, here]

theorem Entry.undisturbed {r : Nat} (entry : Entry fs dir wanted r) (wellFormed : WellFormed fs dir)
    (found : (fs.walk dir).find? (fs.accepts wanted) = some r) : Undisturbed fs dir wanted := by
  constructor
  · intro other decoy first
    have met := (found_iff wellFormed).mpr ⟨first, .inr decoy⟩
    rw [found] at met
    cases met
    exact absurd entry decoy.other
  · intro _ _
    exact ⟨r, List.mem_of_find?_eq_some found, .inl entry⟩

/-- The file system of `smallBlocks` with the root directory in block 10, which has a file `a` with the inode 12 and
    five bytes in block 11. -/
def oneFile : Image := fun place =>
  match [(5253, 4), (5288, 10), (6532, 5), (6568, 11), (10240, 2), (10244, 12), (10246, 1), (10247, 2), (10248, 46),
    (10252, 2), (10256, 12), (10258, 2), (10259, 2), (10260, 46), (10261, 46), (10264, 12), (10268, 232), (10269, 3),
    (10270, 1), (10271, 1), (10272, 97), (11264, 104), (11265, 101), (11266, 108), (11267, 108),
    (11268, 111)].lookup place with
  | some byte => byte
  | none => smallBlocks place

theorem single_oneFile : SingleGroup oneFile where
  magic := by decide
  legal := by decide
  first := by decide
  records := by decide
  root := by decide
  behind := by decide
  inside := by decide
  group := by decide

theorem chain_oneFile : Chain oneFile 11264 10240 [10240, 10252, 10264] := by
  have last : Chain oneFile 11264 (10264 + oneFile.recLen 10264) [] := by
    rw [show 10264 + oneFile.recLen 10264 = 11264 by decide]
    exact .stop
  have second : Chain oneFile 11264 (10252 + oneFile.recLen 10252) [10264] := by
    rw [show 10252 + oneFile.recLen 10252 = 10264 by decide]
    exact .entry (by decide) (by decide) last
  have first : Chain oneFile 11264 (10240 + oneFile.recLen 10240) [10252, 10264] := by
    rw [show 10240 + oneFile.recLen 10240 = 10252 by decide]
    exact .entry (by decide) (by decide) second
  exact .entry (by decide) (by decide) first

theorem record_oneFile {r : Nat} : Record oneFile 5248 r ↔ r = 10240 ∨ r = 10252 ∨ r = 10264 := by
  have start : blockStart oneFile 5248 0 = 10240 := by decide
  have stop : blockStart oneFile 5248 0 + oneFile.getBlockSize = 11264 := by decide
  constructor
  · intro ⟨i, records, inside, chain, member⟩
    rw [show dirBlocks oneFile 5248 = 1 by decide] at inside
    obtain rfl : i = 0 := by omega
    rw [stop, start] at chain
    rw [chain.unique chain_oneFile] at member
    simpa using member
  · intro member
    refine ⟨0, [10240, 10252, 10264], by decide, ?_, by simpa using member⟩
    rw [stop, start]
    exact chain_oneFile

theorem wellFormed_oneFile : WellFormed oneFile 5248 where
  legal := by decide
  whole := by decide
  direct := by decide
  used := by decide
  unused := by
    intro i low high
    have blocks : ∀ i < 12, 1 ≤ i → oneFile.iBlock 5248 i = 0 := by decide
    exact blocks i high low
  chains := by
    intro i inside
    rw [show dirBlocks oneFile 5248 = 1 by decide] at inside
    obtain rfl : i = 0 := by omega
    exact ⟨_, chain_oneFile⟩
  named := by
    intro r record _
    rcases record_oneFile.mp record with rfl | rfl | rfl <;> decide
  distinct := by
    intro r r' record _ record' _
    rcases record_oneFile.mp record with rfl | rfl | rfl <;> rcases record_oneFile.mp record' with rfl | rfl | rfl <;> decide

theorem mapped_oneFile {inode : Nat} (small : oneFile.iSize inode ≤ 1024)
    (block : oneFile.iBlock inode 0 ≠ 0 ∧ oneFile.iBlock inode 0 < 64) : Mapped oneFile 65536 inode := by
  have blockSize : oneFile.getBlockSize = 1024 := by decide
  refine ⟨by decide, by decide, ?_, ?_, ?_⟩
  · rw [blockSize]
    omega
  · rw [blockSize]
    omega
  · intro k needed
    rw [blockSize] at needed ⊢
    obtain rfl : k = 0 := by omega
    have first : oneFile.fileBlock inode 0 = oneFile.iBlock inode 0 := if_pos (by decide)
    rw [first]
    omega

def namesOfRoot (name : Text) : Option Nat := [([46], 2), ([46, 46], 2), ([97], 12)].lookup name

def rootFile : Node := ⟨(oneFile.fileBlocks 5248).flatten.take (oneFile.iSize 5248), some namesOfRoot⟩

def hello : Node := ⟨[104, 101, 108, 108, 111], none⟩

theorem namesOfRoot_eq_some {name : Text} {next : Nat} : namesOfRoot name = some next ↔
    name = [46] ∧ next = 2 ∨ name = [46, 46] ∧ next = 2 ∨ name = [97] ∧ next = 12 := by
  constructor
  · intro found
    obtain ⟨_, _, list, _⟩ := List.lookup_eq_some_iff.mp found
    have member : (name, next) ∈ [(([46] : Text), 2), ([46, 46], 2), ([97], 12)] := by
      rw [list]
      simp
    simpa using member
  · rintro (⟨rfl, rfl⟩ | ⟨rfl, rfl⟩ | ⟨rfl, rfl⟩) <;> rfl

def single : Volume where
  node number := if number = 2 then some rootFile else if number = 12 then some hello else none
  root := rfl
  closed := by
    intro number file names here directory name next found
    split at here
    · obtain rfl := Option.some.inj here
      obtain rfl := Option.some.inj directory
      obtain ⟨_, rfl⟩ | ⟨_, rfl⟩ | ⟨_, rfl⟩ := namesOfRoot_eq_some.mp found <;> rfl
    · split at here
      · obtain rfl := Option.some.inj here
        cases directory
      · cases here

theorem stored_rootFile : Stored oneFile 65536 2 rootFile := by
  have record : oneFile.inodeRecord 2 = 5248 := by decide
  refine ⟨by decide, by decide, ?_, ?_, ?_, ?_⟩
  all_goals rw [record]
  · exact mapped_oneFile (by decide) (by decide)
  · rw [rootFile]
  · intro _
    exact wellFormed_oneFile
  · intro names directory name next
    obtain rfl := Option.some.inj directory
    rw [namesOfRoot_eq_some]
    constructor
    · rintro (⟨rfl, rfl⟩ | ⟨rfl, rfl⟩ | ⟨rfl, rfl⟩)
      · exact ⟨10240, record_oneFile.mpr (by simp), by decide⟩
      · exact ⟨10252, record_oneFile.mpr (by simp), by decide⟩
      · exact ⟨10264, record_oneFile.mpr (by simp), by decide⟩
    · intro ⟨r, member, _, named, target⟩
      subst named target
      rcases record_oneFile.mp member with rfl | rfl | rfl <;> decide

theorem stored_hello : Stored oneFile 65536 12 hello := by
  have record : oneFile.inodeRecord 12 = 6528 := by decide
  refine ⟨by decide, by decide, ?_, ?_, nofun, nofun⟩
  all_goals rw [record]
  · exact mapped_oneFile (by decide) (by decide)
  · have size : oneFile.iSize 6528 = 5 := by decide
    have blocks : oneFile.fileBlocks 6528 = [oneFile.bytes 11264 1024] := by
      rw [Image.fileBlocks, size, show oneFile.getBlockSize = 1024 by decide]
      change [oneFile.blockBytes (oneFile.fileBlock 6528 0)] = _
      rw [show oneFile.fileBlock 6528 0 = 11 by decide, Image.blockBytes, if_neg (by decide),
        show oneFile.getBlockSize = 1024 by decide]
    rw [size, blocks, List.flatten_singleton, take_bytes oneFile 11264 (by decide)]
    decide

theorem holds_oneFile : Holds oneFile 65536 single where
  single := single_oneFile
  reached := ⟨by decide, by decide, by decide, by decide⟩
  stored := by
    intro number file here
    by_cases root : number = 2
    · subst root
      obtain rfl := Option.some.inj here
      exact stored_rootFile
    · by_cases other : number = 12
      · subst other
        obtain rfl := Option.some.inj here
        exact stored_hello
      · have none : single.node number = none := (if_neg root).trans (if_neg other)
        rw [none] at here
        cases here

/-- The path `/a`. -/
def pathOfHello : CString := ⟨[47, 97], by decide⟩

def diskWith (fs : Image) : Host := ⟨fun _ => .ok 65536, fun _ => .ok (), fun _ _ => .ok fs⟩

theorem clear_oneFile : Clear oneFile single 2 (components pathOfHello.next) := by
  have parts : components pathOfHello.next = [pathOfHello.next] := components_none (by decide)
  have record : oneFile.inodeRecord 2 = 5248 := by decide
  have start : oneFile.getBlock (oneFile.iBlock 5248 0) = 10240 := by decide
  have entry : Entry oneFile 5248 pathOfHello.next 10264 := ⟨record_oneFile.mpr (by simp), by decide, by decide⟩
  rw [parts]
  refine ⟨rfl, ?_, fun _ _ => trivial⟩
  rw [record]
  apply entry.undisturbed wellFormed_oneFile
  obtain ⟨later, walk⟩ := walk_first oneFile 5248
  have first : oneFile.walkBlock (10240 + oneFile.getBlockSize) 10240 10240 = [10240, 10252, 10264, 11264] :=
    chain_oneFile.walkBlock (by decide) (by decide)
  rw [start, first] at walk
  rw [walk, List.cons_append, List.find?_cons_of_neg (by decide), List.cons_append, List.find?_cons_of_neg (by decide),
    List.cons_append, List.find?_cons_of_pos (by decide)]

theorem hello_printed :
    main (diskWith oneFile) pathOfHello [pathOfHello, pathOfHello, pathOfHello] = some ⟨[104, 101, 108, 108, 111], [], 0⟩ :=
  (cat_prints rfl holds_oneFile (by decide) clear_oneFile).trans (congrArg some (by decide))

end Eecs343.FileSystem
