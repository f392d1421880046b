import Mathlib.Data.List.GetD
import Eecs343.FileSystem.Directory

namespace Eecs343.FileSystem

variable {fs : Image} {dir : Nat} {wanted : CString}

def dirBlocks (fs : Image) (dir : Nat) : Nat := fs.iSize dir / fs.getBlockSize

/-- Where block `i` of a directory stands in the image. -/
def blockStart (fs : Image) (dir i : Nat) : Nat := fs.iBlock dir i * fs.getBlockSize

/-- The records of a block, one behind the other up to its end. -/
inductive Chain (fs : Image) (stop : Nat) : Nat → List Nat → Prop
  | stop : Chain fs stop stop []
  | entry {place : Nat} {rest : List Nat} (room : 8 + fs.nameLen place ≤ fs.recLen place)
      (inside : place + fs.recLen place ≤ stop) (chain : Chain fs stop (place + fs.recLen place) rest) :
      Chain fs stop place (place :: rest)

/-- `r` is a record of the directory. -/
def Record (fs : Image) (dir r : Nat) : Prop :=
  ∃ i records, i < dirBlocks fs dir ∧ Chain fs (blockStart fs dir i + fs.getBlockSize) (blockStart fs dir i) records ∧
    r ∈ records

def InUse (fs : Image) (r : Nat) : Prop := fs.inode r ≠ 0 ∧ fs.nameLen r ≠ 0

instance (fs : Image) (r : Nat) : Decidable (InUse fs r) := inferInstanceAs (Decidable (_ ∧ _))

def nameOf (fs : Image) (r : Nat) : List (BitVec 8) := fs.bytes (r + 8) (fs.nameLen r)

/-- A directory in its direct blocks; its names have no 0 in them and are distinct. -/
structure WellFormed (fs : Image) (dir : Nat) : Prop where
  legal : fs.sLogBlockSize ≤ 6
  whole : dirBlocks fs dir * fs.getBlockSize = fs.iSize dir
  direct : dirBlocks fs dir ≤ 12
  used : ∀ i < dirBlocks fs dir, fs.iBlock dir i ≠ 0
  unused : ∀ i, dirBlocks fs dir ≤ i → i < 12 → fs.iBlock dir i = 0
  chains : ∀ i < dirBlocks fs dir,
    ∃ records, Chain fs (blockStart fs dir i + fs.getBlockSize) (blockStart fs dir i) records
  named : ∀ r, Record fs dir r → InUse fs r → 0 ∉ nameOf fs r
  distinct : ∀ r r', Record fs dir r → InUse fs r → Record fs dir r' → InUse fs r' → nameOf fs r = nameOf fs r' → r = r'

/-- `r` is the entry that is in use under the name. -/
def Entry (fs : Image) (dir : Nat) (wanted : CString) (r : Nat) : Prop :=
  Record fs dir r ∧ InUse fs r ∧ nameOf fs r = wanted.val

/-- `number` is the inode number of the entry with the name, or 0 where there is none. -/
def Right (fs : Image) (dir : Nat) (wanted : CString) (number : Nat) : Prop :=
  (∀ r, Entry fs dir wanted r → number = fs.inode r) ∧ ((∀ r, ¬Entry fs dir wanted r) → number = 0)

/-- All blocks of the directory start in the first 4 GiB. -/
def Near (fs : Image) (dir : Nat) : Prop := ∀ i < dirBlocks fs dir, blockStart fs dir i < 2 ^ 32

/-- What agrees with the name in its first `name_len` bytes and is not the entry with the name. -/
inductive Decoy (fs : Image) (dir : Nat) (wanted : CString) (r : Nat) : Prop
  | unused (record : Record fs dir r) (free : ¬InUse fs r) (agrees : fs.accepts wanted r)
  | shorter (record : Record fs dir r) (use : InUse fs r) (begins : nameOf fs r <+: wanted.val)
      (differs : nameOf fs r ≠ wanted.val)
  -- the loop over a block looks at its end as well
  | behind (other : ¬Entry fs dir wanted r) (i : Nat) (inside : i < dirBlocks fs dir)
      (stop : r = blockStart fs dir i + fs.getBlockSize) (agrees : fs.accepts wanted r)
  -- a block pointer that is not used leads to block 0
  | blockZero (other : ¬Entry fs dir wanted r) (direct : dirBlocks fs dir < 12)
      (met : r ∈ fs.walkBlock fs.getBlockSize 0 0) (agrees : fs.accepts wanted r)
  | elsewhere (other : ¬Entry fs dir wanted r) (far : ¬Near fs dir) (agrees : fs.accepts wanted r)

/-- Neither the entry with the name nor a decoy comes before `r` on the walk. -/
def First (fs : Image) (dir : Nat) (wanted : CString) (r : Nat) : Prop :=
  ∃ before after, fs.walk dir = before ++ r :: after ∧
    ∀ other ∈ before, ¬Entry fs dir wanted other ∧ ¬Decoy fs dir wanted other

/-- No decoy comes first, unless it carries the right number. In a directory beyond 4 GiB, whose blocks the
    walk may leave out, it also meets a decoy or the entry with the name where there is such an entry. -/
structure Undisturbed (fs : Image) (dir : Nat) (wanted : CString) : Prop where
  decoy : ∀ r, Decoy fs dir wanted r → First fs dir wanted r → Right fs dir wanted (fs.inode r)
  far : ¬Near fs dir → (∃ r, Entry fs dir wanted r) →
    ∃ r ∈ fs.walk dir, Entry fs dir wanted r ∨ Decoy fs dir wanted r

theorem Chain.walkBlock {stop place currentDir : Nat} {records : List Nat} (chain : Chain fs stop place records)
    (le : place ≤ stop) (more : fs.recLen currentDir ≠ 0) :
    fs.walkBlock stop place currentDir = records ++ [stop] := by
  induction chain generalizing currentDir with
  | stop =>
    rw [Image.walkBlock, if_pos ⟨le, more⟩, Image.walkBlock, if_neg (by omega)]
    rfl
  | entry room inside _ ih =>
    rw [Image.walkBlock, if_pos ⟨le, more⟩, ih inside (by omega)]
    rfl

theorem WellFormed.walkBlock (wellFormed : WellFormed fs dir) {i : Nat}
    (near : blockStart fs dir i < 2 ^ 32) {records : List Nat}
    (chain : Chain fs (blockStart fs dir i + fs.getBlockSize) (blockStart fs dir i) records) :
    fs.walkBlock (fs.getBlock (fs.iBlock dir i) + fs.getBlockSize) (fs.getBlock (fs.iBlock dir i))
      (fs.getBlock (fs.iBlock dir i)) = records ++ [blockStart fs dir i + fs.getBlockSize] := by
  have exact : fs.getBlock (fs.iBlock dir i) = blockStart fs dir i := getBlock_of_lt near
  have positive := getBlockSize_pos wellFormed.legal
  have first : fs.recLen (blockStart fs dir i) ≠ 0 := by
    generalize stop : blockStart fs dir i + fs.getBlockSize = stop at chain
    cases chain with
    | stop => omega
    | entry room _ _ => omega
  rw [exact]
  exact chain.walkBlock (by omega) first

theorem name_eq (fs : Image) (r : Nat) {i : Nat} (inside : i < fs.nameLen r) :
    fs.name r i = ((nameOf fs r).getD i 0).toNat := by
  rw [nameOf, Image.bytes, List.getD_eq_getElem?_getD, List.getElem?_map, List.getElem?_range inside]
  rfl

/-- A record whose name is the beginning of the wanted one is accepted. -/
theorem accepted_of_begins {r : Nat} (begins : nameOf fs r <+: wanted.val) : fs.accepts wanted r := by
  unfold Image.accepts
  rw [decide_eq_true_eq]
  apply strncmp_same
  intro i inside
  have length : (nameOf fs r).length = fs.nameLen r := length_bytes fs _ _
  have within : i < (nameOf fs r).length := by omega
  have same := List.prefix_iff_getElem?.mp begins i within
  rw [name_eq fs r inside, List.getD_eq_getElem _ _ within, CString.char, List.getD_eq_getElem?_getD, same]
  rfl

theorem strncmp_eq {a b : Nat → Nat} {n : Nat} (equal : strncmp a b n = 0) (nonzero : ∀ i < n, b i ≠ 0) :
    ∀ i < n, a i = b i := by
  induction n generalizing a b with
  | zero => simp
  | succ n ih =>
    have head := nonzero 0 (by omega)
    rw [strncmp] at equal
    split at equal
    · omega
    · rename_i same
      have first : a 0 = b 0 := not_not.mp same
      rw [if_neg (by omega)] at equal
      intro i inside
      cases i with
      | zero => exact first
      | succ i => exact ih equal (fun j below => nonzero (j + 1) (by omega)) i (by omega)

/-- A record in use whose name has no 0 in it is accepted only for names that begin with its own. -/
theorem begins_of_accepted {r : Nat} (clean : 0 ∉ nameOf fs r) (accepted : fs.accepts wanted r) :
    nameOf fs r <+: wanted.val := by
  have length : (nameOf fs r).length = fs.nameLen r := length_bytes fs _ _
  have nonzero : ∀ i < fs.nameLen r, fs.name r i ≠ 0 := by
    intro i inside zero
    rw [name_eq fs r inside, List.getD_eq_getElem _ _ (by omega)] at zero
    apply clean
    rw [← BitVec.eq_of_toNat_eq (x := (nameOf fs r)[i]) (y := 0) zero]
    exact List.getElem_mem _
  have same := strncmp_eq (of_decide_eq_true accepted) nonzero
  apply List.prefix_iff_getElem?.mpr
  intro i inside
  have agree := same i (by omega)
  have present := nonzero i (by omega)
  rw [← agree] at present
  rw [name_eq fs r (by omega), List.getD_eq_getElem _ _ inside] at agree
  simp only [CString.char] at agree present
  have within : i < wanted.val.length := by
    by_contra beyond
    rw [List.getD_eq_default _ _ (by omega)] at present
    exact present rfl
  rw [List.getD_eq_getElem _ _ within] at agree
  rw [List.getElem?_eq_getElem within, BitVec.eq_of_toNat_eq agree]

theorem Entry.accepted {r : Nat} (entry : Entry fs dir wanted r) : fs.accepts wanted r := by
  apply accepted_of_begins
  simp [entry.2.2]

theorem Entry.met (wellFormed : WellFormed fs dir) (near : Near fs dir) {r : Nat} (entry : Entry fs dir wanted r) :
    r ∈ fs.walk dir := by
  obtain ⟨⟨i, records, inside, chain, member⟩, _⟩ := entry
  have direct := wellFormed.direct
  refine List.mem_flatMap.mpr ⟨i, List.mem_range.mpr (by omega), ?_⟩
  simp only [wellFormed.walkBlock (near i inside) chain]
  exact List.mem_append_left _ member

theorem Entry.right (wellFormed : WellFormed fs dir) {r : Nat} (entry : Entry fs dir wanted r) :
    Right fs dir wanted (fs.inode r) := by
  constructor
  · intro other named
    rw [wellFormed.distinct r other entry.1 entry.2.1 named.1 named.2.1 (entry.2.2.trans named.2.2.symm)]
  · intro none
    exact (none r entry).elim

theorem Decoy.accepted {r : Nat} (decoy : Decoy fs dir wanted r) : fs.accepts wanted r := by
  cases decoy with
  | shorter _ _ begins _ => exact accepted_of_begins begins
  | unused _ _ agrees | behind _ _ _ _ agrees | blockZero _ _ _ agrees | elsewhere _ _ agrees => exact agrees

theorem Decoy.other {r : Nat} (decoy : Decoy fs dir wanted r) : ¬Entry fs dir wanted r := by
  cases decoy with
  | unused _ free _ => exact fun entry => free entry.2.1
  | shorter _ _ _ differs => exact fun entry => differs entry.2.2
  | behind other _ _ _ _ | blockZero other _ _ _ | elsewhere other _ _ => exact other

/-- Everything that the walk accepts, the entry with the name apart, is a decoy. -/
theorem decoy_of_accepted (wellFormed : WellFormed fs dir) {r : Nat} (met : r ∈ fs.walk dir)
    (accepted : fs.accepts wanted r) (other : ¬Entry fs dir wanted r) : Decoy fs dir wanted r := by
  by_cases near : Near fs dir
  · obtain ⟨i, range, member⟩ := List.mem_flatMap.mp met
    have bound := List.mem_range.mp range
    by_cases inside : i < dirBlocks fs dir
    · obtain ⟨records, chain⟩ := wellFormed.chains i inside
      simp only [wellFormed.walkBlock (near i inside) chain] at member
      rcases List.mem_append.mp member with own | behind
      · have record : Record fs dir r := ⟨i, records, inside, chain, own⟩
        by_cases use : InUse fs r
        · have clean := wellFormed.named r record use
          exact .shorter record use (begins_of_accepted clean accepted) fun same => other ⟨record, use, same⟩
        · exact .unused record use accepted
      · exact .behind other i inside (List.mem_singleton.mp behind) accepted
    · have zero : fs.getBlock (fs.iBlock dir i) = 0 := by
        rw [wellFormed.unused i (by omega) bound, getBlock_zero]
      simp only [zero, Nat.zero_add] at member
      exact .blockZero other (by omega) member accepted
  · exact .elsewhere other near accepted

theorem accepted_iff (wellFormed : WellFormed fs dir) {r : Nat} (met : r ∈ fs.walk dir) :
    fs.accepts wanted r ↔ Entry fs dir wanted r ∨ Decoy fs dir wanted r := by
  constructor
  · intro accepted
    by_cases entry : Entry fs dir wanted r
    · exact .inl entry
    · exact .inr (decoy_of_accepted wellFormed met accepted entry)
  · rintro (entry | decoy)
    · exact entry.accepted
    · exact decoy.accepted

/-- What the walk finds is the entry with the name or a decoy, whichever comes first. -/
theorem found_iff (wellFormed : WellFormed fs dir) {r : Nat} :
    (fs.walk dir).find? (fs.accepts wanted) = some r ↔
      First fs dir wanted r ∧ (Entry fs dir wanted r ∨ Decoy fs dir wanted r) := by
  rw [List.find?_eq_some_iff_append]
  constructor
  · intro ⟨accepted, before, after, walk, passed⟩
    have met : r ∈ fs.walk dir := by simp [walk]
    refine ⟨⟨before, after, walk, ?_⟩, (accepted_iff wellFormed met).mp accepted⟩
    intro other member
    have refused := passed other member
    exact ⟨fun entry => by simp [entry.accepted] at refused, fun decoy => by simp [decoy.accepted] at refused⟩
  · intro ⟨⟨before, after, walk, passed⟩, here⟩
    have met : r ∈ fs.walk dir := by simp [walk]
    refine ⟨(accepted_iff wellFormed met).mpr here, before, after, walk, ?_⟩
    intro other member
    by_contra accepted
    have met : other ∈ fs.walk dir := by simp [walk, member]
    rcases (accepted_iff wellFormed met).mp (by simpa using accepted) with entry | decoy
    · exact (passed other member).1 entry
    · exact (passed other member).2 decoy

theorem not_found (wellFormed : WellFormed fs dir) (missed : (fs.walk dir).find? (fs.accepts wanted) = none) {r : Nat}
    (met : r ∈ fs.walk dir) : ¬(Entry fs dir wanted r ∨ Decoy fs dir wanted r) := by
  intro here
  exact List.find?_eq_none.mp missed r met ((accepted_iff wellFormed met).mpr here)

/-- The lookup is right exactly when no decoy disturbs it. -/
theorem lookup_right_iff (wellFormed : WellFormed fs dir) :
    Right fs dir wanted (fs.getInodeFromDir dir wanted) ↔ Undisturbed fs dir wanted := by
  rw [getInodeFromDir_eq_find]
  constructor
  · intro right
    constructor
    · intro r decoy first
      rw [(found_iff wellFormed).mpr ⟨first, .inr decoy⟩] at right
      exact right
    · intro _ ⟨r, entry⟩
      cases found : (fs.walk dir).find? (fs.accepts wanted) with
      | some other => exact ⟨other, List.mem_of_find?_eq_some found, ((found_iff wellFormed).mp found).2⟩
      | none =>
        rw [found] at right
        exact (entry.2.1.1 (right.1 r entry).symm).elim
  · intro undisturbed
    cases found : (fs.walk dir).find? (fs.accepts wanted) with
    | some r =>
      obtain ⟨first, entry | decoy⟩ := (found_iff wellFormed).mp found
      · exact entry.right wellFormed
      · exact undisturbed.decoy r decoy first
    | none =>
      -- nothing was met, so no entry has the name
      have none : ∀ r, ¬Entry fs dir wanted r := by
        intro r entry
        by_cases near : Near fs dir
        · exact not_found wellFormed found (entry.met wellFormed near) (.inl entry)
        · obtain ⟨other, met, here⟩ := undisturbed.far near ⟨r, entry⟩
          exact not_found wellFormed found met here
      exact ⟨fun r entry => (none r entry).elim, fun _ => rfl⟩

theorem Chain.unique {stop place : Nat} {records others : List Nat} (chain : Chain fs stop place records)
    (other : Chain fs stop place others) : records = others := by
  induction chain generalizing others with
  | stop =>
    cases other with
    | stop => rfl
    | entry room inside _ => omega
  | entry room inside _ ih =>
    cases other with
    | stop => omega
    | entry _ _ rest => rw [ih rest]

/-- A directory in block 3 with the entries `.`, `..` and `.a`; its inode is in block 2. -/
def dotDir : Image := fun place =>
  match [(2053, 4), (2088, 3), (3072, 2), (3076, 12), (3078, 1), (3079, 2), (3080, 46), (3084, 2), (3088, 12), (3090, 2),
    (3091, 2), (3092, 46), (3093, 46), (3096, 11), (3100, 232), (3101, 3), (3102, 2), (3103, 1), (3104, 46),
    (3105, 97)].lookup place with
  | some byte => byte
  | none => 0

theorem chain_dotDir : Chain dotDir 4096 3072 [3072, 3084, 3096] := by
  have last : Chain dotDir 4096 (3096 + dotDir.recLen 3096) [] := by
    rw [show 3096 + dotDir.recLen 3096 = 4096 by decide]
    exact .stop
  have second : Chain dotDir 4096 (3084 + dotDir.recLen 3084) [3096] := by
    rw [show 3084 + dotDir.recLen 3084 = 3096 by decide]
    exact .entry (by decide) (by decide) last
  have first : Chain dotDir 4096 (3072 + dotDir.recLen 3072) [3084, 3096] := by
    rw [show 3072 + dotDir.recLen 3072 = 3084 by decide]
    exact .entry (by decide) (by decide) second
  exact .entry (by decide) (by decide) first

theorem records_dotDir {r : Nat} (record : Record dotDir 2048 r) : r = 3072 ∨ r = 3084 ∨ r = 3096 := by
  obtain ⟨i, records, inside, chain, member⟩ := record
  rw [show dirBlocks dotDir 2048 = 1 by decide] at inside
  obtain rfl : i = 0 := by omega
  rw [show blockStart dotDir 2048 0 + dotDir.getBlockSize = 4096 by decide,
    show blockStart dotDir 2048 0 = 3072 by decide] at chain
  rw [chain.unique chain_dotDir] at member
  simpa using member

theorem wellFormed_dotDir : WellFormed dotDir 2048 where
  legal := by decide
  whole := by decide
  direct := by decide
  used := by decide
  unused := by
    intro i low high
    have blocks : ∀ i < 12, 1 ≤ i → dotDir.iBlock 2048 i = 0 := by decide
    exact blocks i high low
  chains := by
    intro i inside
    rw [show dirBlocks dotDir 2048 = 1 by decide] at inside
    obtain rfl : i = 0 := by omega
    exact ⟨_, chain_dotDir⟩
  named := by
    intro r record _
    rcases records_dotDir record with rfl | rfl | rfl <;> decide
  distinct := by
    intro r r' record _ record' _
    rcases records_dotDir record with rfl | rfl | rfl <;> rcases records_dotDir record' with rfl | rfl | rfl <;> decide

def dot : CString := ⟨[46], by decide⟩

def dotFile : CString := ⟨[46, 97], by decide⟩

theorem walk_first (fs : Image) (dir : Nat) : ∃ later,
    fs.walk dir = fs.walkBlock (fs.getBlock (fs.iBlock dir 0) + fs.getBlockSize) (fs.getBlock (fs.iBlock dir 0))
      (fs.getBlock (fs.iBlock dir 0)) ++ later := by
  rw [Image.walk, show List.range 12 = 0 :: (List.range 11).map Nat.succ by decide, List.flatMap_cons]
  exact ⟨_, rfl⟩

theorem walk_dotDir : ∃ rest, dotDir.walk 2048 = 3072 :: rest := by
  obtain ⟨later, walk⟩ := walk_first dotDir 2048
  have start : dotDir.getBlock (dotDir.iBlock 2048 0) = 3072 := by decide
  rw [start, Image.walkBlock, if_pos (by decide)] at walk
  exact ⟨_, walk⟩

/-- The lookup of `.a` finds `.`. -/
theorem dotFile_not_right : ¬∀ fs dir wanted, WellFormed fs dir → Right fs dir wanted (fs.getInodeFromDir dir wanted) := by
  intro claimed
  have right := claimed dotDir 2048 dotFile wellFormed_dotDir
  obtain ⟨rest, walk⟩ := walk_dotDir
  rw [getInodeFromDir_eq_find, walk, List.find?_cons_of_pos (by decide)] at right
  have record : Record dotDir 2048 3096 := ⟨0, _, by decide, chain_dotDir, by simp⟩
  have found : dotDir.inode 3072 = dotDir.inode 3096 := right.1 3096 ⟨record, by decide, by decide⟩
  exact absurd found (by decide)

theorem dot_right : Right dotDir 2048 dot (dotDir.getInodeFromDir 2048 dot) := by
  apply (lookup_right_iff wellFormed_dotDir).mpr
  obtain ⟨rest, walk⟩ := walk_dotDir
  have entry : Entry dotDir 2048 dot 3072 := ⟨⟨0, _, by decide, chain_dotDir, by simp⟩, by decide, by decide⟩
  constructor
  · intro r decoy ⟨before, after, split, passed⟩
    rw [walk] at split
    cases before with
    | nil =>
      cases split
      exact (decoy.other entry).elim
    | cons first before =>
      cases split
      exact ((passed 3072 List.mem_cons_self).1 entry).elim
  · intro _ _
    exact ⟨3072, by simp [walk], .inl entry⟩

end Eecs343.FileSystem
