import Eecs343.FileSystem.Lookup

namespace Eecs343.FileSystem

open Bytes

/-- How many characters `strncmp` looks at. -/
def strncmpLooks (a b : Nat → Nat) : Nat → Nat
  | 0 => 0
  | n + 1 => if a 0 ≠ b 0 ∨ a 0 = 0 then 1 else strncmpLooks (fun i => a (i + 1)) (fun i => b (i + 1)) n + 1

/-- The bytes of the record at `entry` that the lookup looks at end here: behind `name_len`, or behind the
    characters that are compared. -/
def Image.extent (fs : Image) (wanted : CString) (entry : Nat) : Nat :=
  let looks := strncmpLooks wanted.char (fs.name entry) (fs.nameLen entry)
  if looks = 0 then entry + 7 else entry + 8 + looks

/-- The scan of block `i`. -/
def Image.scan (fs : Image) (dir : Nat) (wanted : CString) (i : Nat) : Option Nat :=
  let currentBlock := fs.getBlock (fs.iBlock dir i)
  fs.scanBlock wanted (currentBlock + fs.getBlockSize) currentBlock currentBlock

/-- The loop over a block looks at the record `r`. -/
def Seen (fs : Image) (wanted : CString) (endBlock ptr currentDir r : Nat) : Prop :=
  ∃ before after, fs.walkBlock endBlock ptr currentDir = before ++ r :: after ∧
    ∀ other ∈ before, ¬fs.accepts wanted other

/-- Block `i` is one of the directory's data blocks. -/
def Own (fs : Image) (dir i : Nat) : Prop := i < 12 ∧ i * fs.getBlockSize < fs.iSize dir ∧ fs.iBlock dir i ≠ 0

def SameOn (fs fs' : Image) (low high : Nat) : Prop := ∀ place : Int, low ≤ place → place < high → fs' place = fs place

/-- The images have the same superblock, inode of the directory and data blocks of the directory. -/
structure Agree (fs fs' : Image) (dir : Nat) : Prop where
  super : SameOn fs fs' Image.getSuperBlock (Image.getSuperBlock + 1024)
  inode : SameOn fs fs' dir (dir + 128)
  blocks : ∀ i, Own fs dir i → SameOn fs fs' (blockStart fs dir i) (blockStart fs dir i + fs.getBlockSize)

/-- Block `i` is scanned: nothing was found before it. -/
def Scanned (fs : Image) (dir : Nat) (wanted : CString) (i : Nat) : Prop :=
  i < 12 ∧ ∀ j < i, fs.scan dir wanted j = none

/-- What a scan looks at lies in the directory's own block with that number. -/
structure Inside (fs : Image) (dir : Nat) (wanted : CString) (i : Nat) : Prop where
  own : Own fs dir i
  start : fs.getBlock (fs.iBlock dir i) = blockStart fs dir i
  first : blockStart fs dir i + 6 ≤ blockStart fs dir i + fs.getBlockSize
  records : ∀ r, Seen fs wanted (blockStart fs dir i + fs.getBlockSize) (blockStart fs dir i) (blockStart fs dir i) r →
    fs.extent wanted r ≤ blockStart fs dir i + fs.getBlockSize

/-- The lookup depends only on the directory, and no byte of a record is read outside its data blocks. -/
structure Confined (fs : Image) (dir : Nat) (wanted : CString) : Prop where
  determined : ∀ fs', Agree fs fs' dir → fs'.getInodeFromDir dir wanted = fs.getInodeFromDir dir wanted
  inside : ∀ i, Scanned fs dir wanted i → Inside fs dir wanted i

/-- The records from `place` on lead, inside the block, to one that is accepted or to one behind which the
    block has no further record: its length is 0, or it reaches beyond the end of the block. -/
inductive Leads (fs : Image) (wanted : CString) (stop : Nat) : Nat → Option Nat → Prop
  | found {place} (inside : fs.extent wanted place ≤ stop) (accepted : fs.accepts wanted place) :
    Leads fs wanted stop place (some (fs.inode place))
  | last {place} (inside : fs.extent wanted place ≤ stop) (refused : ¬fs.accepts wanted place)
    (ends : fs.recLen place = 0 ∨ stop < place + fs.recLen place) : Leads fs wanted stop place none
  | next {place outcome} (inside : fs.extent wanted place ≤ stop) (refused : ¬fs.accepts wanted place)
    (more : fs.recLen place ≠ 0) (rest : Leads fs wanted stop (place + fs.recLen place) outcome) :
    Leads fs wanted stop place outcome

/-- The directory's own block `i` settles the lookup with the given outcome. -/
structure Settles (fs : Image) (dir : Nat) (wanted : CString) (i : Nat) (outcome : Option Nat) : Prop where
  own : Own fs dir i
  near : blockStart fs dir i < 2 ^ 32
  nonempty : 6 ≤ fs.getBlockSize
  records : fs.recLen (blockStart fs dir i) = 0 ∧ outcome = none ∨ fs.recLen (blockStart fs dir i) ≠ 0 ∧
    Leads fs wanted (blockStart fs dir i + fs.getBlockSize) (blockStart fs dir i) outcome

/-- The directory's own blocks, in order, lead to no accepted record up to one that does, or all twelve to none. -/
def Settled (fs : Image) (dir : Nat) (wanted : CString) : Prop :=
  ∃ k ≤ 12, (∀ i < k, Settles fs dir wanted i none) ∧ (k < 12 → ∃ inode, Settles fs dir wanted k (some inode))

variable {fs fs' : Image} {dir : Nat} {wanted : CString}

theorem strncmp_congr {a b b' : Nat → Nat} {n : Nat} (same : ∀ i < strncmpLooks a b n, b' i = b i) :
    strncmp a b' n = strncmp a b n ∧ strncmpLooks a b' n = strncmpLooks a b n := by
  induction n generalizing a b b' with
  | zero => exact ⟨rfl, rfl⟩
  | succ n ih =>
    rw [strncmpLooks] at same
    have first : b' 0 = b 0 := by
      apply same
      split <;> omega
    by_cases differs : a 0 ≠ b 0 ∨ a 0 = 0
    · rw [strncmp, strncmp, strncmpLooks, strncmpLooks, first, if_pos differs, if_pos differs]
      refine ⟨?_, rfl⟩
      rcases differs with differs | ended
      · rw [if_pos differs, if_pos differs]
      · rw [if_pos ended, if_pos ended]
    · rw [if_neg differs] at same
      have rest : ∀ i < strncmpLooks (fun i => a (i + 1)) (fun i => b (i + 1)) n, b' (i + 1) = b (i + 1) :=
        fun i looked => same (i + 1) (by omega)
      have later := ih rest
      rw [strncmp, strncmp, strncmpLooks, strncmpLooks, first, if_neg differs, if_neg differs]
      rw [not_or] at differs
      rw [if_neg differs.1, if_neg differs.2, if_neg differs.1, if_neg differs.2, later.1, later.2]
      exact ⟨rfl, rfl⟩

theorem SameOn.read {low high place n : Nat} (same : SameOn fs fs' low high) (above : low ≤ place)
    (below : place + n ≤ high) : loadNat fs' place n = loadNat fs place n := by
  apply loadNat_congr
  intro x first last
  exact same x (by omega) (by omega)

theorem SameOn.mono {low high low' high' : Nat} (same : SameOn fs fs' low high) (above : low ≤ low')
    (below : high' ≤ high) : SameOn fs fs' low' high' := by
  intro place first last
  exact same place (by omega) (by omega)

theorem le_extent (fs : Image) (wanted : CString) (entry : Nat) : entry + 7 ≤ fs.extent wanted entry := by
  unfold Image.extent
  dsimp only
  split <;> omega

theorem SameOn.record {entry : Nat} (same : SameOn fs fs' entry (fs.extent wanted entry)) :
    fs'.recLen entry = fs.recLen entry ∧ fs'.inode entry = fs.inode entry ∧
      fs'.accepts wanted entry = fs.accepts wanted entry ∧ fs'.extent wanted entry = fs.extent wanted entry := by
  have enough := le_extent fs wanted entry
  have length : fs'.nameLen entry = fs.nameLen entry := same.read (by omega) (by omega)
  have characters : ∀ i < strncmpLooks wanted.char (fs.name entry) (fs.nameLen entry), fs'.name entry i = fs.name entry i := by
    intro i looked
    apply same.read (by omega)
    unfold Image.extent
    dsimp only
    rw [if_neg (by omega)]
    omega
  obtain ⟨compared, looks⟩ := strncmp_congr characters
  refine ⟨same.read (by omega) (by omega), same.read (by omega) (by omega), ?_, ?_⟩
  · rw [Image.accepts, Image.accepts, length, compared]
  · unfold Image.extent
    rw [length, looks]

theorem seen_iff {stop ptr currentDir r : Nat} (more : ptr ≤ stop ∧ fs.recLen currentDir ≠ 0) :
    Seen fs wanted stop ptr currentDir r ↔
      r = ptr ∨ ¬fs.accepts wanted ptr ∧ Seen fs wanted stop (ptr + fs.recLen ptr) ptr r := by
  unfold Seen
  rw [Image.walkBlock, if_pos more]
  constructor
  · intro seen
    obtain ⟨before, after, split, passed⟩ := seen
    cases before with
    | nil => exact .inl (List.cons.inj split).1.symm
    | cons first before =>
      obtain ⟨rfl, rest⟩ := List.cons.inj split
      exact .inr ⟨passed ptr List.mem_cons_self, before, after, rest,
        fun other member => passed other (List.mem_cons_of_mem _ member)⟩
  · rintro (rfl | ⟨refused, before, after, split, passed⟩)
    · exact ⟨[], _, rfl, by simp⟩
    · exact ⟨ptr :: before, after, by rw [split]; rfl, List.forall_mem_cons.mpr ⟨refused, passed⟩⟩

theorem not_seen {stop ptr currentDir r : Nat} (stops : ¬(ptr ≤ stop ∧ fs.recLen currentDir ≠ 0)) :
    ¬Seen fs wanted stop ptr currentDir r := by
  intro ⟨before, after, split, _⟩
  rw [Image.walkBlock, if_neg stops] at split
  simp at split

/-- The outcome of a scan is the one its records lead to, and it looks at no other record. -/
theorem Leads.scan {stop place currentDir : Nat} {outcome : Option Nat} (leads : Leads fs wanted stop place outcome)
    (more : fs.recLen currentDir ≠ 0) :
    fs.scanBlock wanted stop place currentDir = outcome ∧
      ∀ r, Seen fs wanted stop place currentDir r → fs.extent wanted r ≤ stop := by
  induction leads generalizing currentDir with
  | @found place inside accepted =>
    have enough := le_extent fs wanted place
    have goes : place ≤ stop ∧ fs.recLen currentDir ≠ 0 := ⟨by omega, more⟩
    refine ⟨by rw [Image.scanBlock, if_pos goes, if_pos accepted], ?_⟩
    intro r seen
    rcases (seen_iff goes).mp seen with rfl | ⟨refused, _⟩
    · exact inside
    · exact (refused accepted).elim
  | @last place inside refused ends =>
    have enough := le_extent fs wanted place
    have goes : place ≤ stop ∧ fs.recLen currentDir ≠ 0 := ⟨by omega, more⟩
    have stops : ¬(place + fs.recLen place ≤ stop ∧ fs.recLen place ≠ 0) := by omega
    refine ⟨by rw [Image.scanBlock, if_pos goes, if_neg refused, Image.scanBlock, if_neg stops], ?_⟩
    intro r seen
    rcases (seen_iff goes).mp seen with rfl | ⟨_, later⟩
    · exact inside
    · exact (not_seen stops later).elim
  | @next place outcome inside refused onward _ ih =>
    have enough := le_extent fs wanted place
    have goes : place ≤ stop ∧ fs.recLen currentDir ≠ 0 := ⟨by omega, more⟩
    obtain ⟨rest, others⟩ := ih onward
    refine ⟨by rw [Image.scanBlock, if_pos goes, if_neg refused, rest], ?_⟩
    intro r seen
    rcases (seen_iff goes).mp seen with rfl | ⟨_, later⟩
    · exact inside
    · exact others r later

theorem Leads.same {start stop place : Nat} {outcome : Option Nat} (leads : Leads fs wanted stop place outcome)
    (same : SameOn fs fs' start stop) (above : start ≤ place) : Leads fs' wanted stop place outcome := by
  induction leads with
  | @found place inside accepted =>
    obtain ⟨_, number, accepts, extent⟩ := (same.mono above inside).record
    rw [← number]
    exact .found (by rw [extent]; exact inside) (by rw [accepts]; exact accepted)
  | @last place inside refused ends =>
    obtain ⟨length, _, accepts, extent⟩ := (same.mono above inside).record
    exact .last (by rw [extent]; exact inside) (by rw [accepts]; exact refused) (by rw [length]; exact ends)
  | @next place outcome inside refused more _ ih =>
    obtain ⟨length, _, accepts, extent⟩ := (same.mono above inside).record
    refine .next (by rw [extent]; exact inside) (by rw [accepts]; exact refused) (by rw [length]; exact more) ?_
    rw [length]
    exact ih (by omega)

/-- A scan that looks only at what lies in the block is led to its outcome. -/
theorem leads_of_inside {stop place currentDir : Nat} (le : place ≤ stop) (more : fs.recLen currentDir ≠ 0)
    (inside : ∀ r, Seen fs wanted stop place currentDir r → fs.extent wanted r ≤ stop) :
    Leads fs wanted stop place (fs.scanBlock wanted stop place currentDir) := by
  induction place, currentDir using Image.walkBlock.induct fs stop with
  | case1 place currentDir goes ih =>
    have here := inside place ((seen_iff goes).mpr (.inl rfl))
    rw [Image.scanBlock, if_pos goes]
    by_cases accepted : fs.accepts wanted place
    · rw [if_pos accepted]
      exact .found here accepted
    · rw [if_neg accepted]
      by_cases ends : fs.recLen place = 0 ∨ stop < place + fs.recLen place
      · rw [Image.scanBlock, if_neg (by omega)]
        exact .last here accepted ends
      · rw [not_or] at ends
        exact .next here accepted ends.1
          (ih (by omega) ends.1 fun r later => inside r ((seen_iff goes).mpr (.inr ⟨accepted, later⟩)))
  | case2 place currentDir stops => exact (stops ⟨le, more⟩).elim

theorem Inside.settles {i : Nat} (inside : Inside fs dir wanted i) :
    Settles fs dir wanted i (fs.scan dir wanted i) := by
  have start := inside.start
  have first := inside.first
  refine ⟨inside.own, ?_, by omega, ?_⟩
  · rw [← start]
    exact Nat.mod_lt _ (by decide)
  · simp only [Image.scan, start]
    by_cases empty : fs.recLen (blockStart fs dir i) = 0
    · refine .inl ⟨empty, ?_⟩
      rw [Image.scanBlock, if_neg (by omega)]
    · exact .inr ⟨empty, leads_of_inside (by omega) empty inside.records⟩

theorem Settles.inside {i : Nat} {outcome : Option Nat} (settles : Settles fs dir wanted i outcome) :
    fs.scan dir wanted i = outcome ∧ Inside fs dir wanted i := by
  have start : fs.getBlock (fs.iBlock dir i) = blockStart fs dir i := getBlock_of_lt settles.near
  have room := settles.nonempty
  rcases settles.records with ⟨empty, rfl⟩ | ⟨more, leads⟩
  · have stops : ¬(blockStart fs dir i ≤ blockStart fs dir i + fs.getBlockSize ∧ fs.recLen (blockStart fs dir i) ≠ 0) := by
      omega
    refine ⟨?_, settles.own, start, by omega, fun r seen => (not_seen stops seen).elim⟩
    simp only [Image.scan, start]
    rw [Image.scanBlock, if_neg stops]
  · obtain ⟨scan, seen⟩ := leads.scan more
    refine ⟨?_, settles.own, start, by omega, seen⟩
    simp only [Image.scan, start]
    exact scan

theorem Agree.getBlockSize (agree : Agree fs fs' dir) : fs'.getBlockSize = fs.getBlockSize := by
  have log : fs'.sLogBlockSize = fs.sLogBlockSize := agree.super.read (by decide) (by decide)
  rw [Image.getBlockSize, Image.getBlockSize, log]

theorem Agree.iBlock (agree : Agree fs fs' dir) {i : Nat} (direct : i < 12) : fs'.iBlock dir i = fs.iBlock dir i :=
  agree.inode.read (by omega) (by omega)

theorem Agree.iSize (agree : Agree fs fs' dir) : fs'.iSize dir = fs.iSize dir :=
  agree.inode.read (by omega) (by omega)

theorem Settles.same {i : Nat} {outcome : Option Nat} (settles : Settles fs dir wanted i outcome)
    (agree : Agree fs fs' dir) : Settles fs' dir wanted i outcome := by
  obtain ⟨direct, covered, listed⟩ := settles.own
  have contents := agree.blocks i settles.own
  have blockSize := agree.getBlockSize
  have pointer := agree.iBlock direct
  have start : blockStart fs' dir i = blockStart fs dir i := by rw [blockStart, blockStart, pointer, blockSize]
  have room := settles.nonempty
  have length : fs'.recLen (blockStart fs dir i) = fs.recLen (blockStart fs dir i) :=
    contents.read (by omega) (by omega)
  constructor
  · exact ⟨direct, by rw [blockSize, agree.iSize]; exact covered, by rw [pointer]; exact listed⟩
  · rw [start]
    exact settles.near
  · rw [blockSize]
    exact room
  · rw [start, blockSize, length]
    apply settles.records.imp_right
    intro ⟨more, leads⟩
    exact ⟨more, leads.same contents (Nat.le_refl _)⟩

theorem getInodeFromDir_of_settles {k inode : Nat} (inside : k < 12) (before : ∀ i < k, Settles fs dir wanted i none)
    (here : Settles fs dir wanted k (some inode)) : fs.getInodeFromDir dir wanted = inode := by
  change ((List.range 12).findSome? (fs.scan dir wanted)).getD 0 = inode
  obtain ⟨later, total⟩ : ∃ later, 12 = k + (later + 1) := ⟨11 - k, by omega⟩
  have none : (List.range k).findSome? (fs.scan dir wanted) = none := by
    rw [List.findSome?_eq_none_iff]
    intro i member
    exact (before i (List.mem_range.mp member)).inside.1
  rw [total, List.range_add, List.findSome?_append, none, List.range_succ_eq_map, List.map_cons, Nat.add_zero,
    Option.none_or, List.findSome?_cons, here.inside.1]
  rfl

theorem getInodeFromDir_of_none (before : ∀ i < 12, Settles fs dir wanted i none) :
    fs.getInodeFromDir dir wanted = 0 := by
  change ((List.range 12).findSome? (fs.scan dir wanted)).getD 0 = 0
  have none : (List.range 12).findSome? (fs.scan dir wanted) = none := by
    rw [List.findSome?_eq_none_iff]
    intro i member
    exact (before i (List.mem_range.mp member)).inside.1
  rw [none]
  rfl

theorem Settled.determined (settled : Settled fs dir wanted) (agree : Agree fs fs' dir) :
    fs'.getInodeFromDir dir wanted = fs.getInodeFromDir dir wanted := by
  obtain ⟨k, le, before, here⟩ := settled
  by_cases inside : k < 12
  · obtain ⟨inode, found⟩ := here inside
    rw [getInodeFromDir_of_settles inside before found,
      getInodeFromDir_of_settles inside (fun i less => (before i less).same agree) (found.same agree)]
  · obtain rfl : k = 12 := by omega
    rw [getInodeFromDir_of_none before, getInodeFromDir_of_none fun i less => (before i less).same agree]

theorem Settled.inside (settled : Settled fs dir wanted) {i : Nat} (scanned : Scanned fs dir wanted i) :
    Inside fs dir wanted i := by
  obtain ⟨k, le, before, here⟩ := settled
  rcases Nat.lt_trichotomy i k with less | rfl | more
  · exact (before i less).inside.2
  · obtain ⟨_, found⟩ := here scanned.1
    exact found.inside.2
  · obtain ⟨_, found⟩ := here (Nat.lt_trans more scanned.1)
    have none := scanned.2 k more
    rw [found.inside.1] at none
    cases none

theorem settled_of_inside (inside : ∀ i, Scanned fs dir wanted i → Inside fs dir wanted i) : Settled fs dir wanted := by
  by_cases all : ∀ i < 12, fs.scan dir wanted i = none
  · refine ⟨12, Nat.le_refl _, ?_, fun less => (Nat.lt_irrefl _ less).elim⟩
    intro i less
    have settles := (inside i ⟨less, fun j before => all j (by omega)⟩).settles
    rw [all i less] at settles
    exact settles
  · have first : ∃ k, k < 12 ∧ fs.scan dir wanted k ≠ none := by
      simpa using all
    obtain ⟨within, found⟩ := Nat.find_spec first
    have before : ∀ j < Nat.find first, fs.scan dir wanted j = none := by
      intro j less
      by_contra other
      exact Nat.find_min first less ⟨by omega, other⟩
    refine ⟨Nat.find first, by omega, ?_, ?_⟩
    · intro i less
      have settles := (inside i ⟨by omega, fun j earlier => before j (by omega)⟩).settles
      rw [before i less] at settles
      exact settles
    · intro _
      obtain ⟨inode, result⟩ := Option.ne_none_iff_exists'.mp found
      have settles := (inside _ ⟨within, before⟩).settles
      rw [result] at settles
      exact ⟨inode, settles⟩

/-- The lookup keeps to its directory exactly where the directory's own blocks settle it. -/
theorem confined_iff (fs : Image) (dir : Nat) (wanted : CString) : Confined fs dir wanted ↔ Settled fs dir wanted := by
  constructor
  · intro confined
    exact settled_of_inside confined.inside
  · intro settled
    exact ⟨fun _ agree => settled.determined agree, fun _ scanned => settled.inside scanned⟩

theorem strncmpLooks_le (a b : Nat → Nat) (n : Nat) : strncmpLooks a b n ≤ n := by
  induction n generalizing a b with
  | zero => exact Nat.le_refl _
  | succ n ih =>
    rw [strncmpLooks]
    split
    · omega
    · exact Nat.succ_le_succ (ih _ _)

theorem extent_le (fs : Image) (wanted : CString) (entry : Nat) :
    fs.extent wanted entry ≤ entry + 8 + fs.nameLen entry := by
  have few := strncmpLooks_le wanted.char (fs.name entry) (fs.nameLen entry)
  unfold Image.extent
  dsimp only
  split <;> omega

/-- In a block made of records the scan is settled by an accepted one and by nothing else. -/
theorem Chain.leads_iff {stop place : Nat} {records : List Nat} {outcome : Option Nat}
    (chain : Chain fs stop place records) :
    Leads fs wanted stop place outcome ↔ ∃ r, records.find? (fs.accepts wanted) = some r ∧ outcome = some (fs.inode r) := by
  induction chain with
  | stop =>
    have beyond := le_extent fs wanted stop
    constructor
    · intro leads
      cases leads <;> omega
    · intro ⟨r, found, _⟩
      cases found
  | @entry place rest room fits _ ih =>
    have within := extent_le fs wanted place
    constructor
    · intro leads
      cases leads with
      | found inside accepted => exact ⟨place, List.find?_cons_of_pos accepted, rfl⟩
      | last inside refused ends => omega
      | next inside refused more later =>
        rw [List.find?_cons_of_neg refused]
        exact ih.mp later
    · rintro ⟨r, found, rfl⟩
      by_cases accepted : fs.accepts wanted place
      · rw [List.find?_cons_of_pos accepted] at found
        cases found
        exact .found (by omega) accepted
      · rw [List.find?_cons_of_neg accepted] at found
        exact .next (by omega) accepted (by omega) (ih.mpr ⟨r, found, rfl⟩)

/-- A well-formed directory settles a lookup only by a record of its first block that is accepted. -/
theorem WellFormed.settled_iff (wellFormed : WellFormed fs dir) {records : List Nat} (some_block : 0 < dirBlocks fs dir)
    (chain : Chain fs (blockStart fs dir 0 + fs.getBlockSize) (blockStart fs dir 0) records) :
    Settled fs dir wanted ↔ blockStart fs dir 0 < 2 ^ 32 ∧ ∃ r ∈ records, fs.accepts wanted r := by
  have positive := getBlockSize_pos wellFormed.legal
  have whole := wellFormed.whole
  have first : fs.recLen (blockStart fs dir 0) ≠ 0 := by
    generalize stop : blockStart fs dir 0 + fs.getBlockSize = stop at chain
    cases chain with
    | stop => omega
    | entry room _ _ => omega
  have settles : ∀ outcome, Settles fs dir wanted 0 outcome →
      Leads fs wanted (blockStart fs dir 0 + fs.getBlockSize) (blockStart fs dir 0) outcome := by
    intro outcome settles
    exact (settles.records.resolve_left fun empty => first empty.1).2
  constructor
  · intro ⟨k, le, before, here⟩
    cases k with
    | zero =>
      obtain ⟨inode, found⟩ := here (by omega)
      obtain ⟨r, accepted, _⟩ := chain.leads_iff.mp (settles _ found)
      exact ⟨found.near, r, List.mem_of_find?_eq_some accepted, List.find?_some accepted⟩
    | succ k =>
      obtain ⟨r, _, absurd⟩ := chain.leads_iff.mp (settles _ (before 0 (Nat.succ_pos k)))
      cases absurd
  · intro ⟨near, r, member, accepted⟩
    obtain ⟨r', found⟩ := Option.ne_none_iff_exists'.mp fun none => List.find?_eq_none.mp none r member accepted
    have covered : 0 * fs.getBlockSize < fs.iSize dir := by
      rw [← whole, Nat.zero_mul]
      exact Nat.mul_pos some_block positive
    have large : 6 ≤ fs.getBlockSize := by
      rw [getBlockSize_of_legal wellFormed.legal]
      exact Nat.le_trans (by decide : 6 ≤ 2 ^ 10) (Nat.pow_le_pow_right (by decide) (by omega))
    refine ⟨0, by omega, fun i less => (Nat.not_lt_zero i less).elim, fun _ => ⟨fs.inode r', ?_⟩⟩
    exact ⟨⟨by omega, covered, wellFormed.used 0 some_block⟩, near, large,
      .inr ⟨first, chain.leads_iff.mpr ⟨r', found, rfl⟩⟩⟩

theorem dot_confined : Confined dotDir 2048 dot := by
  apply (confined_iff dotDir 2048 dot).mpr
  apply (wellFormed_dotDir.settled_iff (by decide) chain_dotDir).mpr
  exact ⟨by decide, 3072, by simp, by decide⟩

/-- The same directory, behind whose block something stands that looks like an entry `b`. -/
def strayDir : Image := fun place =>
  if place = 4096 then 5 else if place = 4100 then 12 else if place = 4102 then 1 else if place = 4104 then 98
  else dotDir place

def stray : CString := ⟨[98], by decide⟩

theorem own_dotDir {i : Nat} (own : Own dotDir 2048 i) : i = 0 := by
  have covered := own.2.1
  have size : dotDir.iSize 2048 = 1024 := by decide
  have blockSize : dotDir.getBlockSize = 1024 := by decide
  rw [size, blockSize] at covered
  omega

theorem agree_strayDir : Agree dotDir strayDir 2048 := by
  have same : ∀ place : Int, place < 4096 → strayDir place = dotDir place := by
    intro place before
    unfold strayDir
    rw [if_neg (by omega), if_neg (by omega), if_neg (by omega), if_neg (by omega)]
  constructor
  · intro place _ below
    apply same
    simp only [Image.getSuperBlock] at below
    omega
  · intro place _ below
    exact same place (by omega)
  · intro i own
    rw [own_dotDir own, show blockStart dotDir 2048 0 + dotDir.getBlockSize = 4096 by decide]
    intro place _ below
    exact same place below

/-- What stands behind the directory decides the lookup of `b`. -/
theorem stray_found : ¬ ∀ fs fs' dir wanted, Agree fs fs' dir →
    fs'.getInodeFromDir dir wanted = fs.getInodeFromDir dir wanted := by
  intro claimed
  have same := claimed dotDir strayDir 2048 stray agree_strayDir
  obtain ⟨later, walk⟩ := walk_first dotDir 2048
  obtain ⟨later', walk'⟩ := walk_first strayDir 2048
  have place : dotDir.getBlock (dotDir.iBlock 2048 0) = 3072 := by decide
  have place' : strayDir.getBlock (strayDir.iBlock 2048 0) = 3072 := by decide
  have stop : 3072 + dotDir.getBlockSize = 4096 := by decide
  have stop' : 3072 + strayDir.getBlockSize = 4096 := by decide
  have chain : strayDir.walkBlock 4096 3072 3072 = 3072 :: 3084 :: 3096 :: 4096 :: strayDir.walkBlock 4096 4108 4096 := by
    rw [Image.walkBlock, if_pos (by decide), show 3072 + strayDir.recLen 3072 = 3084 by decide,
      Image.walkBlock, if_pos (by decide), show 3084 + strayDir.recLen 3084 = 3096 by decide,
      Image.walkBlock, if_pos (by decide), show 3096 + strayDir.recLen 3096 = 4096 by decide,
      Image.walkBlock, if_pos (by decide), show 4096 + strayDir.recLen 4096 = 4108 by decide]
  rw [place, stop, chain_dotDir.walkBlock (by decide) (by decide)] at walk
  rw [place', stop', chain] at walk'
  rw [getInodeFromDir_eq_find, getInodeFromDir_eq_find, walk, walk'] at same
  simp only [List.cons_append, List.nil_append] at same
  rw [List.find?_cons_of_neg (by decide), List.find?_cons_of_neg (by decide), List.find?_cons_of_neg (by decide),
    List.find?_cons_of_pos (by decide), List.find?_cons_of_neg (by decide), List.find?_cons_of_neg (by decide),
    List.find?_cons_of_neg (by decide), List.find?_cons_of_pos (by decide)] at same
  exact absurd same (by decide)

end Eecs343.FileSystem
