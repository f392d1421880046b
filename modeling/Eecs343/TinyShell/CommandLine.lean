import Eecs343.Base.HeapBlock
import Eecs343.Base.Transition
import Eecs343.TinyShell.Interpreter.Scan

namespace Eecs343.TinyShell

open Bytes Interpreter Transition

def bufSize : Nat := 80

def sizeofPointer (wide : Bool) : Nat := if wide then 8 else 4

/-- A value converted to `size_t`. -/
def toSizeT (wide : Bool) (n : Int) : Nat := (n % (256 ^ sizeofPointer wide : Nat)).toNat

/-- `size *= 2`. -/
def doubled (size : Int) : Int := Int.bmod (size * 2) (2 ^ 32)

/-- The local variables of `getCommandLine`, and the block that `realloc` works on. -/
structure Reading where
  cmd : Int
  used : Nat
  size : Int
  block : HeapBlock

namespace Reading

variable (wide : Bool) (r : Reading)

/-- What `getCommandLine` does when the buffer is full. -/
def grow (answer : Int) : Reading :=
  { r with size := doubled r.size, cmd := answer, block := r.block.realloc r.cmd (toSizeT wide (doubled r.size + 1)) answer }

/-- What it does with a character. -/
def append (ch : BitVec 8) : Reading :=
  { r with used := r.used + 1, block := (r.block.store r.cmd r.used ch).store r.cmd (r.used + 1) nul }

/-- One pass of the loop. -/
def pass (answer : Int) (ch : BitVec 8) : Reading :=
  (if r.used = toSizeT wide r.size then r.grow wide answer else r).append ch

end Reading

/-- The loop over the characters of a line. `answers` tells what `realloc` returns, by the number of characters
    that have been read. -/
def readChars (wide : Bool) (answers : Nat → Int) : Text → Reading → Reading
  | [], r => r
  | ch :: line, r => readChars wide answers line (r.pass wide (answers r.used) ch)

/-- The main program's pointer and the block it was given by `malloc`, with the line read last. -/
structure Caller where
  cmdLine : Int
  block : HeapBlock
  read : Option Text

/-- `getCommandLine(&cmdLine, BUFSIZE)`. It never writes to `*buf`. -/
def getCommandLine (wide : Bool) (answers : Nat → Int) (line : Text) (s : Caller) : Caller :=
  let r := readChars wide answers line ⟨s.cmdLine, 0, bufSize, s.block.store s.cmdLine 0 nul⟩
  { s with block := r.block, read := some line }

/-- A call: the line that is typed, what `realloc` answers, and what stands in memory by then. -/
structure Call where
  line : Text
  answers : Nat → Int
  memory : Memory

/-- A line has neither NUL nor line feed nor the character that looks like `EOF`, and `realloc` gives no block larger than
    `PTRDIFF_MAX`. -/
structure Call.Enabled (wide : Bool) (call : Call) : Prop where
  line : ∀ ch ∈ call.line, ch ≠ nul ∧ ch ≠ 10#8 ∧ ch ≠ 255#8
  answers : ∀ used : Nat, 256 ^ sizeofPointer wide / 2 ≤ toSizeT wide (doubled used + 1) → call.answers used = 0

def commandLines (wide : Bool) : System Caller Call where
  enabled _ call := call.Enabled wide
  next s call := getCommandLine wide call.answers call.line { s with block := { s.block with memory := call.memory } }

/-- `char* cmdLine = malloc(sizeof(char*)*BUFSIZE)`. -/
def allocated (wide : Bool) (memory : Memory) (address : Int) (somewhere : address ≠ 0) : Caller :=
  ⟨address, ⟨memory, address, sizeofPointer wide * bufSize, false, somewhere⟩, none⟩

/-- The caller's pointer is to a live block, which holds the line, and nothing has been written elsewhere. -/
structure Holding (s : Caller) : Prop where
  tame : s.block.wild = false
  live : s.cmdLine = s.block.address
  line : ∀ line, s.read = some line → IsString s.block.memory s.cmdLine line ∧ line.length < s.block.size

/-- How many characters have been read when `realloc` is called. -/
def Full (used : Nat) : Prop := ∃ k, used = bufSize * 2 ^ k

/-- Every `realloc` of the call finds room, and the last one finds it where the caller's pointer is. -/
def InPlace (s : Caller) (call : Call) : Prop :=
  ∀ used, Full used → used < call.line.length →
    call.answers used ≠ 0 ∧ (call.line.length ≤ 2 * used → call.answers used = s.cmdLine)

variable {wide : Bool} {answers : Nat → Int} {r : Reading} {s t : Caller} {call : Call} {ch : BitVec 8}
    {line typed : Text} {answer : Int} {used k : Nat}

theorem pass_wild (wild : r.block.wild = true) : (r.pass wide answer ch).block.wild = true := by
  apply HeapBlock.store_wild
  apply HeapBlock.store_wild
  split
  · exact HeapBlock.realloc_wild wild
  · exact wild

theorem readChars_wild (wild : r.block.wild = true) : (readChars wide answers line r).block.wild = true := by
  induction line generalizing r with
  | nil => exact wild
  | cons ch line ih => exact ih (pass_wild wild)

/-- Between two characters: the buffer has been doubled `k` times, and holds what has been typed. -/
structure Reading.Kept (r : Reading) (typed : Text) (k : Nat) : Prop where
  tame : r.block.wild = false
  live : r.cmd = r.block.address
  used : r.used = typed.length
  doublings : k ≤ 24
  size : r.size = bufSize * 2 ^ k
  fits : typed.length ≤ bufSize * 2 ^ k
  room : bufSize * 2 ^ k < r.block.size
  string : IsString r.block.memory r.cmd typed

theorem pow_sizeofPointer (wide : Bool) : 4294967296 ≤ 256 ^ sizeofPointer wide := by
  cases wide <;> decide

theorem size_le (doublings : k ≤ 24) : bufSize * 2 ^ k ≤ 1342177280 :=
  Nat.mul_le_mul_left bufSize (Nat.pow_le_pow_right (by decide) doublings)

theorem toSizeT_of_small {n : Nat} (small : n < 4294967296) : toSizeT wide n = n := by
  have modulus := pow_sizeofPointer wide
  rw [toSizeT, Int.emod_eq_of_lt (Int.natCast_nonneg n) (by exact_mod_cast Nat.lt_of_lt_of_le small modulus), Int.toNat_natCast]

theorem doubled_small {n : Nat} (small : n < 1073741824) : doubled n = (2 * n : Nat) := by
  rw [doubled, Int.bmod_eq_of_le (by omega) (by omega)]
  omega

/-- The 25th doubling overflows, and asks for more than there can be. -/
theorem request_overflows : 256 ^ sizeofPointer wide / 2 ≤ toSizeT wide (doubled (bufSize * 2 ^ 24 : Nat) + 1) := by
  cases wide <;> decide

theorem exponent_lt {i j : Nat} (less : bufSize * 2 ^ i < bufSize * 2 ^ j) : i < j := by
  by_contra other
  exact absurd (Nat.mul_le_mul_left bufSize (Nat.pow_le_pow_right (show 0 < 2 by decide) (Nat.le_of_not_lt other)))
    (Nat.not_le_of_lt less)

theorem full_double (full : Full used) (later : Full k) (less : used < k) : 2 * used ≤ k := by
  obtain ⟨i, rfl⟩ := full
  obtain ⟨j, rfl⟩ := later
  have order := exponent_lt less
  calc 2 * (bufSize * 2 ^ i) = bufSize * 2 ^ (i + 1) := by ring
    _ ≤ bufSize * 2 ^ j := Nat.mul_le_mul_left bufSize (Nat.pow_le_pow_right (by decide) order)

theorem Reading.Kept.append (kept : r.Kept typed k) (solid : ch ≠ nul) (more : typed.length < bufSize * 2 ^ k) :
    (r.append ch).Kept (typed ++ [ch]) k := by
  have length : (typed ++ [ch]).length = typed.length + 1 := List.length_append
  have room := kept.room
  refine ⟨?_, kept.live, ?_, kept.doublings, kept.size, by omega, room, ?_⟩
  · have first : (r.block.store r.cmd r.used ch).wild = false := by
      rw [kept.live]
      exact HeapBlock.store_tame kept.tame (by rw [kept.used]; omega)
    have second := HeapBlock.store_tame (i := r.used + 1) (b := nul) first
      (by rw [kept.used]; exact Nat.lt_of_le_of_lt more room)
    rwa [show (r.block.store r.cmd r.used ch).address = r.cmd from kept.live.symm] at second
  · rw [length, ← kept.used]
    rfl
  · have place : r.cmd + ((r.used + 1 : Nat) : Int) = r.cmd + (typed ++ [ch]).length := by rw [length, kept.used]
    change IsString (put (put r.block.memory (r.cmd + r.used) ch) (r.cmd + (r.used + 1 : Nat)) nul) r.cmd (typed ++ [ch])
    rw [place, kept.used]
    refine ⟨?_, put_at, ?_⟩
    · apply Holds.put_outside _ (.inr (Int.le_refl _))
      exact holds_append.mpr ⟨kept.string.holds.put_outside (.inr (Int.le_refl _)), put_at, trivial⟩
    · rw [List.mem_append, List.mem_singleton, not_or]
      exact ⟨kept.string.proper, solid.symm⟩

theorem Reading.Kept.grow (kept : r.Kept typed k) (wide : Bool) (full : typed.length = bufSize * 2 ^ k) (small : k < 24)
    (moved : answer ≠ 0) :
    (r.grow wide answer).Kept typed (k + 1) := by
  have less : bufSize * 2 ^ k ≤ bufSize * 2 ^ 23 :=
    Nat.mul_le_mul_left bufSize (Nat.pow_le_pow_right (by decide) (Nat.le_of_lt_succ small))
  have power : bufSize * 2 ^ (k + 1) = 2 * (bufSize * 2 ^ k) := by ring
  have size : doubled r.size = (bufSize * 2 ^ (k + 1) : Nat) := by
    rw [kept.size, power]
    exact_mod_cast doubled_small (Nat.lt_of_le_of_lt less (by decide))
  have request : toSizeT wide (doubled r.size + 1) = bufSize * 2 ^ (k + 1) + 1 := by
    rw [size]
    exact_mod_cast toSizeT_of_small (Nat.lt_of_le_of_lt (Nat.succ_le_succ (power ▸ Nat.mul_le_mul_left 2 less)) (by decide))
  have room := kept.room
  have block : (r.grow wide answer).block = r.block.realloc r.block.address (bufSize * 2 ^ (k + 1) + 1) answer := by
    rw [Reading.grow, request, kept.live]
  have string : IsString (r.grow wide answer).block.memory answer typed := by
    have copied : ∀ i ≤ typed.length, (r.grow wide answer).block.memory (answer + i) = r.block.memory (r.cmd + i) := by
      intro i inside
      rw [block, kept.live]
      exact HeapBlock.realloc_kept moved (by omega) (by omega)
    exact ⟨kept.string.holds.moved fun i inside => copied i (Nat.le_of_lt inside),
      (copied _ (Nat.le_refl _)).trans kept.string.ended, kept.string.proper⟩
  refine ⟨?_, ?_, kept.used, small, ?_, by omega, ?_, string⟩
  · rw [block]
    exact HeapBlock.realloc_tame kept.tame
  · rw [block, HeapBlock.realloc_address moved]
    rfl
  · exact size
  · rw [block, HeapBlock.realloc_size moved]
    exact Nat.lt_succ_self _

/-- Whether the buffer has been doubled as late as it could. -/
def Late (k n : Nat) : Prop := k = 0 ∨ bufSize * 2 ^ k < 2 * n

theorem not_full {n : Nat} (late : Late k n) (more : n < bufSize * 2 ^ k) : ¬ Full n := by
  rintro ⟨j, rfl⟩
  have order := exponent_lt more
  have next := Nat.mul_le_mul_left bufSize (Nat.pow_le_pow_right (show 0 < 2 by decide) order)
  rcases late with rfl | late
  · omega
  · have power : bufSize * 2 ^ (j + 1) = 2 * (bufSize * 2 ^ j) := by ring
    rw [Nat.succ_eq_add_one] at next
    omega

theorem pass_cases (kept : r.Kept typed k) (late : Late k typed.length) (solid : ch ≠ nul)
    (huge : ∀ used : Nat, 256 ^ sizeofPointer wide / 2 ≤ toSizeT wide (doubled used + 1) → answers used = 0) :
    (¬ Full typed.length ∧ (r.pass wide (answers r.used) ch).Kept (typed ++ [ch]) k ∧ Late k (typed ++ [ch]).length ∧
      (r.pass wide (answers r.used) ch).cmd = r.cmd) ∨
    (Full typed.length ∧ answers typed.length = 0 ∧ (r.pass wide (answers r.used) ch).block.wild = true) ∨
    (Full typed.length ∧ answers typed.length ≠ 0 ∧ (r.pass wide (answers r.used) ch).Kept (typed ++ [ch]) (k + 1) ∧
      Late (k + 1) (typed ++ [ch]).length ∧ (r.pass wide (answers r.used) ch).cmd = answers typed.length) := by
  have bound := size_le kept.doublings
  have size : toSizeT wide r.size = bufSize * 2 ^ k := by
    rw [kept.size]
    exact_mod_cast toSizeT_of_small (Nat.lt_of_le_of_lt bound (by decide))
  have length : (typed ++ [ch]).length = typed.length + 1 := List.length_append
  have fits := kept.fits
  unfold Reading.pass
  rw [size, kept.used]
  by_cases full : typed.length = bufSize * 2 ^ k
  · rw [if_pos full]
    right
    by_cases moved : answers typed.length = 0
    · left
      refine ⟨⟨k, full⟩, moved, ?_⟩
      rw [moved]
      apply HeapBlock.store_wild
      apply HeapBlock.store_astray
      rw [Reading.grow, HeapBlock.realloc_null]
      exact r.block.somewhere.symm
    · right
      have small : k < 24 := by
        apply Nat.lt_of_le_of_ne kept.doublings
        rintro rfl
        apply moved
        rw [full]
        exact huge _ request_overflows
      have grown := kept.grow wide full small moved
      have power : bufSize * 2 ^ (k + 1) = 2 * (bufSize * 2 ^ k) := by ring
      have positive : 0 < bufSize * 2 ^ k := Nat.mul_pos (by decide) (Nat.two_pow_pos k)
      refine ⟨⟨k, full⟩, moved, grown.append solid (by omega), ?_, rfl⟩
      right
      omega
  · rw [if_neg full]
    left
    have more : typed.length < bufSize * 2 ^ k := Nat.lt_of_le_of_ne fits full
    refine ⟨not_full late more, kept.append solid more, ?_, rfl⟩
    rcases late with none | late
    · exact .inl none
    · exact .inr (by omega)

/-- The loop ends with the line in the buffer that the last `realloc` gave, or has met one that failed. -/
theorem readChars_cases (kept : r.Kept typed k) (late : Late k typed.length) (solid : ∀ ch ∈ line, ch ≠ nul)
    (huge : ∀ used : Nat, 256 ^ sizeofPointer wide / 2 ≤ toSizeT wide (doubled used + 1) → answers used = 0) :
    ((∃ used, Full used ∧ typed.length ≤ used ∧ used < (typed ++ line).length ∧ answers used = 0) ∧
      (readChars wide answers line r).block.wild = true) ∨
    ∃ k, (readChars wide answers line r).Kept (typed ++ line) k ∧ Late k (typed ++ line).length ∧
      (∀ used, Full used → typed.length ≤ used → used < (typed ++ line).length →
        answers used ≠ 0 ∧ ((typed ++ line).length ≤ 2 * used → (readChars wide answers line r).cmd = answers used)) ∧
      ((∀ used, Full used → typed.length ≤ used → (typed ++ line).length ≤ used) →
        (readChars wide answers line r).cmd = r.cmd) := by
  induction line generalizing r typed k with
  | nil =>
    right
    rw [List.append_nil]
    exact ⟨k, kept, late, fun used _ low high => absurd high (Nat.not_lt_of_le low), fun _ => rfl⟩
  | cons ch line ih =>
    have whole : typed ++ ch :: line = typed ++ [ch] ++ line := by simp
    have length : (typed ++ [ch]).length = typed.length + 1 := List.length_append
    have total : (typed ++ [ch] ++ line).length = typed.length + 1 + line.length := by
      simp only [List.length_append, List.length_singleton]
    rw [whole, readChars]
    rw [List.forall_mem_cons] at solid
    have later : ∀ {used}, Full used → typed.length ≤ used → used ≠ typed.length → (typed ++ [ch]).length ≤ used := by
      intro used _ low other
      omega
    rcases pass_cases kept late solid.1 huge with ⟨notFull, kept', late', same⟩ | ⟨full, null, wild⟩
      | ⟨full, moved, kept', late', grown⟩
    · have other : ∀ used, Full used → used ≠ typed.length := fun used full same => notFull (same ▸ full)
      rcases ih kept' late' solid.2 with ⟨⟨used, full, low, high, null⟩, wild⟩ | ⟨k', kept', late', last, untouched⟩
      · exact .inl ⟨⟨used, full, by omega, high, null⟩, wild⟩
      · right
        refine ⟨k', kept', late', ?_, ?_⟩
        · intro used full low high
          exact last used full (later full low (other used full)) high
        · intro none
          rw [untouched fun used full low => none used full (by omega), same]
    · exact .inl ⟨⟨typed.length, full, Nat.le_refl _, by omega, null⟩, readChars_wild wild⟩
    · rcases ih kept' late' solid.2 with ⟨⟨used, full, low, high, null⟩, wild⟩ | ⟨k', kept', late', last, untouched⟩
      · exact .inl ⟨⟨used, full, by omega, high, null⟩, wild⟩
      · right
        refine ⟨k', kept', late', ?_, ?_⟩
        · intro used full' low high
          by_cases here : used = typed.length
          · subst here
            refine ⟨moved, ?_⟩
            intro short
            -- the next doubling would come only behind the end of the line
            rw [untouched, grown]
            intro used full' low
            exact Nat.le_trans short (full_double full full' (by omega))
          · exact last used full' (later full' low here) high
        · intro none
          exact absurd (none _ full (Nat.le_refl _)) (by omega)

theorem getCommandLine_astray (stale : s.cmdLine ≠ s.block.address) :
    (getCommandLine wide answers line s).block.wild = true :=
  readChars_wild (HeapBlock.store_astray stale)

theorem getCommandLine_wild (wild : s.block.wild = true) : (getCommandLine wide answers line s).block.wild = true :=
  readChars_wild (HeapBlock.store_wild wild)

/-- The block is never smaller than the buffer `getCommandLine` starts with. -/
def Roomy (s : Caller) : Prop := s.block.wild = false → bufSize < s.block.size

theorem start_kept (tame : s.block.wild = false) (live : s.cmdLine = s.block.address) (roomy : bufSize < s.block.size) :
    Reading.Kept ⟨s.cmdLine, 0, bufSize, s.block.store s.cmdLine 0 nul⟩ [] 0 := by
  refine ⟨?_, live, rfl, by decide, rfl, Nat.zero_le _, roomy, trivial, ?_, by simp⟩
  · rw [live]
    exact HeapBlock.store_tame tame (Nat.zero_lt_of_lt roomy)
  · exact put_at

/-- The last `realloc` of a line, if there is any. -/
theorem last_full {n : Nat} (late : Late k n) (fits : n ≤ bufSize * 2 ^ k) :
    (∀ used, Full used → n ≤ used) ∨ ∃ used, Full used ∧ used < n ∧ n ≤ 2 * used := by
  cases k with
  | zero =>
    left
    rintro _ ⟨j, rfl⟩
    exact Nat.le_trans fits (Nat.mul_le_mul_left bufSize (Nat.pow_le_pow_right (by decide) (Nat.zero_le j)))
  | succ k =>
    right
    have power : bufSize * 2 ^ (k + 1) = 2 * (bufSize * 2 ^ k) := by ring
    rcases late with none | late
    · cases none
    · exact ⟨bufSize * 2 ^ k, ⟨k, rfl⟩, by omega, by omega⟩

theorem getCommandLine_cases (tame : s.block.wild = false) (live : s.cmdLine = s.block.address)
    (roomy : bufSize < s.block.size)
    (enabled : call.Enabled wide) : Roomy (getCommandLine wide call.answers call.line s) ∧
      (Holding (getCommandLine wide call.answers call.line s) ↔ InPlace s call) := by
  have kept := start_kept tame live roomy
  have solid : ∀ ch ∈ call.line, ch ≠ nul := fun ch member => (enabled.line ch member).1
  unfold getCommandLine
  dsimp only
  rcases readChars_cases kept (.inl rfl) solid enabled.answers with ⟨⟨used, full, -, short, null⟩, wild⟩
    | ⟨k, kept', late, last, untouched⟩
  · constructor
    · intro tame
      exact absurd (wild.symm.trans tame) (by decide)
    · refine iff_of_false ?_ ?_
      · intro holding
        exact absurd (wild.symm.trans holding.tame) (by decide)
      · intro inPlace
        exact (inPlace used full short).1 null
  · rw [List.nil_append] at kept' late last untouched
    generalize readChars wide call.answers call.line ⟨s.cmdLine, 0, bufSize, s.block.store s.cmdLine 0 nul⟩ = r at *
    have room := kept'.room
    have fits := kept'.fits
    have positive : bufSize ≤ bufSize * 2 ^ k := Nat.le_mul_of_pos_right bufSize (Nat.two_pow_pos k)
    constructor
    · intro _
      exact Nat.lt_of_le_of_lt positive room
    · have same : Holding ⟨s.cmdLine, r.block, some call.line⟩ ↔ s.cmdLine = r.cmd := by
        constructor
        · intro holding
          exact holding.live.trans kept'.live.symm
        · intro here
          refine ⟨kept'.tame, here.trans kept'.live, ?_⟩
          intro line read
          cases read
          exact ⟨here ▸ kept'.string, Nat.lt_of_le_of_lt fits room⟩
      rw [same]
      constructor
      · intro here used full short
        obtain ⟨moved, final⟩ := last used full (Nat.zero_le _) short
        exact ⟨moved, fun final' => (final final').symm.trans here.symm⟩
      · intro inPlace
        rcases last_full late fits with none | ⟨used, full, short, final⟩
        · exact (untouched fun used full _ => none used full).symm
        · exact ((last used full (Nat.zero_le _) short).2 final).trans ((inPlace used full short).2 final) |>.symm

theorem getCommandLine_roomy (roomy : Roomy s) (enabled : call.Enabled wide) :
    Roomy (getCommandLine wide call.answers call.line s) := by
  intro tame
  have before : s.block.wild = false := by
    by_contra wild
    exact absurd ((getCommandLine_wild (Bool.of_not_eq_false wild)).symm.trans tame) (by decide)
  have live : s.cmdLine = s.block.address := by
    by_contra stale
    exact absurd ((getCommandLine_astray stale).symm.trans tame) (by decide)
  exact (getCommandLine_cases before live (roomy before) enabled).1 tame

/-- In a run the caller's pointer is to the line that was read, exactly if `realloc` has always found room for it, at last
    where it was. -/
theorem holding_iff_in_place {memory : Memory} {address : Int} {somewhere : address ≠ 0} {steps : List (Caller × Call)}
    (run : Run (commandLines wide).Step (allocated wide memory address somewhere) steps s) :
    (∀ t ∈ visited steps s, Holding t) ↔ ∀ taken ∈ steps, InPlace taken.1 taken.2 := by
  refine run.invariant_iff InPlace Roomy Holding ?_ ?_ ?_ ?_
  · intro _
    change bufSize < sizeofPointer wide * bufSize
    cases wide <;> decide
  · exact ⟨rfl, rfl, nofun⟩
  · rintro s call _ roomy ⟨enabled, rfl⟩
    exact getCommandLine_roomy (s := { s with block := { s.block with memory := call.memory } }) roomy enabled
  · rintro s call _ roomy holding ⟨enabled, rfl⟩
    exact (getCommandLine_cases (s := { s with block := { s.block with memory := call.memory } }) holding.tame holding.live
      (roomy holding.tame) enabled).2

/-- A line of 81 characters, for which `realloc` gives the block at `answer`. -/
def longCall (answer : Int) : Call := ⟨List.replicate 81 97#8, fun used => if used = bufSize then answer else 0, fun _ => nul⟩

theorem longCall_enabled (answer : Int) : (longCall answer).Enabled wide := by
  constructor
  · intro ch member
    rw [List.eq_of_mem_replicate member]
    decide
  · intro used huge
    apply if_neg
    rintro rfl
    revert huge
    cases wide <;> decide

def started : Caller := allocated true (fun _ => nul) 1000 (by decide)

theorem longCall_run (answer : Int) :
    Run (commandLines true).Step started [(started, longCall answer)] ((commandLines true).next started (longCall answer)) :=
  .snoc .refl ⟨longCall_enabled answer, rfl⟩

theorem full_bufSize_le (full : Full used) : bufSize ≤ used := by
  obtain ⟨k, rfl⟩ := full
  exact Nat.le_mul_of_pos_right bufSize (Nat.two_pow_pos k)

theorem holding_grown_in_place :
    Run (commandLines true).Step started [(started, longCall 1000)] ((commandLines true).next started (longCall 1000)) ∧
    ∀ t ∈ visited [(started, longCall 1000)] ((commandLines true).next started (longCall 1000)), Holding t := by
  refine ⟨longCall_run 1000, (holding_iff_in_place (longCall_run 1000)).mpr ?_⟩
  rw [List.forall_mem_singleton]
  intro used full short
  have here : used = bufSize := Nat.le_antisymm (Nat.le_of_lt_succ short) (full_bufSize_le full)
  subst here
  exact ⟨by decide, fun _ => rfl⟩

theorem moved_is_lost :
    Run (commandLines true).Step started [(started, longCall 2000)] ((commandLines true).next started (longCall 2000)) ∧
    ¬ ∀ t ∈ visited [(started, longCall 2000)] ((commandLines true).next started (longCall 2000)), Holding t := by
  refine ⟨longCall_run 2000, ?_⟩
  intro holding
  have first : Holding (getCommandLine true (longCall 2000).answers (longCall 2000).line started) :=
    holding _ (last_mem_visited _ _)
  have inPlace := (getCommandLine_cases rfl rfl (by decide) (longCall_enabled 2000)).2.mp first
  have same : (2000 : Int) = 1000 := (inPlace bufSize ⟨0, rfl⟩ (by decide)).2 (by decide)
  exact absurd same (by decide)

end Eecs343.TinyShell
