import Eecs343.Kma.Buddy.Free

namespace Eecs343.Kma.Buddy

open Bytes Linked

variable [Target]

variable {s : Machine} {m m' : Memory} {P P' : Page} {room : Set Int} {next : Int} {j k : Nat} {b : Int}
  {l : List Int}

/-- `coalesce` without the call of `kma_free` it ends with: the arguments of that call, if it comes. -/
def takePair (header : Int) : C (Option (Int × Int)) := do
  let (list, block) ← findBuffer fuel (getRequiredBuffer 1 header)
  if block ≠ 0 then
    let next ← readPtr block (2 * ptr)
    writePtr list 0 (← readPtr next (2 * ptr))
    writeInt header (20 * ptr) ((← readInt header (20 * ptr)) + 1)
    return some (block, (← readInt block ptr) * 2)
  else return none

/-- The call that a computation ends with, if it ends with one. -/
def nested (callee : Int → Int → C Unit) : Option (Int × Int) → C Unit
  | none => pure ()
  | some (block, size) => callee block size

theorem coalesce_eq (callee : Int → Int → C Unit) (header : Int) :
    coalesce callee header = takePair header >>= nested callee := by
  unfold coalesce takePair
  simp only [bind_assoc]
  congr 1
  funext found
  split
  · simp only [bind_assoc, pure_bind, nested]
  · simp only [pure_bind, nested]

/-- `a` is the left one of two buddies in memory that follow each other on a list, and `size` is twice the
    length of either. -/
structure TwicePair (m : Memory) (a size : Int) : Prop where
  next : load m ptr (a + 2 * ptr) = a + load m 4 (a + ptr)
  same : load m 4 (load m ptr (a + 2 * ptr) + ptr) = load m 4 (a + ptr)
  twice : size = 2 * load m 4 (a + ptr)

/-- `coalesce` either finds no pair of buddies, or takes the first one off its list with all the
    blocks before it, counts it as allocated, and frees their parent. -/
theorem takePair_spec {post : Option (Int × Int) → Memory → Prop}
    (sound : Sound m room P next) (fits : Fits 4 (P.used + 1)) (quiet : firstPair P = none → post none m)
    (join : ∀ m' j pre a rest, firstPair P = some (j, pre, a, rest) →
      Sound m' room ((P.setList j rest).addUsed 1) next → Frame P.header room m m' → TwicePair m' a (blockSize (j + 1)) →
      post (some (a, blockSize (j + 1))) m') :
    wpm (takePair P.header) post s m := by
  have := ptr_bounds
  unfold takePair
  rw [show getRequiredBuffer 1 P.header = slot P.header 0 from if_neg (header_ne sound.legal)]
  apply wpm_bind
  refine wpm_mono (findBuffer_spec sound (d := 9) (show 9 < fuel from by decide) rfl) ?_
  rintro r m' ⟨rfl, found⟩
  rw [← List.range_eq_range', show (List.range 9).findSome? _ = firstPair P from rfl] at found
  cases pair : firstPair P with
  | none =>
    rw [pair] at found
    subst found
    rw [wpm_neg (by simp), wpm_pure]
    exact quiet pair
  | some found' =>
    obtain ⟨j, pre, a, rest⟩ := found'
    rw [pair] at found
    subst found
    obtain ⟨bound, list, ok, holds, _⟩ := sound.ok.parent pair
    replace bound : j < 9 := by omega
    have memberA : a ∈ P.free j := by simp [list]
    have nonzero := (Sound.block sound.legal (sound.ok.holds j bound _ memberA)).1
    have memberC : a + blockSize j ∈ P.free j := by simp [list]
    have nonzeroC := (Sound.block sound.legal (sound.ok.holds j bound _ memberC)).1
    have listed := sound.rep.lists j bound
    rw [list] at listed
    obtain ⟨first, _, _, nextA, path⟩ := path_append.mp listed.path
    replace nextA : load m' ptr (a + 2 * ptr) = a + blockSize j := nextA
    have size : load m' 4 (a + ptr) = blockSize j := listed.size a (by simp)
    have tail : FreeList m' j (load m' ptr (a + blockSize j + 2 * ptr)) rest :=
      ⟨path, fun w member => listed.size w (by simp [member])⟩
    obtain ⟨placed, frame⟩ := sound.setFirst ok bound tail
    simp only [Option.map_some, Option.getD_some]
    rw [wpm_pos nonzero, wpm_read_bind, nextA]
    refine ⟨nonzero, ?_⟩
    rw [wpm_read_bind]
    refine ⟨nonzeroC, ?_⟩
    rw [wpm_write_bind, Int.add_zero]
    refine ⟨buffer_ne sound.legal bound, ?_⟩
    refine placed.count fits fun m₂ counted frame' => ?_
    have := header_eq P
    have positive := blockSize_pos j
    have low := holds.low
    rw [P.setList_base] at low
    have kept : ∀ (n : Nat) (p : Int), (∀ x, p ≤ x → x < p + n → x < P.header ∨ P.header + 21 * ptr ≤ x) →
        load m₂ n p = load m' n p := fun n p away =>
      load_congr fun x low high => (frame.trans frame') x (Set.notMem_empty x) (away x low high)
    have length : load m₂ 4 (a + ptr) = blockSize j := by rw [kept 4 _ (by omega), size]
    have follows : load m₂ ptr (a + 2 * ptr) = a + blockSize j := by rw [kept ptr _ (by omega), nextA]
    have twice : TwicePair m₂ a (blockSize (j + 1)) := by
      refine ⟨by rw [follows, length], ?_, by rw [length, blockSize_succ]⟩
      have lowC := (sound.ok.holds j bound _ memberC).low
      rw [follows, length, kept 4 _ (by omega)]
      exact listed.size _ (by simp)
    rw [wpm_read_bind, length, Int.mul_comm, ← blockSize_succ, wpm_pure]
    exact ⟨nonzero, join m₂ j pre a rest pair counted (frame.trans frame').widen twice⟩

theorem coalesce_spec {callee : Int → Int → C Unit} {post : Unit → Memory → Prop}
    (sound : Sound m room P next) (fits : Fits 4 (P.used + 1)) (quiet : firstPair P = none → post () m)
    (join : ∀ m' j pre a rest, firstPair P = some (j, pre, a, rest) →
      Sound m' room ((P.setList j rest).addUsed 1) next → Frame P.header room m m' →
      wpm (callee a (blockSize (j + 1))) post s m') :
    wpm (coalesce callee P.header) post s m := by
  rw [coalesce_eq]
  apply wpm_bind
  apply takePair_spec sound fits
  · intro none
    exact (wpm_pure () post).mpr (quiet none)
  · intro m' j pre a rest found taken frame _
    exact join m' j pre a rest found taken frame

/-- `kma_free` with another end for a page without live blocks. -/
def kmaFreeWith (release : Int → C Unit) : Nat → Int → Int → C Unit
  | 0, _, _ => throw .diverges
  | n + 1, block, size => do
    insertBlock (coalesce (kmaFreeWith release n)) block size
    let header := baseAddr block + sizeofAllocheader
    writeInt header (20 * ptr) ((← readInt header (20 * ptr)) - 1)
    if (← readInt header (20 * ptr)) = 0 then
      release header

/-- The second half of `kma_free`. -/
def countDown (release : Int → C Unit) (block : Int) : C Unit := do
  let header := baseAddr block + sizeofAllocheader
  writeInt header (20 * ptr) ((← readInt header (20 * ptr)) - 1)
  if (← readInt header (20 * ptr)) = 0 then
    release header

theorem kmaFreeWith_succ (release : Int → C Unit) (n : Nat) (block size : Int) : kmaFreeWith release (n + 1) block size =
    insertBlock (coalesce (kmaFreeWith release n)) block size >>= fun _ => countDown release block := rfl

theorem kmaFreeDepth_eq (n : Nat) : kmaFreeDepth n = kmaFreeWith releasePage n := by
  induction n with
  | zero => rfl
  | succ n ih =>
    funext block size
    rw [kmaFreeDepth, kmaFreeWith, ih]

/-- What `coalesce` does to the lists of a page: nothing, or the free of the first parent. -/
inductive Coalesces : Page → Page → Prop where
  | quiet {P : Page} (none : firstPair P = none) : Coalesces P P
  | join {P P' : Page} {j pre a post} (found : firstPair P = some (j, pre, a, post))
      (rest : Freed (P.setList j post) (j + 1) a P') : Coalesces P P'

section With

variable {release : Int → C Unit} {n : Nat} {size : Int}

theorem countDown_spec (sound : Sound m room P next) (holds : P.Holds room k b) (counted : 2 ≤ P.used)
    (small : P.used ≤ 10 * 8192) :
    wpm (countDown release b) (fun _ m' => Sound m' room (P.addUsed (-1)) next ∧ Frame P.header ∅ m m') s m := by
  have header : baseAddr b + sizeofAllocheader = P.header := by
    rw [(Sound.block sound.legal holds).2.2.1]
    rfl
  have fits : Fits 4 (P.used + -1) := by
    constructor <;> norm_num <;> omega
  unfold countDown
  dsimp only
  rw [header]
  apply sound.count fits
  intro m' counted' frame
  have now : load m' 4 (P.header + 20 * ptr) = P.used - 1 := counted'.rep.used
  have more : P.used - 1 ≠ 0 := by omega
  rw [wpm_read_bind, now, wpm_neg more, wpm_pure]
  exact ⟨header_ne sound.legal, counted', frame⟩

theorem kmaFreeWith_spec (holds : P.Holds room k b) (counted : 2 ≤ P.used) (small : P.used ≤ 10 * 8192)
    (inserted : wpm (insertBlock (coalesce (kmaFreeWith release n)) b size) (fun _ m' =>
      ∃ P', Freed P k b P' ∧ Sound m' room P' next ∧ Frame P.header room m m') s m) :
    wpm (kmaFreeWith release (n + 1) b size) (fun _ m' =>
      ∃ P', Freed P k b P' ∧ Sound m' room (P'.addUsed (-1)) next ∧ Frame P.header room m m') s m := by
  rw [kmaFreeWith_succ]
  apply wpm_bind
  apply wpm_mono inserted
  intro _ m₁ ⟨P', freed, sound, frame⟩
  have base : P'.header = P.header := by rw [header_eq, freed.base]; rfl
  have used : P'.used = P.used := freed.used
  apply wpm_mono (countDown_spec sound (holds.of_base freed.base) (by omega) (by omega))
  intro _ m₂ ⟨counted', frame'⟩
  rw [base] at frame'
  exact ⟨P', freed, counted', frame.trans frame'.widen⟩

/-- The frees that `coalesce` nests find the block they free counted, so they release no page. -/
theorem coalesce_freed (enough : P.blocks ≤ n + 1) (sound : Sound m room P next) (reserved : P.base ∉ room)
    (used : 1 ≤ P.used) (small : P.used + P.blocks ≤ 10 * 8192 + 1)
    (inserted : ∀ {Q : Page} {j : Nat} {a : Int} {m' : Memory}, Q.blocks < n → Sound m' room Q next → Q.base ∉ room →
      Q.Holds room j a → Q.Separate j a → j < 9 → 1 ≤ Q.used → Q.used + Q.blocks ≤ 10 * 8192 →
      wpm (insertBlock (coalesce (kmaFreeWith release n)) a (blockSize j)) (fun _ m'' =>
        ∃ Q', Freed Q j a Q' ∧ Sound m'' room Q' next ∧ Frame Q.header room m' m'') s m') :
    wpm (coalesce (kmaFreeWith release (n + 1)) P.header) (fun _ m' =>
      ∃ P', Coalesces P P' ∧ Sound m' room P' next ∧ Frame P.header room m m') s m := by
  have positive := P.blocks_nonneg
  have fits : Fits 4 (P.used + 1) := by
    constructor <;> norm_num <;> omega
  apply coalesce_spec sound fits
  · intro none
    exact ⟨P, .quiet none, sound, .refl _ _ _⟩
  · intro m₁ j pre a post found taken frame
    obtain ⟨bound, pair, _, holds, separate⟩ := sound.ok.parent found
    have fewer := P.total_setList (fun _ => 1) post (firstPair_some found).1
    rw [pair] at fewer
    simp only [List.length_cons, List.length_append] at fewer
    have removed : ((P.setList j post).addUsed 1).blocks ≤ P.blocks - 2 := by
      change (P.setList j post).total _ ≤ P.total _ - 2
      omega
    have left := ((P.setList j post).addUsed 1).blocks_nonneg
    have counted : ((P.setList j post).addUsed 1).used = P.used + 1 := rfl
    have freed :=
      inserted (a := a) (j := j + 1) (by omega) taken reserved (holds.of_base rfl) separate bound (by omega) (by omega)
    apply wpm_mono (kmaFreeWith_spec (P := (P.setList j post).addUsed 1) (holds.of_base rfl) (by omega) (by omega) freed)
    intro _ m₂ ⟨P', freed, sound', frame'⟩
    have joined := freed.addUsed (-1)
    rw [Page.addUsed_cancel] at joined
    exact ⟨P'.addUsed (-1), .join found joined, sound', frame.trans frame'⟩

/-- The first half of `kma_free`, with the frees that `coalesce` nests in it: the block is freed as
    `Freed` says. -/
theorem insertBlock_freed (enough : P.blocks < n) (sound : Sound m room P next)
    (reserved : P.base ∉ room) (holds : P.Holds room k b) (separate : P.Separate k b) (bound : k < 9)
    (used : 1 ≤ P.used) (small : P.used + P.blocks ≤ 10 * 8192) (rounded : roundUp size = blockSize k)
    (ladder : sizeClass size = k) :
    wpm (insertBlock (coalesce (kmaFreeWith release n)) b size) (fun _ m' =>
      ∃ P', Freed P k b P' ∧ Sound m' room P' next ∧ Frame P.header room m m') s m := by
  have positive := P.blocks_nonneg
  induction n generalizing m P k b size with
  | zero => omega
  | succ n ih =>
    apply insertBlock_spec sound holds separate (holds.class_lt reserved bound) rounded ladder
    · exact fun m' none placed frame => ⟨_, .empty none, placed, frame⟩
    · exact fun m' x l list before placed frame => ⟨_, .front list before, placed, frame⟩
    · intro m' x l list behind placed frame
      have one := P.total_setList (fun _ => 1) (x :: insertTail b l) bound
      rw [list] at one
      simp only [List.length_cons, insertTail_length] at one
      have more : (P.setList k (x :: insertTail b l)).blocks ≤ P.blocks + 1 := by
        change (P.setList k (x :: insertTail b l)).total _ ≤ P.total _ + 1
        split at one <;> omega
      have same : (P.setList k (x :: insertTail b l)).used = P.used := rfl
      apply wpm_mono (coalesce_freed (P := P.setList k (x :: insertTail b l)) (by omega) placed reserved (by omega) (by omega) ?_)
      · intro _ m₂ ⟨P', coalesces, sound', frame'⟩
        refine ⟨P', ?_, sound', frame.trans frame'⟩
        cases coalesces with
        | quiet none => exact .quiet list behind none
        | join found rest => exact .join list behind found rest
      · intro Q j a m' enough sound reserved holds separate bound used small
        exact ih enough sound reserved holds separate bound used small (roundUp_blockSize bound)
          (sizeClass_blockSize bound) Q.blocks_nonneg

end With

end Eecs343.Kma.Buddy
