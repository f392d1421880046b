import Eecs343.Kma.Buddy.Joining

namespace Eecs343.Kma.Buddy

open Bytes Effect Linked Transition

variable [Target]

/-- The first half of `kma_free` up to the call that `coalesce` ends with. -/
def upToCall (block size : Int) : C (Option (Int × Int)) := do
  if ← place block size then takePair (baseAddr block + sizeofAllocheader) else return none

/-- A `kma_free` that returns, with the calls of `kma_free` nested in it, outermost first. Each of them frees
    a block twice as long as the two that `coalesce` has just joined. -/
inductive Frees : Machine → Int → Int → List (Int × Int) → Machine → Prop where
  | last {s u t : Machine} {b size : Int} (first : (upToCall b size).run s = .ok (none, u))
      (second : (countDown releasePage b).run u = .ok ((), t)) : Frees s b size [] t
  | nests {s u v t : Machine} {b size a n : Int} {calls : List (Int × Int)}
      (first : (upToCall b size).run s = .ok (some (a, n), u)) (twice : TwicePair u.memory a n)
      (inner : Frees u a n calls v) (second : (countDown releasePage b).run v = .ok ((), t)) :
      Frees s b size ((a, n) :: calls) t

variable {s t u : Machine} {m : Memory} {P P' : Page} {room : Set Int} {next b size a : Int} {k j n depth : Nat}
  {calls : List (Int × Int)}

theorem insertBlock_upToCall (callee : Int → Int → C Unit) (block size : Int) :
    insertBlock (coalesce callee) block size = upToCall block size >>= nested callee := by
  rw [insertBlock_eq, upToCall, bind_assoc]
  congr 1
  funext more
  cases more with
  | false => rfl
  | true => exact coalesce_eq callee _

theorem kmaFreeDepth_succ (depth : Nat) (block size : Int) : kmaFreeDepth (depth + 1) block size =
    upToCall block size >>= fun call => nested (kmaFreeDepth depth) call >>= fun _ => countDown releasePage block := by
  rw [← bind_assoc, ← insertBlock_upToCall]
  rfl

theorem run_kmaFreeDepth {call : Option (Int × Int)} (first : (upToCall b size).run s = .ok (call, u)) :
    (kmaFreeDepth (depth + 1) b size).run s = (nested (kmaFreeDepth depth) call >>= fun _ => countDown releasePage b).run u := by
  rw [kmaFreeDepth_succ, StateT.run_bind, first]
  rfl

omit [Target] in
theorem run_after {x : C Unit} {f : Unit → C Unit} (first : x.run s = .ok ((), u)) : (x >>= f).run s = (f ()).run u := by
  rw [StateT.run_bind, first]
  rfl

theorem Frees.run (frees : Frees s b size calls t) (enough : calls.length < depth) :
    (kmaFreeDepth depth b size).run s = .ok ((), t) := by
  induction frees generalizing depth with
  | last first second =>
    obtain ⟨depth, rfl⟩ := Nat.exists_eq_add_one_of_ne_zero (Nat.ne_of_gt enough)
    rw [run_kmaFreeDepth first]
    exact second
  | nests first _ _ second ih =>
    obtain ⟨depth, rfl⟩ := Nat.exists_eq_add_one_of_ne_zero (Nat.ne_of_gt (Nat.zero_lt_of_lt enough))
    rw [run_kmaFreeDepth first]
    exact (run_after (ih (Nat.lt_of_succ_lt_succ enough))).trans second

/-- `Q` is the page when `coalesce`, called for the block at `b`, frees the parent of a pair: fewer blocks are
    free than before, and the parent, a block of class `j`, is counted as allocated. -/
structure Joined (P : Page) (room : Set Int) (k : Nat) (b : Int) (Q : Page) (j : Nat) (a : Int) : Prop where
  base : Q.base = P.base
  used : Q.used = P.used + 1
  fewer : Q.blocks < P.blocks
  bound : j < 9
  holds : Q.Holds room j a
  separate : Q.Separate j a
  freed : ∀ P', Freed Q j a P' → Freed P k b (P'.addUsed (-1))

omit [Target] in
theorem blocks_insertTail {x : Int} {l : List Int} (list : P.free k = x :: l) (bound : k < 9) :
    (P.setList k (x :: insertTail b l)).blocks ≤ P.blocks + 1 := by
  have one := P.total_setList (fun _ => 1) (x :: insertTail b l) bound
  rw [list] at one
  simp only [List.length_cons, insertTail_length] at one
  change (P.setList k (x :: insertTail b l)).total _ ≤ P.total _ + 1
  split at one <;> omega

theorem Page.Ok.joined {x : Int} {l pre post : List Int} (ok : P.Ok room) (holds : P.Holds room k b)
    (separate : P.Separate k b)
    (bound : k < 9) (list : P.free k = x :: l) (behind : x ≤ b)
    (found : firstPair (P.setList k (x :: insertTail b l)) = some (j, pre, a, post)) :
    Joined P room k b (((P.setList k (x :: insertTail b l)).setList j post).addUsed 1) (j + 1) a := by
  have inserted := ok.insert holds separate bound list behind
  obtain ⟨next, pair, _, holds', separate'⟩ := inserted.parent found
  have more := blocks_insertTail (b := b) list bound
  have removed := (P.setList k (x :: insertTail b l)).total_setList (fun _ => 1) post (firstPair_some found).1
  rw [pair] at removed
  simp only [List.length_cons, List.length_append] at removed
  refine ⟨rfl, rfl, ?_, next, holds'.of_base rfl, separate', ?_⟩
  · change ((P.setList k (x :: insertTail b l)).setList j post).total _ < P.blocks
    change (P.setList k (x :: insertTail b l)).total _ ≤ _ at more
    omega
  · intro P' freed
    have joined := freed.addUsed (-1)
    rw [Page.addUsed_cancel] at joined
    exact .join list behind found joined

theorem upToCall_cases (s : Machine) (sound : Sound m room P next) (reserved : P.base ∉ room) (holds : P.Holds room k b)
    (separate : P.Separate k b) (bound : k < 9) (used : 1 ≤ P.used) (small : P.used ≤ 10 * 8192)
    (rounded : roundUp size = blockSize k) (ladder : sizeClass size = k) :
    (∃ m' P', (upToCall b size).run { s with memory := m } = .ok (none, { s with memory := m' }) ∧
      Freed P k b P' ∧ Sound m' room P' next) ∨
    ∃ m' Q j a, (upToCall b size).run { s with memory := m } = .ok (some (a, blockSize j), { s with memory := m' }) ∧
      TwicePair m' a (blockSize j) ∧ Joined P room k b Q j a ∧ Sound m' room Q next := by
  have header : baseAddr b + sizeofAllocheader = P.header := by
    rw [(Sound.block sound.legal holds).2.2.1]
    rfl
  have fits : Fits 4 (P.used + 1) := by
    constructor <;> norm_num <;> omega
  let post : Option (Int × Int) → Memory → Prop := fun call m' =>
    (call = none ∧ ∃ P', Freed P k b P' ∧ Sound m' room P' next) ∨
      ∃ Q j a, call = some (a, blockSize j) ∧ TwicePair m' a (blockSize j) ∧ Joined P room k b Q j a ∧ Sound m' room Q next
  have spec : wpm (upToCall b size) post s m := by
    unfold upToCall
    rw [header]
    apply wpm_bind
    apply place_spec sound holds separate (holds.class_lt reserved bound) rounded ladder
    · intro m' none placed _
      rw [wpm_neg Bool.false_ne_true, wpm_pure]
      exact .inl ⟨rfl, _, .empty none, placed⟩
    · intro m' x l list before placed _
      rw [wpm_neg Bool.false_ne_true, wpm_pure]
      exact .inl ⟨rfl, _, .front list before, placed⟩
    · intro m' x l list behind placed _
      rw [wpm_pos rfl]
      apply takePair_spec (P := P.setList k (x :: insertTail b l)) placed fits
      · intro none
        exact .inl ⟨rfl, _, .quiet list behind none, placed⟩
      · intro m₂ j pre a rest found taken _ twice
        exact .inr ⟨_, j + 1, a, rfl, twice, sound.ok.joined holds separate bound list behind found, taken⟩
  obtain ⟨call, t, ran, m', same, ⟨rfl, P', freed, sound'⟩ | ⟨Q, j, a, rfl, twice, joined, sound'⟩⟩ := wp_returns spec
  · subst same
    exact .inl ⟨m', P', ran, freed, sound'⟩
  · subst same
    exact .inr ⟨m', Q, j, a, ran, twice, joined, sound'⟩

theorem run_countDown (s : Machine) (sound : Sound m room P next) (holds : P.Holds room k b) (counted : 2 ≤ P.used)
    (small : P.used ≤ 10 * 8192) : ∃ m', (countDown releasePage b).run { s with memory := m } = .ok ((), { s with memory := m' }) ∧
      Sound m' room (P.addUsed (-1)) next := by
  have spec : wpm (s := s) (countDown releasePage b) _ m := countDown_spec sound holds counted small
  obtain ⟨_, t, ran, m', same, sound', _⟩ := wp_returns spec
  subst same
  exact ⟨m', ran, sound'⟩

/-- The nested frees end, since each finds fewer free blocks than the one around it; the lists are then those
    of a page on which the block has been freed. -/
theorem frees_nested (s : Machine) (enough : P.blocks < n) (sound : Sound m room P next) (reserved : P.base ∉ room)
    (holds : P.Holds room k b) (separate : P.Separate k b) (bound : k < 9) (used : 2 ≤ P.used)
    (small : P.used + P.blocks ≤ 10 * 8192) :
    ∃ calls m' P', Frees { s with memory := m } b (blockSize k) calls { s with memory := m' } ∧ calls.length < n ∧
      Freed P k b P' ∧ Sound m' room (P'.addUsed (-1)) next := by
  have positive := P.blocks_nonneg
  induction n generalizing m P k b with
  | zero => omega
  | succ n ih =>
    rcases upToCall_cases s sound reserved holds separate bound (by omega) (by omega) (roundUp_blockSize bound)
        (sizeClass_blockSize bound) with ⟨m₁, P', first, freed, sound₁⟩ | ⟨m₁, Q, j, a, first, twice, joined, sound₁⟩
    · have count := freed.used
      obtain ⟨m₂, second, sound₂⟩ := run_countDown s sound₁ (holds.of_base freed.base) (by omega) (by omega)
      exact ⟨[], m₂, P', .last first second, Nat.zero_lt_succ n, freed, sound₂⟩
    · have count := joined.used
      have fewer := joined.fewer
      have reserved' : Q.base ∉ room := joined.base.symm ▸ reserved
      obtain ⟨calls, m₂, P', inner, short, freed, sound₂⟩ := ih (by omega) sound₁ reserved' joined.holds joined.separate
        joined.bound (by omega) (by omega) Q.blocks_nonneg
      have left : (P'.addUsed (-1)).used = P.used := by
        rw [Page.addUsed_used, freed.used]
        omega
      have base : (P'.addUsed (-1)).base = P.base := freed.base.trans joined.base
      obtain ⟨m₃, second, sound₃⟩ := run_countDown s sound₂ (holds.of_base base) (by omega) (by omega)
      exact ⟨_, m₃, _, .nests first twice inner second, Nat.succ_lt_succ short, joined.freed P' freed, sound₃⟩

/-- What a live block of a page is to `kma_free`: a block of the class of its size among the bytes that are on
    no list, or the one block that has the page whole. It is counted. -/
inductive Page.Live (P : Page) (room : Set Int) (b size : Int) : Prop where
  | carved (low : 1 ≤ size) (high : size ≤ 8192) (holds : P.Holds room (sizeClass size) b)
    (separate : P.Separate (sizeClass size) b) (used : 1 ≤ P.used) (small : P.used ≤ 8192)
  | whole (empty : ∀ k < 9, P.free k = []) (start : b = P.header + 21 * ptr) (used : P.used = 1)

variable {rooms : Int → Set Int} {l r : List Page}

/-- Where the page is at the end: given back with its last block, or with well-formed lists. -/
def Left (t : Machine) (rooms : Int → Set Int) (l : List Page) (P : Page) (r : List Page) : Prop :=
  P.used = 1 ∧ Heap t rooms (l ++ r) ∨ ∃ P', P'.base = P.base ∧ Heap t rooms (l ++ P' :: r)

theorem Page.Live.returns (live : P.Live (rooms P.base) b size) (heap : Heap s rooms (l ++ P :: r))
    (reserved : P.base ∉ rooms P.base) : ∃ t, (kmaFree b size).run s = .ok ((), t) ∧ Left t rooms l P r := by
  have returns : wp (kmaFree b size) (fun _ t => Left t rooms l P r) (fun _ => False) s := by
    cases live with
    | carved low high holds separate used small =>
      apply kmaFree_spec heap reserved holds separate (sizeClass_lt size) used small (roundUp_sizeClass low high) rfl
      · exact fun one t heap' => .inl ⟨one, heap'⟩
      · exact fun _ t P' freed heap' => .inr ⟨P'.addUsed (-1), freed.base, heap'⟩
    | whole empty start used => exact kmaFree_whole heap empty used start fun t heap' => .inl ⟨used, heap'⟩
  obtain ⟨_, t, ran, left⟩ := wp_returns returns
  exact ⟨t, ran, left⟩

/-- The first half with its nested frees; `v` is where the second half begins. -/
theorem Page.Live.nested (live : P.Live (rooms P.base) b size) (heap : Heap s rooms (l ++ P :: r))
    (reserved : P.base ∉ rooms P.base) :
    (∃ u, (upToCall b size).run s = .ok (none, u)) ∨
    ∃ u a n calls v, (upToCall b size).run s = .ok (some (a, n), u) ∧ TwicePair u.memory a n ∧ Frees u a n calls v ∧
      calls.length < fuel - 1 := by
  have sound := heap.member
  cases live with
  | carved low high holds separate used small =>
    have few := sound.ok.blocks_le
    rcases upToCall_cases s sound reserved holds separate (sizeClass_lt size) used (by omega) (roundUp_sizeClass low high) rfl
        with ⟨m₁, P', first, _⟩ | ⟨m₁, Q, j, a, first, twice, joined, sound₁⟩
    · exact .inl ⟨_, first⟩
    · have count := joined.used
      have fewer := joined.fewer
      have reserved' : Q.base ∉ rooms P.base := joined.base.symm ▸ reserved
      obtain ⟨calls, m₂, _, inner, short, _⟩ := frees_nested (n := 9 * 8192) s (by omega) sound₁ reserved' joined.holds
        joined.separate joined.bound (by omega) (by omega)
      exact .inr ⟨_, a, _, calls, _, first, twice, inner, Nat.lt_trans short (by decide)⟩
  | whole empty start used =>
    have page : baseAddr b + sizeofAllocheader = P.header := by
      have := ptr_bounds
      have := header_eq P
      rw [sound.legal.baseAddr (by omega) (by omega)]
      rfl
    have single : wpm (upToCall b size) (fun call _ => call = none) s s.memory := by
      unfold upToCall
      apply wpm_bind
      apply wpm_mono (sound.place_whole empty start)
      intro more m' ⟨ended, _⟩
      subst ended
      rw [wpm_neg Bool.false_ne_true, wpm_pure]
    obtain ⟨_, u, ran, _, _, rfl⟩ := wp_returns single
    exact .inl ⟨u, ran⟩

/-- `kma_free` of a live block returns, whatever its depth is bounded by, if only by more than the calls it
    nests; each of these frees a block of twice the length of the pair just joined, and all lists are well formed
    at the end. -/
theorem free_terminates (heap : Heap s rooms (l ++ P :: r)) (reserved : P.base ∉ rooms P.base)
    (live : P.Live (rooms P.base) b size) : ∃ calls t, Frees s b size calls t ∧
      (∀ depth, calls.length < depth → (kmaFreeDepth depth b size).run s = .ok ((), t)) ∧
      (kmaFree b size).run s = .ok ((), t) ∧ Left t rooms l P r := by
  obtain ⟨t, ran, left⟩ := live.returns heap reserved
  have whole := ran
  unfold kmaFree at ran
  rw [← fuel_pred 1 (by decide)] at ran
  -- the second half follows at once, or behind the call that `coalesce` ends with
  rcases live.nested heap reserved with ⟨u, first⟩ | ⟨u, a, n, calls, v, first, twice, inner, short⟩
  · rw [run_kmaFreeDepth first] at ran
    have frees : Frees s b size [] t := .last first ran
    exact ⟨[], t, frees, fun depth enough => frees.run enough, whole, left⟩
  · rw [run_kmaFreeDepth first] at ran
    have second := (run_after (inner.run short)).symm.trans ran
    have frees : Frees s b size _ t := .nests first twice inner second
    exact ⟨_, t, frees, fun depth enough => frees.run enough, whole, left⟩

theorem Inv.live {live : List (Int × Int)} {p : Int} (inv : Inv ⟨s, live⟩ (l ++ P :: r)) (member : (p, size) ∈ live)
    (page : baseAddr p = P.base) : P.Live (Buddy.room (live.erase (p, size)) P.base) p size := by
  have inside : P ∈ l ++ P :: r := by simp
  have here : (p, size) ∈ own live P := mem_own.mpr ⟨member, page⟩
  have count := inv.books.used P inside
  cases inv.books.shared P inside with
  | carved carries _ =>
    have carries := carries _ here
    have spare := inv.spare member carries
    have small : size + 3 * ptr ≤ 4096 := carries.small
    have few := inv.books.few inside
    have bounds := ptr_bounds
    exact .carved carries.positive (by omega) spare.holds spare.separate (inv.used_pos member page) (by omega)
  | whole only _ _ start empty =>
    rw [only] at here count
    cases List.mem_singleton.mp here
    exact .whole empty start count

omit [Target] in
/-- Of four blocks of 64 bytes the fourth and the second are free, and the third is freed. -/
theorem free_terminates_of_four : ∃ target : Target, target.ptr = 8 ∧ ∃ steps w P, Calls buddyAllocator idle steps w ∧
    P.free 1 = [8512, 8640] ∧ Heap w.machine (Buddy.room w.live) [P] ∧
      ∃ calls t, Frees w.machine 8576 40 calls t ∧ (kmaFree 8576 40).run w.machine = .ok ((), t) := by
  let target : Target := ⟨8, .inr rfl⟩
  obtain ⟨steps, ⟨s, live⟩, P, run, inv, used, base, zero, one, two, rfl, _⟩ := four_blocks
  obtain ⟨t₅, P₅, step₅, freed₅, inv₅⟩ := inv.free_single (p := 8640) List.mem_cons_self (by omega)
  obtain rfl := freed₅.of_none one
  obtain ⟨t₆, P₆, step₆, freed₆, inv₆⟩ := inv₅.free_single (p := 8512) (List.mem_of_elem_eq_true (a := (8512, 40)) rfl)
    (by rw [Page.addUsed_used, Page.setList_used, used]; decide)
  obtain rfl := freed₆.of_front (show _ = [8640] from rfl) (by decide)
  have member : (8576, 40) ∈ [((8576 : Int), (40 : Int)), (8448, 40)] := List.mem_cons_self
  have live := inv₆.live (l := []) member base.symm
  have heap : Heap t₆ (Buddy.room ([((8576 : Int), (40 : Int)), (8448, 40)].erase (8576, 40))) _ :=
    inv₆.heap.widen fun q inside => List.mem_of_mem_erase inside
  obtain ⟨calls, t, frees, _, ran, _⟩ := free_terminates (l := []) heap (room_reserved _ _) live
  exact ⟨target, rfl, _, _, _, ⟨run.1, .snoc (.snoc run.2 step₅) step₆⟩, rfl, inv₆.heap, calls, t, frees, ran⟩

end Eecs343.Kma.Buddy
