import Eecs343.Kma.Buddy.Progress
import Mathlib.Logic.Relation

namespace Eecs343.Kma.Buddy

open Bytes Effect Linked Relation Transition

variable {P P' Q R : Page} {b a : Int} {j k : Nat}

def Page.bytes (P : Page) : Set Int := {x | ∃ k < 9, ∃ b ∈ P.free k, b ≤ x ∧ x < b + blockSize k}

/-- A block has joined the list of class `k`. -/
structure Adds (P : Page) (k : Nat) (b : Int) (Q : Page) : Prop where
  base : Q.base = P.base
  used : Q.used = P.used
  list : (Q.free k).Perm (b :: P.free k)
  others : ∀ j, j ≠ k → Q.free j = P.free j

/-- Two buddies of class `j` have left their list for their parent: nothing else is changed. -/
structure Joins (P : Page) (j : Nat) (a : Int) (Q : Page) : Prop where
  bound : j + 1 < 9
  base : Q.base = P.base
  used : Q.used = P.used
  buddies : buddy P.base j a = a + blockSize j
  pair : (P.free j).Perm (a :: (a + blockSize j) :: Q.free j)
  parent : (Q.free (j + 1)).Perm (a :: P.free (j + 1))
  others : ∀ i, i ≠ j → i ≠ j + 1 → Q.free i = P.free i

/-- Some pairs of buddies have been joined one after the other, and the free bytes are the same. -/
structure Keeps (P Q : Page) : Prop where
  joined : ReflTransGen (fun P Q => ∃ j a, Joins P j a Q) P Q
  bytes : Q.bytes = P.bytes

theorem Joins.bytes (joins : Joins P j a Q) : Q.bytes = P.bytes := by
  have double := blockSize_succ j
  have positive := blockSize_pos j
  have bound := joins.bound
  ext x
  constructor
  · intro ⟨k, inside, b, member, low, high⟩
    by_cases parent : k = j + 1
    · subst parent
      rcases List.mem_cons.mp (joins.parent.subset member) with rfl | old
      · by_cases left : x < b + blockSize j
        · exact ⟨j, by omega, b, joins.pair.symm.subset List.mem_cons_self, low, left⟩
        · have second := joins.pair.symm.subset (List.mem_cons_of_mem _ List.mem_cons_self)
          exact ⟨j, by omega, _, second, by omega, by omega⟩
      · exact ⟨j + 1, inside, b, old, low, high⟩
    · by_cases same : k = j
      · subst same
        have old := joins.pair.symm.subset (List.mem_cons_of_mem _ (List.mem_cons_of_mem _ member))
        exact ⟨k, inside, b, old, low, high⟩
      · exact ⟨k, inside, b, joins.others k same parent ▸ member, low, high⟩
  · intro ⟨k, inside, b, member, low, high⟩
    have parent := joins.parent.symm.subset List.mem_cons_self
    by_cases same : k = j
    · subst same
      rcases List.mem_cons.mp (joins.pair.subset member) with rfl | rest
      · exact ⟨k + 1, bound, b, parent, low, by omega⟩
      · rcases List.mem_cons.mp rest with rfl | kept
        · exact ⟨k + 1, bound, a, parent, by omega, by omega⟩
        · exact ⟨k, inside, b, kept, low, high⟩
    · by_cases next : k = j + 1
      · subst next
        exact ⟨j + 1, inside, b, joins.parent.symm.subset (List.mem_cons_of_mem _ member), low, high⟩
      · exact ⟨k, inside, b, (joins.others k same next).symm ▸ member, low, high⟩

theorem Joins.freeBytes (joins : Joins P j a Q) : Q.freeBytes = P.freeBytes := by
  have bound := joins.bound
  have lists : Q = ((P.setList j (Q.free j)).setList (j + 1) (Q.free (j + 1))).addUsed 0 := by
    ext1
    · exact joins.base
    · exact joins.used.trans (Int.add_zero _).symm
    · funext i
      rw [Page.addUsed_free]
      by_cases next : i = j + 1
      · rw [next, Page.setList_self]
      · rw [Page.setList_ne _ _ next]
        by_cases same : i = j
        · rw [same, Page.setList_self]
        · rw [Page.setList_ne _ _ same, joins.others i same next]
  have first := P.freeBytes_setList (Q.free j) (k := j) (by omega)
  have second := (P.setList j (Q.free j)).freeBytes_setList (Q.free (j + 1)) bound
  rw [Page.setList_ne _ _ (Nat.succ_ne_self j)] at second
  have pair := joins.pair.length_eq
  have parent := joins.parent.length_eq
  rw [List.length_cons, List.length_cons] at pair
  rw [List.length_cons] at parent
  rw [pair] at first
  rw [parent] at second
  rw [lists]
  change ((P.setList j (Q.free j)).setList (j + 1) (Q.free (j + 1))).freeBytes = P.freeBytes
  rw [second, first, blockSize_succ]
  push_cast
  ring

theorem joined_freeBytes (joined : ReflTransGen (fun P Q => ∃ j a, Joins P j a Q) P Q) : Q.freeBytes = P.freeBytes := by
  induction joined with
  | refl => rfl
  | tail _ last ih =>
    obtain ⟨j, a, joins⟩ := last
    exact joins.freeBytes.trans ih

theorem joined_base (joined : ReflTransGen (fun P Q => ∃ j a, Joins P j a Q) P Q) : Q.base = P.base := by
  induction joined with
  | refl => rfl
  | tail _ last ih =>
    obtain ⟨j, a, joins⟩ := last
    exact joins.base.trans ih

theorem Keeps.of_joined (joined : ReflTransGen (fun P Q => ∃ j a, Joins P j a Q) P Q) : Keeps P Q := by
  refine ⟨joined, ?_⟩
  induction joined with
  | refl => rfl
  | tail _ last ih =>
    obtain ⟨j, a, joins⟩ := last
    exact joins.bytes.trans ih

theorem Adds.setList {l : List Int} (list : l.Perm (b :: P.free k)) : Adds P k b (P.setList k l) where
  base := rfl
  used := rfl
  list := by rwa [Page.setList_self]
  others i ne := Page.setList_ne _ _ ne

theorem Adds.joins (bound : j + 1 < 9) (buddies : buddy P.base j a = a + blockSize j) {post : List Int}
    (pair : P.free j = a :: (a + blockSize j) :: post) (adds : Adds (P.setList j post) (j + 1) a Q) : Joins P j a Q where
  bound := bound
  base := adds.base
  used := adds.used
  buddies := buddies
  pair := by
    rw [pair, adds.others j (Nat.succ_ne_self j).symm, Page.setList_self]
  parent := by
    have list := adds.list
    rwa [Page.setList_ne _ _ (Nat.succ_ne_self j)] at list
  others i ne next := by
    rw [adds.others i next, Page.setList_ne _ _ ne]

theorem Adds.behind {x : Int} {l : List Int} (list : P.free k = x :: l) (behind : x ≤ b) (keeps : ¬ Loses P k b) :
    Adds P k b (P.setList k (x :: insertTail b l)) := by
  have larger : ∃ y ∈ l, b < y := by
    by_contra none
    apply keeps
    apply Loses.beyond list
    intro y member
    rcases List.mem_cons.mp member with rfl | member
    · exact behind
    · by_contra above
      exact none ⟨y, member, Int.not_le.mp above⟩
  apply Adds.setList
  rw [list]
  exact ((insertTail_perm larger).cons x).trans (.swap b x l)

variable [Target] {room : Set Int}

/-- A free that loses no bytes puts its block on its list and joins buddies from there. -/
theorem Freed.joined (freed : Freed P k b P') (ok : P.Ok room) (holds : P.Holds room k b) (separate : P.Separate k b)
    (bound : k < 9) (keeps : ¬ Loses P k b) :
    ∃ Q, Adds P k b Q ∧ ReflTransGen (fun P Q => ∃ j a, Joins P j a Q) Q P' := by
  induction freed with
  | @empty P k b none =>
    refine ⟨_, .setList ?_, .refl⟩
    rw [none]
  | @front P k b x l list before =>
    refine ⟨_, .setList ?_, .refl⟩
    rw [list]
  | @quiet P k b x l list behind none => exact ⟨_, .behind list behind keeps, .refl⟩
  | @join P k b x l j pre a post P' list behind found rest ih =>
    have inserted := ok.insert holds separate bound list behind
    obtain ⟨next, pair, ok', holds', separate'⟩ := inserted.parent found
    have first : pre = [] := by
      cases pre with
      | nil => rfl
      | cons y pre => exact absurd (.before list behind found) keeps
    subst first
    obtain ⟨R, adds, joined⟩ := ih ok' holds' separate' next fun loses => keeps (.later list behind found loses)
    have joins := adds.joins next (inserted.buddies found) pair
    exact ⟨_, .behind list behind keeps, .head ⟨j, a, joins⟩ joined⟩

omit [Target] in
theorem Coalesces.base (coalesces : Coalesces P P') : P'.base = P.base := by
  cases coalesces with
  | quiet => rfl
  | join found rest => exact rest.base

/-- `coalesce` keeps the free bytes exactly when the first pair of buddies heads its list and the free
    of its parent loses none. -/
theorem Coalesces.freeBytes_iff (coalesces : Coalesces P P') (ok : P.Ok room) : P'.freeBytes = P.freeBytes ↔
    firstPair P = none ∨ ∃ j a post, firstPair P = some (j, [], a, post) ∧ ¬ Loses (P.setList j post) (j + 1) a := by
  cases coalesces with
  | quiet none => exact ⟨fun _ => .inl none, fun _ => rfl⟩
  | @join _ j pre a post found rest =>
    obtain ⟨next, pair, ok', holds', separate'⟩ := ok.parent found
    obtain ⟨most, exactly⟩ := rest.freeBytes ok' holds' separate' next
    have removed := P.freeBytes_setList post (firstPair_some found).1
    rw [pair] at removed
    simp only [List.length_cons, List.length_append, Nat.cast_add, Nat.cast_one] at removed
    have after : (P.setList j post).freeBytes + blockSize (j + 1) = P.freeBytes - blockSize j * pre.length := by
      rw [removed, blockSize_succ]
      ring
    rw [found]
    constructor
    · intro same
      have positive := blockSize_pos j
      have first : pre = [] := by
        by_contra some
        have longer := List.length_pos_of_ne_nil some
        have lost : blockSize j ≤ blockSize j * pre.length := le_mul_of_one_le_right (by omega) (by omega)
        omega
      subst first
      refine .inr ⟨j, a, post, rfl, exactly.mp ?_⟩
      rw [after, same]
      simp
    · intro keeps
      obtain ⟨_, _, _, same, kept⟩ := keeps.resolve_left nofun
      cases same
      rw [exactly.mpr kept, after]
      simp

theorem Coalesces.joined (coalesces : Coalesces P P') (ok : P.Ok room)
    (keeps : firstPair P = none ∨ ∃ j a post, firstPair P = some (j, [], a, post) ∧ ¬ Loses (P.setList j post) (j + 1) a) :
    ReflTransGen (fun P Q => ∃ j a, Joins P j a Q) P P' := by
  cases coalesces with
  | quiet => exact .refl
  | @join _ j pre a post found rest =>
    rw [found] at keeps
    obtain ⟨_, _, _, same, kept⟩ := keeps.resolve_left nofun
    cases same
    obtain ⟨next, pair, ok', holds', separate'⟩ := ok.parent found
    obtain ⟨R, adds, joined⟩ := rest.joined ok' holds' separate' next kept
    exact .head ⟨j, a, adds.joins next (ok.buddies found) pair⟩ joined

variable {s : Machine} {m : Memory} {next : Int}

/-- `coalesce` returns, and all it has done to the lists is to join buddies. -/
def CoalesceKeeps (s : Machine) (m : Memory) (room : Set Int) (P : Page) (next : Int) : Prop :=
  wpm (coalesce kmaFree P.header) (fun _ m' => ∃ P', Sound m' room P' next ∧ Keeps P P') s m

theorem Sound.coalesce (sound : Sound m room P next) (reserved : P.base ∉ room) (used : 1 ≤ P.used)
    (small : P.used ≤ 8192) :
    wpm (coalesce kmaFree P.header) (fun _ m' => ∃ P', Coalesces P P' ∧ Sound m' room P' next) s m := by
  have few := sound.ok.blocks_le
  unfold kmaFree
  rw [kmaFreeDepth_eq, ← fuel_pred 1 (by decide)]
  apply wpm_mono (coalesce_freed (n := fuel - 1) (le_trans few (by decide)) sound reserved used (by omega) ?_)
  · intro _ m' ⟨P', coalesces, sound', _⟩
    exact ⟨P', coalesces, sound'⟩
  · intro Q j a m' enough sound reserved holds separate bound used small
    exact insertBlock_freed enough sound reserved holds separate bound used small (roundUp_blockSize bound)
      (sizeClass_blockSize bound)

theorem CoalesceKeeps.heads (keeps : CoalesceKeeps s m room P next) (sound : Sound m room P next)
    (reserved : P.base ∉ room)
    (used : 1 ≤ P.used) (small : P.used ≤ 8192) :
    firstPair P = none ∨ ∃ j a post, firstPair P = some (j, [], a, post) ∧ ¬ Loses (P.setList j post) (j + 1) a := by
  have coalesced := sound.coalesce (s := s) reserved used small
  obtain ⟨_, _, _, m', _, ⟨P', sound', kept⟩, Q, coalesces, sound''⟩ := wp_returns (wpm_and keeps coalesced)
  obtain rfl := sound'.unique sound'' ((joined_base kept.joined).trans coalesces.base.symm)
  exact (coalesces.freeBytes_iff sound.ok).mp (joined_freeBytes kept.joined)

/-- `coalesce` keeps all free blocks but the joined ones exactly when the first pair of buddies heads its
    list, and the free of its parent is not beyond the last block of its list and does so in turn. -/
theorem coalesce_keeps_iff (sound : Sound m room P next) (reserved : P.base ∉ room) (used : 1 ≤ P.used)
    (small : P.used ≤ 8192) :
    CoalesceKeeps s m room P next ↔
      firstPair P = none ∨ ∃ j a post, firstPair P = some (j, [], a, post) ∧ ¬ Loses (P.setList j post) (j + 1) a := by
  constructor
  · intro keeps
    exact keeps.heads sound reserved used small
  · intro condition
    apply wpm_mono (sound.coalesce reserved used small)
    intro _ m' ⟨P', coalesces, sound'⟩
    exact ⟨P', sound', .of_joined (coalesces.joined sound.ok condition)⟩

omit [Target] in
theorem four_blocks : let _ : Target := ⟨8, .inr rfl⟩; ∃ steps w P,
    Calls buddyAllocator idle steps w ∧ Inv w [P] ∧ P.used = 4 ∧ P.base = 8192 ∧ P.free 0 = [] ∧ P.free 1 = [] ∧ P.free 2 = [] ∧
      w.live = [(8640, 40), (8576, 40), (8512, 40), (8448, 40)] ∧
      ∀ taken ∈ steps, ∃ size supply, taken.2 = Call.malloc size supply := by
  intro target
  have small : (1 : Int) ≤ 40 := by decide
  have second : (16384 : Int) % 8192 = 0 := rfl
  obtain ⟨w₁, ⟨t₂, _⟩, step₁, step₂, rfl, _, inv₂⟩ := two_requests small (by decide) (by decide)
  obtain ⟨b₃, t₃, _, step₃, allocated₃, inv₃⟩ := inv₂.malloc_next small (by decide) second (by decide) (by decide)
    (by decide)
  obtain ⟨rfl, rfl⟩ := allocated₃.single (i := 1) (show _ = [8576] from rfl) (by decide) (by decide)
  obtain ⟨b₄, t₄, _, step₄, allocated₄, inv₄⟩ := inv₃.malloc_next small (by decide) second (by decide) (by decide)
    (by decide)
  obtain ⟨rfl, rfl⟩ := allocated₄.single (i := 0) (show _ = [8640] from rfl) (by decide) (by decide)
  have run : Calls buddyAllocator idle _ _ := ⟨idle_initial, .snoc (.snoc (.snoc (.snoc .refl step₁) step₂) step₃) step₄⟩
  exact ⟨_, _, _, run, inv₄, rfl, rfl, rfl, rfl, rfl, rfl, by simp⟩

omit [Target] in
theorem two_of_four : let _ : Target := ⟨8, .inr rfl⟩; ∃ steps w P,
    Calls buddyAllocator idle steps w ∧ Inv w [P] ∧ P.used = 2 ∧ (8448, 40) ∈ w.live ∧ P.base = 8192 ∧
      P.free 0 = [] ∧ P.free 1 = [8576, 8640] ∧ P.free 2 = [] := by
  intro target
  obtain ⟨steps, ⟨s, live⟩, P, run, inv, used, base, zero, one, two, rfl, _⟩ := four_blocks
  obtain ⟨t₅, P₅, step₅, freed₅, inv₅⟩ := inv.free_single (p := 8640) List.mem_cons_self (by omega)
  obtain rfl := freed₅.of_none one
  obtain ⟨t₆, P₆, step₆, freed₆, inv₆⟩ := inv₅.free_single (p := 8576) (List.mem_of_elem_eq_true (a := (8576, 40)) rfl)
    (by rw [Page.addUsed_used, Page.setList_used, used]; decide)
  obtain rfl := freed₆.of_front (show _ = [8640] from rfl) (by decide)
  refine ⟨_, _, _, ⟨run.1, .snoc (.snoc run.2 step₅) step₆⟩, inv₆, ?_, List.mem_of_elem_eq_true (a := (8448, 40)) rfl,
    base, zero, rfl, two⟩
  rw [Page.addUsed_used, Page.setList_used, Page.addUsed_used, Page.setList_used, used]
  rfl

omit [Target] in
theorem firstPair_second {r : List Int × Int × List Int} (none : P.free 0 = [])
    (found : splitPair P.base 1 (P.free 1) = some r) :
    firstPair P = some (1, r) := by
  have classes : List.range 9 = 0 :: 1 :: List.range' 2 7 := rfl
  rw [firstPair, classes, List.findSome?_cons, none]
  change List.findSome? _ (1 :: List.range' 2 7) = _
  rw [List.findSome?_cons, found]
  rfl

omit [Target] in
/-- A third free block before the two buddies is dropped when they are joined. -/
theorem block_before_pair_dropped : ∃ target : Target, target.ptr = 8 ∧ ∃ steps w P next,
    Calls buddyAllocator idle steps w ∧ P.free 1 = [8448, 8576, 8640] ∧
      Sound w.machine.memory (Buddy.room w.live P.base) P next ∧
      ¬ CoalesceKeeps w.machine w.machine.memory (Buddy.room w.live P.base) P next := by
  let target : Target := ⟨8, .inr rfl⟩
  obtain ⟨steps, w, P, run, inv, used, live, base, zero, one, two⟩ := two_of_four
  obtain ⟨t, P', step, freed, inv'⟩ := inv.free_single live (by omega)
  obtain rfl := freed.of_front one (by decide)
  replace inv' : Inv ⟨t, w.live.erase (8448, 40)⟩ [(P.setList 1 (8448 :: [8576, 8640])).addUsed (-1)] := inv'
  refine ⟨target, rfl, _, _, _, _, ⟨run.1, .snoc run.2 step⟩, rfl, inv'.heap.chained.sound _ List.mem_cons_self, ?_⟩
  have found : firstPair _ = some (1, [8448], 8576, []) :=
    firstPair_second (P := ((P.setList 1 (8448 :: [8576, 8640])).addUsed (-1))) zero <| by
    rw [Page.addUsed_base, Page.setList_base, base]
    rfl
  intro keeps
  have reserved := room_reserved (w.live.erase (8448, 40)) P.base
  have counted : ((P.setList 1 (8448 :: [8576, 8640])).addUsed (-1)).used = 1 := by
    rw [Page.addUsed_used, Page.setList_used, used]
    rfl
  obtain none | ⟨j, a, post, same, _⟩ :=
    keeps.heads (inv'.heap.chained.sound _ List.mem_cons_self) reserved (by omega) (by omega)
  · exact absurd (found.symm.trans none) nofun
  · exact absurd (found.symm.trans same) nofun

omit [Target] in
theorem coalesce_keeps_pair : ∃ target : Target, target.ptr = 8 ∧ ∃ steps w P next,
    Calls buddyAllocator idle steps w ∧ P.free 1 = [8576, 8640] ∧
      CoalesceKeeps w.machine w.machine.memory (Buddy.room w.live P.base) P next := by
  let target : Target := ⟨8, .inr rfl⟩
  obtain ⟨steps, w, P, run, inv, used, live, base, zero, one, two⟩ := two_of_four
  have found : firstPair P = some (1, [], 8576, []) := firstPair_second zero <| by
    rw [base, one]
    rfl
  have kept : ¬ Loses (P.setList 1 []) 2 8576 := by
    have empty : (P.setList 1 []).free 2 = [] := (Page.setList_ne _ _ (by decide)).trans two
    intro loses
    cases loses with
    | beyond list | before list | later list =>
      rw [empty] at list
      cases list
  have sound := inv.heap.chained.sound P List.mem_cons_self
  have reserved := room_reserved w.live P.base
  have keeps : CoalesceKeeps w.machine w.machine.memory _ P _ :=
    (coalesce_keeps_iff sound reserved (by omega) (by omega)).mpr (.inr ⟨1, 8576, [], found, kept⟩)
  exact ⟨target, rfl, steps, w, P, _, run, one, keeps⟩

end Eecs343.Kma.Buddy
