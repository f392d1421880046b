import Eecs343.Kma.Buddy.Progress

namespace Eecs343.Kma.Buddy

open Bytes Effect Linked Transition

variable [Target]

variable {s : Machine} {m : Memory} {P P' : Page} {room : Set Int} {next b size x : Int} {k : Nat} {l : List Int}

/-- The first half of `kma_free` alone, before anything is joined. -/
def insertOnly (block size : Int) : C Unit := insertBlock (fun _ => pure ()) block size

/-- The block has its place on the list of class `k`, and the other lists are as they were. -/
structure Inserted (P : Page) (k : Nat) (b : Int) (P' : Page) : Prop where
  base : P'.base = P.base
  used : P'.used = P.used
  ascending : (P'.free k).Pairwise (· < ·)
  members : ∀ x, x ∈ P'.free k ↔ x = b ∨ x ∈ P.free k
  others : ∀ j, j ≠ k → P'.free j = P.free j

/-- The insertion returns with the block on its list. -/
def Inserts (s : Machine) (m : Memory) (room : Set Int) (P : Page) (next b size : Int) : Prop :=
  wpm (insertOnly b size) (fun _ m' => ∃ P', Sound m' room P' next ∧ Inserted P (sizeClass size) b P') s m

omit [Target] in
theorem Inserted.of_list (sorted : l.Pairwise (· < ·)) (members : ∀ x, x ∈ l ↔ x = b ∨ x ∈ P.free k) :
    Inserted P k b (P.setList k l) where
  base := rfl
  used := rfl
  ascending := by rwa [Page.setList_self]
  members := by rwa [Page.setList_self]
  others j ne := Page.setList_ne _ _ ne

section Class

variable (sound : Sound m room P next) (holds : P.Holds room k b) (separate : P.Separate k b)
  (rounded : roundUp size = blockSize k) (ladder : sizeClass size = k)

include sound holds separate rounded ladder

/-- A block with an empty list or a larger block on its list is linked where it belongs. -/
theorem insertOnly_lands (smaller : k < 8) (place : P.free k = [] ∨ ∃ y ∈ P.free k, b < y) :
    wpm (insertOnly b size) (fun _ m' => ∃ P', Sound m' room P' next ∧ Inserted P k b P') s m := by
  have bound : k < 9 := by omega
  apply insertBlock_spec sound holds separate smaller rounded ladder
  · intro m' none placed _
    refine ⟨_, placed, .of_list (List.pairwise_singleton _ _) fun x => ?_⟩
    rw [none]
    simp
  · intro m' x l list before placed _
    have sorted := placed.ok.sorted k bound
    rw [Page.setList_self] at sorted
    refine ⟨_, placed, .of_list sorted fun y => ?_⟩
    rw [list, List.mem_cons]
  · intro m' x l list behind placed _
    have sorted := placed.ok.sorted k bound
    rw [Page.setList_self] at sorted
    rw [wpm_pure]
    refine ⟨_, placed, .of_list sorted fun y => ?_⟩
    have larger : ∃ y ∈ l, b < y := by
      rcases place with none | ⟨y, member, less⟩
      · rw [none] at list
        cases list
      · rw [list] at member
        rcases List.mem_cons.mp member with rfl | member
        · omega
        · exact ⟨y, member, less⟩
    rw [list, List.mem_cons, (insertTail_perm larger).mem_iff, List.mem_cons, List.mem_cons]
    exact or_left_comm

/-- Behind the last block of its list, and on the list of whole pages, a block is not linked. -/
theorem insertOnly_drops (bound : k < 9) (misplaced : k = 8 ∨ P.free k ≠ [] ∧ ∀ y ∈ P.free k, y ≤ b) :
    wpm (insertOnly b size) (fun _ m' => Sound m' room P next) s m := by
  by_cases whole : k = 8
  · subst whole
    have page := (Sound.block sound.legal holds).2.2.1
    have header : baseAddr b + sizeofAllocheader = P.header := by rw [page]; rfl
    unfold insertOnly insertBlock
    dsimp only
    rw [header, getRequiredBuffer_eq sound.legal ladder, wpm_read_bind]
    refine ⟨buffer_ne sound.legal bound, ?_⟩
    rw [wpm_neg (by rw [rounded]; decide), wpm_pure]
    exact sound
  · obtain ⟨some, last⟩ := misplaced.resolve_left whole
    apply insertBlock_spec sound holds separate (by omega) rounded ladder
    · intro m' none
      exact absurd none some
    · intro m' x l list before
      have behind := last x (by rw [list]; exact List.mem_cons_self)
      omega
    · intro m' x l list behind placed _
      have rest : ∀ y ∈ l, y ≤ b := by
        intro y member
        apply last
        rw [list]
        exact List.mem_cons_of_mem _ member
      rw [insertTail_last rest, ← list, Page.setList_free] at placed
      rw [wpm_pure]
      exact placed

end Class

theorem not_inserts (dropped : wpm (insertOnly b size) (fun _ m' => Sound m' room P next) s m)
    (fresh : b ∉ P.free (sizeClass size)) : ¬ Inserts s m room P next b size := by
  intro inserts
  obtain ⟨_, _, _, m', _, ⟨P', sound', inserted⟩, sound⟩ := wp_returns (wpm_and inserts dropped)
  obtain rfl := sound'.unique sound inserted.base
  exact fresh ((inserted.members b).mpr (.inl rfl))

/-- The insertion does its work exactly when the block is no whole page, and its list is empty or has
    a larger block. -/
theorem insertion_iff (sound : Sound m room P next) (low : 1 ≤ size) (high : size ≤ 8192)
    (holds : P.Holds room (sizeClass size) b) (separate : P.Separate (sizeClass size) b) :
    Inserts s m room P next b size ↔
      roundUp size ≠ 8192 ∧ (P.free (sizeClass size) = [] ∨ ∃ y ∈ P.free (sizeClass size), b < y) := by
  have bound := sizeClass_lt size
  have rounded := roundUp_sizeClass low high
  constructor
  · intro inserts
    by_contra misplaced
    -- a block is lost on the list of whole pages and at the end of any other
    have dropped : sizeClass size = 8 ∨ P.free (sizeClass size) ≠ [] ∧ ∀ y ∈ P.free (sizeClass size), y ≤ b := by
      by_cases whole : roundUp size = 8192
      · exact .inl ((blockSize_whole bound).mp (rounded.symm.trans whole))
      · rw [not_and_or, not_not, not_or] at misplaced
        obtain ⟨some, last⟩ := misplaced.resolve_left whole
        refine .inr ⟨some, fun y member => ?_⟩
        by_contra above
        exact last ⟨y, member, Int.not_le.mp above⟩
    exact not_inserts (insertOnly_drops sound holds separate rounded rfl bound dropped) (separate.fresh bound) inserts
  · intro ⟨part, place⟩
    have smaller : sizeClass size ≠ 8 := fun whole => part (rounded.trans ((blockSize_whole bound).mpr whole))
    exact insertOnly_lands sound holds separate rounded rfl (by omega) place

omit [Target] in
theorem one_buddy {p q : Int} (pair : p = 8448 ∧ q = 8512 ∨ p = 8512 ∧ q = 8448) : let _ : Target := ⟨8, .inr rfl⟩;
    ∃ w₁ w₂ w₃ P next,
      Calls buddyAllocator idle
        [(w₂, .free p 40), (w₁, .malloc 40 (twoPages 16384)), (idle, .malloc 40 (twoPages 8192))] w₃ ∧
      (q, 40) ∈ w₃.live ∧ P.free 1 = [p] ∧ Sound w₃.machine.memory (Buddy.room [] P.base) P next ∧
      P.Spare (Buddy.room [] P.base) 1 q := by
  intro target
  have small : (1 : Int) ≤ 40 := by decide
  obtain ⟨w₁, ⟨t₂, _⟩, step₁, step₂, rfl, _, inv₂⟩ := two_requests small (by decide) (by decide)
  have live : (p, 40) ∈ [((8512 : Int), (40 : Int)), (8448, 40)] := by
    rcases pair with ⟨rfl, rfl⟩ | ⟨rfl, rfl⟩ <;> decide
  obtain ⟨t₃, P₃, step₃, freed₃, inv₃⟩ := inv₂.free_single live (by decide)
  obtain rfl := freed₃.of_none rfl
  have left : [((8512 : Int), (40 : Int)), (8448, 40)].erase (p, 40) = [(q, 40)] := by
    rcases pair with ⟨rfl, rfl⟩ | ⟨rfl, rfl⟩ <;> decide
  have run : Calls buddyAllocator idle _ _ := ⟨idle_initial, .snoc (.snoc (.snoc .refl step₁) step₂) step₃⟩
  dsimp only at run inv₃
  rw [left] at run inv₃
  have heap : Heap t₃ (Buddy.room []) _ := inv₃.heap.widen fun q member => absurd member List.not_mem_nil
  refine ⟨_, _, _, _, _, run, List.mem_cons_self, ?_, heap.chained.sound _ List.mem_cons_self, ?_⟩
  · rfl
  · have put := inv₃.spare (l := []) List.mem_cons_self
    rw [List.erase_cons_head] at put
    refine put ⟨small, ?_, ?_, ?_, ?_⟩
    all_goals rcases pair with ⟨rfl, rfl⟩ | ⟨rfl, rfl⟩ <;> decide

omit [Target] in
/-- With the left one of the buddies free, the right one is dropped. -/
theorem right_buddy_dropped : ∃ target : Target, target.ptr = 8 ∧ ∃ w₁ w₂ w₃ P next,
    Calls buddyAllocator idle [(w₂, .free 8448 40), (w₁, .malloc 40 (twoPages 16384)), (idle, .malloc 40 (twoPages 8192))] w₃ ∧
      (8512, 40) ∈ w₃.live ∧ P.free 1 = [8448] ∧ Sound w₃.machine.memory (Buddy.room [] P.base) P next ∧
      ¬ Inserts w₃.machine w₃.machine.memory (Buddy.room [] P.base) P next 8512 40 := by
  let target : Target := ⟨8, .inr rfl⟩
  obtain ⟨w₁, w₂, w₃, P, next, run, member, list, sound, spare⟩ := one_buddy (.inl ⟨rfl, rfl⟩)
  refine ⟨target, rfl, w₁, w₂, w₃, P, next, run, member, list, sound, ?_⟩
  have dropped : wpm (insertOnly 8512 40) (fun _ m' => Sound m' _ P next) w₃.machine w₃.machine.memory :=
    insertOnly_drops sound spare.holds spare.separate (by decide) (by decide) (by decide) (.inr ⟨?_, ?_⟩)
  · exact not_inserts dropped (spare.separate.fresh (by decide))
  · rw [list]
    decide
  · rw [list]
    decide

omit [Target] in
theorem left_buddy_inserted : ∃ target : Target, target.ptr = 8 ∧ ∃ w₁ w₂ w₃ P next,
    Calls buddyAllocator idle [(w₂, .free 8512 40), (w₁, .malloc 40 (twoPages 16384)), (idle, .malloc 40 (twoPages 8192))] w₃ ∧
      (8448, 40) ∈ w₃.live ∧ P.free 1 = [8512] ∧ Sound w₃.machine.memory (Buddy.room [] P.base) P next ∧
      Inserts w₃.machine w₃.machine.memory (Buddy.room [] P.base) P next 8448 40 := by
  let target : Target := ⟨8, .inr rfl⟩
  obtain ⟨w₁, w₂, w₃, P, next, run, member, list, sound, spare⟩ := one_buddy (.inr ⟨rfl, rfl⟩)
  refine ⟨target, rfl, w₁, w₂, w₃, P, next, run, member, list, sound, ?_⟩
  have holds : P.Holds (Buddy.room [] P.base) (sizeClass 40) 8448 := spare.holds
  have part : roundUp 40 ≠ 8192 := by decide
  have place : P.free (sizeClass 40) = [] ∨ ∃ y ∈ P.free (sizeClass 40), 8448 < y := by
    refine .inr ⟨8512, ?_, by decide⟩
    change 8512 ∈ P.free 1
    rw [list]
    exact List.mem_cons_self
  have separate : P.Separate (sizeClass 40) 8448 := spare.separate
  have low : (1 : Int) ≤ 40 := by decide
  have high : (40 : Int) ≤ 8192 := by decide
  have exactly := insertion_iff (s := w₃.machine) sound low high holds separate
  exact exactly.mpr ⟨part, place⟩

end Eecs343.Kma.Buddy
