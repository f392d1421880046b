import Eecs343.Kma.Buddy.SizeClass
import Mathlib.Algebra.BigOperators.Group.Finset.Basic
import Mathlib.Algebra.BigOperators.Intervals
import Mathlib.Algebra.BigOperators.Ring.Finset
import Mathlib.Algebra.Order.BigOperators.Group.Finset
import Mathlib.Data.Int.Interval
import Mathlib.Data.Set.Basic

namespace Eecs343.Kma.Buddy

def Apart (a n b k : Int) : Prop := a + n ≤ b ∨ b + k ≤ a

theorem Apart.symm {a n b k : Int} (apart : Apart a n b k) : Apart b k a n := Or.symm apart

theorem apart_of_outside {a n b k : Int} (first : 0 < n) (second : 0 < k)
    (outside : ∀ x, a ≤ x → x < a + n → x < b ∨ b + k ≤ x) : Apart a n b k := by
  by_contra overlap
  unfold Apart at overlap
  have start := outside (max a b) (by omega) (by omega)
  omega

/-- What a page is for the allocator: the count of its allocated blocks and its nine free lists. -/
@[ext] structure Page where
  base : Int
  used : Int
  free : Nat → List Int

def Page.header [Target] (P : Page) : Int := pageHeader P.base

namespace Page

variable (P : Page)

def setList (k : Nat) (l : List Int) : Page := { P with free := Function.update P.free k l }

def addUsed (n : Int) : Page := { P with used := P.used + n }

@[simp] theorem setList_base (k : Nat) (l : List Int) : (P.setList k l).base = P.base := rfl
@[simp] theorem setList_used (k : Nat) (l : List Int) : (P.setList k l).used = P.used := rfl
@[simp] theorem setList_self (k : Nat) (l : List Int) : (P.setList k l).free k = l := by simp [setList]
theorem setList_ne {j k : Nat} (l : List Int) (ne : j ≠ k) : (P.setList k l).free j = P.free j := by
  simp [setList, ne]
theorem setList_setList (k : Nat) (l l' : List Int) : (P.setList k l).setList k l' = P.setList k l' := by
  simp [setList]
theorem setList_free (k : Nat) : P.setList k (P.free k) = P := by simp [setList]
@[simp] theorem addUsed_base (n : Int) : (P.addUsed n).base = P.base := rfl
@[simp] theorem addUsed_free (n : Int) : (P.addUsed n).free = P.free := rfl
@[simp] theorem addUsed_used (n : Int) : (P.addUsed n).used = P.used + n := rfl
@[simp] theorem setList_header [Target] (k : Nat) (l : List Int) : (P.setList k l).header = P.header := rfl
@[simp] theorem addUsed_header [Target] (n : Int) : (P.addUsed n).header = P.header := rfl

/-- A block of class `k` at `b`: at a multiple of its length, behind the block of the header or
    this block itself, and with all its bytes in `room`. -/
structure Holds [Target] (room : Set Int) (k : Nat) (b : Int) : Prop where
  aligned : (b - P.base) % blockSize k = 0
  low : b = P.base ∨ P.base + 32 * ptr ≤ b
  high : b + blockSize k ≤ P.base + 8192
  inRoom : ∀ x, b ≤ x → x < b + blockSize k → x ∈ room

variable {P} in
theorem Holds.of_base [Target] {Q : Page} {room : Set Int} {k : Nat} {b : Int} (holds : P.Holds room k b)
    (same : Q.base = P.base) : Q.Holds room k b :=
  ⟨same ▸ holds.aligned, same ▸ holds.low, same ▸ holds.high, holds.inRoom⟩

/-- The free lists of a page hold disjoint blocks of their lengths, in ascending order. -/
structure Ok [Target] (room : Set Int) : Prop where
  holds : ∀ k < 9, ∀ b ∈ P.free k, P.Holds room k b
  apart : ∀ j < 9, ∀ k < 9, ∀ a ∈ P.free j, ∀ b ∈ P.free k, (j, a) ≠ (k, b) →
    Apart a (blockSize j) b (blockSize k)
  sorted : ∀ k < 9, (P.free k).Pairwise (· < ·)
  beyond : ∀ k, 9 ≤ k → P.free k = []

def Separate (k : Nat) (b : Int) : Prop := ∀ j < 9, ∀ a ∈ P.free j, Apart a (blockSize j) b (blockSize k)

/-- The blocks on the free lists, those of class `k` counted with weight `w k`. -/
def total (w : Nat → Int) : Int := ∑ k ∈ Finset.range 9, w k * (P.free k).length

def freeBytes : Int := P.total blockSize

def blocks : Int := P.total fun _ => 1

open Finset in
theorem total_setList (w : Nat → Int) {k : Nat} (l : List Int) (bound : k < 9) :
    (P.setList k l).total w = P.total w + w k * (l.length - (P.free k).length) := by
  have member := mem_range.mpr bound
  unfold total
  rw [← add_sum_erase _ _ member, ← add_sum_erase (range 9) (fun k => w k * (P.free k).length) member,
    setList_self]
  have others : ∑ j ∈ (range 9).erase k, w j * ((P.setList k l).free j).length =
      ∑ j ∈ (range 9).erase k, w j * (P.free j).length :=
    sum_congr rfl fun j inside => by rw [setList_ne _ _ (mem_erase.mp inside).1]
  rw [others]
  ring

theorem blocks_nonneg : 0 ≤ P.blocks := by
  unfold blocks total
  simp only [one_mul]
  exact Finset.sum_nonneg fun k _ => Int.natCast_nonneg _

theorem blocks_le_freeBytes : 32 * P.blocks ≤ P.freeBytes := by
  unfold blocks freeBytes total
  rw [Finset.mul_sum]
  refine Finset.sum_le_sum fun k _ => ?_
  rw [one_mul]
  exact mul_le_mul_of_nonneg_right (blockSize_pos k) (Int.natCast_nonneg _)

end Page

theorem Page.Holds.beyond [Target] {P : Page} {room : Set Int} {k : Nat} {b : Int} (holds : P.Holds room k b)
    (reserved : P.base ∉ room) : P.base + 32 * ptr ≤ b := by
  have positive := blockSize_pos k
  rcases holds.low with rfl | low
  · exact absurd (holds.inRoom P.base (le_refl _) (by omega)) reserved
  · exact low

theorem Page.Holds.class_lt [Target] {P : Page} {room : Set Int} {k : Nat} {b : Int} (holds : P.Holds room k b)
    (reserved : P.base ∉ room) (bound : k < 9) : k < 8 := by
  have positive := ptr_bounds.1
  have low := holds.beyond reserved
  have high := holds.high
  by_contra last
  have whole : blockSize k = 8192 := by rw [show k = 8 from by omega]; rfl
  omega

/-- `get_buddy`, for a block of class `k` on the page at `base`. -/
def buddy (base : Int) (k : Nat) (b : Int) : Int :=
  if (b - base) / blockSize k % 2 ≠ 0 then b - blockSize k else b + blockSize k

theorem left_aligned {base b : Int} {k : Nat} (bound : k < 9) (aligned : (b - base) % blockSize k = 0)
    (behind : b < buddy base k b) : (b - base) % blockSize (k + 1) = 0 ∧ buddy base k b = b + blockSize k := by
  have positive := blockSize_pos k
  unfold buddy at behind ⊢
  split at behind
  · omega
  · next even =>
    rw [if_neg even, blockSize_succ]
    refine ⟨?_, rfl⟩
    rcases blockSize_cases bound with ⟨_, h⟩ | ⟨_, h⟩ | ⟨_, h⟩ | ⟨_, h⟩ | ⟨_, h⟩ | ⟨_, h⟩ | ⟨_, h⟩ | ⟨_, h⟩ |
      ⟨_, h⟩ <;> rw [h] at aligned even ⊢ <;> omega

theorem buddy_cases (base b : Int) (k : Nat) :
    buddy base k b = b - blockSize k ∨ buddy base k b = b + blockSize k := by
  unfold buddy
  split
  · exact .inl rfl
  · exact .inr rfl

/-- The loop of `kma_free` behind the first block: a block beyond the last is not linked at all. -/
def insertTail (b : Int) : List Int → List Int
  | [] => []
  | y :: rest => if b < y then b :: y :: rest else y :: insertTail b rest

theorem mem_insertTail {b x : Int} {l : List Int} (member : x ∈ insertTail b l) : x = b ∨ x ∈ l := by
  induction l with
  | nil => cases member
  | cons y rest ih =>
    unfold insertTail at member
    split at member
    · exact List.mem_cons.mp member
    · rcases List.mem_cons.mp member with rfl | member
      · exact .inr List.mem_cons_self
      · exact (ih member).imp id (List.mem_cons_of_mem _)

theorem insertTail_length (b : Int) (l : List Int) :
    (insertTail b l).length = l.length + if ∀ y ∈ l, y ≤ b then 0 else 1 := by
  induction l with
  | nil => rfl
  | cons y rest ih =>
    unfold insertTail
    by_cases before : b < y
    · simp [before]
    · simp only [before, if_false, List.length_cons, ih, List.forall_mem_cons, Int.not_lt.mp before, true_and]
      omega

theorem insertTail_last {b : Int} {l : List Int} (last : ∀ y ∈ l, y ≤ b) : insertTail b l = l := by
  induction l with
  | nil => rfl
  | cons y l ih =>
    have behind : ¬ b < y := Int.not_lt.mpr (last y List.mem_cons_self)
    rw [insertTail, if_neg behind, ih fun z member => last z (List.mem_cons_of_mem _ member)]

theorem insertTail_perm {b : Int} {l : List Int} (larger : ∃ y ∈ l, b < y) : (insertTail b l).Perm (b :: l) := by
  induction l with
  | nil =>
    obtain ⟨y, member, -⟩ := larger
    cases member
  | cons z l ih =>
    rw [insertTail]
    by_cases before : b < z
    · rw [if_pos before]
    · rw [if_neg before]
      have rest : ∃ y ∈ l, b < y := by
        obtain ⟨y, member, less⟩ := larger
        rcases List.mem_cons.mp member with rfl | member
        · exact absurd less before
        · exact ⟨y, member, less⟩
      exact ((ih rest).cons z).trans (.swap b z l)

theorem insertTail_sorted {b : Int} {l : List Int} (sorted : l.Pairwise (· < ·)) (fresh : b ∉ l) :
    (insertTail b l).Pairwise (· < ·) := by
  induction l with
  | nil => exact .nil
  | cons y rest ih =>
    obtain ⟨below, tail⟩ := List.pairwise_cons.mp sorted
    unfold insertTail
    split
    · next before =>
      refine List.pairwise_cons.mpr ⟨?_, sorted⟩
      intro x member
      rcases List.mem_cons.mp member with rfl | member
      · exact before
      · exact Int.lt_trans before (below x member)
    · next behind =>
      have ne : b ≠ y := fun same => fresh (same ▸ List.mem_cons_self)
      refine List.pairwise_cons.mpr ⟨?_, ih tail fun member => fresh (List.mem_cons_of_mem _ member)⟩
      intro x member
      rcases mem_insertTail member with rfl | member
      · omega
      · exact below x member

namespace Page

variable {P : Page} {room : Set Int} {k : Nat} {b : Int}

theorem Separate.fresh (separate : P.Separate k b) {j : Nat} (bound : j < 9) : b ∉ P.free j := by
  intro member
  have one := blockSize_pos j
  have two := blockSize_pos k
  rcases separate j bound b member with h | h <;> omega

variable [Target]

theorem Ok.setList (ok : P.Ok room) {l : List Int} (holds : P.Holds room k b) (separate : P.Separate k b)
    (from_old : ∀ x ∈ l, x = b ∨ x ∈ P.free k) (sorted : l.Pairwise (· < ·)) (bound : k < 9) :
    (P.setList k l).Ok room where
  holds j inside x member := by
    by_cases same : j = k
    · subst same
      rw [setList_self] at member
      rcases from_old x member with rfl | member
      · exact holds.of_base rfl
      · exact (ok.holds j bound x member).of_base rfl
    · rw [setList_ne _ _ same] at member
      exact (ok.holds j inside x member).of_base rfl
  apart i hi j hj x mx y my ne := by
    have origin : ∀ i x, x ∈ (P.setList k l).free i → (i = k ∧ x = b) ∨ x ∈ P.free i := by
      intro i x member
      by_cases same : i = k
      · subst same
        rw [setList_self] at member
        exact (from_old x member).imp (⟨rfl, ·⟩) id
      · rw [setList_ne _ _ same] at member
        exact .inr member
    rcases origin i x mx with ⟨rfl, rfl⟩ | oldX <;> rcases origin j y my with ⟨rfl, rfl⟩ | oldY
    · exact absurd rfl ne
    · exact (separate j hj y oldY).symm
    · exact separate i hi x oldX
    · exact ok.apart i hi j hj x oldX y oldY ne
  sorted j inside := by
    by_cases same : j = k
    · subst same
      rw [setList_self]
      exact sorted
    · rw [setList_ne _ _ same]
      exact ok.sorted j inside
  beyond j above := by
    rw [setList_ne _ _ (by omega)]
    exact ok.beyond j above

theorem Ok.change (ok : P.Ok room) {room' : Set Int}
    (inside : ∀ k < 9, ∀ b ∈ P.free k, ∀ x ∈ room, b ≤ x → x < b + blockSize k → x ∈ room') : P.Ok room' := by
  refine ⟨fun k bound b member => ?_, ok.apart, ok.sorted, ok.beyond⟩
  have old := ok.holds k bound b member
  exact ⟨old.aligned, old.low, old.high, fun x low high => inside k bound b member x (old.inRoom x low high) low high⟩

theorem Ok.addUsed (ok : P.Ok room) (n : Int) : (P.addUsed n).Ok room :=
  ⟨fun j bound x member => (ok.holds j bound x member).of_base rfl, ok.apart, ok.sorted, ok.beyond⟩

theorem Ok.length_le (ok : P.Ok room) (bound : k < 9) : (P.free k).length ≤ 8192 := by
  have sorted := ok.sorted k bound
  have inside : (P.free k).toFinset ⊆ Finset.Ico P.base (P.base + 8192) := by
    intro b member
    have holds := ok.holds k bound b (List.mem_toFinset.mp member)
    have low := holds.low
    have high := holds.high
    have := blockSize_pos k
    exact Finset.mem_Ico.mpr ⟨by omega, by omega⟩
  have distinct : (P.free k).Nodup := sorted.imp fun less => by omega
  have card := Finset.card_le_card inside
  rw [List.toFinset_card_of_nodup distinct, Int.card_Ico] at card
  omega

theorem Ok.blocks_le (ok : P.Ok room) : P.blocks ≤ 9 * 8192 := by
  unfold blocks total
  have most := Finset.sum_le_card_nsmul (Finset.range 9) (fun k => 1 * ((P.free k).length : Int)) 8192
    fun k member => by
      rw [one_mul]
      exact_mod_cast ok.length_le (Finset.mem_range.mp member)
  simpa using most

theorem Ok.sublist (ok : P.Ok room) {l : List Int} (sublist : l.Sublist (P.free k)) : (P.setList k l).Ok room := by
  have kept : ∀ j x, x ∈ (P.setList k l).free j → x ∈ P.free j := by
    intro j x member
    by_cases same : j = k
    · subst same
      rw [setList_self] at member
      exact sublist.subset member
    · rwa [setList_ne _ _ same] at member
  refine ⟨fun j inside x member => ?_, fun i hi j hj x mx y my ne => ?_, fun j inside => ?_, fun j above => ?_⟩
  · exact (ok.holds j inside x (kept j x member)).of_base rfl
  · exact ok.apart i hi j hj x (kept i x mx) y (kept j y my) ne
  · by_cases same : j = k
    · subst same
      rw [setList_self]
      exact (ok.sorted j inside).sublist sublist
    · rw [setList_ne _ _ same]
      exact ok.sorted j inside
  · refine List.eq_nil_iff_forall_not_mem.mpr fun x member => ?_
    have old := kept j x member
    rw [ok.beyond j above] at old
    exact absurd old List.not_mem_nil

end Page

end Eecs343.Kma.Buddy
