import Eecs343.Kma.Buddy.Freed
import Mathlib.Tactic.Linarith

namespace Eecs343.Kma.Buddy

theorem Page.freeBytes_setList (P : Page) {k : Nat} (l : List Int) (bound : k < 9) :
    (P.setList k l).freeBytes = P.freeBytes + blockSize k * (l.length - (P.free k).length) :=
  P.total_setList blockSize l bound

/-- The block goes behind the first one of its list, and is lost beyond the last. -/
theorem Page.freeBytes_insertTail (P : Page) {k : Nat} {x : Int} {l : List Int} (b : Int) (list : P.free k = x :: l)
    (bound : k < 9) :
    (P.setList k (x :: insertTail b l)).freeBytes ≤ P.freeBytes + blockSize k ∧
      ((P.setList k (x :: insertTail b l)).freeBytes = P.freeBytes + blockSize k ↔ ¬ ∀ y ∈ l, y ≤ b) := by
  have sum := P.freeBytes_setList (x :: insertTail b l) bound
  rw [list] at sum
  simp only [List.length_cons, insertTail_length, Nat.cast_add, Nat.cast_one] at sum
  have positive := blockSize_pos k
  by_cases last : ∀ y ∈ l, y ≤ b
  · rw [if_pos last] at sum
    have equal : (P.setList k (x :: insertTail b l)).freeBytes = P.freeBytes := by rw [sum]; push_cast; ring
    exact ⟨by omega, ⟨fun same => by omega, fun keeps => absurd last keeps⟩⟩
  · rw [if_neg last] at sum
    have equal : (P.setList k (x :: insertTail b l)).freeBytes = P.freeBytes + blockSize k := by
      rw [sum]; push_cast; ring
    exact ⟨equal.le, ⟨fun _ => last, fun _ => equal⟩⟩

/-- A free of class `k` at `b` takes one of the two branches that lose bytes, itself or in a free
    nested in it: it looks for a place beyond the last block of its list, or it joins a pair that
    has blocks before it. -/
inductive Loses : Page → Nat → Int → Prop where
  | beyond {P k b x l} (list : P.free k = x :: l) (last : ∀ y ∈ x :: l, y ≤ b) : Loses P k b
  | before {P k b x l j y pre a post} (list : P.free k = x :: l) (behind : x ≤ b)
      (found : firstPair (P.setList k (x :: insertTail b l)) = some (j, y :: pre, a, post)) : Loses P k b
  | later {P k b x l j pre a post} (list : P.free k = x :: l) (behind : x ≤ b)
      (found : firstPair (P.setList k (x :: insertTail b l)) = some (j, pre, a, post))
      (rest : Loses ((P.setList k (x :: insertTail b l)).setList j post) (j + 1) a) : Loses P k b

/-- Freeing a block adds its length to the free bytes of the page, and no less exactly when it
    takes no branch that loses bytes. -/
theorem Freed.freeBytes [Target] {P P' : Page} {room : Set Int} {k : Nat} {b : Int} (freed : Freed P k b P')
    (ok : P.Ok room) (holds : P.Holds room k b) (separate : P.Separate k b) (bound : k < 9) :
    P'.freeBytes ≤ P.freeBytes + blockSize k ∧
      (P'.freeBytes = P.freeBytes + blockSize k ↔ ¬ Loses P k b) := by
  induction freed with
  | @empty P k b none =>
    have sum := P.freeBytes_setList [b] bound
    rw [none] at sum
    simp only [List.length_singleton, List.length_nil, Nat.cast_one, Nat.cast_zero, sub_zero, mul_one] at sum
    refine ⟨sum.le, ⟨fun _ loses => ?_, fun _ => sum⟩⟩
    cases loses with
    | beyond list | before list | later list => rw [none] at list; cases list
  | @front P k b x l list before =>
    have sum := P.freeBytes_setList (b :: x :: l) bound
    rw [list] at sum
    simp only [List.length_cons, Nat.cast_add, Nat.cast_one] at sum
    have equal : (P.setList k (b :: x :: l)).freeBytes = P.freeBytes + blockSize k := by rw [sum]; ring
    refine ⟨equal.le, ⟨fun _ loses => ?_, fun _ => equal⟩⟩
    cases loses with
    | beyond list' last =>
      rw [list] at list'
      cases list'
      have := last x List.mem_cons_self
      omega
    | before list' behind | later list' behind =>
      rw [list] at list'
      cases list'
      omega
  | @quiet P k b x l list behind none =>
    obtain ⟨most, exact_iff⟩ := P.freeBytes_insertTail b list bound
    refine ⟨most, exact_iff.trans ⟨fun some loses => ?_, fun keeps last => ?_⟩⟩
    · cases loses with
      | beyond list' all =>
        rw [list] at list'
        cases list'
        exact some (List.forall_mem_cons.mp all).2
      | before list' _ found | later list' _ found =>
        rw [list] at list'
        cases list'
        rw [none] at found
        cases found
    · exact keeps (.beyond list (List.forall_mem_cons.mpr ⟨behind, last⟩))
  | @join P k b x l j pre a post P' list behind found _ ih =>
    -- two blocks of class `j` become one of class `j + 1`; what stood in front of them on the list is lost
    have inserted := ok.insert holds separate bound list behind
    obtain ⟨next, pair, rest, holdsParent, separateParent⟩ := inserted.parent found
    obtain ⟨most, exact_iff⟩ := ih rest holdsParent separateParent next
    have removed := (P.setList k (x :: insertTail b l)).freeBytes_setList post (firstPair_some found).1
    rw [pair] at removed
    simp only [List.length_cons, List.length_append, Nat.cast_add, Nat.cast_one] at removed
    have double := blockSize_succ j
    have positiveJ := blockSize_pos j
    have skipped : 0 ≤ blockSize j * pre.length := by positivity
    have lost := P.freeBytes_insertTail b list bound
    have after : ((P.setList k (x :: insertTail b l)).setList j post).freeBytes + blockSize (j + 1) =
        (P.setList k (x :: insertTail b l)).freeBytes - blockSize j * pre.length := by
      rw [removed, double]; ring
    refine ⟨by omega, ⟨fun same loses => ?_, fun keeps => ?_⟩⟩
    · cases loses with
      | beyond list' all =>
        rw [list] at list'
        cases list'
        exact lost.2.mp (by omega) (List.forall_mem_cons.mp all).2
      | before list' _ found' =>
        rw [list] at list'
        cases list'
        rw [found] at found'
        cases found'
        simp only [List.length_cons, Nat.cast_add, Nat.cast_one, mul_add, mul_one] at after skipped
        have :=
          mul_nonneg (show (0 : Int) ≤ blockSize j from by omega) (Int.natCast_nonneg _ : (0 : Int) ≤ ‹List Int›.length)
        omega
      | later list' _ found' rest' =>
        rw [list] at list'
        cases list'
        rw [found] at found'
        cases found'
        exact exact_iff.mp (by omega) rest'
    · have inner := exact_iff.mpr fun loses => keeps (.later list behind found loses)
      have outer := lost.2.mpr fun last => keeps (.beyond list (List.forall_mem_cons.mpr ⟨behind, last⟩))
      have none : pre = [] := by
        cases pre with
        | nil => rfl
        | cons y pre => exact absurd (.before list behind found) keeps
      subst none
      simp only [List.length_nil, Nat.cast_zero, mul_zero, sub_zero] at after
      omega

end Eecs343.Kma.Buddy
