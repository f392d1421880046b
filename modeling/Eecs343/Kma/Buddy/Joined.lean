import Eecs343.Kma.Buddy.Balance
import Mathlib.Data.List.Sort

namespace Eecs343.Kma.Buddy

/-- No list has both a block and that block's buddy. -/
def NoBuddies (P : Page) : Prop := ∀ k < 9, ∀ b ∈ P.free k, buddy P.base k b ∉ P.free k

/-- What a free of a block is to do: where the block's buddy is not free, the block goes on its list; otherwise the
    buddy leaves the list, and the block that the two make is freed in turn. -/
inductive Merges : Page → Nat → Int → Page → Prop where
  | alone {P k b} (alone : buddy P.base k b ∉ P.free k) :
    Merges P k b (P.setList k ((P.free k).orderedInsert (· ≤ ·) b))
  | join {P k b P'} (below : k + 1 < 9) (free : buddy P.base k b ∈ P.free k)
    (rest : Merges (P.setList k ((P.free k).erase (buddy P.base k b))) (k + 1) (min b (buddy P.base k b)) P') :
    Merges P k b P'

/-- A free of class `k` at `b`, itself or by a free nested in it, puts its block in front of a list whose first block
    is its buddy, or comes to the end of a list with its block, or joins a pair that has blocks before it. In the first
    branch nothing is joined, and what the others drop can be joined with nothing. -/
inductive MissesJoin : Page → Nat → Int → Prop where
  | front {P k b x l} (list : P.free k = x :: l) (before : b < x) (pair : buddy P.base k b = x) : MissesJoin P k b
  | last {P k b x l} (list : P.free k = x :: l) (last : ∀ y ∈ x :: l, y ≤ b) : MissesJoin P k b
  | ahead {P k b x l j y pre a post} (list : P.free k = x :: l) (behind : x ≤ b)
      (found : firstPair (P.setList k (x :: insertTail b l)) = some (j, y :: pre, a, post)) : MissesJoin P k b
  | later {P k b x l j pre a post} (list : P.free k = x :: l) (behind : x ≤ b)
      (found : firstPair (P.setList k (x :: insertTail b l)) = some (j, pre, a, post))
      (rest : MissesJoin ((P.setList k (x :: insertTail b l)).setList j post) (j + 1) a) : MissesJoin P k b

theorem buddy_involutive {base b : Int} {k : Nat} (bound : k < 9) (aligned : (b - base) % blockSize k = 0) :
    buddy base k (buddy base k b) = b := by
  unfold buddy
  rcases blockSize_cases bound with ⟨_, h⟩ | ⟨_, h⟩ | ⟨_, h⟩ | ⟨_, h⟩ | ⟨_, h⟩ | ⟨_, h⟩ | ⟨_, h⟩ | ⟨_, h⟩ |
    ⟨_, h⟩ <;> rw [h] at aligned ⊢ <;> split_ifs <;> omega

theorem adjacent_next [Target] {P : Page} {room : Set Int} {k : Nat} {b : Int} (ok : P.Ok room) (bound : k < 9)
    (left : b ∈ P.free k) (right : b + blockSize k ∈ P.free k) :
    ∃ pre post, P.free k = pre ++ b :: (b + blockSize k) :: post := by
  obtain ⟨pre, rest, split⟩ := List.append_of_mem left
  have positive := blockSize_pos k
  have sorted := ok.sorted k bound
  rw [split] at sorted
  obtain ⟨_, tail, cross⟩ := List.pairwise_append.mp sorted
  obtain ⟨below, tail⟩ := List.pairwise_cons.mp tail
  have inRest : b + blockSize k ∈ rest := by
    rw [split] at right
    rcases List.mem_append.mp right with early | late
    · have := cross _ early b List.mem_cons_self
      omega
    · rcases List.mem_cons.mp late with same | late
      · omega
      · exact late
  cases rest with
  | nil => cases inRest
  | cons y rest =>
    have apart := ok.apart k bound k bound b left y (by rw [split]; simp) (by
      intro eq
      cases eq
      exact absurd (below b List.mem_cons_self) (Int.lt_irrefl b))
    have above := below y List.mem_cons_self
    rcases List.mem_cons.mp inRest with same | late
    · exact ⟨pre, rest, by rw [split, same]⟩
    · have := (List.pairwise_cons.mp tail).1 _ late
      unfold Apart at apart
      omega

theorem noBuddies_of_noPair [Target] {P : Page} {room : Set Int} (ok : P.Ok room) (none : firstPair P = none) :
    NoBuddies P := by
  intro k bound b member free
  have apart := firstPair_none.mp none k bound
  have aligned := (ok.holds k bound b member).aligned
  have involutive := buddy_involutive bound aligned
  have next : ∀ l, l ∈ P.free k → l + blockSize k ∈ P.free k → buddy P.base k l = l + blockSize k → False := by
    intro l inside right pair
    obtain ⟨pre, post, split⟩ := adjacent_next ok bound inside right
    unfold NoPair at apart
    rw [split] at apart
    exact (List.isChain_append_cons_cons.mp apart).2.1 pair
  rcases buddy_cases P.base b k with left | right
  · refine next (buddy P.base k b) free ?_ ?_
    · rw [left, Int.sub_add_cancel]
      exact member
    · rw [involutive, left, Int.sub_add_cancel]
  · exact next b member (right ▸ free) right

theorem NoBuddies.mono {P Q : Page} (none : NoBuddies P) (base : Q.base = P.base)
    (kept : ∀ k < 9, ∀ b ∈ Q.free k, b ∈ P.free k) : NoBuddies Q := by
  intro k bound b member free
  rw [base] at free
  exact none k bound b (kept k bound b member) (kept k bound _ free)

theorem NoBuddies.setList {P : Page} {k : Nat} {b : Int} {l : List Int} (none : NoBuddies P)
    (from_old : ∀ x ∈ l, x = b ∨ x ∈ P.free k) (aligned : ∀ x ∈ P.free k, (x - P.base) % blockSize k = 0)
    (apart : buddy P.base k b ∉ P.free k) : NoBuddies (P.setList k l) := by
  intro j bound x member free
  rw [Page.setList_base] at free
  have positive := blockSize_pos k
  by_cases same : j = k
  · subst same
    rw [Page.setList_self] at member free
    have self : ∀ y, buddy P.base j y ≠ y := by
      intro y eq
      rcases buddy_cases P.base y j with h | h <;> omega
    rcases from_old x member with rfl | old <;> rcases from_old _ free with eq | oldBuddy
    · exact self _ eq
    · exact apart oldBuddy
    · rw [← eq, buddy_involutive bound (aligned x old)] at apart
      exact apart old
    · exact none j bound x old oldBuddy
  · rw [Page.setList_ne _ _ same] at member free
    exact none j bound x member free

theorem Merges.base {P P' : Page} {k : Nat} {b : Int} (merges : Merges P k b P') : P'.base = P.base := by
  induction merges with
  | alone => rfl
  | join _ _ _ ih => exact ih

theorem Merges.freeBytes {P P' : Page} {k : Nat} {b : Int} (merges : Merges P k b P') (bound : k < 9) :
    P'.freeBytes = P.freeBytes + blockSize k := by
  induction merges with
  | @alone P k b =>
    have sum := P.freeBytes_setList ((P.free k).orderedInsert (· ≤ ·) b) bound
    rw [List.orderedInsert_length] at sum
    rw [sum]
    push_cast
    ring
  | @join P k b _ below free _ ih =>
    have sum := P.freeBytes_setList ((P.free k).erase (buddy P.base k b)) bound
    have some := List.length_pos_of_mem free
    rw [List.length_erase_of_mem free, Nat.cast_sub some] at sum
    have double := blockSize_succ k
    rw [ih below, sum, double]
    push_cast
    ring

theorem insertTail_ordered {b : Int} {l : List Int} (fresh : b ∉ l) (larger : ∃ y ∈ l, b < y) :
    insertTail b l = l.orderedInsert (· ≤ ·) b := by
  induction l with
  | nil =>
    obtain ⟨_, member, _⟩ := larger
    cases member
  | cons z l ih =>
    obtain ⟨ne, fresh⟩ := not_or.mp (mt List.mem_cons.mpr fresh)
    rw [insertTail, List.orderedInsert]
    by_cases before : b < z
    · rw [if_pos before, if_pos (Int.le_of_lt before)]
    · rw [if_neg before, if_neg (by omega), ih fresh]
      obtain ⟨y, member, less⟩ := larger
      rcases List.mem_cons.mp member with rfl | member
      · exact absurd less before
      · exact ⟨y, member, less⟩

theorem insertTail_head {b : Int} {l post : List Int} (fresh : b ∉ l) (head : insertTail b l = b :: post) : l = post := by
  cases l with
  | nil => cases head
  | cons z l =>
    rw [insertTail] at head
    by_cases before : b < z
    · rw [if_pos before] at head
      exact (List.cons.inj head).2
    · rw [if_neg before] at head
      exact absurd (List.mem_cons.mpr (.inl (List.cons.inj head).1.symm)) fresh

/-- On a page without free buddies one of the first two that are joined is the block just freed. -/
theorem joined_pair [Target] {P : Page} {room : Set Int} {k j : Nat} {b x a : Int} {l pre post : List Int}
    (ok : P.Ok room) (holds : P.Holds room k b) (separate : P.Separate k b) (bound : k < 9) (none : NoBuddies P)
    (list : P.free k = x :: l) (behind : x ≤ b)
    (found : firstPair (P.setList k (x :: insertTail b l)) = some (j, pre, a, post)) :
    (∀ y ∈ (P.setList k (x :: insertTail b l)).free j, (j = k ∧ y = b) ∨ y ∈ P.free j) ∧
      j = k ∧ (a = b ∨ a + blockSize j = b) := by
  have inserted := ok.insert holds separate bound list behind
  obtain ⟨_, pair, _⟩ := inserted.parent found
  have right : buddy P.base j a = a + blockSize j := inserted.buddies found
  have from_old : ∀ y ∈ (P.setList k (x :: insertTail b l)).free j, (j = k ∧ y = b) ∨ y ∈ P.free j := by
    intro y member
    by_cases same : j = k
    · subst same
      rw [Page.setList_self, list] at *
      rcases List.mem_cons.mp member with rfl | member
      · exact .inr List.mem_cons_self
      · exact (mem_insertTail member).imp (⟨rfl, ·⟩) (List.mem_cons_of_mem _)
    · rw [Page.setList_ne _ _ same] at member
      exact .inr member
  refine ⟨from_old, ?_⟩
  rcases from_old a (by simp [pair]) with ⟨same, eq⟩ | oldA
  · exact ⟨same, .inl eq⟩
  · rcases from_old (a + blockSize j) (by simp [pair]) with ⟨same, eq⟩ | oldC
    · exact ⟨same, .inr eq⟩
    · exact absurd (right ▸ oldC) (none j (firstPair_some found).1 a oldA)

theorem joined_rest [Target] {P : Page} {room : Set Int} {k j : Nat} {b x a : Int} {l pre post : List Int}
    (ok : P.Ok room) (holds : P.Holds room k b) (separate : P.Separate k b) (bound : k < 9) (none : NoBuddies P)
    (list : P.free k = x :: l) (behind : x ≤ b)
    (found : firstPair (P.setList k (x :: insertTail b l)) = some (j, pre, a, post)) :
    NoBuddies ((P.setList k (x :: insertTail b l)).setList j post) := by
  have inserted := ok.insert holds separate bound list behind
  obtain ⟨_, pair, _⟩ := inserted.parent found
  obtain ⟨from_old, rfl, one⟩ := joined_pair ok holds separate bound none list behind found
  refine none.mono rfl ?_
  intro i _ y member
  by_cases same : i = j
  · subst same
    rw [Page.setList_self] at member
    have sorted := inserted.sorted i bound
    rw [pair] at sorted
    obtain ⟨_, tail, _⟩ := List.pairwise_append.mp sorted
    obtain ⟨belowA, tail⟩ := List.pairwise_cons.mp tail
    have aboveA := belowA y (List.mem_cons_of_mem _ member)
    have aboveC := (List.pairwise_cons.mp tail).1 y member
    rcases from_old y (by rw [pair]; simp [member]) with ⟨_, rfl⟩ | old
    · omega
    · exact old
  · rw [Page.setList_ne _ _ same, Page.setList_ne _ _ same] at member
    exact member

theorem merges_pair [Target] {P P' : Page} {room : Set Int} {k j : Nat} {b x a : Int} {l post : List Int}
    (ok : P.Ok room) (holds : P.Holds room k b) (separate : P.Separate k b) (bound : k < 9) (none : NoBuddies P)
    (list : P.free k = x :: l) (behind : x ≤ b)
    (found : firstPair (P.setList k (x :: insertTail b l)) = some (j, [], a, post))
    (rest : Merges ((P.setList k (x :: insertTail b l)).setList j post) (j + 1) a P') : Merges P k b P' := by
  have inserted := ok.insert holds separate bound list behind
  obtain ⟨next, pair, _⟩ := inserted.parent found
  have right : buddy P.base j a = a + blockSize j := inserted.buddies found
  obtain ⟨_, rfl, one⟩ := joined_pair ok holds separate bound none list behind found
  rw [Page.setList_self, List.nil_append] at pair
  obtain ⟨rfl, tail⟩ := List.cons.inj pair
  obtain ⟨ne, fresh⟩ := List.ne_and_not_mem_of_not_mem_cons (list ▸ separate.fresh bound)
  have left : x + blockSize j = b := one.resolve_left fun same => ne same.symm
  rw [left] at right tail
  have aligned := (ok.holds j bound x (by simp [list])).aligned
  have first : buddy P.base j b = x := by rw [← right, buddy_involutive bound aligned]
  have same := insertTail_head fresh tail
  apply Merges.join next
  · rw [first, list]
    exact List.mem_cons_self
  · rw [first, list, List.erase_cons_head, min_eq_right behind, same]
    rwa [Page.setList_setList] at rest

/-- On a page without free buddies, a free that misses no join merges its block, and leaves no free buddies. -/
theorem Freed.merges [Target] {P P' : Page} {room : Set Int} {k : Nat} {b : Int} (freed : Freed P k b P')
    (ok : P.Ok room) (holds : P.Holds room k b) (separate : P.Separate k b) (bound : k < 9) (none : NoBuddies P)
    (joins : ¬ MissesJoin P k b) : NoBuddies P' ∧ Merges P k b P' := by
  induction freed with
  | @empty P k b list =>
    have alone : Merges P k b _ := .alone (by simp [list])
    rw [list] at alone
    exact ⟨none.setList (fun x member => .inl (List.mem_singleton.mp member)) (by simp [list]) (by simp [list]), alone⟩
  | @front P k b x l list before =>
    have aligned : ∀ y ∈ P.free k, (y - P.base) % blockSize k = 0 := fun y member =>
      (ok.holds k bound y member).aligned
    have lone : buddy P.base k b ∉ P.free k := by
      intro free
      have sorted := ok.sorted k bound
      have apart := separate k bound x (by simp [list])
      rw [list] at sorted free
      have positive := blockSize_pos k
      -- the buddy comes first on the list, where the free misses it, or lies too far behind
      rcases List.mem_cons.mp free with same | later
      · exact joins (.front list before same)
      · have := (List.pairwise_cons.mp sorted).1 _ later
        unfold Apart at apart
        rcases buddy_cases P.base b k with h | h <;> omega
    have alone := Merges.alone lone
    rw [list, List.orderedInsert_cons_of_le _ _ (Int.le_of_lt before)] at alone
    exact ⟨none.setList (by rw [list]; exact fun y member => List.mem_cons.mp member) aligned lone, alone⟩
  | @quiet P k b x l list behind pairless =>
    have kept := noBuddies_of_noPair (ok.insert holds separate bound list behind) pairless
    obtain ⟨ne, fresh⟩ := List.ne_and_not_mem_of_not_mem_cons (list ▸ separate.fresh bound)
    have larger : ∃ y ∈ l, b < y := by
      by_contra last
      refine joins (.last list ?_)
      intro y member
      rcases List.mem_cons.mp member with rfl | member
      · exact behind
      · exact Int.not_lt.mp fun less => last ⟨y, member, less⟩
    have perm := insertTail_perm larger
    have lone : buddy P.base k b ∉ P.free k := by
      have apart := kept k bound b
      rw [Page.setList_self, Page.setList_base] at apart
      intro free
      rw [list] at free
      refine apart (List.mem_cons_of_mem _ (perm.symm.subset List.mem_cons_self)) ?_
      rcases List.mem_cons.mp free with same | later
      · exact List.mem_cons.mpr (.inl same)
      · exact List.mem_cons_of_mem _ (perm.symm.subset (List.mem_cons_of_mem _ later))
    have alone := Merges.alone lone
    rw [list, List.orderedInsert, if_neg (by omega), ← insertTail_ordered fresh larger] at alone
    exact ⟨kept, alone⟩
  | @join P k b x l j pre a post P' list behind found _ ih =>
    obtain ⟨next, _, rest, holdsParent, separateParent⟩ := (ok.insert holds separate bound list behind).parent found
    obtain ⟨kept, merges⟩ := ih rest holdsParent separateParent next
      (joined_rest ok holds separate bound none list behind found) fun misses => joins (.later list behind found misses)
    have first : pre = [] := by
      cases pre with
      | nil => rfl
      | cons y pre => exact absurd (.ahead list behind found) joins
    subst first
    exact ⟨kept, merges_pair ok holds separate bound none list behind found merges⟩

theorem MissesJoin.nonempty {P : Page} {k : Nat} {b : Int} (misses : MissesJoin P k b) : P.free k ≠ [] := by
  intro list
  cases misses with
  | front list' | last list' | ahead list' | later list' => cases list.symm.trans list'

theorem MissesJoin.on_list {P : Page} {k : Nat} {b x : Int} {l : List Int} (misses : MissesJoin P k b)
    (list : P.free k = x :: l) :
    b < x ∧ buddy P.base k b = x ∨ (∀ y ∈ x :: l, y ≤ b) ∨
      x ≤ b ∧ ∃ j pre a post, firstPair (P.setList k (x :: insertTail b l)) = some (j, pre, a, post) ∧
        (pre ≠ [] ∨ MissesJoin ((P.setList k (x :: insertTail b l)).setList j post) (j + 1) a) := by
  cases misses with
  | front list' before pair =>
    cases list.symm.trans list'
    exact .inl ⟨before, pair⟩
  | last list' last =>
    cases list.symm.trans list'
    exact .inr (.inl last)
  | ahead list' behind found =>
    cases list.symm.trans list'
    exact .inr (.inr ⟨behind, _, _, _, _, found, .inl (List.cons_ne_nil _ _)⟩)
  | later list' behind found rest =>
    cases list.symm.trans list'
    exact .inr (.inr ⟨behind, _, _, _, _, found, .inr rest⟩)

/-- A free that leaves no buddies free and loses no block has missed no join. -/
theorem Freed.joins [Target] {P P' : Page} {room : Set Int} {k : Nat} {b : Int} (freed : Freed P k b P')
    (ok : P.Ok room) (holds : P.Holds room k b) (separate : P.Separate k b) (bound : k < 9) (none : NoBuddies P')
    (keeps : ¬ Loses P k b) : ¬ MissesJoin P k b := by
  induction freed with
  | empty list => exact fun misses => misses.nonempty list
  | @front P k b x l list before =>
    intro misses
    rcases misses.on_list list with ⟨_, pair⟩ | last | ⟨behind, _⟩
    · refine none k bound b (by simp) ?_
      rw [Page.setList_base, pair]
      simp
    · have := last x List.mem_cons_self
      omega
    · omega
  | quiet list behind pairless =>
    intro misses
    rcases misses.on_list list with ⟨before, _⟩ | last | ⟨_, _, _, _, _, found, _⟩
    · omega
    · exact keeps (.beyond list last)
    · rw [pairless] at found
      cases found
  | @join P k b x l j pre a post P' list behind found _ ih =>
    intro misses
    rcases misses.on_list list with ⟨before, _⟩ | last | ⟨_, _, _, _, _, found', ahead | rest'⟩
    · omega
    · exact keeps (.beyond list last)
    · cases found.symm.trans found'
      obtain ⟨y, pre, rfl⟩ := List.exists_cons_of_ne_nil ahead
      exact keeps (.before list behind found)
    · cases found.symm.trans found'
      obtain ⟨next, _, rest, holdsParent, separateParent⟩ := (ok.insert holds separate bound list behind).parent found
      exact ih rest holdsParent separateParent next none (fun loses => keeps (.later list behind found loses)) rest'

/-- On a page without free buddies, a free merges its block and leaves no free buddies exactly when it misses no
    join. -/
theorem Freed.merges_iff [Target] {P P' : Page} {room : Set Int} {k : Nat} {b : Int} (freed : Freed P k b P')
    (ok : P.Ok room) (holds : P.Holds room k b) (separate : P.Separate k b) (bound : k < 9) (none : NoBuddies P) :
    NoBuddies P' ∧ Merges P k b P' ↔ ¬ MissesJoin P k b := by
  constructor
  · intro ⟨apart, merges⟩
    have exactly := (freed.freeBytes ok holds separate bound).2
    exact freed.joins ok holds separate bound apart (exactly.mp (merges.freeBytes bound))
  · exact freed.merges ok holds separate bound none

end Eecs343.Kma.Buddy
