import Eecs343.Kma.Buddy.Page
import Mathlib.Data.List.Chain

namespace Eecs343.Kma.Buddy

/-- No block of the list is followed by its buddy. -/
def NoPair (base : Int) (k : Nat) (l : List Int) : Prop := l.IsChain fun x y => buddy base k x ≠ y

/-- The scan of one list by `coalesce`: the blocks before the first pair of buddies, its left
    block, and the blocks behind the pair. -/
def splitPair (base : Int) (k : Nat) : List Int → Option (List Int × Int × List Int)
  | a :: c :: rest =>
    if buddy base k a = c then some ([], a, rest)
    else (splitPair base k (c :: rest)).map fun (pre, x, post) => (a :: pre, x, post)
  | _ => none

theorem splitPair_none {base : Int} {k : Nat} {l : List Int} : splitPair base k l = none ↔ NoPair base k l := by
  unfold NoPair
  induction l with
  | nil => simp [splitPair]
  | cons a l ih =>
    cases l with
    | nil => simp [splitPair]
    | cons c rest =>
      unfold splitPair
      split
      · next pair => simp [pair]
      · next apart => simp [ih, apart]

theorem splitPair_some {base a : Int} {k : Nat} {l pre post : List Int}
    (found : splitPair base k l = some (pre, a, post)) :
    l = pre ++ a :: buddy base k a :: post ∧ NoPair base k (pre ++ [a]) := by
  induction l generalizing pre with
  | nil => cases found
  | cons x l ih =>
    cases l with
    | nil => cases found
    | cons c rest =>
      unfold splitPair at found
      split at found
      · next pair =>
        cases found
        exact ⟨by rw [pair]; rfl, by simp [NoPair]⟩
      · next apart =>
        obtain ⟨⟨pre', a', post'⟩, inner, same⟩ := Option.map_eq_some_iff.mp found
        cases same
        obtain ⟨list, first⟩ := ih inner
        refine ⟨by rw [list]; rfl, ?_⟩
        cases pre' with
        | nil =>
          cases list
          simpa [NoPair] using apart
        | cons y pre' =>
          cases list
          exact List.isChain_cons_cons.mpr ⟨apart, first⟩

/-- The scan of `coalesce` over the nine lists: the class of the first pair, and the pair. -/
def firstPair (P : Page) : Option (Nat × List Int × Int × List Int) :=
  (List.range 9).findSome? fun j => (splitPair P.base j (P.free j)).map (j, ·)

theorem firstPair_none {P : Page} : firstPair P = none ↔ ∀ j < 9, NoPair P.base j (P.free j) := by
  simp [firstPair, splitPair_none]

theorem firstPair_some {P : Page} {j : Nat} {pre post : List Int} {a : Int}
    (found : firstPair P = some (j, pre, a, post)) :
    j < 9 ∧ splitPair P.base j (P.free j) = some (pre, a, post) := by
  obtain ⟨i, inside, here⟩ := List.exists_of_findSome?_eq_some found
  obtain ⟨split, scanned, same⟩ := Option.map_eq_some_iff.mp here
  cases same
  exact ⟨List.mem_range.mp inside, scanned⟩

/-- What freeing a block does to the lists of its page. An empty list, or one whose first block
    lies higher, gets the block in front and nothing is joined. Otherwise the block is looked a
    place for, and the first pair of buddies of the smallest class is joined: the pair and all
    blocks before it leave their list, and the joined block is freed in turn. -/
inductive Freed : Page → Nat → Int → Page → Prop where
  | empty {P k b} (none : P.free k = []) : Freed P k b (P.setList k [b])
  | front {P k b x l} (list : P.free k = x :: l) (before : b < x) : Freed P k b (P.setList k (b :: x :: l))
  | quiet {P k b x l} (list : P.free k = x :: l) (behind : x ≤ b)
      (none : firstPair (P.setList k (x :: insertTail b l)) = none) : Freed P k b (P.setList k (x :: insertTail b l))
  | join {P k b x l j pre a post P'} (list : P.free k = x :: l) (behind : x ≤ b)
      (found : firstPair (P.setList k (x :: insertTail b l)) = some (j, pre, a, post))
      (rest : Freed ((P.setList k (x :: insertTail b l)).setList j post) (j + 1) a P') : Freed P k b P'

theorem Freed.of_none {P P' : Page} {k : Nat} {b : Int} (freed : Freed P k b P') (none : P.free k = []) :
    P' = P.setList k [b] := by
  cases freed with
  | empty => rfl
  | front list | quiet list | join list =>
    rw [none] at list
    cases list

theorem Freed.of_front {P P' : Page} {k : Nat} {b x : Int} {l : List Int} (freed : Freed P k b P')
    (list : P.free k = x :: l) (before : b < x) : P' = P.setList k (b :: x :: l) := by
  cases freed with
  | empty none =>
    rw [none] at list
    cases list
  | front list' =>
    rw [list] at list'
    cases list'
    rfl
  | quiet list' behind | join list' behind =>
    rw [list] at list'
    cases list'
    omega

theorem Freed.base {P P' : Page} {k : Nat} {b : Int} (freed : Freed P k b P') : P'.base = P.base := by
  induction freed with
  | join _ _ _ _ ih => exact ih
  | _ => rfl

theorem Freed.used {P P' : Page} {k : Nat} {b : Int} (freed : Freed P k b P') : P'.used = P.used := by
  induction freed with
  | join _ _ _ _ ih => exact ih
  | _ => rfl

theorem Freed.addUsed {P P' : Page} {k : Nat} {b : Int} (freed : Freed P k b P') (n : Int) :
    Freed (P.addUsed n) k b (P'.addUsed n) := by
  induction freed with
  | empty none => exact .empty none
  | front list before => exact .front list before
  | quiet list behind none => exact .quiet list behind none
  | join list behind found _ ih => exact .join list behind found ih

namespace Page

theorem addUsed_cancel (P : Page) (n : Int) : (P.addUsed n).addUsed (-n) = P := by
  unfold addUsed
  simp

variable [Target] {P : Page} {room : Set Int} {j k : Nat} {a b x : Int} {l pre post : List Int}

theorem Ok.insert (ok : P.Ok room) (holds : P.Holds room k b) (separate : P.Separate k b) (bound : k < 9)
    (list : P.free k = x :: l) (behind : x ≤ b) : (P.setList k (x :: insertTail b l)).Ok room := by
  have sorted := ok.sorted k bound
  have fresh := separate.fresh bound
  rw [list] at sorted fresh
  obtain ⟨below, tail⟩ := List.pairwise_cons.mp sorted
  have ne : b ≠ x := fun same => fresh (same ▸ List.mem_cons_self)
  refine ok.setList holds separate ?_ ?_ bound
  · intro y member
    rw [list]
    rcases List.mem_cons.mp member with rfl | member
    · exact .inr List.mem_cons_self
    · exact (mem_insertTail member).imp id (List.mem_cons_of_mem _)
  · refine List.pairwise_cons.mpr
      ⟨?_, insertTail_sorted tail fun member => fresh (List.mem_cons_of_mem _ member)⟩
    intro y member
    rcases mem_insertTail member with rfl | member
    · omega
    · exact below y member

theorem Ok.parent (ok : P.Ok room) (found : firstPair P = some (j, pre, a, post)) :
    j + 1 < 9 ∧ P.free j = pre ++ a :: (a + blockSize j) :: post ∧ (P.setList j post).Ok room ∧
      (P.setList j post).Holds room (j + 1) a ∧ (P.setList j post).Separate (j + 1) a := by
  obtain ⟨bound, scanned⟩ := firstPair_some found
  obtain ⟨found, _⟩ := splitPair_some scanned
  obtain ⟨c, pair⟩ : ∃ c, buddy P.base j a = c := ⟨_, rfl⟩
  rw [pair] at found
  have memA : a ∈ P.free j := by simp [found]
  have memC : c ∈ P.free j := by simp [found]
  have sorted := ok.sorted j bound
  rw [found] at sorted
  obtain ⟨_, tail, _⟩ := List.pairwise_append.mp sorted
  obtain ⟨belowA, tailC⟩ := List.pairwise_cons.mp tail
  obtain ⟨belowC, _⟩ := List.pairwise_cons.mp tailC
  have holdsA := ok.holds j bound a memA
  have holdsC := ok.holds j bound c memC
  obtain ⟨aligned, half⟩ := left_aligned bound holdsA.aligned (pair ▸ belowA c List.mem_cons_self)
  rw [pair] at half
  have positive := blockSize_pos j
  have double := blockSize_succ j
  have low := holdsA.low
  have high := holdsC.high
  have := ptr_bounds
  refine ⟨?_, half ▸ found, ok.sublist ?_, ⟨aligned, holdsA.low, ?_, ?_⟩, ?_⟩
  · by_contra last
    have whole : blockSize j = 8192 := by rw [show j = 8 from by omega]; rfl
    omega
  · rw [found]
    exact ((List.sublist_cons_self c post).trans (List.sublist_cons_self a _)).trans (List.sublist_append_right pre _)
  · rw [setList_base]
    omega
  · intro y low high
    by_cases inside : y < a + blockSize j
    · exact holdsA.inRoom y low inside
    · exact holdsC.inRoom y (by omega) (by omega)
  · intro i hi y member
    have origin : y ∈ P.free i ∧ (i = j → y ≠ a ∧ y ≠ c) := by
      by_cases same : i = j
      · subst same
        rw [setList_self] at member
        have aboveA := belowA y (List.mem_cons_of_mem _ member)
        have aboveC := belowC y member
        refine ⟨?_, fun _ => ⟨by omega, by omega⟩⟩
        rw [found]
        exact List.mem_append_right _ (List.mem_cons_of_mem _ (List.mem_cons_of_mem _ member))
      · rw [setList_ne _ _ same] at member
        exact ⟨member, fun eq => absurd eq same⟩
    have apartA := ok.apart i hi j bound y origin.1 a memA (by
      intro eq
      cases eq
      exact (origin.2 rfl).1 rfl)
    have apartC := ok.apart i hi j bound y origin.1 c memC (by
      intro eq
      cases eq
      exact (origin.2 rfl).2 rfl)
    have other := blockSize_pos i
    unfold Apart at apartA apartC ⊢
    omega

theorem Ok.buddies (ok : P.Ok room) (found : firstPair P = some (j, pre, a, post)) :
    buddy P.base j a = a + blockSize j := by
  obtain ⟨_, pair, _⟩ := ok.parent found
  obtain ⟨_, scanned⟩ := firstPair_some found
  obtain ⟨list, _⟩ := splitPair_some scanned
  rw [pair] at list
  have tails := List.append_cancel_left list
  exact (List.cons.inj (List.cons.inj tails).2).1.symm

end Page

theorem Freed.ok [Target] {P P' : Page} {room : Set Int} {k : Nat} {b : Int} (freed : Freed P k b P')
    (ok : P.Ok room) (holds : P.Holds room k b) (separate : P.Separate k b) (bound : k < 9) : P'.Ok room := by
  induction freed with
  | @empty P k b none =>
    exact ok.setList holds separate (fun x member => .inl (List.mem_singleton.mp member))
      (List.pairwise_singleton _ _) bound
  | @front P k b x l list before =>
    have sorted := ok.sorted k bound
    rw [list] at sorted
    refine ok.setList holds separate ?_ ?_ bound
    · intro y member
      rw [list]
      exact List.mem_cons.mp member
    · refine List.pairwise_cons.mpr ⟨?_, sorted⟩
      intro y member
      rcases List.mem_cons.mp member with rfl | member
      · exact before
      · exact Int.lt_trans before ((List.pairwise_cons.mp sorted).1 y member)
  | quiet list behind _ => exact ok.insert holds separate bound list behind
  | join list behind found _ ih =>
    obtain ⟨next, _, rest, holdsParent, separateParent⟩ := (ok.insert holds separate bound list behind).parent found
    exact ih rest holdsParent separateParent next

end Eecs343.Kma.Buddy
