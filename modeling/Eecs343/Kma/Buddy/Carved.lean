import Eecs343.Kma.Buddy.Joined
import Eecs343.Kma.Buddy.Balance

namespace Eecs343.Kma.Buddy

/-- The right halves left on the lists of the classes from `k + i - 1` down to `k`, when the block
    at `b` of class `k + i` is split until a block of class `k` is left at `b`. -/
def halves (b : Int) (k : Nat) : Nat → Page → Page
  | 0, P => P
  | i + 1, P => halves b k i (P.setList (k + i) [b + blockSize (k + i)])

/-- Taking a block of class `k`: the first one of the first list from `k` on that has any, split
    until its class is `k`. -/
inductive Carved (P : Page) (k : Nat) (b : Int) : Page → Prop where
  | mk {i rest} (bound : k + i < 9) (list : P.free (k + i) = b :: rest) (lower : ∀ x < i, P.free (k + x) = []) :
    Carved P k b (halves b k i (P.setList (k + i) rest))

variable {P P' : Page} {k : Nat} {b : Int}

theorem halves_base (i : Nat) : (halves b k i P).base = P.base := by
  induction i generalizing P with
  | zero => rfl
  | succ i ih => exact ih

theorem halves_used (i : Nat) : (halves b k i P).used = P.used := by
  induction i generalizing P with
  | zero => rfl
  | succ i ih => exact ih

theorem Carved.base (carved : Carved P k b P') : P'.base = P.base := by
  cases carved
  exact halves_base _

theorem Carved.used (carved : Carved P k b P') : P'.used = P.used := by
  cases carved
  exact halves_used _

theorem Carved.source (carved : Carved P k b P') : ∃ j < 9, k ≤ j ∧ b ∈ P.free j := by
  cases carved with
  | @mk i rest bound list lower => exact ⟨k + i, bound, Nat.le_add_right k i, by simp [list]⟩

theorem Carved.eq {c : Int} {i : Nat} {rest : List Int} (carved : Carved P k b P') (list : P.free (k + i) = c :: rest)
    (lower : ∀ x < i, P.free (k + x) = []) :
    b = c ∧ P' = halves c k i (P.setList (k + i) rest) := by
  cases carved with
  | @mk j other bound list' lower' =>
    rcases Nat.lt_trichotomy i j with less | rfl | less
    · rw [lower' i less] at list
      cases list
    · rw [list] at list'
      cases list'
      exact ⟨rfl, rfl⟩
    · rw [lower j less] at list'
      cases list'

/-- A block of class `k` that can be handed out: it lies in the room and on no list. -/
structure Page.Spare [Target] (P : Page) (room : Set Int) (k : Nat) (b : Int) : Prop where
  ok : P.Ok room
  holds : P.Holds room k b
  separate : P.Separate k b

section

variable [Target] {room : Set Int}

theorem Page.Ok.pop (ok : P.Ok room) {rest : List Int} (bound : k < 9) (list : P.free k = b :: rest) :
    (P.setList k rest).Spare room k b := by
  have member : b ∈ P.free k := by simp [list]
  refine ⟨ok.sublist (by rw [list]; exact List.sublist_cons_self b rest), (ok.holds k bound b member).of_base rfl, ?_⟩
  intro j inside a memberA
  have sorted := ok.sorted k bound
  rw [list] at sorted
  by_cases same : j = k
  · subst same
    rw [Page.setList_self] at memberA
    have less := (List.pairwise_cons.mp sorted).1 a memberA
    refine ok.apart j inside j inside a (by simp [list, memberA]) b member fun eq => ?_
    cases eq
    exact absurd less (Int.lt_irrefl _)
  · rw [Page.setList_ne _ _ same] at memberA
    refine ok.apart j inside k bound a memberA b member fun eq => ?_
    cases eq
    exact same rfl

theorem Page.Spare.halve (spare : P.Spare room (k + 1) b) (bound : k + 1 < 9) (none : P.free k = [])
    (beyond : P.base + 32 * ptr ≤ b + blockSize k) :
    P.Holds room k (b + blockSize k) ∧ P.Separate k (b + blockSize k) ∧
      (P.setList k [b + blockSize k]).Spare room k b := by
  have double := blockSize_succ k
  have positive := blockSize_pos k
  obtain ⟨ok, holds, separate⟩ := spare
  have low := holds.low
  have high := holds.high
  have aligned := holds.aligned
  have right : P.Holds room k (b + blockSize k) := by
    refine ⟨?_, .inr beyond, by omega, fun x low high => holds.inRoom x (by omega) (by omega)⟩
    have halves : (b - P.base) % blockSize k = 0 := by
      rw [double] at aligned
      exact Int.emod_eq_zero_of_dvd (Dvd.dvd.trans (Dvd.intro_left 2 rfl) (Int.dvd_of_emod_eq_zero aligned))
    rw [show b + blockSize k - P.base = b - P.base + blockSize k from by ring, Int.add_emod_right, halves]
  have left : P.Holds room k b := by
    refine ⟨?_, low, by omega, fun x low high => holds.inRoom x (by omega) (by omega)⟩
    rw [double] at aligned
    exact Int.emod_eq_zero_of_dvd (Dvd.dvd.trans (Dvd.intro_left 2 rfl) (Int.dvd_of_emod_eq_zero aligned))
  have apartRight : P.Separate k (b + blockSize k) := by
    intro j inside a member
    have apart := separate j inside a member
    unfold Apart at apart ⊢
    omega
  refine ⟨right, apartRight, ok.setList right apartRight (fun x member => .inl (List.mem_singleton.mp member))
    (List.pairwise_singleton _ _) (by omega), left.of_base rfl, ?_⟩
  intro j inside a member
  by_cases same : j = k
  · subst same
    rw [Page.setList_self] at member
    cases List.mem_singleton.mp member
    exact .inr (le_refl _)
  · rw [Page.setList_ne _ _ same] at member
    have apart := separate j inside a member
    unfold Apart at apart ⊢
    omega

theorem Page.Spare.halves {i : Nat} (spare : P.Spare room (k + i) b) (bound : k + i < 9)
    (lower : ∀ x < i, P.free (k + x) = []) (beyond : P.base + 32 * ptr ≤ b + blockSize k) :
    (Buddy.halves b k i P).Spare room k b := by
  induction i generalizing P with
  | zero => exact spare
  | succ i ih =>
    have more := blockSize_mono (show k ≤ k + i from by omega)
    obtain ⟨_, _, spare'⟩ := spare.halve (k := k + i) bound (lower i (by omega)) (by omega)
    refine ih spare' (by omega) (fun x less => ?_) beyond
    rw [Page.setList_ne _ _ (by omega)]
    exact lower x (by omega)

theorem Carved.spare (carved : Carved P k b P') (ok : P.Ok room) (beyond : P.base + 32 * ptr ≤ b + blockSize k) :
    P'.Spare room k b := by
  cases carved with
  | mk bound list lower =>
    refine (ok.pop bound list).halves bound (fun x less => ?_) beyond
    rw [Page.setList_ne _ _ (by omega)]
    exact lower x less

theorem Page.Spare.taken (spare : P.Spare room k b) : P.Ok (room \ {x | b ≤ x ∧ x < b + blockSize k}) := by
  refine spare.ok.change fun j bound a member x old low high => ⟨old, ?_⟩
  intro ⟨above, below⟩
  have apart := spare.separate j bound a member
  unfold Apart at apart
  omega

end

theorem halves_freeBytes {i : Nat} (bound : k + i < 9) (lower : ∀ x < i, P.free (k + x) = []) :
    (halves b k i P).freeBytes = P.freeBytes + blockSize (k + i) - blockSize k := by
  induction i generalizing P with
  | zero => simp [halves]
  | succ i ih =>
    have sum := P.freeBytes_setList [b + blockSize (k + i)] (show k + i < 9 from by omega)
    rw [lower i (by omega)] at sum
    have double := blockSize_succ (k + i)
    rw [halves, ih (by omega) fun x less => by rw [Page.setList_ne _ _ (by omega)]; exact lower x (by omega), sum]
    simp only [List.length_singleton, List.length_nil]
    rw [← Nat.add_assoc, double]
    push_cast
    ring

theorem Carved.freeBytes (carved : Carved P k b P') : P'.freeBytes = P.freeBytes - blockSize k := by
  cases carved with
  | @mk i rest bound list lower =>
    have sum := P.freeBytes_setList rest bound
    rw [list, List.length_cons] at sum
    rw [halves_freeBytes bound fun x less => by rw [Page.setList_ne _ _ (by omega)]; exact lower x less, sum]
    push_cast
    ring

theorem halves_noBuddies {i : Nat} (bound : k + i < 9) (lower : ∀ x < i, P.free (k + x) = []) (none : NoBuddies P) :
    NoBuddies (halves b k i P) := by
  induction i generalizing P with
  | zero => exact none
  | succ i ih =>
    have empty := lower i (by omega)
    refine ih (by omega) (fun x less => ?_) (none.setList (b := b + blockSize (k + i)) ?_ ?_ ?_)
    · rw [Page.setList_ne _ _ (by omega)]
      exact lower x (by omega)
    · exact fun x member => .inl (List.mem_singleton.mp member)
    · simp [empty]
    · simp [empty]

theorem Carved.noBuddies (carved : Carved P k b P') (none : NoBuddies P) : NoBuddies P' := by
  cases carved with
  | @mk i rest bound list lower =>
    refine halves_noBuddies bound (fun x less => ?_) (none.mono rfl fun j inside x member => ?_)
    · rw [Page.setList_ne _ _ (by omega)]
      exact lower x less
    · by_cases same : j = k + i
      · subst same
        rw [Page.setList_self] at member
        rw [list]
        exact List.mem_cons_of_mem _ member
      · rwa [Page.setList_ne _ _ same] at member

end Eecs343.Kma.Buddy
