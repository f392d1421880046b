import Eecs343.Kma.Buddy.Pages

namespace Eecs343.Kma.Buddy

open Bytes Linked

variable [Target]

variable {s : Machine} {m m' : Memory} {P P' : Page} {room : Int → Set Int} {next : Int} {j k : Nat}
  {ps l r : List Page}

theorem headHeader_cons (P : Page) (r : List Page) : headHeader (P :: r) = P.header := rfl

theorem Chained.link (chained : Chained m room (l ++ P :: r)) : load m ptr (P.header + ptr) = headHeader r := by
  have path := chained.path
  rw [List.map_append, List.map_cons] at path
  obtain ⟨_, _, _, rest⟩ := path_append.mp path
  have start := rest.start
  exact start

theorem ladder_header (legal : Legal P.base) (bound : j < 9) :
    getRequiredBuffer (blockSize j) P.header = buffer P.header j :=
  getRequiredBuffer_eq legal (sizeClass_blockSize bound)

/-- The inner loop of the search stops at the first page with a block of the class, or finds none. -/
theorem walkPages_spec {n : Nat} (chained : Chained m room (l ++ r)) (bound : j < 9) (enough : r.length < n) :
    wpm (walkPages n (blockSize j) (headHeader r) (getRequiredBuffer (blockSize j) (headHeader r)))
      (fun found m' => m' = m ∧ ((∃ l' P r', r = l' ++ P :: r' ∧ (∀ Q ∈ l', Q.free j = []) ∧ P.free j ≠ [] ∧
          found = (P.header, buffer P.header j)) ∨
        ((∀ P ∈ r, P.free j = []) ∧ found = (0, 0)))) s m := by
  induction n generalizing l r with
  | zero => cases enough
  | succ n ih =>
    unfold walkPages
    cases r with
    | nil =>
      rw [wpm_pos (show headHeader [] = 0 from rfl), wpm_pure]
      exact ⟨rfl, .inr ⟨fun P member => absurd member List.not_mem_nil, rfl⟩⟩
    | cons P r =>
      have legal := chained.legal (P := P) (by simp)
      have start := ((chained.sound P (by simp)).rep.lists j bound).head
      rw [headHeader_cons, ladder_header legal bound, wpm_neg (header_ne legal), wpm_read_bind, Int.add_zero, start]
      refine ⟨buffer_ne legal bound, ?_⟩
      cases list : P.free j with
      | nil =>
        rw [List.headD_nil, wpm_pos rfl, wpm_read_bind, chained.link]
        refine ⟨header_ne legal, ?_⟩
        have rest : Chained m room ((l ++ [P]) ++ r) := by simpa using chained
        refine wpm_mono (ih rest (by simpa using enough)) ?_
        rintro found m' ⟨rfl, here | none⟩
        · obtain ⟨l', Q, r', rfl, before, some, eq⟩ := here
          exact ⟨rfl, .inl ⟨P :: l', Q, r', rfl, List.forall_mem_cons.mpr ⟨list, before⟩, some, eq⟩⟩
        · exact ⟨rfl, .inr ⟨List.forall_mem_cons.mpr ⟨list, none.1⟩, none.2⟩⟩
      | cons b rest =>
        have nonzero := (Sound.block legal ((chained.sound P (by simp)).ok.holds j bound b (by simp [list]))).1
        rw [List.headD_cons, wpm_neg nonzero, wpm_pure]
        exact ⟨rfl, .inl ⟨[], P, r, rfl, by simp, by simp [list], rfl⟩⟩

/-- What a search needs of the pages: room for one more count, and no list with a block that its
    page header would be split off from. -/
def Ready (k : Nat) (ps : List Page) : Prop :=
  ∀ P ∈ ps, Fits 4 (P.used + 1) ∧ ∀ j < 9, ∀ b ∈ P.free j, P.base + 32 * ptr ≤ b + blockSize k

/-- The pages after a search has taken the first block of the smallest class from `k` on that any
    page has, from the first page that has one. -/
inductive Found (ps : List Page) (k : Nat) (b : Int) : List Page → Prop where
  | mk {l P r i rest} (split : ps = l ++ P :: r) (bound : k + i < 9) (list : P.free (k + i) = b :: rest)
      (lower : ∀ Q ∈ ps, ∀ x < i, Q.free (k + x) = []) (before : ∀ Q ∈ l, Q.free (k + i) = []) :
      Found ps k b (l ++ (halves b k i (P.setList (k + i) rest)).addUsed 1 :: r)

/-- The search carves a block of class `k` from one page, or no page has a block of class `k` or
    more. -/
theorem searchBuffers_spec {n i : Nat} {first : Page} (chained : Chained m room (first :: ps))
    (ready : Ready k (first :: ps)) (start : s.firstPage = first.base) (enough : 10 ≤ n + (k + i)) (bound : k + i ≤ 9)
    (lower : ∀ P ∈ first :: ps, ∀ x < i, P.free (k + x) = []) (short : ps.length + 1 < fuel) :
    wpm (searchBuffers n i (blockSize (k + i)) first.header (getRequiredBuffer (blockSize (k + i)) first.header))
      (fun b m' =>
        (∃ qs, Found (first :: ps) k b qs ∧ Chained m' room qs) ∨
        (b = 0 ∧ m' = m ∧ ∀ P ∈ first :: ps, ∀ x, k + x < 9 → P.free (k + x) = [])) s m := by
  induction n generalizing i with
  | zero => omega
  | succ n ih =>
    unfold searchBuffers
    by_cases last : k + i = 9
    · have big : ¬ blockSize (k + i) ≤ 8192 := by rw [last]; decide
      rw [wpm_neg big, wpm_pure]
      exact .inr ⟨rfl, rfl, fun P member x inside => lower P member x (by omega)⟩
    · have small : blockSize (k + i) ≤ 8192 := blockSize_mono (j := k + i) (k := 8) (by omega)
      have inside : k + i < 9 := by omega
      rw [wpm_pos small]
      apply wpm_bind
      refine wpm_mono (walkPages_spec (l := []) chained inside (by simpa using short)) ?_
      rintro _ m₁ ⟨rfl, ⟨l, P, r, split, before, some, rfl⟩ | ⟨none, rfl⟩⟩
      · have member : P ∈ first :: ps := by rw [split]; simp
        obtain ⟨b, rest, list⟩ := List.exists_cons_of_ne_nil some
        obtain ⟨fits, beyond⟩ := ready P member
        have sound := chained.sound P member
        dsimp only
        rw [wpm_neg (buffer_ne sound.legal inside)]
        refine wpm_mono (takeBlock_spec sound inside list (fun x less => lower P member x less)
          (beyond (k + i) inside b (by simp [list])) fits) ?_
        rintro b m₂ ⟨rfl, P', carved, taken, frame⟩
        obtain ⟨-, rfl⟩ := carved.eq list fun x less => lower P member x less
        have found := Found.mk split inside list lower before
        rw [split] at chained
        exact .inl ⟨_, found, chained.replace carved.base taken frame⟩
      · have again : pageHeader first.base = first.header := rfl
        dsimp only
        rw [wpm_pos rfl, wpm_get_bind]
        dsimp only
        rw [start, again, Int.mul_comm, ← blockSize_succ]
        refine ih (by omega) (by omega) fun P member x less => ?_
        rcases Nat.lt_succ_iff_lt_or_eq.mp less with less | rfl
        · exact lower P member x less
        · exact none P member

theorem lastPage_spec {n : Nat} {prev : Int} (chained : Chained m room (l ++ r)) (enough : r.length < n) :
    wpm (lastPage n (headHeader r) prev) (fun last m' => m' = m ∧ last = (r.map Page.header).getLastD prev) s m := by
  induction n generalizing l r prev with
  | zero => cases enough
  | succ n ih =>
    unfold lastPage
    cases r with
    | nil =>
      rw [wpm_pos (show headHeader [] = 0 from rfl), wpm_pure]
      exact ⟨rfl, rfl⟩
    | cons P r =>
      have legal := chained.legal (P := P) (by simp)
      have rest : Chained m room ((l ++ [P]) ++ r) := by simpa using chained
      rw [headHeader_cons, wpm_neg (header_ne legal), wpm_read_bind, chained.link]
      refine ⟨header_ne legal, wpm_mono (ih rest (by simpa using enough)) ?_⟩
      rintro last m' ⟨rfl, eq⟩
      refine ⟨rfl, ?_⟩
      rw [eq, List.map_cons, List.getLastD_cons]

end Eecs343.Kma.Buddy
