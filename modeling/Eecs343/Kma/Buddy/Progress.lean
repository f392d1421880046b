import Eecs343.Kma.Buddy.Origin

namespace Eecs343.Kma.Buddy

open Effect Transition

variable [Target]

variable {s : Machine} {w : World} {P P' : Page} {live supply : List (Int × Int)} {ps qs l r : List Page}
  {b c p size page : Int} {rest : List Int} {i k : Nat}

theorem Inv.malloc_returns (inv : Inv w ps) (low : 1 ≤ size) (high : size < 2 ^ 31)
    (offered : Offered { w.machine with supply := supply }) (enough : 2 ≤ supply.length) :
    ∃ b t, (kmaMalloc size).run { w.machine with supply := supply } = .ok (b, t) ∧
      ((8192 < size + 24 * ptr ∧ b = 0) ∨ (size + 24 * ptr ≤ 8192 ∧ b ≠ 0 ∧
        ∃ qs, Allocated (opened ps supply) (sizeClass (size + 3 * ptr)) b qs ∧ Inv ⟨t, (b, size) :: w.live⟩ qs)) := by
  obtain ⟨s, live⟩ := w
  obtain ⟨b, t, ran, post⟩ := wp_returns (wp_total_of (inv.malloc low high offered) fun _ few => by omega)
  refine ⟨b, t, ran, ?_⟩
  rcases post with ⟨excess, null, _⟩ | ⟨fits, some, qs, allocated, inv', _⟩
  · exact .inl ⟨excess, null⟩
  · exact .inr ⟨fits, some, qs, allocated, inv'⟩

theorem Inv.malloc_step (inv : Inv w ps) (low : 1 ≤ size) (fits : size + 24 * ptr ≤ 8192)
    (offered : Offered { w.machine with supply := supply }) (enough : 2 ≤ supply.length) :
    ∃ b t qs, Step buddyAllocator w (.malloc size supply) ⟨t, (b, size) :: w.live⟩ ∧
      Allocated (opened ps supply) (sizeClass (size + 3 * ptr)) b qs ∧ Inv ⟨t, (b, size) :: w.live⟩ qs := by
  have := ptr_bounds
  obtain ⟨b, t, ran, ⟨excess, _⟩ | ⟨_, some, qs, allocated, inv'⟩⟩ :=
    inv.malloc_returns low (by omega) offered enough
  · omega
  · have step : Step buddyAllocator w (.malloc size supply) ⟨t, if b = 0 then w.live else (b, size) :: w.live⟩ :=
      .malloc low (by omega) offered ran
    rw [if_neg some] at step
    exact ⟨b, t, qs, step, allocated, inv'⟩

theorem Inv.free_step (inv : Inv w ps) (member : (p, size) ∈ w.live) :
    ∃ t l P r, ps = l ++ P :: r ∧ baseAddr p = P.base ∧ Step buddyAllocator w (.free p size) ⟨t, w.live.erase (p, size)⟩ ∧
      ((P.used = 1 ∧ Inv ⟨t, w.live.erase (p, size)⟩ (l ++ r)) ∨ (P.used ≠ 1 ∧ ∃ P', Freed P (sizeClass size) p P' ∧
        Inv ⟨t, w.live.erase (p, size)⟩ (l ++ P'.addUsed (-1) :: r))) := by
  obtain ⟨s, live⟩ := w
  obtain ⟨l, P, r, split, page, freed⟩ := inv.free member
  obtain ⟨_, t, ran, post⟩ := wp_returns freed
  refine ⟨t, l, P, r, split, page, .free member ran, ?_⟩
  rcases post with released | ⟨more, _, P', freed, inv'⟩
  · exact .inl released
  · exact .inr ⟨more, P', freed, inv'⟩

theorem Allocated.single (allocated : Allocated [P] k b qs) (list : P.free (k + i) = c :: rest)
    (lower : ∀ x < i, P.free (k + x) = []) (bound : k + i < 9) :
    b = c ∧ qs = [(halves c k i (P.setList (k + i) rest)).addUsed 1] := by
  have some : ¬ NoneFrom k [P] := fun none => by
    have empty := none P List.mem_cons_self i bound
    rw [list] at empty
    cases empty
  cases allocated with
  | kept served =>
    obtain ⟨P', carved, rfl⟩ := served.singleton
    obtain ⟨rfl, rfl⟩ := carved.eq list lower
    exact ⟨rfl, rfl⟩
  | grown none | whole none => exact absurd none some

theorem Inv.malloc_next (inv : Inv w ps) (low : 1 ≤ size) (fits : size + 24 * ptr ≤ 8192) (aligned : page % 8192 = 0)
    (positive : 0 < page) (small : page < 2 ^ 30) (above : ∀ P ∈ ps, P.base < page) :
    ∃ b t qs, Step buddyAllocator w (.malloc size (twoPages page)) ⟨t, (b, size) :: w.live⟩ ∧
      Allocated (opened ps (twoPages page)) (sizeClass (size + 3 * ptr)) b qs ∧ Inv ⟨t, (b, size) :: w.live⟩ qs := by
  refine inv.malloc_step low fits (twoPages_offered aligned positive small fun used member => ?_) (le_refl 2)
  obtain ⟨P, memberP, rfl⟩ := List.mem_map.mp (inv.heap.pages.subset member)
  exact above P memberP

theorem Inv.free_single (inv : Inv w [P]) (member : (p, size) ∈ w.live) (more : P.used ≠ 1) :
    ∃ t P', Step buddyAllocator w (.free p size) ⟨t, w.live.erase (p, size)⟩ ∧ Freed P (sizeClass size) p P' ∧
      Inv ⟨t, w.live.erase (p, size)⟩ [P'.addUsed (-1)] := by
  obtain ⟨t, l, Q, r, split, _, step, freed⟩ := inv.free_step member
  cases l with
  | nil =>
    cases split
    obtain ⟨one, _⟩ | ⟨_, P', freed, inv'⟩ := freed
    · exact absurd one more
    · exact ⟨t, P', step, freed, inv'⟩
  | cons _ l => exact absurd (congrArg List.length split) (by simp)

omit [Target] in
theorem give_back (target : Target) : ∃ w₁ w₂ P,
    Calls buddyAllocator idle [(w₁, .free (8192 + 32 * ptr) 16), (idle, .malloc 16 (twoPages 8192))] w₂ ∧
      Inv w₁ [P] ∧ baseAddr (8192 + 32 * ptr) = P.base ∧ P.used = 1 ∧ w₂.live = [] := by
  have := ptr_bounds
  obtain ⟨b, t₁, qs, step₁, allocated, inv₁⟩ := (Inv.initial idle_initial).malloc_next (show (1 : Int) ≤ 16 by decide)
    (by omega) (show (8192 : Int) % 8192 = 0 from rfl) (by decide) (by decide) (by simp)
  have third : sizeClass (16 + 3 * ptr) + 2 = headerClass := by
    obtain ⟨_, rfl | rfl⟩ := target <;> rfl
  have less := headerClass_lt
  have list : (blank 8192).free (sizeClass (16 + 3 * ptr) + 2) = ([8192 + 32 * ptr] : List Int) := by
    rw [third, blank_free, if_pos ⟨le_refl _, less⟩, headerClass_size]
  obtain ⟨rfl, rfl⟩ := allocated.single list (fun x below => by rw [blank_free, if_neg (by omega)]) (by omega)
  obtain ⟨t₂, _, _, _, _, _, step₂, _⟩ := inv₁.free_step List.mem_cons_self
  obtain ⟨P, memberP, home⟩ := inv₁.books.home _ List.mem_cons_self
  cases List.mem_singleton.mp memberP
  refine ⟨_, _, _, ⟨idle_initial, .snoc (.snoc .refl step₁) step₂⟩, inv₁, home, ?_, List.erase_cons_head _ _⟩
  rw [Page.addUsed_used, halves_used, Page.setList_used, blank_used]
  rfl

def carvedOnce : Page := (halves 8448 1 2 ((blank 8192).setList 3 [])).addUsed 1

def carvedTwice : Page := (halves 8512 1 0 (carvedOnce.setList 1 [])).addUsed 1

omit [Target] in
theorem two_requests (low : 1 ≤ size) (most : size ≤ 8000) (small : sizeClass (size + 24) = 1) :
    let _ : Target := ⟨8, .inr rfl⟩
    ∃ w₁ w₂, Step buddyAllocator idle (.malloc size (twoPages 8192)) w₁ ∧
      Step buddyAllocator w₁ (.malloc size (twoPages 16384)) w₂ ∧ w₂.live = [(8512, size), (8448, size)] ∧
      Inv w₁ [carvedOnce] ∧ Inv w₂ [carvedTwice] := by
  intro target
  have fits : size + 24 * ptr ≤ 8192 := show size + 192 ≤ 8192 by omega
  have inv₀ := Inv.initial idle_initial
  obtain ⟨b₁, t₁, _, step₁, allocated₁, inv₁⟩ :=
    inv₀.malloc_next low fits (show (8192 : Int) % 8192 = 0 from rfl) (by decide)
    (by decide) (by simp)
  replace allocated₁ : Allocated [blank 8192] (sizeClass (size + 24)) b₁ _ := allocated₁
  rw [small] at allocated₁
  obtain ⟨rfl, rfl⟩ := allocated₁.single (i := 2) (show _ = [8448] from rfl) (by decide) (by decide)
  obtain ⟨b₂, t₂, _, step₂, allocated₂, inv₂⟩ :=
    inv₁.malloc_next low fits (show (16384 : Int) % 8192 = 0 from rfl) (by decide)
    (by decide) (by decide)
  replace allocated₂ : Allocated [carvedOnce] (sizeClass (size + 24)) b₂ _ := allocated₂
  rw [small] at allocated₂
  obtain ⟨rfl, rfl⟩ := allocated₂.single (i := 0) (show _ = [8512] from rfl) (by decide) (by decide)
  exact ⟨_, _, step₁, step₂, rfl, inv₁, inv₂⟩

end Eecs343.Kma.Buddy
