import Eecs343.Kma.Buddy.Progress

namespace Eecs343.Kma.Buddy

open Effect Transition

variable [Target]

variable {w w' start last : World} {steps : List (World × Call)} {P Q : Page} {live live' : List (Int × Int)}
  {ps : List Page} {call : Call}

/-- A request that is accepted, takes a page whole and finds no page in use. -/
def StartsWhole (w : World) : Call → Prop
  | .malloc size _ => w.machine.firstPage = 0 ∧ roundUp (realSize size) = 8192 ∧ realSize size + sizeofPageheader ≤ 8192
  | _ => False

/-- Without live blocks no page is in use, and all pages have been given back. -/
def Clean (w : World) : Prop :=
  w.live = [] → w.machine.firstPage = 0 ∧ w.machine.pages = [] ∧ w.machine.numRequested = w.machine.numFreed ∧
    w.machine.numInUse = 0

/-- Only a request that finds no page in use and takes one whole leaves a page without live blocks. -/
theorem Origin.occupied (origin : Origin live ps live' call Q) (occupied : ∀ P ∈ ps, 1 ≤ P.used)
    (starts : ∀ {size supply}, call = .malloc size supply → ps = [] → 4096 < size + 3 * ptr → ¬ size + 24 * ptr ≤ 8192) :
    1 ≤ Q.used := by
  cases origin with
  | kept member same => exact occupied Q member
  | @carved _ _ b P P' source carved added =>
    rw [Page.addUsed_used, carved.used]
    rcases source with member | ⟨new, _⟩
    · have := occupied P member
      omega
    · rw [new, blank_used]
      rfl
  | @whole _ _ b page whole added =>
    change 1 ≤ (blank page).used + 1
    rw [blank_used]
    rfl
  | leaked first large fits none => exact absurd fits (starts rfl first large)
  | @freed _ _ P P' member page more spare freed removed =>
    have := occupied P member
    rw [Page.addUsed_used, freed.used]
    omega

theorem Inv.clean (inv : Inv w ps) (occupied : ∀ P ∈ ps, 1 ≤ P.used) : Clean w := by
  intro none
  have empty : ps = [] := by
    cases ps with
    | nil => rfl
    | cons P ps =>
      have here := occupied P List.mem_cons_self
      rw [inv.books.used P List.mem_cons_self, none] at here
      exact absurd here (Int.not_le.mpr Int.zero_lt_one)
  subst empty
  have inUse : w.machine.numInUse = 0 := inv.heap.inUse
  have balance := inv.heap.balance
  exact ⟨inv.heap.first, inv.heap.pages.eq_nil, by omega, inUse⟩

/-- In a run without such a request, no page is left once all blocks have been freed. -/
theorem clean_of_no_whole_start (run : Calls buddyAllocator start steps last)
    (good : ∀ taken ∈ steps, ¬ StartsWhole taken.1 taken.2) : ∀ w ∈ visited steps last, Clean w := by
  -- carried along the run: every page in use has a live block
  have held := run.2.invariant_visited (fun w call => ¬ StartsWhole w call)
    (fun w => ∃ ps, Inv w ps ∧ ∀ P ∈ ps, 1 ≤ P.used) ⟨[], Inv.initial run.1, by simp⟩ ?_ good
  · intro w member
    obtain ⟨ps, inv, occupied⟩ := held w member
    exact inv.clean occupied
  · intro w call w' ⟨ps, inv, occupied⟩ admitted step
    obtain ⟨qs, inv', origin⟩ := inv.step step
    refine ⟨qs, inv', fun Q member => (origin Q member).occupied occupied ?_⟩
    rintro size supply rfl rfl large fits
    cases step with
    | malloc low high offered ran =>
      refine admitted ⟨inv.heap.first, whole_of_large (q := (0, size)) low large fits, ?_⟩
      rw [realSize_eq (by omega) high]
      unfold sizeofPageheader
      omega

/-- A request that takes a page whole has no use for the new first page. -/
theorem Allocated.second {b page : Int} {qs : List Page} (allocated : Allocated [blank page] 8 b qs) : qs.length = 2 := by
  have useless : ∀ {ps qs : List Page}, (∀ P ∈ ps, ∃ page, P = blank page) → ¬ Served ps 8 b qs := by
    intro ps qs new served
    obtain ⟨P, member, j, above, source⟩ := served.source
    obtain ⟨page, rfl⟩ := new P member
    rw [blank_last above] at source
    exact absurd source List.not_mem_nil
  cases allocated with
  | kept served => exact absurd served (useless (by simp))
  | grown none served => exact absurd served (useless (by simp))
  | whole => rfl

theorem Inv.occupied_ne (inv : Inv w (P :: ps)) : w.machine.firstPage ≠ 0 ∧ w.machine.numInUse ≠ 0 := by
  refine ⟨inv.heap.firstPage_ne, ?_⟩
  rw [inv.heap.inUse, List.length_cons]
  omega

omit [Target] in
/-- A first request of 5000 bytes takes a second page whole; the first page outlives its free. -/
theorem first_page_outlives_5000 : ∃ target : Target, target.ptr = 8 ∧ ∃ b w₁ w₂,
    Calls buddyAllocator idle [(w₁, .free b 5000), (idle, .malloc 5000 (twoPages 8192))] w₂ ∧
      w₂.live = [] ∧ w₂.machine.firstPage ≠ 0 ∧ w₂.machine.numInUse ≠ 0 := by
  let target : Target := ⟨8, .inr rfl⟩
  obtain ⟨b, t₁, qs, step₁, allocated, inv₁⟩ := (Inv.initial idle_initial).malloc_next
    (show (1 : Int) ≤ 5000 by decide) (by decide) (show (8192 : Int) % 8192 = 0 from rfl) (by decide) (by decide)
    (by simp)
  have two : qs.length = 2 := Allocated.second allocated
  obtain ⟨t₂, l, P, r, rfl, _, step₂, freed⟩ := inv₁.free_step List.mem_cons_self
  have left : ∃ Q ps, Inv ⟨t₂, [(b, 5000)].erase (b, 5000)⟩ (Q :: ps) := by
    rcases freed with ⟨_, inv₂⟩ | ⟨_, P', _, inv₂⟩
    · obtain ⟨Q, ps, rest⟩ := List.exists_cons_of_length_pos (l := l ++ r) (by
        rw [List.length_append] at two ⊢
        rw [List.length_cons] at two
        omega)
      exact ⟨Q, ps, rest ▸ inv₂⟩
    · obtain ⟨Q, ps, rest⟩ := List.exists_cons_of_length_pos (l := l ++ P'.addUsed (-1) :: r) (by simp)
      exact ⟨Q, ps, rest ▸ inv₂⟩
  obtain ⟨Q, ps, inv₂⟩ := left
  exact ⟨target, rfl, b, _, _, ⟨idle_initial, .snoc (.snoc .refl step₁) step₂⟩, List.erase_cons_head _ _, inv₂.occupied_ne⟩

omit [Target] in
theorem clean_give_back : ∃ target : Target, target.ptr = 8 ∧ ∃ w₁ w₂,
    Calls buddyAllocator idle [(w₁, .free 8448 16), (idle, .malloc 16 (twoPages 8192))] w₂ ∧
      w₂.machine.firstPage = 0 ∧ w₂.machine.pages = [] ∧ w₂.machine.numRequested = w₂.machine.numFreed ∧
      w₂.machine.numInUse = 0 := by
  let target : Target := ⟨8, .inr rfl⟩
  obtain ⟨w₁, w₂, P, run, _, _, _, none⟩ := give_back target
  have starts : ¬ StartsWhole idle (.malloc 16 (twoPages 8192)) := fun whole => absurd whole.2.1 (by decide)
  have clean := clean_of_no_whole_start run <| List.forall_mem_cons.mpr
    ⟨id, List.forall_mem_cons.mpr ⟨starts, by simp⟩⟩
  exact ⟨target, rfl, w₁, w₂, run, clean w₂ List.mem_cons_self none⟩

end Eecs343.Kma.Buddy
