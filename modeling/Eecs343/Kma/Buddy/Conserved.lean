import Eecs343.Kma.Buddy.Progress

namespace Eecs343.Kma.Buddy

open Bytes Effect Linked Transition

variable [Target]

variable {s : Machine} {w w' start last : World} {steps : List (World × Call)} {P P' Q : Page}
  {live live' : List (Int × Int)} {ps qs : List Page} {p size : Int} {call : Call}

/-- The block of the header, the carved live blocks and the free blocks make up the page, unless
    one request has it whole. -/
def Page.Full (live : List (Int × Int)) (P : Page) : Prop :=
  (∀ q ∈ own live P, ¬ Whole q) →
    roundUp (realSize sizeofPageheader) + ((own live P).map fun q => roundUp (realSize q.2)).sum + P.freeBytes = 8192

/-- No byte of a page in use has been lost. -/
def Conserves (w : World) : Prop := EachPage w (Page.Full w.live)

/-- A free that loses no bytes: the page is given back, or `size` has the class its request had and
    the block takes no branch that loses bytes. -/
def KeepsBytes (w : World) : Call → Prop
  | .free p size => HomePage w p fun P =>
      P.used = 1 ∨ roundUp size = roundUp (realSize size) ∧ ¬ Loses P (sizeClass size) p
  | _ => True

theorem roundUp_header : roundUp (realSize sizeofPageheader) = 32 * ptr := by
  have := ptr_bounds
  have positive : 1 ≤ sizeofPageheader ∧ sizeofPageheader + 3 * ptr ≤ 8192 := by
    unfold sizeofPageheader
    omega
  rw [roundUp_realSize positive.1 positive.2]
  unfold sizeofPageheader
  rcases Target.ptr_cases with h | h <;> rw [h] <;> simp [sizeClass, blockSize]

/-- What a free puts back is what its request took, exactly under the condition of `KeepsBytes`. -/
theorem Freed.exact {room : Set Int} (freed : Freed P (sizeClass size) p P') (spare : P.Spare room (sizeClass size) p)
    (carries : Carries P (p, size)) :
    P'.freeBytes = P.freeBytes + roundUp (realSize size) ↔
      roundUp size = roundUp (realSize size) ∧ ¬ Loses P (sizeClass size) p := by
  have := ptr_bounds
  have small : size + 3 * ptr ≤ 4096 := carries.small
  have positive : 1 ≤ size := carries.positive
  obtain ⟨most, equal⟩ := freed.freeBytes spare.ok spare.holds spare.separate (sizeClass_lt size)
  have shorter := blockSize_mono (sizeClass_mono (show size ≤ size + 3 * ptr by omega) (by omega))
  rw [roundUp_sizeClass positive (by omega), roundUp_realSize positive (by omega), ← equal]
  omega

theorem Page.Full.perm (full : P.Full live) (perm : (own live' P).Perm (own live P)) : P.Full live' := by
  intro none
  rw [(perm.map fun q => roundUp (realSize q.2)).sum_eq]
  exact full fun q member => none q (perm.symm.subset member)

theorem blank_full (page : Int) (none : own live (blank page) = []) : (blank page).Full live := by
  intro _
  rw [none, List.map_nil, List.sum_nil, roundUp_header, blank_bytes]
  omega

theorem Carved.full {b : Int} (carved : Carved P (sizeClass (size + 3 * ptr)) b P') (full : P.Full live)
    (added : own live' P = (b, size) :: own live P) (shared : (P'.addUsed 1).Shared (own live' (P'.addUsed 1))) :
    (P'.addUsed 1).Full live' := by
  intro none
  rw [own_base (show (P'.addUsed 1).base = P.base from carved.base), added] at none shared ⊢
  obtain ⟨here, others⟩ := List.forall_mem_cons.mp none
  have before := full others
  have length : roundUp (realSize size) = blockSize (sizeClass (size + 3 * ptr)) := by
    cases shared with
    | carved carries _ =>
      have block : Carries (P'.addUsed 1) (b, size) := carries (b, size) List.mem_cons_self
      have length := roundUp_carved block
      exact length
    | whole only large fits =>
      have := ptr_bounds
      obtain rfl := (List.cons.inj only).1
      exact absurd (whole_of_large (by omega) large fits) here
  have taken : (P'.addUsed 1).freeBytes = P.freeBytes - blockSize (sizeClass (size + 3 * ptr)) := carved.freeBytes
  rw [List.map_cons, List.sum_cons, length, taken]
  omega

theorem Origin.full {supply : List (Int × Int)} (origin : Origin live ps live' (.malloc size supply) Q)
    (full : ∀ P ∈ ps, P.Full live) (shared : Q.Shared (own live' Q)) : Q.Full live' := by
  cases origin with
  | kept member same => exact (full Q member).perm same
  | carved source carved added =>
    refine carved.full ?_ added shared
    rcases source with member | ⟨new, none⟩
    · exact full _ member
    · rw [new] at none ⊢
      exact blank_full _ none
  | whole whole added =>
    intro none
    exact absurd whole (none _ (by rw [own_base (Q := (blank _).clear.addUsed 1) (P := blank _) rfl, added]; simp))
  | leaked first large fits none => exact blank_full _ none

/-- A free on a page that stays in use leaves it full exactly when it loses no bytes. -/
theorem Freed.full {room : Set Int} (freed : Freed P (sizeClass size) p P') (spare : P.Spare room (sizeClass size) p)
    (removed : (own live P).Perm ((p, size) :: own live' P)) (shared : P.Shared (own live P))
    (more : (own live P).length ≠ 1) (full : P.Full live) :
    (P'.addUsed (-1)).Full live' ↔ roundUp size = roundUp (realSize size) ∧ ¬ Loses P (sizeClass size) p := by
  have carries : ∀ q ∈ own live P, Carries P q := by
    cases shared with
    | carved carries _ => exact carries
    | whole only => exact absurd (congrArg List.length only) more
  have here : Carries P (p, size) := carries _ (removed.symm.subset List.mem_cons_self)
  have before := full fun q member => (carries q member).not_whole
  rw [(removed.map fun q => roundUp (realSize q.2)).sum_eq, List.map_cons, List.sum_cons] at before
  dsimp only at before
  have none : ∀ q ∈ own live' P, ¬ Whole q := fun q member =>
    (carries q (removed.symm.subset (List.mem_cons_of_mem _ member))).not_whole
  have same : own live' (P'.addUsed (-1)) = own live' P := own_base freed.base
  have bytes : (P'.addUsed (-1)).freeBytes = P'.freeBytes := rfl
  rw [← freed.exact spare here]
  unfold Page.Full
  rw [same, bytes]
  constructor
  · intro after
    have := after none
    omega
  · intro equal _
    omega

theorem Inv.conserves_step (inv : Inv w ps) (before : Conserves w) (step : Step buddyAllocator w call w') :
    Conserves w' ↔ KeepsBytes w call := by
  have full := inv.eachPage.mp before
  obtain ⟨s, live⟩ := w
  cases step with
  | malloc low high offered ran =>
    obtain ⟨qs, inv', origin⟩ := inv.step (.malloc low high offered ran)
    refine ⟨fun _ => trivial, fun _ => inv'.eachPage.mpr fun Q member => ?_⟩
    exact (origin Q member).full full (inv'.books.shared Q member)
  | client kept =>
    have inv' := inv.client kept
    exact ⟨fun _ => trivial, fun _ => inv'.eachPage.mpr full⟩
  | @free p size t member ran =>
    obtain ⟨l, P, r, rfl, page, freed⟩ := inv.free member
    have memberP : P ∈ l ++ P :: r := by simp
    have perm := List.perm_cons_erase member
    have beside : ∀ Q ∈ l ++ r, Q.Full (live.erase (p, size)) := fun Q inside => by
      have same := own_perm (P := Q) perm
      rw [own_cons, if_neg fun there => base_ne inv.heap.chained.distinct inside (there.symm.trans page)] at same
      exact (full Q (mem_beside inside)).perm same.symm
    have removed := own_perm (P := P) perm
    rw [own_cons, if_pos page] at removed
    refine Iff.trans ?_ (inv.homePage page).symm
    rcases wp_of_run ran freed with ⟨one, inv'⟩ | ⟨more, spare, P', freed, inv'⟩
    · exact ⟨fun _ => .inl one, fun _ => inv'.eachPage.mpr beside⟩
    · have several : (own live P).length ≠ 1 := fun one => more <| by
        rw [inv.books.used P memberP]
        exact_mod_cast one
      have here := freed.full spare removed (inv.books.shared P memberP) several (full P memberP)
      rw [or_iff_right more]
      refine inv'.eachPage.trans ⟨fun all => here.mp (all _ (by simp)), fun keeps Q inside => ?_⟩
      rcases mem_replace inside with rfl | other
      · exact here.mpr keeps
      · exact beside Q other

/-- The bytes of the pages are conserved throughout a run exactly when no free loses any. -/
theorem conserved_iff_keeps (run : Calls buddyAllocator start steps last) :
    (∀ w ∈ visited steps last, Conserves w) ↔ ∀ taken ∈ steps, KeepsBytes taken.1 taken.2 :=
  calls_iff run KeepsBytes Conserves ((Inv.initial run.1).eachPage.mpr (by simp))
    fun _ _ _ _ inv before step => inv.conserves_step before step

omit [Target] in
/-- Two requests of 16 bytes carve 64 bytes each; freeing the first puts 32 back. -/
theorem free_16_puts_back_32 : ∃ target : Target, target.ptr = 8 ∧ ∃ w₁ w₂ w₃,
    Calls buddyAllocator idle [(w₂, .free 8448 16), (w₁, .malloc 16 (twoPages 16384)),
      (idle, .malloc 16 (twoPages 8192))] w₃ ∧ ¬ Conserves w₃ := by
  let target : Target := ⟨8, .inr rfl⟩
  have inv₀ := Inv.initial idle_initial
  obtain ⟨w₁, ⟨t₂, _⟩, step₁, step₂, rfl, inv₁, inv₂⟩ :=
    two_requests (show (1 : Int) ≤ 16 by decide) (by decide) (by decide)
  obtain ⟨t₃, l, P, r, split, page, step₃, _⟩ := inv₂.free_step (p := 8448) (List.mem_cons_of_mem _ List.mem_cons_self)
  refine ⟨target, rfl, _, _, _, ⟨idle_initial, .snoc (.snoc (.snoc .refl step₁) step₂) step₃⟩, fun conserved => ?_⟩
  have before := (inv₁.conserves_step ((inv₀.conserves_step (inv₀.eachPage.mpr (by simp)) step₁).mpr trivial) step₂).mpr
    trivial
  have keeps := (inv₂.homePage (l := []) (r := []) rfl).mp ((inv₂.conserves_step before step₃).mp conserved)
  rcases keeps with one | ⟨same, _⟩
  · exact absurd one (by decide)
  · exact absurd same (by decide)

omit [Target] in
theorem conserved_give_back : ∃ target : Target, target.ptr = 8 ∧ ∃ w₁ w₂,
    Calls buddyAllocator idle [(w₁, .free 8448 16), (idle, .malloc 16 (twoPages 8192))] w₂ ∧
      Conserves w₁ ∧ Conserves w₂ := by
  let target : Target := ⟨8, .inr rfl⟩
  obtain ⟨w₁, w₂, P, run, inv, home, one, _⟩ := give_back target
  have conserved := (conserved_iff_keeps run).mpr <| List.forall_mem_cons.mpr
    ⟨(inv.homePage (l := []) home).mpr (.inl one), List.forall_mem_cons.mpr ⟨trivial, by simp⟩⟩
  exact ⟨target, rfl, w₁, w₂, run, conserved _ (by simp [visited]), conserved _ (by simp [visited])⟩

end Eecs343.Kma.Buddy
