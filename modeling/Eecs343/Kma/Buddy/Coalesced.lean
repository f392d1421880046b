import Eecs343.Kma.Buddy.Joining

namespace Eecs343.Kma.Buddy

open Effect Linked Transition

variable [Target]

variable {w w' start last : World} {steps : List (World × Call)} {P P' Q : Page} {live live' : List (Int × Int)}
  {ps : List Page} {call : Call}

/-- No page has a block and that block's buddy on a list. -/
def Coalesced (w : World) : Prop := EachPage w NoBuddies

/-- A free that leaves its page in use has joined the block with its buddy, the two with theirs, and so on until the
    buddy is not free, and has put what they make on its list. -/
def MergesBuddies (w : World) (call : Call) (w' : World) : Prop := match call with
  | .free p size => HomePage w p fun P => P.used = 1 ∨
      ∃ ps, Shows w'.machine ps ∧ ∃ P', Merges P (sizeClass size) p P' ∧ P'.addUsed (-1) ∈ ps
  | _ => True

/-- A free that gives its page back, or that misses no join. -/
def JoinsAll (w : World) : Call → Prop
  | .free p size => HomePage w p fun P => P.used = 1 ∨ ¬ MissesJoin P (sizeClass size) p
  | _ => True

omit [Target] in
theorem fresh_noBuddies (page : Int) : NoBuddies (fresh page) := by
  intro k _ b member free
  have positive := blockSize_pos k
  by_cases last : k = 8
  · subst last
    cases List.mem_singleton.mp member
    have same : buddy (fresh page).base 8 page = page := List.mem_singleton.mp free
    rcases buddy_cases (fresh page).base page 8 with h | h <;> omega
  · simp [fresh, last] at member

theorem blank_noBuddies (page : Int) : NoBuddies (blank page) :=
  (blank_carved page).noBuddies (fresh_noBuddies page)

theorem Origin.noBuddies {size : Int} {supply : List (Int × Int)} (origin : Origin live ps live' (.malloc size supply) Q)
    (none : ∀ P ∈ ps, NoBuddies P) : NoBuddies Q := by
  cases origin with
  | kept member same => exact none Q member
  | @carved _ _ b P P' source carved added =>
    have before : NoBuddies P := by
      rcases source with member | ⟨new, _⟩
      · exact none P member
      · exact new ▸ blank_noBuddies P.base
    exact carved.noBuddies before
  | whole => exact fun _ _ _ member => absurd member List.not_mem_nil
  | leaked => exact blank_noBuddies _

theorem Inv.coalesced_step (inv : Inv w ps) (before : Coalesced w) (step : Step buddyAllocator w call w') :
    Coalesced w' ∧ MergesBuddies w call w' ↔ JoinsAll w call := by
  have none := inv.eachPage.mp before
  obtain ⟨s, live⟩ := w
  cases step with
  | malloc low high offered ran =>
    obtain ⟨qs, inv', origin⟩ := inv.step (.malloc low high offered ran)
    have kept := inv'.eachPage.mpr fun Q member => (origin Q member).noBuddies none
    exact ⟨fun _ => trivial, fun _ => ⟨kept, trivial⟩⟩
  | client kept =>
    have inv' := inv.client kept
    exact ⟨fun _ => trivial, fun _ => ⟨inv'.eachPage.mpr none, trivial⟩⟩
  | @free p size t member ran =>
    obtain ⟨l, P, r, rfl, page, freed⟩ := inv.free member
    refine Iff.trans (and_congr_right' (inv.homePage page)) (Iff.trans ?_ (inv.homePage page).symm)
    rcases wp_of_run ran freed with ⟨one, inv'⟩ | ⟨more, spare, P', freed, inv'⟩
    · have kept : Coalesced _ := inv'.eachPage.mpr fun Q inside => none Q (mem_beside inside)
      exact ⟨fun _ => .inl one, fun _ => ⟨kept, .inl one⟩⟩
    · have here := freed.merges_iff spare.ok spare.holds spare.separate (sizeClass_lt size) (none P (by simp))
      rw [or_iff_right more, or_iff_right more, ← here]
      constructor
      · intro ⟨all, qs, shows, Q, merges, found⟩
        have apart := inv'.eachPage.mp all (P'.addUsed (-1)) (by simp)
        obtain rfl := inv'.heap.shows.unique shows
        have base : (Q.addUsed (-1)).base = P.base := merges.base
        rcases mem_replace found with same | other
        · have equal : Q = P' := by rw [← Q.addUsed_cancel (-1), same, Page.addUsed_cancel]
          exact ⟨apart, equal ▸ merges⟩
        · have distinct := base_ne inv'.heap.chained.distinct other
          exact absurd (base.trans freed.base.symm) distinct
      · intro ⟨apart, merges⟩
        refine ⟨inv'.eachPage.mpr ?_, _, inv'.heap.shows, P', merges, by simp⟩
        intro Q inside
        rcases mem_replace inside with rfl | other
        · exact apart
        · exact none Q (mem_beside other)

/-- No page ever has both buddies free and every free joins all it can, exactly when no free of the run misses a
    join. -/
theorem coalesced_iff_joins (run : Calls buddyAllocator start steps last) :
    ((∀ w ∈ visited steps last, Coalesced w) ∧
      ∀ taken ∈ transitions steps last, MergesBuddies taken.1 taken.2.1 taken.2.2) ↔
    ∀ taken ∈ steps, JoinsAll taken.1 taken.2 := by
  constructor
  · intro ⟨coalesced, merges⟩ taken member
    obtain ⟨next, found⟩ : ∃ next, (taken.1, taken.2, next) ∈ transitions steps last := mem_transitions member
    obtain ⟨here, _, there, step⟩ := run.2.transition found
    obtain ⟨ps, inv⟩ := calls_inv run _ here
    exact (inv.coalesced_step (coalesced _ here) step).mp ⟨coalesced _ there, merges _ found⟩
  · intro joins
    have held := run.2.invariant_visited JoinsAll (fun w => (∃ ps, Inv w ps) ∧ Coalesced w)
      ⟨⟨[], Inv.initial run.1⟩, (Inv.initial run.1).eachPage.mpr (by simp)⟩ ?_ joins
    · refine ⟨fun w visited => (held w visited).2, ?_⟩
      intro ⟨w, call, w'⟩ found
      obtain ⟨here, member, _, step⟩ := run.2.transition found
      obtain ⟨⟨ps, inv⟩, coalesced⟩ := held w here
      exact ((inv.coalesced_step coalesced step).mpr (joins _ member)).2
    · intro w call w' ⟨⟨ps, inv⟩, coalesced⟩ admitted step
      obtain ⟨qs, inv', _⟩ := inv.step step
      exact ⟨⟨qs, inv'⟩, ((inv.coalesced_step coalesced step).mpr admitted).1⟩

omit [Target] in
/-- Freeing two buddies of 64 bytes, the left one last: it lands in front of its list, where
    nothing is joined. -/
theorem left_buddy_last_stays : ∃ target : Target, target.ptr = 8 ∧ ∃ w₁ w₂ w₃ w₄ w₅,
    Calls buddyAllocator idle [(w₄, .free 8448 40), (w₃, .free 8512 40), (w₂, .malloc 100 (twoPages 16384)),
      (w₁, .malloc 40 (twoPages 16384)), (idle, .malloc 40 (twoPages 8192))] w₅ ∧ ¬ Coalesced w₅ := by
  let target : Target := ⟨8, .inr rfl⟩
  have small : (1 : Int) ≤ 40 := by decide
  have second : (16384 : Int) % 8192 = 0 := rfl
  obtain ⟨w₁, ⟨t₂, _⟩, step₁, step₂, rfl, _, inv₂⟩ := two_requests small (by decide) (by decide)
  obtain ⟨b₃, t₃, qs₃, step₃, allocated₃, inv₃⟩ := inv₂.malloc_next (show (1 : Int) ≤ 100 by decide) (by decide) second
    (by decide) (by decide) (by decide)
  obtain ⟨rfl, rfl⟩ := allocated₃.single (i := 0) (show _ = [8576] from rfl) (by decide) (by decide)
  obtain ⟨t₄, P₄, step₄, freed₄, inv₄⟩ := inv₃.free_single (p := 8512) (List.mem_cons_of_mem _ List.mem_cons_self)
    (by decide)
  obtain rfl := freed₄.of_none rfl
  obtain ⟨t₅, P₅, step₅, freed₅, inv₅⟩ := inv₄.free_single (p := 8448) (List.mem_of_elem_eq_true (a := (8448, 40)) rfl)
    (by decide)
  obtain rfl := freed₅.of_front (show _ = [8512] from rfl) (by decide)
  refine ⟨target, rfl, _, _, _, _, _,
    ⟨idle_initial, .snoc (.snoc (.snoc (.snoc (.snoc .refl step₁) step₂) step₃) step₄) step₅⟩, fun coalesced => ?_⟩
  exact inv₅.eachPage.mp coalesced _ List.mem_cons_self 1 (by decide) 8448 (by decide) (by decide)

omit [Target] in
theorem not_missesJoin_before (base : P.base = 8192) (one : P.free 1 = [8576]) : ¬ MissesJoin P 1 8448 := by
  intro misses
  rcases misses.on_list one with ⟨_, pair⟩ | last | ⟨behind, _⟩
  · rw [base] at pair
    exact absurd pair (by decide)
  · exact absurd (last 8576 List.mem_cons_self) (by decide)
  · exact absurd behind (by decide)

omit [Target] in
theorem not_missesJoin_between (base : P.base = 8192) (zero : P.free 0 = []) (one : P.free 1 = [8448, 8576])
    (two : P.free 2 = []) : ¬ MissesJoin P 1 8512 := by
  have found : firstPair (P.setList 1 (8448 :: insertTail 8512 [8576])) = some (1, [], 8448, [8576]) :=
    firstPair_second ((Page.setList_ne _ _ (by decide)).trans zero) <| by
    rw [Page.setList_base, Page.setList_self, base]
    rfl
  intro misses
  rcases misses.on_list one with ⟨before, _⟩ | last | ⟨_, _, _, _, _, other, ahead | rest⟩
  · exact absurd before (by decide)
  · exact absurd (last 8576 (by decide)) (by decide)
  · cases found.symm.trans other
    exact ahead rfl
  · cases found.symm.trans other
    refine rest.nonempty ?_
    rw [Page.setList_setList]
    exact (Page.setList_ne _ _ (by decide)).trans two

omit [Target] in
/-- The left one of two buddies is freed in front of another free block; the right one then joins it. -/
theorem coalesced_three_frees : ∃ target : Target, target.ptr = 8 ∧ ∃ steps w₄ w₅ w₆ w₇,
    Calls buddyAllocator idle ((w₆, .free 8512 40) :: (w₅, .free 8448 40) :: (w₄, .free 8576 40) :: steps) w₇ ∧
      w₇.live = [(8640, 40)] ∧ Coalesced w₆ ∧ Coalesced w₇ ∧ MergesBuddies w₆ (.free 8512 40) w₇ := by
  let target : Target := ⟨8, .inr rfl⟩
  obtain ⟨steps, ⟨s, live⟩, P, run, inv, used, base, zero, one, two, rfl, requests⟩ := four_blocks
  obtain ⟨t₅, P₅, step₅, freed₅, inv₅⟩ := inv.free_single (p := 8576) (List.mem_of_elem_eq_true (a := (8576, 40)) rfl)
    (by omega)
  obtain rfl := freed₅.of_none one
  obtain ⟨t₆, P₆, step₆, freed₆, inv₆⟩ := inv₅.free_single (p := 8448) (List.mem_of_elem_eq_true (a := (8448, 40)) rfl)
    (by rw [Page.addUsed_used, Page.setList_used, used]; decide)
  obtain rfl := freed₆.of_front (show _ = [8576] from rfl) (by decide)
  obtain ⟨t₇, P₇, step₇, freed₇, inv₇⟩ := inv₆.free_single (p := 8512) (List.mem_of_elem_eq_true (a := (8512, 40)) rfl)
    (by rw [Page.addUsed_used, Page.setList_used, Page.addUsed_used, Page.setList_used, used]; decide)
  have run₇ : Calls buddyAllocator idle _ _ := ⟨run.1, .snoc (.snoc (.snoc run.2 step₅) step₆) step₇⟩
  have home : ∀ p, baseAddr p = 8192 → baseAddr p = P.base := fun p page => page.trans base.symm
  have joins := (coalesced_iff_joins run₇).mpr <| List.forall_mem_cons.mpr
    ⟨(inv₆.homePage (l := []) (home 8512 rfl)).mpr (.inr (not_missesJoin_between base zero rfl two)),
      List.forall_mem_cons.mpr
        ⟨(inv₅.homePage (l := []) (home 8448 rfl)).mpr (.inr (not_missesJoin_before base rfl)),
          List.forall_mem_cons.mpr
            ⟨(inv.homePage (l := []) (home 8576 rfl)).mpr (.inr fun misses => misses.nonempty one), fun taken member => by
              obtain ⟨_, _, request⟩ := requests taken member
              rw [request]
              trivial⟩⟩⟩
  exact ⟨target, rfl, steps, _, _, _, _, run₇, rfl, joins.1 _ (by simp [visited]), joins.1 _ (by simp [visited]),
    joins.2 (_, _, _) List.mem_cons_self⟩

end Eecs343.Kma.Buddy
