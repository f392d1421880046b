import Eecs343.Kma.Buddy.Progress

namespace Eecs343.Kma.Buddy

open Bytes Effect Linked Transition

variable [Target]

variable {c c' : Int → C Unit} {f f' : Int → Int → C Unit} {release : Int → C Unit} {b size header : Int} {n : Nat}

theorem insertBlock_below (below : ∀ header, Below (c header) (c' header)) :
    Below (insertBlock c b size) (insertBlock c' b size) := by
  unfold insertBlock
  apply Below.bind (.refl _)
  intro first
  apply Below.ite ?_ (.refl _)
  apply Below.bind (.refl _)
  intro _
  apply Below.bind (.refl _)
  intro _
  apply Below.bind (.refl _)
  intro _
  apply Below.ite (.refl _)
  apply Below.ite (.refl _)
  exact Below.bind (.refl _) fun _ => below _

theorem coalesce_below (below : ∀ b size, Below (f b size) (f' b size)) :
    Below (coalesce f header) (coalesce f' header) := by
  unfold coalesce
  apply Below.bind (.refl _)
  intro found
  apply Below.ite ?_ (.refl _)
  apply Below.bind (.refl _)
  intro next
  apply Below.bind (.refl _)
  intro rest
  apply Below.bind (.refl _)
  intro _
  apply Below.bind (.refl _)
  intro used
  apply Below.bind (.refl _)
  intro _
  exact Below.bind (.refl _) fun size => below _ _

theorem kmaFreeWith_below (below : ∀ header, Below (c header) (c' header)) (n : Nat) (b size : Int) :
    Below (kmaFreeWith c n b size) (kmaFreeWith c' n b size) := by
  induction n generalizing b size with
  | zero => exact .refl _
  | succ n ih =>
    unfold kmaFreeWith
    apply Below.bind (insertBlock_below fun header => coalesce_below ih)
    intro _
    apply Below.bind (.refl _)
    intro used
    apply Below.bind (.refl _)
    intro _
    apply Below.bind (.refl _)
    intro left
    exact .ite (below _) (.refl _)

/-- `kma_free`, but a free that `coalesce` nests in it stops with an error if it finds that it has
    counted the page down to 0, where `kma_free` gives the page back. -/
def kmaFreeStrict (block size : Int) : C Unit := do
  insertBlock (coalesce (kmaFreeWith (fun _ => throw .assertion) (fuel - 1))) block size
  let header := baseAddr block + sizeofAllocheader
  writeInt header (20 * ptr) ((← readInt header (20 * ptr)) - 1)
  if (← readInt header (20 * ptr)) = 0 then
    releasePage header

variable {s : Machine} {m : Memory} {w w' start last : World} {steps : List (World × Call)} {call : Call} {ps : List Page}
  {live : List (Int × Int)} {p : Int} {post : Unit → Memory → Prop}

/-- Where the first half of the strict `kma_free` returns, both do the same. -/
theorem kmaFreeStrict_run
    (inserted : wpm (insertBlock (coalesce (kmaFreeWith (fun _ => throw .assertion) (fuel - 1))) b size) post s s.memory) :
    (kmaFreeStrict b size).run s = (kmaFree b size).run s := by
  obtain ⟨_, t, ran, _⟩ := wp_returns inserted
  have below : Below (insertBlock (coalesce (kmaFreeWith (fun _ => throw .assertion) (fuel - 1))) b size)
      (insertBlock (coalesce (kmaFreeWith releasePage (fuel - 1))) b size) :=
    insertBlock_below fun _ => coalesce_below (kmaFreeWith_below (fun _ => below_throw _ _) _)
  have same := below _ _ _ ran
  unfold kmaFree
  rw [← fuel_pred 1 (by decide), kmaFreeDepth, kmaFreeDepth_eq, kmaFreeStrict, StateT.run_bind, StateT.run_bind]
  change Except.bind _ _ = Except.bind _ _
  rw [show StateT.run _ s = _ from ran, show StateT.run _ s = _ from same]

/-- The first half of `kma_free` of a live block, whatever its nested frees would do with a page that
    they have counted down to 0. -/
theorem Inv.inserts (inv : Inv ⟨s, live⟩ ps) (member : (p, size) ∈ live) (release : Int → C Unit) :
    wpm (insertBlock (coalesce (kmaFreeWith release (fuel - 1))) p size) (fun _ _ => True) s s.memory := by
  obtain ⟨P, memberP, page⟩ := inv.books.home (p, size) member
  obtain ⟨l, r, rfl⟩ := List.append_of_mem memberP
  have used := inv.used_pos member page
  have few := inv.books.few memberP
  have here := mem_own.mpr ⟨member, page⟩
  cases inv.books.shared P memberP with
  | carved carries _ =>
    have block := carries (p, size) here
    have spare := inv.spare member block
    have wider := inv.heap.widen fun q (inside : q ∈ live.erase (p, size)) => List.mem_of_mem_erase inside
    have most := spare.ok.blocks_le
    have bounds := ptr_bounds
    have small : size + 3 * ptr ≤ 4096 := block.small
    apply wpm_mono (insertBlock_freed (lt_of_le_of_lt most (by decide)) wider.member (room_reserved _ _) spare.holds
      spare.separate (sizeClass_lt size) used (by omega) (roundUp_sizeClass block.positive (by omega)) rfl)
    exact fun _ _ _ => trivial
  | whole only large fits start empty =>
    rw [only] at here
    cases List.mem_singleton.mp here
    apply wpm_mono (inv.heap.member.insertBlock_whole empty start)
    exact fun _ _ _ => trivial

/-- From `first_page` the list runs through every page in use once to NULL, and `used` is the number
    of live blocks of each. -/
def WellCounted (w : World) : Prop :=
  ∃ ps, Shows w.machine ps ∧ (ps.map Page.base).Nodup ∧ ∀ P ∈ ps, P.used = (own w.live P).length

/-- A free gives back the page of its block exactly when no live block is left on it, and no other
    page; the frees nested in it never count a page down to 0. -/
def ReleasesLast (w : World) : Call → World → Prop
  | .free p size, w' => w'.machine.pages.Perm (if ∀ q ∈ w'.live, baseAddr q.1 ≠ baseAddr p then
      w.machine.pages.erase (baseAddr p) else w.machine.pages) ∧
      (kmaFreeStrict p size).run w.machine = .ok ((), w'.machine)
  | _, _ => True

theorem Inv.wellCounted (inv : Inv w ps) : WellCounted w :=
  ⟨ps, inv.heap.shows, inv.heap.chained.distinct, inv.books.used⟩

theorem Inv.releasesLast (inv : Inv w ps) (step : Step buddyAllocator w call w') : ReleasesLast w call w' := by
  obtain ⟨s, live⟩ := w
  cases step with
  | malloc => trivial
  | client => trivial
  | @free p size t member ran =>
    refine ⟨?_, (kmaFreeStrict_run (inv.inserts member _)).trans ran⟩
    obtain ⟨l, P, r, rfl, page, freed⟩ := inv.free member
    have count := inv.books.used P (by simp)
    have removed := own_perm (P := P) (List.perm_cons_erase member)
    rw [own_cons, if_pos page] at removed
    rw [removed.length_eq, List.length_cons] at count
    have before : s.pages.Perm (P.base :: (l ++ r).map Page.base) := by
      have pages := inv.heap.pages
      rw [List.map_append, List.map_cons] at pages
      rw [List.map_append]
      exact pages.trans List.perm_middle
    rcases wp_of_run ran freed with ⟨one, inv'⟩ | ⟨more, _, P', freed, inv'⟩
    · rw [one] at count
      have none : own (live.erase (p, size)) P = [] := by
        apply List.length_eq_zero_iff.mp
        have sum : 1 = (own (live.erase (p, size)) P).length + 1 := by exact_mod_cast count
        exact (Nat.succ.inj sum).symm
      have gone : ∀ q ∈ live.erase (p, size), baseAddr q.1 ≠ baseAddr p := by
        intro q left same
        have there := mem_own.mpr ⟨left, same.trans page⟩
        rw [none] at there
        exact absurd there List.not_mem_nil
      rw [if_pos gone, page]
      have erased := before.erase P.base
      rw [List.erase_cons_head] at erased
      exact inv'.heap.pages.trans erased.symm
    · have some : own (live.erase (p, size)) P ≠ [] := by
        intro none
        rw [none] at count
        exact more count
      obtain ⟨q, left⟩ := List.exists_mem_of_ne_nil _ some
      obtain ⟨left, there⟩ := mem_own.mp left
      have kept : ¬ ∀ q ∈ live.erase (p, size), baseAddr q.1 ≠ baseAddr p :=
        fun gone => gone q left (there.trans page.symm)
      rw [if_neg kept]
      have after := inv'.heap.pages
      have base : (P'.addUsed (-1)).base = P.base := freed.base
      rw [List.map_append, List.map_cons, base, ← List.map_cons, ← List.map_append] at after
      exact after.trans inv.heap.pages.symm

/-- The page list and the counters, in every state of a run, and what each free of the run gives back. -/
theorem page_counters (run : Calls buddyAllocator start steps last) :
    (∀ w ∈ visited steps last, WellCounted w) ∧
      ∀ taken ∈ transitions steps last, ReleasesLast taken.1 taken.2.1 taken.2.2 := by
  constructor
  · intro w member
    obtain ⟨ps, inv⟩ := calls_inv run w member
    exact inv.wellCounted
  · apply run.2.always (fun w => ∃ ps, Inv w ps) ReleasesLast ⟨[], Inv.initial run.1⟩
    intro w call w' ⟨ps, inv⟩ step
    exact ⟨(inv.step step).imp fun _ => And.left, inv.releasesLast step⟩

omit [Target] in
theorem page_counters_give_back : ∃ target : Target, target.ptr = 8 ∧ ∃ w₁ w₂,
    Calls buddyAllocator idle [(w₁, .free 8448 16), (idle, .malloc 16 (twoPages 8192))] w₂ ∧
      WellCounted w₁ ∧ WellCounted w₂ ∧ ReleasesLast w₁ (.free 8448 16) w₂ := by
  let target : Target := ⟨8, .inr rfl⟩
  obtain ⟨w₁, w₂, P, run, _⟩ := give_back target
  obtain ⟨counted, releases⟩ := page_counters run
  exact ⟨target, rfl, w₁, w₂, run, counted _ (by simp [visited]), counted _ (by simp [visited]), releases _ List.mem_cons_self⟩

end Eecs343.Kma.Buddy
