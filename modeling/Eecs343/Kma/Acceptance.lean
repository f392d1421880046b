import Eecs343.Kma.Buddy.Progress
import Eecs343.Kma.ResourceMap.Insertion

namespace Eecs343.Kma

open Bytes Effect Transition

variable [Target]

/-- The request returns, with a block exactly if the size leaves room for a pointer on a page, and the
    block lies inside a page. -/
def Accepts (A : Allocator) (w : World) (supply : List (Int × Int)) (size : Int) : Prop :=
  ∃ p t, (A.malloc size).run { w.machine with supply := supply } = .ok (p, t) ∧ (p ≠ 0 ↔ size ≤ 8192 - ptr) ∧
    (p ≠ 0 → baseAddr p ≤ p ∧ p + size ≤ baseAddr p + 8192)

variable {w start last start' last' : World} {steps steps' : List (World × Call)} {size : Int} {supply : List (Int × Int)}

namespace Buddy

variable {ps : List Page}

/-- `kma_bud` needs room for a page header and for two pointers more. -/
theorem Inv.accepted_iff (inv : Inv w ps) (low : 1 ≤ size) (high : size < 2 ^ 31)
    (offered : Offered { w.machine with supply := supply }) (enough : 2 ≤ supply.length) :
    Accepts buddyAllocator w supply size ↔ size ≤ 8192 - 24 * ptr ∨ 8192 - ptr < size := by
  have bounds := ptr_bounds
  obtain ⟨b, t, ran, ⟨excess, null⟩ | ⟨fits, some, qs, _, inv'⟩⟩ := inv.malloc_returns low high offered enough
  · have unique : Accepts buddyAllocator w supply size ↔ ¬ size ≤ 8192 - ptr := by
      constructor
      · intro ⟨p, t', ran', accepted, _⟩
        obtain ⟨rfl, rfl⟩ := Prod.mk.inj (Except.ok.inj (ran.symm.trans ran'))
        exact fun fits => accepted.mpr fits null
      · exact fun larger => ⟨b, t, ran, by simp [null, larger], fun some => absurd null some⟩
    rw [unique]
    omega
  · refine ⟨fun _ => .inl (by omega), fun _ => ⟨b, t, ran, iff_of_true some (by omega), fun _ => ?_⟩⟩
    obtain ⟨P, member, page, above, below, length, _⟩ := inv'.books.place (q := (b, size)) List.mem_cons_self
    dsimp only at page above below length
    rw [page]
    omega

end Buddy

namespace ResourceMap

variable {ps : List Page}

/-- The request is rejected, or gets a block without a page from below the first one. -/
def Serves (ps : List Page) (supply : List (Int × Int)) (size : Int) : Prop :=
  8192 - ptr < size ∨ size ≤ realPageSize ∧ ¬ Blocked (opening ps supply).1 (opening ps supply).2 size

/-- The header behind the block lies across the first word of the first page. -/
def Crosses (ps : List Page) (supply : List (Int × Int)) (size : Int) : Prop :=
  realPageSize - ptr < size ∧ ∃ page next offers, (opening ps supply).2 = (page, next) :: offers ∧
    page + 8192 = firstBase (opening ps supply).1

theorem Inv.accepts (inv : Inv w ps) (low : sizeofBlockheader ≤ size) (high : size < 2 ^ 31)
    (offered : Offered { w.machine with supply := supply }) (enough : 2 ≤ supply.length) (serves : Serves ps supply size) :
    Accepts resourceMapAllocator w supply size := by
  have bounds := ptr_bounds
  have real : realPageSize = 8192 - 2 * ptr := rfl
  have header : sizeofBlockheader = 2 * ptr := rfl
  rcases serves with large | ⟨fits, free⟩
  · have rejected := inv.malloc (e := fun _ => False) offered ⟨by omega, .inr (by omega)⟩ high (fun few => by omega)
      fun small => by omega
    obtain ⟨p, t, ran, null, _⟩ := wp_returns rejected
    have zero := null.mpr (by omega)
    exact ⟨p, t, ran, by simp [zero, large], fun some => absurd zero some⟩
  · have served := inv.malloc_accepts (e := fun _ => False) offered (by omega) fits (fun few => by omega) free
    obtain ⟨p, t, ran, some, inside⟩ := wp_returns served
    exact ⟨p, t, ran, iff_of_true some (by omega), fun _ => inside⟩

theorem Inv.accepts_only (inv : Inv w ps) (low : sizeofBlockheader ≤ size) (high : size < 2 ^ 31)
    (offered : Offered { w.machine with supply := supply }) (enough : 2 ≤ supply.length)
    (apart : ¬ Crosses ps supply size) (accepts : Accepts resourceMapAllocator w supply size) : Serves ps supply size := by
  have bounds := ptr_bounds
  have real : realPageSize = 8192 - 2 * ptr := rfl
  have header : sizeofBlockheader = 2 * ptr := rfl
  obtain ⟨p, t, ran, accepted, _⟩ := accepts
  by_contra serves
  obtain ⟨small, needs⟩ := not_or.mp serves
  by_cases fits : size ≤ realPageSize
  · obtain ⟨none, page, next, offers, left, below⟩ := not_not.mp fun free => needs ⟨fits, free⟩
    have short : size ≤ realPageSize - ptr ∨ page + 8192 ≠ firstBase (opening ps supply).1 := by
      by_contra both
      obtain ⟨longer, same⟩ := not_or.mp both
      exact apart ⟨by omega, page, next, offers, left, not_not.mp same⟩
    have lower : ¬ firstBase (opening ps supply).1 < page := by omega
    have stopped := inv.dereferences offered (by omega) fits (Prod.ext rfl left) none short lower
    exact absurd (ran.symm.trans stopped) (by simp)
  · have rejected := inv.malloc (e := fun _ => False) offered ⟨by omega, .inr (by omega)⟩ high (fun few => by omega)
      fun small => by omega
    obtain ⟨p', t', ran', null, _⟩ := wp_returns rejected
    obtain ⟨rfl, rfl⟩ := Prod.mk.inj (Except.ok.inj (ran.symm.trans ran'))
    exact accepted.mpr (by omega) (null.mpr (by omega))

end ResourceMap

open Buddy ResourceMap

/-- When the two allocators meet what the test harness demands of a request, with two pages in the
    pool: `kma_bud` exactly if the size leaves the room it needs itself, or is to be rejected;
    `kma_rm` if the size is one it accepts and no page is needed from below the first one, and
    only then, unless the header behind the block lies across the first word of the first page. -/
theorem harness_accepts_iff (bud : Calls buddyAllocator start steps last)
    (rm : Calls resourceMapAllocator start' steps' last')
    (allowed : ∀ taken ∈ steps', Allowed taken.2) (keeps : ∀ taken ∈ steps', KeepsHeaders taken.2) :
    (∀ w ∈ visited steps last, ∀ size supply, 1 ≤ size → size < 2 ^ 31 → Offered { w.machine with supply := supply } →
      2 ≤ supply.length → (Accepts buddyAllocator w supply size ↔ size ≤ 8192 - 24 * ptr ∨ 8192 - ptr < size)) ∧
    ∀ w ∈ visited steps' last', ∃ ps, ResourceMap.Shows w ps ∧ ∀ size supply, sizeofBlockheader ≤ size → size < 2 ^ 31 →
      Offered { w.machine with supply := supply } → 2 ≤ supply.length →
        (Serves ps supply size → Accepts resourceMapAllocator w supply size) ∧
        (¬ Crosses ps supply size → (Accepts resourceMapAllocator w supply size ↔ Serves ps supply size)) := by
  constructor
  · intro w member size supply low high offered enough
    obtain ⟨ps, inv⟩ := Buddy.calls_inv bud w member
    exact inv.accepted_iff low high offered enough
  · intro w member
    obtain ⟨ps, inv⟩ := ResourceMap.calls_inv rm
      (fun taken inside => .of_allowed (allowed taken inside) (keeps taken inside)) w member
    refine ⟨ps, inv.shows, fun size supply low high offered enough => ?_⟩
    have accepts := inv.accepts low high offered enough
    exact ⟨accepts, fun apart => ⟨inv.accepts_only low high offered enough apart, accepts⟩⟩

omit [Target] in
theorem accepts_16 : ∃ target : Target, target.ptr = 8 ∧
    Accepts buddyAllocator idle (twoPages 8192) 16 ∧ Accepts resourceMapAllocator idle (twoPages 8192) 16 := by
  let target : Target := lp64
  have offered : Offered { idle.machine with supply := twoPages 8192 } :=
    twoPages_offered rfl (by decide) (by decide) (by simp [idle])
  obtain ⟨bud, rm⟩ := harness_accepts_iff (⟨idle_initial, .refl⟩ : Calls buddyAllocator idle [] idle)
    (⟨idle_initial, .refl⟩ : Calls resourceMapAllocator idle [] idle) (by simp) (by simp)
  obtain ⟨ps, shows, rm⟩ := rm idle List.mem_cons_self
  obtain rfl : ps = [] := by
    have none := shows.pages.length_eq
    exact List.eq_nil_of_length_eq_zero (by simpa [idle] using none.symm)
  exact ⟨target, rfl,
    (bud idle List.mem_cons_self 16 _ (by decide) (by decide) offered (by simp [twoPages])).mpr (.inl (by decide)),
    (rm 16 _ (by decide) (by decide) offered (by simp [twoPages])).1 (.inr ⟨by decide, idle_not_blocked⟩)⟩

omit [Target] in
/-- Sizes that leave room for a pointer on a page, and that the two allocators reject. -/
theorem rejects_8100_and_8180 : ∃ target : Target, target.ptr = 8 ∧ idle.Initial ∧
    Offered { idle.machine with supply := twoPages 8192 } ∧
    ¬ Accepts buddyAllocator idle (twoPages 8192) 8100 ∧ ¬ Accepts resourceMapAllocator idle (twoPages 8192) 8180 := by
  let target : Target := lp64
  have offered : Offered { idle.machine with supply := twoPages 8192 } :=
    twoPages_offered rfl (by decide) (by decide) (by simp [idle])
  have apart : ¬ Crosses [] (twoPages 8192) 8180 := by
    intro crosses
    obtain ⟨_, page, next, offers, same, below⟩ := crosses
    have here : (16384, 24576) = (page, next) :=
      (List.cons.inj (show [(16384, 24576)] = (page, next) :: offers from same)).1
    obtain rfl := (Prod.mk.inj here).1
    exact absurd below (by decide)
  refine ⟨target, rfl, idle_initial, offered, fun accepts => ?_, fun accepts => ?_⟩
  · have bud : Accepts buddyAllocator idle (twoPages 8192) 8100 ↔ _ :=
      (Buddy.Inv.initial idle_initial).accepted_iff (by decide) (by decide) offered (by simp [twoPages])
    exact absurd (bud.mp accepts) (by decide)
  · have rm := (ResourceMap.Inv.initial idle_initial).accepts_only (by decide) (by decide) offered (by simp [twoPages])
      apart accepts
    rcases rm with large | ⟨fits, _⟩
    · exact absurd large (by decide)
    · exact absurd fits (by decide)

end Eecs343.Kma
