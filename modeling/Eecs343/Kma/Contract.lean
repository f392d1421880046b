import Eecs343.Kma.PagePool.Backing
import Eecs343.Kma.Run

namespace Eecs343.Kma

open Bytes Effect Relation PagePool

variable [Target]

/-- What an allocator keeps between two calls, and what each of its calls does then: a request may take pages and then
    give some back, and a free gives pages back. It serves the requests of some sizes, and promises nothing of a request
    that it does not admit with as many live blocks as there are. -/
structure Contract (A : Allocator) where
  Inv : World → Prop
  serves : Int → Bool
  admits : Nat → Int → Bool
  initial {w : World} : w.Initial → Inv w
  client {w : World} {m : Memory} : Inv w → (∀ x, w.Private x → m x = w.machine.memory x) →
    Inv ⟨{ w.machine with memory := m }, w.live⟩
  malloc {w : World} {size : Int} {supply : List (Int × Int)} : Inv w → 1 ≤ size → size < 2 ^ 31 →
    admits w.live.length size → Offered { w.machine with supply := supply } → 2 ≤ supply.length →
    ∃ p t, (A.malloc size).run { w.machine with supply := supply } = .ok (p, t) ∧
      (∃ u, ReflTransGen (Grow (liveBytes w.live)) { w.machine with supply := supply } u ∧
        ReflTransGen (Shrink (liveBytes w.live)) u t) ∧ (p ≠ 0 ↔ serves size) ∧
      Inv ⟨t, if p = 0 then w.live else (p, size) :: w.live⟩
  free {w : World} {p size : Int} : Inv w → (p, size) ∈ w.live →
    ∃ t, (A.free p size).run w.machine = .ok ((), t) ∧
      ReflTransGen (Shrink (liveBytes (w.live.erase (p, size)))) w.machine t ∧ Inv ⟨t, w.live.erase (p, size)⟩
  owned {w : World} : Inv w → ∀ x ∈ liveBytes w.live, baseAddr x ∈ w.machine.pages
  apart {w : World} : Inv w → w.live.Pairwise fun q q' => q.1 + q.2 ≤ q'.1 ∨ q'.1 + q'.2 ≤ q.1
  few {w : World} : Inv w → w.machine.pages.length ≤ w.live.length
  counted {w : World} : Inv w →
    w.machine.numInUse = w.machine.pages.length ∧ w.machine.numRequested = w.machine.numFreed + w.machine.numInUse

variable {A : Allocator} {w : World} {p size region : Int} {m : Memory}

/-- The allocator keeps its contract, on pages that it has from `kma_page.c`. -/
structure Contract.Holds (C : Contract A) (w : World) : Prop where
  inv : C.Inv w
  backed : ∃ pool : PagePool.World, PagePool.Inv pool ∧ Backed w.machine pool

variable {C : Contract A}

theorem Contract.Holds.client (held : C.Holds w) (own : ∀ x, m x ≠ w.machine.memory x → x ∈ liveBytes w.live) :
    C.Holds ⟨{ w.machine with memory := m }, w.live⟩ := by
  obtain ⟨inv, pool, sound, backed⟩ := held
  refine ⟨C.client inv fun x hidden => ?_, ?_⟩
  · by_contra changed
    obtain ⟨q, member, low, high⟩ := own x changed
    have outside := hidden.2 q member
    omega
  · obtain ⟨taken, backed'⟩ := backed.client fun x changed => C.owned inv x (own x changed)
    exact ⟨_, sound.step taken, backed'⟩

/-- The call of `kma_page.c` that makes a new pool is no business of the allocator. -/
theorem Contract.Holds.supplied (held : C.Holds w) (fresh : Region region) (few : w.live.length ≤ 4094) :
    ∃ m supply, supplied region w.machine = { w.machine with memory := m, supply := supply } ∧
      C.Inv ⟨{ w.machine with memory := m }, w.live⟩ ∧ (∀ x ∈ liveBytes w.live, m x = w.machine.memory x) ∧
      Offered { w.machine with memory := m, supply := supply } ∧ 2 ≤ supply.length := by
  obtain ⟨inv, pool, sound, backed⟩ := held
  obtain ⟨_, offered, length⟩ := backed.serves sound fresh
  have pages := maxPages
  have fewer := C.few inv
  have counted := (C.counted inv).1
  obtain ⟨m, supply, same, unchanged⟩ := supplied_eq region w.machine
  rw [same] at offered length
  have owned : ∀ x, baseAddr x ∈ w.machine.pages → m x = w.machine.memory x := by
    intro x used
    rcases unchanged with idle | rfl
    · have none : w.machine.pages = [] := List.eq_nil_of_length_eq_zero (by omega)
      exact absurd used (none ▸ List.not_mem_nil)
    · rfl
  refine ⟨m, supply, same, C.client inv fun x hidden => owned x hidden.1, fun x live => owned x (C.owned inv x live), offered, ?_⟩
  dsimp only at length
  omega

theorem Contract.Holds.malloc (held : C.Holds w) (fresh : Region region) (few : w.live.length ≤ 4094) (low : 1 ≤ size)
    (high : size < 2 ^ 31) (admitted : C.admits w.live.length size) :
    ∃ p t, (A.malloc size).run (PagePool.supplied region w.machine) = .ok (p, t) ∧
      C.Holds ⟨t, if p = 0 then w.live else (p, size) :: w.live⟩ ∧ (p ≠ 0 ↔ C.serves size) ∧
      ∀ x ∈ liveBytes w.live, t.memory x = w.machine.memory x := by
  obtain ⟨m, supply, same, inv, kept, offered, enough⟩ := held.supplied fresh few
  obtain ⟨_, pool, sound, backed⟩ := held
  obtain ⟨p, t, ran, ⟨u, grows, shrinks⟩, served, inv'⟩ := C.malloc inv low high admitted offered enough
  obtain ⟨serving, _⟩ := backed.serves sound fresh
  rw [same] at serving ⊢
  obtain ⟨pool₁, moves₁, serving⟩ := serving.grows grows sound fresh
  obtain ⟨pool₂, moves₂, backed⟩ := serving.backed
  have sound₂ := sound.moves (moves₁.trans moves₂)
  obtain ⟨pool₃, moves₃, backed⟩ := backed.shrinks shrinks sound₂
  refine ⟨p, t, ran, ⟨inv', pool₃, sound₂.moves moves₃, backed⟩, served, fun x live => ?_⟩
  have taken := (grows_kept grows).2 x (.inr live)
  have returned := (shrinks_kept shrinks).2 x (.inr live)
  exact (returned.trans taken).trans (kept x live)

theorem Contract.Holds.free (held : C.Holds w) (member : (p, size) ∈ w.live) :
    ∃ t, (A.free p size).run w.machine = .ok ((), t) ∧ C.Holds ⟨t, w.live.erase (p, size)⟩ ∧
      ∀ x ∈ liveBytes (w.live.erase (p, size)), t.memory x = w.machine.memory x := by
  obtain ⟨inv, pool, sound, backed⟩ := held
  obtain ⟨t, ran, shrinks, inv'⟩ := C.free inv member
  obtain ⟨pool', moves, backed'⟩ := backed.shrinks shrinks sound
  exact ⟨t, ran, ⟨inv', pool', sound.moves moves, backed'⟩, fun x live => (shrinks_kept shrinks).2 x (.inr live)⟩

def loaded (m : Memory) : Machine := ⟨m, 0, 0, 0, 0, 0, [], [], []⟩

theorem Contract.holds_loaded (C : Contract A) (m : Memory) : C.Holds ⟨loaded m, []⟩ := by
  refine ⟨C.initial ⟨rfl, rfl, rfl, rfl, rfl, rfl, rfl⟩, ⟨⟨m, ⟨0, 0, 0, 8192⟩, 0, 0, 0⟩, []⟩, Inv.initial ⟨rfl, rfl, rfl, rfl⟩, ?_⟩
  exact ⟨rfl, rfl, .refl _, rfl, rfl, rfl⟩

end Eecs343.Kma
