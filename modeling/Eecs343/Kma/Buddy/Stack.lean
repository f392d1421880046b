import Eecs343.Kma.Buddy.Service
import Eecs343.Kma.PagePool.Backing

namespace Eecs343.Kma

open Effect Transition PagePool

variable [Target]

/-- A call of an allocator on `kma_page.c`, which puts a new pool at `region`, or a write of the client to its blocks. -/
inductive StackCall where
  | malloc (size region : Int)
  | free (p size : Int)
  | client (memory : Bytes.Memory)

/-- One call that returns. -/
inductive StackStep (A : Allocator) : World → StackCall → World → Prop where
  | malloc {w size region p t} (low : 1 ≤ size) (high : size < 2 ^ 31) (fresh : Region region)
    (ran : (A.malloc size).run (supplied region w.machine) = .ok (p, t)) :
    StackStep A w (.malloc size region) ⟨t, if p = 0 then w.live else (p, size) :: w.live⟩
  | free {w p size t} (live : (p, size) ∈ w.live) (ran : (A.free p size).run w.machine = .ok ((), t)) :
    StackStep A w (.free p size) ⟨t, w.live.erase (p, size)⟩
  | client {w memory} (own : ∀ x, memory x ≠ w.machine.memory x → x ∈ liveBytes w.live) :
    StackStep A w (.client memory) ⟨{ w.machine with memory := memory }, w.live⟩

def unused (m : Bytes.Memory) : PagePool.World := ⟨⟨m, ⟨0, 0, 0, 8192⟩, 0, 0, 0⟩, []⟩

/-- The state is one that the allocator reaches over a supply of pages, and one that `kma_page.c` reaches under an
    allocator, with the same memory and the same pages in use. -/
structure Stacked (A : Allocator) (m : Bytes.Memory) (w : World) : Prop where
  above : ∃ steps, Calls A ⟨loaded m, []⟩ steps w
  below : ∃ pool steps, Run PagePool.Step (unused m) steps pool ∧ Backed w.machine pool

theorem Stacked.sound {A : Allocator} {m : Bytes.Memory} {w : World} (stacked : Stacked A m w) :
    ∃ pool, PagePool.Inv pool ∧ Backed w.machine pool ∧ ∃ steps, Run PagePool.Step (unused m) steps pool := by
  obtain ⟨pool, steps, run, backed⟩ := stacked.below
  refine ⟨pool, ?_, backed, steps, run⟩
  exact run.invariant (fun _ _ => True) PagePool.Inv (.initial ⟨rfl, rfl, rfl, rfl⟩) (fun _ _ _ inv _ taken => inv.step taken)
    fun _ _ => trivial

namespace Buddy

variable {pool : PagePool.World} {m : Bytes.Memory} {w w' start last : World} {call : StackCall} {size region p : Int} {ps : List Page}
  {steps : List (World × StackCall)}

/-- The pages of `kma_page.c` are a supply. -/
theorem Inv.stacked (inv : Inv w ps) (backed : Backed w.machine pool) (sound : PagePool.Inv pool)
    (fresh : Region region) :
    ∃ m' supply, supplied region w.machine = { w.machine with memory := m', supply := supply } ∧
      (∀ x, w.Private x → m' x = w.machine.memory x) ∧ Offered { w.machine with memory := m', supply := supply } ∧
      supply.length + w.machine.pages.length = 4096 ∧
      Serving region { w.machine with memory := m', supply := supply } pool := by
  obtain ⟨serving, offered, length⟩ := backed.serves sound fresh
  obtain ⟨m', supply, same, unchanged⟩ := supplied_eq region w.machine
  rw [same] at serving offered length
  refine ⟨m', supply, same, fun x hidden => ?_, offered, length, serving⟩
  rcases unchanged with idle | rfl
  · have none := inv.heap.pages.length_eq
    rw [inv.heap.inUse] at idle
    rw [List.length_map] at none
    have empty : w.machine.pages = [] := List.eq_nil_of_length_eq_zero (by omega)
    exact absurd hidden.1 (empty ▸ List.not_mem_nil)
  · rfl

theorem step_stacked (stacked : Stacked buddyAllocator m w) (taken : StackStep buddyAllocator w call w') :
    Stacked buddyAllocator m w' := by
  obtain ⟨pool, sound, backed, run⟩ := stacked.sound
  obtain ⟨calls, initial, above⟩ := stacked.above
  obtain ⟨ps, inv⟩ := calls_inv ⟨initial, above⟩ w (last_mem_visited _ _)
  cases taken with
  | @malloc size region p t low high fresh ran =>
    obtain ⟨m', supply, same, kept, offered, _, serving⟩ := inv.stacked backed sound fresh
    rw [same] at ran
    have grows := wp_of_run ran ((inv.client kept).malloc_grows low high offered)
    obtain ⟨pool₁, moves₁, serving⟩ := serving.grows grows sound fresh
    obtain ⟨pool₂, moves₂, backed⟩ := serving.backed
    obtain ⟨psteps, run⟩ := run
    obtain ⟨psteps, run⟩ := moves_run (moves₁.trans moves₂) run
    exact ⟨⟨_, initial, .snoc (.snoc above (.client kept)) (.malloc low high offered ran)⟩, pool₂, psteps, run, backed⟩
  | free live ran =>
    have held := inv.free_shrinks live
    have shrinks := wp_of_run ran held
    obtain ⟨pool', moves, backed⟩ := backed.shrinks shrinks sound
    obtain ⟨psteps, run⟩ := run
    obtain ⟨psteps, run⟩ := moves_run moves run
    exact ⟨⟨_, initial, .snoc above (.free live ran)⟩, pool', psteps, run, backed⟩
  | @client memory own =>
    have kept : ∀ x, w.Private x → memory x = w.machine.memory x := by
      intro x hidden
      by_contra changed
      obtain ⟨q, member, low, high⟩ := own x changed
      have outside := hidden.2 q member
      omega
    obtain ⟨psteps, run⟩ := run
    obtain ⟨written, backed⟩ := backed.client fun x changed => inv.owned x (own x changed)
    exact ⟨⟨_, initial, .snoc above (.client kept)⟩, _, _, .snoc run written, backed⟩

/-- What is promised of `kma_bud` on `kma_page.c` between two calls: it is where the supply of pages and the page
    allocator are, no page is in use twice or on the chain of free pages, and calls return. -/
structure Delivers (m : Bytes.Memory) (w : World) : Prop where
  stacked : Stacked buddyAllocator m w
  pages : ∃ pool : PagePool.World, Backed w.machine pool ∧ pool.Sound
  requests : w.machine.pages.length ≤ 4094 → ∀ size region, 1 ≤ size → size < 2 ^ 31 → Region region →
    ∃ p t, (buddyAllocator.malloc size).run (supplied region w.machine) = .ok (p, t) ∧ (p ≠ 0 ↔ size + 24 * ptr ≤ 8192)
  frees : ∀ q ∈ w.live, ∃ t, (buddyAllocator.free q.1 q.2).run w.machine = .ok ((), t)

theorem delivers_of_stacked (stacked : Stacked buddyAllocator m w) : Delivers m w := by
  obtain ⟨pool, sound, backed, _⟩ := stacked.sound
  obtain ⟨calls, above⟩ := stacked.above
  obtain ⟨ps, inv⟩ := calls_inv above w (last_mem_visited _ _)
  refine ⟨stacked, ⟨pool, backed, sound.sound⟩, fun few size region low high fresh => ?_, fun q member => ?_⟩
  · obtain ⟨m', supply, same, kept, offered, length, _⟩ := inv.stacked backed sound fresh
    obtain ⟨p, t, ran, ⟨excess, null⟩ | ⟨fits, some, _⟩⟩ := (inv.client kept).malloc_returns low high offered (by omega)
    · exact ⟨p, t, same ▸ ran, iff_of_false (fun some => some null) (by omega)⟩
    · exact ⟨p, t, same ▸ ran, iff_of_true some fits⟩
  · obtain ⟨t, _, _, _, _, _, step, _⟩ := inv.free_step member
    cases step with
    | free _ ran => exact ⟨t, ran⟩

theorem stacked_loaded (A : Allocator) (m : Bytes.Memory) : Stacked A m ⟨loaded m, []⟩ :=
  ⟨⟨[], ⟨rfl, rfl, rfl, rfl, rfl, rfl, rfl⟩, .refl⟩, unused m, [], .refl, rfl, rfl, .refl _, rfl, rfl, rfl⟩

/-- Every run of `kma_bud` on `kma_page.c` is a run over supplies of pages, and a run of the page allocator. -/
theorem stack_delivers (run : Run (StackStep buddyAllocator) ⟨loaded m, []⟩ steps last) :
    ∀ w ∈ visited steps last, Delivers m w := by
  intro w member
  have stacked := run.invariant_visited (fun _ _ => True) (Stacked buddyAllocator m) (stacked_loaded _ _)
    (fun _ _ _ stacked _ taken => step_stacked stacked taken) (fun _ _ => trivial) w member
  exact delivers_of_stacked stacked

omit [Target] in
theorem first_request_delivers : ∃ target : Target, target.ptr = 8 ∧ ∃ p t, p ≠ 0 ∧
    StackStep buddyAllocator ⟨loaded fun _ => 0, []⟩ (.malloc 16 8192) ⟨t, [(p, 16)]⟩ ∧
    Delivers (fun _ => 0) ⟨t, [(p, 16)]⟩ := by
  let target : Target := ⟨8, .inr rfl⟩
  have start := delivers_of_stacked (stacked_loaded buddyAllocator fun _ => 0)
  obtain ⟨p, t, ran, served⟩ := start.requests (Nat.zero_le _) 16 8192 (by decide) (by decide) region_8192
  have some : p ≠ 0 := served.mpr (by decide)
  have step : StackStep buddyAllocator ⟨loaded fun _ => 0, []⟩ (.malloc 16 8192) ⟨t, if p = 0 then [] else [(p, 16)]⟩ :=
    .malloc (by decide) (by decide) region_8192 ran
  rw [if_neg some] at step
  exact ⟨target, rfl, p, t, some, step, stack_delivers (.snoc .refl step) _ List.mem_cons_self⟩

end Buddy

end Eecs343.Kma
