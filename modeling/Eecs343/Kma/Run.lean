import Eecs343.Base.Transition
import Eecs343.Kma.Machine

namespace Eecs343.Kma

open Bytes Effect Transition

variable [Target]

structure Allocator where
  malloc : Int → C Int
  free : Int → Int → C Unit

/-- The allocator between two calls, and the blocks it has handed out: the address of each and the
    size it was requested with. -/
structure World where
  machine : Machine
  live : List (Int × Int)

/-- No page is in use, and nothing has been counted yet. -/
structure World.Initial (w : World) : Prop where
  first : w.machine.firstPage = 0
  pages : w.machine.pages = []
  requested : w.machine.numRequested = 0
  freed : w.machine.numFreed = 0
  inUse : w.machine.numInUse = 0
  headers : w.machine.headers = []
  live : w.live = []

/-- A byte of a page in use that no live block has. -/
def World.Private (w : World) (x : Int) : Prop :=
  baseAddr x ∈ w.machine.pages ∧ ∀ q ∈ w.live, x < q.1 ∨ q.1 + q.2 ≤ x

/-- `supply` is what `get_page` answers during a request; between calls, the client writes to its
    blocks and the page pool to its pages. -/
inductive Call where
  | malloc (size : Int) (supply : List (Int × Int))
  | free (p size : Int)
  | client (memory : Memory)

/-- One call that returns. A size is an `int`; only live blocks are freed, with their size. -/
inductive Step (A : Allocator) : World → Call → World → Prop where
  | malloc {w size supply p t} (low : 1 ≤ size) (high : size < 2 ^ 31)
    (offered : Offered { w.machine with supply := supply })
    (ran : (A.malloc size).run { w.machine with supply := supply } = .ok (p, t)) :
    Step A w (.malloc size supply) ⟨t, if p = 0 then w.live else (p, size) :: w.live⟩
  | free {w p size t} (live : (p, size) ∈ w.live) (ran : (A.free p size).run w.machine = .ok ((), t)) :
    Step A w (.free p size) ⟨t, w.live.erase (p, size)⟩
  | client {w memory} (kept : ∀ x, w.Private x → memory x = w.machine.memory x) :
    Step A w (.client memory) ⟨{ w.machine with memory := memory }, w.live⟩

abbrev Calls (A : Allocator) (start : World) (steps : List (World × Call)) (last : World) : Prop :=
  start.Initial ∧ Run (Step A) start steps last

def idle : World := ⟨⟨fun _ => 0, 0, 0, 0, 0, 0, [], [], []⟩, []⟩

omit [Target] in
theorem idle_initial : idle.Initial := ⟨rfl, rfl, rfl, rfl, rfl, rfl, rfl⟩

/-- A pool of the page at `page` and the one behind it. -/
def twoPages (page : Int) : List (Int × Int) := [(page, page + 8192), (page + 8192, page + 16384)]

theorem twoPages_offered {s : Machine} {page : Int} (aligned : page % 8192 = 0) (low : 0 < page) (high : page < 2 ^ 30)
    (above : ∀ used ∈ s.pages, used < page) : Offered { s with supply := twoPages page } := by
  have space : (2 ^ 32 : Int) ≤ (256 ^ ptr : Nat) := by
    rcases Target.ptr_cases with h | h <;> rw [h] <;> decide
  have legal : ∀ base : Int, base % 8192 = 0 → 0 < base → base ≤ 2 ^ 30 + 8192 → Legal base :=
    fun base aligned low high => ⟨aligned, by omega, by omega, by omega⟩
  have members : ∀ offer ∈ twoPages page, offer.1 = page ∨ offer.1 = page + 8192 := by
    simp [twoPages]
  refine ⟨fun offer member => ?_, fun offer member used => ?_, ?_⟩
  · rcases members offer member with h | h <;> rw [h] <;> exact legal _ (by omega) (by omega) (by omega)
  · have := above offer.1 used
    rcases members offer member with h | h <;> omega
  · change [page, page + 8192].Nodup
    simp

theorem offered_nothing {s : Machine} : Offered { s with supply := [] } := ⟨by simp, by simp, by simp⟩

section

variable {A : Allocator} {start : World} {steps : List (World × Call)} {s t : Machine} {live : List (Int × Int)} {p n : Int}

theorem Calls.request {supply : List (Int × Int)} (run : Calls A start steps ⟨s, live⟩) (low : 1 ≤ n) (high : n < 2 ^ 31)
    (offered : Offered { s with supply := supply }) (ran : (A.malloc n).run { s with supply := supply } = .ok (p, t))
    (some : p ≠ 0) : Calls A start ((⟨s, live⟩, .malloc n supply) :: steps) ⟨t, (p, n) :: live⟩ := by
  have step : Step A ⟨s, live⟩ (.malloc n supply) _ := .malloc low high offered ran
  rw [if_neg some] at step
  exact ⟨run.1, .snoc run.2 step⟩

theorem Calls.release (run : Calls A start steps ⟨s, live⟩) (listed : (p, n) ∈ live) (ran : (A.free p n).run s = .ok ((), t)) :
    Calls A start ((⟨s, live⟩, .free p n) :: steps) ⟨t, live.erase (p, n)⟩ := ⟨run.1, .snoc run.2 (.free listed ran)⟩

end

theorem idle_calls {A : Allocator} : Calls A idle [] idle := ⟨idle_initial, .refl⟩

/-- The machine that a call leaves behind. -/
def after {α : Type} (x : C α) (s : Machine) : Machine :=
  match x.run s with
  | .ok r => r.2
  | .error _ => s

omit [Target] in
theorem returns {α : Type} {x : C α} {s : Machine} {p : α} (ran : ((x.run s).toOption.map Prod.fst) = some p) :
    x.run s = .ok (p, after x s) := by
  unfold after
  cases same : x.run s with
  | ok r => rw [same] at ran; cases ran; rfl
  | error e => rw [same] at ran; cases ran

abbrev lp64 : Target := ⟨8, .inr rfl⟩

end Eecs343.Kma
