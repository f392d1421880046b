import Eecs343.Kma.Run
import Eecs343.Kma.Buddy.FreeCall

namespace Eecs343.Kma.Buddy

open Bytes Linked

variable [Target]

/-- `kma_bud.c`. -/
def buddyAllocator : Allocator := ⟨kmaMalloc, kmaFree⟩

/-- The pages the variables and the memory of the allocator show. -/
structure Shows (s : Machine) (ps : List Page) : Prop where
  first : s.firstPage = (ps.map Page.base).headD 0
  path : Path (fun a => load s.memory ptr (a + ptr)) (headHeader ps) (ps.map Page.header) 0
  bases : ∀ P ∈ ps, P.base ≠ 0
  headers : ∀ P ∈ ps, P.header ≠ 0
  rep : ∀ P ∈ ps, PageRep s.memory P (load s.memory ptr (P.header + ptr))
  blocks : ∀ P ∈ ps, ∀ k < 9, ∀ b ∈ P.free k, b ≠ 0
  beyond : ∀ P ∈ ps, ∀ k, 9 ≤ k → P.free k = []
  pages : s.pages.Perm (ps.map Page.base)

theorem Heap.shows {s : Machine} {room : Int → Set Int} {ps : List Page} (heap : Heap s room ps) : Shows s ps where
  first := heap.first
  path := heap.chained.path
  bases _ member := (heap.chained.legal member).nonzero
  headers _ member := header_ne (heap.chained.legal member)
  rep P member := (heap.chained.sound P member).rep
  blocks P member k bound b free := by
    have sound := heap.chained.sound P member
    exact (Sound.block sound.legal (sound.ok.holds k bound b free)).1
  beyond P member := (heap.chained.sound P member).ok.beyond
  pages := heap.pages

theorem PageRep.unique {m : Memory} {P Q : Page} {next : Int} (left : PageRep m P next) (right : PageRep m Q next)
    (header : P.header = Q.header) (blocks : ∀ k < 9, ∀ b ∈ P.free k, b ≠ 0) (blocks' : ∀ k < 9, ∀ b ∈ Q.free k, b ≠ 0)
    (beyond : ∀ k, 9 ≤ k → P.free k = []) (beyond' : ∀ k, 9 ≤ k → Q.free k = []) : P = Q := by
  ext1
  · rw [← left.page, ← right.page, header]
  · rw [← left.used, ← right.used, header]
  · funext k
    by_cases bound : k < 9
    · have here := (left.lists k bound).path
      rw [header] at here
      exact here.unique (right.lists k bound).path (fun member => blocks k bound 0 member rfl) fun member =>
        blocks' k bound 0 member rfl
    · rw [beyond k (by omega), beyond' k (by omega)]

/-- The lists of a page can be read off its memory. -/
theorem Sound.unique {m : Memory} {room room' : Set Int} {P Q : Page} {next : Int} (left : Sound m room P next)
    (right : Sound m room' Q next) (base : P.base = Q.base) : P = Q := by
  apply left.rep.unique right.rep
  · rw [header_eq, header_eq, base]
  · exact fun k bound b member => (Sound.block left.legal (left.ok.holds k bound b member)).1
  · exact fun k bound b member => (Sound.block right.legal (right.ok.holds k bound b member)).1
  · exact left.ok.beyond
  · exact right.ok.beyond

theorem Shows.unique {s : Machine} {ps qs : List Page} (left : Shows s ps) (right : Shows s qs) : ps = qs := by
  have start : headHeader ps = headHeader qs := by
    have first := left.first
    rw [right.first] at first
    cases ps with
    | nil =>
      cases qs with
      | nil => rfl
      | cons Q qs => exact absurd first (right.bases Q List.mem_cons_self)
    | cons P ps =>
      cases qs with
      | nil => exact absurd first.symm (left.bases P List.mem_cons_self)
      | cons Q qs => exact congrArg pageHeader first.symm
  have path := left.path
  rw [start] at path
  have headers := path.unique right.path (fun member => ?_) fun member => ?_
  · have length := congrArg List.length headers
    rw [List.length_map, List.length_map] at length
    refine List.ext_getElem length fun i first second => ?_
    have here : ps[i].header = qs[i].header := by
      have := congrArg (fun l => l[i]?) headers
      simpa [first, second] using this
    have memberP := List.getElem_mem first
    have memberQ := List.getElem_mem second
    have rep := left.rep _ memberP
    rw [here] at rep
    exact rep.unique (right.rep _ memberQ) here (left.blocks _ memberP) (right.blocks _ memberQ)
      (left.beyond _ memberP) (right.beyond _ memberQ)
  · obtain ⟨P, memberP, zero⟩ := List.mem_map.mp member
    exact left.headers P memberP zero
  · obtain ⟨Q, memberQ, zero⟩ := List.mem_map.mp member
    exact right.headers Q memberQ zero

def Whole (q : Int × Int) : Prop := roundUp (realSize q.2) = 8192

instance (q : Int × Int) : Decidable (Whole q) := inferInstanceAs (Decidable (_ = _))

def liveLength (q : Int × Int) : Int :=
  if Whole q then baseAddr q.1 + 8192 - q.1 else roundUp (realSize q.2)

def own (live : List (Int × Int)) (P : Page) : List (Int × Int) := live.filter fun q => baseAddr q.1 = P.base

/-- The bytes of a page behind its header that no live block has. -/
def room (live : List (Int × Int)) (page : Int) : Set Int :=
  {x | page + 32 * ptr ≤ x ∧ x < page + 8192 ∧ ∀ q ∈ live, x < q.1 ∨ q.1 + liveLength q ≤ x}

structure Carries (P : Page) (q : Int × Int) : Prop where
  positive : 1 ≤ q.2
  small : q.2 + 3 * ptr ≤ 4096
  aligned : (q.1 - P.base) % blockSize (sizeClass (q.2 + 3 * ptr)) = 0
  low : P.base + 32 * ptr ≤ q.1
  high : q.1 + blockSize (sizeClass (q.2 + 3 * ptr)) ≤ P.base + 8192

/-- What holds of a page and its live blocks: they were carved from it, with the lengths of all its
    blocks within the page size, or one request has it whole. -/
inductive Page.Shared (P : Page) (live : List (Int × Int)) : Prop where
  | carved (carries : ∀ q ∈ live, Carries P q)
    (bytes : 32 * ptr + (live.map liveLength).sum + P.freeBytes ≤ 8192)
  | whole {q} (only : live = [q]) (large : 4096 < q.2 + 3 * ptr) (fits : q.2 + 24 * ptr ≤ 8192)
    (start : q.1 = P.header + 21 * ptr) (empty : ∀ k < 9, P.free k = [])

/-- What the pages and the live blocks have to do with each other. -/
structure Books (live : List (Int × Int)) (ps : List Page) : Prop where
  home : ∀ q ∈ live, ∃ P ∈ ps, baseAddr q.1 = P.base
  apart : live.Pairwise fun q q' => Apart q.1 (liveLength q) q'.1 (liveLength q')
  used : ∀ P ∈ ps, P.used = (own live P).length
  shared : ∀ P ∈ ps, P.Shared (own live P)

/-- The invariant of the runs. -/
structure Inv (w : World) (ps : List Page) : Prop where
  heap : Heap w.machine (room w.live) ps
  books : Books w.live ps

variable {P : Page} {q : Int × Int} {live live' : List (Int × Int)} {ps l r : List Page}

theorem Carries.class_lt (carries : Carries P q) : sizeClass (q.2 + 3 * ptr) < 8 :=
  Nat.lt_succ_of_le (sizeClass_le (k := 7) carries.small)

theorem roundUp_carved (carries : Carries P q) : roundUp (realSize q.2) = blockSize (sizeClass (q.2 + 3 * ptr)) :=
  roundUp_realSize carries.positive (by have := carries.small; omega)

theorem Carries.not_whole (carries : Carries P q) : ¬ Whole q := by
  have bound := carries.class_lt
  unfold Whole
  rw [roundUp_carved carries, blockSize_whole (by omega)]
  omega

theorem Carries.length (carries : Carries P q) : liveLength q = blockSize (sizeClass (q.2 + 3 * ptr)) := by
  rw [liveLength, if_neg carries.not_whole, roundUp_carved carries]

theorem whole_of_large (low : 1 ≤ q.2) (large : 4096 < q.2 + 3 * ptr) (fits : q.2 + 24 * ptr ≤ 8192) : Whole q := by
  have := ptr_bounds
  have bound := sizeClass_lt (q.2 + 3 * ptr)
  unfold Whole
  rw [roundUp_realSize low (by omega), blockSize_whole bound]
  by_contra small
  have most := (sizeClass_cases (show q.2 + 3 * ptr ≤ 8192 by omega)).1
  have := blockSize_mono (show sizeClass (q.2 + 3 * ptr) ≤ 7 from by omega)
  have : blockSize 7 = 4096 := rfl
  omega

theorem Page.Shared.place (shared : P.Shared live) (member : q ∈ live)
    (page : baseAddr q.1 = P.base) :
    P.base + 24 * ptr ≤ q.1 ∧ q.1 + liveLength q ≤ P.base + 8192 ∧ q.2 ≤ liveLength q ∧ 32 ≤ liveLength q := by
  have := ptr_bounds
  cases shared with
  | carved carries bytes =>
    have here := carries q member
    have positive := blockSize_pos (sizeClass (q.2 + 3 * ptr))
    have enough := (sizeClass_cases (show q.2 + 3 * ptr ≤ 8192 by have := here.small; omega)).1
    have low := here.low
    have high := here.high
    rw [here.length]
    omega
  | whole only large fits start empty =>
    rw [only] at member
    cases List.mem_singleton.mp member
    have eq := header_eq P
    rw [liveLength, if_pos (whole_of_large (by omega) large fits), page]
    omega

end Eecs343.Kma.Buddy
