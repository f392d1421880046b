import Eecs343.Kma.Buddy.Progress

namespace Eecs343.Kma.Buddy

open Bytes Effect Linked Transition

variable [Target]

variable {s : Machine} {w start last : World} {steps : List (World × Call)} {P : Page} {live : List (Int × Int)}
  {ps : List Page} {p size : Int}

def headerRegion (P : Page) : Int × Int := (P.base, sizeofAllocheader + sizeofPageheader)

def freeRegions (P : Page) : List (Int × Int) :=
  (List.range 9).flatMap fun k => (P.free k).map fun b => (b, blockSize k)

def pageRegions (P : Page) : List (Int × Int) := headerRegion P :: freeRegions P

def liveRegions (live : List (Int × Int)) : List (Int × Int) := live.map fun q => (q.1, liveLength q)

def Disjoint (r r' : Int × Int) : Prop := Apart r.1 r.2 r'.1 r'.2

/-- The region lies in the page at `base`. -/
def Inside (base : Int) (r : Int × Int) : Prop := base ≤ r.1 ∧ r.1 + r.2 ≤ base + 8192

/-- No byte is in two regions, each region lies on its own page, and the lists are as their blocks
    say: by length, aligned, ascending. -/
structure NoOverlap (m : Memory) (live : List (Int × Int)) (ps : List Page) : Prop where
  disjoint : (liveRegions live ++ ps.flatMap pageRegions).Pairwise Disjoint
  liveInside : ∀ r ∈ liveRegions live, ∃ P ∈ ps, baseAddr r.1 = P.base ∧ Inside P.base r
  pageInside : ∀ P ∈ ps, ∀ r ∈ pageRegions P, Inside P.base r
  length : ∀ P ∈ ps, ∀ k < 9, ∀ b ∈ P.free k, load m 4 (b + ptr) = blockSize k
  aligned : ∀ P ∈ ps, ∀ k < 9, ∀ b ∈ P.free k, (b - P.base) % blockSize k = 0
  ascending : ∀ P ∈ ps, ∀ k < 9, (P.free k).Pairwise (· < ·)

omit [Target] in
theorem mem_freeRegions {r : Int × Int} : r ∈ freeRegions P ↔ ∃ k < 9, r.1 ∈ P.free k ∧ r.2 = blockSize k := by
  unfold freeRegions
  simp only [List.mem_flatMap, List.mem_range, List.mem_map]
  constructor
  · rintro ⟨k, bound, b, member, rfl⟩
    exact ⟨k, bound, member, rfl⟩
  · intro ⟨k, bound, member, length⟩
    exact ⟨k, bound, r.1, member, by rw [← length]⟩

theorem freeRegions_disjoint {room : Set Int} (ok : P.Ok room) : (freeRegions P).Pairwise Disjoint := by
  unfold freeRegions
  rw [List.pairwise_flatMap]
  refine ⟨fun k inside => ?_, ?_⟩
  · have bound := List.mem_range.mp inside
    rw [List.pairwise_map]
    refine (ok.sorted k bound).imp_of_mem fun {a b} memberA memberB less => ?_
    refine ok.apart k bound k bound a memberA b memberB fun same => ?_
    cases same
    exact absurd less (Int.lt_irrefl _)
  · refine List.pairwise_lt_range.imp_of_mem fun {j k} insideJ insideK less => ?_
    intro _ memberA _ memberB
    obtain ⟨a, freeA, rfl⟩ := List.mem_map.mp memberA
    obtain ⟨b, freeB, rfl⟩ := List.mem_map.mp memberB
    refine ok.apart j (List.mem_range.mp insideJ) k (List.mem_range.mp insideK) a freeA b freeB fun same => ?_
    cases same
    exact absurd less (Nat.lt_irrefl _)

theorem pageRegions_spec {room : Set Int} (ok : P.Ok room) (reserved : P.base ∉ room) :
    (pageRegions P).Pairwise Disjoint ∧ ∀ r ∈ pageRegions P, Inside P.base r ∧ 0 < r.2 := by
  have := ptr_bounds
  have place : ∀ r ∈ freeRegions P, P.base + 32 * ptr ≤ r.1 ∧ r.1 + r.2 ≤ P.base + 8192 ∧ 32 ≤ r.2 := by
    intro r member
    obtain ⟨k, bound, free, length⟩ := mem_freeRegions.mp member
    have holds := ok.holds k bound r.1 free
    exact ⟨holds.beyond reserved, length ▸ holds.high, length ▸ blockSize_pos k⟩
  refine ⟨List.pairwise_cons.mpr ⟨fun r member => ?_, freeRegions_disjoint ok⟩, List.forall_mem_cons.mpr ⟨?_, ?_⟩⟩
  · have here := place r member
    refine .inl ?_
    change P.base + (3 * ptr + 21 * ptr) ≤ r.1
    omega
  · refine ⟨⟨le_refl _, ?_⟩, ?_⟩
    · change P.base + (3 * ptr + 21 * ptr) ≤ P.base + 8192
      omega
    · change 0 < (3 * ptr + 21 * ptr : Int)
      omega
  · intro r member
    have here := place r member
    exact ⟨⟨by omega, here.2.1⟩, by omega⟩

theorem Inv.noOverlap (inv : Inv w ps) : NoOverlap w.machine.memory w.live ps := by
  have bounds := ptr_bounds
  obtain ⟨heap, books⟩ := inv
  have sound := heap.chained.sound
  have pages : ∀ P ∈ ps, (pageRegions P).Pairwise Disjoint ∧ ∀ r ∈ pageRegions P, Inside P.base r ∧ 0 < r.2 :=
    fun P member => pageRegions_spec (sound P member).ok (room_reserved _ _)
  refine ⟨List.pairwise_append.mpr ⟨?_, ?_, ?_⟩, ?_, fun P member r inside => ((pages P member).2 r inside).1, ?_, ?_, ?_⟩
  · unfold liveRegions
    rw [List.pairwise_map]
    exact books.apart
  · rw [List.pairwise_flatMap]
    refine ⟨fun P member => (pages P member).1, ?_⟩
    have distinct := heap.chained.distinct
    rw [List.Nodup, List.pairwise_map] at distinct
    refine distinct.imp_of_mem fun {P Q} memberP memberQ ne r insideP r' insideQ => ?_
    have apart := (sound P memberP).legal.apart (sound Q memberQ).legal ne
    have hereP := (pages P memberP).2 r insideP
    have hereQ := (pages Q memberQ).2 r' insideQ
    unfold Inside at hereP hereQ
    unfold Disjoint Apart
    omega
  · intro r memberR r' memberR'
    obtain ⟨q, inLive, rfl⟩ := List.mem_map.mp memberR
    obtain ⟨P, memberP, inPage⟩ := List.mem_flatMap.mp memberR'
    obtain ⟨Q, memberQ, page, above, below, _, least⟩ := books.place inLive
    rcases List.mem_cons.mp inPage with rfl | free
    · have apart : Q.base = P.base ∨ Q.base + 8192 ≤ P.base ∨ P.base + 8192 ≤ Q.base := by
        by_cases same : Q.base = P.base
        · exact .inl same
        · exact .inr ((sound Q memberQ).legal.apart (sound P memberP).legal same)
      change q.1 + liveLength q ≤ P.base ∨ P.base + (3 * ptr + 21 * ptr) ≤ q.1
      omega
    · obtain ⟨k, bound, listed, length⟩ := mem_freeRegions.mp free
      have long := blockSize_pos k
      refine (apart_of_outside (by omega) (by omega) fun x low high => ?_).symm
      exact (((sound P memberP).ok.holds k bound r'.1 listed).inRoom x low (by omega)).2.2 q inLive
  · intro r member
    obtain ⟨q, inLive, rfl⟩ := List.mem_map.mp member
    obtain ⟨P, memberP, page, above, below, _⟩ := books.place inLive
    exact ⟨P, memberP, page, by dsimp only; omega, below⟩
  · exact fun P member k bound b free => ((sound P member).rep.lists k bound).size b free
  · exact fun P member k bound b free => ((sound P member).ok.holds k bound b free).aligned
  · exact fun P member k bound => (sound P member).ok.sorted k bound

/-- In every state of every run no region overlaps another. -/
theorem never_overlaps (run : Calls buddyAllocator start steps last) :
    ∀ w ∈ visited steps last, ∃ ps, Shows w.machine ps ∧ NoOverlap w.machine.memory w.live ps := by
  intro w member
  obtain ⟨ps, inv⟩ := calls_inv run w member
  exact ⟨ps, inv.heap.shows, inv.noOverlap⟩

omit [Target] in
theorem never_overlaps_one_request : ∃ target : Target, target.ptr = 8 ∧ ∃ b t ps,
    Step buddyAllocator idle (.malloc 16 (twoPages 8192)) ⟨t, [(b, 16)]⟩ ∧ Shows t ps ∧ NoOverlap t.memory [(b, 16)] ps := by
  let target : Target := ⟨8, .inr rfl⟩
  obtain ⟨b, t, _, step, _⟩ := (Inv.initial idle_initial).malloc_next (show (1 : Int) ≤ 16 by decide)
    (by decide) (show (8192 : Int) % 8192 = 0 from rfl) (by decide) (by decide) (by simp)
  obtain ⟨ps, shows, apart⟩ := never_overlaps ⟨idle_initial, .snoc .refl step⟩ _ List.mem_cons_self
  exact ⟨target, rfl, b, t, ps, step, shows, apart⟩

end Eecs343.Kma.Buddy
