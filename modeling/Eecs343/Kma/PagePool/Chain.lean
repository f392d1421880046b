import Mathlib.Data.List.Perm.Basic
import Mathlib.Data.List.Nodup
import Eecs343.Base.Linked
import Eecs343.Kma.PagePool.Program

namespace Eecs343.Kma.PagePool

open Bytes Effect Linked

variable [Target]

/-- The page at index `i` of the pool from `pool`. -/
def slot (pool : Int) (i : Nat) : Int := pointer (pool + i * 8192)

def slots (pool : Int) : List Int := (List.range' 0 MAXPAGES).map (slot pool)

/-- A region for a pool: a block of `MAXPAGES * PAGESIZE` bytes of the address space, aligned and
    not at NULL. -/
structure Region (start : Int) : Prop where
  fits : Fits ptr start
  aligned : start % 8192 = 0
  nonzero : 0 < start % (256 ^ ptr : Nat)
  inside : start % (256 ^ ptr : Nat) + MAXPAGES * 8192 ≤ (256 ^ ptr : Nat)

omit [Target] in
theorem maxPages : MAXPAGES = 4096 := rfl

theorem space : (256 ^ ptr : Nat) = 2 ^ 32 ∨ (256 ^ ptr : Nat) = 2 ^ 64 := by
  rcases Target.ptr_cases with h | h <;> simp [h]

theorem pointer_add (x k : Int) : pointer (pointer x + k) = pointer (x + k) := by
  simp [pointer]

theorem pointer_fits (x : Int) : Fits ptr (pointer x) := by
  have low : _ ≤ pointer x := Int.le_bmod (x := x) (m := 256 ^ ptr) (by rcases space with h | h <;> omega)
  have high : pointer x < _ := Int.bmod_lt (x := x) (m := 256 ^ ptr) (by rcases space with h | h <;> omega)
  rcases space with h | h <;> rw [h] at low high <;> unfold Fits <;> rw [h] <;> omega

theorem pointer_emod (x : Int) : pointer x % (256 ^ ptr : Nat) = x % (256 ^ ptr : Nat) := by
  rw [pointer, Int.bmod_emod]

theorem slot_succ (pool : Int) (i : Nat) : pointer (slot pool i + 8192) = slot pool (i + 1) := by
  rw [slot, pointer_add, slot]
  congr 1
  push_cast
  ring

variable {start : Int} {i j : Nat}

theorem Region.slot_zero (region : Region start) : slot start 0 = start := by
  obtain ⟨low, high⟩ := region.fits
  rw [slot, pointer, Nat.cast_zero, Int.zero_mul, Int.add_zero]
  exact Int.bmod_eq_of_le (by rcases space with h | h <;> omega) (by rcases space with h | h <;> omega)

theorem Region.slot_emod (region : Region start) (bound : i < MAXPAGES) :
    slot start i % (256 ^ ptr : Nat) = start % (256 ^ ptr : Nat) + i * 8192 := by
  have inside := region.inside
  have nonzero := region.nonzero
  have pages := maxPages
  rw [slot, pointer_emod]
  rcases space with h | h <;> rw [h] at inside nonzero ⊢ <;> omega

theorem Region.slot_ne_zero (region : Region start) (bound : i < MAXPAGES) : slot start i ≠ 0 := by
  intro zero
  have emod := region.slot_emod bound
  have nonzero := region.nonzero
  rw [zero, Int.zero_emod] at emod
  omega

theorem Region.slot_inj (region : Region start) (left : i < MAXPAGES) (right : j < MAXPAGES)
    (same : slot start i = slot start j) : i = j := by
  have emod := region.slot_emod left
  rw [same, region.slot_emod right] at emod
  omega

theorem Region.slot_aligned (region : Region start) (i : Nat) : slot start i % 8192 = 0 := by
  have aligned := region.aligned
  have same := pointer_emod (start + i * 8192)
  rw [slot]
  rcases space with h | h <;> rw [h] at same <;> omega

theorem Region.slots_nodup (region : Region start) : (slots start).Nodup := by
  apply List.Nodup.map_on _ List.nodup_range'
  intro i left j right same
  apply region.slot_inj _ _ same
  · simpa using left
  · simpa using right

theorem mem_slots {p : Int} : p ∈ slots start ↔ ∃ i < MAXPAGES, slot start i = p := by
  simp [slots]

theorem link_of_store {m : Memory} {a b v : Int} (left : a % 8192 = 0) (right : b % 8192 = 0) (ne : a ≠ b) :
    link (store m ptr a v) b = link m b := by
  have word := ptr_bounds
  exact load_store_of_disjoint _ _ (by omega)

theorem link_store {m : Memory} {a v : Int} (fits : Fits ptr v) : link (store m ptr a v) a = v := load_store _ fits

/-- Links from each slot to the next and out of the last one make a chain of the slots from `i` on. -/
theorem path_slots {next : Int → Int} {q : Int} {n : Nat}
    (linked : ∀ j, i ≤ j → j < i + n → next (slot start j) = slot start (j + 1))
    (last : next (slot start (i + n)) = q) : Path next (slot start i) ((List.range' i (n + 1)).map (slot start)) q := by
  induction n generalizing i with
  | zero => exact ⟨rfl, last⟩
  | succ n ih =>
    refine ⟨rfl, ?_⟩
    rw [linked i (by omega) (by omega)]
    apply ih
    · intro j low high
      exact linked j (by omega) (by omega)
    · rw [show i + 1 + n = i + (n + 1) by omega, last]

variable {s : Pool} {E : Failure → Prop}

theorem wp_readLink {p : Int} {post : Int → Pool → Prop} (nonzero : p ≠ 0) (h : post (link s.memory p) s) :
    wp (readLink p) post E s := by
  simpa [readLink, nonzero] using h

theorem wp_writeLink {p v : Int} {post : Unit → Pool → Prop} (nonzero : p ≠ 0)
    (h : post () { s with memory := store s.memory ptr p v }) : wp (writeLink p v) post E s := by
  simpa [writeLink, nonzero] using h

theorem linkPages_spec (i left : Nat) {s : Pool} (region : Region s.pool) (bound : i + left < MAXPAGES) :
    wp (linkPages i left) (fun _ t => (∃ m, t = { s with memory := m }) ∧
      (∀ j, i ≤ j → j < i + left → link t.memory (slot s.pool j) = slot s.pool (j + 1)) ∧
      ∀ j < i, link t.memory (slot s.pool j) = link s.memory (slot s.pool j)) E s := by
  induction left generalizing i s with
  | zero => exact ⟨⟨s.memory, rfl⟩, fun j low high => by omega, fun j _ => rfl⟩
  | succ left ih =>
    simp only [linkPages, wp_bind, wp_get]
    apply wp_writeLink (region.slot_ne_zero (by omega))
    refine wp_mono (ih (i + 1) (s := { s with memory := _ }) region (by omega)) ?_
    rintro _ t ⟨⟨m, rfl⟩, linked, kept⟩
    refine ⟨⟨m, rfl⟩, ?_, ?_⟩
    · intro j low high
      by_cases first : j = i
      · rw [kept j (by omega), first]
        exact (link_store (pointer_fits _)).trans (slot_succ _ _)
      · exact linked j (by omega) (by omega)
    · intro j low
      rw [kept j (by omega)]
      apply link_of_store (region.slot_aligned i) (region.slot_aligned j)
      intro same
      have := region.slot_inj (by omega) (by omega) same
      omega

/-- What `initPages` leaves: a new pool, with all its pages on the chain. -/
theorem initPages_spec (region : Region start) (dropped : s.pool = 0) (empty : s.nextFreePage = 0) :
    wp (initPages (some start)) (fun _ t => ∃ m, t = { s with memory := m, pool := start, nextFreePage := start } ∧
      Path (link t.memory) start (slots start) 0) E s := by
  have pages := maxPages
  simp only [initPages, wp_bind, wp_get, wp_modify, empty, dropped, ne_eq, not_true_eq_false, ↓reduceIte]
  refine wp_mono (linkPages_spec 0 (MAXPAGES - 1) (s := { s with pool := start, nextFreePage := start }) region (by omega)) ?_
  rintro _ t ⟨⟨m, rfl⟩, linked, kept⟩
  apply wp_writeLink (region.slot_ne_zero (by omega))
  refine ⟨_, rfl, ?_⟩
  have path : Path (link (store m ptr (slot start (MAXPAGES - 1)) 0)) (slot start 0)
      ((List.range' 0 (MAXPAGES - 1 + 1)).map (slot start)) 0 := path_slots ?_ ?_
  · rwa [region.slot_zero, show MAXPAGES - 1 + 1 = MAXPAGES by omega] at path
  · intro j low high
    rw [← linked j low high]
    apply link_of_store (region.slot_aligned _) (region.slot_aligned j)
    intro same
    have := region.slot_inj (by omega) (by omega) same
    omega
  · rw [Nat.zero_add]
    exact link_store (fits_zero _)

omit [Target] in
theorem Region.ne_zero [Target] (region : Region start) : start ≠ 0 := by
  intro zero
  have nonzero := region.nonzero
  rw [zero, Int.zero_emod] at nonzero
  omega

theorem Region.slots_cons (region : Region start) :
    slots start = start :: (List.range' 1 (MAXPAGES - 1)).map (slot start) := by
  have pages := maxPages
  rw [slots, show MAXPAGES = MAXPAGES - 1 + 1 by omega, List.range'_succ,
    List.map_cons, region.slot_zero, Nat.zero_add, Nat.add_sub_cancel]

/-- The chain `allocPage` takes a page from: the pages left, or those of a new pool. -/
def Pool.offers (s : Pool) (start : Int) (free : List Int) : List Int := if s.pool = 0 then slots start else free

/-- `allocPage` can take a page: from its chain, or from a new pool. -/
structure Ready (s : Pool) (start : Int) (free : List Int) : Prop where
  path : Path (link s.memory) s.nextFreePage free 0
  fresh : s.pool = 0 → Region start ∧ s.nextFreePage = 0
  left : s.pool ≠ 0 → free ≠ [] ∧ 0 ∉ free

/-- `page` has been taken off the head of the chain. -/
structure Taken (s t : Pool) (start : Int) (free : List Int) (page : Int) : Prop where
  chain : ∃ rest, Path (link t.memory) t.nextFreePage rest 0 ∧ page :: rest = s.offers start free
  next : t.nextFreePage = link t.memory page
  pool : t.pool = if s.pool = 0 then start else s.pool

theorem takePage_spec {page : Int} {rest : List Int} (nonzero : s.nextFreePage ≠ 0)
    (path : Path (link s.memory) s.nextFreePage (page :: rest) 0) :
    wp takePage (fun res t => res = page ∧ t = { s with nextFreePage := link s.memory page }) E s := by
  simp only [takePage, wp_bind, wp_get, nonzero, ↓reduceIte]
  apply wp_readLink nonzero
  exact ⟨path.1, by rw [path.1]⟩

theorem allocPage_spec {free : List Int} (ready : Ready s start free) :
    wp (allocPage (some start)) (fun page t => page ≠ 0 ∧ Taken s t start free page ∧ t.stats = s.stats) E s := by
  simp only [allocPage, wp_bind, wp_get]
  by_cases dropped : s.pool = 0
  · obtain ⟨region, empty⟩ := ready.fresh dropped
    rw [if_pos dropped, wp_bind]
    refine wp_mono (initPages_spec region dropped empty) ?_
    rintro _ t ⟨m, rfl, path⟩
    rw [region.slots_cons] at path
    refine wp_mono (takePage_spec region.ne_zero path) ?_
    rintro _ t ⟨rfl, rfl⟩
    exact ⟨region.ne_zero, ⟨⟨_, path.2, by rw [Pool.offers, if_pos dropped, region.slots_cons]⟩, rfl, (if_pos dropped).symm⟩, rfl⟩
  · obtain ⟨more, nonzero⟩ := ready.left dropped
    have path := ready.path
    rw [if_neg dropped]
    cases free with
    | nil => exact absurd rfl more
    | cons page rest =>
      have head : page ≠ 0 := fun zero => nonzero (zero ▸ List.mem_cons_self)
      refine wp_mono (takePage_spec (path.1 ▸ head) path) ?_
      rintro _ t ⟨rfl, rfl⟩
      exact ⟨head, ⟨⟨rest, path.2, by rw [Pool.offers, if_neg dropped]⟩, rfl, (if_neg dropped).symm⟩, rfl⟩

theorem getPage_spec {free : List Int} (ready : Ready s start free) :
    wp (getPage (some start)) (fun page t => Taken s t start free page.ptr ∧
      t.stats = { s.stats with numRequested := s.stats.numRequested + 1, numInUse := s.stats.numInUse + 1 }) E s := by
  simp only [getPage, wp_bind, wp_modify, wp_get]
  have later : Ready
      { s with stats.numRequested := s.stats.numRequested + 1, stats.numInUse := s.stats.numInUse + 1, id := s.id + 1 }
      start free :=
    ⟨ready.path, ready.fresh, ready.left⟩
  refine wp_mono (allocPage_spec later) ?_
  intro page t got
  obtain ⟨nonzero, taken, stats⟩ := got
  simp only [nonzero, ↓reduceIte]
  exact ⟨⟨taken.chain, taken.next, taken.pool⟩, stats⟩

/-- `page` has been put back at the head of the chain, or the pool has been dropped with its last page. -/
structure PutBack (s t : Pool) (free : List Int) (page : Int) : Prop where
  chain : s.stats.numInUse ≠ 1 → t.pool = s.pool ∧ Path (link t.memory) t.nextFreePage (page :: free) 0
  dropped : s.stats.numInUse = 1 → t.pool = 0 ∧ t.nextFreePage = 0

theorem freePagePtr_spec {free : List Int} {page : Int} (nonzero : page ≠ 0) (fits : Fits ptr s.nextFreePage)
    (path : Path (link s.memory) s.nextFreePage free 0) (aligned : page % 8192 = 0)
    (others : ∀ p ∈ free, p % 8192 = 0 ∧ page ≠ p) :
    wp (freePagePtr page) (fun _ t =>
      (s.stats.numInUse ≠ 0 → t.pool = s.pool ∧ Path (link t.memory) t.nextFreePage (page :: free) 0) ∧
      (s.stats.numInUse = 0 → t.pool = 0 ∧ t.nextFreePage = 0) ∧ t.stats = s.stats) E s := by
  simp only [freePagePtr, wp_bind, wp_get, nonzero, ↓reduceIte]
  apply wp_writeLink nonzero
  simp only [wp_modify]
  split
  · rename_i last
    exact ⟨fun more => absurd last more, fun _ => ⟨rfl, rfl⟩, rfl⟩
  · rename_i more
    refine ⟨fun _ => ⟨rfl, rfl, ?_⟩, fun last => absurd last more, rfl⟩
    rw [link_store fits]
    apply path.congr
    intro p member
    exact link_of_store aligned (others p member).1 (others p member).2

theorem freePage_spec {free : List Int} {page : Page} (nonzero : page.ptr ≠ 0) (used : 0 < s.stats.numInUse.toInt)
    (fits : Fits ptr s.nextFreePage) (path : Path (link s.memory) s.nextFreePage free 0) (aligned : page.ptr % 8192 = 0)
    (others : ∀ p ∈ free, p % 8192 = 0 ∧ page.ptr ≠ p) :
    wp (freePage page) (fun _ t => PutBack s t free page.ptr ∧
      t.stats = { s.stats with numFreed := s.stats.numFreed + 1, numInUse := s.stats.numInUse - 1 }) E s := by
  have last : s.stats.numInUse - 1 = 0 ↔ s.stats.numInUse = 1 := by bv_omega
  simp only [freePage, wp_bind, wp_get, nonzero, Int.not_le.mpr used, ↓reduceIte, wp_modify]
  refine wp_mono (freePagePtr_spec
    (s := { s with stats := { s.stats with numFreed := s.stats.numFreed + 1, numInUse := s.stats.numInUse - 1 } })
    nonzero fits path aligned others) ?_
  intro _ t back
  obtain ⟨chain, dropped, stats⟩ := back
  refine ⟨⟨fun more => ?_, fun one => ?_⟩, stats⟩
  · exact chain fun zero => more (last.mp zero)
  · exact dropped (last.mpr one)

end Eecs343.Kma.PagePool
