import Eecs343.Kma.Footprint
import Eecs343.Kma.PagePool.Partition

namespace Eecs343.Kma.PagePool

open Bytes Effect Linked Relation Transition

variable [Target]

/-- What the loop of `initPages` does to memory. -/
def linkFrom (pool : Int) : (i left : Nat) → Memory → Memory
  | _, 0, m => m
  | i, left + 1, m => linkFrom pool (i + 1) left (store m ptr (slot pool i) (slot pool (i + 1)))

def linked (pool : Int) (m : Memory) : Memory :=
  store (linkFrom pool 0 (MAXPAGES - 1) m) ptr (slot pool (MAXPAGES - 1)) 0

/-- The free pages from `p` on, each with the link found in it. -/
def chain (m : Memory) : Nat → Int → List (Int × Int)
  | 0, _ => []
  | n + 1, p => if p = 0 then [] else (p, link m p) :: chain m n (link m p)

/-- An allocator with what `get_page` will answer during its next call: the chain there is, or, while no
    page is in use, the pages of a new pool at `region`. -/
def supplied (region : Int) (s : Machine) : Machine :=
  if s.numInUse = 0 then
    { s with memory := linked region s.memory, supply := chain (linked region s.memory) MAXPAGES region }
  else { s with supply := chain s.memory MAXPAGES s.nextFreePage }

variable {s t : Pool} {u v : Machine} {w : World} {start region : Int} {m : Memory} {L : Set Int} {p : Int} {free : List Int}
  {E : Failure → Prop}

theorem supplied_eq (region : Int) (u : Machine) :
    ∃ m supply, supplied region u = { u with memory := m, supply := supply } ∧ (u.numInUse = 0 ∨ m = u.memory) := by
  unfold supplied
  split
  · exact ⟨_, _, rfl, .inl ‹_›⟩
  · exact ⟨_, _, rfl, .inr rfl⟩

theorem linkPages_memory (i left : Nat) (region : Region s.pool) (bound : i + left < MAXPAGES) :
    wp (linkPages i left) (fun _ t => t = { s with memory := linkFrom s.pool i left s.memory }) E s := by
  induction left generalizing i s with
  | zero => rfl
  | succ left ih =>
    simp only [linkPages, wp_bind, wp_get]
    apply wp_writeLink (region.slot_ne_zero (by omega))
    rw [show pointer (pointer (s.pool + i * 8192) + 8192) = slot s.pool (i + 1) from slot_succ _ _]
    exact ih (i + 1) (s := { s with memory := store s.memory ptr (slot s.pool i) (slot s.pool (i + 1)) }) region (by omega)

theorem initPages_memory (region : Region start) (dropped : s.pool = 0) (empty : s.nextFreePage = 0) :
    wp (initPages (some start))
      (fun _ t => t = { s with memory := linked start s.memory, pool := start, nextFreePage := start }) E s := by
  have pages := maxPages
  simp only [initPages, wp_bind, wp_get, wp_modify, empty, dropped, ne_eq, not_true_eq_false, ↓reduceIte]
  refine wp_mono (linkPages_memory 0 (MAXPAGES - 1) (s := { s with pool := start, nextFreePage := start }) region (by omega)) ?_
  rintro _ t rfl
  refine wp_writeLink (region.slot_ne_zero (by omega)) ?_
  rw [linked, slot]

theorem Region.path (region : Region start) (m : Memory) : Path (link (linked start m)) start (slots start) 0 := by
  obtain ⟨s, rfl, dropped, empty⟩ : ∃ s : Pool, s.memory = m ∧ s.pool = 0 ∧ s.nextFreePage = 0 :=
    ⟨⟨m, ⟨0, 0, 0, 8192⟩, 0, 0, 0⟩, rfl, rfl, rfl⟩
  have held := wp_and (initPages_memory (E := fun _ => False) region dropped empty)
    (initPages_spec (E := fun _ => False) region dropped empty)
  obtain ⟨_, t, _, same, _, _, path⟩ := wp_returns (wp_total_of held fun _ never => never.1)
  rw [same] at path
  exact path

/-- The first page `get_page` hands out, and memory as it finds it there. -/
def Pool.head (s : Pool) (region : Int) : Int := if s.pool = 0 then region else s.nextFreePage

def Pool.serving (s : Pool) (region : Int) : Memory := if s.pool = 0 then linked region s.memory else s.memory

theorem takePage_memory (nonzero : s.nextFreePage ≠ 0) :
    wp takePage (fun page t => page = s.nextFreePage ∧ t = { s with nextFreePage := link s.memory s.nextFreePage }) E s := by
  simp only [takePage, wp_bind, wp_get, nonzero, ↓reduceIte]
  exact wp_readLink nonzero ⟨rfl, rfl⟩

theorem getPage_memory (fresh : s.pool = 0 → Region region ∧ s.nextFreePage = 0) (nonzero : s.head region ≠ 0) :
    wp (getPage (some region)) (fun page t => page.ptr = s.head region ∧ t.memory = s.serving region ∧
      t.nextFreePage = link (s.serving region) (s.head region) ∧ t.pool = (if s.pool = 0 then region else s.pool) ∧ t.stats =
        { s.stats with numRequested := s.stats.numRequested + 1, numInUse := s.stats.numInUse + 1 }) E s := by
  simp only [getPage, allocPage, wp_bind, wp_modify, wp_get]
  unfold Pool.head Pool.serving at *
  by_cases dropped : s.pool = 0
  · obtain ⟨unused, empty⟩ := fresh dropped
    simp only [dropped, ↓reduceIte, wp_bind] at nonzero ⊢
    refine wp_mono (initPages_memory unused rfl empty) ?_
    rintro _ t rfl
    refine wp_mono (takePage_memory nonzero) ?_
    rintro _ t ⟨rfl, rfl⟩
    simp [nonzero]
  · simp only [dropped, ↓reduceIte] at nonzero ⊢
    refine wp_mono (takePage_memory nonzero) ?_
    rintro _ t ⟨rfl, rfl⟩
    simp [nonzero]

theorem freePage_memory {page : Page} (nonzero : page.ptr ≠ 0) (used : 0 < s.stats.numInUse.toInt) :
    wp (freePage page) (fun _ t => t.memory = store s.memory ptr page.ptr s.nextFreePage ∧
      t.nextFreePage = (if s.stats.numInUse - 1 = 0 then 0 else page.ptr) ∧ t.stats =
        { s.stats with numFreed := s.stats.numFreed + 1, numInUse := s.stats.numInUse - 1 }) E s := by
  simp only [freePage, freePagePtr, wp_bind, wp_get, nonzero, Int.not_le.mpr used, ↓reduceIte, wp_modify]
  refine wp_writeLink nonzero ?_
  split <;> simp_all

/-- The pages of an allocator are those that `kma_page.c` has handed out, and they agree on memory and on the
    variables that both have. -/
structure Backed (s : Machine) (w : World) : Prop where
  memory : w.pool.memory = s.memory
  next : w.pool.nextFreePage = s.nextFreePage
  pages : w.handed.Perm s.pages
  requested : w.pool.stats.numRequested = BitVec.ofInt 32 s.numRequested
  freed : w.pool.stats.numFreed = BitVec.ofInt 32 s.numFreed
  inUse : s.numInUse = w.outstanding.length

/-- The same during a call, where the allocator may be ahead with the linking of a new pool. -/
structure Serving (region : Int) (s : Machine) (w : World) : Prop where
  memory : w.pool.serving region = s.memory
  next : w.pool.nextFreePage = s.nextFreePage
  pages : w.handed.Perm s.pages
  requested : w.pool.stats.numRequested = BitVec.ofInt 32 s.numRequested
  freed : w.pool.stats.numFreed = BitVec.ofInt 32 s.numFreed
  inUse : s.numInUse = w.outstanding.length
  supply : ∃ free, Path (link s.memory) (w.pool.head region) free 0 ∧ 0 ∉ free ∧ s.supply = free.map fun p => (p, link s.memory p)

theorem chain_of_path {n : Nat} (path : Path (link m) p free 0) (nonzero : 0 ∉ free) (short : free.length ≤ n) :
    chain m n p = free.map fun p => (p, link m p) := by
  induction free generalizing p n with
  | nil =>
    cases n with
    | zero => rfl
    | succ n => rw [chain, if_pos (show p = 0 from path), List.map_nil]
  | cons page rest ih =>
    obtain ⟨rfl, path⟩ := path
    obtain ⟨head, nonzero⟩ := not_or.mp (List.mem_cons.not.mp nonzero)
    cases n with
    | zero => exact absurd short (by simp)
    | succ n =>
      rw [chain, if_neg (Ne.symm head), List.map_cons, ih path nonzero (Nat.le_of_succ_le_succ short)]

theorem Inv.idle_iff (inv : Inv w) : w.outstanding.length = 0 ↔ w.pool.pool = 0 := by
  rw [List.length_eq_zero_iff]
  exact ⟨inv.dropped, inv.outstanding_of_dropped⟩

/-- The pages `get_page` will hand out, in their order. -/
theorem Inv.offering (inv : Inv w) (fresh : Region region) :
    ∃ free, Path (link (w.pool.serving region)) (w.pool.head region) free 0 ∧ (∀ p ∈ free, Legal p ∧ p ∉ w.handed) ∧
      free.Nodup ∧ free.length + w.outstanding.length = MAXPAGES := by
  obtain ⟨free, path, perm⟩ := inv.partitioned
  obtain ⟨legal, nodup, length⟩ := inv.offers fresh perm
  refine ⟨w.pool.offers region free, ?_, legal, nodup, length⟩
  unfold Pool.serving Pool.head Pool.offers
  split
  · exact fresh.path _
  · exact path

theorem Backed.serves {s : Machine} (backed : Backed s w) (inv : Inv w) (fresh : Region region) :
    Serving region (supplied region s) w ∧ Offered (supplied region s) ∧
      (supplied region s).supply.length + s.pages.length = MAXPAGES := by
  obtain ⟨free, path, legal, nodup, length⟩ := inv.offering fresh
  have nonzero : 0 ∉ free := fun member => (legal 0 member).1.nonzero rfl
  have chained := chain_of_path path nonzero (n := MAXPAGES) (by omega)
  have same : supplied region s =
      { s with memory := w.pool.serving region, supply := free.map fun p => (p, link (w.pool.serving region) p) } := by
    rw [← chained]
    unfold supplied Pool.serving Pool.head
    have inUse := backed.inUse
    have idle := inv.idle_iff
    by_cases dropped : w.pool.pool = 0
    · rw [if_pos (by omega), if_pos dropped, if_pos dropped, backed.memory]
    · rw [if_neg (by omega), if_neg dropped, if_neg dropped, backed.memory, backed.next]
  rw [same]
  refine ⟨⟨rfl, backed.next, backed.pages, backed.requested, backed.freed, backed.inUse, free, path, nonzero, rfl⟩, ⟨?_, ?_, ?_⟩, ?_⟩
  · intro offer member
    obtain ⟨p, inside, rfl⟩ := List.mem_map.mp member
    exact (legal p inside).1
  · intro offer member used
    obtain ⟨p, inside, rfl⟩ := List.mem_map.mp member
    exact (legal p inside).2 (backed.pages.mem_iff.mpr used)
  · change ((free.map _).map Prod.fst).Nodup
    rw [List.map_map]
    simpa [Function.comp_def] using nodup
  · have handed := backed.pages.length_eq
    rw [World.handed, List.length_map] at handed
    change (free.map _).length + _ = _
    rw [List.length_map]
    omega

/-- The page allocator makes a call, or memory changes under it. -/
def Moves (w w' : World) : Prop := ∃ action, Step w action w'

theorem moves_run {start : World} {steps : List (World × Action)} {w' : World} (moves : ReflTransGen Moves w w')
    (run : Run Step start steps w) : ∃ steps', Run Step start steps' w' := by
  induction moves with
  | refl => exact ⟨steps, run⟩
  | tail _ last ih =>
    obtain ⟨steps', run'⟩ := ih
    obtain ⟨action, taken⟩ := last
    exact ⟨_, .snoc run' taken⟩

theorem Inv.moves {w' : World} (inv : Inv w) (moves : ReflTransGen Moves w w') : Inv w' := by
  induction moves with
  | refl => exact inv
  | tail _ last ih =>
    obtain ⟨action, taken⟩ := last
    exact ih.step taken

theorem Backed.client {s : Machine} (backed : Backed s w) (own : ∀ x, m x ≠ s.memory x → baseAddr x ∈ s.pages) :
    Step w (.client m) ⟨{ w.pool with memory := m }, w.outstanding⟩ ∧
      Backed { s with memory := m } ⟨{ w.pool with memory := m }, w.outstanding⟩ := by
  refine ⟨.client fun x hidden => ?_, rfl, backed.next, backed.pages, backed.requested, backed.freed, backed.inUse⟩
  by_contra changed
  exact hidden.2 (backed.pages.mem_iff.mpr (own x (backed.memory ▸ changed)))

theorem Inv.links (inv : Inv w) (kept : ∀ x, w.Private x → m x = w.pool.memory x)
    (path : Path (link w.pool.memory) w.pool.nextFreePage free 0) (nonzero : 0 ∉ free) :
    ∀ p ∈ free, link m p = link w.pool.memory p := by
  obtain ⟨free', path', perm⟩ := inv.partitioned
  have slots : ∀ p ∈ free', p ∈ w.slots := fun p member => perm.mem_iff.mp (List.mem_append_left _ member)
  obtain rfl := path.unique path' nonzero fun member => (inv.slot_of_mem (slots 0 member)).2.1 rfl
  intro p member
  have word := ptr_bounds
  obtain ⟨aligned, _⟩ := inv.slot_of_mem (slots p member)
  apply load_congr
  intro x low high
  have base : baseAddr x = p := by
    unfold baseAddr
    omega
  refine kept x ⟨base ▸ slots p member, fun handed => ?_⟩
  exact List.disjoint_of_nodup_append (perm.nodup_iff.mpr inv.nodup) member (base ▸ handed)

theorem Serving.write {s t : Machine} (serving : Serving region s w) (inv : Inv w) (written : Write L s t) :
    ∃ w', ReflTransGen Moves w w' ∧ Serving region t w' := by
  obtain ⟨memory, next, pages, requested, freed, inUse, free, path, nonzero, supply⟩ := serving
  cases written with
  | @mk m _ _ own =>
    unfold Pool.serving Pool.head at *
    by_cases dropped : w.pool.pool = 0
    · -- No page is in use, so nothing has been written.
      have none : s.pages = [] := by
        have empty := inv.outstanding_of_dropped dropped
        rw [World.handed, empty] at pages
        exact pages.nil_eq.symm
      have same : m = s.memory := by
        funext x
        by_contra changed
        exact absurd (own x changed).1 (none ▸ List.not_mem_nil)
      subst same
      refine ⟨w, .refl, memory, next, pages, requested, freed, inUse, free, path, nonzero, supply⟩
    · rw [if_neg dropped] at memory path
      have kept : ∀ x, w.Private x → m x = w.pool.memory x := by
        intro x hidden
        by_contra changed
        exact hidden.2 (pages.mem_iff.mpr (own x (memory ▸ changed)).1)
      have links := inv.links kept (memory ▸ path) nonzero
      rw [memory] at links
      refine ⟨⟨{ w.pool with memory := m }, w.outstanding⟩, .single ⟨_, .client kept⟩, ?_, next, pages, requested, freed,
        inUse, free, ?_, nonzero, ?_⟩
      · exact if_neg dropped
      · unfold Pool.head
        rw [if_neg dropped]
        exact path.congr links
      · rw [supply]
        exact List.map_congr_left fun p member => by rw [links p member]

theorem Inv.unused (inv : Inv w) (fresh : Region region) :
    w.pool.pool = 0 → Region region ∧ w.pool.nextFreePage = 0 := by
  intro dropped
  obtain ⟨free, path, perm⟩ := inv.partitioned
  rw [World.slots_of_eq dropped, List.perm_nil] at perm
  rw [(List.append_eq_nil_iff.mp perm).1] at path
  exact ⟨fresh, path⟩

theorem Serving.grant {s : Machine} {page next : Int} {rest : List (Int × Int)} (serving : Serving region s w)
    (inv : Inv w)
    (fresh : Region region) (left : s.supply = (page, next) :: rest) :
    ∃ w', ReflTransGen Moves w w' ∧ Serving region (s.grant page next rest) w' := by
  obtain ⟨memory, _, pages, requested, freed, inUse, free, path, nonzero, supply⟩ := serving
  rw [left] at supply
  obtain ⟨free', path', legal, _, length⟩ := inv.offering fresh
  obtain rfl : free' = free := path'.unique (memory ▸ path) (fun member => (legal 0 member).1.nonzero rfl) nonzero
  cases free' with
  | nil => cases supply
  | cons head free =>
    obtain ⟨same, rfl⟩ := List.cons.inj supply
    obtain ⟨rfl, rfl⟩ := Prod.mk.inj same
    obtain ⟨first, path⟩ := path
    rw [List.length_cons] at length
    have got :=
      getPage_memory (E := fun _ => False) (inv.unused fresh) (first ▸ fun zero => nonzero (zero ▸ List.mem_cons_self))
    obtain ⟨record, t, ran, pointer, memory', next', pool, stats⟩ := wp_returns got
    have some : t.pool ≠ 0 := by
      rw [pool]
      split
      · exact fresh.ne_zero
      · assumption
    rw [memory] at memory' next'
    rw [first] at pointer next'
    refine ⟨⟨t, record :: w.outstanding⟩, .single ⟨_, .getPage (by omega) fresh ran⟩, ?_, next', ?_, ?_, ?_, ?_, free, ?_, ?_, rfl⟩
    · exact (if_neg some).trans memory'
    · rw [World.handed, List.map_cons, pointer]
      exact pages.cons _
    · rw [stats, Machine.grant, BitVec.ofInt_add, ← requested]
      rfl
    · rw [stats]
      exact freed
    · rw [Machine.grant, inUse, List.length_cons]
      rfl
    · unfold Pool.head
      rw [if_neg some, next']
      exact path
    · exact fun member => nonzero (List.mem_cons_of_mem _ member)

theorem Serving.grows {s t : Machine} (grows : ReflTransGen (Grow L) s t) (serving : Serving region s w) (inv : Inv w)
    (fresh : Region region) : ∃ w', ReflTransGen Moves w w' ∧ Serving region t w' := by
  induction grows with
  | refl => exact ⟨w, .refl, serving⟩
  | tail _ last ih =>
    obtain ⟨w', moves, serving'⟩ := ih
    have inv' := inv.moves moves
    cases last with
    | write written =>
      obtain ⟨w'', moves', serving''⟩ := serving'.write inv' written
      exact ⟨w'', moves.trans moves', serving''⟩
    | grant left =>
      obtain ⟨w'', moves', serving''⟩ := serving'.grant inv' fresh left
      exact ⟨w'', moves.trans moves', serving''⟩

theorem Serving.backed {s : Machine} (serving : Serving region s w) : ∃ w', ReflTransGen Moves w w' ∧ Backed s w' := by
  obtain ⟨memory, next, pages, requested, freed, inUse, _⟩ := serving
  unfold Pool.serving at memory
  by_cases dropped : w.pool.pool = 0
  · refine ⟨⟨{ w.pool with memory := s.memory }, w.outstanding⟩, .single ⟨_, .client fun x hidden => ?_⟩, rfl, next, pages,
      requested, freed, inUse⟩
    have slot := hidden.1
    rw [World.slots_of_eq dropped] at slot
    cases slot
  · exact ⟨w, .refl, (if_neg dropped).symm.trans memory, next, pages, requested, freed, inUse⟩

theorem Backed.shrinks {s t : Machine} (shrinks : ReflTransGen (Shrink L) s t) (backed : Backed s w) (inv : Inv w) :
    ∃ w', ReflTransGen Moves w w' ∧ Backed t w' := by
  induction shrinks with
  | refl => exact ⟨w, .refl, backed⟩
  | @tail u t _ last ih =>
    obtain ⟨w', moves, backed⟩ := ih
    have inv' := inv.moves moves
    cases last with
    | write written =>
      cases written with
      | mk own =>
        obtain ⟨taken, backed'⟩ := backed.client fun x changed => (own x changed).1
        exact ⟨_, moves.tail ⟨_, taken⟩, backed'.memory, backed'.next, backed'.pages, backed'.requested, backed'.freed,
          backed'.inUse⟩
    | @reclaim page used aligned unprotected =>
      obtain ⟨record, held, rfl⟩ := List.mem_map.mp (backed.pages.mem_iff.mpr used)
      obtain ⟨_, _, perm⟩ := inv'.partitioned
      obtain ⟨_, nonzero, _⟩ := inv'.slot_of_mem (perm.mem_iff.mp (List.mem_append_right _ (List.mem_map_of_mem held)))
      have some := List.length_pos_of_mem held
      have back := freePage_memory (E := fun _ => False) nonzero (by rw [inv'.counted.inUse]; omega)
      obtain ⟨_, t, ran, memory, next, stats⟩ := wp_returns back
      have last : w'.pool.stats.numInUse - 1 = 0 ↔ u.numInUse - 1 = 0 := by
        have one := inv'.numInUse_eq_iff (n := 1) (by decide)
        have inUse := backed.inUse
        rw [show w'.pool.stats.numInUse - 1 = 0 ↔ w'.pool.stats.numInUse = 1 from by bv_omega]
        rw [show (1 : BitVec 32) = BitVec.ofNat 32 1 from rfl, one]
        omega
      refine ⟨⟨t, w'.outstanding.erase record⟩, moves.tail ⟨_, .freePage held ran⟩, ?_, ?_, ?_, ?_, ?_, ?_⟩
      · rw [memory, backed.memory, backed.next]
      · rw [next]
        simp only [last]
        rfl
      · have split := (List.perm_cons_erase held).map Page.ptr
        have first := List.perm_cons_erase used
        exact (List.perm_cons _).mp ((split.symm.trans backed.pages).trans first)
      · rw [stats]
        exact backed.requested
      · rw [stats, Machine.reclaim, BitVec.ofInt_add, ← backed.freed]
        rfl
      · change u.numInUse - 1 = (w'.outstanding.erase record).length
        rw [List.length_erase_of_mem held, backed.inUse]
        omega

end Eecs343.Kma.PagePool
