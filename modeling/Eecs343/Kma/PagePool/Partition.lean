import Eecs343.Base.Transition
import Eecs343.Kma.PagePool.Chain

namespace Eecs343.Kma.PagePool

open Bytes Effect Linked Transition

variable [Target]

/-- The page allocator and the pages it has handed out and not got back. -/
structure World where
  pool : Pool
  outstanding : List Page

def World.handed (w : World) : List Int := w.outstanding.map Page.ptr

def World.slots (w : World) : List Int := if w.pool.pool = 0 then [] else PagePool.slots w.pool.pool

def World.Private (w : World) (x : Int) : Prop := baseAddr x ∈ w.slots ∧ baseAddr x ∉ w.handed

structure World.Initial (w : World) : Prop where
  pool : w.pool.pool = 0
  nextFreePage : w.pool.nextFreePage = 0
  stats : w.pool.stats = ⟨0, 0, 0, 8192⟩
  outstanding : w.outstanding = []

/-- `region` is where `posix_memalign` puts a pool; `client` is anything that happens to memory
    between two calls, to the pages handed out in particular. -/
inductive Action where
  | getPage (region : Int)
  | freePage (page : Page)
  | client (memory : Memory)

/-- One action. A page is requested while fewer than `MAXPAGES` are in use, and a page is freed
    while it is in use. -/
inductive Step : World → Action → World → Prop where
  | getPage {w region page t} (room : w.outstanding.length < MAXPAGES) (fresh : Region region)
    (ran : (getPage (some region)).run w.pool = .ok (page, t)) : Step w (.getPage region) ⟨t, page :: w.outstanding⟩
  | freePage {w page t} (held : page ∈ w.outstanding) (ran : (freePage page).run w.pool = .ok ((), t)) :
    Step w (.freePage page) ⟨t, w.outstanding.erase page⟩
  | client {w memory} (kept : ∀ x, w.Private x → memory x = w.pool.memory x) :
    Step w (.client memory) ⟨{ w.pool with memory := memory }, w.outstanding⟩

/-- The chain from `next_free_page` and the pages handed out are the slots of the pool, each once. -/
def World.Partitioned (w : World) : Prop :=
  ∃ free, Path (link w.pool.memory) w.pool.nextFreePage free 0 ∧ (free ++ w.handed).Perm w.slots

structure World.Counted (w : World) : Prop where
  inUse : w.pool.stats.numInUse.toInt = w.outstanding.length
  requested : w.pool.stats.numInUse = w.pool.stats.numRequested - w.pool.stats.numFreed

/-- What holds between two calls. -/
structure Inv (w : World) : Prop where
  region : w.pool.pool ≠ 0 → Region w.pool.pool
  partitioned : w.Partitioned
  counted : w.Counted
  few : w.outstanding.length ≤ MAXPAGES
  dropped : w.outstanding = [] → w.pool.pool = 0

theorem Inv.initial {w : World} (initial : w.Initial) : Inv w := by
  refine ⟨fun used => absurd initial.pool used, ⟨[], initial.nextFreePage, ?_⟩, ⟨?_, ?_⟩, ?_, fun _ => initial.pool⟩
  · simp [World.handed, World.slots, initial.pool, initial.outstanding]
  · simp [initial.stats, initial.outstanding]
  · simp [initial.stats]
  · simp [initial.outstanding]

variable {w : World} {free : List Int}

theorem World.slots_of_ne {w : World} (used : w.pool.pool ≠ 0) : w.slots = PagePool.slots w.pool.pool := if_neg used

theorem World.slots_of_eq {w : World} (dropped : w.pool.pool = 0) : w.slots = [] := if_pos dropped

theorem Inv.slot_of_mem (inv : Inv w) {p : Int} (member : p ∈ w.slots) : p % 8192 = 0 ∧ p ≠ 0 ∧ Fits ptr p := by
  by_cases dropped : w.pool.pool = 0
  · rw [World.slots_of_eq dropped] at member
    cases member
  · have region := inv.region dropped
    rw [World.slots_of_ne dropped, mem_slots] at member
    obtain ⟨i, bound, rfl⟩ := member
    exact ⟨region.slot_aligned i, region.slot_ne_zero bound, pointer_fits _⟩

theorem Inv.nodup (inv : Inv w) : w.slots.Nodup := by
  by_cases dropped : w.pool.pool = 0
  · rw [World.slots_of_eq dropped]
    exact List.nodup_nil
  · rw [World.slots_of_ne dropped]
    exact (inv.region dropped).slots_nodup

theorem Inv.ready (inv : Inv w) (room : w.outstanding.length < MAXPAGES) {start : Int} (region : Region start)
    (path : Path (link w.pool.memory) w.pool.nextFreePage free 0) (perm : (free ++ w.handed).Perm w.slots) :
    Ready w.pool start free := by
  refine ⟨path, fun dropped => ⟨region, ?_⟩, fun used => ⟨?_, ?_⟩⟩
  · rw [World.slots_of_eq dropped, List.perm_nil] at perm
    rw [(List.append_eq_nil_iff.mp perm).1] at path
    exact path
  · intro empty
    have length := perm.length_eq
    simp only [empty, World.slots_of_ne used, slots, World.handed, List.nil_append, List.length_map, List.length_range'] at length
    omega
  · intro member
    exact (inv.slot_of_mem (perm.mem_iff.mp (List.mem_append_left _ member))).2.1 rfl

theorem Inv.outstanding_of_dropped (inv : Inv w) (dropped : w.pool.pool = 0) : w.outstanding = [] := by
  obtain ⟨free, -, perm⟩ := inv.partitioned
  rw [World.slots_of_eq dropped, List.perm_nil] at perm
  simpa [World.handed] using (List.append_eq_nil_iff.mp perm).2

omit [Target] in
theorem toInt_count {n : Nat} (few : n ≤ MAXPAGES) : (BitVec.ofNat 32 n).toInt = n := by
  have pages := maxPages
  rw [BitVec.toInt_ofNat']
  exact Int.bmod_eq_of_le (by omega) (by omega)

theorem Inv.numInUse (inv : Inv w) : w.pool.stats.numInUse = BitVec.ofNat 32 w.outstanding.length :=
  BitVec.eq_of_toInt_eq (inv.counted.inUse.trans (toInt_count inv.few).symm)

theorem Inv.numInUse_eq_iff (inv : Inv w) {n : Nat} (few : n ≤ MAXPAGES) :
    w.pool.stats.numInUse = BitVec.ofNat 32 n ↔ w.outstanding.length = n := by
  rw [inv.numInUse]
  constructor
  · intro same
    have number := congrArg BitVec.toInt same
    rw [toInt_count inv.few, toInt_count few] at number
    exact_mod_cast number
  · exact fun same => same ▸ rfl

/-- What `get_page` does while no page is out: it hands out the first page of a new pool and leaves
    all its other pages on the chain. -/
def World.FromFullPool (w : World) (region : Int) : Prop :=
  w.pool.pool = region ∧ ∃ page rest, w.outstanding = [page] ∧ Path (link w.pool.memory) w.pool.nextFreePage rest 0 ∧
    page.ptr :: rest = PagePool.slots region

theorem Inv.getPage (inv : Inv w) (room : w.outstanding.length < MAXPAGES) {region : Int} (fresh : Region region)
    {page : Page} {t : Pool} (ran : (getPage (some region)).run w.pool = .ok (page, t)) :
    Inv ⟨t, page :: w.outstanding⟩ ∧ (w.pool.stats.numInUse = 0 → World.FromFullPool ⟨t, page :: w.outstanding⟩ region) := by
  obtain ⟨free, path, perm⟩ := inv.partitioned
  obtain ⟨⟨⟨rest, left, same⟩, -, pool⟩, stats⟩ :=
    wp_of_run ran (getPage_spec (E := fun _ => True) (inv.ready room fresh path perm))
  have numInUse := inv.numInUse
  have pages := maxPages
  have moved : (rest ++ page.ptr :: w.handed).Perm (w.pool.offers region free ++ w.handed) := by
    rw [← same]
    exact List.perm_middle
  refine ⟨⟨?_, ⟨rest, left, ?_⟩, ⟨?_, ?_⟩, ?_, ?_⟩, ?_⟩
  · intro _
    change Region t.pool
    rw [pool]
    split
    · exact fresh
    · exact inv.region ‹_›
  · apply moved.trans
    by_cases dropped : w.pool.pool = 0
    · rw [if_pos dropped] at pool
      have used : t.pool ≠ 0 := pool ▸ fresh.ne_zero
      rw [World.slots_of_ne (w := ⟨t, _⟩) used, Pool.offers, if_pos dropped, World.handed,
        inv.outstanding_of_dropped dropped, pool]
      simp
    · rw [if_neg dropped] at pool
      have used : t.pool ≠ 0 := pool ▸ dropped
      rw [World.slots_of_ne (w := ⟨t, _⟩) used, Pool.offers, if_neg dropped, pool, ← World.slots_of_ne dropped]
      exact perm
  · change t.stats.numInUse.toInt = _
    rw [stats, numInUse]
    change (BitVec.ofNat 32 w.outstanding.length + BitVec.ofNat 32 1).toInt = _
    rw [← BitVec.ofNat_add]
    exact toInt_count room
  · change t.stats.numInUse = t.stats.numRequested - t.stats.numFreed
    have requested := inv.counted.requested
    rw [stats]
    bv_omega
  · exact room
  · intro empty
    cases empty
  · intro none
    have empty := List.eq_nil_of_length_eq_zero ((inv.numInUse_eq_iff (Nat.zero_le _)).mp none)
    have dropped := inv.dropped empty
    rw [if_pos dropped] at pool
    refine ⟨pool, page, rest, by rw [empty], left, ?_⟩
    rw [same, Pool.offers, if_pos dropped]

theorem Inv.freeable (inv : Inv w) {page : Page} (held : page ∈ w.outstanding) {free : List Int}
    (path : Path (link w.pool.memory) w.pool.nextFreePage free 0) (perm : (free ++ w.handed).Perm w.slots) :
    page.ptr % 8192 = 0 ∧ page.ptr ≠ 0 ∧ Fits ptr w.pool.nextFreePage ∧ ∀ p ∈ free, p % 8192 = 0 ∧ page.ptr ≠ p := by
  have handed : page.ptr ∈ w.handed := List.mem_map_of_mem held
  obtain ⟨aligned, nonzero, -⟩ := inv.slot_of_mem (perm.mem_iff.mp (List.mem_append_right _ handed))
  refine ⟨aligned, nonzero, ?_, ?_⟩
  · rw [path.start]
    cases free with
    | nil => exact fits_zero _
    | cons p rest => exact (inv.slot_of_mem (perm.mem_iff.mp (List.mem_append_left _ List.mem_cons_self))).2.2
  · intro p member
    have distinct := List.disjoint_of_nodup_append (perm.nodup_iff.mpr inv.nodup)
    refine ⟨(inv.slot_of_mem (perm.mem_iff.mp (List.mem_append_left _ member))).1, ?_⟩
    intro same
    exact distinct member (same ▸ handed)

theorem Inv.free_spec (inv : Inv w) {page : Page} (held : page ∈ w.outstanding) {free : List Int}
    (path : Path (link w.pool.memory) w.pool.nextFreePage free 0) (perm : (free ++ w.handed).Perm w.slots) {E : Failure → Prop} :
    wp (freePage page) (fun _ t => PutBack w.pool t free page.ptr ∧ t.stats =
      { w.pool.stats with numFreed := w.pool.stats.numFreed + 1, numInUse := w.pool.stats.numInUse - 1 }) E w.pool := by
  obtain ⟨aligned, nonzero, fits, others⟩ := inv.freeable held path perm
  have some := List.length_pos_of_mem held
  exact freePage_spec nonzero (by rw [inv.counted.inUse]; omega) fits path aligned others

theorem Inv.freePage (inv : Inv w) {page : Page} (held : page ∈ w.outstanding) {t : Pool}
    (ran : (freePage page).run w.pool = .ok ((), t)) : Inv ⟨t, w.outstanding.erase page⟩ := by
  obtain ⟨free, path, perm⟩ := inv.partitioned
  obtain ⟨back, stats⟩ := wp_of_run ran (inv.free_spec (E := fun _ => True) held path perm)
  have numInUse := inv.numInUse
  have length := List.length_erase_of_mem held
  have some := List.length_pos_of_mem held
  have few := inv.few
  have counted : World.Counted ⟨t, w.outstanding.erase page⟩ := by
    constructor
    · change t.stats.numInUse.toInt = (w.outstanding.erase page).length
      obtain ⟨n, one_more⟩ : ∃ n, w.outstanding.length = n + 1 := ⟨w.outstanding.length - 1, by omega⟩
      rw [stats, numInUse, one_more, length, one_more, BitVec.ofNat_add]
      change (BitVec.ofNat 32 n + 1 - 1).toInt = n
      rw [BitVec.add_sub_cancel]
      exact toInt_count (by omega)
    · change t.stats.numInUse = t.stats.numRequested - t.stats.numFreed
      have requested := inv.counted.requested
      rw [stats]
      bv_omega
  have split := (List.perm_cons_erase held).map Page.ptr
  by_cases one : w.outstanding.length = 1
  · obtain ⟨pool, next⟩ := back.dropped ((inv.numInUse_eq_iff (by decide)).mpr one)
    have empty : w.outstanding.erase page = [] := List.eq_nil_of_length_eq_zero (by omega)
    rw [empty] at counted ⊢
    refine ⟨fun used => absurd pool used, ⟨[], next, ?_⟩, counted, Nat.zero_le _, fun _ => pool⟩
    rw [World.slots_of_eq (w := ⟨t, []⟩) pool]
    exact .refl _
  · obtain ⟨pool, chain⟩ := back.chain fun last => one ((inv.numInUse_eq_iff (by decide)).mp last)
    have used : w.pool.pool ≠ 0 := by
      intro dropped
      rw [inv.outstanding_of_dropped dropped] at held
      cases held
    refine ⟨fun _ => pool ▸ inv.region used, ⟨page.ptr :: free, chain, ?_⟩, counted, ?_, ?_⟩
    · rw [World.slots_of_ne (w := ⟨t, _⟩) (pool ▸ used), pool, ← World.slots_of_ne used]
      apply List.Perm.trans _ perm
      exact List.perm_middle.symm.trans (split.symm.append_left free)
    · change (w.outstanding.erase page).length ≤ _
      omega
    · intro empty
      have none : (w.outstanding.erase page).length = 0 := by rw [show w.outstanding.erase page = [] from empty]; rfl
      omega

theorem Inv.client (inv : Inv w) {memory : Memory} (kept : ∀ x, w.Private x → memory x = w.pool.memory x) :
    Inv ⟨{ w.pool with memory := memory }, w.outstanding⟩ := by
  obtain ⟨free, path, perm⟩ := inv.partitioned
  refine ⟨inv.region, ⟨free, path.congr ?_, perm⟩, ⟨inv.counted.inUse, inv.counted.requested⟩, inv.few, inv.dropped⟩
  intro p member
  have word := ptr_bounds
  obtain ⟨aligned, -, -⟩ := inv.slot_of_mem (perm.mem_iff.mp (List.mem_append_left _ member))
  apply load_congr
  intro x low high
  have base : baseAddr x = p := by
    unfold baseAddr
    omega
  apply kept
  refine ⟨base ▸ perm.mem_iff.mp (List.mem_append_left _ member), ?_⟩
  intro handed
  exact List.disjoint_of_nodup_append (perm.nodup_iff.mpr inv.nodup) member (base ▸ handed)

theorem Inv.step {next : World} {action : Action} (inv : Inv w) (taken : Step w action next) : Inv next := by
  cases taken with
  | getPage room fresh ran => exact (inv.getPage room fresh ran).1
  | freePage held ran => exact inv.freePage held ran
  | client kept => exact inv.client kept

theorem Inv.serves (inv : Inv w) :
    (w.outstanding.length < MAXPAGES →
      ∀ region, Region region → ∃ page t, (PagePool.getPage (some region)).run w.pool = .ok (page, t)) ∧
    ∀ page ∈ w.outstanding, ∃ t, (PagePool.freePage page).run w.pool = .ok ((), t) := by
  obtain ⟨free, path, perm⟩ := inv.partitioned
  constructor
  · intro room region fresh
    obtain ⟨page, t, ran, -⟩ := wp_returns (getPage_spec (inv.ready room fresh path perm))
    exact ⟨page, t, ran⟩
  · intro page held
    obtain ⟨_, t, ran, -⟩ := wp_returns (inv.free_spec held path perm)
    exact ⟨t, ran⟩

theorem legal_of_fits {p : Int} (aligned : p % 8192 = 0) (nonzero : p ≠ 0) (fits : Fits ptr p) : Legal p := by
  obtain ⟨low, high⟩ := fits
  refine ⟨aligned, nonzero, low, ?_⟩
  rcases space with h | h <;> rw [h] at high ⊢ <;> omega

theorem Inv.offers (inv : Inv w) {region : Int} (fresh : Region region) (perm : (free ++ w.handed).Perm w.slots) :
    (∀ p ∈ w.pool.offers region free, Legal p ∧ p ∉ w.handed) ∧ (w.pool.offers region free).Nodup ∧
      (w.pool.offers region free).length + w.outstanding.length = MAXPAGES := by
  by_cases dropped : w.pool.pool = 0
  · rw [Pool.offers, if_pos dropped, World.handed, inv.outstanding_of_dropped dropped]
    refine ⟨?_, fresh.slots_nodup, by simp [PagePool.slots]⟩
    intro p member
    obtain ⟨i, bound, rfl⟩ := mem_slots.mp member
    exact ⟨legal_of_fits (fresh.slot_aligned i) (fresh.slot_ne_zero bound) (pointer_fits _), List.not_mem_nil⟩
  · have nodup := perm.nodup_iff.mpr inv.nodup
    have length := perm.length_eq
    rw [World.slots_of_ne dropped, List.length_append, World.handed, List.length_map, PagePool.slots, List.length_map,
      List.length_range'] at length
    rw [Pool.offers, if_neg dropped]
    refine ⟨?_, (List.nodup_append.mp nodup).1, length⟩
    intro p member
    obtain ⟨aligned, nonzero, fits⟩ := inv.slot_of_mem (perm.mem_iff.mp (List.mem_append_left _ member))
    exact ⟨legal_of_fits aligned nonzero fits, List.disjoint_of_nodup_append nodup member⟩

/-- What is promised of every state between two calls. -/
structure World.Sound (w : World) : Prop where
  handed : ∀ p ∈ w.handed, p ∈ w.slots ∧ p % 8192 = 0
  distinct : w.handed.Nodup
  partitioned : w.Partitioned
  slots : w.slots.Nodup ∧ (w.outstanding ≠ [] → w.slots.length = MAXPAGES)
  counted : w.Counted
  dropped : w.pool.stats.numInUse = 0 → w.pool.pool = 0 ∧ w.pool.nextFreePage = 0
  gets : w.outstanding.length < MAXPAGES →
    ∀ region, Region region → ∃ page t, (PagePool.getPage (some region)).run w.pool = .ok (page, t)
  frees : ∀ page ∈ w.outstanding, ∃ t, (PagePool.freePage page).run w.pool = .ok ((), t)

theorem Inv.sound (inv : Inv w) : w.Sound := by
  obtain ⟨free, path, perm⟩ := inv.partitioned
  have nodup := perm.nodup_iff.mpr inv.nodup
  refine ⟨?_, (List.nodup_append.mp nodup).2.1, inv.partitioned, ⟨inv.nodup, ?_⟩, inv.counted, ?_, inv.serves.1, inv.serves.2⟩
  · intro p handed
    have member := perm.mem_iff.mp (List.mem_append_right _ handed)
    exact ⟨member, (inv.slot_of_mem member).1⟩
  · intro some
    rw [World.slots_of_ne fun dropped => some (inv.outstanding_of_dropped dropped)]
    simp [PagePool.slots]
  · intro none
    have pool := inv.dropped (List.eq_nil_of_length_eq_zero ((inv.numInUse_eq_iff (Nat.zero_le _)).mp none))
    rw [World.slots_of_eq pool, List.perm_nil] at perm
    rw [(List.append_eq_nil_iff.mp perm).1] at path
    exact ⟨pool, path⟩

/-- In every state of every run the chain and the pages handed out partition the pool, and the
    first request after the last page has come back is served from a full new pool. -/
theorem page_pool {start last : World} {steps : List (World × Action)} (initial : start.Initial)
    (run : Run Step start steps last) :
    (∀ w ∈ visited steps last, w.Sound) ∧
    ∀ taken ∈ transitions steps last, ∀ region, taken.2.1 = .getPage region → taken.1.pool.stats.numInUse = 0 →
      taken.2.2.FromFullPool region := by
  constructor
  · intro w visited
    refine (run.invariant_visited (fun _ _ => True) Inv (Inv.initial initial) ?_ (fun _ _ => trivial) w visited).sound
    exact fun _ _ _ inv _ taken => inv.step taken
  · refine run.always Inv
      (fun w action next => ∀ region, action = .getPage region → w.pool.stats.numInUse = 0 → next.FromFullPool region)
      (Inv.initial initial) ?_
    intro w action next inv taken
    refine ⟨inv.step taken, ?_⟩
    intro region get none
    cases taken with
    | getPage room fresh ran =>
      cases get
      exact (inv.getPage room fresh ran).2 none
    | freePage held ran => cases get
    | client kept => cases get

def fresh : World := ⟨⟨fun _ => 0, ⟨0, 0, 0, 8192⟩, 0, 0, 0⟩, []⟩

omit [Target] in
theorem fresh_initial : fresh.Initial := ⟨rfl, rfl, rfl, rfl⟩

theorem region_8192 : Region 8192 := by
  rcases space with h | h
  all_goals exact ⟨by simp [Fits, h], rfl, by simp [h], by simp [h, MAXPAGES]⟩

omit [Target] in
/-- The first page comes back while the second is in use, then the second, and the next one is from a new pool. -/
theorem page_pool_two_pages : ∃ target : Target, target.ptr = 8 ∧ ∃ p₁ p₂ p₃ w₁ w₂ w₃ w₄ w₅,
    Run Step fresh [(w₄, .getPage 8192), (w₃, .freePage p₂), (w₂, .freePage p₁), (w₁, .getPage 8192), (fresh, .getPage 8192)] w₅ ∧
      w₂.outstanding = [p₂, p₁] ∧ w₃.outstanding = [p₂] ∧ w₃.Sound ∧ w₄.pool.pool = 0 ∧ w₅.outstanding = [p₃] ∧
      w₅.FromFullPool 8192 := by
  let target : Target := ⟨8, .inr rfl⟩
  have inv := Inv.initial fresh_initial
  obtain ⟨p₁, t₁, ran₁⟩ := inv.serves.1 (by decide) 8192 region_8192
  have step₁ : Step fresh (.getPage 8192) ⟨t₁, [p₁]⟩ := .getPage (by decide) region_8192 ran₁
  have inv₁ := inv.step step₁
  obtain ⟨p₂, t₂, ran₂⟩ := inv₁.serves.1 (show 1 < MAXPAGES by decide) 8192 region_8192
  have step₂ : Step ⟨t₁, [p₁]⟩ (.getPage 8192) ⟨t₂, [p₂, p₁]⟩ := .getPage (show 1 < MAXPAGES by decide) region_8192 ran₂
  have inv₂ := inv₁.step step₂
  have held : p₁ ∈ [p₂, p₁] := List.mem_cons_of_mem _ List.mem_cons_self
  obtain ⟨t₃, ran₃⟩ := inv₂.serves.2 p₁ held
  have step₃ : Step ⟨t₂, [p₂, p₁]⟩ (.freePage p₁) _ := .freePage held ran₃
  have left : [p₂, p₁].erase p₁ = [p₂] := by
    rw [List.erase_cons]
    split
    · rename_i same
      rw [eq_of_beq same]
    · rw [List.erase_cons_head]
  rw [left] at step₃
  have inv₃ := inv₂.step step₃
  obtain ⟨t₄, ran₄⟩ := inv₃.serves.2 p₂ List.mem_cons_self
  have step₄ : Step ⟨t₃, [p₂]⟩ (.freePage p₂) _ := .freePage List.mem_cons_self ran₄
  rw [List.erase_cons_head] at step₄
  have inv₄ := inv₃.step step₄
  obtain ⟨p₃, t₅, ran₅⟩ := inv₄.serves.1 (show 0 < MAXPAGES by decide) 8192 region_8192
  have step₅ : Step ⟨t₄, []⟩ (.getPage 8192) ⟨t₅, [p₃]⟩ := .getPage (show 0 < MAXPAGES by decide) region_8192 ran₅
  obtain ⟨sound, full⟩ := page_pool fresh_initial (.snoc (.snoc (.snoc (.snoc (.snoc .refl step₁) step₂) step₃) step₄) step₅)
  have none := (inv₄.numInUse_eq_iff (Nat.zero_le _)).mpr rfl
  exact ⟨target, rfl, p₁, p₂, p₃, _, _, _, _, _, .snoc (.snoc (.snoc (.snoc (.snoc .refl step₁) step₂) step₃) step₄) step₅,
    rfl, rfl, sound _ (by simp [visited]), inv₄.dropped rfl, rfl, full _ List.mem_cons_self 8192 rfl none⟩

end Eecs343.Kma.PagePool
