import Eecs343.Kma.Buddy.Progress
import Eecs343.Kma.ResourceMap.ExactTiling

namespace Eecs343.Kma

open Bytes Effect Transition

variable [Target]

/-- The allocator's variables and memory, and the page pool's counters, are the same. -/
structure Same (s t : Machine) : Prop where
  memory : t.memory = s.memory
  firstPage : t.firstPage = s.firstPage
  nextFreePage : t.nextFreePage = s.nextFreePage
  requested : t.numRequested = s.numRequested
  freed : t.numFreed = s.numFreed
  inUse : t.numInUse = s.numInUse
  pages : t.pages = s.pages

/-- `kma_malloc` returns NULL for a size, and leaves `t`. A `kma_size_t` is an `int`. -/
structure Refused (A : Allocator) (w : World) (size : Int) (supply : List (Int × Int)) (t : Machine) : Prop where
  low : -2 ^ 31 ≤ size
  high : size < 2 ^ 31
  offered : Offered { w.machine with supply := supply }
  ran : (A.malloc size).run { w.machine with supply := supply } = .ok (0, t)

variable {s t : Machine} {w start last start' last' : World} {steps steps' : List (World × Call)}
  {supply : List (Int × Int)} {size : Int}

namespace Buddy

variable {ps : List Page}

theorem roundUp_emod (x : Int) : roundUp (x % 256 ^ ptr) = roundUp x := by
  have divides : ((2 ^ 32 : Nat) : Int) ∣ 256 ^ ptr := by
    rcases Target.ptr_cases with h | h <;> rw [h] <;> norm_num
  have same : BitVec.ofInt 32 (x % 256 ^ ptr) = BitVec.ofInt 32 x := by
    apply BitVec.eq_of_toNat_eq
    rw [BitVec.toNat_ofInt, BitVec.toNat_ofInt, Int.emod_emod_of_dvd _ divides]
  unfold roundUp
  rw [same]

omit [Target] in
theorem roundUp_negative {x : Int} (low : -168 ≤ x) (high : x ≤ 0) : roundUp x = 32 := by
  have all : ∀ k < 169, roundUp (-(k : Nat)) = 32 := by decide +kernel
  have negated : x = -(x.natAbs : Nat) := by omega
  rw [negated]
  exact all _ (by omega)

theorem roundUp_realSize_low (low : -24 * ptr ≤ size) (high : size ≤ 0) :
    roundUp (realSize size) = roundUp (realSize 1) := by
  have bounds := ptr_bounds
  have small : roundUp (realSize 1) = 32 := by
    rw [realSize_eq (by decide) (by decide)]
    exact roundUp_small (by omega) (by omega)
  rw [small, realSize, roundUp_emod, sizeofAllocheader]
  by_cases positive : 1 ≤ size + 3 * ptr
  · exact roundUp_small positive (by omega)
  · exact roundUp_negative (by omega) (by omega)

theorem accepts_low (low : -2 ^ 31 ≤ size) (high : size ≤ 0) :
    (realSize size + sizeofPageheader) % 256 ^ ptr > 8192 ↔ size < -24 * ptr := by
  unfold realSize sizeofAllocheader sizeofPageheader
  rw [Int.emod_add_emod]
  rcases Target.ptr_cases with h | h <;> rw [h] <;> norm_num <;> omega

theorem getFreeBuffer_congr {size' : Int} (same : roundUp (realSize size) = roundUp (realSize size')) (n : Nat) :
    getFreeBufferDepth n size = getFreeBufferDepth n size' := by
  induction n with
  | zero => rfl
  | succ n ih =>
    unfold getFreeBufferDepth
    rw [same, ih]

/-- A size that is not positive gets what a size of 1 gets, where it is not refused. -/
theorem kmaMalloc_low (low : -24 * ptr ≤ size) (high : size ≤ 0) : kmaMalloc size = kmaMalloc 1 := by
  have bounds := ptr_bounds
  have accepted : ¬ (realSize size + sizeofPageheader) % 256 ^ ptr > 8192 := by
    rw [accepts_low (by omega) high]
    omega
  have accepted' : ¬ (realSize 1 + sizeofPageheader) % 256 ^ ptr > 8192 := by
    rw [accepts_iff (by decide) (by decide)]
    omega
  unfold kmaMalloc
  rw [← fuel_pred 1 (by decide)]
  unfold kmaMallocDepth
  rw [if_neg accepted, if_neg accepted', getFreeBuffer, getFreeBuffer, getFreeBuffer_congr (roundUp_realSize_low low high)]

theorem kmaMalloc_rejects (excess : (realSize size + sizeofPageheader) % 256 ^ ptr > 8192) :
    (kmaMalloc size).run s = .ok (0, s) := by
  unfold kmaMalloc
  rw [← fuel_pred 1 (by decide)]
  unfold kmaMallocDepth
  rw [if_pos excess]
  rfl

theorem rejects (offered : Offered { w.machine with supply := supply }) (low : 1 ≤ size) (high : size < 2 ^ 31)
    (excess : 8192 < size + 24 * ptr) : Refused buddyAllocator w size supply { w.machine with supply := supply } :=
  ⟨by omega, high, offered, kmaMalloc_rejects ((accepts_iff low high).mpr excess)⟩

/-- `kma_bud` looks at the size before anything else. -/
theorem Inv.refused (inv : Inv w ps) (refused : Refused buddyAllocator w size supply t) :
    t = { w.machine with supply := supply } := by
  obtain ⟨s, live⟩ := w
  have bounds := ptr_bounds
  have positive : ∀ n, 1 ≤ n → n < 2 ^ 31 → (kmaMalloc n).run { s with supply := supply } = .ok (0, t) →
      t = { s with supply := supply } := by
    intro n low high ran
    rcases wp_of_run ran (inv.malloc low high refused.offered) with ⟨_, _, same⟩ | ⟨_, some, _⟩
    · exact same
    · exact absurd rfl some
  by_cases above : 1 ≤ size
  · exact positive size above refused.high refused.ran
  · by_cases served : -24 * ptr ≤ size
    · exact positive 1 (by decide) (by decide) (kmaMalloc_low served (by omega) ▸ refused.ran)
    · have excess := (accepts_low refused.low (by omega)).mpr (by omega)
      exact (Prod.mk.inj (Except.ok.inj (refused.ran.symm.trans (kmaMalloc_rejects excess)))).2

end Buddy

namespace ResourceMap

theorem newPage_block (n : Int) (offered : Offered s) : wp (newPage n) (fun b _ => b ≠ 0) (fun _ => True) s := by
  have bounds := ptr_bounds
  unfold newPage
  rw [wp_bind]
  refine wp_getPage (fun _ => trivial) fun page next rest left => ?_
  have legal : Legal page := offered.legal (page, next) (by simp [left])
  rw [wp_bind]
  refine wp_anywhere fun _ _ => ?_
  rw [wp_bind]
  refine wp_anywhere fun _ _ => ?_
  rw [wp_bind]
  refine wp_anywhere fun _ _ => ?_
  rw [wp_bind]
  exact wp_anywhere fun _ _ => legal.ne_zero (by omega) (by omega)

theorem updateMallocHeaders_block {current : Int} (n previous : Int) (some : current ≠ 0) :
    wp (do updateMallocHeaders n current previous; return current) (fun b _ => b ≠ 0) (fun _ => True) s := by
  rw [wp_bind]
  exact wp_anywhere fun _ _ => some

/-- The search returns a free block it has come to, or one on a new page: never NULL. -/
theorem searchFit_block (k : Nat) (n current previous : Int) (offered : Offered s) :
    wp (searchFit k n current previous) (fun b _ => b ≠ 0) (fun _ => True) s := by
  induction k generalizing current previous with
  | zero => exact trivial
  | succ k ih =>
    unfold searchFit
    by_cases some : current = 0
    · rw [if_pos some]
      exact newPage_block n offered
    · rw [if_neg some, wp_bind]
      refine wp_read some ?_
      have skipped : wp (do searchFit k n (← readPtr current ptr) current) (fun b _ => b ≠ 0) (fun _ => True) s := by
        rw [wp_bind]
        exact wp_read some (ih _ _)
      generalize load s.memory 2 (current + 0) = blockSize
      split_ifs
      · exact skipped
      · exact updateMallocHeaders_block n previous some
      · exact skipped

theorem findFirstFit_block (n : Int) (offered : Offered s) (some : s.firstPage ≠ 0) :
    wp (findFirstFit n) (fun b _ => b ≠ 0) (fun _ => True) s := by
  unfold findFirstFit firstPageBlock
  rw [wp_bind, wp_bind, wp_get]
  exact wp_read some (searchFit_block fuel n _ 0 offered)

/-- With a first page only the size is looked at, and NULL is returned before anything is written. -/
theorem kmaMalloc_refuses (some : s.firstPage ≠ 0) (offered : Offered s) :
    wp (kmaMalloc size) (fun b t => b = 0 → t = s) (fun _ => True) s := by
  apply kmaMalloc_started some
  split_ifs with large
  · exact fun _ => rfl
  · exact wp_mono (findFirstFit_block (short size) offered some) fun b t block null => absurd null block

/-- Without one, the first page is made before the size is looked at. -/
theorem kmaMalloc_begins (none : s.firstPage = 0) (offered : Offered s) :
    wp (kmaMalloc size) (fun b t => b = 0 → ∃ page next offers, s.supply = (page, next) :: offers ∧
      t = begun s page next offers) (fun _ => True) s := by
  refine kmaMalloc_first none offered (fun _ => trivial) fun page next offers left => ?_
  split_ifs with large
  · exact fun _ => ⟨page, next, offers, left, rfl⟩
  · have legal : Legal page := offered.legal (page, next) (by simp [left])
    have granted := offered.grant left
    have begins : Offered (begun s page next offers) := ⟨granted.legal, granted.unused, granted.distinct⟩
    exact wp_mono (findFirstFit_block (short size) begins legal.nonzero) fun b t block null => absurd null block

variable {s' : Machine} {ps qs : List Page} {n : Int}

/-- A size above that of a page without its header is refused in every state. -/
theorem Opens.rejects (opens : Opens s ps s' qs) (heap : Heap s ps) (offered : Offered s)
    (excess : n % 256 ^ ptr > realPageSize) : (kmaMalloc n).run s = .ok (0, s') := by
  have rejected : wp (kmaMalloc n) (fun b t => b = 0 ∧ t = s') (fun _ => False) s := by
    refine opens.malloc heap offered ?_
    rw [if_pos excess]
    exact ⟨rfl, rfl⟩
  obtain ⟨b, t, ran, rfl, rfl⟩ := wp_returns rejected
  exact ran

theorem refused_iff (refused : Refused resourceMapAllocator w size supply t) :
    Same w.machine t ↔ w.machine.firstPage ≠ 0 := by
  constructor
  · intro same none
    obtain ⟨page, next, offers, left, rfl⟩ := wp_of_run refused.ran (kmaMalloc_begins none refused.offered) rfl
    exact absurd same.requested (by simp [begun, Machine.grant])
  · intro some
    obtain rfl := wp_of_run refused.ran (kmaMalloc_refuses some refused.offered) rfl
    exact ⟨rfl, rfl, rfl, rfl, rfl, rfl, rfl⟩

end ResourceMap

open Buddy ResourceMap

/-- A refused request changes nothing in `kma_bud`, and in `kma_rm` exactly where there is a first page. -/
theorem refusal_changes_nothing_iff (run : Calls buddyAllocator start steps last) :
    (∀ w ∈ visited steps last, ∀ size supply t, Refused buddyAllocator w size supply t → Same w.machine t) ∧
    ∀ w size supply t, Refused resourceMapAllocator w size supply t → (Same w.machine t ↔ w.machine.firstPage ≠ 0) := by
  constructor
  · intro w member size supply t refused
    obtain ⟨ps, inv⟩ := Buddy.calls_inv run w member
    obtain rfl := inv.refused refused
    exact ⟨rfl, rfl, rfl, rfl, rfl, rfl, rfl⟩
  · exact fun w size supply t refused => refused_iff refused

omit [Target] in
theorem refusals_of_8180 : ∃ target : Target, target.ptr = 8 ∧ ∃ p t t' t'',
    Refused buddyAllocator idle 8180 (twoPages 8192) t ∧ Same idle.machine t ∧
    Step resourceMapAllocator idle (.malloc 16 (twoPages 8192)) ⟨t', [(p, 16)]⟩ ∧
    Refused resourceMapAllocator ⟨t', [(p, 16)]⟩ 8180 [] t'' ∧ Same t' t'' := by
  let target : Target := ⟨8, .inr rfl⟩
  have offered : Offered { idle.machine with supply := twoPages 8192 } :=
    twoPages_offered rfl (by decide) (by decide) (by simp [idle])
  obtain ⟨bud, rm⟩ := refusal_changes_nothing_iff (⟨idle_initial, .refl⟩ : Calls buddyAllocator idle [] idle)
  have first : Refused buddyAllocator idle 8180 (twoPages 8192) { idle.machine with supply := twoPages 8192 } :=
    rejects offered (by decide) (by decide) (by decide)
  obtain ⟨p, t', step⟩ := idle_serves_16
  have sized : Sized (.malloc 16 (twoPages 8192)) := ⟨by decide, by decide⟩
  obtain ⟨ps, inv⟩ := ResourceMap.calls_inv ⟨idle_initial, .snoc .refl step⟩
    (List.forall_mem_cons.mpr ⟨sized.admits, by simp⟩) _ List.mem_cons_self
  have some : ps ≠ [] := by
    obtain ⟨l, P, r, _, _, _, rfl, _⟩ := inv.place List.mem_cons_self
    simp
  have heap := inv.heap.offer []
  have none : Offered { t' with supply := [] } := ⟨by simp, by simp, by simp⟩
  have second : Refused resourceMapAllocator ⟨t', [(p, 16)]⟩ 8180 [] { t' with supply := [] } :=
    ⟨by decide, by decide, none, (Opens.kept some).rejects heap none (by decide)⟩
  refine ⟨target, rfl, p, _, t', _, first, bud idle List.mem_cons_self _ _ _ first, step, second, (rm _ _ _ _ second).mpr ?_⟩
  exact heap.firstPage_ne some

omit [Target] in
/-- `kma_rm` takes a page to refuse a first request of 8180 bytes. -/
theorem refusal_takes_page : ∃ target : Target, target.ptr = 8 ∧ ∃ t, idle.Initial ∧
    Refused resourceMapAllocator idle 8180 (twoPages 8192) t ∧ t.firstPage = 8192 ∧ t.numRequested = 1 ∧ t.numInUse = 1 ∧
      ¬ Same idle.machine t := by
  let target : Target := ⟨8, .inr rfl⟩
  have offered : Offered { idle.machine with supply := twoPages 8192 } :=
    twoPages_offered rfl (by decide) (by decide) (by simp [idle])
  have heap := (ResourceMap.Inv.initial idle_initial).heap.offer (twoPages 8192)
  have refused : Refused resourceMapAllocator idle 8180 (twoPages 8192) _ :=
    ⟨by decide, by decide, offered, (Opens.first rfl rfl).rejects heap offered (by decide)⟩
  exact ⟨target, rfl, _, idle_initial, refused, rfl, rfl, rfl, fun same => absurd same.requested (by decide)⟩

end Eecs343.Kma
