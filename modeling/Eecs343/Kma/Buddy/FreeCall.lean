import Eecs343.Kma.Buddy.Coalesce
import Eecs343.Kma.Buddy.Release
import Eecs343.Kma.Buddy.Malloc

namespace Eecs343.Kma.Buddy

open Bytes Effect Linked

variable [Target]

variable {s t : Machine} {m m' : Memory} {P Q : Page} {room : Int → Set Int} {b size : Int} {j k : Nat}
  {ps l r : List Page} {exc : Stop → Prop}

theorem Heap.member (heap : Heap s room (l ++ P :: r)) :
    Sound s.memory (room P.base) P (load s.memory ptr (P.header + ptr)) := heap.chained.sound P (by simp)

/-- `kma_free` of a carved block: it is freed, and its page is given back with its last block. -/
theorem kmaFree_spec {post : Unit → Machine → Prop} (heap : Heap s room (l ++ P :: r))
    (reserved : P.base ∉ room P.base) (holds : P.Holds (room P.base) k b) (separate : P.Separate k b) (bound : k < 9)
    (used : 1 ≤ P.used) (small : P.used ≤ 8192) (rounded : roundUp size = blockSize k) (ladder : sizeClass size = k)
    (last : P.used = 1 → ∀ t, Heap t room (l ++ r) → post () t)
    (more : P.used ≠ 1 → ∀ t P', Freed P k b P' → Heap t room (l ++ P'.addUsed (-1) :: r) → post () t) :
    wp (kmaFree b size) post exc s := by
  have sound := heap.member
  have few := sound.ok.blocks_le
  have page : baseAddr b + sizeofAllocheader = P.header := by
    rw [(Sound.block sound.legal holds).2.2.1]
    rfl
  unfold kmaFree
  rw [← fuel_pred 1 (by decide)]
  unfold kmaFreeDepth
  rw [kmaFreeDepth_eq]
  refine wpm.wp_bind (insertBlock_freed (lt_of_le_of_lt few (by decide)) sound reserved holds separate bound used (by omega)
    rounded ladder) ?_
  intro _ m₁ inserted
  obtain ⟨P', freed, sound', frame⟩ := inserted
  have header : P'.header = P.header := by rw [header_eq, freed.base]; rfl
  have fits : Fits 4 (P'.used + -1) := by
    rw [freed.used]
    constructor <;> norm_num <;> omega
  obtain ⟨counted, frame'⟩ := sound'.addUsed fits
  have base : (P'.addUsed (-1)).base = P.base := freed.base
  have chained := heap.chained.replace base counted (frame.trans (header ▸ frame'.widen))
  have now := counted.rep.used
  rw [Page.addUsed_header, Page.addUsed_used] at now
  rw [header] at chained now
  have heap' := heap.update chained (by simp [freed.base])
  have nonzero := header_ne sound.legal
  have here : load m₁ 4 (P.header + 20 * ptr) = P'.used := header ▸ sound'.rep.used
  dsimp only
  rw [page, wp_bind]
  refine wp_read nonzero ?_
  rw [here, wp_bind]
  refine wp_write nonzero ?_
  rw [wp_bind]
  refine wp_read nonzero ?_
  have value : load (store m₁ 4 (P.header + 20 * ptr) (P'.used - 1)) 4 (P.header + 20 * ptr) = P.used - 1 := by
    rw [← freed.used]
    exact now
  dsimp only
  rw [value]
  by_cases one : P.used = 1
  · rw [if_pos (sub_eq_zero.mpr one)]
    have beside := heap'.beside
    have same : (P'.addUsed (-1)).header = P.header := header
    have released : wp _ _ exc _ := releasePage_spec beside (last one)
    rw [same] at released
    exact released
  · rw [if_neg fun zero => one (sub_eq_zero.mp zero), wp_pure]
    exact more one _ P' freed heap'

theorem Heap.scribble (heap : Heap s room (l ++ P :: r))
    (same : ∀ x, (x < P.base ∨ P.base + 8192 ≤ x ∨ (P.header ≤ x ∧ x < P.header + 2 * ptr)) → m' x = s.memory x) :
    Beside { s with memory := m' } room l P r := by
  have := ptr_bounds
  have beside := heap.beside
  have others : ∀ Q ∈ l ++ r, ∀ x, Q.base ≤ x → x < Q.base + 8192 → m' x = s.memory x := by
    intro Q member x low high
    have apart := (beside.other member).2
    exact same x (by omega)
  have fields : ∀ Q ∈ l ++ P :: r, ∀ x, Q.header ≤ x → x < Q.header + 2 * ptr → m' x = s.memory x := by
    intro Q member x low high
    have eq := header_eq Q
    have split : Q = P ∨ Q ∈ l ++ r := by
      simp only [List.mem_append, List.mem_cons] at member ⊢
      tauto
    rcases split with rfl | other
    · exact same x (.inr (.inr ⟨low, high⟩))
    · exact others Q other x (by omega) (by omega)
  have links : ∀ Q ∈ l ++ P :: r, load m' ptr (Q.header + ptr) = load s.memory ptr (Q.header + ptr) := fun Q member =>
    load_congr fun x low high => fields Q member x (by omega) (by omega)
  refine ⟨⟨?_, beside.threaded.legal, fun Q member => ?_, beside.threaded.distinct⟩, fun Q member => ?_, beside.inside,
    beside.first, beside.pages, beside.inUse, beside.balance⟩
  · refine beside.threaded.path.congr fun a member => ?_
    obtain ⟨Q, memberQ, rfl⟩ := List.mem_map.mp member
    exact links Q memberQ
  · rw [← beside.threaded.self Q member]
    exact load_congr fun x low high => fields Q member x low (by omega)
  · have old := (beside.sound Q member).elsewhere (others Q member)
    have memberQ : Q ∈ l ++ P :: r := by
      rcases List.mem_append.mp member with left | right <;> simp [*]
    rw [← links Q memberQ] at old
    exact old

/-- The first half of `kma_free` of a block that has a page whole. A size that `round_up` does not take
    to the page size goes through the free lists. -/
theorem Sound.place_whole {next : Int} (sound : Sound m (room P.base) P next) (empty : ∀ k < 9, P.free k = [])
    (start : b = P.header + 21 * ptr) :
    wpm (place b size) (fun more m' => more = false ∧ load m' 4 (P.header + 20 * ptr) = P.used ∧
      ∀ x, (x < P.base ∨ P.base + 8192 ≤ x ∨ (P.header ≤ x ∧ x < P.header + 2 * ptr)) → m' x = m x) s m := by
  have := ptr_bounds
  have eq := header_eq P
  have bound := sizeClass_lt size
  have listNe := buffer_ne sound.legal bound
  have slotLow := buffer_low P.header (sizeClass size)
  have slotHigh := buffer_high P.header bound
  have none := (sound.rep.lists (sizeClass size) bound).head
  rw [empty _ bound, List.headD_nil] at none
  have page : baseAddr b + sizeofAllocheader = P.header := by
    rw [sound.legal.baseAddr (by omega) (by omega)]
    rfl
  have blockNe : b ≠ 0 := sound.legal.ne_zero (by omega) (by omega)
  have count := sound.rep.used
  unfold place
  dsimp only
  rw [page, getRequiredBuffer_eq sound.legal rfl, wpm_read_bind, Int.add_zero, none]
  refine ⟨listNe, ?_⟩
  by_cases whole : roundUp size = 8192
  · rw [wpm_neg (not_not.mpr whole), wpm_pure]
    exact ⟨rfl, count, fun _ _ => rfl⟩
  · rw [wpm_pos whole, wpm_write_bind, Int.add_zero]
    refine ⟨blockNe, ?_⟩
    rw [wpm_write_bind]
    refine ⟨blockNe, ?_⟩
    rw [wpm_write_bind]
    refine ⟨blockNe, ?_⟩
    rw [wpm_pos rfl, wpm_write_bind, Int.add_zero, wpm_pure]
    refine ⟨listNe, rfl, ?_, fun x away => ?_⟩
    · rw [load_store_of_disjoint _ _ (by omega), load_store_of_disjoint _ _ (by omega),
        load_store_of_disjoint _ _ (by omega), load_store_of_disjoint _ _ (by omega), count]
    · rw [store_outside _ _ _ _ (by omega), store_outside _ _ _ _ (by omega), store_outside _ _ _ _ (by omega),
        store_outside _ _ _ _ (by omega)]

theorem Sound.insertBlock_whole {c : Int → C Unit} {next : Int} (sound : Sound m (room P.base) P next)
    (empty : ∀ k < 9, P.free k = [])
    (start : b = P.header + 21 * ptr) :
    wpm (insertBlock c b size) (fun _ m' => load m' 4 (P.header + 20 * ptr) = P.used ∧
      ∀ x, (x < P.base ∨ P.base + 8192 ≤ x ∨ (P.header ≤ x ∧ x < P.header + 2 * ptr)) → m' x = m x) s m := by
  rw [insertBlock_eq]
  apply wpm_bind
  apply wpm_mono (sound.place_whole empty start)
  intro more m' ⟨ended, kept⟩
  subst ended
  rw [wpm_neg Bool.false_ne_true, wpm_pure]
  exact kept

/-- `kma_free` of a block that has a page whole: the page is given back. -/
theorem kmaFree_whole {post : Unit → Machine → Prop} (heap : Heap s room (l ++ P :: r)) (empty : ∀ k < 9, P.free k = [])
    (used : P.used = 1) (start : b = P.header + 21 * ptr)
    (done : ∀ t, Heap t room (l ++ r) → post () t) : wp (kmaFree b size) post exc s := by
  have := ptr_bounds
  have eq := header_eq P
  have sound := heap.member
  have nonzero := header_ne sound.legal
  have page : baseAddr b + sizeofAllocheader = P.header := by
    rw [sound.legal.baseAddr (by omega) (by omega)]
    rfl
  unfold kmaFree
  rw [← fuel_pred 1 (by decide)]
  unfold kmaFreeDepth
  refine wpm.wp_bind (sound.insertBlock_whole empty start) ?_
  intro _ m₁ inserted
  obtain ⟨count, outside⟩ := inserted
  rw [used] at count
  dsimp only
  rw [page, wp_bind]
  refine wp_read nonzero ?_
  rw [count, wp_bind]
  refine wp_write nonzero ?_
  rw [wp_bind]
  refine wp_read nonzero ?_
  dsimp only
  rw [show (1 : Int) - 1 = 0 from rfl, load_store _ (fits_zero 4), if_pos rfl]
  refine releasePage_spec (heap.scribble fun x away => ?_) done
  rw [store_outside _ _ _ _ (by omega)]
  exact outside x away

end Eecs343.Kma.Buddy
