import Eecs343.Kma.Buddy.Carved
import Eecs343.Kma.Buddy.Free

namespace Eecs343.Kma.Buddy

open Bytes Linked

variable [Target]

variable {s : Machine} {m m' : Memory} {P : Page} {room : Set Int} {next : Int} {k : Nat} {b : Int}

/-- `buffer_size->first_block = b->next`, where `b` is the first block. -/
theorem Sound.unlink (sound : Sound m room (P.setList k (b :: P.free k)) next) (spare : P.Spare room k b)
    (bound : k < 9) :
    load m ptr (buffer P.header k) = b ∧ load m 4 (b + ptr) = blockSize k ∧
      Sound (store m ptr (buffer P.header k) (load m ptr (b + 2 * ptr))) room P next ∧
      Frame P.header ∅ m (store m ptr (buffer P.header k) (load m ptr (b + 2 * ptr))) := by
  have listed := sound.rep.lists k bound
  rw [Page.setList_header, Page.setList_self] at listed
  obtain ⟨start, size, rest⟩ := freeList_cons.mp listed
  have same : (P.setList k (b :: P.free k)).setList k (P.free k) = P := by
    rw [Page.setList_setList, Page.setList_free]
  obtain ⟨placed, frame⟩ := sound.setFirst (by rw [same]; exact spare.ok) bound rest
  rw [same] at placed
  exact ⟨start, size, placed, frame⟩

def splitHeaders (m : Memory) (b c size : Int) : Memory :=
  store (store (store (store (store m 4 (c + ptr) size) ptr c (allocStart c)) ptr (c + 2 * ptr) 0) 4 (b + ptr) size) ptr
    (b + 2 * ptr) c

theorem splitHeaders_outside (m : Memory) (size : Int) {c x : Int} (first : x < b ∨ b + 3 * ptr ≤ x)
    (second : x < c ∨ c + 3 * ptr ≤ x) : splitHeaders m b c size x = m x := by
  have := ptr_bounds
  unfold splitHeaders
  rw [store_outside _ _ _ _ (by omega), store_outside _ _ _ _ (by omega), store_outside _ _ _ _ (by omega),
    store_outside _ _ _ _ (by omega), store_outside _ _ _ _ (by omega)]

theorem splitHeaders_listed (m : Memory) {c : Int} (apart : b + 3 * ptr ≤ c) (fits : Fits ptr c) (bound : k < 9) :
    FreeList (splitHeaders m b c (blockSize k)) k b [b, c] := by
  have := ptr_bounds
  have size := blockSize_fits bound
  unfold splitHeaders
  refine freeList_cons.mpr ⟨rfl, ?_, freeList_cons.mpr ⟨load_store _ fits, ?_, freeList_nil.mpr ?_⟩⟩
  · rw [load_store_of_disjoint _ _ (by omega), load_store _ size]
  · rw [load_store_of_disjoint _ _ (by omega), load_store_of_disjoint _ _ (by omega),
      load_store_of_disjoint _ _ (by omega), load_store_of_disjoint _ _ (by omega), load_store _ size]
  · rw [load_store_of_disjoint _ _ (by omega), load_store_of_disjoint _ _ (by omega), load_store _ (fits_zero ptr)]

theorem Sound.headers (sound : Sound m room P next) {c : Int} (holds : P.Holds room k b) (holds' : P.Holds room k c)
    (separate : P.Separate k b) (separate' : P.Separate k c)
    (same : ∀ x, (x < b ∨ b + 3 * ptr ≤ x) → (x < c ∨ c + 3 * ptr ≤ x) → m' x = m x) :
    Sound m' room P next ∧ Frame P.header room m m' := by
  have := ptr_bounds
  have eq := header_eq P
  have low := holds.low
  have low' := holds'.low
  refine ⟨⟨sound.legal, sound.rep.frame (fun x _ _ => same x (by omega) (by omega)) ?_, sound.ok⟩, ?_⟩
  · intro j bound a member x above below
    have := separate.header bound member
    have := separate'.header bound member
    exact same x (by omega) (by omega)
  · intro x outside _
    refine same x ?_ ?_
    · by_contra inside
      exact outside (holds.bytes (by omega) (by omega))
    · by_contra inside
      exact outside (holds'.bytes (by omega) (by omega))

/-- `split_buffer` on a spare block in front of its list, when the list of the halves is empty. -/
theorem splitBuffer_spec (sound : Sound m room (P.setList (k + 1) (b :: P.free (k + 1))) next)
    (spare : P.Spare room (k + 1) b) (bound : k + 1 < 9) (none : P.free k = [])
    (beyond : P.base + 32 * ptr ≤ b + blockSize k) :
    wpm (splitBuffer (buffer P.header (k + 1)) P.header) (fun list m' => list = buffer P.header k ∧
      Sound m' room ((P.setList k [b + blockSize k]).setList k (b :: [b + blockSize k])) next ∧
      Frame P.header room m m') s m := by
  have := ptr_bounds
  have eq := header_eq P
  have legal : Legal P.base := sound.legal
  have positive := blockSize_pos k
  have double := blockSize_succ k
  have inside : k < 9 := by omega
  obtain ⟨right, apartRight, spare'⟩ := spare.halve bound none beyond
  obtain ⟨start, size, popped, frame⟩ := sound.unlink spare bound
  have low := spare.holds.low
  have nonzero := (Sound.block legal spare.holds).1
  have nonzeroRight := (Sound.block legal right).1
  have fitsRight := (Sound.block legal right).2.1
  have half : (blockSize (k + 1)).tdiv 2 = blockSize k := by
    rw [Int.tdiv_eq_ediv_of_nonneg (by omega)]
    omega
  unfold splitBuffer
  rw [wpm_read_bind, Int.add_zero, start]
  refine ⟨buffer_ne legal bound, ?_⟩
  rw [wpm_read_bind]
  refine ⟨nonzero, ?_⟩
  rw [wpm_write_bind, Int.add_zero]
  refine ⟨buffer_ne legal bound, ?_⟩
  have size' : load (store m ptr (buffer P.header (k + 1)) (load m ptr (b + 2 * ptr))) 4 (b + ptr) = blockSize (k + 1) := by
    have := buffer_low P.header (k + 1)
    have := buffer_high P.header bound
    rw [load_store_of_disjoint _ _ (by omega), size]
  -- memory with the block off its list
  obtain ⟨m₁, here⟩ : ∃ m₁, store m ptr (buffer P.header (k + 1)) (load m ptr (b + 2 * ptr)) = m₁ := ⟨_, rfl⟩
  rw [here] at popped frame size' ⊢
  have spareLeft := spare'.holds.of_base (Q := P) rfl
  have separateLeft : P.Separate k b := by
    intro j hj a member
    have apart := spare.separate j hj a member
    unfold Apart at apart ⊢
    omega
  dsimp only
  rw [wpm_read_bind, size', half]
  refine ⟨nonzero, ?_⟩
  rw [wpm_write_bind]
  refine ⟨nonzeroRight, ?_⟩
  rw [wpm_write_bind, Int.add_zero]
  refine ⟨nonzeroRight, ?_⟩
  rw [wpm_write_bind]
  refine ⟨nonzeroRight, ?_⟩
  rw [wpm_write_bind]
  refine ⟨nonzero, ?_⟩
  rw [wpm_write_bind]
  refine ⟨nonzero, ?_⟩
  change wpm _ _ _ (splitHeaders m₁ b (b + blockSize k) (blockSize k))
  have apart : b + 3 * ptr ≤ b + blockSize k := by omega
  obtain ⟨sound₂, frame₂⟩ := popped.headers spareLeft right separateLeft apartRight
    fun x => splitHeaders_outside m₁ (blockSize k)
  have listed := splitHeaders_listed m₁ apart fitsRight inside
  have empty := (sound₂.rep.lists k inside).head
  have ok := spare'.ok.setList spare'.holds spare'.separate (l := [b, b + blockSize k]) (by simp)
    (by simp; omega) inside
  rw [Page.setList_setList] at ok
  obtain ⟨placed, frame₃⟩ := sound₂.setFirst ok inside listed
  rw [none, List.headD_nil] at empty
  rw [getRequiredBuffer_eq legal (sizeClass_blockSize inside), wpm_read_bind, Int.add_zero, empty]
  refine ⟨buffer_ne legal inside, ?_⟩
  rw [wpm_pos rfl, wpm_write_bind, Int.add_zero]
  refine ⟨buffer_ne legal inside, ?_⟩
  rw [wpm_pure, Page.setList_setList]
  exact ⟨rfl, placed, (frame.widen.trans frame₂).trans frame₃.widen⟩

theorem splitTimes_spec {i : Nat} (sound : Sound m room (P.setList (k + i) (b :: P.free (k + i))) next)
    (spare : P.Spare room (k + i) b) (bound : k + i < 9) (lower : ∀ x < i, P.free (k + x) = [])
    (beyond : P.base + 32 * ptr ≤ b + blockSize k) :
    wpm (splitTimes i (buffer P.header (k + i)) P.header) (fun list m' => list = buffer P.header k ∧
      Sound m' room ((halves b k i P).setList k (b :: (halves b k i P).free k)) next ∧
      Frame P.header room m m') s m := by
  induction i generalizing P m with
  | zero =>
    unfold splitTimes
    rw [wpm_pure]
    exact ⟨rfl, sound, Frame.refl _ _ _⟩
  | succ i ih =>
    have more := blockSize_mono (show k ≤ k + i from by omega)
    have below : P.base + 32 * ptr ≤ b + blockSize (k + i) := by omega
    have none := lower i (by omega)
    obtain ⟨_, _, spare'⟩ := spare.halve (k := k + i) bound none below
    unfold splitTimes
    apply wpm_bind
    refine wpm_mono (splitBuffer_spec (k := k + i) sound spare bound none below) ?_
    rintro _ m₁ ⟨rfl, halved, frame⟩
    refine wpm_mono (ih (P := P.setList (k + i) [b + blockSize (k + i)]) (m := m₁) ?_ spare' (by omega) ?_ beyond) ?_
    · rw [Page.setList_self]
      exact halved
    · intro x less
      rw [Page.setList_ne _ _ (by omega)]
      exact lower x (by omega)
    · rintro _ m₂ ⟨rfl, placed, frame'⟩
      exact ⟨rfl, placed, frame.trans frame'⟩

/-- The block a search has found, split and unlinked. -/
theorem carve_spec {i : Nat} {rest : List Int} (sound : Sound m room P next) (bound : k + i < 9)
    (list : P.free (k + i) = b :: rest) (lower : ∀ x < i, P.free (k + x) = [])
    (beyond : P.base + 32 * ptr ≤ b + blockSize k) {β : Type} {f : Int → C β} {post : β → Memory → Prop}
    (done : ∀ m' P', Carved P k b P' → Sound m' room P' next → Frame P.header room m m' → wpm (f b) post s m') :
    wpm (do
      let list ← splitTimes i (buffer P.header (k + i)) P.header
      let block ← readPtr list 0
      writePtr list 0 (← readPtr block (2 * ptr))
      f block) post s m := by
  have inside : k < 9 := by omega
  have lower' : ∀ x < i, (P.setList (k + i) rest).free (k + x) = [] := by
    intro x less
    rw [Page.setList_ne _ _ (by omega)]
    exact lower x less
  have start : (P.setList (k + i) rest).setList (k + i) (b :: (P.setList (k + i) rest).free (k + i)) = P := by
    rw [Page.setList_setList, Page.setList_self, ← list, Page.setList_free]
  have spare := sound.ok.pop bound list
  apply wpm_bind
  refine wpm_mono (splitTimes_spec (P := P.setList (k + i) rest) (m := m) (by rw [start]; exact sound) spare bound
    lower' beyond) ?_
  rintro _ m₁ ⟨rfl, placed, frame⟩
  have spare' := spare.halves bound lower' beyond
  have header : (halves b k i (P.setList (k + i) rest)).header = P.header := by
    rw [header_eq, halves_base]
    rfl
  obtain ⟨first, _, popped, frame'⟩ := placed.unlink spare' inside
  rw [header] at first popped frame'
  rw [Page.setList_header, wpm_read_bind, Int.add_zero, first]
  refine ⟨buffer_ne sound.legal inside, ?_⟩
  rw [wpm_read_bind]
  refine ⟨(Sound.block popped.legal spare'.holds).1, ?_⟩
  rw [wpm_write_bind, Int.add_zero]
  exact ⟨buffer_ne sound.legal inside, done _ _ (.mk bound list lower) popped (frame.trans frame'.widen)⟩

/-- The block `get_free_buffer` hands out is carved and counted. -/
theorem takeBlock_spec {i : Nat} {rest : List Int} (sound : Sound m room P next) (bound : k + i < 9)
    (list : P.free (k + i) = b :: rest) (lower : ∀ x < i, P.free (k + x) = [])
    (beyond : P.base + 32 * ptr ≤ b + blockSize k) (fits : Fits 4 (P.used + 1)) :
    wpm (takeBlock i P.header (buffer P.header (k + i))) (fun r m' => r = b ∧
      ∃ P', Carved P k b P' ∧ Sound m' room (P'.addUsed 1) next ∧ Frame P.header room m m') s m := by
  unfold takeBlock
  refine carve_spec sound bound list lower beyond fun m₁ P' carved taken frame => ?_
  have header : P'.header = P.header := by rw [header_eq, carved.base]; rfl
  have fits' : Fits 4 (P'.used + 1) := by rw [carved.used]; exact fits
  rw [← header]
  refine taken.count fits' fun m₂ counted frame' => ?_
  rw [wpm_pure]
  rw [header] at frame' ⊢
  exact ⟨rfl, P', carved, counted, frame.trans frame'.widen⟩

end Eecs343.Kma.Buddy
