import Eecs343.Kma.Buddy.Lists

namespace Eecs343.Kma.Buddy

open Bytes Linked

variable [Target]

variable {s : Machine} {m m' : Memory} {P : Page} {room : Set Int} {next : Int} {j k : Nat} {b : Int} {l : List Int}

/-- Only bytes of the room and of the page header differ. -/
def Frame (header : Int) (room : Set Int) (m m' : Memory) : Prop :=
  ∀ x, x ∉ room → (x < header ∨ header + 21 * ptr ≤ x) → m' x = m x

theorem Frame.refl (header : Int) (room : Set Int) (m : Memory) : Frame header room m m := fun _ _ _ => rfl

theorem Frame.trans {header : Int} {m₁ m₂ m₃ : Memory} (first : Frame header room m₁ m₂)
    (second : Frame header room m₂ m₃) : Frame header room m₁ m₃ :=
  fun x outside away => (second x outside away).trans (first x outside away)

theorem Frame.widen {header : Int} (frame : Frame header ∅ m m') : Frame header room m m' :=
  fun x _ away => frame x (Set.notMem_empty x) away

/-- A page whose memory says what `P` says, with well-formed lists. -/
structure Sound (m : Memory) (room : Set Int) (P : Page) (next : Int) : Prop where
  legal : Legal P.base
  rep : PageRep m P next
  ok : P.Ok room

theorem Sound.block (legal : Legal P.base) (holds : P.Holds room k b) :
    b ≠ 0 ∧ Fits ptr b ∧ baseAddr b = P.base ∧ P.base ≤ b ∧ b < P.base + 8192 := by
  have := ptr_bounds
  have := blockSize_pos k
  have low := holds.low
  have high := holds.high
  exact ⟨legal.ne_zero (by omega) (by omega), legal.fits (by omega) (by omega),
    legal.baseAddr (by omega) (by omega), by omega, by omega⟩

theorem header_ne (legal : Legal P.base) : P.header ≠ 0 := by
  have := ptr_bounds
  have := header_eq P
  exact legal.ne_zero (by omega) (by omega)

theorem buffer_ne (legal : Legal P.base) (bound : k < 9) : buffer P.header k ≠ 0 := by
  have := ptr_bounds
  have := header_eq P
  have := buffer_low P.header k
  have := buffer_high P.header bound
  exact legal.ne_zero (by omega) (by omega)

def slot (header : Int) (j : Nat) : Int := if j < 9 then buffer header j else 0

theorem PageRep.nextSlot (rep : PageRep m P next) (bound : j < 9) :
    load m ptr (buffer P.header j + ptr) = slot P.header (j + 1) := by
  unfold slot
  by_cases last : j = 8
  · subst last
    exact rep.biggest
  · rw [if_pos (by omega)]
    exact rep.bigger j (by omega)

theorem findBuffer_spec (sound : Sound m room P next) {n d j : Nat} (enough : d < n) (all : j + d = 9) :
    wpm (findBuffer n (slot P.header j)) (fun r m' => m' = m ∧
      r = (((List.range' j d).findSome? fun i => (splitPair P.base i (P.free i)).map (i, ·)).map
        fun found => (buffer P.header found.1, found.2.2.1)).getD (0, 0)) s m := by
  induction n generalizing d j with
  | zero => cases enough
  | succ n ih =>
    unfold findBuffer
    cases d with
    | zero =>
      rw [wpm_pos (by simp [slot, show ¬ j < 9 from by omega]), wpm_pure]
      exact ⟨rfl, rfl⟩
    | succ d =>
      have bound : j < 9 := by omega
      have nonzero := buffer_ne sound.legal bound
      have here : slot P.header j = buffer P.header j := if_pos bound
      have inside : ∀ w ∈ P.free j, w ≠ 0 ∧ P.base ≤ w ∧ w < P.base + 8192 := by
        intro w member
        have block := Sound.block sound.legal (sound.ok.holds j bound w member)
        exact ⟨block.1, block.2.2.2⟩
      have short : (P.free j).length < fuel := Nat.lt_of_le_of_lt (sound.ok.length_le bound) (by decide)
      rw [here, wpm_neg nonzero, wpm_read_bind, Int.add_zero]
      refine ⟨nonzero, ?_⟩
      apply wpm_bind
      refine wpm_mono (findPair_spec sound.legal short (fun w member => (inside w member).2)
        (sound.rep.lists j bound)) ?_
      rintro r m' ⟨rfl, found⟩
      rw [List.range'_succ, List.findSome?_cons]
      cases scanned : splitPair P.base j (P.free j) with
      | none =>
        replace found : r = 0 := by simpa [scanned] using found
        rw [wpm_neg (not_not.mpr found), wpm_read_bind, sound.rep.nextSlot bound]
        exact ⟨nonzero, ih (by omega) (by omega)⟩
      | some pair =>
        obtain ⟨pre, a, post⟩ := pair
        replace found : r = a := by simpa [scanned] using found
        subst found
        obtain ⟨list, _⟩ := splitPair_some scanned
        rw [wpm_pos (inside r (by rw [list]; simp)).1, wpm_pure]
        exact ⟨rfl, rfl⟩

theorem Sound.write (sound : Sound m room P next) {n : Nat} {a v : Int}
    (header : a + n ≤ P.header ∨ P.header + 21 * ptr ≤ a)
    (blocks : ∀ k < 9, ∀ b ∈ P.free k, a + n ≤ b ∨ b + 3 * ptr ≤ a) :
    Sound (store m n a v) room P next := by
  have := ptr_bounds
  exact ⟨sound.legal, sound.rep.outside (fun x => store_outside m n a v) header blocks, sound.ok⟩

theorem Sound.addUsed (sound : Sound m room P next) {n : Int} (fits : Fits 4 (P.used + n)) :
    Sound (store m 4 (P.header + 20 * ptr) (P.used + n)) room (P.addUsed n) next ∧
      Frame P.header ∅ m (store m 4 (P.header + 20 * ptr) (P.used + n)) := by
  have := ptr_bounds
  exact ⟨⟨sound.legal, sound.rep.addUsed sound.ok.nodes fits, sound.ok.addUsed n⟩,
    fun x _ away => store_outside _ _ _ _ (by omega)⟩

theorem Sound.count (sound : Sound m room P next) {n : Int} (fits : Fits 4 (P.used + n)) {β : Type}
    {f : Unit → C β} {post : β → Memory → Prop}
    (rest : ∀ m', Sound m' room (P.addUsed n) next → Frame P.header ∅ m m' → wpm (f ()) post s m') :
    wpm (readInt P.header (20 * ptr) >>= fun used => writeInt P.header (20 * ptr) (used + n) >>= f) post s m := by
  obtain ⟨counted, frame⟩ := sound.addUsed fits
  rw [wpm_read_bind, sound.rep.used, wpm_write_bind]
  exact ⟨header_ne sound.legal, header_ne sound.legal, rest _ counted frame⟩

def withHeader (m : Memory) (b size next : Int) : Memory :=
  store (store (store m ptr b (allocStart b)) 4 (b + ptr) size) ptr (b + 2 * ptr) next

theorem withHeader_outside (m : Memory) (size next : Int) {x : Int} (outside : x < b ∨ b + 3 * ptr ≤ x) :
    withHeader m b size next x = m x := by
  have := ptr_bounds
  unfold withHeader
  rw [store_outside _ _ _ _ (by omega), store_outside _ _ _ _ (by omega), store_outside _ _ _ _ (by omega)]

theorem withHeader_size (m : Memory) {size next : Int} (fits : Fits 4 size) :
    load (withHeader m b size next) 4 (b + ptr) = size := by
  have := ptr_bounds
  unfold withHeader
  rw [load_store_of_disjoint _ _ (by omega), load_store _ fits]

theorem withHeader_next (m : Memory) {size next : Int} (fits : Fits ptr next) :
    load (withHeader m b size next) ptr (b + 2 * ptr) = next := load_store _ fits

omit [Target] in
theorem blockSize_fits (bound : k < 9) : Fits 4 (blockSize k) := by
  have := blockSize_pos k
  have : blockSize k ≤ blockSize 8 := blockSize_mono (by omega)
  have : blockSize 8 = 8192 := rfl
  constructor <;> norm_num <;> omega

theorem Page.Holds.bytes (holds : P.Holds room k b) {x : Int} (low : b ≤ x) (high : x < b + 3 * ptr) : x ∈ room := by
  have := ptr_bounds
  have := blockSize_pos k
  exact holds.inRoom x low (by omega)

theorem Page.Separate.header (separate : P.Separate k b) {a : Int} (bound : j < 9) (member : a ∈ P.free j) :
    b + 3 * ptr ≤ a ∨ a + 3 * ptr ≤ b := by
  have := ptr_bounds
  have := blockSize_pos k
  have := blockSize_pos j
  have apart := separate j bound a member
  unfold Apart at apart
  omega

theorem Sound.withHeader (sound : Sound m room P next) (holds : P.Holds room k b) (separate : P.Separate k b)
    (size v : Int) : Sound (withHeader m b size v) room P next ∧ Frame P.header room m (withHeader m b size v) := by
  have := ptr_bounds
  have low := holds.low
  have spared : ∀ j < 9, ∀ a ∈ P.free j, b + 3 * ptr ≤ a ∨ a + 3 * ptr ≤ b :=
    fun j bound a member => separate.header bound member
  refine ⟨⟨sound.legal, ?_, sound.ok⟩, fun x outside _ => withHeader_outside m size v ?_⟩
  · have := header_eq P
    refine sound.rep.outside (a := b) (n := 3 * ptr) (fun x => withHeader_outside m size v) (by omega) spared
  · by_contra inside
    exact outside (holds.bytes (by omega) (by omega))

theorem Sound.setFirst (sound : Sound m room P next) (ok : (P.setList k l).Ok room) (bound : k < 9) {v : Int}
    (list : FreeList m k v l) :
    Sound (store m ptr (buffer P.header k) v) room (P.setList k l) next ∧
      Frame P.header ∅ m (store m ptr (buffer P.header k) v) := by
  have := ptr_bounds
  have := buffer_low P.header k
  have := buffer_high P.header bound
  have placed : ∀ b ∈ l, (P.setList k l).Holds room k b :=
    fun b member => ok.holds k bound b (by rwa [Page.setList_self])
  have fits : Fits ptr v := by
    rw [list.head]
    cases l with
    | nil => exact fits_zero ptr
    | cons b l => exact (Sound.block (P := P.setList k (b :: l)) sound.legal (placed b List.mem_cons_self)).2.1
  refine ⟨⟨sound.legal, sound.rep.setFirst sound.ok.nodes bound fits list fun b member => (placed b member).low, ok⟩,
    fun x _ away => store_outside _ _ _ _ (by omega)⟩

theorem getRequiredBuffer_eq (legal : Legal P.base) {size : Int} (ladder : sizeClass size = k) :
    getRequiredBuffer size P.header = buffer P.header k := by
  rw [getRequiredBuffer, if_neg (header_ne legal), ladder]

theorem Page.Ok.header_apart (ok : P.Ok room) {a : Int} (hj : j < 9) (hk : k < 9) (memberA : a ∈ P.free j)
    (memberB : b ∈ P.free k) (ne : (j, a) ≠ (k, b)) : Apart a (3 * ptr) b (3 * ptr) := by
  have := ptr_bounds
  have := blockSize_pos k
  have := blockSize_pos j
  have apart := ok.apart j hj k hk a memberA b memberB ne
  unfold Apart at apart ⊢
  omega

theorem Page.Ok.spaced (ok : P.Ok room) (separate : P.Separate k b) (bound : k < 9) : Spaced (b :: P.free k) := by
  refine List.pairwise_cons.mpr ⟨fun a member => separate.header bound member, ?_⟩
  refine (ok.sorted k bound).imp_of_mem fun {a c} memberA memberC less => ?_
  refine ok.header_apart bound bound memberA memberC fun same => ?_
  cases same
  exact absurd less (Int.lt_irrefl _)

theorem Sound.insertAfter (sound : Sound m room P next) (holds : P.Holds room k b) (separate : P.Separate k b)
    (bound : k < 9) {x : Int} (list : P.free k = x :: l) (behind : x ≤ b)
    (size : load m 4 (b + ptr) = blockSize k) :
    wpm (insertAfter fuel x b) (fun _ m' => Sound m' room (P.setList k (x :: insertTail b l)) next ∧
      Frame P.header room m m') s m := by
  have := ptr_bounds
  have eq := header_eq P
  have spaced := sound.ok.spaced separate bound
  have nodes : ∀ w ∈ b :: P.free k, P.Holds room k w := by
    intro w member
    rcases List.mem_cons.mp member with rfl | member
    · exact holds
    · exact sound.ok.holds k bound w member
  have listed := sound.rep.lists k bound
  have start := listed.head
  rw [list] at spaced nodes listed
  rw [list, List.headD_cons] at start
  rw [start] at listed
  have short : l.length < fuel := by
    have most := sound.ok.length_le bound
    rw [list, List.length_cons] at most
    exact Nat.lt_of_lt_of_le (by omega : l.length < 8193) (by decide)
  refine wpm_mono (insertAfter_spec short spaced (fun w member => (Sound.block sound.legal (nodes w member)).1)
    (fun w member => (Sound.block sound.legal (nodes w member)).2.1) listed size) ?_
  intro _ m' ⟨linked, outside⟩
  refine ⟨⟨sound.legal, ?_, sound.ok.insert holds separate bound list behind⟩, fun x notRoom _ => outside x fun w member => ?_⟩
  · refine sound.rep.relist (by rwa [start]) (fun x _ high => outside x fun w member => ?_)
      fun j hj ne c memberC x low high => outside x fun w member => ?_
    · have := (nodes w member).low
      omega
    · have apart : Apart c (3 * ptr) w (3 * ptr) := by
        rcases List.mem_cons.mp member with rfl | member
        · exact Apart.symm (separate.header hj memberC)
        · refine sound.ok.header_apart hj bound memberC (list ▸ member) fun same => ?_
          cases same
          exact ne rfl
      unfold Apart at apart
      omega
  · by_contra inside
    exact notRoom ((nodes w member).bytes (by omega) (by omega))

/-- The first half of `kma_free` without the call of `coalesce`: whether that follows. -/
def place (block size : Int) : C Bool := do
  let header := baseAddr block + sizeofAllocheader
  let list := getRequiredBuffer size header
  let first ← readPtr list 0
  if roundUp size ≠ 8192 then
    writePtr block 0 (allocStart block)
    writeInt block ptr (roundUp size)
    writePtr block (2 * ptr) 0
    if first = 0 then
      writePtr list 0 block
      return false
    else if first > block then
      writePtr block (2 * ptr) first
      writePtr list 0 block
      return false
    else
      insertAfter fuel first block
      return true
  else return false

theorem insertBlock_eq (coalesce : Int → C Unit) (block size : Int) : insertBlock coalesce block size =
    place block size >>= fun more => if more then coalesce (baseAddr block + sizeofAllocheader) else pure () := by
  unfold insertBlock place
  simp only [bind_assoc]
  congr 1
  funext first
  split
  · simp only [bind_assoc]
    congr! 3 with
    split
    · simp
    · split <;> simp
  · simp

/-- The first half of `kma_free` ends with the block in an empty list, in front of its list, or
    behind the first block; only then it goes on to `coalesce`. -/
theorem place_spec {size : Int} {post : Bool → Memory → Prop}
    (sound : Sound m room P next) (holds : P.Holds room k b)
    (separate : P.Separate k b) (smaller : k < 8) (rounded : roundUp size = blockSize k) (ladder : sizeClass size = k)
    (empty : ∀ m', P.free k = [] → Sound m' room (P.setList k [b]) next → Frame P.header room m m' → post false m')
    (front : ∀ m' x l, P.free k = x :: l → b < x → Sound m' room (P.setList k (b :: x :: l)) next →
      Frame P.header room m m' → post false m')
    (behind : ∀ m' x l, P.free k = x :: l → x ≤ b → Sound m' room (P.setList k (x :: insertTail b l)) next →
      Frame P.header room m m' → post true m') :
    wpm (place b size) post s m := by
  have := ptr_bounds
  obtain ⟨nonzero, fits, page, _⟩ := Sound.block sound.legal holds
  have bound : k < 9 := by omega
  have notWhole : blockSize k ≠ 8192 := by
    have := blockSize_mono (show k ≤ 7 from by omega)
    have : blockSize 7 = 4096 := rfl
    omega
  have header : baseAddr b + sizeofAllocheader = P.header := by rw [page]; rfl
  have listNe := buffer_ne sound.legal bound
  have start := (sound.rep.lists k bound).head
  unfold place
  dsimp only
  rw [header, rounded, getRequiredBuffer_eq sound.legal ladder, wpm_read_bind, Int.add_zero, start]
  refine ⟨listNe, ?_⟩
  rw [wpm_pos notWhole, wpm_write_bind, Int.add_zero]
  refine ⟨nonzero, ?_⟩
  rw [wpm_write_bind]
  refine ⟨nonzero, ?_⟩
  rw [wpm_write_bind]
  refine ⟨nonzero, ?_⟩
  change wpm _ _ _ (Buddy.withHeader m b (blockSize k) 0)
  obtain ⟨written, frame⟩ := sound.withHeader holds separate (blockSize k) 0
  have size : load (Buddy.withHeader m b (blockSize k) 0) 4 (b + ptr) = blockSize k :=
    withHeader_size m (blockSize_fits bound)
  have null : load (Buddy.withHeader m b (blockSize k) 0) ptr (b + 2 * ptr) = 0 := withHeader_next m (fits_zero ptr)
  cases list : P.free k with
  | nil =>
    have ok := (Freed.empty list).ok sound.ok holds separate bound
    obtain ⟨placed, frame'⟩ := written.setFirst ok bound (v := b)
      (freeList_cons.mpr ⟨rfl, size, freeList_nil.mpr null⟩)
    rw [List.headD_nil, wpm_pos rfl, wpm_write_bind, Int.add_zero, wpm_pure]
    exact ⟨listNe, empty _ list placed (frame.trans frame'.widen)⟩
  | cons x l =>
    have member : x ∈ P.free k := by rw [list]; exact List.mem_cons_self
    have nonzeroX := (Sound.block sound.legal (sound.ok.holds k bound x member)).1
    rw [List.headD_cons, wpm_neg nonzeroX]
    by_cases before : b < x
    · have ok := (Freed.front list before).ok sound.ok holds separate bound
      have fitsX := (Sound.block sound.legal (sound.ok.holds k bound x member)).2.1
      have low := holds.low
      have eq := header_eq P
      have linked := written.write (n := ptr) (a := b + 2 * ptr) (v := x) (by omega) fun j hj a memberA => by
        have := separate.header hj memberA
        omega
      have listed := written.rep.lists k bound
      rw [listed.head, list] at listed
      have far := separate.header bound member
      have frame' : Frame P.header room (Buddy.withHeader m b (blockSize k) 0)
          (store (Buddy.withHeader m b (blockSize k) 0) ptr (b + 2 * ptr) x) := fun y notRoom _ =>
        store_outside _ _ _ _ (by
          by_contra inside
          exact notRoom (holds.bytes (by omega) (by omega)))
      obtain ⟨placed, frame''⟩ := linked.setFirst ok bound (v := b) (by
        refine freeList_cons.mpr ⟨rfl, ?_, ?_⟩
        · rw [load_store_of_disjoint _ _ (by omega), size]
        · rw [load_store _ fitsX]
          refine listed.frame fun a memberA y low high => store_outside _ _ _ _ ?_
          have := separate.header bound (list ▸ memberA)
          omega)
      rw [wpm_pos before, wpm_write_bind]
      refine ⟨nonzero, ?_⟩
      rw [wpm_write_bind, Int.add_zero, wpm_pure]
      exact ⟨listNe, front _ x l list before placed ((frame.trans frame').trans frame''.widen)⟩
    -- only here the loop runs, and `coalesce` behind it
    · rw [wpm_neg before]
      apply wpm_bind
      refine wpm_mono (written.insertAfter holds separate bound list (Int.not_lt.mp before) size) ?_
      intro _ m' ⟨placed, frame'⟩
      rw [wpm_pure]
      exact behind m' x l list (Int.not_lt.mp before) placed (frame.trans frame')

theorem insertBlock_spec {size : Int} {c : Int → C Unit} {post : Unit → Memory → Prop}
    (sound : Sound m room P next) (holds : P.Holds room k b)
    (separate : P.Separate k b) (smaller : k < 8) (rounded : roundUp size = blockSize k) (ladder : sizeClass size = k)
    (empty : ∀ m', P.free k = [] → Sound m' room (P.setList k [b]) next → Frame P.header room m m' → post () m')
    (front : ∀ m' x l, P.free k = x :: l → b < x → Sound m' room (P.setList k (b :: x :: l)) next →
      Frame P.header room m m' → post () m')
    (behind : ∀ m' x l, P.free k = x :: l → x ≤ b → Sound m' room (P.setList k (x :: insertTail b l)) next →
      Frame P.header room m m' → wpm (c P.header) post s m') :
    wpm (insertBlock c b size) post s m := by
  have header : baseAddr b + sizeofAllocheader = P.header := by
    rw [(Sound.block sound.legal holds).2.2.1]
    rfl
  rw [insertBlock_eq, header]
  apply wpm_bind
  apply place_spec sound holds separate smaller rounded ladder
  · intro m' none placed frame
    rw [wpm_neg Bool.false_ne_true, wpm_pure]
    exact empty m' none placed frame
  · intro m' x l list before placed frame
    rw [wpm_neg Bool.false_ne_true, wpm_pure]
    exact front m' x l list before placed frame
  · intro m' x l list before placed frame
    rw [wpm_pos rfl]
    exact behind m' x l list before placed frame

end Eecs343.Kma.Buddy
