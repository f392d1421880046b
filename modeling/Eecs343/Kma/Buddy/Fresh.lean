import Eecs343.Kma.Buddy.Free

namespace Eecs343.Kma.Buddy

open Bytes Linked

variable [Target]

variable {s : Machine} {m m' : Memory} {P : Page} {page : Int} {j k : Nat}

/-- A page as `init_page` leaves it: one free block, the whole page. -/
def fresh (page : Int) : Page := ⟨page, 0, fun k => if k = 8 then [page] else []⟩

def wholeRoom (page : Int) : Set Int := {x | page ≤ x ∧ x < page + 8192}

theorem fresh_ok (page : Int) : (fresh page).Ok (wholeRoom page) := by
  have only : ∀ k b, b ∈ (fresh page).free k → k = 8 ∧ b = page := by
    intro k b member
    by_cases last : k = 8
    · simpa [fresh, last] using member
    · simp [fresh, last] at member
  refine ⟨fun k _ b member => ?_, fun i _ j _ a memberA b memberB ne => ?_, fun k _ => ?_, fun k above => ?_⟩
  · obtain ⟨rfl, rfl⟩ := only k b member
    exact ⟨by simp [fresh], .inl rfl, le_refl _, fun x low high => ⟨low, high⟩⟩
  · obtain ⟨rfl, rfl⟩ := only i a memberA
    obtain ⟨rfl, rfl⟩ := only j b memberB
    exact absurd rfl ne
  · by_cases last : k = 8 <;> simp [fresh, last]
  · exact if_neg (by omega)

theorem linkLists_spec (legal : Legal P.base) (bound : k ≤ 8) :
    wpm (linkLists P.header k) (fun _ m' =>
      (∀ j < k, load m' ptr (buffer P.header j + ptr) = buffer P.header (j + 1)) ∧
      ∀ x, (x < P.header + 2 * ptr ∨ P.header + 18 * ptr ≤ x) → m' x = m x) s m := by
  have := ptr_bounds
  have eq := header_eq P
  induction k with
  | zero =>
    unfold linkLists
    rw [wpm_pure]
    exact ⟨fun j less => absurd less (Nat.not_lt_zero j), fun _ _ => rfl⟩
  | succ k ih =>
    unfold linkLists
    apply wpm_bind
    refine wpm_mono (ih (by omega)) ?_
    intro _ m₁ ⟨linked, outside⟩
    have := buffer_low P.header k
    have := buffer_lt P.header (show k < k + 1 from Nat.lt_succ_self k)
    have := buffer_high P.header (show k + 1 < 9 from by omega)
    have : buffer P.header k + 2 * ptr ≤ P.header + 18 * ptr := by
      have last : buffer P.header 8 = P.header + 18 * ptr := by
        unfold buffer
        push_cast
        ring
      have := buffer_lt P.header (show k < 8 from by omega)
      omega
    rw [wpm_write]
    refine ⟨buffer_ne legal (by omega), fun j less => ?_, fun x away => ?_⟩
    · rcases Nat.lt_succ_iff_lt_or_eq.mp less with less | rfl
      · have := buffer_lt P.header less
        rw [load_store_of_disjoint _ _ (by omega), linked j less]
      · exact load_store _ (legal.fits (by omega) (by omega))
    · rw [store_outside _ _ _ _ (by omega), outside x away]

theorem clearLists_spec (legal : Legal P.base) (bound : k ≤ 9) :
    wpm (clearLists P.header k) (fun _ m' => (∀ j < k, load m' ptr (buffer P.header j) = 0) ∧
      ∀ x, (∀ j < k, x < buffer P.header j ∨ buffer P.header j + ptr ≤ x) → m' x = m x) s m := by
  have := ptr_bounds
  induction k with
  | zero =>
    unfold clearLists
    rw [wpm_pure]
    exact ⟨fun j less => absurd less (Nat.not_lt_zero j), fun _ _ => rfl⟩
  | succ k ih =>
    unfold clearLists
    apply wpm_bind
    refine wpm_mono (ih (by omega)) ?_
    intro _ m₁ ⟨cleared, outside⟩
    rw [wpm_write, Int.add_zero]
    refine ⟨buffer_ne legal (by omega), fun j less => ?_, fun x away => ?_⟩
    · rcases Nat.lt_succ_iff_lt_or_eq.mp less with less | rfl
      · have := buffer_lt P.header less
        rw [load_store_of_disjoint _ _ (by omega), cleared j less]
      · exact load_store _ (fits_zero ptr)
    · rw [store_outside _ _ _ _ (away k (Nat.lt_succ_self k)), outside x fun j less => away j (by omega)]

theorem buffer_between (h : Int) (i : Nat) {x : Int} (low : buffer h j + ptr ≤ x) (high : x < buffer h j + 2 * ptr) :
    x < buffer h i ∨ buffer h i + ptr ≤ x := by
  by_cases same : i = j
  · subst same
    exact .inr low
  · have := buffer_apart h same
    omega

/-- The page without its free blocks, as a whole-page request takes it. -/
def Page.clear (P : Page) : Page := { P with free := fun _ => [] }

theorem Page.clear_ok (room : Set Int) : P.clear.Ok room :=
  ⟨fun _ _ _ member => absurd member List.not_mem_nil, fun _ _ _ _ _ member => absurd member List.not_mem_nil,
    fun _ _ => .nil, fun _ _ => rfl⟩

theorem Sound.clear {room : Set Int} {next : Int} (sound : Sound m room P next) :
    wpm (clearLists P.header 9) (fun _ m' => Sound m' room P.clear next ∧ Frame P.header ∅ m m') s m := by
  have := ptr_bounds
  have slot : ∀ j < 9, P.header + 2 * ptr ≤ buffer P.header j ∧ buffer P.header j + 2 * ptr ≤ P.header + 20 * ptr :=
    fun j bound => ⟨buffer_low P.header j, buffer_high P.header bound⟩
  refine wpm_mono (clearLists_spec sound.legal (by decide)) ?_
  intro _ m' ⟨cleared, outside⟩
  have rep := sound.rep
  have away : ∀ (n : Nat) (a : Int), (a + n ≤ P.header + 2 * ptr ∨ P.header + 20 * ptr ≤ a) →
      load m' n a = load m n a := fun n a far => load_congr fun x low high => outside x fun j bound => by
    have := slot j bound
    omega
  have between : ∀ j < 9, load m' ptr (buffer P.header j + ptr) = load m ptr (buffer P.header j + ptr) := by
    intro j _
    exact load_congr fun x low high => outside x fun i _ => buffer_between P.header i low (by omega)
  refine ⟨⟨sound.legal, ⟨?_, ?_, ?_, ?_, ?_, ?_⟩, Page.clear_ok room⟩, ?_⟩
  · exact (away _ _ (.inl (by change P.header + _ ≤ _; omega))).trans rep.page
  · exact (away _ _ (.inl (by change P.header + _ + _ ≤ _; omega))).trans rep.next
  · exact (away _ _ (.inr (by change _ ≤ P.header + _; omega))).trans rep.used
  · exact fun j bound => (between j (by omega)).trans (rep.bigger j bound)
  · exact (between 8 (by decide)).trans rep.biggest
  · exact fun j bound => freeList_nil.mpr (cleared j bound)
  · intro x _ far
    refine outside x fun j bound => ?_
    have := slot j bound
    omega

theorem formatPage_spec (legal : Legal page) :
    wpm (do
      writePtr (fresh page).header 0 page
      writePtr (fresh page).header ptr 0
      writeInt (fresh page).header (20 * ptr) 0
      linkLists (fresh page).header 8
      writePtr (buffer (fresh page).header 8) ptr 0
      clearLists (fresh page).header 9
      writePtr page 0 (allocStart page)
      writeInt page ptr 8192
      writePtr page (2 * ptr) 0
      writePtr (buffer (fresh page).header 8) 0 page
      return page) (fun r m' => r = page ∧ Sound m' (wholeRoom page) (fresh page) 0 ∧
        ∀ x, (x < page ∨ page + 8192 ≤ x) → m' x = m x) s m := by
  have := ptr_bounds
  have eq : (fresh page).header = page + 3 * ptr := rfl
  have nonzero := header_ne (P := fresh page) legal
  have last := buffer_ne (P := fresh page) legal (show 8 < 9 from by decide)
  have slot : ∀ j < 9, (fresh page).header + 2 * ptr ≤ buffer (fresh page).header j ∧
      buffer (fresh page).header j + 2 * ptr ≤ (fresh page).header + 20 * ptr :=
    fun j bound => ⟨buffer_low _ j, buffer_high _ bound⟩
  -- the fields of the page header
  rw [wpm_write_bind, Int.add_zero]
  refine ⟨nonzero, ?_⟩
  rw [wpm_write_bind]
  refine ⟨nonzero, ?_⟩
  rw [wpm_write_bind]
  refine ⟨nonzero, ?_⟩
  apply wpm_bind
  refine wpm_mono (linkLists_spec (P := fresh page) legal (le_refl 8)) ?_
  intro _ m₁ ⟨linked, outside₁⟩
  rw [wpm_write_bind]
  refine ⟨last, ?_⟩
  apply wpm_bind
  refine wpm_mono (clearLists_spec (P := fresh page) legal (le_refl 9)) ?_
  intro _ m₂ ⟨cleared, outside₂⟩
  rw [wpm_write_bind, Int.add_zero]
  refine ⟨legal.nonzero, ?_⟩
  rw [wpm_write_bind]
  refine ⟨legal.nonzero, ?_⟩
  rw [wpm_write_bind]
  refine ⟨legal.nonzero, ?_⟩
  rw [wpm_write_bind, Int.add_zero]
  refine ⟨last, ?_⟩
  change wpm _ _ _ (store (withHeader m₂ page 8192 0) ptr (buffer (fresh page).header 8) page)
  rw [wpm_pure]
  -- of the page header only the last list is written after the nine were cleared
  have after : ∀ x, (fresh page).header ≤ x → (x < buffer (fresh page).header 8 ∨ buffer (fresh page).header 8 + ptr ≤ x) →
      store (withHeader m₂ page 8192 0) ptr (buffer (fresh page).header 8) page x = m₂ x := by
    intro x low away
    rw [store_outside _ _ _ _ away, withHeader_outside _ _ _ (by omega)]
  have slot8 := slot 8 (by decide)
  -- the first two fields and the count lie apart from all nine lists
  have untouched : ∀ x, (fresh page).header ≤ x →
      (x < (fresh page).header + 2 * ptr ∨ (fresh page).header + 20 * ptr ≤ x) →
      store (withHeader m₂ page 8192 0) ptr (buffer (fresh page).header 8) page x =
        store (store (store m ptr (fresh page).header page) ptr ((fresh page).header + ptr) 0) 4
          ((fresh page).header + 20 * ptr) 0 x := by
    intro x low away
    rw [after x low (by omega), outside₂ x fun j bound => by have := slot j bound; omega,
      store_outside _ _ _ _ (by omega), outside₁ x (by omega)]
  have size : Fits 4 8192 := by constructor <;> norm_num
  refine ⟨rfl, ⟨legal, ⟨?_, ?_, ?_, ?_, ?_, ?_⟩, fresh_ok page⟩, ?_⟩
  · rw [load_congr fun x low high => untouched x (by omega) (by omega), load_store_of_disjoint _ _ (by omega),
      load_store_of_disjoint _ _ (by omega), load_store _ (legal.fits (le_refl _) (by omega))]
    rfl
  · rw [load_congr fun x low high => untouched x (by omega) (by omega), load_store_of_disjoint _ _ (by omega),
      load_store _ (fits_zero ptr)]
  · rw [load_congr fun x low high => untouched x (by omega) (by omega), load_store _ (fits_zero 4)]
    rfl
  · intro j bound
    have here := slot j (by omega)
    have apart := buffer_lt (fresh page).header (show j < 8 from bound)
    rw [load_congr fun x low high => (after x (by omega) (by omega)).trans
      ((outside₂ x fun i _ => buffer_between (fresh page).header i low (by omega)).trans
        (store_outside _ _ _ _ (by omega))), linked j bound]
  · rw [load_congr fun x low high => (after x (by omega) (by omega)).trans
      (outside₂ x fun i _ => buffer_between (fresh page).header i low (by omega)), load_store _ (fits_zero ptr)]
  · intro j bound
    by_cases last : j = 8
    · subst last
      rw [load_store _ (legal.fits (le_refl _) (by omega))]
      refine freeList_cons.mpr ⟨rfl, ?_, freeList_nil.mpr ?_⟩
      · rw [load_store_of_disjoint _ _ (by omega), withHeader_size _ size]
        rfl
      · rw [load_store_of_disjoint _ _ (by omega), withHeader_next _ (fits_zero ptr)]
    · have apart := buffer_lt (fresh page).header (show j < 8 from by omega)
      have here := slot j bound
      have empty : (fresh page).free j = [] := if_neg last
      rw [empty, freeList_nil, load_congr fun x low high => after x (by omega) (by omega)]
      exact cleared j bound
  · intro x away
    rw [store_outside _ _ _ _ (by omega), withHeader_outside _ _ _ (by omega),
      outside₂ x fun j bound => by have := slot j bound; omega, store_outside _ _ _ _ (by omega),
      outside₁ x (by omega), store_outside _ _ _ _ (by omega), store_outside _ _ _ _ (by omega),
      store_outside _ _ _ _ (by omega)]

end Eecs343.Kma.Buddy
