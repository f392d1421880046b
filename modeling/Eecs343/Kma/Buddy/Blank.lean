import Eecs343.Kma.Buddy.Heap

namespace Eecs343.Kma.Buddy

open Bytes Effect Linked

variable [Target]

variable {s t : Machine} {m m' : Memory} {P Q : Page} {room : Int → Set Int} {next page b : Int} {j k : Nat}
  {ps l r : List Page} {exc : Stop → Prop}

def headerClass : Nat := sizeClass sizeofPageheader

theorem headerClass_cases : (ptr = 4 ∧ headerClass = 2) ∨ (ptr = 8 ∧ headerClass = 3) := by
  unfold headerClass sizeofPageheader
  rcases Target.ptr_cases with h | h <;> rw [h] <;> simp [sizeClass]

theorem headerClass_size : blockSize headerClass = 32 * ptr := by
  rcases headerClass_cases with ⟨h, c⟩ | ⟨h, c⟩ <;> rw [c, h] <;> rfl

theorem headerClass_lt : headerClass < 8 := by
  rcases headerClass_cases with ⟨_, c⟩ | ⟨_, c⟩ <;> omega

def openRoom (page : Int) : Set Int := {x | page + 32 * ptr ≤ x ∧ x < page + 8192}

/-- A new page with the block of its header carved. -/
def blank (page : Int) : Page :=
  halves page headerClass (8 - headerClass) ((fresh page).setList (headerClass + (8 - headerClass)) [])

theorem headerClass_top : headerClass + (8 - headerClass) = 8 := by
  have := headerClass_lt
  omega

theorem fresh_whole (page : Int) : (fresh page).free (headerClass + (8 - headerClass)) = [page] := by
  rw [headerClass_top]
  rfl

theorem fresh_lower (page : Int) : ∀ x < 8 - headerClass, (fresh page).free (headerClass + x) = [] := by
  intro x less
  exact if_neg (by omega)

theorem fresh_beyond (page : Int) : (fresh page).base + 32 * ptr ≤ page + blockSize headerClass := by
  rw [headerClass_size]
  exact le_refl _

theorem blank_carved (page : Int) : Carved (fresh page) headerClass page (blank page) :=
  .mk (by rw [headerClass_top]; decide) (fresh_whole page) (fresh_lower page)

@[simp] theorem blank_base (page : Int) : (blank page).base = page := (blank_carved page).base

@[simp] theorem blank_used (page : Int) : (blank page).used = 0 := (blank_carved page).used

theorem blank_header (page : Int) : (blank page).header = page + 3 * ptr := by rw [header_eq, blank_base]

theorem carved_blank (carved : Carved (fresh page) headerClass b P) : b = page ∧ P = blank page := by
  cases carved with
  | @mk i rest bound list lower =>
    have top : i = 8 - headerClass := by
      by_contra ne
      have last : ¬ headerClass + i = 8 := by
        have := headerClass_top
        omega
      simp [fresh, last] at list
    subst top
    rw [fresh_whole] at list
    cases list
    exact ⟨rfl, rfl⟩

theorem blank_ok (page : Int) : (blank page).Ok (openRoom page) := by
  have spare := (blank_carved page).spare (fresh_ok page) (fresh_beyond page)
  refine spare.taken.change fun k _ b _ x old _ _ => ?_
  obtain ⟨⟨above, below⟩, outside⟩ := old
  refine ⟨?_, below⟩
  by_contra inside
  exact outside ⟨above, by rw [headerClass_size]; omega⟩

omit [Target] in
theorem halves_free {i : Nat} (j : Nat) :
    (halves b k i P).free j = if k ≤ j ∧ j < k + i then [b + blockSize j] else P.free j := by
  induction i generalizing P with
  | zero => rw [if_neg (by omega)]; rfl
  | succ i ih =>
    rw [halves, ih]
    by_cases same : j = k + i
    · subst same
      rw [if_neg (by omega), Page.setList_self, if_pos (by omega)]
    · rw [Page.setList_ne _ _ same]
      by_cases inside : k ≤ j ∧ j < k + i
      · rw [if_pos inside, if_pos (by omega)]
      · rw [if_neg inside, if_neg (by omega)]

theorem blank_free (page : Int) (j : Nat) :
    (blank page).free j = if headerClass ≤ j ∧ j < 8 then [page + blockSize j] else [] := by
  have top := headerClass_top
  have same : headerClass ≤ j ∧ j < headerClass + (8 - headerClass) ↔ headerClass ≤ j ∧ j < 8 := by rw [top]
  rw [blank, halves_free, if_congr same rfl rfl, top]
  by_cases last : j = 8
  · subst last
    rw [Page.setList_self]
  · rw [Page.setList_ne _ _ last]
    simp [fresh, last]

theorem blank_last {j : Nat} (last : 8 ≤ j) (page : Int) : (blank page).free j = [] := by
  rw [blank_free, if_neg (by omega)]

theorem blank_serves (page : Int) (bound : k < 8) : ∃ x, k + x < 9 ∧ (blank page).free (k + x) ≠ [] := by
  have less := headerClass_lt
  refine ⟨max k headerClass - k, by omega, ?_⟩
  rw [blank_free, if_pos (by omega)]
  exact List.cons_ne_nil _ _

theorem openRoom_inside (page x : Int) (member : x ∈ openRoom page) : page ≤ x ∧ x < page + 8192 := by
  have := ptr_bounds
  obtain ⟨low, high⟩ := member
  omega

theorem openRoom_reserved (page : Int) : page ∉ openRoom page := by
  have := ptr_bounds
  intro ⟨low, _⟩
  omega

theorem firstList_spec {room : Set Int} {n d i : Nat} (sound : Sound m room P next) (enough : d < n) (bound : j + d < 9)
    (lower : ∀ x < d, P.free (j + x) = []) (some : P.free (j + d) ≠ []) :
    wpm (firstList n i (buffer P.header j)) (fun r m' => m' = m ∧ r = (i + d, buffer P.header (j + d))) s m := by
  induction n generalizing d i j with
  | zero => cases enough
  | succ n ih =>
    have nonzero := buffer_ne sound.legal (k := j) (by omega)
    have start := (sound.rep.lists j (by omega)).head
    unfold firstList
    rw [wpm_pos nonzero, wpm_read_bind, Int.add_zero, start]
    refine ⟨nonzero, ?_⟩
    cases d with
    | zero =>
      obtain ⟨b, rest, list⟩ := List.exists_cons_of_ne_nil some
      have here : P.free j = b :: rest := list
      have member : b ∈ P.free j := by simp [here]
      rw [here, List.headD_cons, wpm_neg (Sound.block sound.legal (sound.ok.holds j (by omega) b member)).1, wpm_pure]
      exact ⟨rfl, rfl⟩
    | succ d =>
      have none : P.free j = [] := lower 0 (by omega)
      have up : slot P.header (j + 1) = buffer P.header (j + 1) := if_pos (by omega)
      rw [none, List.headD_nil, wpm_pos rfl, wpm_read_bind, sound.rep.nextSlot (by omega), up]
      refine ⟨nonzero, wpm_mono (ih (d := d) (by omega) (by omega) (fun x less => ?_) ?_) ?_⟩
      · rw [Nat.add_right_comm]
        exact lower (x + 1) (by omega)
      · rw [Nat.add_right_comm]
        exact some
      · rintro r m' ⟨rfl, rfl⟩
        refine ⟨rfl, ?_⟩
        rw [Nat.add_right_comm i 1 d, Nat.add_right_comm j 1 d]
        rfl

end Eecs343.Kma.Buddy
