import Eecs343.Kma.ResourceMap.FreeCall
import Eecs343.Kma.ResourceMap.Search

namespace Eecs343.Kma.ResourceMap

open Bytes Effect Linked Tiling

variable [Target]

variable {s : Machine} {P : Page} {t : Block} {front back : List Block} {ps l r : List Page} {n : Int}
  {exc : Stop → Prop} {post : Int → Machine → Prop}

/-- The part of a free block that a request leaves. -/
def rest (n : Int) (t : Block) : Block := ⟨t.start + n, t.size - n, .free⟩

/-- The page after a request of `n` bytes from its free block `t`. -/
def Page.carved (base : Int) (front : List Block) (n : Int) (t : Block) (back : List Block) : Page :=
  ⟨base, front ++ ([⟨t.start, n, .live⟩, rest n t] ++ back)⟩

theorem exists_first_fit (found : ∃ t ∈ freeList ps, FitsIn n t) :
    ∃ l P r front t back, ps = l ++ P :: r ∧ P.tiles = front ++ t :: back ∧ t.label = .free ∧ FitsIn n t ∧
      ∀ u ∈ freeList l ++ front.filter (fun t => t.label = .free), ¬ FitsIn n u := by
  have somePage : (ps.find? fun P => P.free.any (FitsIn n ·)).isSome := by
    obtain ⟨t, member, fit⟩ := found
    obtain ⟨P, here, free⟩ := mem_freeList.mp member
    exact List.find?_isSome.mpr ⟨P, here, List.any_eq_true.mpr ⟨t, free, decide_eq_true fit⟩⟩
  obtain ⟨P, found⟩ := Option.isSome_iff_exists.mp somePage
  obtain ⟨fit, l, r, split, earlier⟩ := List.find?_eq_some_iff_append.mp found
  have someBlock : (P.tiles.find? fun t => t.label = .free ∧ FitsIn n t).isSome := by
    obtain ⟨t, free, fits⟩ := List.any_eq_true.mp fit
    obtain ⟨inside, label⟩ := mem_free.mp free
    exact List.find?_isSome.mpr ⟨t, inside, by simpa using ⟨label, of_decide_eq_true fits⟩⟩
  obtain ⟨t, found⟩ := Option.isSome_iff_exists.mp someBlock
  obtain ⟨fits, front, back, tiles, before⟩ := List.find?_eq_some_iff_append.mp found
  have fits : t.label = .free ∧ FitsIn n t := by simpa using fits
  refine ⟨l, P, r, front, t, back, split, tiles, fits.1, fits.2, fun u member fit => ?_⟩
  rcases List.mem_append.mp member with left | right
  · obtain ⟨Q, here, free⟩ := mem_freeList.mp left
    have none := earlier Q here
    rw [Bool.not_eq_true', List.any_eq_false] at none
    exact none u free (by simpa using fit)
  · obtain ⟨inside, free⟩ := List.mem_filter.mp right
    have none := before u inside
    have label : u.label = .free := by simpa using free
    simp [label, fit] at none

theorem Sound.carved (sound : Sound P) (split : P.tiles = front ++ t :: back) (low : 2 * ptr ≤ n) (fit : FitsIn n t) :
    Sound (Page.carved P.base front n t back) := by
  have bounds := ptr_bounds
  unfold FitsIn at fit
  have member : t ∈ P.tiles := by rw [split]; simp
  have inside := sound.inside member
  have stop := stop_eq P
  refine sound.replace (m := [⟨t.start, n, .live⟩, rest n t]) split ⟨rfl, by dsimp only; omega, rfl, ?_, ?_⟩ ?_ ?_
  · change 0 < t.size - n
    omega
  · change t.start + n + (t.size - n) = t.start + t.size
    omega
  · intro u member stops
    rcases List.mem_cons.mp member with rfl | member
    · dsimp only at stops
      omega
    · rw [List.mem_singleton.mp member]
      rfl
  · intro u member
    rcases List.mem_cons.mp member with rfl | member
    · exact .inl low
    · rw [List.mem_singleton.mp member]
      change 2 * ptr ≤ t.size - n ∨ _
      omega

/-- `find_first_fit` gives the front of the first block that has room. -/
theorem findFirstFit_carve (heap : Heap s ps) (low : 2 * ptr ≤ n) (high : n ≤ 8192)
    (found : ∃ t ∈ freeList ps, FitsIn n t)
    (done : ∀ l P r front t back m', ps = l ++ P :: r → P.tiles = front ++ t :: back → t.label = .free →
      FitsIn n t → Heap { s with headers := (t.start + n) :: s.headers, memory := m' }
        (l ++ Page.carved P.base front n t back :: r) →
      post t.start { s with headers := (t.start + n) :: s.headers, memory := m' }) :
    wp (findFirstFit n) post exc s := by
  have bounds := ptr_bounds
  obtain ⟨l, P, r, front, t, back, rfl, split, free, fit, none⟩ := exists_first_fit found
  have sound := heap.ranked.sound P (by simp)
  have ranked := heap.ranked.update (sound.carved split low fit) rfl
  have bases : (l ++ Page.carved P.base front n t back :: r).map Page.base = (l ++ P :: r).map Page.base := by
    simp [Page.carved]
  have spread := heap.spread (by simp)
  have spread' := heap.spread_of (by simp) ranked bases
  have listed := heap.listed (by simp)
  have before : freeList (l ++ P :: r) =
      (freeList l ++ front.filter (fun t => t.label = .free)) ++ t ::
        (back.filter (fun t => t.label = .free) ++ freeList r) := by
    have page : P = ⟨P.base, front ++ t :: back⟩ := by rw [← split]
    rw [freeList_append, freeList_cons, page, free_split, if_pos free]
    simp
  have after : freeList (l ++ Page.carved P.base front n t back :: r) =
      (freeList l ++ front.filter (fun t => t.label = .free)) ++ rest n t ::
        (back.filter (fun t => t.label = .free) ++ freeList r) := by
    have page : Page.carved P.base front n t back = ⟨P.base, front ++ ⟨t.start, n, .live⟩ :: rest n t :: back⟩ := rfl
    rw [freeList_append, freeList_cons, page, free_split, if_neg (by simp),
      List.filter_cons_of_pos (a := rest n t) (by simp [rest])]
    simp
  rw [before] at listed spread
  have placed := spread'
  rw [after] at placed
  refine findFirstFit_takes (by omega) high none fit listed spread placed fun m' listed' outside => ?_
  refine done l P r front t back m' rfl split free fit
    (heap.update _ ranked bases (fun _ => after ▸ listed') fun page member x least most => ?_)
  obtain ⟨away, headers⟩ := heap.clear member least most
  have far := headers _ ranked bases
  rw [after] at far
  exact outside x (far (rest n t) (by simp)) (link_inside away fun v free => far v (List.mem_append_left _ free))

theorem findFirstFit_none (heap : Heap s ps) (some : ps ≠ []) (low : 0 < n) (high : n ≤ 8192)
    (none : ∀ t ∈ freeList ps, ¬ FitsIn n t) (new : wp (newPage n) post exc s) : wp (findFirstFit n) post exc s :=
  findFirstFit_asks low high none (heap.listed some) (heap.spread some) new

end Eecs343.Kma.ResourceMap
