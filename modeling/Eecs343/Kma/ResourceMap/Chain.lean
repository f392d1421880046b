import Eecs343.Base.Linked
import Eecs343.Base.Tiling
import Eecs343.Kma.Memory
import Eecs343.Kma.ResourceMap.Program

namespace Eecs343.Kma.ResourceMap

open Bytes Effect Linked Tiling

variable [Target]

inductive Use where
  | live
  | free
  deriving DecidableEq

abbrev Block := Tile Use

def head (l : List Block) : Int := (l.map Tile.start).headD 0

def last (l : List Block) : Int := (l.map Tile.start).getLastD 0

/-- The word that leads to the blocks behind `l`. -/
def link (slot : Int) (l : List Block) : Int := if l = [] then slot else last l + ptr

/-- The word at `slot` and the links in the headers lead through the free blocks of `l`, and the
    headers have their sizes. -/
structure Listed (m : Memory) (slot : Int) (l : List Block) : Prop where
  path : Path (fun a => load m ptr (a + ptr)) (load m ptr slot) (l.map Tile.start) 0
  size : ∀ t ∈ l, load m 2 t.start = t.size

/-- The headers lie in ascending order behind the word at `slot`, apart from each other. -/
structure Spread (slot : Int) (l : List Block) : Prop where
  start : slot ≠ 0
  behind : ∀ t ∈ l, slot + ptr ≤ t.start
  order : l.Pairwise fun (t u : Block) => t.start + 2 * ptr ≤ u.start
  nonzero : ∀ t ∈ l, t.start ≠ 0
  fits : ∀ t ∈ l, Fits ptr t.start ∧ Fits 2 t.size

variable {m m' : Memory} {slot k : Int} {t u : Block} {l pre mid post : List Block}

omit [Target] in
@[simp] theorem head_cons : head (t :: l) = t.start := rfl

omit [Target] in
@[simp] theorem last_concat : last (l ++ [t]) = t.start := by simp [last]

@[simp] theorem link_nil : link slot [] = slot := rfl

@[simp] theorem link_concat : link slot (l ++ [t]) = t.start + ptr := by simp [link]

theorem Spread.sublist (spread : Spread slot l) {r : List Block} (sub : r.Sublist l) : Spread slot r :=
  ⟨spread.start, fun t member => spread.behind t (sub.subset member), spread.order.sublist sub,
    fun t member => spread.nonzero t (sub.subset member), fun t member => spread.fits t (sub.subset member)⟩

theorem head_fits (spread : Spread slot l) : Fits ptr (head l) := by
  cases l with
  | nil => exact fits_zero ptr
  | cons t l => exact (spread.fits t List.mem_cons_self).1

theorem head_ne (spread : Spread slot l) (some : l ≠ []) : head l ≠ 0 := by
  cases l with
  | nil => exact absurd rfl some
  | cons t l => exact spread.nonzero t List.mem_cons_self

omit [Target] in
theorem short_of_spaced {a z : Int} (order : l.Pairwise fun (t u : Block) => t.start + 8 ≤ u.start)
    (inside : ∀ t ∈ l, a ≤ t.start ∧ t.start < z) (some : a ≤ z + 8) : 8 * (l.length : Int) ≤ z + 8 - a := by
  induction l generalizing a with
  | nil => simpa using some
  | cons t l ih =>
    obtain ⟨after, rest⟩ := List.pairwise_cons.mp order
    have here := inside t List.mem_cons_self
    have shorter :=
      ih (a := t.start + 8) rest (fun u member => ⟨after u member, (inside u (List.mem_cons_of_mem _ member)).2⟩)
      (by omega)
    rw [List.length_cons]
    omega

theorem Spread.short {slot : Int} (spread : Spread slot l) : l.length < fuel := by
  have bounds := ptr_bounds
  have top : (256 ^ ptr : Nat) ≤ 2 ^ 64 := by
    rcases Target.ptr_cases with h | h <;> rw [h] <;> decide
  have counted := short_of_spaced (a := -2 ^ 63) (z := 2 ^ 63) (spread.order.imp fun apart => by omega)
    (fun t member => by
      obtain ⟨low, high⟩ := (spread.fits t member).1
      omega) (by norm_num)
  unfold fuel
  omega

theorem Listed.frame (listed : Listed m slot l) (first : load m' ptr slot = load m ptr slot)
    (same : ∀ t ∈ l, ∀ x, t.start ≤ x → x < t.start + 2 * ptr → m' x = m x) : Listed m' slot l := by
  have := ptr_bounds
  refine ⟨?_, fun t member => ?_⟩
  · rw [first]
    refine listed.path.congr fun a member => ?_
    obtain ⟨t, inside, rfl⟩ := List.mem_map.mp member
    exact load_congr fun x low high => same t inside x (by omega) (by omega)
  · rw [← listed.size t member]
    exact load_congr fun x low high => same t member x (by omega) (by omega)

theorem Listed.tail (listed : Listed m slot (pre ++ post)) :
    Path (fun a => load m ptr (a + ptr)) (head post) (post.map Tile.start) 0 := by
  have path := listed.path
  rw [List.map_append] at path
  obtain ⟨r, _, rest⟩ := path_append.mp path
  have start := rest.start
  rw [start] at rest
  exact rest

theorem Spread.link_le (spread : Spread slot (pre ++ t :: post)) : link slot pre + ptr ≤ t.start := by
  rcases List.eq_nil_or_concat pre with rfl | ⟨pre, v, rfl⟩
  · exact spread.behind t (by simp)
  · have before := (List.pairwise_append.mp spread.order).2.2 v (by simp) t List.mem_cons_self
    rw [List.concat_eq_append, link_concat]
    omega

theorem Listed.splice (mid : List Block) (listed : Listed m slot (pre ++ (mid ++ post)))
    (spread : Spread slot (pre ++ t :: post))
    (size : load m' 2 t.start = t.size) (next : load m' ptr (t.start + ptr) = head post)
    (linked : load m' ptr (link slot pre) = t.start)
    (outside : ∀ x, (x < t.start ∨ t.start + 2 * ptr ≤ x) → (x < link slot pre ∨ link slot pre + ptr ≤ x) → m' x = m x) :
    Listed m' slot (pre ++ t :: post) := by
  have := ptr_bounds
  have before := spread.link_le
  obtain ⟨_, after, cross⟩ := List.pairwise_append.mp spread.order
  have behind : ∀ u ∈ post, ∀ x, u.start ≤ x → x < u.start + 2 * ptr → m' x = m x := fun u member x low high => by
    have := (List.pairwise_cons.mp after).1 u member
    exact outside x (by omega) (by omega)
  have rest : Path (fun a => load m' ptr (a + ptr)) (load m' ptr (t.start + ptr)) (post.map Tile.start) 0 := by
    rw [← List.append_assoc] at listed
    rw [next]
    refine listed.tail.congr fun a member => ?_
    obtain ⟨u, inside, rfl⟩ := List.mem_map.mp member
    exact load_congr fun x low high => behind u inside x (by omega) (by omega)
  have sizes : ∀ u ∈ post, load m' 2 u.start = u.size := fun u member => by
    rw [← listed.size u (by simp [member])]
    exact load_congr fun x low high => behind u member x (by omega) (by omega)
  rcases List.eq_nil_or_concat pre with rfl | ⟨pre, v, rfl⟩
  · refine ⟨⟨linked, rest⟩, fun u member => ?_⟩
    rcases List.mem_cons.mp member with rfl | member
    · exact size
    · exact sizes u member
  · rw [List.concat_eq_append] at *
    rw [link_concat] at before linked outside
    have slotLe := spread.behind v (by simp)
    have earlier : ∀ u ∈ pre, u.start + 2 * ptr ≤ v.start :=
      fun u member => (List.pairwise_append.mp (List.pairwise_append.mp spread.order).1).2.2 u member v (by simp)
    have kept : ∀ u ∈ pre, ∀ x, u.start ≤ x → x < u.start + 2 * ptr → m' x = m x := fun u member x low high => by
      have := earlier u member
      exact outside x (by omega) (by omega)
    refine ⟨?_, fun u member => ?_⟩
    · have path := listed.path
      rw [List.append_assoc, List.map_append, List.singleton_append, List.map_cons] at path ⊢
      rw [load_congr fun x low high => outside x (by omega) (by omega)]
      refine path.relink (fun a member => ?_) ⟨linked, rest⟩
      obtain ⟨u, inside, rfl⟩ := List.mem_map.mp member
      exact load_congr fun x low high => kept u inside x (by omega) (by omega)
    · have here : u ∈ pre ∨ u = v ∨ u = t ∨ u ∈ post := by simpa using member
      rcases here with member | rfl | rfl | member
      · rw [← listed.size u (by simp [member])]
        exact load_congr fun x low high => kept u member x (by omega) (by omega)
      · rw [← listed.size u (by simp)]
        exact load_congr fun x low high => outside x (by omega) (by omega)
      · exact size
      · exact sizes u member

theorem Listed.unlink (listed : Listed m slot (pre ++ (mid ++ post))) (spread : Spread slot (pre ++ post))
    (linked : load m' ptr (link slot pre) = head post)
    (outside : ∀ x, (x < link slot pre ∨ link slot pre + ptr ≤ x) → m' x = m x) : Listed m' slot (pre ++ post) := by
  have := ptr_bounds
  rcases List.eq_nil_or_concat pre with rfl | ⟨pre, v, rfl⟩
  · rw [link_nil] at linked outside
    have kept : ∀ u ∈ post, ∀ x, u.start ≤ x → x < u.start + 2 * ptr → m' x = m x := fun u member x low high => by
      have := spread.behind u member
      exact outside x (by omega)
    refine ⟨?_, fun u member => ?_⟩
    · rw [linked]
      rw [List.nil_append] at listed
      refine listed.tail.congr fun a member => ?_
      obtain ⟨u, inside, rfl⟩ := List.mem_map.mp member
      exact load_congr fun x low high => kept u inside x (by omega) (by omega)
    · rw [← listed.size u (by simp at member ⊢; tauto)]
      exact load_congr fun x low high => kept u member x (by omega) (by omega)
  · rw [List.concat_eq_append] at *
    rw [link_concat] at linked outside
    have slotLe := spread.behind v (by simp)
    obtain ⟨first, _, cross⟩ := List.pairwise_append.mp spread.order
    have earlier : ∀ u ∈ pre, u.start + 2 * ptr ≤ v.start := fun u member =>
      (List.pairwise_append.mp first).2.2 u member v (by simp)
    have later : ∀ u ∈ post, v.start + 2 * ptr ≤ u.start := fun u member => cross v (by simp) u member
    have kept : ∀ u ∈ pre ++ post, ∀ x, u.start ≤ x → x < u.start + 2 * ptr → m' x = m x := fun u member x low high => by
      rcases List.mem_append.mp member with left | right
      · have := earlier u left
        exact outside x (by omega)
      · have := later u right
        exact outside x (by omega)
    refine ⟨?_, fun u member => ?_⟩
    · have path := listed.path
      have rest : Path (fun a => load m' ptr (a + ptr)) (load m' ptr (v.start + ptr)) (post.map Tile.start) 0 := by
        rw [linked]
        rw [← List.append_assoc] at listed
        refine listed.tail.congr fun a member => ?_
        obtain ⟨u, inside, rfl⟩ := List.mem_map.mp member
        exact load_congr fun x low high => kept u (List.mem_append_right _ inside) x (by omega) (by omega)
      rw [List.append_assoc, List.map_append, List.singleton_append, List.map_cons] at path ⊢
      rw [load_congr fun x low high => outside x (by omega)]
      refine path.relink (fun a member => ?_) rest
      obtain ⟨u, inside, rfl⟩ := List.mem_map.mp member
      exact load_congr fun x low high => kept u (List.mem_append_left _ inside) x (by omega) (by omega)
    · rw [← listed.size u (by simp at member ⊢; tauto)]
      rw [List.append_assoc, List.singleton_append] at member
      rcases mem_replace member with rfl | other
      · exact load_congr fun x low high => outside x (by omega)
      · exact load_congr fun x low high => kept u other x (by omega) (by omega)

end Eecs343.Kma.ResourceMap
