import Eecs343.Kma.ResourceMap.Chain

namespace Eecs343.Kma.ResourceMap

open Bytes Linked Tiling

variable [Target]

/-- A page in use, cut into blocks. -/
structure Page where
  base : Int
  tiles : List Block

/-- Where the blocks of a page end, one pointer before the next page. -/
def Page.stop (P : Page) : Int := P.base + ptr + realPageSize

def Page.free (P : Page) : List Block := P.tiles.filter fun t => t.label = .free

def Page.live (P : Page) : List Block := P.tiles.filter fun t => t.label = .live

def freeList (ps : List Page) : List Block := ps.flatMap Page.free

/-- The blocks of a page have its range between them, without the first word. The last one is free;
    it has room for a pointer, and every other for a header. -/
structure Sound (P : Page) : Prop where
  legal : Legal P.base
  tiled : Tiled (P.base + ptr) P.tiles P.stop
  tail : ∀ t ∈ P.tiles, t.start + t.size = P.stop → t.label = .free
  wide : ∀ t ∈ P.tiles, 2 * ptr ≤ t.size ∨ t.start + t.size = P.stop ∧ ptr ≤ t.size

/-- The pages in use, in the order of their addresses. -/
structure Ranked (ps : List Page) : Prop where
  sound : ∀ P ∈ ps, Sound P
  order : ps.Pairwise fun (P Q : Page) => P.base < Q.base

variable {P Q : Page} {t u : Block} {ps qs l r m : List Block}

theorem stop_eq (P : Page) : P.stop = P.base + 8192 - ptr := by
  unfold Page.stop realPageSize sizeofBlockheader
  omega

omit [Target] in
theorem mem_free : t ∈ P.free ↔ t ∈ P.tiles ∧ t.label = .free := by simp [Page.free]

omit [Target] in
theorem mem_live : t ∈ P.live ↔ t ∈ P.tiles ∧ t.label = .live := by simp [Page.live]

omit [Target] in
theorem mem_freeList {ps : List Page} : t ∈ freeList ps ↔ ∃ P ∈ ps, t ∈ P.free := List.mem_flatMap

omit [Target] in
theorem freeList_append (ps qs : List Page) : freeList (ps ++ qs) = freeList ps ++ freeList qs := List.flatMap_append

omit [Target] in
theorem freeList_cons (P : Page) (ps : List Page) : freeList (P :: ps) = P.free ++ freeList ps := List.flatMap_cons

theorem Sound.inside (sound : Sound P) (member : t ∈ P.tiles) :
    P.base + ptr ≤ t.start ∧ t.start + 2 * ptr ≤ P.base + 8192 ∧ t.start + t.size ≤ P.base + 8192 - ptr ∧ ptr ≤ t.size := by
  have := ptr_bounds
  have := sound.tiled.inside member
  have wide := sound.wide t member
  rw [stop_eq] at *
  omega

theorem Sound.baseAddr (sound : Sound P) (member : t ∈ P.tiles) : baseAddr t.start = P.base := by
  have := ptr_bounds
  have := sound.inside member
  exact sound.legal.baseAddr (by omega) (by omega)

theorem Sound.ordered (sound : Sound P) : P.tiles.Pairwise fun (t u : Block) => t.start + 2 * ptr ≤ u.start := by
  have := ptr_bounds
  refine sound.tiled.ordered.imp_of_mem fun {t u} memberT memberU order => ?_
  have := sound.inside memberU
  have wide := sound.wide t memberT
  rw [stop_eq] at wide
  omega

theorem Sound.last (sound : Sound P) : ∃ front t, P.tiles = front ++ [t] ∧ t.label = .free ∧ t.start + t.size = P.stop := by
  have := ptr_bounds
  rcases List.eq_nil_or_concat P.tiles with none | ⟨front, t, some⟩
  · have empty := sound.tiled
    rw [none, tiled_nil, stop_eq] at empty
    omega
  · rw [List.concat_eq_append] at some
    have tiled := sound.tiled
    rw [some] at tiled
    obtain ⟨b, _, start, _, stop⟩ := tiled_append.mp tiled
    rw [tiled_nil, ← start] at stop
    exact ⟨front, t, some, sound.tail t (by rw [some]; simp) stop, stop⟩

theorem Sound.replace (sound : Sound P) (split : P.tiles = l ++ t :: r)
    (same : Tiled t.start m (t.start + t.size)) (tail : ∀ u ∈ m, u.start + u.size = P.stop → u.label = .free)
    (wide : ∀ u ∈ m, 2 * ptr ≤ u.size ∨ u.start + u.size = P.stop ∧ ptr ≤ u.size) :
    Sound ⟨P.base, l ++ (m ++ r)⟩ := by
  have kept : ∀ {u}, u ∈ l ++ (m ++ r) → u ∈ P.tiles ∨ u ∈ m := by
    intro u member
    rw [split]
    simp at member ⊢
    tauto
  refine ⟨sound.legal, ?_, fun u member stop => ?_, fun u member => ?_⟩
  · have tiled := sound.tiled
    rw [split] at tiled
    exact tiled.replace same
  · rcases kept member with old | new
    · exact sound.tail u old stop
    · exact tail u new stop
  · rcases kept member with old | new
    · exact sound.wide u old
    · exact wide u new

theorem Ranked.tail {ps : List Page} (ranked : Ranked (P :: ps)) : Ranked ps :=
  ⟨fun Q member => ranked.sound Q (List.mem_cons_of_mem _ member), (List.pairwise_cons.mp ranked.order).2⟩

theorem Ranked.sublist {ps qs : List Page} (ranked : Ranked ps) (sub : qs.Sublist ps) : Ranked qs :=
  ⟨fun Q member => ranked.sound Q (sub.subset member), ranked.order.sublist sub⟩

theorem Ranked.update {ps qs : List Page} (ranked : Ranked (ps ++ P :: qs)) (sound : Sound Q) (base : Q.base = P.base) :
    Ranked (ps ++ Q :: qs) := by
  refine ⟨forall_replaced ranked.sound fun _ => sound, pairwise_replaced ranked.order ?_ ?_⟩
  · intro R before
    rwa [base]
  · intro R after
    rwa [base]

theorem Ranked.apart {ps : List Page} (ranked : Ranked ps) :
    ps.Pairwise fun (P Q : Page) => P.base + 8192 ≤ Q.base := by
  refine ranked.order.imp_of_mem fun {P Q} memberP memberQ order => ?_
  have := (ranked.sound P memberP).legal.apart (ranked.sound Q memberQ).legal (by omega)
  omega

theorem Ranked.spread {ps : List Page} (ranked : Ranked (P :: ps)) : Spread P.base (freeList (P :: ps)) := by
  have bounds := ptr_bounds
  have home : ∀ t ∈ freeList (P :: ps), ∃ Q, Sound Q ∧ P.base ≤ Q.base ∧ t ∈ Q.tiles := by
    intro t member
    obtain ⟨Q, memberQ, free⟩ := mem_freeList.mp member
    refine ⟨Q, ranked.sound Q memberQ, ?_, (mem_free.mp free).1⟩
    rcases List.mem_cons.mp memberQ with rfl | later
    · exact Int.le_refl _
    · exact Int.le_of_lt ((List.pairwise_cons.mp ranked.order).1 Q later)
  refine ⟨(ranked.sound P List.mem_cons_self).legal.nonzero, fun t member => ?_, ?_, fun t member => ?_, fun t member => ?_⟩
  · obtain ⟨Q, sound, above, here⟩ := home t member
    have := sound.inside here
    omega
  · refine List.pairwise_flatMap.mpr ⟨fun Q member => (ranked.sound Q member).ordered.filter _, ?_⟩
    refine ranked.apart.imp_of_mem fun {Q R} memberQ memberR apart t freeT u freeU => ?_
    have := (ranked.sound Q memberQ).inside (mem_free.mp freeT).1
    have := (ranked.sound R memberR).inside (mem_free.mp freeU).1
    omega
  · obtain ⟨Q, sound, _, here⟩ := home t member
    have := sound.inside here
    exact sound.legal.ne_zero (by omega) (by omega)
  · obtain ⟨Q, sound, _, here⟩ := home t member
    have := sound.inside here
    have limit : (256 ^ 2 : Nat) = 65536 := rfl
    exact ⟨sound.legal.fits (by omega) (by omega), by omega, by omega⟩

theorem Ranked.beside {ps : List Page} (ranked : Ranked ps) (member : P ∈ ps) (free : t ∈ freeList ps) :
    P.base + ptr ≤ t.start ∨ t.start + 2 * ptr ≤ P.base := by
  have := ptr_bounds
  obtain ⟨Q, memberQ, here⟩ := mem_freeList.mp free
  have := (ranked.sound Q memberQ).inside (mem_free.mp here).1
  by_cases same : P.base = Q.base
  · omega
  · have := (ranked.sound P member).legal.apart (ranked.sound Q memberQ).legal same
    omega

theorem Sound.free_ne (sound : Sound P) : P.free ≠ [] := by
  obtain ⟨front, t, split, free, _⟩ := sound.last
  have member : t ∈ P.free := mem_free.mpr ⟨by rw [split]; simp, free⟩
  exact List.ne_nil_of_mem member

theorem Ranked.head_base {ps : List Page} (ranked : Ranked (P :: ps)) :
    baseAddr (head (freeList (P :: ps))) = P.base := by
  have sound := ranked.sound P List.mem_cons_self
  obtain ⟨t, rest, first⟩ := List.exists_cons_of_ne_nil sound.free_ne
  have member : t ∈ P.free := by simp [first]
  rw [freeList_cons, first, List.cons_append, head_cons]
  exact sound.baseAddr (mem_free.mp member).1

theorem Ranked.freeList_ne {ps : List Page} (ranked : Ranked ps) (some : ps ≠ []) : freeList ps ≠ [] := by
  obtain ⟨P, ps, rfl⟩ := List.exists_cons_of_ne_nil some
  rw [freeList_cons]
  exact List.append_ne_nil_of_left_ne_nil (ranked.sound P List.mem_cons_self).free_ne _

end Eecs343.Kma.ResourceMap
