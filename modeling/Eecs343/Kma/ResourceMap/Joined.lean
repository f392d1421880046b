import Eecs343.Kma.ResourceMap.Coalesce

namespace Eecs343.Kma.ResourceMap

open Bytes Linked Tiling

variable [Target]

/-- The page with its neighbouring free blocks joined. -/
def Page.joined (P : Page) : Page := ⟨P.base, merge (· = .free) P.tiles⟩

def Page.Separate (P : Page) : Prop := Apart (· = .free) P.tiles

variable {a z page : Int} {P : Page} {t u : Block} {l tiles rest : List Block} {ps : List Page}

omit [Target] in
theorem merged_cons (none : ∀ v ∈ l.head?, ¬ Adjoins t v) : merged (t :: l) = t :: merged l := by
  cases l with
  | nil => simp [merged]
  | cons u l => rw [merged, if_neg (none u (by simp))]

omit [Target] in
theorem merged_tiles (tiled : Tiled a tiles z) (here : ∀ t ∈ tiles, baseAddr t.start = page)
    (other : ∀ t ∈ rest, baseAddr t.start ≠ page) :
    merged (tiles.filter (fun t => t.label = .free) ++ rest) =
      (merge (· = .free) tiles).filter (fun t => t.label = .free) ++ merged rest := by
  fun_induction Tiling.merge (· = Use.free) tiles generalizing a with
  | case1 t u l both ih =>
    obtain ⟨start, positive, next, more, tail⟩ := tiled
    have joined := ih (a := a) ⟨start, by dsimp only; omega, by rwa [Int.add_assoc] at tail⟩ fun v member => by
      rcases List.mem_cons.mp member with rfl | member
      · exact here t (by simp)
      · exact here v (by simp [member])
    rw [List.filter_cons_of_pos (by simpa using both.1), List.cons_append] at joined
    have adjoins : Adjoins t u := ⟨(here t (by simp)).trans (here u (by simp)).symm, by omega⟩
    rw [List.filter_cons_of_pos (by simpa using both.1), List.filter_cons_of_pos (by simpa using both.2),
      List.cons_append, List.cons_append, merged, if_pos adjoins]
    exact joined
  | case2 t u l single ih =>
    have joined := ih tiled.2.2 fun v member => here v (List.mem_cons_of_mem _ member)
    by_cases free : t.label = .free
    · have live : ¬ u.label = .free := fun other => single ⟨free, other⟩
      rw [List.filter_cons_of_pos (a := t) (by simpa using free), List.filter_cons_of_pos (a := t) (by simpa using free),
        List.cons_append, merged_cons, joined, List.cons_append]
      rw [List.filter_cons_of_neg (by simpa using live)]
      intro v member adjoins
      rcases List.mem_append.mp (List.mem_of_mem_head? member) with near | far
      · have inside := tiled.2.2.2.2.inside (List.mem_filter.mp near).1
        have := adjoins.2
        obtain ⟨start, _, _, positive, _⟩ := tiled
        omega
      · exact other v far (adjoins.1 ▸ here t (by simp))
    · rw [List.filter_cons_of_neg (a := t) (by simpa using free), List.filter_cons_of_neg (a := t) (by simpa using free)]
      exact joined
  | case3 l short =>
    rcases l with _ | ⟨t, _ | ⟨u, l⟩⟩
    · rfl
    · by_cases free : t.label = .free
      · rw [List.filter_cons_of_pos (by simpa using free), List.filter_nil, List.singleton_append, merged_cons]
        · rfl
        · intro v member adjoins
          exact other v (List.mem_of_mem_head? member) (adjoins.1 ▸ here t (by simp))
      · rw [List.filter_cons_of_neg (by simpa using free)]
        rfl
    · exact absurd rfl (short t u l)

theorem Ranked.merged (ranked : Ranked ps) : merged (freeList ps) = freeList (ps.map Page.joined) := by
  induction ps with
  | nil => simp [freeList, ResourceMap.merged]
  | cons P ps ih =>
    have sound := ranked.sound P List.mem_cons_self
    rw [List.map_cons, freeList_cons, freeList_cons, ← ih ranked.tail]
    refine merged_tiles sound.tiled (fun t member => sound.baseAddr member) fun t member => ?_
    obtain ⟨Q, memberQ, free⟩ := mem_freeList.mp member
    rw [(ranked.tail.sound Q memberQ).baseAddr (mem_free.mp free).1]
    have := (List.pairwise_cons.mp ranked.order).1 Q memberQ
    omega

theorem Sound.joined (sound : Sound P) : Sound P.joined := by
  refine ⟨sound.legal, sound.tiled.merge, fun t member stop => ?_, fun t member => ?_⟩
  · obtain ⟨u, inside, same, _, label⟩ := merge_stop sound.tiled member
    rcases label with label | label
    · exact label ▸ sound.tail u inside (same.trans stop)
    · exact label
  · obtain ⟨u, inside, same, shorter, _⟩ := merge_stop sound.tiled member
    have wide := sound.wide u inside
    change 2 * ptr ≤ t.size ∨ t.start + t.size = P.stop ∧ ptr ≤ t.size
    omega

theorem Ranked.joined (ranked : Ranked ps) : Ranked (ps.map Page.joined) := by
  refine ⟨fun Q member => ?_, List.pairwise_map.mpr ranked.order⟩
  obtain ⟨P, inside, rfl⟩ := List.mem_map.mp member
  exact (ranked.sound P inside).joined

omit [Target] in
theorem separate_joined (P : Page) : P.joined.Separate := merge_apart P.tiles

omit [Target] in
theorem live_joined (P : Page) : P.joined.live = P.live := by
  have same := merge_others (p := (· = Use.free)) P.tiles
  have live : ∀ t : Block, (¬ t.label = .free) ↔ t.label = .live := fun t => by
    rcases t with ⟨_, _, _ | _⟩ <;> simp
  simpa only [Page.live, Page.joined, live] using same

def Page.Empty (P : Page) : Prop := P.live = []

instance (P : Page) : Decidable P.Empty := inferInstanceAs (Decidable (_ = _))

omit [Target] in
theorem empty_joined (P : Page) : P.joined.Empty ↔ P.Empty := by
  unfold Page.Empty
  rw [live_joined]

end Eecs343.Kma.ResourceMap
