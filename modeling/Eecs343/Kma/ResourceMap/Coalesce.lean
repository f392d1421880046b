import Eecs343.Kma.ResourceMap.Page
import Eecs343.Kma.ResourceMap.Walk

namespace Eecs343.Kma.ResourceMap

open Bytes Effect Linked Tiling

variable [Target]

/-- `u` begins where `t` ends, on the same page. -/
def Adjoins (t u : Block) : Prop := baseAddr t.start = baseAddr u.start ∧ u.start - (t.start + t.size) = 0

omit [Target] in
instance (t u : Block) : Decidable (Adjoins t u) := inferInstanceAs (Decidable (_ ∧ _))

/-- The list of free blocks after `coalesce`. -/
def merged : List Block → List Block
  | t :: u :: l => if Adjoins t u then merged (⟨t.start, t.size + u.size, t.label⟩ :: l) else t :: merged (u :: l)
  | l => l
termination_by l => l.length

variable {s : Machine} {m m' : Memory} {slot a z : Int} {k : Nat} {P : Page} {t u : Block} {l tiles pre rest : List Block}
  {exc : Stop → Prop}

theorem Listed.linked (listed : Listed m slot (pre ++ t :: rest)) : load m ptr (link slot pre) = t.start := by
  rcases List.eq_nil_or_concat pre with rfl | ⟨pre, v, rfl⟩
  · exact listed.path.1
  · rw [List.concat_eq_append] at *
    rw [List.append_assoc] at listed
    rw [link_concat]
    exact listed.header.2

theorem Spread.resize (spread : Spread slot (pre ++ t :: l)) (start : u.start = t.start) (fits : Fits 2 u.size) :
    Spread slot (pre ++ u :: l) := by
  have here : ∀ {v}, v ∈ pre ++ u :: l → v = u ∨ v ∈ pre ++ t :: l := by
    intro v member
    simp at member ⊢
    tauto
  refine ⟨spread.start, fun v member => ?_, ?_, fun v member => ?_, fun v member => ?_⟩
  · rcases here member with rfl | old
    · exact start ▸ spread.behind t (by simp)
    · exact spread.behind v old
  · have order := spread.order
    rw [List.pairwise_append, List.pairwise_cons] at order ⊢
    obtain ⟨left, ⟨after, right⟩, cross⟩ := order
    refine ⟨left, ⟨fun v member => start ▸ after v member, right⟩, fun v member w other => ?_⟩
    rcases List.mem_cons.mp other with rfl | other
    · exact start ▸ cross v member t List.mem_cons_self
    · exact cross v member w (List.mem_cons_of_mem _ other)
  · rcases here member with rfl | old
    · exact start ▸ spread.nonzero t (by simp)
    · exact spread.nonzero v old
  · rcases here member with rfl | old
    · exact ⟨start ▸ (spread.fits t (by simp)).1, fits⟩
    · exact spread.fits v old

/-- A block with its neighbour behind it joined. -/
def join (t u : Block) : Block := ⟨t.start, t.size + u.size, t.label⟩

theorem Listed.join (listed : Listed m slot (pre ++ t :: u :: l)) (spread : Spread slot (pre ++ t :: u :: l))
    (fits : Fits 2 (t.size + u.size)) :
    Listed (store (store m 2 t.start (t.size + u.size)) ptr (t.start + ptr) (head l)) slot (pre ++ join t u :: l) := by
  have bounds := ptr_bounds
  have spread' : Spread slot (pre ++ ResourceMap.join t u :: l) :=
    (spread.sublist (r := pre ++ t :: l) (by simp)).resize rfl fits
  have before : link slot pre + ptr ≤ t.start := spread'.link_le
  have start : (ResourceMap.join t u).start = t.start := rfl
  have grouped : Listed m slot (pre ++ ([t, u] ++ l)) := listed
  refine grouped.splice [t, u] spread' ?_ ?_ ?_ fun x away far => ?_
  · rw [start, load_store_of_disjoint _ _ (by omega)]
    exact load_store _ fits
  · have later : l.Sublist (pre ++ t :: u :: l) :=
      ((List.sublist_cons_self u l).cons t).trans (List.sublist_append_right _ _)
    exact load_store _ (head_fits (spread.sublist later))
  · rw [load_store_of_disjoint _ _ (by omega), load_store_of_disjoint _ _ (by omega)]
    exact listed.linked
  · rw [start] at away
    rw [store_outside _ _ _ _ (by omega), store_outside _ _ _ _ (by omega)]

omit [Target] in
theorem Adjoins.fits (adjoins : Adjoins t u) (positive : 0 < t.size) (positive' : 0 < u.size)
    (inside : u.start + u.size ≤ baseAddr u.start + 8192) :
    Fits 2 (t.size + u.size) ∧ t.start + (t.size + u.size) ≤ baseAddr t.start + 8192 := by
  obtain ⟨page, adjacent⟩ := adjoins
  have low : baseAddr t.start ≤ t.start := by
    unfold baseAddr
    omega
  have limit : (256 ^ 2 : Nat) = 65536 := rfl
  exact ⟨⟨by omega, by omega⟩, by omega⟩

/-- The walk of `coalesce` joins the adjoining blocks of the list. -/
theorem coalesceFrom_spec {post : Unit → Machine → Prop} (pre rest : List Block) (enough : rest.length < k)
    (listed : Listed m slot (pre ++ rest)) (spread : Spread slot (pre ++ rest))
    (inside : ∀ t ∈ rest, 0 < t.size ∧ t.start + t.size ≤ baseAddr t.start + 8192)
    (done : ∀ m', Listed m' slot (pre ++ merged rest) →
      (∀ x, (∀ t ∈ rest, x < t.start ∨ t.start + 2 * ptr ≤ x) → m' x = m x) → post () { s with memory := m' }) :
    wp (coalesceFrom k (head rest)) post exc { s with memory := m } := by
  have bounds := ptr_bounds
  induction k generalizing pre rest m with
  | zero => cases enough
  | succ k ih =>
    unfold coalesceFrom
    match rest with
    | [] =>
      rw [if_neg (by simp [head])]
      rw [merged] at done
      · exact done m listed fun _ _ => rfl
      · simp
    | t :: l =>
      have present := spread.nonzero t (by simp)
      obtain ⟨size, next⟩ := listed.header
      have moved : pre ++ t :: l = pre ++ [t] ++ l := by simp
      rw [head_cons, if_pos present, wp_bind]
      refine wp_read present ?_
      rw [wp_bind]
      refine wp_read present ?_
      rw [Int.add_zero]
      dsimp only
      rw [size, next]
      match l with
      | [] =>
        rw [if_neg (by simp [head])]
        rw [merged] at done
        · refine ih (pre ++ [t]) [] (by simpa using enough) (moved ▸ listed) (moved ▸ spread) (by simp) ?_
          intro m' listed' outside
          rw [merged, List.append_nil] at listed'
          · exact done m' listed' fun x away => outside x (by simp)
          · simp
        · simp
      | u :: l =>
        have present' := spread.nonzero u (by simp)
        have apart := (List.pairwise_cons.mp (List.pairwise_append.mp spread.order).2.1).1 u List.mem_cons_self
        rw [head_cons]
        by_cases adjoins : Adjoins t u
        · obtain ⟨sizeU, nextU⟩ : load m 2 u.start = u.size ∧ load m ptr (u.start + ptr) = head l := by
            rw [moved] at listed
            exact listed.header
          obtain ⟨fits, below⟩ := adjoins.fits (inside t (by simp)).1 (inside u (by simp)).1 (inside u (by simp)).2
          rw [if_pos ⟨present', adjoins⟩, wp_bind]
          refine wp_read present ?_
          rw [wp_bind]
          refine wp_read present' ?_
          rw [wp_bind]
          refine wp_write present ?_
          rw [wp_bind]
          refine wp_read present' ?_
          rw [wp_bind]
          refine wp_write present ?_
          rw [Int.add_zero, Int.add_zero]
          dsimp only
          rw [size, sizeU, load_store_of_disjoint _ _ (by omega), nextU]
          rw [merged, if_pos adjoins] at done
          -- the walk stays at the joined block, which may adjoin the next one as well
          refine ih pre (join t u :: l) (by simpa using enough) (listed.join spread fits)
            ((spread.sublist (r := pre ++ t :: l) (by simp)).resize rfl fits)
            (List.forall_mem_cons.mpr ⟨⟨?_, below⟩, fun v member => inside v (by simp [member])⟩)
            fun m' listed' outside => done m' listed' fun x away => ?_
          · have := (inside t (by simp)).1
            have := (inside u (by simp)).1
            change 0 < t.size + u.size
            omega
          · have here := away t (by simp)
            rw [outside x (List.forall_mem_cons.mpr ⟨here, fun v member => away v (by simp [member])⟩),
              store_outside _ _ _ _ (by omega), store_outside _ _ _ _ (by omega)]
        · rw [if_neg fun both => adjoins both.2]
          rw [merged, if_neg adjoins] at done
          refine ih (pre ++ [t]) (u :: l) (by simpa using enough) (moved ▸ listed) (moved ▸ spread)
            (fun v member => inside v (List.mem_cons_of_mem _ member)) fun m' listed' outside => ?_
          rw [List.append_assoc] at listed'
          exact done m' listed' fun x away => outside x fun v member => away v (List.mem_cons_of_mem _ member)

end Eecs343.Kma.ResourceMap
