import Eecs343.Kma.Buddy.Split

namespace Eecs343.Kma.Buddy

open Bytes Linked

variable [Target]

variable {s : Machine} {m m' : Memory} {P P' : Page} {room : Int → Set Int} {next : Int} {j k : Nat}
  {ps l r : List Page}

def headHeader (ps : List Page) : Int := (ps.map Page.header).headD 0

/-- The pages in memory, linked through their headers. `room` gives the bytes of each page, by its
    address, that no live block has. -/
structure Chained (m : Memory) (room : Int → Set Int) (ps : List Page) : Prop where
  path : Path (fun a => load m ptr (a + ptr)) (headHeader ps) (ps.map Page.header) 0
  sound : ∀ P ∈ ps, Sound m (room P.base) P (load m ptr (P.header + ptr))
  inside : ∀ P ∈ ps, ∀ x ∈ room P.base, P.base ≤ x ∧ x < P.base + 8192
  distinct : (ps.map Page.base).Nodup

theorem Sound.elsewhere {room : Set Int} (sound : Sound m room P next)
    (same : ∀ x, P.base ≤ x → x < P.base + 8192 → m' x = m x) : Sound m' room P next := by
  have := ptr_bounds
  have eq := header_eq P
  refine ⟨sound.legal, sound.rep.frame (fun x _ _ => same x (by omega) (by omega)) ?_, sound.ok⟩
  intro k bound b member x low high
  have node := sound.ok.nodes k bound b member
  exact same x (by omega) (by omega)

theorem Chained.legal (chained : Chained m room ps) (member : P ∈ ps) : Legal P.base := (chained.sound P member).legal

omit [Target] in
theorem base_ne {Q : Page} (distinct : ((l ++ P :: r).map Page.base).Nodup) (member : Q ∈ l ++ r) : Q.base ≠ P.base := by
  rw [List.map_append, List.map_cons] at distinct
  have split := (List.nodup_middle.mp distinct)
  obtain ⟨fresh, _⟩ := List.nodup_cons.mp split
  intro same
  rw [← List.map_append] at fresh
  exact fresh (same ▸ List.mem_map_of_mem member)

theorem Frame.elsewhere {room : Set Int} {Q : Page} (frame : Frame P.header room m m') (legal : Legal P.base)
    (other : Legal Q.base) (ne : Q.base ≠ P.base) (inside : ∀ x ∈ room, P.base ≤ x ∧ x < P.base + 8192) {x : Int}
    (low : Q.base ≤ x) (high : x < Q.base + 8192) : m' x = m x := by
  have := ptr_bounds
  have eq := header_eq P
  have apart := other.apart legal ne
  refine frame x (fun member => ?_) (by omega)
  have := inside x member
  omega

theorem Chained.replace (chained : Chained m room (l ++ P :: r)) (base : P'.base = P.base)
    (sound : Sound m' (room P.base) P' (load m ptr (P.header + ptr)))
    (frame : Frame P.header (room P.base) m m') : Chained m' room (l ++ P' :: r) := by
  have := ptr_bounds
  have here : P ∈ l ++ P :: r := by simp
  have header : P'.header = P.header := by rw [header_eq, base]; rfl
  have headers : (l ++ P' :: r).map Page.header = (l ++ P :: r).map Page.header := by
    simp only [List.map_append, List.map_cons, header]
  have bases : (l ++ P' :: r).map Page.base = (l ++ P :: r).map Page.base := by
    simp only [List.map_append, List.map_cons, base]
  have beside : ∀ Q ∈ l ++ P' :: r, Q = P' ∨ (Q ∈ l ++ P :: r ∧ Q.base ≠ P.base) := by
    intro Q member
    rcases List.mem_append.mp member with left | right
    · exact .inr ⟨List.mem_append_left _ left, base_ne chained.distinct (List.mem_append_left _ left)⟩
    · rcases List.mem_cons.mp right with same | right
      · exact .inl same
      · exact .inr ⟨List.mem_append_right _ (List.mem_cons_of_mem _ right),
          base_ne chained.distinct (List.mem_append_right _ right)⟩
  have others : ∀ Q ∈ l ++ P :: r, Q.base ≠ P.base → ∀ x, Q.base ≤ x → x < Q.base + 8192 → m' x = m x :=
    fun Q member ne x low high =>
      frame.elsewhere (chained.legal here) (chained.legal member) ne (chained.inside P here) low high
  have links : ∀ Q ∈ l ++ P :: r, load m' ptr (Q.header + ptr) = load m ptr (Q.header + ptr) := by
    intro Q member
    by_cases same : Q.base = P.base
    · have eq : Q.header = P.header := by rw [header_eq, same]; rfl
      rw [eq, ← header, sound.rep.next, header]
    · have eq := header_eq Q
      exact load_congr fun x low high => others Q member same x (by omega) (by omega)
  refine ⟨?_, ?_, ?_, by rw [bases]; exact chained.distinct⟩
  · unfold headHeader
    rw [headers]
    refine chained.path.congr fun a member => ?_
    obtain ⟨Q, memberQ, rfl⟩ := List.mem_map.mp member
    exact links Q memberQ
  · intro Q member
    rcases beside Q member with rfl | ⟨member, ne⟩
    · have next := links P here
      rw [header, next, base]
      exact sound
    · rw [links Q member]
      exact (chained.sound Q member).elsewhere (others Q member ne)
  · intro Q member
    rcases beside Q member with rfl | ⟨member, _⟩
    · rw [base]
      exact chained.inside P here
    · exact chained.inside Q member

theorem Chained.elsewhere (chained : Chained m room ps)
    (same : ∀ P ∈ ps, ∀ x, P.base ≤ x → x < P.base + 8192 → m' x = m x) : Chained m' room ps := by
  have := ptr_bounds
  have links : ∀ P ∈ ps, load m' ptr (P.header + ptr) = load m ptr (P.header + ptr) := by
    intro P member
    have eq := header_eq P
    exact load_congr fun x low high => same P member x (by omega) (by omega)
  refine ⟨chained.path.congr fun a member => ?_, fun P member => ?_, chained.inside, chained.distinct⟩
  · obtain ⟨P, memberP, rfl⟩ := List.mem_map.mp member
    exact links P memberP
  · rw [links P member]
    exact (chained.sound P member).elsewhere (same P member)

theorem Chained.rooms {room' : Int → Set Int} (chained : Chained m room ps) (ok : ∀ P ∈ ps, P.Ok (room' P.base))
    (inside : ∀ P ∈ ps, ∀ x ∈ room' P.base, P.base ≤ x ∧ x < P.base + 8192) : Chained m room' ps :=
  ⟨chained.path, fun P member => ⟨(chained.sound P member).legal, (chained.sound P member).rep, ok P member⟩,
    inside, chained.distinct⟩

end Eecs343.Kma.Buddy
