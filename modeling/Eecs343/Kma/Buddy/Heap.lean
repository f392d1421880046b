import Eecs343.Kma.Buddy.Fresh
import Eecs343.Kma.Buddy.Search

namespace Eecs343.Kma.Buddy

open Bytes Effect Linked

variable [Target]

variable {s t : Machine} {m m' : Memory} {P Q : Page} {room : Int → Set Int} {next page : Int} {j k : Nat}
  {ps l r : List Page} {exc : Stop → Prop}

/-- The variables of the allocator and its memory show the pages `ps`. -/
structure Heap (s : Machine) (room : Int → Set Int) (ps : List Page) : Prop where
  chained : Chained s.memory room ps
  first : s.firstPage = (ps.map Page.base).headD 0
  pages : s.pages.Perm (ps.map Page.base)
  inUse : s.numInUse = ps.length
  balance : s.numRequested = s.numFreed + s.numInUse

theorem Heap.offer (heap : Heap s room ps) (supply : List (Int × Int)) : Heap { s with supply := supply } room ps :=
  ⟨heap.chained, heap.first, heap.pages, heap.inUse, heap.balance⟩

theorem Heap.update {qs : List Page} {room' : Int → Set Int} (heap : Heap s room ps) (chained : Chained m' room' qs)
    (bases : qs.map Page.base = ps.map Page.base) : Heap { s with memory := m' } room' qs := by
  refine ⟨chained, ?_, ?_, ?_, heap.balance⟩
  · rw [bases]
    exact heap.first
  · rw [bases]
    exact heap.pages
  · have same := congrArg List.length bases
    rw [List.length_map, List.length_map] at same
    rw [same]
    exact heap.inUse

/-- What is left of `Chained` while the lists of one page are of no more use: the links between the
    headers and the pages they name. -/
structure Threaded (m : Memory) (ps : List Page) : Prop where
  path : Path (fun a => load m ptr (a + ptr)) (headHeader ps) (ps.map Page.header) 0
  legal : ∀ P ∈ ps, Legal P.base
  self : ∀ P ∈ ps, load m ptr P.header = P.base
  distinct : (ps.map Page.base).Nodup

theorem Chained.threaded (chained : Chained m room ps) : Threaded m ps :=
  ⟨chained.path, fun _ member => chained.legal member, fun P member => (chained.sound P member).rep.page,
    chained.distinct⟩

theorem Threaded.short (threaded : Threaded m ps) : ps.length + 1 < fuel := by
  have most : (256 ^ ptr : Nat) ≤ 2 ^ 64 := by
    rcases Target.ptr_cases with h | h <;> rw [h] <;> norm_num
  have inside : (ps.map Page.base).toFinset ⊆ Finset.Icc (-2 ^ 63) (2 ^ 63 - 8192) := by
    intro b member
    obtain ⟨P, memberP, rfl⟩ := List.mem_map.mp (List.mem_toFinset.mp member)
    have low := (threaded.legal P memberP).low
    have high := (threaded.legal P memberP).high
    exact Finset.mem_Icc.mpr ⟨by omega, by omega⟩
  have card := Finset.card_le_card inside
  rw [List.toFinset_card_of_nodup threaded.distinct, Int.card_Icc, List.length_map] at card
  unfold fuel
  omega

/-- `init_page` turns one page of the supply into a page with one free block. -/
theorem initPage_spec {post : Int → Machine → Prop} (offered : Offered s)
    (exhausted : s.supply = [] → exc .allPagesAllocated)
    (done : ∀ page link rest m', s.supply = (page, link) :: rest → Sound m' (wholeRoom page) (fresh page) 0 →
      (∀ x, (x < page ∨ page + 8192 ≤ x) → m' x = s.memory x) →
      post page { s.grant page link rest with memory := m' }) : wp initPage post exc s := by
  unfold initPage
  rw [wp_bind]
  refine wp_getPage exhausted fun page link rest left => ?_
  have legal : Legal page := offered.legal (page, link) (by rw [left]; exact List.mem_cons_self)
  refine wp_mono (wpm.wp (formatPage_spec legal)) ?_
  rintro _ _ ⟨m', rfl, rfl, sound, outside⟩
  exact done _ link rest m' left sound outside

theorem Chained.append (chained : Chained m room (l ++ [P])) (sound : Sound m (room Q.base) Q 0)
    (inside : ∀ x ∈ room Q.base, Q.base ≤ x ∧ x < Q.base + 8192) (new : Q.base ∉ (l ++ [P]).map Page.base) :
    Chained (store m ptr (P.header + ptr) Q.header) room (l ++ [P] ++ [Q]) := by
  have := ptr_bounds
  have eqP := header_eq P
  have eqQ := header_eq Q
  have memberP : P ∈ l ++ [P] := by simp
  have legalP := chained.legal memberP
  have soundP := chained.sound P memberP
  have outside : ∀ R : Page, Legal R.base → R.base ≠ P.base → ∀ x, R.base ≤ x → x < R.base + 8192 →
      store m ptr (P.header + ptr) Q.header x = m x := by
    intro R legal ne x low high
    have apart := legal.apart legalP ne
    exact store_outside _ _ _ _ (by omega)
  have neQ : Q.base ≠ P.base := fun same => new (same ▸ List.mem_map_of_mem memberP)
  have linkQ : load (store m ptr (P.header + ptr) Q.header) ptr (Q.header + ptr) = 0 := by
    rw [load_congr fun x low high => outside Q sound.legal neQ x (by omega) (by omega), sound.rep.next]
  have linkP : load (store m ptr (P.header + ptr) Q.header) ptr (P.header + ptr) = Q.header :=
    load_store _ (sound.legal.fits (by omega) (by omega))
  have before : ∀ R ∈ l, R.base ≠ P.base := fun R member =>
    base_ne (r := []) chained.distinct (by simpa using member)
  have links : ∀ R ∈ l, load (store m ptr (P.header + ptr) Q.header) ptr (R.header + ptr) = load m ptr (R.header + ptr) := by
    intro R member
    have eq := header_eq R
    exact load_congr fun x low high =>
      outside R (chained.legal (List.mem_append_left _ member)) (before R member) x (by omega) (by omega)
  refine ⟨?_, ?_, ?_, ?_⟩
  · have path := chained.path
    rw [List.map_append, List.map_cons] at path
    have relinked : Path (fun a => load (store m ptr (P.header + ptr) Q.header) ptr (a + ptr)) (headHeader (l ++ [P]))
        (l.map Page.header ++ P.header :: [Q.header]) 0 :=
      path.relink (fun a member => by
        obtain ⟨R, memberR, rfl⟩ := List.mem_map.mp member
        exact links R memberR) ⟨linkP, linkQ⟩
    have start : headHeader (l ++ [P] ++ [Q]) = headHeader (l ++ [P]) := by
      cases l <;> rfl
    rw [start]
    simpa using relinked
  · intro R member
    rcases List.mem_append.mp member with old | new'
    · rcases List.mem_append.mp old with left | last
      · rw [links R left]
        exact (chained.sound R old).elsewhere (outside R (chained.legal old) (before R left))
      · cases List.mem_singleton.mp last
        rw [linkP]
        exact ⟨legalP, soundP.rep.setNext soundP.ok.nodes (sound.legal.fits (by omega) (by omega)), soundP.ok⟩
    · cases List.mem_singleton.mp new'
      rw [linkQ]
      exact sound.elsewhere (outside Q sound.legal neQ)
  · intro R member
    rcases List.mem_append.mp member with old | new'
    · exact chained.inside R old
    · cases List.mem_singleton.mp new'
      exact inside
  · rw [List.map_append, List.nodup_append]
    refine ⟨chained.distinct, List.nodup_singleton _, ?_⟩
    rintro a memberA b memberB rfl
    rw [List.mem_map] at memberB
    obtain ⟨R, memberR, same⟩ := memberB
    cases List.mem_singleton.mp memberR
    exact new (same ▸ memberA)

end Eecs343.Kma.Buddy
