import Eecs343.Kma.Buddy.Heap

namespace Eecs343.Kma.Buddy

open Bytes Effect Linked

variable [Target]

variable {s t : Machine} {m m' : Memory} {P Q : Page} {room : Int → Set Int} {b : Int} {j k : Nat}
  {ps l r : List Page} {exc : Stop → Prop}

theorem Threaded.link (threaded : Threaded m (l ++ P :: r)) : load m ptr (P.header + ptr) = headHeader r := by
  have path := threaded.path
  rw [List.map_append, List.map_cons] at path
  obtain ⟨_, _, _, rest⟩ := path_append.mp path
  have start := rest.start
  exact start

theorem Threaded.header_apart {Q : Page} (threaded : Threaded m ps) (memberP : P ∈ ps) (memberQ : Q ∈ ps)
    (ne : Q.base ≠ P.base) : P.header + 8192 ≤ Q.header ∨ Q.header + 8192 ≤ P.header := by
  have apart := (threaded.legal P memberP).apart (threaded.legal Q memberQ) (Ne.symm ne)
  rw [header_eq, header_eq]
  omega

/-- The walk of `kma_free` to the page before `P`. -/
theorem previousPage_spec {n : Nat} {prev : Int} (threaded : Threaded m (ps ++ (l ++ P :: r))) (enough : l.length < n) :
    wpm (previousPage n (headHeader (l ++ P :: r)) prev P.header)
      (fun found m' => m' = m ∧ found = (l.map Page.header).getLastD prev) s m := by
  induction n generalizing ps l prev with
  | zero => cases enough
  | succ n ih =>
    unfold previousPage
    cases l with
    | nil =>
      have here : headHeader ([] ++ P :: r) = P.header := rfl
      rw [here, wpm_neg (not_not.mpr rfl), wpm_pure]
      exact ⟨rfl, rfl⟩
    | cons R l =>
      have member : R ∈ ps ++ (R :: l ++ P :: r) := by simp
      have memberP : P ∈ ps ++ (R :: l ++ P :: r) := by simp
      have distinct : R.base ≠ P.base := by
        have all := threaded.distinct
        rw [← List.append_assoc] at all
        exact base_ne all (by simp)
      have ne : R.header ≠ P.header := by
        rcases threaded.header_apart memberP member distinct with h | h <;> omega
      have here : headHeader (R :: l ++ P :: r) = R.header := rfl
      have next : load m ptr (R.header + ptr) = headHeader (l ++ P :: r) := threaded.link
      rw [here, wpm_pos ne, wpm_read_bind, next]
      refine ⟨header_ne (threaded.legal R member), ?_⟩
      have rest : Threaded m ((ps ++ [R]) ++ (l ++ P :: r)) := by simpa using threaded
      refine wpm_mono (ih rest (by simpa using enough)) ?_
      rintro found m' ⟨rfl, eq⟩
      exact ⟨rfl, by rw [eq, List.map_cons, List.getLastD_cons]⟩

/-- The pages beside `P`, as `Heap` describes all pages. -/
structure Beside (s : Machine) (room : Int → Set Int) (l : List Page) (P : Page) (r : List Page) : Prop where
  threaded : Threaded s.memory (l ++ P :: r)
  sound : ∀ Q ∈ l ++ r, Sound s.memory (room Q.base) Q (load s.memory ptr (Q.header + ptr))
  inside : ∀ Q ∈ l ++ r, ∀ x ∈ room Q.base, Q.base ≤ x ∧ x < Q.base + 8192
  first : s.firstPage = ((l ++ P :: r).map Page.base).headD 0
  pages : s.pages.Perm ((l ++ P :: r).map Page.base)
  inUse : s.numInUse = (l ++ P :: r).length
  balance : s.numRequested = s.numFreed + s.numInUse

theorem Heap.beside (heap : Heap s room (l ++ P :: r)) : Beside s room l P r :=
  ⟨heap.chained.threaded, fun Q member => heap.chained.sound Q (by
      rcases List.mem_append.mp member with left | right <;> simp [*]),
    fun Q member => heap.chained.inside Q (by
      rcases List.mem_append.mp member with left | right <;> simp [*]),
    heap.first, heap.pages, heap.inUse, heap.balance⟩

theorem Beside.reclaim (beside : Beside s room l P r) (chained : Chained m room (l ++ r)) :
    Heap { s.reclaim P.base with memory := m, firstPage := ((l ++ r).map Page.base).headD 0 } room (l ++ r) := by
  refine ⟨chained, rfl, ?_, ?_, ?_⟩
  · have perm := beside.pages.erase P.base
    rw [List.map_append, List.map_cons] at perm
    refine perm.trans ?_
    have front : (l.map Page.base ++ P.base :: r.map Page.base).Perm (P.base :: (l.map Page.base ++ r.map Page.base)) :=
      List.perm_middle
    replace front := front.erase P.base
    rw [List.erase_cons_head] at front
    rw [List.map_append]
    exact front
  · change s.numInUse - 1 = _
    rw [beside.inUse]
    simp
    omega
  · change s.numRequested = s.numFreed + 1 + (s.numInUse - 1)
    rw [beside.balance]
    omega

theorem Beside.other (beside : Beside s room l P r) {Q : Page} (member : Q ∈ l ++ r) :
    Legal Q.base ∧ (Q.base + 8192 ≤ P.base ∨ P.base + 8192 ≤ Q.base) := by
  have memberQ : Q ∈ l ++ P :: r := by
    rcases List.mem_append.mp member with left | right <;> simp [*]
  have legal := beside.threaded.legal Q memberQ
  exact ⟨legal, legal.apart (beside.threaded.legal P (by simp)) (base_ne beside.threaded.distinct member)⟩

theorem Beside.distinct (beside : Beside s room l P r) : ((l ++ r).map Page.base).Nodup := by
  have all := beside.threaded.distinct
  rw [List.map_append, List.map_cons] at all
  rw [List.map_append]
  exact (List.nodup_cons.mp (List.nodup_middle.mp all)).2

theorem Beside.dropFirst (beside : Beside s room [] P r) {v : Int} :
    Chained (store s.memory ptr P.base v) room r := by
  have := ptr_bounds
  have kept : ∀ Q ∈ r, ∀ x, Q.base ≤ x → x < Q.base + 8192 → store s.memory ptr P.base v x = s.memory x := by
    intro Q member x low high
    have apart := (beside.other (l := []) member).2
    exact store_outside _ _ _ _ (by omega)
  have chained : Chained s.memory room r := by
    refine ⟨?_, beside.sound, beside.inside, beside.distinct⟩
    have path := beside.threaded.path.2
    have link := beside.threaded.link (l := [])
    change Path _ (load s.memory ptr (P.header + ptr)) _ _ at path
    rwa [link] at path
  exact chained.elsewhere kept

theorem Beside.unlink {R : Page} (beside : Beside s room (l ++ [R]) P r) {v : Int} :
    Chained (store (store s.memory ptr (R.header + ptr) (headHeader r)) ptr P.base v) room (l ++ [R] ++ r) := by
  have := ptr_bounds
  have eq := header_eq R
  have memberR : R ∈ l ++ [R] ++ r := by simp
  have soundR := beside.sound R memberR
  have legalR := (beside.other memberR).1
  have fits : Fits ptr (headHeader r) := by
    cases r with
    | nil => exact fits_zero ptr
    | cons Q r =>
      have := header_eq Q
      exact (beside.other (Q := Q) (by simp)).1.fits (x := Q.header) (by omega) (by omega)
  have apart : ∀ Q ∈ l ++ [R] ++ r, Q.base ≠ R.base → Q.base + 8192 ≤ R.base ∨ R.base + 8192 ≤ Q.base :=
    fun Q member ne => (beside.other member).1.apart legalR ne
  have beforeR : ∀ Q ∈ l ++ r, Q.base ≠ R.base := by
    have distinct := beside.distinct
    rw [List.append_assoc, List.singleton_append] at distinct
    exact fun Q member => base_ne distinct member
  have memberOf : ∀ Q ∈ l ++ r, Q ∈ l ++ [R] ++ r := by
    intro Q member
    rcases List.mem_append.mp member with left | right <;> simp [*]
  have kept : ∀ Q ∈ l ++ r, ∀ x, Q.base ≤ x → x < Q.base + 8192 →
      store s.memory ptr (R.header + ptr) (headHeader r) x = s.memory x := by
    intro Q member x low high
    have far := apart Q (memberOf Q member) (beforeR Q member)
    exact store_outside _ _ _ _ (by omega)
  have links : ∀ Q ∈ l ++ r, load (store s.memory ptr (R.header + ptr) (headHeader r)) ptr (Q.header + ptr) =
      load s.memory ptr (Q.header + ptr) := by
    intro Q member
    have eqQ := header_eq Q
    exact load_congr fun x low high => kept Q member x (by omega) (by omega)
  have linkR : load (store s.memory ptr (R.header + ptr) (headHeader r)) ptr (R.header + ptr) = headHeader r :=
    load_store _ fits
  have relinked : Chained (store s.memory ptr (R.header + ptr) (headHeader r)) room (l ++ [R] ++ r) := by
    refine ⟨?_, fun Q member => ?_, beside.inside, beside.distinct⟩
    · have path := beside.threaded.path
      have link := beside.threaded.link
      rw [List.append_assoc, List.singleton_append, List.map_append, List.map_cons, List.map_cons] at path
      obtain ⟨_, _, _, _, rest⟩ := path_append.mp path
      replace rest : Path _ (load s.memory ptr (P.header + ptr)) _ 0 := rest
      rw [link] at rest
      have start : headHeader (l ++ [R] ++ r) = headHeader (l ++ R :: P :: r) := by cases l <;> rfl
      rw [start, List.append_assoc, List.singleton_append, List.map_append, List.map_cons]
      refine path.relink (fun a member => ?_) ?_
      · obtain ⟨Q, memberQ, rfl⟩ := List.mem_map.mp member
        exact links Q (List.mem_append_left _ memberQ)
      · rw [linkR]
        refine rest.congr fun a member => ?_
        obtain ⟨Q, memberQ, rfl⟩ := List.mem_map.mp member
        exact links Q (List.mem_append_right _ memberQ)
    · have split : Q = R ∨ Q ∈ l ++ r := by
        simp only [List.mem_append, List.mem_singleton] at member ⊢
        tauto
      rcases split with rfl | other
      · rw [linkR]
        exact ⟨legalR, soundR.rep.setNext soundR.ok.nodes fits, soundR.ok⟩
      · rw [links Q other]
        exact (beside.sound Q member).elsewhere (kept Q other)
  refine relinked.elsewhere fun Q member x low high => ?_
  have far := (beside.other member).2
  exact store_outside _ _ _ _ (by omega)

/-- The three cases of `kma_free` all take one page out of the list and give it back. -/
theorem releasePage_spec {post : Unit → Machine → Prop} (beside : Beside s room l P r)
    (done : ∀ t, Heap t room (l ++ r) → post () t) : wp (releasePage P.header) post exc s := by
  have memberP : P ∈ l ++ P :: r := by simp
  have legal := beside.threaded.legal P memberP
  have self := beside.threaded.self P memberP
  have link := beside.threaded.link
  have used : 0 < s.numInUse := by
    rw [beside.inUse]
    simp
    omega
  unfold releasePage
  rw [wp_bind, wp_get, wp_bind]
  refine wp_read (header_ne legal) ?_
  rw [Int.add_zero, self, wp_bind]
  refine wp_read (header_ne legal) ?_
  rw [link]
  rcases List.eq_nil_or_concat l with rfl | ⟨l', R, split⟩
  · have first : s.firstPage = P.base := beside.first
    rw [first]
    cases r with
    | nil =>
      rw [if_neg (by simp [headHeader]), if_pos rfl, wp_bind]
      refine wp_freePage legal.nonzero used ?_
      rw [wp_modify]
      exact done _ (beside.reclaim beside.dropFirst)
    | cons Q r =>
      have memberQ : Q ∈ [] ++ P :: Q :: r := by simp
      have nonzero := header_ne (beside.threaded.legal Q memberQ)
      rw [if_pos ⟨rfl, nonzero⟩, wp_bind]
      refine wp_read nonzero ?_
      rw [Int.add_zero, headHeader_cons, beside.threaded.self Q memberQ, wp_bind]
      refine wp_freePage legal.nonzero used ?_
      rw [wp_modify]
      exact done _ (beside.reclaim beside.dropFirst)
  -- a page in front of `P`: it is found by the walk, and linked to the page behind `P`
  · rw [List.concat_eq_append] at split
    subst split
    have ne : ¬ P.base = s.firstPage := by
      rw [beside.first]
      intro same
      cases l' with
      | nil => exact base_ne (Q := R) beside.threaded.distinct (by simp) same.symm
      | cons Q l' => exact base_ne (Q := Q) beside.threaded.distinct (by simp) same.symm
    have start : pageHeader s.firstPage = headHeader (l' ++ [R] ++ P :: r) := by
      rw [beside.first]
      cases l' <;> rfl
    have memberR : R ∈ l' ++ [R] ++ r := by simp
    have legalR := (beside.other memberR).1
    have short : (l' ++ [R]).length < fuel := by
      have all := beside.threaded.short
      rw [List.length_append] at all
      omega
    rw [if_neg fun both => ne both.1, if_neg ne, start]
    have threaded : Threaded s.memory ([] ++ (l' ++ [R] ++ P :: r)) := beside.threaded
    refine (previousPage_spec threaded short).wp_bind ?_
    rintro prev _ ⟨rfl, rfl⟩
    have last : ((l' ++ [R]).map Page.header).getLastD 0 = R.header := by
      rw [List.map_append, List.map_singleton, List.getLastD_concat]
    have apart := (beside.other memberR).2
    have eqP := header_eq P
    have eqR := header_eq R
    have bounds := ptr_bounds
    rw [last, wp_bind]
    refine wp_read (header_ne legal) ?_
    rw [wp_bind]
    refine wp_write (header_ne legalR) ?_
    rw [wp_bind]
    refine wp_read (header_ne legal) ?_
    dsimp only
    rw [Int.add_zero, link, load_store_of_disjoint _ _ (by omega), self]
    refine wp_freePage legal.nonzero used ?_
    have heap := beside.reclaim (beside.unlink (v := s.nextFreePage))
    have same : ((l' ++ [R] ++ r).map Page.base).headD 0 = s.firstPage := by
      rw [beside.first]
      cases l' <;> rfl
    rw [same] at heap
    exact done _ heap

end Eecs343.Kma.Buddy
