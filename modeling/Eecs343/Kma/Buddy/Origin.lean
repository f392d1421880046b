import Eecs343.Kma.Buddy.Steps

namespace Eecs343.Kma.Buddy

open Bytes Effect Linked Transition

variable [Target]

variable {s t : Machine} {w w' : World} {P P' Q : Page} {q : Int × Int} {live live' : List (Int × Int)}
  {ps qs rs l r : List Page} {supply : List (Int × Int)} {b p size page : Int} {k : Nat}

def Source (live : List (Int × Int)) (ps : List Page) (P : Page) : Prop :=
  P ∈ ps ∨ P = blank P.base ∧ own live P = []

/-- Where a page comes from that is in use after a call, and what the call did to its live blocks. -/
inductive Origin (live : List (Int × Int)) (ps : List Page) (live' : List (Int × Int)) : Call → Page → Prop where
  | kept {call : Call} {Q : Page} (member : Q ∈ ps) (same : (own live' Q).Perm (own live Q)) :
    Origin live ps live' call Q
  | carved {size : Int} {supply : List (Int × Int)} {b : Int} {P P' : Page} (source : Source live ps P)
    (carved : Carved P (sizeClass (size + 3 * ptr)) b P') (added : own live' P = (b, size) :: own live P) :
    Origin live ps live' (.malloc size supply) (P'.addUsed 1)
  | whole {size : Int} {supply : List (Int × Int)} {b page : Int} (whole : Whole (b, size))
    (added : own live' (blank page) = [(b, size)]) :
    Origin live ps live' (.malloc size supply) ((blank page).clear.addUsed 1)
  | leaked {size : Int} {supply : List (Int × Int)} {page : Int} (first : ps = []) (large : 4096 < size + 3 * ptr)
    (fits : size + 24 * ptr ≤ 8192) (none : own live' (blank page) = []) :
    Origin live ps live' (.malloc size supply) (blank page)
  | freed {p size : Int} {P P' : Page} (member : P ∈ ps) (page : baseAddr p = P.base) (more : P.used ≠ 1)
    (spare : P.Spare (room live' P.base) (sizeClass size) p) (freed : Freed P (sizeClass size) p P')
    (removed : (own live P).Perm ((p, size) :: own live' P)) : Origin live ps live' (.free p size) (P'.addUsed (-1))

omit [Target] in
theorem Served.source (served : Served qs k b rs) : ∃ P ∈ qs, ∃ j, k ≤ j ∧ b ∈ P.free j := by
  cases served with
  | @mk l P r P' split carved =>
    obtain ⟨j, _, above, source⟩ := carved.source
    exact ⟨P, by rw [split]; simp, j, above, source⟩

theorem Served.origin (served : Served qs (sizeClass (size + 3 * ptr)) b rs) (ok : ∀ P ∈ qs, P.Ok (room live P.base))
    (legal : ∀ P ∈ qs, Legal P.base) (distinct : (qs.map Page.base).Nodup) :
    ∀ Q ∈ rs,
      (Q ∈ qs ∧ own ((b, size) :: live) Q = own live Q ∧
        ∃ P ∈ qs, P ≠ Q ∧ ∃ j < 9, sizeClass (size + 3 * ptr) ≤ j ∧ b ∈ P.free j) ∨
      ∃ P ∈ qs, ∃ P', Carved P (sizeClass (size + 3 * ptr)) b P' ∧ own ((b, size) :: live) P = (b, size) :: own live P ∧
        Q = P'.addUsed 1 := by
  cases served with
  | @mk l P r P' split carved =>
    subst split
    have memberP : P ∈ l ++ P :: r := by simp
    have page : baseAddr b = P.base := carved.home (ok P memberP) (legal P memberP)
    intro Q member
    rcases mem_replace member with rfl | other
    · refine .inr ⟨P, memberP, P', carved, ?_, rfl⟩
      rw [own_cons, if_pos page]
    · have ne := base_ne distinct other
      refine .inl ⟨mem_beside other, ?_, P, memberP, fun same => ne (same ▸ rfl), carved.source⟩
      rw [own_cons, if_neg fun same => ne (same.symm.trans page)]

theorem whole_home (legal : Legal page) : baseAddr (page + 24 * ptr) = page := by
  have := ptr_bounds
  exact legal.baseAddr (by omega) (by omega)

theorem own_whole (books : Books live ps) (unused : page ∉ ps.map Page.base) (legal : Legal page) :
    own ((page + 24 * ptr, size) :: live) (blank page) = [(page + 24 * ptr, size)] := by
  rw [own_cons, blank_base, if_pos (whole_home legal), books.own_unused unused (blank_base page)]

theorem own_beside (legal : Legal page) (unused : page ∉ ps.map Page.base) (member : Q ∈ ps) :
    own ((page + 24 * ptr, size) :: live) Q = own live Q := by
  rw [own_cons, if_neg fun same => unused ?_]
  rw [← whole_home legal, same]
  exact List.mem_map_of_mem member

theorem Allocated.legal (allocated : Allocated ps k b rs) (legal : ∀ Q ∈ rs, Legal Q.base) : ∀ P ∈ ps, Legal P.base := by
  have kept : ∀ {qs rs : List Page}, Served qs k b rs → (∀ Q ∈ rs, Legal Q.base) → ∀ P ∈ qs, Legal P.base := by
    intro qs rs served legal P member
    have base : P.base ∈ rs.map Page.base := by
      rw [served.bases]
      exact List.mem_map_of_mem member
    obtain ⟨Q, memberQ, same⟩ := List.mem_map.mp base
    exact same ▸ legal Q memberQ
  intro P member
  cases allocated with
  | kept served => exact kept served legal P member
  | grown none served => exact kept served legal P (List.mem_append_left _ member)
  | whole none last start => exact legal P (List.mem_append_left _ member)

theorem unused_of_heap (heap : Heap t (room live) rs) (bases : rs.map Page.base = ps.map Page.base ++ [page]) :
    page ∉ ps.map Page.base ∧ Legal page := by
  have distinct := heap.chained.distinct
  rw [bases, List.nodup_append] at distinct
  have member : page ∈ rs.map Page.base := by
    rw [bases]
    simp
  obtain ⟨Q, memberQ, same⟩ := List.mem_map.mp member
  exact ⟨fun old => distinct.2.2 page old page (List.mem_singleton_self page) rfl, same ▸ heap.chained.legal memberQ⟩

theorem whole_bases (ps : List Page) (page : Int) :
    (ps ++ [(blank page).clear.addUsed 1]).map Page.base = ps.map Page.base ++ [page] := by
  rw [List.map_append, List.map_singleton, Page.addUsed_base]
  exact congrArg (fun b => ps.map Page.base ++ [b]) (blank_base page)

theorem Allocated.origin (allocated : Allocated ps (sizeClass (size + 3 * ptr)) b rs) (books : Books live ps)
    (ok : ∀ P ∈ ps, P.Ok (room live P.base)) (heap : Heap t (room live) rs) (low : 1 ≤ size)
    (fits : size + 24 * ptr ≤ 8192) : ∀ Q ∈ rs, Origin live ps ((b, size) :: live) (.malloc size supply) Q := by
  have legal := allocated.legal fun Q member => heap.chained.legal member
  have distinct := heap.chained.distinct
  intro Q member
  cases allocated with
  | kept served =>
    rw [served.bases] at distinct
    rcases served.origin ok legal distinct Q member with ⟨old, same, _⟩ | ⟨P, memberP, P', carved, added, rfl⟩
    · exact .kept old (.of_eq same)
    · exact .carved (.inl memberP) carved added
  | @grown page _ none served =>
    have bases := served.bases
    rw [List.map_append, List.map_singleton, blank_base] at bases
    obtain ⟨unused, legalPage⟩ := unused_of_heap heap bases
    have none' : own live (blank page) = [] := books.own_unused unused (blank_base page)
    have new : ∀ P ∈ ps ++ [blank page], P ∈ ps ∨ P = blank page := fun P memberP => by simpa using memberP
    have legal' : ∀ P ∈ ps ++ [blank page], Legal P.base := fun P memberP => by
      rcases new P memberP with old | rfl
      · exact legal P old
      · exact (blank_base page).symm ▸ legalPage
    have ok' : ∀ P ∈ ps ++ [blank page], P.Ok (room live P.base) := fun P memberP => by
      rcases new P memberP with old | rfl
      · exact ok P old
      · rw [blank_base, books.roomy legal legalPage unused]
        exact blank_ok page
    rw [served.bases] at distinct
    rcases served.origin ok' legal' distinct Q member with ⟨old, same, P, memberP, ne, j, bound, above, source⟩ |
      ⟨P, memberP, P', carved, added, rfl⟩
    · rcases new Q old with oldQ | rfl
      · exact .kept oldQ (.of_eq same)
      · rcases new P memberP with oldP | rfl
        · have empty := none P oldP (j - sizeClass (size + 3 * ptr)) (by omega)
          rw [show sizeClass (size + 3 * ptr) + (j - sizeClass (size + 3 * ptr)) = j from by omega] at empty
          rw [empty] at source
          exact absurd source List.not_mem_nil
        · exact absurd rfl ne
    · refine .carved ?_ carved added
      rcases new P memberP with old | rfl
      · exact .inl old
      · exact .inr ⟨by rw [blank_base], none'⟩
  | @whole page none last start =>
    subst start
    obtain ⟨unused, legalPage⟩ := unused_of_heap heap (whole_bases ps page)
    have whole := whole_of_large (q := (page + 24 * ptr, size)) low (large_of_class last) fits
    rcases List.mem_append.mp member with old | new
    · exact .kept old (.of_eq (own_beside legalPage unused old))
    · cases List.mem_singleton.mp new
      exact .whole whole (own_whole books unused legalPage)

/-- The pages after a request that found none: the new first page, and one more where the request
    takes a page whole. -/
theorem Allocated.origin_first (allocated : Allocated [blank page] (sizeClass (size + 3 * ptr)) b rs)
    (books : Books live [blank page]) (ok : (blank page).Ok (room live (blank page).base)) (none : own live (blank page) = [])
    (heap : Heap t (room live) rs) (low : 1 ≤ size) (fits : size + 24 * ptr ≤ 8192) :
    ∀ Q ∈ rs, Origin live [] ((b, size) :: live) (.malloc size supply) Q := by
  have legal := allocated.legal (fun Q member => heap.chained.legal member) (blank page) List.mem_cons_self
  intro Q member
  cases allocated with
  | kept served =>
    obtain ⟨P', carved, rfl⟩ := served.singleton
    cases List.mem_singleton.mp member
    refine .carved (.inr ⟨by rw [blank_base], none⟩) carved ?_
    rw [own_cons, if_pos (carved.home ok legal)]
  | grown full served =>
    -- A new page that serves nothing is asked for more than it can have.
    have last : ¬ sizeClass (size + 3 * ptr) < 8 := fun less => by
      obtain ⟨x, bound, some⟩ := blank_serves page less
      exact some (full _ List.mem_cons_self x bound)
    obtain ⟨P, memberP, j, above, source⟩ := served.source
    have new : ∃ page, P = blank page := by
      rcases List.mem_append.mp memberP with member | member <;> exact ⟨_, List.mem_singleton.mp member⟩
    obtain ⟨page, rfl⟩ := new
    rw [blank_last (by omega)] at source
    exact absurd source List.not_mem_nil
  | @whole page' full last start =>
    subst start
    obtain ⟨unused, legalPage⟩ := unused_of_heap heap (whole_bases [blank page] page')
    have whole := whole_of_large (q := (page' + 24 * ptr, size)) low (large_of_class last) fits
    rcases List.mem_append.mp member with old | new
    · cases List.mem_singleton.mp old
      refine .leaked rfl (large_of_class last) fits ?_
      rw [own_beside legalPage unused old, none]
    · cases List.mem_singleton.mp new
      exact .whole whole (own_whole books unused legalPage)

/-- The pages a request looks at: those in use, or a new first one. -/
def opened : List Page → List (Int × Int) → List Page
  | [], (page, _) :: _ => [blank page]
  | ps, _ => ps

/-- A request returns NULL and changes nothing, or a block on one of the pages. -/
theorem Inv.malloc (inv : Inv ⟨s, live⟩ ps) (low : 1 ≤ size) (high : size < 2 ^ 31)
    (offered : Offered { s with supply := supply }) :
    wp (kmaMalloc size) (fun b t =>
      (8192 < size + 24 * ptr ∧ b = 0 ∧ t = { s with supply := supply }) ∨
        (size + 24 * ptr ≤ 8192 ∧ b ≠ 0 ∧ ∃ qs, Allocated (opened ps supply) (sizeClass (size + 3 * ptr)) b qs ∧
          Inv ⟨t, (b, size) :: live⟩ qs ∧ ∀ Q ∈ qs, Origin live ps ((b, size) :: live) (.malloc size supply) Q))
      (fun _ => supply.length < 2) { s with supply := supply } := by
  obtain ⟨heap, books⟩ := inv
  have legal : ∀ P ∈ ps, Legal P.base := fun P member => heap.chained.legal member
  have ok : ∀ P ∈ ps, P.Ok (room live P.base) := fun P member => (heap.chained.sound P member).ok
  have fresh : ∀ offer ∈ supply, offer.1 ∉ ps.map Page.base := fun offer member used =>
    offered.unused offer member (heap.pages.symm.subset used)
  have nonzero : ∀ {b t qs}, Inv ⟨t, (b, size) :: live⟩ qs → b ≠ 0 := by
    intro b t qs inv
    have := ptr_bounds
    obtain ⟨P, member, _, above, below, _, least⟩ := inv.books.place List.mem_cons_self
    exact (inv.heap.chained.legal member).ne_zero (by omega) (by omega)
  refine kmaMalloc_spec low high rfl (heap.offer _)
    (Inv.ready ⟨heap, books⟩ _) offered
    (fun offer member => books.roomy legal (offered.legal offer member) (fresh offer member)) id
    (fun excess => .inl ⟨excess, rfl, rfl⟩) (fun fits some b t qs allocated heap' => ?_)
    fun fits none page link rest left b t qs allocated heap' => ?_
  · have inv' := Inv.allocate books legal ok allocated heap' low fits
    obtain ⟨P, ps, rfl⟩ := List.exists_cons_of_ne_nil some
    exact .inr ⟨fits, nonzero inv', qs, allocated, inv', allocated.origin books ok heap' low fits⟩
  · subst none
    change supply = _ at left
    have legalPage := allocated.legal (fun Q member => heap'.chained.legal member) (blank page) List.mem_cons_self
    rw [blank_base] at legalPage
    have books' := books.append (show page ∉ [].map Page.base from List.not_mem_nil)
    have okPage : (blank page).Ok (room live (blank page).base) := by
      rw [blank_base, books.roomy legal legalPage List.not_mem_nil]
      exact blank_ok page
    have inv' := Inv.allocate books' (fun P member => ?_) (fun P member => ?_) allocated heap' low fits
    · exact .inr ⟨fits, nonzero inv', qs, left ▸ allocated, inv', allocated.origin_first books' okPage
        (books.own_unused List.not_mem_nil (blank_base page)) heap' low fits⟩
    · cases List.mem_singleton.mp member
      exact (blank_base page).symm ▸ legalPage
    · cases List.mem_singleton.mp member
      exact okPage

theorem Inv.free_origin (inv : Inv ⟨s, live⟩ ps) (member : (p, size) ∈ live) :
    wp (kmaFree p size) (fun _ t => ∃ qs, Inv ⟨t, live.erase (p, size)⟩ qs ∧
      ∀ Q ∈ qs, Origin live ps (live.erase (p, size)) (.free p size) Q) (fun _ => False) s := by
  obtain ⟨l, P, r, rfl, page, freed⟩ := inv.free member
  have perm := List.perm_cons_erase member
  have distinct := inv.heap.chained.distinct
  have beside : ∀ Q ∈ l ++ r, Origin live (l ++ P :: r) (live.erase (p, size)) (.free p size) Q := fun Q inside => by
    have same := own_perm (P := Q) perm
    rw [own_cons, if_neg fun there => base_ne distinct inside (there.symm.trans page)] at same
    exact .kept (mem_beside inside) same.symm
  refine wp_mono freed ?_
  rintro _ t (⟨one, inv'⟩ | ⟨more, spare, P', freed, inv'⟩)
  · exact ⟨_, inv', beside⟩
  · refine ⟨_, inv', fun Q inside => ?_⟩
    rcases mem_replace inside with rfl | other
    · refine .freed (by simp) page more spare freed ?_
      have := own_perm (P := P) perm
      rwa [own_cons, if_pos page] at this
    · exact beside Q other

/-- The client writes to its blocks and the page pool to its pages: no byte the allocator relies on. -/
theorem Inv.client {m' : Memory} (inv : Inv w ps) (kept : ∀ x, w.Private x → m' x = w.machine.memory x) :
    Inv ⟨{ w.machine with memory := m' }, w.live⟩ ps := by
  have bounds := ptr_bounds
  obtain ⟨heap, books⟩ := inv
  have chained := heap.chained
  have header : ∀ P ∈ ps, ∀ x, P.header ≤ x → x < P.header + 21 * ptr → m' x = w.machine.memory x := by
    intro P member x low high
    have eq := header_eq P
    have legal := chained.legal member
    refine kept x ⟨?_, fun q live => ?_⟩
    · rw [legal.baseAddr (by omega) (by omega)]
      exact heap.pages.symm.subset (List.mem_map_of_mem member)
    · obtain ⟨Q, memberQ, _, above, below, enough, _⟩ := books.place live
      by_cases same : Q.base = P.base
      · omega
      · have apart := (chained.legal memberQ).apart legal same
        omega
  have blocks : ∀ P ∈ ps, ∀ k < 9, ∀ b ∈ P.free k, ∀ x, b ≤ x → x < b + 3 * ptr → m' x = w.machine.memory x := by
    intro P member k bound b free x low high
    have sound := chained.sound P member
    have := blockSize_pos k
    obtain ⟨above, below, outside⟩ := (sound.ok.holds k bound b free).inRoom x low (by omega)
    refine kept x ⟨?_, fun q live => ?_⟩
    · rw [sound.legal.baseAddr (by omega) below]
      exact heap.pages.symm.subset (List.mem_map_of_mem member)
    · obtain ⟨_, _, _, _, _, enough, _⟩ := books.place live
      have := outside q live
      omega
  have links : ∀ P ∈ ps, load m' ptr (P.header + ptr) = load w.machine.memory ptr (P.header + ptr) := fun P member =>
    load_congr fun x low high => header P member x (by omega) (by omega)
  refine ⟨⟨⟨?_, fun P member => ?_, chained.inside, chained.distinct⟩, heap.first, heap.pages, heap.inUse, heap.balance⟩,
    books⟩
  · refine chained.path.congr fun a member => ?_
    obtain ⟨P, memberP, rfl⟩ := List.mem_map.mp member
    exact links P memberP
  · have sound := chained.sound P member
    have rep := sound.rep.frame (header P member) (blocks P member)
    rw [← links P member] at rep
    exact ⟨sound.legal, rep, sound.ok⟩

theorem Inv.step {call : Call} (inv : Inv w ps) (step : Step buddyAllocator w call w') :
    ∃ qs, Inv w' qs ∧ ∀ Q ∈ qs, Origin w.live ps w'.live call Q := by
  obtain ⟨s, live⟩ := w
  cases step with
  | malloc low high offered ran =>
    rcases wp_of_run ran (inv.malloc low high offered) with
      ⟨_, rfl, rfl⟩ | ⟨_, some, qs, _, inv', origin⟩
    · exact ⟨ps, ⟨inv.heap.offer _, inv.books⟩, fun Q member => .kept member (.refl _)⟩
    · rw [if_neg some]
      exact ⟨qs, inv', origin⟩
  | free member ran => exact wp_of_run ran (inv.free_origin member)
  | client kept => exact ⟨ps, inv.client kept, fun Q member => .kept member (.refl _)⟩

theorem Inv.initial (initial : w.Initial) : Inv w [] where
  heap := ⟨⟨rfl, by simp, by simp, .nil⟩, initial.first, by rw [initial.pages]; rfl, initial.inUse, by
    rw [initial.requested, initial.freed, initial.inUse]; rfl⟩
  books := by
    refine ⟨?_, ?_, by simp, by simp⟩ <;> rw [initial.live] <;> simp

/-- Every page in use is as `φ` says. -/
def EachPage (w : World) (φ : Page → Prop) : Prop := ∃ ps, Shows w.machine ps ∧ ∀ P ∈ ps, φ P

/-- The page a block lies on is as `φ` says. -/
def HomePage (w : World) (p : Int) (φ : Page → Prop) : Prop :=
  ∀ ps, Shows w.machine ps → ∀ P ∈ ps, P.base = baseAddr p → φ P

theorem Inv.eachPage {φ : Page → Prop} (inv : Inv w ps) : EachPage w φ ↔ ∀ P ∈ ps, φ P := by
  constructor
  · intro ⟨qs, shows, holds⟩
    rw [inv.heap.shows.unique shows]
    exact holds
  · exact fun holds => ⟨ps, inv.heap.shows, holds⟩

theorem Inv.homePage {φ : Page → Prop} (inv : Inv w (l ++ P :: r)) (page : baseAddr p = P.base) :
    HomePage w p φ ↔ φ P := by
  constructor
  · exact fun holds => holds _ inv.heap.shows P (by simp) page.symm
  · intro holds qs shows Q member home
    rw [← inv.heap.shows.unique shows] at member
    rcases mem_replace member with rfl | other
    · exact holds
    · exact absurd (home.trans page) (base_ne inv.heap.chained.distinct other)

theorem calls_inv {start last : World} {steps : List (World × Call)} (run : Calls buddyAllocator start steps last) :
    ∀ w ∈ visited steps last, ∃ ps, Inv w ps :=
  run.2.invariant_visited (fun _ _ => True) (fun w => ∃ ps, Inv w ps) ⟨[], Inv.initial run.1⟩
    (fun _ _ _ ⟨_, inv⟩ _ step => (inv.step step).imp fun _ => And.left) fun _ _ => trivial

/-- A property of states that the calls keep exactly under a condition. -/
theorem calls_iff {start last : World} {steps : List (World × Call)} (run : Calls buddyAllocator start steps last)
    (admitted : World → Call → Prop) (good : World → Prop) (sound : good start)
    (survives : ∀ w call w' ps, Inv w ps → good w → Step buddyAllocator w call w' → (good w' ↔ admitted w call)) :
    (∀ w ∈ visited steps last, good w) ↔ ∀ taken ∈ steps, admitted taken.1 taken.2 :=
  run.2.invariant_iff admitted (fun w => ∃ ps, Inv w ps) good ⟨[], Inv.initial run.1⟩ sound
    (fun _ _ _ ⟨_, inv⟩ step => (inv.step step).imp fun _ => And.left)
    fun w call w' ⟨ps, inv⟩ => survives w call w' ps inv

end Eecs343.Kma.Buddy
