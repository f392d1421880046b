import Eecs343.Kma.ResourceMap.Layout

namespace Eecs343.Kma.ResourceMap

open Bytes Effect Linked Tiling Transition

variable [Target]

/-- A size the allocator keeps within its pages: room for a header when it is freed, and for one
    behind it; or a size it rejects. -/
def Fitting (n : Int) : Prop := 2 * ptr ≤ n ∧ (n ≤ realPageSize - ptr ∨ realPageSize < n)

variable {w w' : World} {s : Machine} {P Q : Page} {t : Block} {q : Int × Int} {front back : List Block}
  {ps qs l r : List Page} {n page p size : Int} {supply : List (Int × Int)} {e : Stop → Prop}

theorem Inv.initial (initial : w.Initial) : Inv w [] := by
  refine ⟨⟨initial.first, ⟨by simp, .nil⟩, fun some => absurd rfl some, by simp, ?_, ?_⟩, ?_, by simp⟩
  · rw [initial.pages]
    rfl
  · rw [initial.inUse]
    rfl
  · rw [initial.live]
    rfl

theorem Inv.place (inv : Inv w ps) (member : q ∈ w.live) :
    ∃ l P r front t back, ps = l ++ P :: r ∧ P.tiles = front ++ t :: back ∧ t.label = .live ∧ q = (t.start, t.size) := by
  obtain ⟨P, memberP, t, inside, live, same⟩ := mem_liveBlocks.mp (inv.books.subset member)
  obtain ⟨l, r, split⟩ := List.append_of_mem memberP
  obtain ⟨front, back, tiles⟩ := List.append_of_mem inside
  exact ⟨l, P, r, front, t, back, split, tiles, live, same⟩

omit [Target] in
theorem liveBlocks_release (split : P.tiles = front ++ t :: back) (live : t.label = .live) :
    (liveBlocks (l ++ P :: r)).Perm ((t.start, t.size) :: liveBlocks (l ++ ⟨P.base, front ++ release t :: back⟩ :: r)) := by
  refine liveBlocks_add ?_
  have same : P = ⟨P.base, front ++ t :: back⟩ := by rw [← split]
  have before := live_split (t := t) front back P.base
  have after := live_split (t := release t) front back P.base
  rw [if_pos live] at before
  rw [if_neg (by simp [release])] at after
  rw [same]
  exact before.trans (after.symm.cons t)

omit [Target] in
theorem mem_of_release {base : Int} : release t ∈ freeList (l ++ ⟨base, front ++ release t :: back⟩ :: r) :=
  mem_freeList.mpr ⟨⟨base, front ++ release t :: back⟩, by simp, mem_free.mpr ⟨by simp, rfl⟩⟩

theorem Inv.freeWith {giveBack : Int → Int → C Bool} (inv : Inv w ps) (releases : Releases giveBack)
    (member : (p, size) ∈ w.live) :
    wp (kmaFreeWith giveBack p size)
      (fun _ t => ∃ qs, Inv ⟨t, w.live.erase (p, size)⟩ qs ∧ HeadersInside w ⟨t, w.live.erase (p, size)⟩ ∧
        (∀ P ∈ qs, ¬ P.Empty) ∧ ∀ P ∈ qs, P.Separate) e w.machine := by
  obtain ⟨l, P, r, front, t, back, rfl, split, live, same⟩ := inv.place member
  obtain ⟨rfl, rfl⟩ : p = t.start ∧ size = t.size := by simpa using same
  have others : ∀ Q ∈ l.tail ++ r, ¬ Q.Empty := by
    intro Q inside
    refine inv.used Q ?_
    cases l with
    | nil => exact inside
    | cons F l => exact mem_beside inside
  have ranked := inv.heap.ranked.update ((inv.heap.ranked.sound P (by simp)).released split live) rfl
  have books : (w.live.erase (t.start, t.size)).Perm (liveBlocks (l ++ ⟨P.base, front ++ release t :: back⟩ :: r)) := by
    have erased := (inv.books.trans (liveBlocks_release split live)).erase (t.start, t.size)
    rwa [List.erase_cons_head] at erased
  obtain ⟨place, clear⟩ := ranked.clear (mem_of_release (t := t))
  refine kmaFree_spec inv.heap releases split live others fun s' heap headers => ?_
  have used : ∀ Q ∈ occupied ((l ++ ⟨P.base, front ++ release t :: back⟩ :: r).map Page.joined), ¬ Q.Empty := by
    intro Q inside
    simpa using (List.mem_filter.mp inside).2
  have separate : ∀ Q ∈ occupied ((l ++ ⟨P.base, front ++ release t :: back⟩ :: r).map Page.joined), Q.Separate := by
    intro Q inside
    obtain ⟨R, _, rfl⟩ := List.mem_map.mp (List.mem_filter.mp inside).1
    exact separate_joined R
  refine ⟨_, ⟨heap, ?_, fun Q inside => used Q (List.mem_of_mem_tail inside)⟩, ?_, used, separate⟩
  · rw [liveBlocks_occupied, liveBlocks_joined]
    exact books
  · refine ⟨[t.start], headers, ?_, ?_⟩
    · intro h only
      rw [List.mem_singleton.mp only]
      exact ⟨place, fun q _ after => clear q (books.subset after)⟩
    · intro h only q after
      rw [← Option.some.inj (show some t.start = some h from only)]
      exact clear q (books.subset after)

theorem Inv.free (inv : Inv w ps) (member : (p, size) ∈ w.live) :
    wp (kmaFree p size)
      (fun _ t => ∃ qs, Inv ⟨t, w.live.erase (p, size)⟩ qs ∧ HeadersInside w ⟨t, w.live.erase (p, size)⟩ ∧
        (∀ P ∈ qs, ¬ P.Empty) ∧ ∀ P ∈ qs, P.Separate) e w.machine := by
  rw [kmaFree_eq]
  exact inv.freeWith releases_releasePage member

theorem Inv.client {memory : Int → BitVec 8} (inv : Inv w ps) (kept : ∀ x, w.Private x → memory x = w.machine.memory x) :
    Inv ⟨{ w.machine with memory := memory }, w.live⟩ ps := by
  have bounds := ptr_bounds
  have heap := inv.heap
  have page : ∀ P ∈ ps, ∀ x, P.base ≤ x → x < P.base + 8192 → (∀ q ∈ liveBlocks ps, x < q.1 ∨ q.1 + q.2 ≤ x) →
      memory x = w.machine.memory x := by
    intro P member x low high away
    refine kept x ⟨?_, fun q live => away q (inv.books.subset live)⟩
    rw [(heap.legal member).baseAddr low high]
    exact heap.pages.symm.subset (List.mem_map_of_mem member)
  have word : ∀ P ∈ ps, load memory ptr P.base = load w.machine.memory ptr P.base := by
    intro P member
    refine load_congr fun x low high => page P member x low (by omega) fun q live => ?_
    obtain ⟨Q, memberQ, u, inside, _, rfl⟩ := mem_liveBlocks.mp live
    have place := (heap.ranked.sound Q memberQ).inside inside
    by_cases same : P.base = Q.base
    · dsimp only
      omega
    · have := (heap.legal member).apart (heap.legal memberQ) same
      dsimp only
      omega
  have header : ∀ t ∈ freeList ps, ∀ x, t.start ≤ x → x < t.start + 2 * ptr → memory x = w.machine.memory x := by
    intro t free x low high
    obtain ⟨P, member, inP⟩ := mem_freeList.mp free
    have place := (heap.ranked.sound P member).inside (mem_free.mp inP).1
    refine page P member x (by omega) (by omega) fun q live => ?_
    have := (heap.ranked.clear free).2 q live
    unfold Clear at this
    omega
  refine ⟨⟨heap.first, heap.ranked, fun some => ?_, fun base member => ?_, heap.pages, heap.inUse⟩, inv.books, inv.used⟩
  · refine (heap.listed some).frame ?_ header
    obtain ⟨P, ps, rfl⟩ := List.exists_cons_of_ne_nil some
    have first := word P List.mem_cons_self
    rw [show w.machine.firstPage = P.base from heap.first]
    exact first
  · obtain ⟨P, inside, rfl⟩ := List.mem_map.mp (List.mem_of_mem_tail member)
    exact (word P inside).trans (heap.records _ member)

omit [Target] in
theorem tail_used (used : ∀ P ∈ (l ++ r).tail, ¬ P.Empty) (occupied : ¬ Q.Empty) (behind : l ≠ []) :
    ∀ P ∈ (l ++ Q :: r).tail, ¬ P.Empty := by
  obtain ⟨F, l, rfl⟩ := List.exists_cons_of_ne_nil behind
  intro P member
  have here : P = Q ∨ P ∈ (F :: l ++ r).tail := mem_replace member
  rcases here with rfl | old
  · exact occupied
  · exact used P old

theorem Inv.opens (inv : Inv w ps) (opens : Opens { w.machine with supply := supply } ps s qs) (heap : Heap s qs) :
    w.live.Perm (liveBlocks qs) ∧ (∀ P ∈ qs.tail, ¬ P.Empty) ∧
      ∃ new, s.headers = new ++ w.machine.headers ∧ ∀ h ∈ new, HeaderIn h ∧ ∀ q ∈ w.live, Clear h q := by
  have bounds := ptr_bounds
  cases opens with
  | kept some => exact ⟨inv.books, inv.used, [], rfl, by simp⟩
  | @first page next offers none offered =>
    have empty : w.live = [] := by
      have books := inv.books
      rw [none] at books
      exact books.eq_nil
    refine ⟨by rw [empty]; rfl, by simp, [page + ptr], rfl, fun h member => ?_⟩
    rw [List.mem_singleton.mp member, empty]
    have listed : whole page ∈ freeList [blank page] := by simp [freeList, blank, Page.free, whole]
    exact ⟨(heap.ranked.clear listed).1, by simp⟩

/-- The request needs a page, and `get_page` hands out one below the first page in use. -/
def Blocked (qs : List Page) (supply : List (Int × Int)) (n : Int) : Prop :=
  (∀ t ∈ freeList qs, ¬ FitsIn n t) ∧ ∃ page next offers, supply = (page, next) :: offers ∧ page < firstBase qs

theorem Inv.rejected (inv : Inv w ps) (opens : Opens { w.machine with supply := supply } ps s qs) (heap : Heap s qs) :
    Inv ⟨s, w.live⟩ qs ∧ HeadersInside w ⟨s, w.live⟩ := by
  obtain ⟨books, used, new, headers, clear⟩ := inv.opens opens heap
  refine ⟨⟨heap, books, used⟩, new, headers, fun h member => ⟨(clear h member).1, fun q live _ => (clear h member).2 q live⟩, ?_⟩
  exact fun h first q live => (clear h (List.mem_of_mem_head? first)).2 q live

theorem Inv.served {s' : Machine} (inv : Inv w ps) (opens : Opens { w.machine with supply := supply } ps s qs)
    (heap : Heap s qs)
    (heap' : Heap s' r) (books : (liveBlocks r).Perm ((p, size) :: liveBlocks qs)) (used : ∀ P ∈ r.tail, ¬ P.Empty)
    (free : t ∈ freeList r) (headers : s'.headers = t.start :: s.headers) :
    Inv ⟨s', (p, size) :: w.live⟩ r ∧ HeadersInside w ⟨s', (p, size) :: w.live⟩ := by
  obtain ⟨before, _, new, headersOld, clear⟩ := inv.opens opens heap
  have after : ((p, size) :: w.live).Perm (liveBlocks r) := (before.cons _).trans books.symm
  obtain ⟨place, outside⟩ := heap'.ranked.clear free
  refine ⟨⟨heap', after, used⟩, t.start :: new, ?_, ?_, ?_⟩
  · change s'.headers = _
    rw [headers, headersOld]
    rfl
  · refine List.forall_mem_cons.mpr ⟨⟨place, fun q _ live => outside q (after.subset live)⟩, fun h member => ?_⟩
    exact ⟨(clear h member).1, fun q live _ => (clear h member).2 q live⟩
  · intro h first q live
    rw [← Option.some.inj (show some t.start = some h from first)]
    exact outside q (after.subset live)

omit [Target] in
theorem tail_replaced (used : ∀ R ∈ (l ++ P :: r).tail, ¬ R.Empty) (occupied : ¬ Q.Empty) :
    ∀ R ∈ (l ++ Q :: r).tail, ¬ R.Empty := by
  intro R member
  have here : R = Q ∨ R ∈ (l ++ P :: r).tail := by
    cases l with
    | nil => exact .inr member
    | cons F l => exact (mem_replace member).imp_right mem_beside
  rcases here with rfl | old
  · exact occupied
  · exact used R old

omit [Target] in
theorem carved_used {base : Int} : ¬ (Page.carved base front n t back).Empty := by
  have member : (⟨t.start, n, .live⟩ : Block) ∈ (Page.carved base front n t back).live :=
    mem_live.mpr ⟨by simp [Page.carved], rfl⟩
  exact List.ne_nil_of_mem member

omit [Target] in
theorem mem_of_carved {base : Int} : rest n t ∈ freeList (l ++ Page.carved base front n t back :: r) :=
  mem_freeList.mpr ⟨Page.carved base front n t back, by simp, mem_free.mpr ⟨by simp [Page.carved], rfl⟩⟩

omit [Target] in
theorem liveBlocks_carved (split : P.tiles = front ++ t :: back) (free : t.label = .free) :
    (liveBlocks (l ++ Page.carved P.base front n t back :: r)).Perm ((t.start, n) :: liveBlocks (l ++ P :: r)) := by
  refine liveBlocks_add (t := ⟨t.start, n, .live⟩) ?_
  have same : P = ⟨P.base, front ++ t :: back⟩ := by rw [← split]
  have before := live_split (t := t) front back P.base
  have first := live_split (t := ⟨t.start, n, .live⟩) front (rest n t :: back) P.base
  have second := live_split (t := rest n t) front back P.base
  rw [if_neg (by simp [free])] at before
  rw [if_pos rfl] at first
  rw [if_neg (by simp [rest])] at second
  rw [same]
  exact first.trans ((second.trans before.symm).cons _)

theorem fresh_used : ¬ (fresh page n).Empty := by
  have member : (⟨page + ptr, n, .live⟩ : Block) ∈ (fresh page n).live := mem_live.mpr ⟨by simp [fresh], rfl⟩
  exact List.ne_nil_of_mem member

theorem mem_of_fresh : remainder page n ∈ freeList (l ++ fresh page n :: r) :=
  mem_freeList.mpr ⟨fresh page n, by simp, mem_free.mpr ⟨by simp [fresh], rfl⟩⟩

theorem liveBlocks_fresh : (liveBlocks (l ++ fresh page n :: r)).Perm ((page + ptr, n) :: liveBlocks (l ++ r)) := by
  have live : (fresh page n).live = [⟨page + ptr, n, .live⟩] := by simp [Page.live, fresh, remainder]
  rw [liveBlocks_append, liveBlocks_cons, live, liveBlocks_append]
  exact List.perm_middle

theorem Opens.separate {s' : Machine} (opens : Opens s ps s' qs) (separate : ∀ P ∈ ps, P.Separate) :
    ∀ P ∈ qs, P.Separate := by
  cases opens with
  | kept => exact separate
  | first =>
    intro P member
    rw [List.mem_singleton.mp member]
    exact List.isChain_singleton _

omit [Target] in
theorem carved_separate (split : P.tiles = front ++ t :: back) (free : t.label = .free) (separate : P.Separate) :
    (Page.carved P.base front n t back).Separate := by
  unfold Page.Separate at separate
  rw [split] at separate
  exact separate.cut (by simp) fun _ => free

theorem fresh_separate : (fresh page n).Separate :=
  List.isChain_cons_cons.mpr ⟨by simp, List.isChain_singleton _⟩

theorem Inv.malloc (inv : Inv w ps) (offered : Offered { w.machine with supply := supply }) (fitting : Fitting n)
    (high : n < 2 ^ 31) (exhausted : supply.length < 2 → e .allPagesAllocated)
    (blocked : n ≤ realPageSize → Blocked (opening ps supply).1 (opening ps supply).2 n → e .nullDereference) :
    wp (kmaMalloc n)
      (fun p t => (p = 0 ↔ realPageSize < n) ∧
        ∃ qs, Inv ⟨t, if p = 0 then w.live else (p, n) :: w.live⟩ qs ∧
          HeadersInside w ⟨t, if p = 0 then w.live else (p, n) :: w.live⟩ ∧
          ((∀ P ∈ ps, P.Separate) → ∀ P ∈ qs, P.Separate))
      e { w.machine with supply := supply } := by
  have bounds := ptr_bounds
  obtain ⟨low, sizes⟩ := fitting
  have heap := inv.heap.offer supply
  refine kmaMalloc_spec heap offered (by omega) high (fun none => exhausted ?_) (fun s qs opens heap large => ?_)
    (fun s qs opens heap small found => ?_) fun s qs opens heap some small none => ?_
  · rw [show supply = [] from none]
    simp
  · rw [if_pos rfl]
    obtain ⟨inv', inside⟩ := inv.rejected opens heap
    exact ⟨by simp [large], qs, inv', inside, opens.separate⟩
  · refine findFirstFit_carve heap low ?_ found fun l P r front t back m' split tiles free fit heap' => ?_
    · have real : realPageSize = 8192 - 2 * ptr := rfl
      omega
    · subst split
      have present : t.start ≠ 0 := by
        have sound := heap.ranked.sound P (by simp)
        have := sound.inside (show t ∈ P.tiles by rw [tiles]; simp)
        exact sound.legal.ne_zero (by omega) (by omega)
      rw [if_neg present]
      obtain ⟨inv', inside⟩ := inv.served opens heap heap' (liveBlocks_carved tiles free)
        (tail_replaced (inv.opens opens heap).2.1 carved_used) mem_of_carved rfl
      exact ⟨by simp [present, small], _, inv', inside,
        fun separate => forall_replaced (opens.separate separate) (carved_separate tiles free)⟩
  · have opened : opening ps supply = (qs, s.supply) := opens.opening
    rw [opened] at blocked
    refine newPage_cases heap some (opens.offered offered) (by omega) small (fun empty => exhausted (opens.exhausted empty))
      (fun page next offers left lower => ?_) fun page next offers l r m' left upper legal split behind _ _ heap' => ?_
    · have legal := (opens.offered offered).legal (page, next) (by simp [left])
      refine newPage_below heap some left legal lower (by omega) small (.inl (by omega))
        (blocked small ⟨none, page, next, offers, left, ?_⟩)
      rw [← heap.first]
      exact lower
    · subst split
      have present : page + ptr ≠ 0 := legal.ne_zero (by omega) (by omega)
      rw [if_neg present]
      obtain ⟨inv', inside⟩ := inv.served opens heap (heap' low (by omega)) liveBlocks_fresh
        (tail_used (inv.opens opens heap).2.1 fresh_used behind) mem_of_fresh rfl
      refine ⟨by simp [present, small], _, inv', inside, fun separate P member => ?_⟩
      rcases mem_replace member with rfl | old
      · exact fresh_separate
      · exact opens.separate separate P old

/-- A call whose request, if it is one, has a fitting size. -/
def Admits : Call → Prop
  | .malloc n _ => Fitting n
  | _ => True

theorem Inv.step {call : Call} (inv : Inv w ps) (admits : Admits call) (step : Step resourceMapAllocator w call w') :
    (∃ qs, Inv w' qs ∧ ((∀ P ∈ ps, P.Separate) → ∀ P ∈ qs, P.Separate)) ∧ HeadersInside w w' := by
  cases step with
  | malloc low high offered ran =>
    have served := inv.malloc (e := fun _ => True) offered admits high (fun _ => trivial) fun _ _ => trivial
    obtain ⟨_, qs, inv', inside, separate⟩ := wp_of_run ran served
    exact ⟨⟨qs, inv', separate⟩, inside⟩
  | free live ran =>
    have freed := inv.free (e := fun _ => True) live
    obtain ⟨qs, inv', inside, _, separate⟩ := wp_of_run ran freed
    exact ⟨⟨qs, inv', fun _ => separate⟩, inside⟩
  | client kept => exact ⟨⟨ps, inv.client kept, fun separate => separate⟩, [], rfl, by simp, by simp⟩

/-- In a run of fitting requests every state has the invariant, and no two free blocks on a page are neighbours. -/
theorem calls_separate {start last : World} {steps : List (World × Call)}
    (run : Calls resourceMapAllocator start steps last)
    (fitting : ∀ taken ∈ steps, Admits taken.2) :
    ∀ w ∈ visited steps last, ∃ ps, Inv w ps ∧ ∀ P ∈ ps, P.Separate := by
  apply run.2.invariant_visited (fun _ call => Admits call) fun w => ∃ ps, Inv w ps ∧ ∀ P ∈ ps, P.Separate
  · exact ⟨[], .initial run.1, by simp⟩
  · intro w call w' ⟨ps, inv, separate⟩ admits step
    obtain ⟨⟨qs, inv', kept⟩, _⟩ := inv.step admits step
    exact ⟨qs, inv', kept separate⟩
  · exact fitting

theorem calls_inv {start last : World} {steps : List (World × Call)} (run : Calls resourceMapAllocator start steps last)
    (fitting : ∀ taken ∈ steps, Admits taken.2) : ∀ w ∈ visited steps last, ∃ ps, Inv w ps := by
  intro w member
  obtain ⟨ps, inv, _⟩ := calls_separate run fitting w member
  exact ⟨ps, inv⟩

/-- A request of a fitting size returns when `get_page` has pages above the first one. -/
theorem Inv.malloc_next (inv : Inv w ps) (fitting : Fitting n) (positive : 1 ≤ n) (high : n < 2 ^ 31)
    (offered : Offered { w.machine with supply := supply }) (enough : 2 ≤ supply.length)
    (free : ¬ Blocked (opening ps supply).1 (opening ps supply).2 n) :
    ∃ p t, Step resourceMapAllocator w (.malloc n supply) ⟨t, if p = 0 then w.live else (p, n) :: w.live⟩ ∧
      (p = 0 ↔ realPageSize < n) ∧ ∃ qs, Inv ⟨t, if p = 0 then w.live else (p, n) :: w.live⟩ qs ∧
        HeadersInside w ⟨t, if p = 0 then w.live else (p, n) :: w.live⟩ ∧
        ((∀ P ∈ ps, P.Separate) → ∀ P ∈ qs, P.Separate) := by
  have served := inv.malloc (e := fun _ => False) offered fitting high (fun few => by omega) fun _ => free
  obtain ⟨p, t, ran, null, after⟩ := wp_returns served
  exact ⟨p, t, .malloc positive high offered ran, null, after⟩

theorem Ranked.size_le (ranked : Ranked ps) (free : t ∈ freeList ps) : t.size ≤ realPageSize := by
  obtain ⟨P, member, inP⟩ := mem_freeList.mp free
  have inside := (ranked.sound P member).tiled.inside (mem_free.mp inP).1
  unfold Page.stop at inside
  omega

/-- A request that the allocator does not reject returns a block inside a page, unless `get_page`
    hands out a page below the first one. -/
theorem Inv.malloc_accepts (inv : Inv w ps) (offered : Offered { w.machine with supply := supply }) (low : 2 * ptr ≤ n)
    (high : n ≤ realPageSize) (exhausted : supply.length < 2 → e .allPagesAllocated)
    (blocked : ¬ Blocked (opening ps supply).1 (opening ps supply).2 n) :
    wp (kmaMalloc n) (fun p _ => p ≠ 0 ∧ baseAddr p ≤ p ∧ p + n ≤ baseAddr p + 8192) e
      { w.machine with supply := supply } := by
  have bounds := ptr_bounds
  have real : realPageSize = 8192 - 2 * ptr := rfl
  have heap := inv.heap.offer supply
  refine kmaMalloc_spec heap offered (by omega) (by omega) (fun none => exhausted ?_) (fun s qs opens heap large => by omega)
    (fun s qs opens heap small found => ?_) fun s qs opens heap some small none => ?_
  · rw [show supply = [] from none]
    simp
  · refine findFirstFit_carve heap low (by omega) found fun l P r front t back m' split tiles free fit _ => ?_
    subst split
    have sound := heap.ranked.sound P (by simp)
    have member : t ∈ P.tiles := by rw [tiles]; simp
    have inside := sound.inside member
    unfold FitsIn at fit
    rw [sound.baseAddr member]
    exact ⟨sound.legal.ne_zero (by omega) (by omega), by omega, by omega⟩
  · have opened : opening ps supply = (qs, s.supply) := opens.opening
    rw [opened] at blocked
    refine newPage_cases heap some (opens.offered offered) (by omega) small (fun empty => exhausted (opens.exhausted empty))
      (fun page next offers left lower => absurd ⟨none, page, next, offers, left, heap.first ▸ lower⟩ blocked)
      fun page next offers l r m' left upper legal split behind _ _ _ => ?_
    · rw [legal.baseAddr (by omega) (by omega)]
      exact ⟨legal.ne_zero (by omega) (by omega), by omega, by omega⟩

end Eecs343.Kma.ResourceMap
