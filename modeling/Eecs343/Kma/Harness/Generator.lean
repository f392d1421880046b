import Eecs343.Kma.Harness.Ledger

namespace Eecs343.Kma.Harness

/-- `genAllocs`: a request with each number below `count`, of the size that is drawn for it. -/
def genAllocs (count : Nat) (size : Nat → Int) : List Command :=
  (List.range count).map fun i : Nat => .request i (size i)

/-- `allocs.insert(insertIndex, tup)`. -/
def insert (allocs : List Command) (insertIndex : Nat) (tup : Command) : List Command :=
  allocs.take insertIndex ++ tup :: allocs.drop insertIndex

/-- The passes of the loop of `addDeallocs` from `index` on: behind each request its free is put where `pick` draws it,
    from the index and the length of the list. Nothing where the loop raises its error or goes on. -/
def addDeallocs (pick : Nat → Nat → Nat) : (passes index : Nat) → List Command → Option (List Command)
  | 0, _, _ => none
  | passes + 1, index, allocs =>
    match allocs[index]? with
    | none => some allocs
    | some (.free _) => addDeallocs pick passes (index + 1) allocs
    | some (.request i _) =>
      let insertIndex := pick index allocs.length
      if insertIndex ≤ index then none else addDeallocs pick passes (index + 1) (insert allocs insertIndex (.free i))

/-- The commands of `allocationStream`. The loop takes as many passes as there are lines in the end, and one more. -/
def allocationStream (count : Nat) (size : Nat → Int) (pick : Nat → Nat → Nat) : Option (List Command) :=
  addDeallocs pick (2 * count + 1) 0 (genAllocs count size)

def Command.reqId : Command → Int
  | .request i _ => i
  | .free i => i

def about (i : Int) (cs : List Command) : List Command := cs.filter fun c => c.reqId = i

/-- The request with a number below `count` that the lines are about. -/
def Names (count : Nat) (size : Nat → Int) (i : Int) (lines : List Command) (free : Bool) : Prop :=
  ∃ k < count, i = k ∧ lines = .request k (size k) :: if free then [.free k] else []

/-- The lines about a request are those of one that is freed later, or there are none. -/
def Paired (count : Nat) (size : Nat → Int) (cs : List Command) : Prop :=
  ∀ i, about i cs = [] ∨ Names count size i (about i cs) true

/-- The lines about a request with a number below `count` are the request and, later, its free; there are no others. -/
def FreedLater (count : Nat) (size : Nat → Int) (cs : List Command) : Prop :=
  ∀ i, about i cs = if 0 ≤ i ∧ i < count then [.request i (size i.toNat), .free i] else []

variable {pick : Nat → Nat → Nat} {size : Nat → Int} {cs a b l r : List Command} {c : Command} {i j s : Int}
  {count passes : Nat}

theorem about_append : about i (l ++ r) = about i l ++ about i r := List.filter_append ..

theorem about_cons : about i (c :: cs) = if c.reqId = i then c :: about i cs else about i cs := by
  by_cases same : c.reqId = i <;> simp [about, same]

theorem about_request : about i (.request j s :: cs) = if j = i then .request j s :: about i cs else about i cs := about_cons

theorem about_free : about i (.free j :: cs) = if j = i then .free j :: about i cs else about i cs := about_cons

theorem about_insert (at_ : Nat) : about i (insert l at_ (.free j)) =
    if j = i then about i (l.take at_) ++ .free j :: about i (l.drop at_) else about i l := by
  have whole := congrArg (about i) (List.take_append_drop at_ l)
  rw [about_append] at whole
  rw [insert, about_append, about_free, ← whole]
  split <;> rfl

/-- The loop has come to the end of `a`: requests there have their free, and those in `b` are still alone. -/
structure Pairing (count : Nat) (size : Nat → Int) (a b : List Command) : Prop where
  done : ∀ i, about i a ≠ [] → Names count size i (about i (a ++ b)) true
  ahead : ∀ i, about i a = [] → about i b = [] ∨ Names count size i (about i b) false

/-- The passes that the rest of the list takes: one for each line, and one for the free of each request. -/
def weight : List Command → Nat
  | [] => 0
  | .request _ _ :: cs => weight cs + 2
  | .free _ :: cs => weight cs + 1

theorem weight_append : weight (l ++ r) = weight l + weight r := by
  induction l with
  | nil => simp [weight]
  | cons c l ih =>
    cases c <;> simp only [List.cons_append, weight, ih] <;> omega

theorem weight_insert (at_ : Nat) : weight (insert l at_ c) = weight l + weight [c] := by
  have whole := congrArg weight (List.take_append_drop at_ l)
  rw [weight_append] at whole
  rw [insert, ← List.singleton_append, weight_append, weight_append]
  omega

theorem about_genAllocs (count : Nat) : about i (genAllocs count size) =
    if 0 ≤ i ∧ i < count then [.request i (size i.toNat)] else [] := by
  induction count with
  | zero =>
    rw [if_neg (by omega)]
    rfl
  | succ count ih =>
    rw [genAllocs, List.range_succ, List.map_append, about_append]
    change about i (genAllocs count size) ++ about i [.request count (size count)] = _
    rw [ih, about_request]
    by_cases last : (count : Int) = i
    · subst last
      rw [if_neg (by omega), if_pos rfl, if_pos (by omega)]
      rfl
    · rw [if_neg last]
      simp only [show (0 ≤ i ∧ i < ((count + 1 : Nat) : Int)) ↔ 0 ≤ i ∧ i < count by omega]
      exact List.append_nil _

theorem Pairing.start : Pairing count size [] (genAllocs count size) := by
  refine ⟨fun i some => absurd rfl some, fun i _ => ?_⟩
  rw [about_genAllocs]
  by_cases named : 0 ≤ i ∧ i < count
  · refine .inr ⟨i.toNat, by omega, by omega, ?_⟩
    rw [if_pos named, Int.toNat_of_nonneg named.1]
    rfl
  · exact .inl (if_neg named)

theorem weight_genAllocs (count : Nat) : weight (genAllocs count size) = 2 * count := by
  induction count with
  | zero => rfl
  | succ count ih =>
    rw [genAllocs, List.range_succ, List.map_append, weight_append]
    change weight (genAllocs count size) + 2 = _
    omega

theorem Pairing.free (pairing : Pairing count size a (.free j :: b)) : Pairing count size (a ++ [.free j]) b := by
  have whole : a ++ [.free j] ++ b = a ++ .free j :: b := by simp
  refine ⟨fun i some => ?_, fun i none => ?_⟩
  · rw [whole]
    by_cases old : about i a = []
    · rw [about_append, old, about_free] at some
      by_cases here : j = i
      · -- A free cannot come first of its lines.
        rcases pairing.ahead i old with none | ⟨k, _, _, lines⟩
        · rw [about_free, if_pos here] at none
          cases none
        · rw [about_free, if_pos here] at lines
          cases lines
      · rw [if_neg here] at some
        exact absurd rfl some
    · exact pairing.done i old
  · rw [about_append] at none
    obtain ⟨before, other⟩ := List.append_eq_nil_iff.mp none
    have later := pairing.ahead i before
    rw [about_free] at other later
    by_cases here : j = i
    · rw [if_pos here] at other
      cases other
    · rwa [if_neg here] at later

theorem Pairing.new (pairing : Pairing count size a (.request j s :: b)) : about j a = [] := by
  by_contra old
  obtain ⟨k, _, _, lines⟩ := pairing.done j old
  rw [about_append, about_request, if_pos rfl] at lines
  cases first : about j a with
  | nil => exact old first
  | cons c rest =>
    rw [first, List.cons_append] at lines
    have second := (List.cons.inj lines).2
    cases rest with
    | nil => cases (List.cons.inj second).1
    | cons c' rest =>
      have third := (List.cons.inj second).2
      cases rest <;> cases third

theorem Pairing.request (pairing : Pairing count size a (.request j s :: b)) (at_ : Nat) :
    Pairing count size (a ++ [.request j s]) (insert b at_ (.free j)) := by
  have new := pairing.new
  obtain ⟨k, bound, rfl, lines⟩ : Names count size j (about j (.request j s :: b)) false := by
    rcases pairing.ahead j new with none | named
    · rw [about_request, if_pos rfl] at none
      cases none
    · exact named
  rw [about_request, if_pos rfl] at lines
  obtain ⟨first, rest⟩ := List.cons.inj lines
  have whole := congrArg (about k) (List.take_append_drop at_ b)
  rw [about_append, show about k b = [] from rest] at whole
  obtain ⟨left, right⟩ := List.append_eq_nil_iff.mp whole
  have others : ∀ i : Int, i ≠ k → about i (a ++ [.request k s]) = about i a ∧
      about i (insert b at_ (.free k)) = about i b ∧ about i (.request k s :: b) = about i b := by
    intro i other
    have ne : (k : Int) ≠ i := Ne.symm other
    rw [about_append, about_request, if_neg ne, about_insert, if_neg ne, about_request, if_neg ne]
    exact ⟨List.append_nil _, rfl, rfl⟩
  refine ⟨fun i some => ?_, fun i none => ?_⟩
  · by_cases here : i = k
    · subst here
      refine ⟨k, bound, rfl, ?_⟩
      rw [about_append, about_append, new, about_request, if_pos rfl, about_insert]
      rw [if_pos rfl, left, right, first]
      rfl
    · obtain ⟨before, inserted, after⟩ := others i here
      rw [before] at some
      rw [about_append, before, inserted, ← after, ← about_append]
      exact pairing.done i some
  · by_cases here : i = k
    · subst here
      rw [about_append, about_request, if_pos rfl] at none
      simp at none
    · obtain ⟨before, inserted, after⟩ := others i here
      rw [before] at none
      rw [inserted, ← after]
      exact pairing.ahead i none

theorem Pairing.paired (pairing : Pairing count size a []) : Paired count size a := by
  intro i
  by_cases none : about i a = []
  · exact .inl none
  · have done := pairing.done i none
    rw [List.append_nil] at done
    exact .inr done

theorem Paired.freedLater (paired : Paired count size cs) (all : genAllocs count size ⊆ cs) : FreedLater count size cs := by
  intro i
  by_cases named : 0 ≤ i ∧ i < count
  · have inside : Command.request i (size i.toNat) ∈ genAllocs count size :=
      List.mem_map.mpr ⟨i.toNat, List.mem_range.mpr (by omega), by rw [Int.toNat_of_nonneg named.1]⟩
    have line : .request i (size i.toNat) ∈ about i cs := List.mem_filter.mpr ⟨all inside, decide_eq_true rfl⟩
    rw [if_pos named]
    rcases paired i with none | ⟨k, _, rfl, lines⟩
    · rw [none] at line
      cases line
    · rw [lines, Int.toNat_natCast]
      rfl
  · rw [if_neg named]
    rcases paired i with none | ⟨k, bound, rfl, _⟩
    · exact none
    · exact absurd ⟨Int.natCast_nonneg k, Int.ofNat_lt.mpr bound⟩ named

theorem subset_insert {at_ : Nat} : l ⊆ insert l at_ c := by
  intro other member
  rw [← List.take_append_drop at_ l] at member
  exact List.mem_append.mpr ((List.mem_append.mp member).imp_right (List.mem_cons_of_mem _))

theorem insert_behind {at_ : Nat} (behind : a.length ≤ at_) :
    insert (a ++ b) at_ c = a ++ insert b (at_ - a.length) c := by
  rw [insert, insert, List.take_append, List.drop_append, List.take_of_length_le behind, List.drop_of_length_le behind,
    List.nil_append, List.append_assoc]

/-- The draws of `random.randint`: an index behind the request, at most the end of the list. -/
def Draws (pick : Nat → Nat → Nat) : Prop := ∀ index length, index < length → index + 1 ≤ pick index length ∧ pick index length ≤ length

theorem addDeallocs_spec (draws : Draws pick) (pairing : Pairing count size a b) (enough : weight b < passes) :
    ∃ l, addDeallocs pick passes a.length (a ++ b) = some l ∧ Paired count size l ∧ a ++ b ⊆ l ∧
      l.length = a.length + weight b := by
  induction passes generalizing a b with
  | zero => omega
  | succ passes ih =>
    have here : (a ++ b)[a.length]? = b.head? := by
      rw [List.getElem?_append_right (le_refl _), Nat.sub_self, List.head?_eq_getElem?]
    rw [addDeallocs, here]
    cases b with
    | nil => exact ⟨a ++ [], rfl, by rw [List.append_nil]; exact pairing.paired, List.Subset.refl _, by simp [weight]⟩
    | cons c b =>
      have whole : a ++ c :: b = a ++ [c] ++ b := by simp
      have length : (a ++ [c]).length = a.length + 1 := by simp
      cases c with
      | free j =>
        obtain ⟨l, ran, paired, kept, total⟩ := ih pairing.free (by simp only [weight] at enough; omega)
        rw [length] at ran total
        exact ⟨l, by rw [List.head?_cons, whole]; exact ran, paired, whole ▸ kept, by rw [total, weight]; omega⟩
      | request j s =>
        obtain ⟨behind, _⟩ := draws a.length (a ++ .request j s :: b).length (by simp)
        rw [List.head?_cons]
        dsimp only
        generalize pick a.length (a ++ .request j s :: b).length = insertIndex at behind ⊢
        have inserted := weight_insert (l := b) (c := .free j) (insertIndex - (a.length + 1))
        rw [show weight [.free j] = 1 from rfl] at inserted
        have lighter : weight b + 1 < passes := by
          rw [weight] at enough
          omega
        obtain ⟨l, ran, paired, kept, total⟩ := ih (pairing.request _) (inserted ▸ lighter)
        rw [length] at ran total
        have before : a ++ [.request j s] ++ b ⊆ l := fun other member =>
          kept (List.mem_append.mpr ((List.mem_append.mp member).imp_right fun later => subset_insert later))
        refine ⟨l, ?_, paired, whole ▸ before, by rw [total, inserted, weight]; omega⟩
        rw [if_neg (by omega), whole, insert_behind (by rw [length]; omega), length]
        exact ran

/-- Whatever is drawn, the generator ends, with two lines about each of its requests: the request, and later its free. -/
theorem allocationStream_paired (draws : Draws pick) (count : Nat) (size : Nat → Int) :
    ∃ l, allocationStream count size pick = some l ∧ Paired count size l ∧ FreedLater count size l ∧ l.length = 2 * count := by
  have weighs : weight (genAllocs count size) = 2 * count := weight_genAllocs count
  have started : Pairing count size [] (genAllocs count size) := .start
  have enough : weight (genAllocs count size) < 2 * count + 1 := by omega
  obtain ⟨l, ran, paired, kept, total⟩ := addDeallocs_spec draws started enough
  refine ⟨l, ran, paired, paired.freedLater kept, ?_⟩
  rw [total, weighs]
  exact Nat.zero_add _

end Eecs343.Kma.Harness
