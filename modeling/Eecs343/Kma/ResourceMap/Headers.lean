import Eecs343.Kma.ResourceMap.ExactTiling

namespace Eecs343.Kma.ResourceMap

open Bytes Effect Linked Tiling Transition

variable [Target]

variable {s : Machine} {w w' start last : World} {steps : List (World × Call)} {ps : List Page} {k : Nat} {n p offset v : Int}
  {call : Call}

/-- A size that is not too small to be freed. -/
def Allowed : Call → Prop
  | .malloc n _ => sizeofBlockheader ≤ n
  | _ => True

/-- A request that leaves room for a header behind its block, or that is rejected. -/
def KeepsHeaders : Call → Prop
  | .malloc n _ => n ≤ realPageSize - ptr ∨ realPageSize < n
  | _ => True

theorem Admits.of_allowed (allowed : Allowed call) (keeps : KeepsHeaders call) : Admits call := by
  cases call with
  | malloc n supply => exact ⟨allowed, keeps⟩
  | free p size => trivial
  | client memory => trivial

omit [Target] in
theorem wp_read_any {width : Nat} {post : Int → Machine → Prop} (h : post (load s.memory width (p + offset)) s) :
    wp (read width p offset) post (fun _ => True) s := by
  by_cases null : p = 0
  · simp [read, null]
  · exact wp_read null h

omit [Target] in
theorem wp_write_any {width : Nat} {post : Unit → Machine → Prop}
    (h : post () { s with memory := store s.memory width (p + offset) v }) :
    wp (write width p offset v) post (fun _ => True) s := by
  by_cases null : p = 0
  · simp [write, null]
  · exact wp_write null h

theorem insertHeader_headers (header current previous : Int) :
    wp (insertHeader k header current previous) (fun _ t => t.headers = s.headers) (fun _ => True) s := by
  induction k generalizing current previous with
  | zero => trivial
  | succ k ih =>
    unfold insertHeader
    by_cases none : current = 0
    · rw [if_pos none]
      exact rfl
    · rw [if_neg none]
      by_cases above : current > header
      · rw [if_pos above, wp_bind]
        exact wp_write_any (wp_write_any rfl)
      · rw [if_neg above, wp_bind]
        refine wp_read_any ?_
        by_cases stop : load s.memory ptr (current + ptr) = 0
        · rw [if_pos stop]
          exact wp_write_any rfl
        · rw [if_neg stop]
          exact ih _ _

/-- `new_page` writes one header, behind the block it returns. -/
theorem newPage_headers (offered : Offered s) :
    wp (newPage n) (fun _ t => ∃ page, Legal page ∧ t.headers = (page + ptr + n) :: s.headers) (fun _ => True) s := by
  unfold newPage
  rw [wp_bind]
  refine wp_getPage (fun _ => trivial) fun page next offers left => ?_
  have legal := offered.legal (page, next) (by simp [left])
  rw [wp_bind]
  refine wp_write_any ?_
  unfold writeHeader
  rw [wp_bind, wp_bind, wp_modify, wp_bind]
  refine wp_write_any (wp_write_any ?_)
  unfold firstPageBlock
  rw [wp_bind, wp_bind, wp_get]
  refine wp_read_any ?_
  rw [wp_bind]
  refine wp_mono (insertHeader_headers _ _ _) fun _ t same => ?_
  exact ⟨page, legal, same⟩

theorem Inv.headers_outside (inv : Inv w ps) {supply : List (Int × Int)} (low : realPageSize - ptr < n)
    (high : n ≤ realPageSize)
    (step : Step resourceMapAllocator w (.malloc n supply) w') : ¬ HeadersInside w w' := by
  have bounds := ptr_bounds
  have real : realPageSize = 8192 - 2 * ptr := rfl
  cases step with
  | malloc positive limit offered ran =>
    have heap := inv.heap.offer supply
    have written : wp (kmaMalloc n)
        (fun _ t => ∃ page new, Legal page ∧ t.headers = (page + ptr + n) :: (new ++ w.machine.headers)) (fun _ => True)
        { w.machine with supply := supply } := by
      refine kmaMalloc_spec heap offered positive limit (fun _ => trivial) (fun s qs opens heap large => by omega)
        (fun s qs opens heap small found => ?_) fun s qs opens heap some small none => ?_
      · obtain ⟨t, free, fit⟩ := found
        have := heap.ranked.size_le free
        unfold FitsIn at fit
        omega
      · obtain ⟨_, _, new, headers, _⟩ := inv.opens opens heap
        refine wp_mono (newPage_headers (opens.offered offered)) ?_
        intro _ t ⟨page, legal, same⟩
        exact ⟨page, new, legal, by rw [same, headers]⟩
    obtain ⟨page, new, legal, headers⟩ := wp_of_run ran written
    intro ⟨all, same, inside, _⟩
    have equal : all = (page + ptr + n) :: new := List.append_cancel_right (same.symm.trans headers)
    have here := (inside (page + ptr + n) (by rw [equal]; simp)).1.2
    rw [legal.baseAddr (by omega) (by omega)] at here
    omega

/-- In a run of requests that leave room for a header behind their blocks, a call writes its headers
    inside their pages and outside the live blocks exactly if it leaves that room. -/
theorem headers_inside_iff (run : Calls resourceMapAllocator start steps last)
    (allowed : ∀ taken ∈ steps, Allowed taken.2) (keeps : ∀ taken ∈ steps, KeepsHeaders taken.2) :
    ∀ w ∈ visited steps last, ∀ call w', Allowed call → Step resourceMapAllocator w call w' →
      (HeadersInside w w' ↔ KeepsHeaders call) := by
  intro w member call w' here step
  obtain ⟨ps, inv⟩ := calls_inv run (fun taken inside => .of_allowed (allowed taken inside) (keeps taken inside)) w member
  refine ⟨fun inside => ?_, fun keep => (inv.step (.of_allowed here keep) step).2⟩
  cases call with
  | malloc n supply =>
    by_contra crosses
    obtain ⟨low, high⟩ := not_or.mp crosses
    exact inv.headers_outside (by omega) (by omega) step inside
  | free p size => trivial
  | client memory => trivial

omit [Target] in
/-- The largest size that is accepted puts the header behind the block across the end of the page. -/
theorem header_of_8176_crosses : ∃ target : Target, target.ptr = 8 ∧ ∃ p t,
    Step resourceMapAllocator idle (.malloc 8176 (twoPages 8192)) ⟨t, [(p, 8176)]⟩ ∧
      ¬ HeadersInside idle ⟨t, [(p, 8176)]⟩ := by
  let target : Target := ⟨8, .inr rfl⟩
  have inv := Inv.initial idle_initial
  have offered : Offered { idle.machine with supply := twoPages 8192 } :=
    twoPages_offered rfl (by decide) (by decide) (by simp [idle])
  obtain ⟨p, t, ran, present, _⟩ := wp_returns (inv.malloc_accepts (e := fun _ => False) (n := 8176) offered (by decide)
    (by decide) (by simp [twoPages]) idle_not_blocked)
  have step : Step resourceMapAllocator idle (.malloc 8176 (twoPages 8192)) _ :=
    .malloc (by decide) (by decide) offered ran
  rw [if_neg present] at step
  exact ⟨target, rfl, p, t, step, inv.headers_outside (by decide) (by decide) step⟩

omit [Target] in
theorem headers_inside_one_request : ∃ target : Target, target.ptr = 8 ∧ ∃ p t,
    Step resourceMapAllocator idle (.malloc 16 (twoPages 8192)) ⟨t, [(p, 16)]⟩ ∧ HeadersInside idle ⟨t, [(p, 16)]⟩ := by
  let target : Target := ⟨8, .inr rfl⟩
  obtain ⟨p, t, step⟩ := idle_serves_16
  have run : Calls resourceMapAllocator idle [] idle := ⟨idle_initial, .refl⟩
  have small : Allowed (.malloc 16 (twoPages 8192)) := show sizeofBlockheader ≤ 16 by decide
  have inside := (headers_inside_iff run (by simp) (by simp) _ List.mem_cons_self _ _ small step).mpr (.inl (by decide))
  exact ⟨target, rfl, p, t, step, inside⟩

end Eecs343.Kma.ResourceMap
