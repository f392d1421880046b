import Eecs343.Kma.Buddy.Rep

namespace Eecs343.Kma.Buddy

open Bytes Linked

variable [Target]

variable {s : Machine} {m : Memory} {k : Nat} {b p : Int} {l : List Int}

theorem FreeList.head (list : FreeList m k p l) : p = l.headD 0 := list.path.start

theorem freeList_nil : FreeList m k p [] ↔ p = 0 := by
  constructor
  · exact fun list => list.path
  · exact fun null => ⟨null, fun b member => by cases member⟩

theorem freeList_cons {y : Int} : FreeList m k p (y :: l) ↔
    p = y ∧ load m 4 (y + ptr) = blockSize k ∧ FreeList m k (load m ptr (y + 2 * ptr)) l := by
  constructor
  · intro ⟨⟨start, rest⟩, size⟩
    exact ⟨start, size y List.mem_cons_self, rest, fun b member => size b (List.mem_cons_of_mem _ member)⟩
  · intro ⟨start, first, rest, size⟩
    exact ⟨⟨start, rest⟩, List.forall_mem_cons.mpr ⟨first, size⟩⟩

def Spaced (l : List Int) : Prop := l.Pairwise fun a b => Apart a (3 * ptr) b (3 * ptr)

/-- The loop links the block where `insertTail` puts it, and writes `next` fields only. -/
theorem insertAfter_spec {n : Nat} {y : Int} (enough : l.length < n) (spaced : Spaced (b :: y :: l))
    (nonzero : ∀ w ∈ b :: y :: l, w ≠ 0) (fits : ∀ w ∈ b :: y :: l, Fits ptr w)
    (list : FreeList m k y (y :: l)) (size : load m 4 (b + ptr) = blockSize k) :
    wpm (insertAfter n y b) (fun _ m' => FreeList m' k y (y :: insertTail b l) ∧
      ∀ x, (∀ w ∈ b :: y :: l, x < w + 2 * ptr ∨ w + 3 * ptr ≤ x) → m' x = m x) s m := by
  have := ptr_bounds
  induction n generalizing y l with
  | zero => cases enough
  | succ n ih =>
    obtain ⟨_, sizeY, rest⟩ := freeList_cons.mp list
    have nonzeroY := nonzero y (by simp)
    unfold insertAfter
    rw [wpm_read_bind]
    refine ⟨nonzeroY, ?_⟩
    cases l with
    | nil =>
      rw [wpm_neg (by simpa using freeList_nil.mp rest), wpm_pure]
      exact ⟨list, fun _ _ => rfl⟩
    | cons z l =>
      obtain ⟨nextZ, sizeZ, tail⟩ := freeList_cons.mp rest
      have nonzeroZ := nonzero z (by simp)
      obtain ⟨apartB, spaced'⟩ := List.pairwise_cons.mp spaced
      obtain ⟨apartY, spacedZ⟩ := List.pairwise_cons.mp spaced'
      rw [nextZ, wpm_pos nonzeroZ]
      unfold insertTail
      by_cases before : b < z
      · rw [wpm_pos before, if_pos before, wpm_write_bind]
        refine ⟨nonzero b List.mem_cons_self, ?_⟩
        rw [wpm_write]
        refine ⟨nonzeroY, ?_, ?_⟩
        · have apart := apartB y List.mem_cons_self
          have apartBZ : ∀ w ∈ z :: l, Apart b (3 * ptr) w (3 * ptr) ∧ Apart y (3 * ptr) w (3 * ptr) :=
            fun w member => ⟨apartB w (List.mem_cons_of_mem _ member), apartY w member⟩
          unfold Apart at apart apartBZ
          refine freeList_cons.mpr ⟨rfl, ?_, freeList_cons.mpr ⟨?_, ?_, ?_⟩⟩
          · rw [load_store_of_disjoint _ _ (by omega), load_store_of_disjoint _ _ (by omega), sizeY]
          · rw [load_store _ (fits b List.mem_cons_self)]
          · rw [load_store_of_disjoint _ _ (by omega), load_store_of_disjoint _ _ (by omega), size]
          · rw [load_store_of_disjoint _ _ (by omega), load_store _ (fits z (by simp))]
            rw [nextZ] at rest
            refine rest.frame fun w member x low high => ?_
            have := apartBZ w member
            rw [store_outside _ _ _ _ (by omega), store_outside _ _ _ _ (by omega)]
        · intro x outside
          have outB := outside b List.mem_cons_self
          have outY := outside y (by simp)
          rw [store_outside _ _ _ _ (by omega), store_outside _ _ _ _ (by omega)]
      · rw [wpm_neg before, if_neg before]
        have keep : ∀ w ∈ b :: z :: l, w ∈ b :: y :: z :: l := by
          intro w member
          rcases List.mem_cons.mp member with rfl | member
          · exact List.mem_cons_self
          · exact List.mem_cons_of_mem _ (List.mem_cons_of_mem _ member)
        have inner := ih (by simpa using enough) (List.pairwise_cons.mpr
            ⟨fun w member => apartB w (List.mem_cons_of_mem _ member), spacedZ⟩)
          (fun w member => nonzero w (keep w member)) (fun w member => fits w (keep w member))
          (nextZ ▸ rest)
        apply wpm_mono inner
        intro _ m' inserted
        obtain ⟨listed, outside⟩ := inserted
        refine ⟨?_, fun x out => outside x fun w member => out w (keep w member)⟩
        -- the walk has passed `y`, and what is written further on is not its header
        have same : ∀ x, y ≤ x → x < y + 3 * ptr → m' x = m x := by
          intro x low high
          refine outside x fun w member => ?_
          have apart : Apart y (3 * ptr) w (3 * ptr) := by
            rcases List.mem_cons.mp member with rfl | member
            · exact (apartB y List.mem_cons_self).symm
            · exact apartY w member
          unfold Apart at apart
          omega
        refine freeList_cons.mpr ⟨rfl, ?_, ?_⟩
        · rw [load_congr fun x _ _ => same x (by omega) (by omega), sizeY]
        · rw [load_congr fun x _ _ => same x (by omega) (by omega), nextZ]
          exact listed

theorem getBuddy_spec {base : Int} {post : Int → Memory → Prop} (legal : Legal base) (low : base ≤ b)
    (high : b < base + 8192) (size : load m 4 (b + ptr) = blockSize k) (holds : post (buddy base k b) m) :
    wpm (getBuddy b) post s m := by
  have positive := blockSize_pos k
  unfold getBuddy
  rw [wpm_read_bind, size, legal.baseAddr low high]
  refine ⟨legal.ne_zero low high, ?_⟩
  rw [Int.tdiv_eq_ediv_of_nonneg (by omega)]
  unfold buddy at holds
  split
  · next odd => simpa [odd] using holds
  · next even => simpa [even] using holds

theorem findPair_spec {n : Nat} {base : Int} (legal : Legal base) (enough : l.length < n)
    (inside : ∀ w ∈ l, base ≤ w ∧ w < base + 8192) (list : FreeList m k p l) :
    wpm (findPair n p)
      (fun r m' => m' = m ∧ r = ((splitPair base k l).map fun found => found.2.1).getD 0) s m := by
  induction n generalizing p l with
  | zero => cases enough
  | succ n ih =>
    unfold findPair
    cases l with
    | nil =>
      rw [wpm_pos (freeList_nil.mp list), wpm_pure]
      exact ⟨rfl, rfl⟩
    | cons y l =>
      obtain ⟨rfl, sizeY, rest⟩ := freeList_cons.mp list
      obtain ⟨low, high⟩ := inside p List.mem_cons_self
      have nonzero := legal.ne_zero low high
      have inner := ih (by simpa using enough) (fun w member => inside w (List.mem_cons_of_mem _ member)) rest
      rw [wpm_neg nonzero, wpm_read_bind]
      refine ⟨nonzero, ?_⟩
      cases l with
      | nil =>
        rw [wpm_neg (by simpa using freeList_nil.mp rest)]
        exact inner
      | cons z l =>
        obtain ⟨nextZ, _⟩ := freeList_cons.mp rest
        obtain ⟨lowZ, highZ⟩ := inside z (by simp)
        rw [wpm_pos (nextZ ▸ legal.ne_zero lowZ highZ)]
        apply wpm_bind
        refine getBuddy_spec legal low high sizeY ?_
        rw [nextZ] at inner ⊢
        unfold splitPair
        by_cases pair : buddy base k p = z
        · rw [wpm_pos pair, wpm_pure, if_pos pair]
          exact ⟨rfl, rfl⟩
        · rw [wpm_neg pair, if_neg pair]
          simpa [Option.map_map, Function.comp_def] using inner

end Eecs343.Kma.Buddy
