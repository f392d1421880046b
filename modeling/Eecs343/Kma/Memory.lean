import Eecs343.Kma.Machine

namespace Eecs343.Kma

open Bytes Effect

variable {α β : Type} {s : Machine} {m : Memory}

/-- Run on the variables of `s` and the memory `m`, the computation returns and changes nothing
    but memory, to one that satisfies `post`. -/
def wpm (x : C α) (post : α → Memory → Prop) (s : Machine) (m : Memory) : Prop :=
  wp x (fun a t => ∃ m', t = { s with memory := m' } ∧ post a m') (fun _ => False) { s with memory := m }

@[simp] theorem wpm_pure (a : α) (post : α → Memory → Prop) : wpm (pure a) post s m ↔ post a m := by
  constructor
  · intro ⟨m', same, holds⟩
    rw [show m = m' from congrArg Machine.memory same]
    exact holds
  · exact fun holds => ⟨m, rfl, holds⟩

theorem wpm_mono {x : C α} {post post' : α → Memory → Prop} (h : wpm x post s m)
    (weaker : ∀ a m', post a m' → post' a m') : wpm x post' s m :=
  wp_mono h fun a _ ⟨m', same, holds⟩ => ⟨m', same, weaker a m' holds⟩

theorem wpm_and {x : C α} {post post' : α → Memory → Prop} (left : wpm x post s m) (right : wpm x post' s m) :
    wpm x (fun a m' => post a m' ∧ post' a m') s m := by
  obtain ⟨a, t, ran, m', same, holds⟩ := wp_returns left
  obtain ⟨m'', same', holds'⟩ := wp_of_run ran right
  have memories : m' = m'' := congrArg Machine.memory (same.symm.trans same')
  unfold wpm wp
  rw [ran]
  exact ⟨m', same, holds, memories ▸ holds'⟩

theorem wpm_bind {x : C α} {f : α → C β} {post : β → Memory → Prop}
    (h : wpm x (fun a m' => wpm (f a) post s m') s m) : wpm (x >>= f) post s m := by
  unfold wpm
  rw [wp_bind]
  refine wp_mono h ?_
  rintro a t ⟨m', rfl, rest⟩
  exact rest

theorem wpm_write {n : Nat} {p offset v : Int} {post : Unit → Memory → Prop} :
    wpm (write n p offset v) post s m ↔ p ≠ 0 ∧ post () (store m n (p + offset) v) := by
  by_cases null : p = 0
  · simp [wpm, write, null]
  · rw [← wpm_pure (s := s) () post]
    simp [wpm, write, null]

@[simp] theorem wpm_read_bind {n : Nat} {p offset : Int} {f : Int → C β} {post : β → Memory → Prop} :
    wpm (read n p offset >>= f) post s m ↔ p ≠ 0 ∧ wpm (f (load m n (p + offset))) post s m := by
  by_cases null : p = 0 <;> simp [wpm, read, null]

@[simp] theorem wpm_write_bind {n : Nat} {p offset v : Int} {f : Unit → C β} {post : β → Memory → Prop} :
    wpm (write n p offset v >>= f) post s m ↔ p ≠ 0 ∧ wpm (f ()) post s (store m n (p + offset) v) := by
  by_cases null : p = 0 <;> simp [wpm, write, null]

@[simp] theorem wpm_get_bind {f : Machine → C β} {post : β → Memory → Prop} :
    wpm (get >>= f) post s m ↔ wpm (f { s with memory := m }) post s m := by
  unfold wpm
  rw [wp_bind, wp_get]

theorem wpm_pos {c : Prop} [Decidable c] {x y : C α} {post : α → Memory → Prop} (h : c) :
    wpm (if c then x else y) post s m ↔ wpm x post s m := by rw [if_pos h]

theorem wpm_neg {c : Prop} [Decidable c] {x y : C α} {post : α → Memory → Prop} (h : ¬ c) :
    wpm (if c then x else y) post s m ↔ wpm y post s m := by rw [if_neg h]

/-- What is proved about memory holds of the machine. -/
theorem wpm.wp {x : C α} {post : α → Memory → Prop} {exc : Stop → Prop} (h : wpm x post s s.memory) :
    wp x (fun a t => ∃ m', t = { s with memory := m' } ∧ post a m') exc s := wp_total h

theorem wpm.wp_bind {x : C α} {f : α → C β} {mid : α → Memory → Prop} {post : β → Machine → Prop}
    {exc : Stop → Prop} (h : wpm x mid s s.memory)
    (rest : ∀ a m', mid a m' → Effect.wp (f a) post exc { s with memory := m' }) : Effect.wp (x >>= f) post exc s := by
  rw [Effect.wp_bind]
  refine wp_mono h.wp ?_
  rintro a t ⟨m', rfl, holds⟩
  exact rest a m' holds

end Eecs343.Kma
