import Mathlib.Tactic.Common

namespace Effect

variable {σ ε α β : Type}

/-- A computation that reads and writes a state and may stop with an error. -/
abbrev Comp (σ ε α : Type) := StateT σ (Except ε) α

/-- From `s` the computation returns, with a result and a state that satisfy `post`, or it stops
    with an error that satisfies `exc`. -/
def wp (x : Comp σ ε α) (post : α → σ → Prop) (exc : ε → Prop) (s : σ) : Prop :=
  match x.run s with
  | .ok (a, t) => post a t
  | .error e => exc e

variable {x : Comp σ ε α} {post post' : α → σ → Prop} {exc : ε → Prop} {s t : σ} {a : α}

theorem wp_of_run (ran : x.run s = .ok (a, t)) (h : wp x post exc s) : post a t := by
  simpa only [wp, ran] using h

theorem wp_total_of (h : wp x post exc s) (never : ∀ e, ¬ exc e) : wp x post (fun _ => False) s := by
  unfold wp at h ⊢
  cases ran : x.run s with
  | ok r => rw [ran] at h; exact h
  | error e => rw [ran] at h; exact never e h

theorem wp_returns (h : wp x post (fun _ => False) s) : ∃ a t, x.run s = .ok (a, t) ∧ post a t := by
  unfold wp at h
  cases ran : x.run s with
  | ok r => rw [ran] at h; exact ⟨r.1, r.2, rfl, h⟩
  | error e => rw [ran] at h; exact h.elim

theorem wp_mono (h : wp x post exc s) (weaker : ∀ a t, post a t → post' a t) : wp x post' exc s := by
  unfold wp at h ⊢
  cases ran : x.run s with
  | ok r => rw [ran] at h; exact weaker _ _ h
  | error e => rw [ran] at h; exact h

theorem wp_total (h : wp x post (fun _ => False) s) : wp x post exc s := by
  unfold wp at h ⊢
  cases ran : x.run s with
  | ok r => rw [ran] at h; exact h
  | error e => rw [ran] at h; exact h.elim

theorem wp_and {exc' : ε → Prop} (left : wp x post exc s) (right : wp x post' exc' s) :
    wp x (fun a t => post a t ∧ post' a t) (fun e => exc e ∧ exc' e) s := by
  unfold wp at left right ⊢
  cases ran : x.run s with
  | ok r =>
    rw [ran] at left right
    exact ⟨left, right⟩
  | error e =>
    rw [ran] at left right
    exact ⟨left, right⟩

theorem wp_exc {exc' : ε → Prop} (h : wp x post exc s) (weaker : ∀ e, exc e → exc' e) : wp x post exc' s := by
  unfold wp at h ⊢
  cases ran : x.run s with
  | ok r => rw [ran] at h; exact h
  | error e => rw [ran] at h; exact weaker e h

theorem wp_anywhere (h : ∀ a t, post a t) : wp x post (fun _ => True) s := by
  unfold wp
  cases x.run s with
  | ok r => exact h r.1 r.2
  | error e => trivial

theorem run_eq_of_wp {y : Comp σ ε α} (same : ∀ post exc, wp y post exc t → wp x post exc s) : x.run s = y.run t := by
  have held := same (fun a u => .ok (a, u) = y.run t) (fun e => .error e = y.run t) (by unfold wp; cases y.run t <;> rfl)
  unfold wp at held
  cases ran : x.run s with
  | ok r => rw [ran] at held; exact held
  | error e => rw [ran] at held; exact held

@[simp] theorem wp_pure : wp (pure a : Comp σ ε α) post exc s ↔ post a s := Iff.rfl

@[simp] theorem wp_bind {f : α → Comp σ ε β} {post : β → σ → Prop} :
    wp (x >>= f) post exc s ↔ wp x (fun a t => wp (f a) post exc t) exc s := by
  simp only [wp, StateT.run_bind]
  cases x.run s <;> rfl

@[simp] theorem wp_map {f : α → β} {post : β → σ → Prop} :
    wp (f <$> x) post exc s ↔ wp x (fun a t => post (f a) t) exc s := by
  simp only [wp, StateT.run_map]
  cases x.run s <;> rfl

@[simp] theorem wp_get {post : σ → σ → Prop} :
    wp (get : Comp σ ε σ) post exc s ↔ post s s := Iff.rfl

@[simp] theorem wp_modify (f : σ → σ) {post : Unit → σ → Prop} :
    wp (modify f : Comp σ ε Unit) post exc s ↔ post () (f s) := Iff.rfl

@[simp] theorem wp_throw (e : ε) : wp (throw e : Comp σ ε α) post exc s ↔ exc e := Iff.rfl

/-- Wherever `x` returns, `y` does the same. -/
def Below (x y : Comp σ ε α) : Prop := ∀ s a t, x.run s = .ok (a, t) → y.run s = .ok (a, t)

theorem Below.refl (x : Comp σ ε α) : Below x x := fun _ _ _ ran => ran

theorem below_throw (e : ε) (y : Comp σ ε α) : Below (throw e) y := by
  intro s a t ran
  cases ran

theorem Below.bind {y : Comp σ ε α} {f g : α → Comp σ ε β} (first : Below x y) (rest : ∀ a, Below (f a) (g a)) :
    Below (x >>= f) (y >>= g) := by
  intro s b t ran
  rw [StateT.run_bind] at ran ⊢
  cases left : x.run s with
  | error e =>
    rw [left] at ran
    cases ran
  | ok r =>
    rw [left] at ran
    rw [first s r.1 r.2 left]
    exact rest r.1 r.2 b t ran

theorem Below.ite {c : Prop} [Decidable c] {x y x' y' : Comp σ ε α} (left : Below x y) (right : Below x' y') :
    Below (if c then x else x') (if c then y else y') := by
  by_cases holds : c
  · rwa [if_pos holds, if_pos holds]
  · rwa [if_neg holds, if_neg holds]

end Effect
