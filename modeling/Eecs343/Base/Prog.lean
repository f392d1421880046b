import Mathlib.Logic.Relation
import Mathlib.Logic.Unique
import Mathlib.Tactic.Common

/-- A program over a shared state, as a tree of its accesses. An access is one atomic step, which
    may have to wait until the state lets it through. -/
inductive Prog (σ : Type) : Type → Type 1 where
  | done {ρ : Type} (result : ρ) : Prog σ ρ
  | access {β ρ : Type} (act : σ → Option (β × σ)) (rest : β → Prog σ ρ) : Prog σ ρ
  /-- Repeats `body` until it answers with `.inr`. -/
  | loop {β γ ρ : Type} (body : β → Prog σ (β ⊕ γ)) (start : β) (rest : γ → Prog σ ρ) : Prog σ ρ

namespace Prog

variable {σ α β γ ρ τ : Type}

def bind : Prog σ ρ → (ρ → Prog σ τ) → Prog σ τ
  | done r, k => k r
  | access act rest, k => access act fun b => (rest b).bind k
  | loop body b rest, k => loop body b fun c => (rest c).bind k

instance : Monad (Prog σ) where
  pure := done
  bind := bind

theorem bind_eq (p : Prog σ ρ) (k : ρ → Prog σ τ) : p >>= k = p.bind k := rfl

theorem pure_eq (r : ρ) : (pure r : Prog σ ρ) = done r := rfl

theorem done_bind (r : ρ) (k : ρ → Prog σ τ) : (done r).bind k = k r := rfl

def again (body : β → Prog σ (β ⊕ γ)) (rest : γ → Prog σ ρ) : β ⊕ γ → Prog σ ρ
  | .inl b => loop body b rest
  | .inr c => rest c

def step : Prog σ ρ → σ → Option (Prog σ ρ × σ)
  | done _, _ => none
  | access act rest, s => (act s).map fun x => (rest x.1, x.2)
  | loop body b rest, s => some ((body b).bind (again body rest), s)

def exec : Nat → Prog σ ρ → σ → Option (ρ × σ)
  | _, done r, s => some (r, s)
  | 0, _, _ => none
  | n + 1, p, s => (step p s).bind fun x => exec n x.1 x.2

/-- The steps a program takes with the state to itself. -/
def Steps : Prog σ ρ × σ → Prog σ ρ × σ → Prop :=
  Relation.ReflTransGen fun x y => step x.1 x.2 = some y

def Runs (p : Prog σ ρ) (s : σ) (r : ρ) (t : σ) : Prop := Steps (p, s) (done r, t)

/-- From `s`, with the state to itself, the program returns, with a result and a state that
    satisfy `post`. -/
def Ends (p : Prog σ ρ) (s : σ) (post : ρ → σ → Prop) : Prop := ∃ r t, Runs p s r t ∧ post r t

def result : Prog σ ρ → Option ρ
  | done r => some r
  | access _ _ => none
  | loop _ _ _ => none

/-- The programs of a list of arguments run one after the other, each with the state to itself. -/
inductive Serial (function : α → Prog σ ρ) (start : σ) : List α → List ρ → σ → Prop where
  | nil : Serial function start [] [] start
  | snoc {arguments replies s argument reply t} (before : Serial function start arguments replies s)
    (runs : Runs (function argument) s reply t) : Serial function start (arguments ++ [argument]) (replies ++ [reply]) t

def read (get : σ → α) : Prog σ α := access (fun s => some (get s, s)) done

def write (put : σ → σ) : Prog σ Unit := access (fun s => some ((), put s)) done

/-- Waits for `guard`, then changes the state. -/
def await (guard : σ → Prop) [DecidablePred guard] (put : σ → σ) : Prog σ Unit :=
  access (fun s => if guard s then some ((), put s) else none) done

/-- A pointer that is about to be followed; NULL leads nowhere. -/
def deref (pointer : Option α) : Prog σ α := access (fun s => pointer.map (·, s)) done

theorem bind_assoc (p : Prog σ ρ) (f : ρ → Prog σ τ) (g : τ → Prog σ γ) :
    (p.bind f).bind g = p.bind fun r => (f r).bind g := by
  induction p with
  | done r => rfl
  | access act rest ih =>
    simp only [bind]
    congr 1
    funext b
    exact ih b f
  | loop body b rest _ ih =>
    simp only [bind]
    congr 1
    funext c
    exact ih c f

theorem bind_done (p : Prog σ ρ) : p.bind done = p := by
  induction p with
  | done r => rfl
  | access act rest ih =>
    simp only [bind]
    congr 1
    funext b
    exact ih b
  | loop body b rest _ ih =>
    simp only [bind]
    congr 1
    funext c
    exact ih c

theorem ite_bind {c : Prop} [Decidable c] {p q : Prog σ ρ} {k : ρ → Prog σ τ} :
    (if c then p else q).bind k = if c then p.bind k else q.bind k := by
  split <;> rfl

theorem step_bind {p q : Prog σ ρ} {s t : σ} (taken : step p s = some (q, t)) (k : ρ → Prog σ τ) :
    step (p.bind k) s = some (q.bind k, t) := by
  cases p with
  | done r => cases taken
  | access act rest =>
    simp only [step, Option.map_eq_some_iff] at taken
    obtain ⟨x, acted, same⟩ := taken
    cases same
    simp [bind, step, acted]
  | loop body b rest =>
    cases taken
    simp only [bind, step, bind_assoc]
    congr 2
    congr 1
    funext x
    cases x <;> rfl

theorem Steps.bind {x y : Prog σ ρ × σ} (steps : Steps x y) (k : ρ → Prog σ τ) :
    Steps (x.1.bind k, x.2) (y.1.bind k, y.2) := by
  induction steps with
  | refl => exact Relation.ReflTransGen.refl
  | tail _ taken ih => exact Relation.ReflTransGen.tail ih (step_bind taken k)

theorem steps_of_step {p q : Prog σ ρ} {s t : σ} (taken : step p s = some (q, t)) : Steps (p, s) (q, t) :=
  Relation.ReflTransGen.single taken

theorem Runs.of_step {p q : Prog σ ρ} {s t u : σ} {r : ρ} (taken : step p s = some (q, u)) (runs : Runs p s r t) :
    Runs q u r t := by
  cases Relation.ReflTransGen.cases_head runs with
  | inl same =>
    cases same
    cases taken
  | inr next =>
    obtain ⟨x, first, rest⟩ := next
    cases taken.symm.trans first
    exact rest

theorem Runs.after {p q : Prog σ ρ} {s t u : σ} {r : ρ} (steps : Steps (p, s) (q, u)) (runs : Runs q u r t) :
    Runs p s r t := Relation.ReflTransGen.trans steps runs

theorem runs_done {r r' : ρ} {s t : σ} : Runs (done r) s r' t ↔ r = r' ∧ s = t := by
  constructor
  · intro runs
    cases Relation.ReflTransGen.cases_head runs with
    | inl same =>
      cases same
      exact ⟨rfl, rfl⟩
    | inr next =>
      obtain ⟨x, first, _⟩ := next
      cases first
  · intro ⟨result, state⟩
    subst result state
    exact Relation.ReflTransGen.refl

theorem Runs.unique {p : Prog σ ρ} {s t t' : σ} {r r' : ρ} (runs : Runs p s r t) (runs' : Runs p s r' t') :
    r = r' ∧ t = t' := by
  generalize start : (p, s) = x at runs
  unfold Runs Steps at runs
  rw [start] at runs
  induction runs using Relation.ReflTransGen.head_induction_on generalizing p s with
  | refl =>
    cases start
    exact runs_done.mp runs'
  | head taken _ ih =>
    cases start
    exact ih (runs'.of_step taken) rfl

/-- There is one outcome of running the programs one after the other. -/
theorem Serial.unique {function : α → Prog σ ρ} {start s s' : σ} {arguments : List α} {replies replies' : List ρ}
    (serial : Serial function start arguments replies s) (serial' : Serial function start arguments replies' s') :
    replies = replies' ∧ s = s' := by
  induction serial generalizing replies' s' with
  | nil =>
    generalize empty : ([] : List α) = arguments at serial'
    cases serial' with
    | nil => exact ⟨rfl, rfl⟩
    | snoc => simp at empty
  | @snoc arguments _ _ argument _ _ _ runs ih =>
    generalize all : arguments ++ [argument] = arguments' at serial'
    cases serial' with
    | nil => simp at all
    | snoc before' runs' =>
      obtain ⟨rfl, last⟩ := List.append_inj' all rfl
      cases last
      obtain ⟨rfl, rfl⟩ := ih before'
      obtain ⟨rfl, rfl⟩ := runs.unique runs'
      exact ⟨rfl, rfl⟩

theorem eq_done {p : Prog σ ρ} {r : ρ} (finished : p.result = some r) : p = done r := by
  cases p with
  | done => cases finished; rfl
  | access => cases finished
  | loop => cases finished

theorem runs_of_exec {n : Nat} {p : Prog σ ρ} {s t : σ} {r : ρ} (ran : exec n p s = some (r, t)) : Runs p s r t := by
  induction n generalizing p s with
  | zero =>
    cases p with
    | done _ =>
      cases ran
      exact runs_done.mpr ⟨rfl, rfl⟩
    | access => cases ran
    | loop => cases ran
  | succ n ih =>
    cases p with
    | done _ =>
      cases ran
      exact runs_done.mpr ⟨rfl, rfl⟩
    | access =>
      obtain ⟨x, taken, rest⟩ := Option.bind_eq_some_iff.mp ran
      exact (ih rest).after (steps_of_step taken)
    | loop =>
      obtain ⟨x, taken, rest⟩ := Option.bind_eq_some_iff.mp ran
      exact (ih rest).after (steps_of_step taken)

theorem Ends.post {p : Prog σ ρ} {s t : σ} {r : ρ} {post : ρ → σ → Prop} (ends : Ends p s post) (runs : Runs p s r t) :
    post r t := by
  obtain ⟨r', t', runs', holds⟩ := ends
  obtain ⟨result, state⟩ := runs.unique runs'
  rw [result, state]
  exact holds

theorem Runs.ends {p : Prog σ ρ} {s t : σ} {r : ρ} (runs : Runs p s r t) : Ends p s fun r' t' => r' = r ∧ t' = t :=
  ⟨r, t, runs, rfl, rfl⟩

/-- Where a program returns, what it ensures is what holds of its result. -/
theorem Runs.ends_iff {p : Prog σ ρ} {s t : σ} {r : ρ} {post : ρ → σ → Prop} (runs : Runs p s r t) :
    Ends p s post ↔ post r t := by
  constructor
  · intro ends
    exact ends.post runs
  · intro holds
    exact ⟨r, t, runs, holds⟩

theorem Ends.mono {p : Prog σ ρ} {s : σ} {post post' : ρ → σ → Prop} (ends : Ends p s post)
    (weaker : ∀ r t, post r t → post' r t) : Ends p s post' := by
  obtain ⟨r, t, runs, holds⟩ := ends
  exact ⟨r, t, runs, weaker r t holds⟩

theorem Ends.of_steps {p q : Prog σ ρ} {s t : σ} {post : ρ → σ → Prop} (steps : Steps (p, s) (q, t))
    (ends : Ends q t post) :
    Ends p s post := by
  obtain ⟨r, u, runs, holds⟩ := ends
  exact ⟨r, u, runs.after steps, holds⟩

theorem step_of_bind {p : Prog σ ρ} {k : ρ → Prog σ τ} {s t : σ} {q : Prog σ τ} (pending : ∀ r, p ≠ done r)
    (taken : step (p.bind k) s = some (q, t)) : ∃ p', step p s = some (p', t) ∧ q = p'.bind k := by
  cases p with
  | done r => exact absurd rfl (pending r)
  | access act rest =>
    simp only [bind, step, Option.map_eq_some_iff] at taken
    obtain ⟨x, acted, same⟩ := taken
    cases same
    exact ⟨rest x.1, by simp [step, acted], rfl⟩
  | loop body b rest =>
    have first := step_bind (show step (loop body b rest) s = some _ from rfl) k
    cases first.symm.trans taken
    exact ⟨_, rfl, rfl⟩

theorem Runs.of_bind {p : Prog σ ρ} {k : ρ → Prog σ τ} {s t : σ} {r : τ} (runs : Runs (p.bind k) s r t) :
    ∃ a u, Runs p s a u ∧ Runs (k a) u r t := by
  generalize start : (p.bind k, s) = x at runs
  unfold Runs Steps at runs
  rw [start] at runs
  induction runs using Relation.ReflTransGen.head_induction_on generalizing p s with
  | refl =>
    cases p with
    | done a => exact ⟨a, s, Relation.ReflTransGen.refl, by rw [Runs, ← start]; exact Relation.ReflTransGen.refl⟩
    | access => cases start
    | loop => cases start
  | @head y z taken rest ih =>
    cases start
    by_cases finished : ∃ a, p = done a
    · obtain ⟨a, rfl⟩ := finished
      exact ⟨a, s, Relation.ReflTransGen.refl, Relation.ReflTransGen.head taken rest⟩
    · obtain ⟨p', first, same⟩ := step_of_bind (fun a here => finished ⟨a, here⟩) taken
      obtain ⟨a, u, runs, after⟩ := ih (p := p') (s := z.2) (by rw [← same])
      exact ⟨a, u, runs.after (steps_of_step first), after⟩

section Rules

variable {s : σ} {post : ρ → σ → Prop}

@[simp] theorem ends_pure {r : ρ} : Ends (pure r) s post ↔ post r s := by
  constructor
  · intro ends
    exact ends.post Relation.ReflTransGen.refl
  · intro holds
    exact ⟨r, s, Relation.ReflTransGen.refl, holds⟩

@[simp] theorem ends_done {r : ρ} : Ends (done r) s post ↔ post r s := ends_pure

@[simp] theorem ends_bind {p : Prog σ α} {k : α → Prog σ ρ} :
    Ends (p >>= k) s post ↔ Ends p s fun a t => Ends (k a) t post := by
  constructor
  · intro ⟨r, t, runs, holds⟩
    obtain ⟨a, u, first, rest⟩ := runs.of_bind
    exact ⟨a, u, first, r, t, rest, holds⟩
  · intro ⟨a, t, runs, rest⟩
    exact rest.of_steps (runs.bind k)

theorem ends_access {act : σ → Option (β × σ)} {rest : β → Prog σ ρ} :
    Ends (access act rest) s post ↔ ∃ b t, act s = some (b, t) ∧ Ends (rest b) t post := by
  constructor
  · intro ⟨r, t, runs, holds⟩
    cases Relation.ReflTransGen.cases_head runs with
    | inl same => cases same
    | inr next =>
      obtain ⟨x, first, after⟩ := next
      simp only [step, Option.map_eq_some_iff] at first
      obtain ⟨⟨b, u⟩, acted, rfl⟩ := first
      exact ⟨b, u, acted, r, t, after, holds⟩
  · intro ⟨b, t, acted, ends⟩
    apply ends.of_steps
    apply steps_of_step
    simp [step, acted]

theorem ends_loop {body : β → Prog σ (β ⊕ γ)} {b : β} {rest : γ → Prog σ ρ} :
    Ends (loop body b rest) s post ↔ Ends (body b) s fun x t => Ends (again body rest x) t post := by
  rw [← ends_bind]
  constructor
  · intro ⟨r, t, runs, holds⟩
    exact ⟨r, t, runs.of_step rfl, holds⟩
  · intro ends
    exact ends.of_steps (steps_of_step rfl)

@[simp] theorem ends_read {get : σ → ρ} : Ends (read get) s post ↔ post (get s) s := by
  simp [read, ends_access]

@[simp] theorem ends_write {put : σ → σ} {post : Unit → σ → Prop} : Ends (write put) s post ↔ post () (put s) := by
  simp [write, ends_access, Unique.exists_iff]

@[simp] theorem ends_await {guard : σ → Prop} [DecidablePred guard] {put : σ → σ} {post : Unit → σ → Prop} :
    Ends (await guard put) s post ↔ guard s ∧ post () (put s) := by
  simp [await, ends_access, Unique.exists_iff]

@[simp] theorem ends_deref {pointer : Option ρ} : Ends (deref pointer) s post ↔ ∃ r, pointer = some r ∧ post r s := by
  simp [deref, ends_access]

@[simp] theorem ends_ite {c : Prop} [Decidable c] {p q : Prog σ ρ} :
    Ends (if c then p else q) s post ↔ if c then Ends p s post else Ends q s post := by
  split <;> rfl

@[simp] theorem again_inl {body : β → Prog σ (β ⊕ γ)} {rest : γ → Prog σ ρ} {b : β} :
    again body rest (.inl b) = loop body b rest := rfl

@[simp] theorem again_inr {body : β → Prog σ (β ⊕ γ)} {rest : γ → Prog σ ρ} {c : γ} :
    again body rest (.inr c) = rest c := rfl

end Rules

end Prog
