import Eecs343.Base.Prog

namespace Prog

variable {σ τ α β γ ρ : Type}

/-- Every access of the program is one that is allowed. -/
def Each (allowed : ∀ β : Type, (σ → Option (β × σ)) → Prop) : {ρ : Type} → Prog σ ρ → Prop
  | _, done _ => True
  | _, @access _ β _ act rest => allowed β act ∧ ∀ b, Each allowed (rest b)
  | _, loop body _ rest => (∀ b, Each allowed (body b)) ∧ ∀ c, Each allowed (rest c)

/-- Every result the program can have satisfies `post`, whatever its accesses find. -/
def Answers (post : ρ → Prop) : Prog σ ρ → Prop
  | done r => post r
  | access _ rest => ∀ b, Answers post (rest b)
  | loop _ _ rest => ∀ c, Answers post (rest c)

/-- No access changes the part of the state that `get` shows. -/
def Keeps (get : σ → τ) : Prog σ ρ → Prop :=
  Each fun _ act => ∀ s b t, act s = some (b, t) → get t = get s

/-- That part alone decides what an access answers and what becomes of it. -/
def Reads (get : σ → τ) : Prog σ ρ → Prop :=
  Each fun _ act => ∀ s s' b t, get s = get s' → act s = some (b, t) → ∃ t', act s' = some (b, t') ∧ get t = get t'

/-- With the state to itself the program, if it returns, has a result and a state that satisfy `post`. -/
def Safe (p : Prog σ ρ) (s : σ) (post : ρ → σ → Prop) : Prop := ∀ r t, Runs p s r t → post r t

section

variable {allowed : ∀ β : Type, (σ → Option (β × σ)) → Prop}

theorem each_pure {r : ρ} : Each allowed (pure r : Prog σ ρ) := trivial

theorem each_bind {p : Prog σ α} {k : α → Prog σ ρ} (first : Each allowed p) (rest : ∀ a, Each allowed (k a)) :
    Each allowed (p >>= k) := by
  rw [bind_eq]
  induction p with
  | done r => exact rest r
  | access act cont ih => exact ⟨first.1, fun b => ih b (first.2 b) rest⟩
  | loop body b cont _ ih => exact ⟨first.1, fun c => ih c (first.2 c) rest⟩

theorem Each.mono {allowed' : ∀ β : Type, (σ → Option (β × σ)) → Prop} {p : Prog σ ρ} (each : Each allowed p)
    (weaker : ∀ β act, allowed β act → allowed' β act) : Each allowed' p := by
  induction p with
  | done r => trivial
  | access act rest ih => exact ⟨weaker _ act each.1, fun b => ih b (each.2 b)⟩
  | loop body b rest ihb ihr => exact ⟨fun b => ihb b (each.1 b), fun c => ihr c (each.2 c)⟩

theorem each_ite {c : Prop} [Decidable c] {p q : Prog σ ρ} (left : Each allowed p) (right : Each allowed q) :
    Each allowed (if c then p else q) := by
  split
  · exact left
  · exact right

theorem Each.again {body : β → Prog σ (β ⊕ γ)} {rest : γ → Prog σ ρ} (round : ∀ b, Each allowed (body b))
    (after : ∀ c, Each allowed (rest c)) (x : β ⊕ γ) : Each allowed (again body rest x) := by
  cases x with
  | inl b => exact ⟨round, after⟩
  | inr c => exact after c

theorem Each.step {p q : Prog σ ρ} {s t : σ} (each : Each allowed p) (taken : step p s = some (q, t)) :
    Each allowed q := by
  cases p with
  | done r => cases taken
  | access act rest =>
    obtain ⟨x, _, same⟩ := Option.map_eq_some_iff.mp taken
    cases same
    exact each.2 x.1
  | loop body b rest =>
    cases taken
    exact each_bind (each.1 b) (Each.again each.1 each.2)

end

section

variable {post : ρ → Prop}

theorem answers_pure {r : ρ} (holds : post r) : Answers post (pure r : Prog σ ρ) := holds

theorem answers_bind {p : Prog σ α} {k : α → Prog σ ρ} (rest : ∀ a, Answers post (k a)) : Answers post (p >>= k) := by
  rw [bind_eq]
  induction p with
  | done r => exact rest r
  | access act cont ih => exact fun b => ih b rest
  | loop body b cont _ ih => exact fun c => ih c rest

theorem answers_ite {c : Prop} [Decidable c] {p q : Prog σ ρ} (left : Answers post p) (right : Answers post q) :
    Answers post (if c then p else q) := by
  split
  · exact left
  · exact right

theorem Answers.step {p q : Prog σ ρ} {s t : σ} (answers : Answers post p) (taken : step p s = some (q, t)) :
    Answers post q := by
  cases p with
  | done r => cases taken
  | access act rest =>
    obtain ⟨x, _, same⟩ := Option.map_eq_some_iff.mp taken
    cases same
    exact answers x.1
  | loop body b rest =>
    cases taken
    apply answers_bind
    intro x
    cases x with
    | inl b => exact answers
    | inr c => exact answers c

end

section

variable {get : σ → τ}

theorem keeps_read {f : σ → α} : Keeps get (read f) := by
  refine ⟨?_, fun _ => trivial⟩
  intro s b t same
  cases same
  rfl

theorem keeps_write {put : σ → σ} (keeps : ∀ s, get (put s) = get s) : Keeps get (write put) := by
  refine ⟨?_, fun _ => trivial⟩
  intro s b t same
  cases same
  exact keeps s

theorem keeps_await {guard : σ → Prop} [DecidablePred guard] {put : σ → σ} (keeps : ∀ s, get (put s) = get s) :
    Keeps get (await guard put) := by
  refine ⟨?_, fun _ => trivial⟩
  intro s b t passed
  dsimp only at passed
  split at passed
  · cases passed
    exact keeps s
  · cases passed

theorem Keeps.step {p q : Prog σ ρ} {s t : σ} (keeps : Keeps get p) (taken : step p s = some (q, t)) : get t = get s := by
  cases p with
  | done r => cases taken
  | access act rest =>
    obtain ⟨x, acted, same⟩ := Option.map_eq_some_iff.mp taken
    cases same
    exact keeps.1 s x.1 x.2 acted
  | loop body b rest =>
    cases taken
    rfl

theorem Reads.step {p q : Prog σ ρ} {s s' t : σ} (reads : Reads get p) (same : get s = get s')
    (taken : step p s = some (q, t)) : ∃ t', step p s' = some (q, t') ∧ get t = get t' := by
  cases p with
  | done r => cases taken
  | access act rest =>
    obtain ⟨x, acted, done⟩ := Option.map_eq_some_iff.mp taken
    cases done
    obtain ⟨t', acted', after⟩ := reads.1 s s' x.1 x.2 same acted
    exact ⟨t', by simp [Prog.step, acted'], after⟩
  | loop body b rest =>
    cases taken
    exact ⟨s', rfl, same⟩

theorem Reads.runs {p : Prog σ ρ} {s s' t : σ} {r : ρ} (reads : Reads get p) (same : get s = get s')
    (runs : Runs p s r t) :
    ∃ t', Runs p s' r t' ∧ get t = get t' := by
  generalize start : (p, s) = x at runs
  unfold Runs Steps at runs
  rw [start] at runs
  induction runs using Relation.ReflTransGen.head_induction_on generalizing p s s' with
  | refl =>
    cases start
    exact ⟨s', runs_done.mpr ⟨rfl, rfl⟩, same⟩
  | @head _ next taken _ ih =>
    cases start
    obtain ⟨u', first, after⟩ := reads.step same taken
    obtain ⟨t', rest, same⟩ := ih (Each.step reads taken) after rfl
    exact ⟨t', rest.after (steps_of_step first), same⟩

end

section

variable {post : ρ → σ → Prop}

@[simp] theorem safe_done {r : ρ} {s : σ} : Safe (done r) s post ↔ post r s := by
  constructor
  · intro safe
    exact safe r s (runs_done.mpr ⟨rfl, rfl⟩)
  · intro holds r' t runs
    obtain ⟨rfl, rfl⟩ := runs_done.mp runs
    exact holds

theorem Safe.step {p q : Prog σ ρ} {s t : σ} (safe : Safe p s post) (taken : step p s = some (q, t)) : Safe q t post :=
  fun r u runs => safe r u (runs.after (steps_of_step taken))

theorem Safe.congr {get : σ → τ} {p : Prog σ ρ} {s s' : σ} (safe : Safe p s post) (reads : Reads get p)
    (same : get s = get s') (blind : ∀ r t t', get t = get t' → (post r t ↔ post r t')) : Safe p s' post := by
  intro r t' runs
  obtain ⟨t, here, alike⟩ := reads.runs same.symm runs
  exact (blind r t' t alike).mpr (safe r t here)

end

end Prog
