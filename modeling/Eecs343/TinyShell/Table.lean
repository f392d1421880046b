import Mathlib.Data.List.Nodup
import Eecs343.Base.Transition
import Eecs343.TinyShell.Jobs

namespace Eecs343.TinyShell

open Transition

inductive Operation where
  | addJob (pid : Int) (state : JobState) (cmdline : String) (print : Bool)
  | updateJobs (pid : Int) (state : JobState)
  | checkJobs
  | runCmdBg (fg : Bool) (id : Option Int)

/-- `AddJob` is called for running jobs, `UpdateJobs` for jobs that stopped or ended. -/
def Operation.enabled : Operation → Prop
  | addJob _ state _ _ => state = .foreground ∨ state = .background
  | updateJobs _ state => state = .stopped ∨ state = .done
  | _ => True

def Operation.next (s : Shell) : Operation → Shell
  | addJob pid state cmdline print => s.addJob pid state cmdline print
  | updateJobs pid state => s.updateJobs pid state
  | checkJobs => s.checkJobs
  | runCmdBg fg id => s.runCmdBg fg id

def table : Transition.System Shell Operation := ⟨fun _ => Operation.enabled, Operation.next⟩

def jids (jobs : List Job) : List Int := (jobs.map Job.jid).filter (· ≠ 0)

/-- The jobs stand in the order in which they were added. -/
structure Stamped (s : Shell) : Prop where
  ordered : (s.bgjobs.map Job.added).Pairwise (· < ·)
  counted : ∀ job ∈ s.bgjobs, job.added < s.added

/-- The job table between two calls: the numbers in use are distinct and below the next one, a job in
    the background or stopped has one, and the jobs stand in the order in which they were added. -/
structure Numbered (s : Shell) : Prop extends Stamped s where
  distinct : (jids s.bgjobs).Nodup
  below : ∀ job ∈ s.bgjobs, job.jid < s.nextjid
  numbered : ∀ job ∈ s.bgjobs, job.state = .background ∨ job.state = .stopped → job.jid ≠ 0

/-- A numbered table whose next number is a positive one. -/
structure Numbering (s : Shell) : Prop extends Numbered s where
  positive : 0 < s.nextjid

/-- The call gives out a number: a job starts in the background, or stops without having one. -/
def Numbers (s : Shell) : Operation → Prop
  | .addJob _ state _ _ => state = .background
  | .updateJobs pid state => state = .stopped ∧ ∃ i job, s.findJobByPid pid = some i ∧ s.bgjobs[i]? = some job ∧ job.jid = 0
  | _ => False

/-- A number that the call gives out has another one behind it. -/
def NumberLeft (s : Shell) (operation : Operation) : Prop := Numbers s operation → s.nextjid < 2 ^ 31 - 1

theorem mem_jids {jobs : List Job} {jid : Int} : jid ∈ jids jobs ↔ jid ≠ 0 ∧ ∃ job ∈ jobs, job.jid = jid := by
  simp [jids, and_comm]

theorem numberAfter_of_lt {jid : Int} (positive : 0 < jid) (left : jid < 2 ^ 31 - 1) : numberAfter jid = jid + 1 := by
  unfold numberAfter
  rw [Int.bmod_eq_of_le] <;> omega

theorem numberAfter_lt (jid : Int) : numberAfter jid < 2 ^ 31 := Int.bmod_lt (by decide)

theorem numbering_start : Numbering shellStart where
  positive := Int.one_pos
  distinct := List.nodup_nil
  below := by simp [shellStart]
  numbered := by simp [shellStart]
  ordered := List.Pairwise.nil
  counted := by simp [shellStart]

variable {s t : Shell} {before after : List Job} {job : Job}

/-- What holds of every job of the table holds on when one of them is replaced. -/
theorem forall_replaced {p q : Job → Prop} {job' : Job} (held : ∀ job ∈ s.bgjobs, p job)
    (was : s.bgjobs = before ++ job :: after) (now : t.bgjobs = before ++ job' :: after) (others : ∀ job, p job → q job)
    (replaced : p job → q job') : ∀ job ∈ t.bgjobs, q job := by
  rw [was, List.forall_mem_append, List.forall_mem_cons] at held
  rw [now, List.forall_mem_append, List.forall_mem_cons]
  exact ⟨fun job member => others job (held.1 job member), replaced held.2.1,
    fun job member => others job (held.2.2 job member)⟩

theorem Stamped.restamp (held : Stamped s) (job' : Job) (was : s.bgjobs = before ++ job :: after)
    (now : t.bgjobs = before ++ job' :: after) (added : job'.added = job.added) (count : t.added = s.added) :
    Stamped t := by
  have same : t.bgjobs.map Job.added = s.bgjobs.map Job.added := by simp [was, now, added]
  constructor
  · rw [same]
    exact held.ordered
  · rw [count]
    exact forall_replaced held.counted was now (fun _ => id) fun counted => added ▸ counted

/-- A job may get another state, as long as one that is in the background or stopped has a number. -/
theorem Numbering.restate (held : Numbering s) (job' : Job) (was : s.bgjobs = before ++ job :: after)
    (now : t.bgjobs = before ++ job' :: after) (jid : job'.jid = job.jid) (added : job'.added = job.added)
    (number : job'.state = .background ∨ job'.state = .stopped → job'.jid ≠ 0)
    (next : t.nextjid = s.nextjid) (count : t.added = s.added) : Numbering t where
  toStamped := held.restamp job' was now added count
  positive := by
    rw [next]
    exact held.positive
  distinct := by
    have same : jids t.bgjobs = jids s.bgjobs := by simp [jids, was, now, jid]
    rw [same]
    exact held.distinct
  below := by
    rw [next]
    exact forall_replaced held.below was now (fun _ => id) fun below => jid ▸ below
  numbered := forall_replaced held.numbered was now (fun _ => id) fun _ => number

theorem Numbering.fresh (held : Numbering s) : s.nextjid ∉ jids s.bgjobs := by
  intro used
  obtain ⟨_, other, member, same⟩ := mem_jids.mp used
  exact absurd (held.below other member) (by omega)

theorem Numbering.number (held : Numbering s) (job' : Job) (was : s.bgjobs = before ++ job :: after)
    (now : t.bgjobs = before ++ job' :: after) (none : job.jid = 0) (jid : job'.jid = s.nextjid)
    (added : job'.added = job.added) (next : t.nextjid = s.nextjid + 1) (count : t.added = s.added) : Numbering t where
  toStamped := held.restamp job' was now added count
  positive := by
    rw [next]
    exact Int.add_pos held.positive Int.one_pos
  distinct := by
    have distinct := held.distinct
    have fresh := held.fresh
    have positive : s.nextjid ≠ 0 := Int.ne_of_gt held.positive
    have numbers : jids t.bgjobs = jids before ++ s.nextjid :: jids after := by simp [jids, now, jid, positive]
    have others : jids s.bgjobs = jids before ++ jids after := by simp [jids, was, none]
    rw [numbers, List.nodup_middle, List.nodup_cons]
    rw [others] at fresh distinct
    exact ⟨fresh, distinct⟩
  below := by
    rw [next]
    refine forall_replaced held.below was now ?_ ?_
    · intro other below
      exact Int.lt_add_one_of_le (Int.le_of_lt below)
    · intro _
      rw [jid]
      exact Int.lt_succ _
  numbered := by
    refine forall_replaced held.numbered was now (fun _ => id) ?_
    intro _ _
    rw [jid]
    exact Int.ne_of_gt held.positive

theorem Stamped.addJob (held : Stamped s) (pid : Int) (state : JobState) (cmdline : String) (print : Bool) :
    Stamped (s.addJob pid state cmdline print) where
  ordered := by
    simp only [Shell.addJob, List.map_append, List.map_singleton]
    apply List.pairwise_append.mpr
    refine ⟨held.ordered, List.pairwise_singleton _ _, ?_⟩
    intro added member last same
    obtain ⟨job, inside, rfl⟩ := List.mem_map.mp member
    rw [List.mem_singleton.mp same]
    exact held.counted job inside
  counted := by
    simp only [Shell.addJob, List.forall_mem_append, List.forall_mem_singleton]
    exact ⟨fun job member => Nat.lt_succ_of_lt (held.counted job member), Nat.lt_succ_self _⟩

theorem Numbering.addJob (held : Numbering s) (pid : Int) {state : JobState} (cmdline : String) (print : Bool)
    (running : state = .foreground ∨ state = .background) (left : state = .background → s.nextjid < 2 ^ 31 - 1) :
    Numbering (s.addJob pid state cmdline print) where
  toStamped := held.toStamped.addJob pid state cmdline print
  positive := by
    have positive := held.positive
    simp only [Shell.addJob]
    split
    · rename_i background
      rw [numberAfter_of_lt positive (left background)]
      omega
    · exact positive
  distinct := by
    have positive : s.nextjid ≠ 0 := Int.ne_of_gt held.positive
    have last : jids (s.addJob pid state cmdline print).bgjobs =
        jids s.bgjobs ++ if state = .background then [s.nextjid] else [] := by
      simp only [Shell.addJob, jids, List.map_append, List.filter_append]
      congr 1
      split <;> simp [positive]
    rw [last]
    split
    · exact held.distinct.append (List.nodup_singleton _) (List.disjoint_singleton.mpr held.fresh)
    · rw [List.append_nil]
      exact held.distinct
  below := by
    have positive := held.positive
    simp only [Shell.addJob, List.forall_mem_append, List.forall_mem_singleton]
    split
    · rename_i background
      rw [numberAfter_of_lt positive (left background)]
      exact ⟨fun job member => Int.lt_add_one_of_le (Int.le_of_lt (held.below job member)), Int.lt_succ _⟩
    · exact ⟨held.below, positive⟩
  numbered := by
    simp only [Shell.addJob, List.forall_mem_append, List.forall_mem_singleton]
    refine ⟨held.numbered, ?_⟩
    have positive := held.positive
    rcases running with rfl | rfl
    · simp
    · simp
      omega

theorem split_at {i : Nat} (here : s.bgjobs[i]? = some job) :
    ∃ before after, s.bgjobs = before ++ job :: after ∧ i = before.length := by
  obtain ⟨inside, same⟩ := List.getElem?_eq_some_iff.mp here
  refine ⟨s.bgjobs.take i, s.bgjobs.drop (i + 1), ?_, by simp; omega⟩
  rw [← same, List.getElem_cons_drop, List.take_append_drop]

theorem modify_middle (before after : List Job) (job : Job) (f : Job → Job) :
    (before ++ job :: after).modify before.length f = before ++ f job :: after := by
  induction before with
  | nil => rfl
  | cons first before ih => exact congrArg (first :: ·) ih

theorem Stamped.update (held : Stamped s) {i : Nat} (here : s.bgjobs[i]? = some job) (state : JobState) :
    Stamped (s.update i job state) := by
  obtain ⟨before, after, was, rfl⟩ := split_at here
  unfold Shell.update
  split
  · split
    · exact held.restamp { job with state, jid := s.nextjid } was (by simp [was]) rfl rfl
    · exact held.restamp { job with state } was (by simp [was]) rfl rfl
  · exact held.restamp { job with state } was (by simp [was]) rfl rfl

theorem Stamped.updateJobs (held : Stamped s) (pid : Int) (state : JobState) : Stamped (s.updateJobs pid state) := by
  unfold Shell.updateJobs
  split
  · exact held
  · split
    · exact held
    · rename_i here
      exact held.update here state

theorem Numbering.update (held : Numbering s) {i : Nat} (here : s.bgjobs[i]? = some job) {state : JobState}
    (ended : state = .stopped ∨ state = .done) (left : state = .stopped → job.jid = 0 → s.nextjid < 2 ^ 31 - 1) :
    Numbering (s.update i job state) := by
  obtain ⟨before, after, was, rfl⟩ := split_at here
  unfold Shell.update
  split
  · rename_i stopped
    split
    · rename_i none
      have next := numberAfter_of_lt held.positive (left stopped none)
      exact held.number { job with state, jid := s.nextjid } was (by simp [was]) none rfl rfl next rfl
    · rename_i some
      exact held.restate { job with state } was (by simp [was]) rfl rfl (fun _ => some) rfl rfl
  · rename_i notStopped
    refine held.restate { job with state } was (by simp [was]) rfl rfl ?_ rfl rfl
    intro running
    rcases ended with rfl | rfl
    · exact (notStopped rfl).elim
    · simp at running

theorem Numbering.updateJobs (held : Numbering s) (pid : Int) {state : JobState}
    (ended : state = .stopped ∨ state = .done) (left : NumberLeft s (.updateJobs pid state)) :
    Numbering (s.updateJobs pid state) := by
  unfold Shell.updateJobs
  split
  · exact held
  · rename_i i found
    split
    · exact held
    · rename_i job here
      exact held.update here ended fun stopped none => left ⟨stopped, i, job, found, here, none⟩

theorem requestedJob_numbered {id : Option Int} {i : Nat} (requested : s.requestedJob id = .inr i) :
    ∃ job, s.bgjobs[i]? = some job ∧ job.jid ≠ 0 := by
  unfold Shell.requestedJob at requested
  split at requested
  · cases requested
  · split at requested
    · cases requested
    · rename_i jid nonzero
      split at requested
      · cases requested
      · rename_i found
        cases requested
        obtain ⟨inside, here, _⟩ := List.findIdx?_eq_some_iff_getElem.mp found
        refine ⟨s.bgjobs[i], by simp [inside], ?_⟩
        have same : (s.bgjobs[i]).jid = jid := of_decide_eq_true here
        rwa [same]

theorem Stamped.runCmdBg (held : Stamped s) (fg : Bool) (id : Option Int) : Stamped (s.runCmdBg fg id) := by
  unfold Shell.runCmdBg
  split
  · exact ⟨held.ordered, held.counted⟩
  · rename_i i requested
    obtain ⟨job, here, _⟩ := requestedJob_numbered requested
    obtain ⟨before, after, was, rfl⟩ := split_at here
    split
    · refine held.restamp { job with state := .foreground, print := false } was ?_ rfl ?_
      · simp [Shell.takeFgPid, Shell.clearPrint, Shell.setState, was, modify_middle]
      · simp [Shell.takeFgPid, Shell.clearPrint, Shell.setState, was, modify_middle]
    · refine held.restamp { job with state := .background } was ?_ rfl rfl
      simp [Shell.setState, was, modify_middle]

theorem Numbering.runCmdBg (held : Numbering s) (fg : Bool) (id : Option Int) : Numbering (s.runCmdBg fg id) := by
  unfold Shell.runCmdBg
  split
  · exact { held with }
  · rename_i i requested
    obtain ⟨job, here, number⟩ := requestedJob_numbered requested
    obtain ⟨before, after, was, rfl⟩ := split_at here
    split
    · refine held.restate { job with state := .foreground, print := false } was ?_ rfl rfl (by simp) ?_ ?_
      · simp [Shell.takeFgPid, Shell.clearPrint, Shell.setState, was, modify_middle]
      · simp [Shell.takeFgPid, Shell.clearPrint, Shell.setState, was, modify_middle]
      · simp [Shell.takeFgPid, Shell.clearPrint, Shell.setState, was, modify_middle]
    · refine held.restate { job with state := .background } was ?_ rfl rfl (fun _ => number) rfl rfl
      simp [Shell.setState, was, modify_middle]

/-- The loop of `CheckJobs` keeps the jobs that are not done, and counts none anew. -/
theorem checkLoop_spec (kept jobs : List Job) (s : Shell) :
    (Shell.checkLoop kept jobs s).bgjobs = kept ++ jobs.filter (·.state ≠ .done) ∧
      (Shell.checkLoop kept jobs s).nextjid = s.nextjid ∧ (Shell.checkLoop kept jobs s).added = s.added := by
  induction jobs generalizing kept s with
  | nil => simp [Shell.checkLoop]
  | cons current rest ih =>
    unfold Shell.checkLoop
    by_cases finished : current.state = .done
    · simp only [finished, if_true]
      rw [(ih _ _).1, (ih _ _).2.1, (ih _ _).2.2]
      split <;> simp [finished, Shell.printf]
    · simp only [finished, if_false]
      rw [(ih _ _).1, (ih _ _).2.1, (ih _ _).2.2]
      simp [finished]

theorem checkJobs_bgjobs (s : Shell) : s.checkJobs.bgjobs = s.bgjobs.filter (·.state ≠ .done) := by
  have checked := (checkLoop_spec [] s.bgjobs s).1
  rw [List.nil_append] at checked
  simp only [Shell.checkJobs]
  split <;> exact checked

theorem checkJobs_nextjid (s : Shell) :
    s.checkJobs.nextjid = if s.checkJobs.bgjobs = [] then 1 else s.nextjid := by
  have checked := (checkLoop_spec [] s.bgjobs s).2.1
  unfold Shell.checkJobs
  by_cases empty : (Shell.checkLoop [] s.bgjobs s).bgjobs = []
  · simp [empty]
  · simp [empty, checked]

theorem checkJobs_added (s : Shell) : s.checkJobs.added = s.added := by
  have checked := (checkLoop_spec [] s.bgjobs s).2.2
  simp only [Shell.checkJobs]
  split <;> exact checked

theorem checkJobs_sublist (s : Shell) : s.checkJobs.bgjobs.Sublist s.bgjobs := by
  rw [checkJobs_bgjobs]
  exact List.filter_sublist

theorem Stamped.checkJobs (held : Stamped s) : Stamped s.checkJobs := by
  have sub := checkJobs_sublist s
  constructor
  · exact held.ordered.sublist (sub.map Job.added)
  · intro job member
    rw [checkJobs_added]
    exact held.counted job (sub.subset member)

theorem Numbering.checkJobs (held : Numbering s) : Numbering s.checkJobs where
  toStamped := held.toStamped.checkJobs
  positive := by
    rw [checkJobs_nextjid]
    split
    · exact Int.one_pos
    · exact held.positive
  distinct := held.distinct.sublist (((checkJobs_sublist s).map Job.jid).filter _)
  below := by
    intro job member
    rw [checkJobs_nextjid, if_neg (List.ne_nil_of_mem member)]
    exact held.below job ((checkJobs_sublist s).subset member)
  numbered := fun job member => held.numbered job ((checkJobs_sublist s).subset member)

theorem Numbering.step {operation : Operation} (held : Numbering s) (left : NumberLeft s operation)
    (step : table.Step s operation t) : Numbering t := by
  obtain ⟨enabled, rfl⟩ := step
  cases operation with
  | addJob pid state cmdline print => exact held.addJob pid cmdline print enabled left
  | updateJobs pid state => exact held.updateJobs pid enabled left
  | checkJobs => exact held.checkJobs
  | runCmdBg fg id => exact held.runCmdBg fg id

/-- `CheckJobs` removes the jobs that are done and no others, and starts the numbers again when it
    leaves no job. -/
def Checked (s : Shell) : Operation → Shell → Prop
  | .checkJobs, t => t.bgjobs = s.bgjobs.filter (·.state ≠ .done) ∧ t.nextjid = if t.bgjobs = [] then 1 else s.nextjid
  | _, _ => True

theorem nextjid_lt (step : table.Step s operation t) (bounded : s.nextjid < 2 ^ 31) : t.nextjid < 2 ^ 31 := by
  obtain ⟨_, rfl⟩ := step
  cases operation with
  | addJob pid state cmdline print =>
    show (s.addJob pid state cmdline print).nextjid < _
    unfold Shell.addJob
    split
    · exact numberAfter_lt _
    · exact bounded
  | updateJobs pid state =>
    show (s.updateJobs pid state).nextjid < _
    unfold Shell.updateJobs Shell.update
    repeat' split
    all_goals first | exact bounded | exact numberAfter_lt _
  | checkJobs =>
    show s.checkJobs.nextjid < _
    rw [checkJobs_nextjid]
    split
    · decide
    · exact bounded
  | runCmdBg fg id =>
    show (s.runCmdBg fg id).nextjid < _
    unfold Shell.runCmdBg Shell.takeFgPid
    repeat' split
    all_goals exact bounded

/-- The call that gives out the largest `int` leaves a job with a number above the next one. -/
theorem not_numbered_of_last (step : table.Step s operation t) (numbers : Numbers s operation)
    (last : s.nextjid = 2 ^ 31 - 1) : ¬ Numbered t := by
  obtain ⟨_, rfl⟩ := step
  suffices above : ∃ job ∈ (operation.next s).bgjobs, (operation.next s).nextjid < job.jid by
    intro held
    obtain ⟨job, member, above⟩ := above
    exact absurd (held.below job member) (Int.not_lt.mpr (Int.le_of_lt above))
  cases operation with
  | addJob pid state cmdline print =>
    cases numbers
    refine ⟨⟨pid, s.nextjid, .background, cmdline, print, s.added⟩, by simp [Operation.next, Shell.addJob], ?_⟩
    show numberAfter s.nextjid < s.nextjid
    rw [last]
    decide
  | updateJobs pid state =>
    obtain ⟨rfl, i, job, found, here, none⟩ := numbers
    have now : (Operation.next s (.updateJobs pid .stopped)) = s.update i job .stopped := by
      simp only [Operation.next, Shell.updateJobs, found, here]
    have inside := (List.getElem?_eq_some_iff.mp here).1
    simp only [now, Shell.update, none, if_true]
    refine ⟨{ job with state := .stopped, jid := s.nextjid }, List.mem_set inside _, ?_⟩
    show numberAfter s.nextjid < s.nextjid
    rw [last]
    decide
  | checkJobs => exact numbers.elim
  | runCmdBg fg id => exact numbers.elim

/-- In a run of calls the job table stays numbered exactly when every call that gives out a number does so
    before the last `int`; `CheckJobs` then takes out what is done. -/
theorem table_numbered_iff {steps : List (Shell × Operation)} (run : Run table.Step shellStart steps s) :
    ((∀ t ∈ visited steps s, Numbered t) ∧ ∀ taken ∈ transitions steps s, Checked taken.1 taken.2.1 taken.2.2) ↔
      ∀ taken ∈ steps, NumberLeft taken.1 taken.2 := by
  constructor
  · rintro ⟨numbered, -⟩
    suffices Numbering s ∧ s.nextjid < 2 ^ 31 ∧ ∀ taken ∈ steps, NumberLeft taken.1 taken.2 from this.2.2
    induction run with
    | refl => exact ⟨numbering_start, by decide, by simp⟩
    | @snoc steps s operation t before taken ih =>
      rw [visited_cons, List.forall_mem_cons] at numbered
      obtain ⟨held, bounded, earlier⟩ := ih numbered.2
      have left : NumberLeft s operation := by
        intro numbers
        by_contra exhausted
        exact not_numbered_of_last taken numbers (by omega) numbered.1
      exact ⟨held.step left taken, nextjid_lt taken bounded, List.forall_mem_cons.mpr ⟨left, earlier⟩⟩
  · intro left
    constructor
    · intro t member
      have held := run.invariant_visited NumberLeft Numbering numbering_start (fun _ _ _ held left => held.step left) left
      exact (held t member).toNumbered
    · apply run.always (fun _ => True) Checked trivial
      intro s operation t _ step
      obtain ⟨_, rfl⟩ := step
      refine ⟨trivial, ?_⟩
      cases operation with
      | checkJobs => exact ⟨checkJobs_bgjobs s, checkJobs_nextjid s⟩
      | _ => trivial

def stopAndEnd : List Operation :=
  [.checkJobs, .updateJobs 100 .done, .updateJobs 101 .stopped, .addJob 101 .foreground "vi" false,
    .addJob 100 .background "make" true]

theorem numbered_stop_and_end :
    Run table.Step shellStart (table.trace shellStart stopAndEnd) (table.final shellStart stopAndEnd) ∧
      (table.final shellStart stopAndEnd).bgjobs.map Job.jid = [2] ∧ Numbered (table.final shellStart stopAndEnd) := by
  have run := table.run_of_admits
    (show table.Admits shellStart stopAndEnd from ⟨⟨⟨⟨⟨trivial, .inr rfl⟩, .inl rfl⟩, .inl rfl⟩, .inr rfl⟩, trivial⟩)
  have left : ∀ taken ∈ table.trace shellStart stopAndEnd, taken.1.nextjid < 2 ^ 31 - 1 := by decide
  exact ⟨run, by decide, ((table_numbered_iff run).mpr fun taken member _ => left taken member).1 _ (last_mem_visited _ _)⟩

/-- A job that stays, and `n` jobs that start and end one after the other. -/
def oneAfterTheOther : Nat → List Operation
  | 0 => [.addJob 99 .background "xclock" true]
  | n + 1 => .checkJobs :: .updateJobs 100 .done :: .addJob 100 .background "make" true :: oneAfterTheOther n

def resident : Job := ⟨99, 1, .background, "xclock", true, 0⟩

theorem oneAfterTheOther_admits (n : Nat) : table.Admits shellStart (oneAfterTheOther n) := by
  induction n with
  | zero => exact ⟨trivial, .inr rfl⟩
  | succ n ih => exact ⟨⟨⟨ih, .inr rfl⟩, .inr rfl⟩, trivial⟩

theorem checkJobs_updateJobs_addJob {jid : Int} (only : s.bgjobs = [resident]) (next : s.nextjid = jid)
    (positive : 0 < jid) (left : jid < 2 ^ 31 - 1) :
    let t := ((s.addJob 100 .background "make" true).updateJobs 100 .done).checkJobs
    t.bgjobs = [resident] ∧ t.nextjid = jid + 1 := by
  have kept : ((s.addJob 100 .background "make" true).updateJobs 100 .done).checkJobs.bgjobs = [resident] := by
    simp [checkJobs_bgjobs, Shell.addJob, only, resident, Shell.updateJobs, Shell.findJobByPid, Shell.update, List.findIdx?_cons]
  refine ⟨kept, ?_⟩
  rw [checkJobs_nextjid, kept, ← numberAfter_of_lt positive left, ← next]
  simp [Shell.addJob, only, resident, Shell.updateJobs, Shell.findJobByPid, Shell.update, List.findIdx?_cons]

theorem oneAfterTheOther_final (n : Nat) (left : n + 2 < 2 ^ 31) :
    (table.final shellStart (oneAfterTheOther n)).bgjobs = [resident] ∧
      (table.final shellStart (oneAfterTheOther n)).nextjid = n + 2 := by
  induction n with
  | zero => exact ⟨rfl, rfl⟩
  | succ n ih =>
    obtain ⟨only, next⟩ := ih (by omega)
    obtain ⟨only, next⟩ := checkJobs_updateJobs_addJob only next (by omega) (by omega)
    refine ⟨only, next.trans ?_⟩
    push_cast
    omega

theorem oneTooMany {n : Nat} (last : n + 3 = 2 ^ 31) :
    let schedule := .addJob 100 .background "make" true :: oneAfterTheOther n
    Run table.Step shellStart (table.trace shellStart schedule) (table.final shellStart schedule) ∧
      ¬ Numbered (table.final shellStart schedule) := by
  intro schedule
  have running : table.enabled (table.final shellStart (oneAfterTheOther n)) (.addJob 100 .background "make" true) := .inr rfl
  have next := (oneAfterTheOther_final n (by omega)).2
  exact ⟨table.run_of_admits ⟨oneAfterTheOther_admits n, running⟩, not_numbered_of_last ⟨running, rfl⟩ rfl (by omega)⟩

/-- One job more than there are numbers, while `xclock` keeps the table from being empty. -/
def tooManyJobs : List Operation := .addJob 100 .background "make" true :: oneAfterTheOther (2 ^ 31 - 3)

theorem numbers_run_out :
    Run table.Step shellStart (table.trace shellStart tooManyJobs) (table.final shellStart tooManyJobs) ∧
      ¬ Numbered (table.final shellStart tooManyJobs) := oneTooMany (by decide)

end Eecs343.TinyShell
