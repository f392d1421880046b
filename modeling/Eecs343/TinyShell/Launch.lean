import Eecs343.TinyShell.Entries

namespace Eecs343.TinyShell

open Transition

/-- No job that the table holds as running belongs to a process that was reaped. -/
def NoneLost (s : State) : Prop := ∀ entry ∈ s.shell.entries, entry.2.running → s.children entry.1 ≠ .reaped

/-- The next step enters or keeps no running job for a process that is reaped: `AddJob` comes before
    the handler has reaped the new process, `RunCmdBg` writes the state of a job whose process is there,
    and no running job shares the process of the job that the handler finds. -/
def Keeps (s : State) : Action → Prop
  | .addJob => ∀ entry, s.added = some entry → s.children entry.1 ≠ .reaped
  | .writeState => ∀ job state, s.written = some (job, state) → ∀ entry, s.shell.entries[job]? = some entry →
      s.children entry.1 ≠ .reaped
  | .reap pid false => ∀ i state, s.shell.entries[i]? = some (pid, state) → state.running → s.shell.findJobByPid pid = some i
  | _ => True

theorem noneLost_iff {s : State} : NoneLost s ↔
    ∀ (i : Nat) (pid : Int) (state : JobState),
      s.shell.entries[i]? = some (pid, state) → state.running → s.children pid ≠ .reaped := by
  constructor
  · intro kept i pid state here
    exact kept (pid, state) (List.mem_of_getElem? here)
  · intro kept entry member
    obtain ⟨i, here⟩ := List.mem_iff_getElem?.mp member
    exact kept i entry.1 entry.2 here

variable {s t : State}

theorem NoneLost.sub (kept : NoneLost s) (entries : ∀ entry ∈ t.shell.entries, entry.2.running → entry ∈ s.shell.entries)
    (alive : ∀ pid, t.children pid = .reaped → s.children pid = .reaped) : NoneLost t := by
  intro entry member running reaped
  exact kept entry (entries entry member running) running (alive _ reaped)

theorem update_reaped {children : Int → Child} {other pid : Int} {child : Child} (alive : child ≠ .reaped)
    (reaped : Function.update children other child pid = .reaped) : children pid = .reaped := by
  rw [Function.update_apply] at reaped
  split at reaped
  · exact absurd reaped alive
  · exact reaped

theorem handle_sub {wpid : Int} {stopped : Bool} :
    ∀ entry ∈ (s.shell.handle wpid stopped).entries, entry.2.running → entry ∈ s.shell.entries := by
  intro entry member running
  obtain ⟨i, here⟩ := List.mem_iff_getElem?.mp member
  exact List.mem_of_getElem? (handle_running s.shell running here).1

theorem NoneLost.add (kept : NoneLost s) (entry : Int × JobState) (running : entry.2.running)
    (entries : t.shell.entries = s.shell.entries ++ [entry]) (children : t.children = s.children) :
    NoneLost t ↔ s.children entry.1 ≠ .reaped := by
  rw [NoneLost, entries, children, List.forall_mem_append, List.forall_mem_singleton]
  constructor
  · intro kept
    exact kept.2 running
  · intro alive
    exact ⟨kept, fun _ => alive⟩

theorem NoneLost.write (kept : NoneLost s) (job : Nat) {state : JobState} (running : state.running)
    (entries : t.shell.entries = (s.shell.setState job state).entries) (children : t.children = s.children) :
    NoneLost t ↔ ∀ entry, s.shell.entries[job]? = some entry → s.children entry.1 ≠ .reaped := by
  rw [noneLost_iff, entries, children]
  simp only [entries_setState]
  constructor
  · intro kept entry here
    exact kept job entry.1 state (by simp [here]) running
  · intro alive i pid other here now
    split at here
    · rename_i same
      subst same
      obtain ⟨entry, before, after⟩ := Option.map_eq_some_iff.mp here
      have process : entry.1 = pid := congrArg Prod.fst after
      rw [← process]
      exact alive entry before
    · exact noneLost_iff.mp kept i pid other here now

/-- A reaped process loses no job exactly when the only running job it may have is the one found. -/
theorem NoneLost.reap (kept : NoneLost s) (pid : Int) (entries : t.shell.entries = (s.shell.handle pid false).entries)
    (children : t.children = Function.update s.children pid .reaped) :
    NoneLost t ↔
      ∀ i state, s.shell.entries[i]? = some (pid, state) → state.running → s.shell.findJobByPid pid = some i := by
  rw [noneLost_iff, entries, children]
  constructor
  · intro after i state here running
    by_contra other
    apply after i pid state _ running
    · simp
    · rw [entries_handle, if_neg other]
      exact here
  · intro only i process state here running
    obtain ⟨before, other⟩ := handle_running s.shell running here
    rw [Function.update_apply]
    split
    · rename_i same
      subst same
      exact absurd (only i state before running) other
    · exact noneLost_iff.mp kept i process state before running

/-- Of all steps only `AddJob`, the write of `RunCmdBg` and the reaping of an exit can lose a job. -/
theorem NoneLost.step {action : Action} (kept : NoneLost s) (step : Step s action t) : NoneLost t ↔ Keeps s action := by
  have edits := step_edits step
  have children := step_children step
  cases action with
  | checkJobs =>
    refine iff_of_true (kept.sub ?_ (by simp [children, childAfter])) trivial
    intro entry member _
    rw [edits, entries_checkJobs] at member
    exact List.mem_of_mem_filter member
  | addJob =>
    obtain ⟨entry, added, entries⟩ := edits
    rw [kept.add entry (added_running added) entries children]
    simp [Keeps, added]
  | writeState =>
    obtain ⟨job, state, written, entries⟩ := edits
    rw [kept.write job (written_running written) entries children]
    exact (written_forall (fun job => ∀ entry, s.shell.entries[job]? = some entry → s.children entry.1 ≠ .reaped)
      written).symm
  | reap pid stopped =>
    cases stopped with
    | false => exact kept.reap pid edits children
    | true =>
      refine iff_of_true (kept.sub (edits ▸ handle_sub) ?_) trivial
      intro other reaped
      rw [children] at reaped
      exact update_reaped (by simp) reaped
  | leaveHandler wpid stopped =>
    exact iff_of_true (kept.sub (edits ▸ handle_sub) (by simp [children, childAfter])) trivial
  | fork pid | childExits pid | childStops pid | childContinues pid =>
    refine iff_of_true (kept.sub (fun entry member _ => edits ▸ member) ?_) trivial
    intro other reaped
    rw [children] at reaped
    exact update_reaped (by simp) reaped
  | _ => exact iff_of_true (kept.sub (fun entry member _ => edits ▸ member) (by simp [children, childAfter])) trivial

/-- A shell whose running jobs are all alive keeps them so in every state of a run exactly when each
    step does. -/
theorem none_lost_iff {steps : List (State × Action)} (run : Run Step s steps t) (kept : NoneLost s) :
    (∀ state ∈ visited steps t, NoneLost state) ↔ ∀ taken ∈ steps, Keeps taken.1 taken.2 :=
  run.invariant_iff Keeps (fun _ => True) NoneLost trivial kept (fun _ _ _ _ _ => trivial)
    fun _ _ _ _ kept step => kept.step step

/-- While no job is lost, `WaitFg` waits for a process that is still there. -/
theorem NoneLost.waits (kept : NoneLost s) {i : Nat} (_ : s.main = .waiting (some i))
    (foreground : s.jobState i = some .foreground) :
    ∃ pid, s.shell.entries[i]? = some (pid, .foreground) ∧ s.children pid ≠ .reaped := by
  rw [jobState_entries] at foreground
  obtain ⟨entry, here, state⟩ := Option.map_eq_some_iff.mp foreground
  refine ⟨entry.1, by rw [here, ← state], ?_⟩
  exact kept entry (List.mem_of_getElem? here) (.inl state)

/-- A foreground command that ends before its job is in the table. -/
def fastExit : List Action :=
  [.addJob, .setFgPid, .leaveHandler (-1) false, .reap 100 false, .enterHandler, .childExits 100, .unblock, .fork 100,
    .exec false "true", .checkJobs]

theorem noneLost_start : NoneLost start := by simp [NoneLost, start, shellStart, Shell.entries]

theorem fast_exit_lost : ¬∀ s steps t, NoneLost s → Run Step s steps t → ∀ state ∈ visited steps t, NoneLost state := by
  have forked := fork_admitted false "true" (show (0 : Int) < 100 by decide)
  have reaped : system.Admits start (fastExit.drop 3) :=
    ⟨⟨⟨⟨forked, rfl, _, _, _, rfl⟩, .inl rfl⟩, rfl, rfl⟩, rfl, rfl⟩
  have admits : system.Admits start fastExit :=
    ⟨⟨⟨reaped, rfl, .inr rfl⟩, rfl, _, _, rfl⟩, rfl, .inr ⟨_, _, rfl⟩⟩
  intro claimed
  have kept := claimed _ _ _ noneLost_start (system.run_of_admits admits) _ (last_mem_visited _ _)
  exact kept (100, .foreground) (by decide) (.inl rfl) (by decide)

def slowExit : List Action :=
  [.endWait, .leaveHandler (-1) false, .reap 100 false, .enterHandler, .childExits 100, .findFg, .addJob, .setFgPid,
    .unblock, .fork 100, .exec false "true", .checkJobs]

theorem slow_exit_kept : Run Step start (system.trace start slowExit) (system.final start slowExit) ∧
    ∀ state ∈ visited (system.trace start slowExit) (system.final start slowExit), NoneLost state := by
  have forked := fork_admitted false "true" (show (0 : Int) < 100 by decide)
  have added : system.Admits start (slowExit.drop 5) :=
    ⟨⟨⟨⟨forked, rfl, _, _, _, rfl⟩, rfl, _, _, rfl⟩, rfl, .inr ⟨_, _, rfl⟩⟩, rfl, _, rfl⟩
  have admits : system.Admits start slowExit :=
    ⟨⟨⟨⟨⟨added, .inl rfl⟩, rfl, rfl⟩, rfl, rfl⟩, rfl, .inr rfl⟩, rfl, _, rfl, by decide⟩
  have run := system.run_of_admits admits
  refine ⟨run, (none_lost_iff run noneLost_start).mpr ?_⟩
  have only : Keeps (system.final start (slowExit.drop 3)) (.reap 100 false) := by
    intro i state here _
    cases i with
    | zero => decide
    | succ i => cases here
  have alive : Keeps (system.final start (slowExit.drop 7)) .addJob := by
    intro entry added
    cases added
    decide
  simp only [slowExit, Transition.System.trace, List.forall_mem_cons]
  exact ⟨trivial, trivial, only, trivial, trivial, trivial, alive, trivial, trivial, trivial, trivial, trivial, by simp⟩

end Eecs343.TinyShell
