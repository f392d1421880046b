import Eecs343.TinyShell.Table
import Eecs343.TinyShell.Model

namespace Eecs343.TinyShell

def JobState.running (state : JobState) : Prop := state = .foreground ∨ state = .background

theorem JobState.running.not_done {state : JobState} (running : state.running) : state ≠ .done := by
  rcases running with rfl | rfl <;> decide

def Shell.entries (s : Shell) : List (Int × JobState) := s.bgjobs.map fun job => (job.pid, job.state)

section

variable (s : Shell)

theorem findJobByPid_entries (pid : Int) :
    s.findJobByPid pid = s.entries.findIdx? fun entry => decide (entry.1 = pid) := by
  rw [Shell.entries, List.findIdx?_map]
  rfl

theorem entries_addJob (pid : Int) (state : JobState) (cmdline : String) (print : Bool) :
    (s.addJob pid state cmdline print).entries = s.entries ++ [(pid, state)] := by
  simp [Shell.entries, Shell.addJob]

theorem entries_update (i : Nat) (job : Job) (state : JobState) :
    (s.update i job state).entries = s.entries.set i (job.pid, state) := by
  unfold Shell.update
  split
  · split
    · simp [Shell.entries, List.map_set]
    · simp [Shell.entries, List.map_set]
  · simp [Shell.entries, List.map_set]

theorem fgPid_update (i : Nat) (job : Job) (state : JobState) : (s.update i job state).fgPid = s.fgPid := by
  unfold Shell.update
  split
  · split <;> rfl
  · rfl

/-- `UpdateJobs` writes the state of the first job with the process, and of no other. -/
theorem entries_updateJobs (pid : Int) (state : JobState) (i : Nat) :
    (s.updateJobs pid state).entries[i]? = if s.findJobByPid pid = some i then some (pid, state) else s.entries[i]? := by
  unfold Shell.updateJobs
  cases found : s.findJobByPid pid with
  | none => simp
  | some j =>
    obtain ⟨inside, same, _⟩ := List.findIdx?_eq_some_iff_getElem.mp found
    have here : s.bgjobs[j]? = some s.bgjobs[j] := List.getElem?_eq_getElem inside
    have process : s.bgjobs[j].pid = pid := of_decide_eq_true same
    have length : j < s.entries.length := by
      rw [Shell.entries, List.length_map]
      exact inside
    simp only [here]
    rw [entries_update, process, List.getElem?_set, if_pos length]
    simp only [Option.some.injEq]

@[simp] theorem fgPid_updateJobs (pid : Int) (state : JobState) : (s.updateJobs pid state).fgPid = s.fgPid := by
  unfold Shell.updateJobs
  split
  · rfl
  · split
    · rfl
    · exact fgPid_update s _ _ state

theorem entries_checkJobs : s.checkJobs.entries = s.entries.filter (·.2 ≠ .done) := by
  rw [Shell.entries, checkJobs_bgjobs, Shell.entries, List.filter_map]
  rfl

theorem entries_setState (i : Nat) (state : JobState) (j : Nat) :
    (s.setState i state).entries[j]? = if i = j then s.entries[j]?.map fun entry => (entry.1, state) else s.entries[j]? := by
  simp only [Shell.entries, Shell.setState, List.getElem?_map, List.getElem?_modify]
  cases s.bgjobs[j]? with
  | none => simp
  | some job => split <;> simp

@[simp] theorem entries_clearPrint (i : Nat) : (s.clearPrint i).entries = s.entries := by
  apply List.ext_getElem?
  intro j
  simp only [Shell.entries, Shell.clearPrint, List.getElem?_map, List.getElem?_modify]
  cases s.bgjobs[j]? with
  | none => rfl
  | some job => split <;> rfl

@[simp] theorem entries_takeFgPid (i : Nat) : (s.takeFgPid i).entries = s.entries := by
  unfold Shell.takeFgPid
  split <;> rfl

theorem entries_handle (wpid : Int) (stopped : Bool) (i : Nat) :
    (s.handle wpid stopped).entries[i]? =
      if s.findJobByPid wpid = some i then some (wpid, if stopped then .stopped else .done) else s.entries[i]? := by
  unfold Shell.handle
  split
  · exact entries_updateJobs { s with fgPid := -1 } wpid _ i
  · exact entries_updateJobs s wpid _ i

/-- A running job that the handler has not found was there before. -/
theorem handle_running {wpid : Int} {stopped : Bool} {i : Nat} {pid : Int} {state : JobState} (running : state.running)
    (here : (s.handle wpid stopped).entries[i]? = some (pid, state)) :
    s.entries[i]? = some (pid, state) ∧ s.findJobByPid wpid ≠ some i := by
  rw [entries_handle] at here
  split at here
  · cases here
    cases stopped <;> simp [JobState.running] at running
  · exact ⟨here, ‹_›⟩

@[simp] theorem fgPid_handle (wpid : Int) (stopped : Bool) :
    (s.handle wpid stopped).fgPid = if wpid = s.fgPid then -1 else s.fgPid := by
  unfold Shell.handle
  rw [fgPid_updateJobs]
  split <;> rfl

end

theorem jobState_entries (s : State) (i : Nat) : s.jobState i = s.shell.entries[i]?.map Prod.snd := by
  simp [State.jobState, Shell.entries, Function.comp_def]

/-- The job that `AddJob` is called for. -/
def State.added (s : State) : Option (Int × JobState) := match s.main with
  | .launched pid true _ => some (pid, .background)
  | .adding pid _ => some (pid, .foreground)
  | _ => none

/-- The job `RunCmdBg` writes, and the state it writes. -/
def State.written (s : State) : Option (Nat × JobState) := match s.main with
  | .writing fg job => some (job, if fg then .foreground else .background)
  | _ => none

theorem added_running {s : State} {entry : Int × JobState} (added : s.added = some entry) : entry.2.running := by
  unfold State.added at added
  split at added
  · cases added
    exact .inr rfl
  · cases added
    exact .inl rfl
  · cases added

theorem written_running {s : State} {job : Nat} {state : JobState} (written : s.written = some (job, state)) :
    state.running := by
  unfold State.written at written
  split at written
  · cases written
    split
    · exact .inl rfl
    · exact .inr rfl
  · cases written

/-- What is said of the job written is said of the one job that `RunCmdBg` is about to write. -/
theorem written_forall {s : State} {job : Nat} {state : JobState} (p : Nat → Prop)
    (written : s.written = some (job, state)) :
    (∀ job state, s.written = some (job, state) → p job) ↔ p job := by
  constructor
  · intro all
    exact all job state written
  · intro here other now writes
    obtain ⟨rfl, rfl⟩ : job = other ∧ state = now := by simpa using written.symm.trans writes
    exact here

def Edits (s t : State) : Action → Prop
  | .checkJobs => t.shell.entries = s.shell.checkJobs.entries
  | .addJob => ∃ entry, s.added = some entry ∧ t.shell.entries = s.shell.entries ++ [entry]
  | .writeState => ∃ job state, s.written = some (job, state) ∧ t.shell.entries = (s.shell.setState job state).entries
  | .reap pid stopped => t.shell.entries = (s.shell.handle pid stopped).entries
  | .leaveHandler pid stopped => t.shell.entries = (s.shell.handle pid stopped).entries
  | _ => t.shell.entries = s.shell.entries

variable {s t : State} {action : Action}

theorem step_edits (step : Step s action t) : Edits s t action := by
  obtain ⟨enabled, rfl⟩ := step
  cases action with
  | addJob =>
    obtain ⟨_, ⟨pid, cmdline, main⟩ | ⟨pid, cmdline, main⟩⟩ := enabled
    · exact ⟨(pid, .background), by simp [State.added, main],
        by simp [system, next, main, State.goto, State.withShell, entries_addJob]⟩
    · exact ⟨(pid, .foreground), by simp [State.added, main],
        by simp [system, next, main, State.goto, State.withShell, entries_addJob]⟩
  | writeState =>
    obtain ⟨_, fg, job, main⟩ := enabled
    refine ⟨job, if fg then .foreground else .background, by simp [State.written, main], ?_⟩
    cases fg <;> simp [system, next, main, State.goto, State.withShell]
  | clearPrint =>
    obtain ⟨_, job, main⟩ := enabled
    simp [Edits, system, next, main, State.goto, State.withShell]
  | takeFgPid =>
    obtain ⟨_, job, main⟩ := enabled
    simp [Edits, system, next, main, State.goto, State.withShell]
  | fork | forkFails | unblock | setFgPid | findFg | runCmdBg | testState | sendCont | stopFgProc =>
    simp only [Edits, system, next]
    split <;> first | rfl | (split <;> rfl)
  | _ => rfl

def childAfter (s : State) : Action → Int → Child
  | .fork pid => Function.update s.children pid .running
  | .childExits pid => Function.update s.children pid .zombie
  | .childStops pid => Function.update s.children pid (.stopped false)
  | .childContinues pid => Function.update s.children pid .running
  | .reap pid stopped => Function.update s.children pid (if stopped then .stopped true else .reaped)
  | _ => s.children

theorem step_children (step : Step s action t) : t.children = childAfter s action := by
  obtain ⟨enabled, rfl⟩ := step
  cases action with
  | fork pid =>
    obtain ⟨_, ⟨bg, cmdline, main⟩, _⟩ := enabled
    simp only [system, next, main]
    rfl
  | forkFails | unblock | setFgPid | addJob | findFg | runCmdBg | testState | sendCont | writeState | clearPrint
  | takeFgPid | stopFgProc =>
    simp only [childAfter, system, next]
    split <;> first | rfl | (split <;> rfl)
  | _ => rfl

end Eecs343.TinyShell
