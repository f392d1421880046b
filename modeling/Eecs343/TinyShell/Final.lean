import Eecs343.TinyShell.Entries

namespace Eecs343.TinyShell

open Transition

/-- A step leaves the jobs that are done alone; `CheckJobs` removes them and nothing else. -/
def DoneStays (s : State) (action : Action) (t : State) : Prop :=
  if action = .checkJobs then t.shell.entries = s.shell.entries.filter (·.2 ≠ .done)
  else ∀ i, s.jobState i = some .done → t.jobState i = some .done

/-- The next step does not write the state of a job that is done: neither `fg` and `bg`, nor the
    handler when a child with the same process stops. -/
def SparesDone (s : State) : Action → Prop
  | .writeState => ∀ job state, s.written = some (job, state) → s.jobState job ≠ some .done
  | .reap pid true => ∀ i, s.shell.findJobByPid pid = some i → s.jobState i ≠ some .done
  | .leaveHandler wpid true => ∀ i, s.shell.findJobByPid wpid = some i → s.jobState i ≠ some .done
  | _ => True

variable {s t : State}

theorem jobState_setState (job : Nat) (state : JobState)
    (entries : t.shell.entries = (s.shell.setState job state).entries)
    (i : Nat) : t.jobState i = if job = i then (s.jobState i).map fun _ => state else s.jobState i := by
  simp only [jobState_entries, entries, entries_setState]
  split
  · simp [Function.comp_def]
  · rfl

theorem jobState_handle {wpid : Int} {stopped : Bool} (entries : t.shell.entries = (s.shell.handle wpid stopped).entries)
    (i : Nat) : t.jobState i =
      if s.shell.findJobByPid wpid = some i then some (if stopped then .stopped else .done) else s.jobState i := by
  simp only [jobState_entries, entries, entries_handle]
  split <;> rfl

/-- `bg` and `fg` change a job that is done exactly when that is the job they were given. -/
theorem done_written {job : Nat} {state : JobState} (running : state ≠ .done)
    (entries : t.shell.entries = (s.shell.setState job state).entries) :
    (∀ i, s.jobState i = some .done → t.jobState i = some .done) ↔ s.jobState job ≠ some .done := by
  simp only [jobState_setState job state entries]
  constructor
  · intro stays done
    have written := stays job done
    rw [if_pos rfl, done] at written
    exact running (Option.some.inj written)
  · intro other i done
    rw [if_neg]
    · exact done
    · rintro rfl
      exact other done

theorem done_stopped {wpid : Int} (entries : t.shell.entries = (s.shell.handle wpid true).entries) :
    (∀ i, s.jobState i = some .done → t.jobState i = some .done) ↔
      ∀ i, s.shell.findJobByPid wpid = some i → s.jobState i ≠ some .done := by
  simp only [jobState_handle entries]
  constructor
  · intro stays i found done
    have stopped := stays i done
    rw [if_pos found] at stopped
    cases stopped
  · intro other i done
    rw [if_neg fun found => other i found done]
    exact done

theorem done_ended {wpid : Int} (entries : t.shell.entries = (s.shell.handle wpid false).entries) (i : Nat)
    (done : s.jobState i = some .done) : t.jobState i = some .done := by
  rw [jobState_handle entries]
  split
  · rfl
  · exact done

theorem done_same (entries : t.shell.entries = s.shell.entries) (i : Nat) (done : s.jobState i = some .done) :
    t.jobState i = some .done := by
  rw [jobState_entries, entries, ← jobState_entries]
  exact done

theorem done_added {entry : Int × JobState} (entries : t.shell.entries = s.shell.entries ++ [entry]) (i : Nat)
    (done : s.jobState i = some .done) : t.jobState i = some .done := by
  rw [jobState_entries] at done ⊢
  obtain ⟨other, here, _⟩ := Option.map_eq_some_iff.mp done
  have inside : i < s.shell.entries.length := (List.getElem?_eq_some_iff.mp here).1
  rw [entries, List.getElem?_append_left inside]
  exact done

theorem doneStays_iff {action : Action} (step : Step s action t) : DoneStays s action t ↔ SparesDone s action := by
  have edits := step_edits step
  cases action with
  | checkJobs => exact iff_of_true (edits.trans (entries_checkJobs s.shell)) trivial
  | addJob =>
    obtain ⟨entry, _, entries⟩ := edits
    exact iff_of_true (done_added entries) trivial
  | writeState =>
    obtain ⟨job, state, written, entries⟩ := edits
    have spares : SparesDone s .writeState ↔ s.jobState job ≠ some .done :=
      written_forall (fun job => s.jobState job ≠ some .done) written
    rw [spares]
    exact done_written (written_running written).not_done entries
  | reap pid stopped =>
    cases stopped with
    | false => exact iff_of_true (done_ended edits) trivial
    | true => exact done_stopped edits
  | leaveHandler wpid stopped =>
    cases stopped with
    | false => exact iff_of_true (done_ended edits) trivial
    | true => exact done_stopped edits
  | _ => exact iff_of_true (done_same edits) trivial

/-- In a run from any job table the jobs that are done stay so exactly when no step writes one. -/
theorem done_stays_iff {steps : List (State × Action)} (run : Run Step s steps t) :
    (∀ taken ∈ transitions steps t, DoneStays taken.1 taken.2.1 taken.2.2) ↔
      ∀ taken ∈ steps, SparesDone taken.1 taken.2 :=
  run.always_iff SparesDone DoneStays fun _ _ _ step => doneStays_iff step

def launchBg : List Action := [.addJob, .unblock, .fork 100, .exec true "make", .checkJobs]

theorem launch_admitted : system.Admits start launchBg :=
  ⟨⟨fork_admitted true "make" (by decide), rfl, _, _, _, rfl⟩, rfl, .inl ⟨_, _, rfl⟩⟩

/-- The job ends between `CheckJobs` and the `fg` that names it. -/
def fgAfterExit : List Action :=
  [.writeState, .testState, .runCmdBg true (some 1), .leaveHandler (-1) false, .reap 100 false, .enterHandler,
    .childExits 100, .checkJobs] ++ launchBg

theorem fg_revives_done :
    ¬∀ s steps t, Run Step s steps t → ∀ taken ∈ transitions steps t, DoneStays taken.1 taken.2.1 taken.2.2 := by
  have ended : system.Admits start (fgAfterExit.drop 3) :=
    ⟨⟨⟨⟨⟨launch_admitted, rfl, rfl⟩, .inl rfl⟩, rfl, rfl⟩, rfl, rfl⟩, rfl, .inr rfl⟩
  have admits : system.Admits start fgAfterExit := ⟨⟨⟨ended, rfl, rfl⟩, rfl, _, _, rfl⟩, rfl, _, _, rfl⟩
  intro claimed
  have stays := claimed _ _ _ (system.run_of_admits admits) (_, .writeState, _) List.mem_cons_self
  have revived : some JobState.foreground = some .done := stays 0 (by decide)
  cases revived

/-- `bg` for a job that runs, which then ends. -/
def bgThenExit : List Action :=
  [.leaveHandler (-1) false, .reap 100 false, .enterHandler, .childExits 100, .writeState, .sendCont, .testState,
    .runCmdBg false (some 1), .checkJobs] ++ launchBg

theorem done_after_bg :
    (system.final start bgThenExit).jobState 0 = some .done ∧
      ∀ taken ∈ transitions (system.trace start bgThenExit) (system.final start bgThenExit),
        DoneStays taken.1 taken.2.1 taken.2.2 := by
  have written : system.Admits start (bgThenExit.drop 4) :=
    ⟨⟨⟨⟨⟨launch_admitted, rfl, rfl⟩, rfl, rfl⟩, rfl, _, _, rfl⟩, rfl, _, _, rfl⟩, rfl, _, _, rfl⟩
  have admits : system.Admits start bgThenExit := ⟨⟨⟨⟨written, .inl rfl⟩, rfl, rfl⟩, rfl, rfl⟩, rfl, .inr rfl⟩
  refine ⟨by decide, (done_stays_iff (system.run_of_admits admits)).mpr ?_⟩
  have spares : SparesDone (system.final start (bgThenExit.drop 5)) .writeState := by
    intro job state written
    cases written
    decide
  simp only [bgThenExit, launchBg, List.cons_append, List.nil_append, Transition.System.trace, List.forall_mem_cons]
  exact ⟨trivial, trivial, trivial, trivial, spares, trivial, trivial, trivial, trivial, trivial, trivial, trivial,
    trivial, trivial, by simp⟩

end Eecs343.TinyShell
