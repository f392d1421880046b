import Mathlib.Data.List.Basic
import Eecs343.TinyShell.Session
import Eecs343.TinyShell.Table

namespace Eecs343.TinyShell

open Bytes Interpreter Transition Transition.System

/-- What no operation changes in a job. -/
def Job.label (job : Job) : String × Nat := (job.cmdline, job.added)

def Shell.labels (s : Shell) : List (String × Nat) := s.bgjobs.map Job.label

/-- The command line of the program that `Exec` is launching. -/
def Stage.unlisted : Stage → List String
  | .underway cmdline => [cmdline]
  | _ => []

/-- The table of `t` is what is left of the table of `s`. -/
structure Remains (s t : Shell) : Prop where
  labels : t.labels.Sublist s.labels
  added : t.added = s.added

variable {s t : Shell} {job : Job} {i : Nat} {action : Action} {u : State} {c : Control} {env : Environment} {wide : Bool}

namespace Remains

theorem of_eq (labels : t.labels = s.labels) (added : t.added = s.added) : Remains s t :=
  ⟨labels ▸ List.Sublist.refl _, added⟩

theorem refl (s : Shell) : Remains s s := of_eq rfl rfl

theorem update (here : s.bgjobs[i]? = some job) (state : JobState) : Remains s (s.update i job state) := by
  have same : ∀ job' : Job, job'.label = job.label → (s.bgjobs.set i job').map Job.label = s.labels := by
    intro job' alike
    apply List.ext_getElem?
    intro j
    rw [Shell.labels, List.getElem?_map, List.getElem?_map, List.getElem?_set]
    split
    · next equal =>
      subst equal
      obtain ⟨inside, _⟩ := List.getElem?_eq_some_iff.mp here
      rw [if_pos inside, here, Option.map_some, alike, Option.map_some]
    · rfl
  rw [Shell.update]
  split
  · split
    · exact of_eq (same _ rfl) rfl
    · exact of_eq (same _ rfl) rfl
  · exact of_eq (same _ rfl) rfl

theorem updateJobs (pid : Int) (state : JobState) : Remains s (s.updateJobs pid state) := by
  rw [Shell.updateJobs]
  split
  · exact refl s
  · split
    · exact refl s
    · next here => exact update here state

theorem modify (i : Nat) (f : Job → Job) (kept : ∀ job, (f job).label = job.label) :
    Remains s { s with bgjobs := s.bgjobs.modify i f } := by
  refine of_eq ?_ rfl
  apply List.ext_getElem?
  intro j
  rw [Shell.labels, Shell.labels, List.getElem?_map, List.getElem?_map, List.getElem?_modify]
  cases s.bgjobs[j]? with
  | none => rfl
  | some job => split <;> simp [kept]

theorem handle (wpid : Int) (stopped : Bool) : Remains s (s.handle wpid stopped) := by
  rw [Shell.handle]
  split
  · exact ⟨(updateJobs (s := { s with fgPid := -1 }) _ _).labels, (updateJobs (s := { s with fgPid := -1 }) _ _).added⟩
  · exact updateJobs _ _

theorem checkJobs : Remains s s.checkJobs := by
  refine ⟨?_, checkJobs_added s⟩
  rw [Shell.labels, checkJobs_bgjobs]
  exact List.filter_sublist.map _

theorem takeFgPid (i : Nat) : Remains s (s.takeFgPid i) := by
  rw [Shell.takeFgPid]
  split
  · exact of_eq rfl rfl
  · exact refl s

end Remains

theorem next_remains (other : action ≠ .addJob) : Remains u.shell (next u action).shell := by
  cases action with
  | addJob => exact absurd rfl other
  | checkJobs => exact .checkJobs
  | printJobs => exact .of_eq rfl rfl
  | reap pid stopped => exact .handle _ _
  | leaveHandler wpid stopped => exact .handle _ _
  | exec | endWait | childExits | childStops | childContinues | intFgProc | enterHandler => exact .refl _
  | fork | forkFails | unblock | findFg | sendCont =>
    rw [next]
    split <;> exact .refl _
  | setFgPid =>
    rw [next]
    split
    · exact .of_eq rfl rfl
    · exact .refl _
  | runCmdBg =>
    rw [next]
    split
    · exact .of_eq rfl rfl
    · exact .refl _
  | testState =>
    rw [next]
    split
    · split <;> exact .refl _
    · exact .refl _
  | writeState =>
    rw [next]
    split
    · exact .modify _ _ fun _ => rfl
    · exact .modify _ _ fun _ => rfl
    · exact .refl _
  | clearPrint =>
    rw [next]
    split
    · exact .modify _ _ fun _ => rfl
    · exact .refl _
  | takeFgPid =>
    rw [next]
    split
    · exact .takeFgPid _
    · exact .refl _
  | stopFgProc =>
    rw [next]
    split
    · exact .of_eq rfl rfl
    · exact .refl _

/-- `written` are the command lines of the programs that `AddJob` has been called for. -/
structure Journal (c : Control) (written : List String) : Prop where
  lines : c.launches.map (fun launch => shown launch.cmdline) = written ++ c.state.main.stage.unlisted
  count : written.length = c.state.shell.added
  labels : c.state.shell.labels.Sublist written.zipIdx

namespace Journal

variable {written : List String}

theorem remains {c' : Control} (journal : Journal c written) (launches : c'.launches = c.launches)
    (stage : c'.state.main.stage.unlisted = c.state.main.stage.unlisted) (left : Remains c.state.shell c'.state.shell) :
    Journal c' written :=
  ⟨launches ▸ stage ▸ journal.lines, left.added ▸ journal.count, left.labels.trans journal.labels⟩

theorem addJob (journal : Journal c written) (enabled : TinyShell.enabled c.state .addJob) :
    ∃ written, Journal (c.step .addJob) written := by
  obtain ⟨cmdline, pid, state, print, underway, landed, table⟩ := next_addJob enabled
  refine ⟨written ++ [cmdline], ?_, ?_, ?_⟩
  · have lines := journal.lines
    rw [underway] at lines
    simp only [Control.step, landed, lines]
    exact (List.append_nil _).symm
  · simp only [Control.step, table]
    rw [List.length_append, journal.count]
    rfl
  · simp only [Control.step, table]
    rw [Shell.labels, Shell.addJob, List.map_append, List.zipIdx_append, journal.count, Nat.zero_add]
    exact journal.labels.append (List.Sublist.refl _)

theorem act (journal : Journal c written) (here : c.state.main = .command) (request : Request) :
    Journal (c.act request) written := by
  have idle : c.state.main.stage.unlisted = [] := by rw [here]; rfl
  cases request with
  | nothing => exact journal.remains rfl idle.symm (.refl _)
  | print line => exact journal.remains rfl idle.symm (.of_eq rfl rfl)
  | jobs => exact journal.remains rfl idle.symm (.of_eq rfl rfl)
  | resume fg id =>
    refine journal.remains rfl ?_ (next_remains nofun)
    rw [idle]
    simp only [Control.act, Control.step, next]
    split <;> rfl
  | exec name argv bg cmdline =>
    refine ⟨?_, journal.count, journal.labels⟩
    have lines := journal.lines
    rw [idle, List.append_nil] at lines
    simp only [Control.act, List.map_append, lines]
    rfl

theorem step {x y : Session} {move : Move} (journal : Journal x.control written) (step : (session wide).Step x move y) :
    ∃ written, Journal y.control written := by
  obtain ⟨enabled, rfl⟩ := step
  cases move with
  | read call =>
    obtain ⟨_, quiet, _⟩ := enabled
    simp only [session, Session.next, Session.read]
    split
    · exact ⟨written, journal⟩
    · exact ⟨written, journal.remains rfl (by rw [quiet.2]; rfl) (next_remains (by decide))⟩
  | run env =>
    simp only [session, Session.next]
    split
    · exact ⟨written, journal.act enabled.1.2 _⟩
    · exact ⟨written, journal⟩
  | system action =>
    by_cases adds : action = .addJob
    · subst adds
      exact journal.addJob enabled.2
    · have stage := next_stage enabled.1 adds enabled.2
      exact ⟨written, journal.remains rfl (congrArg Stage.unlisted stage) (next_remains adds)⟩

end Journal

theorem searchPath_executable {files : Files} {pathlist name path : Text} {fuel i : Nat} {m : Memory}
    (found : searchPath files pathlist name fuel i m = some (some path)) : files.executable path = true := by
  induction fuel generalizing i m with
  | zero => cases found
  | succ fuel ih =>
    rw [searchPath] at found
    split at found
    · simp only [Option.bind_eq_bind, Option.bind_eq_some_iff] at found
      obtain ⟨_, _, _, _, path', _, found⟩ := found
      split at found
      · next executable =>
        cases found
        exact executable
      · exact ih found
    · cases found

theorem resolveExternalCmd_executable {files : Files} {path : Option Text} {name found : Text} {m : Memory}
    (resolved : resolveExternalCmd files path name m = some (some found)) : files.executable found = true := by
  unfold resolveExternalCmd at resolved
  split at resolved
  · split at resolved
    · next executable =>
      cases resolved
      exact executable
    · cases resolved
  · split at resolved
    · cases resolved
    · exact searchPath_executable resolved

/-- A program is only launched from a file that the shell has found executable. -/
theorem runCmd_executable {outcome : Outcome} {name cmdline : Text} {argv : List Text} {bg : Bool}
    (runs : runCmd env outcome = some (.exec name argv bg cmdline)) : env.files.executable name = true := by
  have builtIn : ∀ command args, runBuiltInCmd env command args ≠ .exec name argv bg cmdline := by
    intro command args
    rw [runBuiltInCmd]
    repeat' split
    all_goals exact nofun
  rw [runCmd.eq_def] at runs
  split at runs
  · cases runs
  · next cmd =>
    rw [runCmdFork] at runs
    split at runs
    · cases runs
    · split at runs
      · cases runs
      · split at runs
        · exact absurd (Option.some.inj runs) (builtIn _ _)
        · rw [runExternalCmd, Option.map_eq_some_iff] at runs
          obtain ⟨found, resolved, same⟩ := runs
          cases found with
          | none => cases same
          | some found =>
            cases same
            exact resolveExternalCmd_executable resolved
  · cases runs

theorem launches_step {x y : Session} {move : Move} (step : (session wide).Step x move y) (launch : Launch)
    (member : launch ∈ y.control.launches) : launch ∈ x.control.launches ∨
      ∃ env : Environment, move = .run env ∧ env.files.executable launch.name = true := by
  obtain ⟨_, rfl⟩ := step
  cases move with
  | read call =>
    simp only [session, Session.next, Session.read] at member
    split at member <;> exact .inl member
  | system action => exact .inl member
  | run env =>
    simp only [session, Session.next] at member
    split at member
    · next request runs =>
      cases request with
      | exec name argv bg cmdline =>
        rcases List.mem_append.mp member with before | new
        · exact .inl before
        · obtain ⟨outcome, _, runs⟩ := Option.bind_eq_some_iff.mp runs
          rw [List.mem_singleton.mp new]
          exact .inr ⟨env, rfl, runCmd_executable runs⟩
      | _ => exact .inl member
    · exact .inl member

theorem launches_made {begin x : Session} {steps : List (Session × Move)} (none : begin.control.launches = [])
    (run : Run (session wide).Step begin steps x) :
    ∀ launch ∈ x.control.launches, ∃ taken ∈ steps, ∃ env : Environment,
      taken.2 = .run env ∧ env.files.executable launch.name = true := by
  induction run with
  | refl =>
    rw [none]
    exact nofun
  | snoc before taken ih =>
    intro launch member
    obtain earlier | ⟨env, here⟩ := launches_step taken launch member
    · obtain ⟨taken, member, env, made⟩ := ih launch earlier
      exact ⟨taken, List.mem_cons_of_mem _ member, env, made⟩
    · exact ⟨_, List.mem_cons_self, env, here⟩

/-- Whatever is typed, the table holds programs that were launched, in their order and each at most once, under the lines
    they were launched by. Each was launched by a `RunCmd` that had found its file executable. -/
theorem table_is_launched {memory : Memory} {address : Int} {somewhere : address ≠ 0} {steps : List (Session × Move)}
    {x : Session} (run : Run (session wide).Step (Session.start wide memory address somewhere) steps x) :
    (∃ written, x.control.launches.map (fun launch => shown launch.cmdline) =
        written ++ x.control.state.main.stage.unlisted ∧
      (x.control.state.shell.bgjobs.map fun job => (job.cmdline, job.added)).Sublist written.zipIdx) ∧
    ∀ launch ∈ x.control.launches, ∃ taken ∈ steps, ∃ env : Environment,
      taken.2 = .run env ∧ env.files.executable launch.name = true := by
  refine ⟨?_, launches_made rfl run⟩
  have held : ∃ written, Journal x.control written := by
    apply run.invariant (fun _ _ => True) fun x => ∃ written, Journal x.control written
    · exact ⟨[], rfl, rfl, List.nil_sublist _⟩
    · intro _ _ _ journal _ step
      obtain ⟨_, journal⟩ := journal
      exact journal.step step
    · intro _ _
      trivial
  obtain ⟨written, journal⟩ := held
  exact ⟨written, journal.lines, journal.labels⟩

theorem typed_is_launched : (∃ written, ((session true).final opened typed).control.launches.map
      (fun launch => shown launch.cmdline) =
        written ++ ((session true).final opened typed).control.state.main.stage.unlisted ∧
      (((session true).final opened typed).control.state.shell.bgjobs.map fun job => (job.cmdline, job.added)).Sublist
        written.zipIdx) ∧
    ∀ launch ∈ ((session true).final opened typed).control.launches, ∃ taken ∈ (session true).trace opened typed,
      ∃ env : Environment, taken.2 = .run env ∧ env.files.executable launch.name = true :=
  table_is_launched ((session true).run_of_admits typed_admitted)

end Eecs343.TinyShell
