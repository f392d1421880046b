import Mathlib.Logic.Function.Basic
import Eecs343.Base.Transition
import Eecs343.TinyShell.Jobs

namespace Eecs343.TinyShell

/-- Where the main program stands. A job is named by its place in the table. -/
inductive Main where
  /-- Reading the next command line. -/
  | prompt
  /-- After `CheckJobs`, about to run the command. -/
  | command
  /-- `Exec`, with the signals blocked, before `fork`. -/
  | fork (bg : Bool) (cmdline : String)
  | forked (pid : Int) (bg : Bool) (cmdline : String)
  /-- The parent after `sigprocmask(SIG_UNBLOCK)`. -/
  | launched (pid : Int) (bg : Bool) (cmdline : String)
  /-- After `fg_pid = pid`. -/
  | adding (pid : Int) (cmdline : String)
  /-- At the start of `WaitFg(pid)`. -/
  | waitFg (pid : Int)
  /-- In the loop of `WaitFg`. -/
  | waiting (job : Option Nat)
  /-- `RunCmdBg` has found its job. -/
  | found (fg : Bool) (job : Nat)
  /-- The job was stopped or in the background. -/
  | continuing (fg : Bool) (job : Nat)
  | writing (fg : Bool) (job : Nat)
  | clearing (job : Nat)
  | taking (job : Nat)
  deriving DecidableEq

/-- A process the shell has forked, as the kernel sees it. -/
inductive Child where
  | none
  | running
  /-- `reported` tells whether `waitpid` has returned the stop. -/
  | stopped (reported : Bool)
  | zombie
  /-- `waitpid` has returned the exit. -/
  | reaped
  deriving DecidableEq

structure State where
  shell : Shell
  main : Main
  /-- `HandleChildren` is running. -/
  handling : Bool
  children : Int → Child

def start : State := ⟨shellStart, .prompt, false, fun _ => .none⟩

inductive Action where
  | checkJobs
  | printJobs
  | exec (bg : Bool) (cmdline : String)
  | fork (pid : Int)
  /-- `fork` returns -1; the shell takes it for the process. -/
  | forkFails
  | unblock
  | setFgPid
  | addJob
  | findFg
  | endWait
  | runCmdBg (fg : Bool) (id : Option Int)
  | testState
  | sendCont
  | writeState
  | clearPrint
  | takeFgPid
  | childExits (pid : Int)
  | childStops (pid : Int)
  | childContinues (pid : Int)
  | intFgProc
  | stopFgProc
  | enterHandler
  /-- One round of `HandleChildren` in which `waitpid` returns a child. -/
  | reap (pid : Int) (stopped : Bool)
  /-- The last round: `waitpid` returns 0 or -1 and leaves `status` as it was. -/
  | leaveHandler (wpid : Int) (stopped : Bool)
  deriving DecidableEq

namespace State

variable (s : State)

def withShell (shell : Shell) : State := { s with shell }

def goto (main : Main) : State := { s with main }

def setChild (pid : Int) (child : Child) : State := { s with children := Function.update s.children pid child }

def jobState (job : Nat) : Option JobState := s.shell.bgjobs[job]?.map Job.state

/-- `SIGINT`, `SIGTSTP` and `SIGCHLD` are blocked from the start of `Exec` until after the fork. -/
def blocked : Bool := match s.main with
  | .fork _ _ | .forked _ _ _ => true
  | _ => false

end State

/-- A round of `HandleChildren`: what it does with the answer of `waitpid`. -/
def Shell.handle (s : Shell) (wpid : Int) (stopped : Bool) : Shell :=
  let s := if wpid = s.fgPid then { s with fgPid := -1 } else s
  s.updateJobs wpid (if stopped then .stopped else .done)

/-- The main program runs while the handler does not. -/
def State.At (s : State) (main : Main) : Prop := s.handling = false ∧ s.main = main

def enabled (s : State) : Action → Prop
  | .checkJobs => s.At .prompt
  | .printJobs => s.At .command
  | .exec _ _ => s.At .command
  | .fork pid => s.handling = false ∧ (∃ bg cmdline, s.main = .fork bg cmdline) ∧ 0 < pid ∧
      (s.children pid = .none ∨ s.children pid = .reaped)
  | .forkFails => s.handling = false ∧ ∃ bg cmdline, s.main = .fork bg cmdline
  | .unblock => s.handling = false ∧ ∃ pid bg cmdline, s.main = .forked pid bg cmdline
  | .setFgPid => s.handling = false ∧ ∃ pid cmdline, s.main = .launched pid false cmdline
  | .addJob => s.handling = false ∧
      ((∃ pid cmdline, s.main = .launched pid true cmdline) ∨ ∃ pid cmdline, s.main = .adding pid cmdline)
  | .findFg => s.handling = false ∧ ∃ pid, s.main = .waitFg pid
  | .endWait => s.handling = false ∧ ∃ job, s.main = .waiting job ∧ job.bind s.jobState ≠ some .foreground
  | .runCmdBg _ _ => s.At .command
  | .testState => s.handling = false ∧ ∃ fg job, s.main = .found fg job
  | .sendCont => s.handling = false ∧ ∃ fg job, s.main = .continuing fg job
  | .writeState => s.handling = false ∧ ∃ fg job, s.main = .writing fg job
  | .clearPrint => s.handling = false ∧ ∃ job, s.main = .clearing job
  | .takeFgPid => s.handling = false ∧ ∃ job, s.main = .taking job
  | .childExits pid => s.children pid = .running ∨ ∃ reported, s.children pid = .stopped reported
  | .childStops pid => s.children pid = .running
  | .childContinues pid => ∃ reported, s.children pid = .stopped reported
  | .intFgProc => s.blocked = false
  | .stopFgProc => s.blocked = false
  | .enterHandler => s.handling = false ∧ s.blocked = false
  | .reap pid stopped => s.handling = true ∧ s.children pid = if stopped then .stopped false else .zombie
  | .leaveHandler wpid _ => s.handling = true ∧ (wpid = 0 ∨ wpid = -1)

def next (s : State) : Action → State
  | .checkJobs => (s.withShell s.shell.checkJobs).goto .command
  | .printJobs => (s.withShell s.shell.printJobs).goto .prompt
  | .exec bg cmdline => s.goto (.fork bg cmdline)
  | .fork pid => match s.main with
    | .fork bg cmdline => (s.setChild pid .running).goto (.forked pid bg cmdline)
    | _ => s
  | .forkFails => match s.main with
    | .fork bg cmdline => s.goto (.forked (-1) bg cmdline)
    | _ => s
  | .unblock => match s.main with
    | .forked pid bg cmdline => s.goto (.launched pid bg cmdline)
    | _ => s
  | .setFgPid => match s.main with
    | .launched pid _ cmdline => (s.withShell { s.shell with fgPid := pid }).goto (.adding pid cmdline)
    | _ => s
  | .addJob => match s.main with
    | .launched pid _ cmdline => (s.withShell (s.shell.addJob pid .background cmdline true)).goto .prompt
    | .adding pid cmdline => (s.withShell (s.shell.addJob pid .foreground cmdline false)).goto (.waitFg pid)
    | _ => s
  | .findFg => match s.main with
    | .waitFg pid => s.goto (.waiting (s.shell.findJobByPid pid))
    | _ => s
  | .endWait => s.goto .prompt
  | .runCmdBg fg id => match s.shell.requestedJob id with
    | .inl line => (s.withShell (s.shell.printf line)).goto .prompt
    | .inr job => s.goto (.found fg job)
  | .testState => match s.main with
    | .found fg job =>
      if s.jobState job = some .stopped ∨ s.jobState job = some .background then s.goto (.continuing fg job)
      else s.goto (.writing fg job)
    | _ => s
  -- The group of the job is continued by `childContinues`.
  | .sendCont => match s.main with
    | .continuing fg job => s.goto (.writing fg job)
    | _ => s
  | .writeState => match s.main with
    | .writing true job => (s.withShell (s.shell.setState job .foreground)).goto (.clearing job)
    | .writing false job => (s.withShell (s.shell.setState job .background)).goto .prompt
    | _ => s
  | .clearPrint => match s.main with
    | .clearing job => (s.withShell (s.shell.clearPrint job)).goto (.taking job)
    | _ => s
  | .takeFgPid => match s.main with
    | .taking job => (s.withShell (s.shell.takeFgPid job)).goto (.waitFg (s.shell.takeFgPid job).fgPid)
    | _ => s
  | .childExits pid => s.setChild pid .zombie
  | .childStops pid => s.setChild pid (.stopped false)
  | .childContinues pid => s.setChild pid .running
  | .intFgProc => s
  | .stopFgProc => if 0 ≤ s.shell.fgPid then s.withShell { s.shell with fgPid := -1 } else s
  | .enterHandler => { s with handling := true }
  | .reap pid stopped =>
    (s.withShell (s.shell.handle pid stopped)).setChild pid (if stopped then .stopped true else .reaped)
  | .leaveHandler wpid stopped => { s.withShell (s.shell.handle wpid stopped) with handling := false }

def system : Transition.System State Action := ⟨enabled, next⟩

abbrev Step : State → Action → State → Prop := system.Step

theorem fork_admitted (bg : Bool) (cmdline : String) {pid : Int} (positive : 0 < pid) :
    system.Admits start [.fork pid, .exec bg cmdline, .checkJobs] :=
  ⟨⟨⟨trivial, rfl, rfl⟩, rfl, rfl⟩, rfl, ⟨_, _, rfl⟩, positive, .inl rfl⟩

end Eecs343.TinyShell
