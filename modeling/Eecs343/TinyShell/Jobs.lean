import Mathlib.Algebra.Order.Ring.Int
import Mathlib.Data.List.Basic

namespace Eecs343.TinyShell

inductive JobState where
  | foreground
  | background
  | stopped
  | done
  deriving DecidableEq

/-- `bgjobL`. `added` tells which call of `AddJob` the node comes from. -/
structure Job where
  pid : Int
  jid : Int
  state : JobState
  cmdline : String
  print : Bool
  added : Nat
  deriving DecidableEq

/-- The globals of `runtime.c`. A job pointer is the place of its node in `bgjobs`, which only
    `CheckJobs` changes. -/
structure Shell where
  bgjobs : List Job
  nextjid : Int
  fgPid : Int
  added : Nat
  stdout : List String

def shellStart : Shell := ⟨[], 1, 0, 0, []⟩

def doneLine (job : Job) : String := "[" ++ toString job.jid ++ "]   Done                    " ++ job.cmdline ++ "\n"

def stoppedLine (jid : Int) (cmdline : String) : String :=
  "[" ++ toString jid ++ "]   Stopped                 " ++ cmdline ++ "\n"

/-- `nextjid += 1`: behind the largest `int` the smallest follows. -/
def numberAfter (jid : Int) : Int := (jid + 1).bmod (2 ^ 32)

namespace Shell

variable (s : Shell)

def printf (line : String) : Shell := { s with stdout := s.stdout ++ [line] }

def findJobByPid (pid : Int) : Option Nat := s.bgjobs.findIdx? fun job => decide (job.pid = pid)

def findJobByJid (jid : Int) : Option Nat := s.bgjobs.findIdx? fun job => decide (job.jid = jid)

def addJob (pid : Int) (state : JobState) (cmdline : String) (print : Bool) : Shell :=
  { s with
    bgjobs := s.bgjobs ++ [⟨pid, if state = .background then s.nextjid else 0, state, cmdline, print, s.added⟩]
    nextjid := if state = .background then numberAfter s.nextjid else s.nextjid
    added := s.added + 1 }

/-- What `UpdateJobs` makes of the job it finds: a job that stops without a number gets the next one. -/
def update (i : Nat) (job : Job) (state : JobState) : Shell :=
  if state = .stopped then
    if job.jid = 0 then
      { s with
        bgjobs := s.bgjobs.set i { job with state, jid := s.nextjid }
        nextjid := numberAfter s.nextjid
        stdout := s.stdout ++ [stoppedLine s.nextjid job.cmdline] }
    else
      { s with
        bgjobs := s.bgjobs.set i { job with state }
        stdout := s.stdout ++ [stoppedLine job.jid job.cmdline] }
  else { s with bgjobs := s.bgjobs.set i { job with state } }

def updateJobs (pid : Int) (state : JobState) : Shell :=
  match s.findJobByPid pid with
  | none => s
  | some i => match s.bgjobs[i]? with
    | none => s
    | some job => s.update i job state

/-- The loop of `CheckJobs`: `kept` are the nodes before `current` that stay linked. -/
def checkLoop (kept : List Job) : List Job → Shell → Shell
  | [], s => { s with bgjobs := kept }
  | current :: rest, s =>
    if current.state = .done then
      checkLoop kept rest (if current.print then s.printf (doneLine current) else { s with fgPid := -1 })
    else checkLoop (kept ++ [current]) rest s

def checkJobs : Shell :=
  let checked := checkLoop [] s.bgjobs s
  if checked.bgjobs = [] then { checked with nextjid := 1 } else checked

/-- A line of `PrintJobs`; jobs that are done or in the foreground are passed over. -/
def jobLine (job : Job) : Option String :=
  let line := fun (state : String) => "[" ++ toString job.jid ++ "]   " ++ state ++ "                 " ++ job.cmdline
  match job.state with
  | .background => some (line "Running" ++ " &\n")
  | .stopped => some (line "Stopped" ++ "\n")
  | .done | .foreground => none

def printJobs : Shell := { s with stdout := s.stdout ++ s.bgjobs.filterMap jobLine }

/-- `job->state = state`. -/
def setState (i : Nat) (state : JobState) : Shell :=
  { s with bgjobs := s.bgjobs.modify i fun job => { job with state } }

/-- `job->print = FALSE`. -/
def clearPrint (i : Nat) : Shell := { s with bgjobs := s.bgjobs.modify i fun job => { job with print := false } }

/-- `fg_pid = job->pid`. -/
def takeFgPid (i : Nat) : Shell :=
  match s.bgjobs[i]? with
  | some job => { s with fgPid := job.pid }
  | none => s

/-- The job `RunCmdBg` works on, or the line it prints instead. `id` is what `atoi` makes of the
    argument, where there is one. -/
def requestedJob : Option Int → String ⊕ Nat
  | none => .inl "No id supplied\n"
  | some jid =>
    if jid = 0 then .inl "Error in the command.\n"
    else match s.findJobByJid jid with
      | none => .inl "No job in job list.\n"
      | some i => .inr i

/-- What `RunCmdBg` does to the globals, up to `WaitFg`. -/
def runCmdBg (fg : Bool) (id : Option Int) : Shell :=
  match s.requestedJob id with
  | .inl line => s.printf line
  | .inr i => if fg then ((s.setState i .foreground).clearPrint i).takeFgPid i else s.setState i .background

end Shell

end Eecs343.TinyShell
