import Mathlib.Data.List.Forall2
import Eecs343.TinyShell.Model
import Eecs343.TinyShell.Runtime

namespace Eecs343.TinyShell

open Bytes Interpreter Transition Transition.System

/-- A call of `Exec`. -/
structure Launch where
  name : Text
  argv : List Text
  bg : Bool
  cmdline : Text

/-- The shell's job control, and the commands it has launched. -/
structure Control where
  state : State
  launches : List Launch

def Control.step (c : Control) (action : Action) : Control := { c with state := next c.state action }

def Control.act (c : Control) : Request → Control
  | .nothing => { c with state := c.state.goto .prompt }
  | .print line => { c with state := (c.state.withShell (c.state.shell.printf line)).goto .prompt }
  | .jobs => c.step .printJobs
  | .resume fg id => c.step (.runCmdBg fg id)
  | .exec name argv bg cmdline =>
    { c.step (.exec bg (shown cmdline)) with launches := c.launches ++ [⟨name, argv, bg, cmdline⟩] }

def Action.chosen : Action → Bool
  | .checkJobs | .printJobs | .exec _ _ | .runCmdBg _ _ => true
  | _ => false

/-- How far the main program has come with a command line. -/
inductive Stage where
  /-- About to run it. -/
  | command
  /-- Launching its program, which is not in the table yet. -/
  | underway (cmdline : String)
  | elsewhere

def Main.stage : Main → Stage
  | .command => .command
  | .fork _ cmdline | .forked _ _ cmdline | .launched _ _ cmdline | .adding _ cmdline => .underway cmdline
  | _ => .elsewhere

/-- The shell with its command buffer. `pending` is what `Interpret` makes of the line, unless it goes astray. -/
structure Session where
  control : Control
  caller : Caller
  pending : Option Outcome
  forceExit : Bool

inductive Move where
  /-- `getCommandLine`, the test for `exit`, `CheckJobs`, and `Interpret` up to `RunCmd`. -/
  | read (call : Call)
  /-- `RunCmd`. -/
  | run (env : Environment)
  /-- What the rest of `system` does. -/
  | system (action : Action)

namespace Session

variable (wide : Bool) (s : Session)

def read (call : Call) : Session :=
  let caller := getCommandLine wide call.answers call.line { s.caller with block := { s.caller.block with memory := call.memory } }
  let memory := caller.block.memory
  let size := caller.block.size
  if text memory size caller.cmdLine = some (literal "exit") then { s with caller, forceExit := true }
  else { s with caller, control := s.control.step .checkJobs, pending := interpret size memory caller.cmdLine }

def enabled : Move → Prop
  | .read call => s.forceExit = false ∧ s.control.state.At .prompt ∧ call.Enabled wide
  | .run env => s.control.state.At .command ∧ (s.pending.bind (runCmd env)).isSome
  | .system action => action.chosen = false ∧ TinyShell.enabled s.control.state action

def next : Move → Session
  | .read call => s.read wide call
  | .run env => match s.pending.bind (runCmd env) with
    | some request => { s with control := s.control.act request }
    | none => s
  | .system action => { s with control := s.control.step action }

end Session

/-- `main`, while commands are typed and processes come and go. -/
def session (wide : Bool) : System Session Move := ⟨Session.enabled wide, Session.next wide⟩

/-- `main` before its first command, with the buffer that `malloc` has returned. -/
def Session.start (wide : Bool) (memory : Memory) (address : Int) (somewhere : address ≠ 0) : Session :=
  ⟨⟨TinyShell.start, []⟩, allocated wide memory address somewhere, none, false⟩

/-- What `Interpret` makes of an empty line, and of a line of words. -/
def understood : Option Line → Outcome
  | none => .nothing
  | some line => .runCmd 1
    [⟨line.command, none, none, line.background.isSome, line.words.length, line.words.map Word.content⟩]

/-- The shell as its user knows it: command lines are empty, or words. -/
structure Desk where
  control : Control
  line : Option Line
  left : Bool

inductive Order where
  | line (line : Option Line)
  | exit
  | run (env : Environment)
  | system (action : Action)

namespace Desk

variable (d : Desk)

def enabled : Order → Prop
  | .line _ | .exit => d.left = false ∧ d.control.state.At .prompt
  | .run _ => d.control.state.At .command
  | .system action => action.chosen = false ∧ TinyShell.enabled d.control.state action

def next : Order → Desk
  | .line line => { d with control := d.control.step .checkJobs, line }
  | .exit => { d with left := true }
  | .run env => { d with control := d.control.act (d.line.elim .nothing (meaning env)) }
  | .system action => { d with control := d.control.step action }

end Desk

def desk : System Desk Order := ⟨Desk.enabled, Desk.next⟩

def Desk.start : Desk := ⟨⟨TinyShell.start, []⟩, none, false⟩

/-- The line is `exit`, or empty or made of words and no longer than the buffer that `getCommandLine` is told of. The
    directories of `PATH` leave room for a name. -/
def Move.Plain : Move → Prop
  | .read call => call.line = literal "exit" ∨ ∃ line : Option Line, call.line = line.elim [] Line.text ∧ call.line.length ≤ bufSize
  | .run env => env.Fits
  | .system _ => True

/-- The order of the user that a move carries out. -/
def Matches : Move → Order → Prop
  | .read call, .line line => call.line = line.elim [] Line.text ∧ call.line ≠ literal "exit"
  | .read call, .exit => call.line = literal "exit"
  | .run env, .run env' => env = env'
  | .system action, .system action' => action = action'
  | _, _ => False

/-- The session does what the desk shows, and has understood the line that it is about to run. -/
structure Follows (s : Session) (d : Desk) : Prop where
  control : s.control = d.control
  left : s.forceExit = d.left
  tame : s.caller.block.wild = false
  live : s.caller.cmdLine = s.caller.block.address
  roomy : bufSize < s.caller.block.size
  pending : s.control.state.main = .command →
    (d.line.elim [] Line.text).length ≤ bufSize ∧ s.pending = some (understood d.line)

variable {wide : Bool} {s t : Session} {d : Desk} {call : Call} {env : Environment} {action : Action} {line : Line}

theorem getCommandLine_short {c : Caller} (tame : c.block.wild = false) (live : c.cmdLine = c.block.address)
    (roomy : bufSize < c.block.size) (enabled : call.Enabled wide) (short : call.line.length ≤ bufSize) :
    let after := getCommandLine wide call.answers call.line { c with block := { c.block with memory := call.memory } }
    after.block.wild = false ∧ after.cmdLine = after.block.address ∧ bufSize < after.block.size ∧
      IsString after.block.memory after.cmdLine call.line := by
  intro after
  have inPlace : InPlace { c with block := { c.block with memory := call.memory } } call := by
    intro used full more
    exact absurd (Nat.le_trans short (full_bufSize_le full)) (Nat.not_le.mpr more)
  have cases := getCommandLine_cases (s := { c with block := { c.block with memory := call.memory } }) tame live roomy
    enabled
  have holding : Holding after := cases.2.mpr inPlace
  exact ⟨holding.tame, holding.live, cases.1 holding.tame, (holding.line call.line rfl).1⟩

theorem interpret_line {m : Memory} {c : Int} {fuel : Nat} {line : Option Line}
    (string : IsString m c (line.elim [] Line.text)) (enough : (line.elim [] Line.text).length < fuel) :
    interpret fuel m c = some (understood line) := by
  cases line with
  | none =>
    have ended := string.ended
    rw [Option.elim_none, List.length_nil, Nat.cast_zero, Int.add_zero] at ended
    rw [interpret, if_pos ended]
    rfl
  | some line =>
    rw [Option.elim_some, Line.text, Line.ending] at string enough
    cases background : line.background with
    | none =>
      simp only [background, List.append_nil] at string enough
      rw [interpret_foreground line string (by simpa using enough), understood, background]
      rfl
    | some after =>
      simp only [background] at string enough
      rw [interpret_background line after string (by simp at enough; omega), understood, background]
      rfl

theorem runCmd_understood {line : Option Line} (fits : env.Fits) (short : (line.elim [] Line.text).length ≤ bufSize) :
    runCmd env (understood line) = some (line.elim .nothing (meaning env)) := by
  cases line with
  | none => rfl
  | some line => exact runCmd_meaning fits short 1

theorem next_stage {u : State} (free : action.chosen = false) (other : action ≠ .addJob)
    (enabled : TinyShell.enabled u action) : (next u action).main.stage = u.main.stage := by
  cases action with
  | addJob => exact absurd rfl other
  | checkJobs | printJobs | exec | runCmdBg => cases free
  | childExits | childStops | childContinues | intFgProc | enterHandler | reap | leaveHandler => rfl
  | stopFgProc =>
    rw [next]
    split <;> rfl
  | fork =>
    obtain ⟨_, ⟨bg, cmdline, here⟩, _⟩ := enabled
    simp only [next, here]
    rfl
  | forkFails | setFgPid | sendCont =>
    obtain ⟨_, _, _, here⟩ := enabled
    simp only [next, here]
    rfl
  | unblock =>
    obtain ⟨_, _, _, _, here⟩ := enabled
    simp only [next, here]
    rfl
  | findFg | clearPrint | takeFgPid =>
    obtain ⟨_, _, here⟩ := enabled
    simp only [next, here]
    rfl
  | endWait =>
    obtain ⟨_, _, here, _⟩ := enabled
    rw [here]
    rfl
  | testState =>
    obtain ⟨_, fg, job, here⟩ := enabled
    simp only [next, here]
    split <;> rfl
  | writeState =>
    obtain ⟨_, fg, job, here⟩ := enabled
    cases fg <;> simp only [next, here] <;> rfl

theorem next_addJob {u : State} (enabled : TinyShell.enabled u .addJob) : ∃ cmdline pid state print,
    u.main.stage = .underway cmdline ∧ (next u .addJob).main.stage = .elsewhere ∧
    (next u .addJob).shell = u.shell.addJob pid state cmdline print := by
  obtain ⟨_, ⟨pid, cmdline, here⟩ | ⟨pid, cmdline, here⟩⟩ := enabled
  · refine ⟨cmdline, pid, .background, true, congrArg Main.stage here, ?_⟩
    simp only [next, here]
    exact ⟨rfl, rfl⟩
  · refine ⟨cmdline, pid, .foreground, false, congrArg Main.stage here, ?_⟩
    simp only [next, here]
    exact ⟨rfl, rfl⟩

theorem stage_command {main : Main} : main.stage = .command ↔ main = .command := by
  cases main with
  | command => exact ⟨fun _ => rfl, fun _ => rfl⟩
  | _ => exact ⟨nofun, nofun⟩

theorem next_command {u : State} (free : action.chosen = false) (enabled : TinyShell.enabled u action)
    (there : (next u action).main = .command) : u.main = .command := by
  rw [← stage_command] at there ⊢
  by_cases adds : action = .addJob
  · subst adds
    obtain ⟨_, _, _, _, _, elsewhere, _⟩ := next_addJob enabled
    rw [elsewhere] at there
    cases there
  · rwa [← next_stage free adds enabled]

theorem act_away (c : Control) (request : Request) : (c.act request).state.main ≠ .command := by
  cases request with
  | resume fg id =>
    simp only [Control.act, Control.step, next]
    split <;> exact nofun
  | _ => exact nofun

theorem Move.Plain.short (plain : (Move.read call).Plain) : call.line.length ≤ bufSize := by
  obtain exit | ⟨_, _, short⟩ := plain
  · rw [exit]
    decide
  · exact short

theorem Follows.read (follows : Follows s d) (plain : (Move.read call).Plain) (enabled : s.enabled wide (.read call)) :
    ∃ order e, desk.Step d order e ∧ Matches (.read call) order ∧ Follows (s.read wide call) e := by
  obtain ⟨control, left, tame, live, roomy, _⟩ := follows
  obtain ⟨going, quiet, sound⟩ := enabled
  have short : call.line.length ≤ bufSize := plain.short
  have reads := getCommandLine_short tame live roomy sound short
  have same := text_of_string reads.2.2.2 (Nat.lt_of_le_of_lt short reads.2.2.1)
  obtain ⟨tame, live, roomy, string⟩ := reads
  simp only [Session.read, same, Option.some.injEq]
  by_cases exit : call.line = literal "exit"
  · rw [if_pos exit]
    refine ⟨.exit, _, ⟨⟨left ▸ going, control ▸ quiet⟩, rfl⟩, exit, control, rfl, tame, live, roomy, ?_⟩
    intro there
    rw [quiet.2] at there
    cases there
  · obtain same | ⟨line, typed, short⟩ := plain
    · exact absurd same exit
    rw [if_neg exit]
    refine ⟨.line line, _, ⟨⟨left ▸ going, control ▸ quiet⟩, rfl⟩, ⟨typed, exit⟩,
      congrArg (Control.step · .checkJobs) control, left, tame, live, roomy, ?_⟩
    intro _
    have short : (line.elim [] Line.text).length ≤ bufSize := typed ▸ short
    exact ⟨short, interpret_line (typed ▸ string) (Nat.lt_of_le_of_lt short roomy)⟩

theorem Follows.run (follows : Follows s d) (fits : env.Fits) (here : s.control.state.At .command) :
    desk.Step d (.run env) (d.next (.run env)) ∧ Follows (s.next wide (.run env)) (d.next (.run env)) := by
  obtain ⟨control, left, tame, live, roomy, pending⟩ := follows
  obtain ⟨short, found⟩ := pending here.2
  have next : s.next wide (.run env) = { s with control := s.control.act (d.line.elim .nothing (meaning env)) } := by
    simp only [Session.next, found, Option.bind_some, runCmd_understood fits short]
  constructor
  · refine ⟨?_, rfl⟩
    change d.control.state.At .command
    rw [← control]
    exact here
  · rw [next]
    exact ⟨congrArg (Control.act · _) control, left, tame, live, roomy, fun there => absurd there (act_away _ _)⟩

theorem Follows.step {move : Move} (follows : Follows s d) (plain : move.Plain) (step : (session wide).Step s move t) :
    ∃ order e, desk.Step d order e ∧ Matches move order ∧ Follows t e := by
  obtain ⟨enabled, rfl⟩ := step
  cases move with
  | read call => exact follows.read plain enabled
  | run env =>
    have ran : desk.Step d (.run env) (d.next (.run env)) ∧ Follows (s.next wide (.run env)) (d.next (.run env)) :=
      follows.run plain enabled.1
    exact ⟨.run env, _, ran.1, rfl, ran.2⟩
  | system action =>
    obtain ⟨control, left, tame, live, roomy, pending⟩ := follows
    obtain ⟨free, enabled⟩ := enabled
    refine ⟨.system action, _, ⟨⟨free, control ▸ enabled⟩, rfl⟩, rfl, ?_⟩
    refine ⟨congrArg (Control.step · action) control, left, tame, live, roomy, ?_⟩
    intro there
    exact pending (next_command free enabled there)

theorem Follows.runs (follows : Follows s d) (here : s.control.state.At .command) (fits : env.Fits) :
    (session wide).enabled s (.run env) := by
  obtain ⟨short, found⟩ := follows.pending here.2
  refine ⟨here, ?_⟩
  rw [found, Option.bind_some, runCmd_understood fits short]
  rfl

def listing : Line := ⟨0, .plain ls (by decide) (by decide), [], 1, some 0⟩

/-- `ls &` is typed and run, the process is forked and the user leaves. -/
def typed : List Move :=
  [.read ⟨literal "exit", fun _ => 0, fun _ => nul⟩, .system .addJob, .system .unblock, .system (.fork 100),
    .run ⟨usrBin, some binPath, fun _ => true, fun _ => nul⟩, .read ⟨listing.text, fun _ => 0, fun _ => nul⟩]

def opened : Session := Session.start true (fun _ => nul) 4096 (by decide)

theorem typed_admitted : (session true).Admits opened typed := by
  refine ⟨⟨⟨⟨⟨⟨trivial, rfl, ⟨rfl, rfl⟩, ?_⟩, ⟨rfl, ?_⟩, ?_⟩, rfl, rfl, ?_⟩, rfl, rfl, ?_⟩, rfl, rfl, .inl ?_⟩, ?_⟩
  · exact ⟨by decide, fun _ _ => rfl⟩
  · decide +kernel
  · decide +kernel
  · exact ⟨⟨true, "ls ", by decide +kernel⟩, by decide, .inl rfl⟩
  · exact ⟨100, true, "ls ", by decide +kernel⟩
  · exact ⟨100, "ls ", by decide +kernel⟩
  · exact ⟨by decide +kernel, ⟨rfl, by decide +kernel⟩, by decide, fun _ _ => rfl⟩

end Eecs343.TinyShell
