import Eecs343.TinyShell.CommandLine
import Eecs343.TinyShell.Interpreter.Words
import Eecs343.TinyShell.Search

namespace Eecs343.TinyShell

open Bytes Interpreter

/-- What `%s` prints. -/
def shown (s : Text) : String := String.ofList (s.map fun c => Char.ofNat c.toNat)

/-- What the world answers while a command is run. `chdir none` is the change to `getenv("HOME")`, and `buf` is what
    stands in the buffer of `ResolveExternalCmd`. -/
structure Environment where
  files : Files
  path : Option Text
  chdir : Option Text → Bool
  buf : Memory

/-- What `RunCmd` comes to. -/
inductive Request where
  | nothing
  | print (line : String)
  /-- `PrintJobs`. -/
  | jobs
  /-- `RunCmdBg`, with what `atoi` makes of the argument, where there is one. -/
  | resume (fg : Bool) (id : Option Int)
  /-- `Exec`. -/
  | exec (name : Text) (argv : List Text) (bg : Bool) (cmdline : Text)
  deriving DecidableEq

def isSpace (c : BitVec 8) : Bool := c = space || (9#8 ≤ c && c ≤ 13#8)

def isDigit (c : BitVec 8) : Bool := 48#8 ≤ c && c ≤ 57#8

def digits (s : Text) : Nat := (s.takeWhile isDigit).foldl (fun n c => 10 * n + (c.toNat - 48)) 0

/-- `atoi`, for numbers that an `int` holds. -/
def atoi (s : Text) : Int :=
  match s.dropWhile isSpace with
  | [] => 0
  | c :: s => if c = 45#8 then -digits s else if c = 43#8 then digits s else digits (c :: s)

def isBuiltIn (cmd : Text) : Bool :=
  cmd = literal "bg" || cmd = literal "fg" || cmd = literal "jobs" || cmd = literal "cd" || cmd = literal "alias" ||
    cmd = literal "unalias"

/-- `RunBuiltInCmd`, with the words behind the first. -/
def runBuiltInCmd (env : Environment) (command : Text) (args : List Text) : Request :=
  if command = literal "bg" ∨ command = literal "fg" then .resume (command = literal "fg") (args.head?.map atoi)
  else if command = literal "jobs" then .jobs
  else if command = literal "cd" then
    -- `RunCd`
    if env.chdir args.head? then .nothing else .print "error in cd\n"
  else .print "This should never happen. Whoops :( :(\n"

def runExternalCmd (env : Environment) (command : Text) (cmd : Command) : Option Request :=
  (resolveExternalCmd env.files env.path command env.buf).map fun found => match found with
    | some name => .exec name cmd.argv cmd.bg cmd.cmdline
    | none => .print (shown command ++ ": command not found\n")

def runCmdFork (env : Environment) (cmd : Command) : Option Request :=
  if cmd.argc = 0 then some .nothing
  else match cmd.argv with
    | [] => none
    | command :: args => if isBuiltIn command then some (runBuiltInCmd env command args) else runExternalCmd env command cmd

/-- `Interpret` from its call of `RunCmd` on. `RunCmdPipe` does nothing. -/
def runCmd (env : Environment) : Outcome → Option Request
  | .nothing => some .nothing
  | .runCmd _ [cmd] => runCmdFork env cmd
  | .runCmd _ _ => some .nothing

/-- Where a command is found: under its own name, or in the first directory of `PATH` that has it. -/
def which (env : Environment) (command : Text) : Option Text :=
  if command.contains slash then if env.files.executable command then some command else none
  else env.path.bind fun pathlist => ((components pathlist).map (inDirectory command)).find? env.files.executable

/-- What a line of words asks for. -/
def meaning (env : Environment) (line : Line) : Request :=
  let command := line.first.content
  let args := line.rest.map fun word => word.2.content
  if isBuiltIn command then runBuiltInCmd env command args
  else match which env command with
    | some name => .exec name (command :: args) line.background.isSome line.command
    | none => .print (shown command ++ ": command not found\n")

/-- The directories of `PATH` leave room in the buffer for a name that fits on a command line. -/
def Environment.Fits (env : Environment) : Prop :=
  ∀ pathlist, env.path = some pathlist →
    nul ∉ pathlist ∧ pathlist.length ≤ intMax ∧ ∀ d ∈ components pathlist, d.length + bufSize + 2 ≤ bufLength

variable {env : Environment} {files : Files} {name pathlist : Text} {line : Line}

theorem tried_subset (ds : List Text) : tried files name ds ⊆ ds := by
  induction ds with
  | nil => exact List.Subset.refl _
  | cons d ds ih =>
    rw [tried]
    apply List.cons_subset_cons
    split
    · exact List.nil_subset _
    · exact ih

theorem Environment.Fits.inBounds (fits : env.Fits) (path : env.path = some pathlist) (short : name.length ≤ bufSize) :
    InBounds env.files pathlist name 0 := by
  obtain ⟨_, small, room⟩ := fits pathlist path
  constructor
  · intro d member
    have := room d (tried_subset _ member)
    omega
  · exact Nat.le_trans (Nat.min_le_left _ _) small

theorem Environment.Fits.resolve (fits : env.Fits) (named : nul ∉ name) (short : name.length ≤ bufSize) :
    resolveExternalCmd env.files env.path name env.buf = some (which env name) := by
  by_cases absolute : slash ∈ name
  · rw [which, if_pos (by simpa using absolute)]
    exact if_pos (by simpa using absolute)
  · rw [which, if_neg (by simpa using absolute)]
    cases path : env.path with
    | none => exact if_neg (by simpa using absolute)
    | some pathlist =>
      have found := (resolveExternalCmd_cases env.files env.buf (fits pathlist path).1 named absolute).1
      exact found (fits.inBounds path short)

theorem Word.content_short (w : Word) : w.content.length ≤ w.source.length := by
  rw [Word.source, List.length_append, List.length_append]
  omega

theorem Line.first_short (line : Line) : line.first.content.length ≤ line.text.length := by
  have first := Word.content_short line.first
  rw [Line.text, Line.command]
  simp only [List.length_append]
  omega

theorem runCmd_meaning (fits : env.Fits) (short : line.text.length ≤ bufSize) (task : Nat) :
    runCmd env (.runCmd task
      [⟨line.command, none, none, line.background.isSome, line.words.length, line.words.map Word.content⟩]) =
        some (meaning env line) := by
  have found := fits.resolve line.first.proper.1 (Nat.le_trans (Line.first_short line) short)
  rw [runCmd, runCmdFork, if_neg (by simp [Line.words])]
  simp only [Line.words, List.map_cons, List.map_map, meaning]
  split
  · rfl
  · rw [runExternalCmd, found, Option.map_some]
    rfl

end Eecs343.TinyShell
