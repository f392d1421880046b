import Eecs343.Base.Bytes

namespace Eecs343.TinyShell.Interpreter

open Bytes

abbrev Text := List (BitVec 8)

abbrev nul : BitVec 8 := 0#8
abbrev space : BitVec 8 := 32#8
abbrev doubleQuote : BitVec 8 := 34#8
abbrev ampersand : BitVec 8 := 38#8
abbrev singleQuote : BitVec 8 := 39#8
abbrev less : BitVec 8 := 60#8
abbrev greater : BitVec 8 := 62#8
abbrev bar : BitVec 8 := 124#8

def put (m : Memory) (p : Int) (c : BitVec 8) : Memory := Function.update m p c

/-- The string at `p`: what `strlen` measures and `strdup` copies. -/
def text (m : Memory) : (fuel : Nat) → (p : Int) → Option Text
  | 0, _ => none
  | fuel + 1, p => if m p = nul then some [] else (text m fuel (p + 1)).map (m p :: ·)

/-- The two flags all three scanners keep. -/
structure Quotes where
  quot1 : Bool
  quot2 : Bool
  deriving DecidableEq

/-- What the scanners do first with a character. After a quote they `continue`, which only skips
    tests that a quote does not pass. -/
def Quotes.next (q : Quotes) (c : BitVec 8) : Quotes :=
  if c = singleQuote then if q.quot2 then q else { q with quot1 := !q.quot1 }
  else if c = doubleQuote then if q.quot1 then q else { q with quot2 := !q.quot2 }
  else q

/-- `quot1 != 1 && quot2 != 1`. -/
def Quotes.outside (q : Quotes) : Bool := !q.quot1 && !q.quot2

/-- `single_param` with its local variables: where the word starts, and memory with its end cut. The
    walk has no bound of its own. -/
def singleParamFrom (st : Int) : (fuel : Nat) → (m : Memory) → (idx : Nat) → (q : Quotes) → (start : Bool) → (t : Int) →
    Option (Int × Memory)
  | 0, _, _, _, _, _ => none
  | fuel + 1, m, idx, q, start, t =>
    let c := m (st + idx)
    if start then
      if c = nul then some (t, m)
      else if c = less ∨ c = greater then some (t, put m (st + idx) nul)
      else if c = space ∧ q.outside then some (t, put m (st + idx) nul)
      else if c = singleQuote ∧ q.quot1 then some (t, put m (st + idx) nul)
      else if c = doubleQuote ∧ q.quot2 then some (t, put m (st + idx) nul)
      else singleParamFrom st fuel m (idx + 1) q start t
    else if c = space ∨ c = nul then singleParamFrom st fuel m (idx + 1) q start t
    else if c = doubleQuote then singleParamFrom st fuel m (idx + 1) { q with quot2 := true } true (st + idx + 1)
    else if c = singleQuote then singleParamFrom st fuel m (idx + 1) { q with quot1 := true } true (st + idx + 1)
    else singleParamFrom st fuel m (idx + 1) q true (st + idx)

def singleParam (fuel : Nat) (m : Memory) (st : Int) : Option (Int × Memory) :=
  singleParamFrom st fuel m 0 ⟨false, false⟩ false st

/-- `commandT`, as `CreateCmdT` and `parser_single` fill it. -/
structure Command where
  cmdline : Text
  redirectIn : Option Text
  redirectOut : Option Text
  bg : Bool
  argc : Nat
  argv : List Text
  deriving DecidableEq

/-- `for(i = 0; i < sz; i++) if(c[i] != ' ') break;` -/
def leading (m : Memory) (c : Int) : (sz : Nat) → Nat
  | 0 => 0
  | sz + 1 => if m c = space then leading m (c + 1) sz + 1 else 0

/-- `while(i < (sz - 1) && c[i + 1] == ' ') i++;` -/
def skipSpaces (m : Memory) (c : Int) (sz : Nat) : (fuel : Nat) → (i : Nat) → Nat
  | 0, i => i
  | fuel + 1, i => if i + 1 < sz ∧ m (c + (i + 1 : Nat)) = space then skipSpaces m c sz fuel (i + 1) else i

/-- The variables of the loop of `parser_single`. -/
structure Count where
  cmdLength : Nat
  taskArgc : Nat
  quotes : Quotes
  input : Option Int
  out : Option Int

/-- The first character that redirects fixes `cmd_length`. -/
def Count.endWords (k : Count) (sz i : Nat) : Nat := if k.cmdLength = sz then i else k.cmdLength

/-- `if(c[i] == '<' && quot1 != 1 && quot2 != 1)`, with `i` and the variables. -/
def lessStep (m : Memory) (c : Int) (sz : Nat) (s : Nat × Count) : Nat × Count :=
  if m (c + s.1) = less ∧ s.2.quotes.outside then
    let i := skipSpaces m c sz sz s.1
    (i, { s.2 with cmdLength := s.2.endWords sz s.1, input := some (c + (i + 1 : Nat)) })
  else s

/-- `if(c[i] == '>' && quot1 != 1 && quot2 != 1)`. -/
def greaterStep (m : Memory) (c : Int) (sz : Nat) (s : Nat × Count) : Nat × Count :=
  if m (c + s.1) = greater ∧ s.2.quotes.outside then
    let i := skipSpaces m c sz sz s.1
    (i, { s.2 with cmdLength := s.2.endWords sz s.1, out := some (c + (i + 1 : Nat)) })
  else s

/-- `if(c[i] == ' ' && quot1 != 1 && quot2 != 1)`. -/
def spaceStep (m : Memory) (c : Int) (sz : Nat) (s : Nat × Count) : Nat × Count :=
  if m (c + s.1) = space ∧ s.2.quotes.outside then
    (skipSpaces m c sz sz s.1, { s.2 with taskArgc := if s.2.cmdLength = sz then s.2.taskArgc + 1 else s.2.taskArgc })
  else s

/-- One pass of the loop of `parser_single`. -/
def countStep (m : Memory) (c : Int) (sz : Nat) (i : Nat) (k : Count) : Nat × Count :=
  let s := (i, { k with quotes := k.quotes.next (m (c + i)) })
  let s := spaceStep m c sz (greaterStep m c sz (lessStep m c sz s))
  (s.1 + 1, s.2)

/-- The loop: every pass moves `i`, so that `sz` passes are enough. -/
def countLoop (m : Memory) (c : Int) (sz : Nat) : (fuel : Nat) → (i : Nat) → Count → Count
  | 0, _, k => k
  | fuel + 1, i, k =>
    if i < sz then
      let s := countStep m c sz i k
      countLoop m c sz fuel s.1 s.2
    else k

/-- What the loop and the test after it find in the `sz` bytes at `c`: `task_argc`, `in` and `out`. -/
def countArgs (m : Memory) (c : Int) (sz : Nat) : Count :=
  let k := countLoop m c sz sz 0 ⟨sz, 0, ⟨false, false⟩, none, none⟩
  if m (c + k.cmdLength - 1) ≠ space then { k with taskArgc := k.taskArgc + 1 } else k

/-- The loop that fills `argv`, `n` words of it from `tmp`. -/
def readArgs (fuel : Nat) : (n : Nat) → (m : Memory) → (tmp : Int) → Option (List Text × Memory)
  | 0, m, _ => some ([], m)
  | n + 1, m, tmp => do
    let (t, m) ← singleParam fuel m tmp
    let arg ← text m fuel t
    let passed ← text m fuel tmp
    let (args, m) ← readArgs fuel n m (tmp + passed.length + 1)
    return (arg :: args, m)

/-- `strdup(single_param(target))`, where there is a target. -/
def readTarget (fuel : Nat) (m : Memory) : (target : Option Int) → Option (Option Text × Memory)
  | none => some (none, m)
  | some target => do
    let (t, m) ← singleParam fuel m target
    let name ← text m fuel t
    return (some name, m)

def parserSingle (fuel : Nat) (m : Memory) (c : Int) (sz : Nat) (bg : Bool) : Option (Command × Memory) := do
  let m := put m (c + sz) nul
  let i := leading m c sz
  let c := c + i
  let sz := sz - i
  let k := countArgs m c sz
  let cmdline ← text m fuel c
  let (argv, m) ← readArgs fuel k.taskArgc m c
  let (redirectIn, m) ← readTarget fuel m k.input
  let (redirectOut, m) ← readTarget fuel m k.out
  return (⟨cmdline, redirectIn, redirectOut, bg, k.taskArgc, argv⟩, m)

/-- The first loop of `Interpret` over the line, from the task count `task`. -/
def countTasks : (line : Text) → (q : Quotes) → (task : Nat) → Nat
  | [], _, task => task
  | c :: line, q, task =>
    let q := q.next c
    countTasks line q (if c = bar ∧ q.outside then task + 1 else task)

/-- `while(i >= 0 && cmdLine[i] == ' ') i--;` from the last of the `length` characters. -/
def trim (m : Memory) (cmdLine : Int) : (length : Nat) → Int
  | 0 => -1
  | length + 1 => if m (cmdLine + length) = space then trim m cmdLine length else length

/-- The second loop and the call behind it, `left` characters before the end, with `j` of the
    characters before `i` in the current command: the commands that `parser_single` makes. -/
def parseTasks (fuel : Nat) (cmdLine : Int) (bg : Bool) :
    (left : Nat) → (m : Memory) → (i j : Nat) → (q : Quotes) → Option (List Command)
  | 0, m, i, j, _ => do
    let (command, _) ← parserSingle fuel m (cmdLine + i - j) j bg
    return [command]
  | left + 1, m, i, j, q =>
    let q := q.next (m (cmdLine + i))
    if m (cmdLine + i) = bar ∧ q.outside then do
      let (command, m) ← parserSingle fuel m (cmdLine + i - j) j bg
      let commands ← parseTasks fuel cmdLine bg left m (i + 1) 0 q
      return command :: commands
    else parseTasks fuel cmdLine bg left m (i + 1) (j + 1) q

/-- What a call of `Interpret` comes to: it returns at once, or it calls `RunCmd` with the commands
    that it has written to an array for `task` of them. -/
inductive Outcome where
  | nothing
  | runCmd (task : Nat) (commands : List Command)
  deriving DecidableEq

/-- `Interpret`, given more `fuel` than any string or walk is long. -/
def interpret (fuel : Nat) (m : Memory) (cmdLine : Int) : Option Outcome := do
  if m cmdLine = nul then return .nothing
  let line ← text m fuel cmdLine
  let task := countTasks line ⟨false, false⟩ 1
  let i := trim m cmdLine line.length
  if m (cmdLine + i) = ampersand then
    if i = 0 then return .nothing
    let m := put m (cmdLine + i) nul
    let rest ← text m fuel cmdLine
    let commands ← parseTasks fuel cmdLine true rest.length m 0 0 ⟨false, false⟩
    return .runCmd task commands
  else
    let commands ← parseTasks fuel cmdLine false line.length m 0 0 ⟨false, false⟩
    return .runCmd task commands

end Eecs343.TinyShell.Interpreter
