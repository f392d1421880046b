import Eecs343.Base.Window
import Eecs343.TinyShell.Interpreter.Scan

namespace Eecs343.TinyShell.Interpreter

open Bytes

-- The functions of the parser once more, with every read and write of the line held to a window of addresses. That of
-- `single_param` ends with the command.
variable (w : Window)

def textIn (m : Memory) : (fuel : Nat) → (p : Int) → Option Text
  | 0, _ => none
  | fuel + 1, p => (w.peek m p).bind fun x => if x = nul then some [] else (textIn m fuel (p + 1)).map (x :: ·)

def singleParamFromIn (st : Int) : (fuel : Nat) → (m : Memory) → (idx : Nat) → (q : Quotes) → (start : Bool) → (t : Int) →
    Option (Int × Memory)
  | 0, _, _, _, _, _ => none
  | fuel + 1, m, idx, q, start, t => (w.peek m (st + idx)).bind fun c =>
    if start then
      if c = nul then some (t, m)
      else if stops q c then (w.poke m (st + idx) nul).map fun m => (t, m)
      else singleParamFromIn st fuel m (idx + 1) q start t
    else if c = space ∨ c = nul then singleParamFromIn st fuel m (idx + 1) q start t
    else if c = doubleQuote then singleParamFromIn st fuel m (idx + 1) { q with quot2 := true } true (st + idx + 1)
    else if c = singleQuote then singleParamFromIn st fuel m (idx + 1) { q with quot1 := true } true (st + idx + 1)
    else singleParamFromIn st fuel m (idx + 1) q true (st + idx)

def singleParamIn (fuel : Nat) (m : Memory) (st : Int) : Option (Int × Memory) :=
  singleParamFromIn w st fuel m 0 ⟨false, false⟩ false st

def leadingIn (m : Memory) (c : Int) : (sz : Nat) → Option Nat
  | 0 => some 0
  | sz + 1 => (w.peek m c).bind fun x => if x = space then (leadingIn m (c + 1) sz).map (· + 1) else some 0

def skipSpacesIn (m : Memory) (c : Int) (sz : Nat) : (fuel : Nat) → (i : Nat) → Option Nat
  | 0, i => some i
  | fuel + 1, i =>
    if i + 1 < sz then
      (w.peek m (c + (i + 1 : Nat))).bind fun x => if x = space then skipSpacesIn m c sz fuel (i + 1) else some i
    else some i

def lessStepIn (m : Memory) (c : Int) (sz : Nat) (s : Nat × Count) : Option (Nat × Count) :=
  (w.peek m (c + s.1)).bind fun x =>
    if x = less ∧ s.2.quotes.outside then
      (skipSpacesIn w m c sz sz s.1).map fun i =>
        (i, { s.2 with cmdLength := s.2.endWords sz s.1, input := some (c + (i + 1 : Nat)) })
    else some s

def greaterStepIn (m : Memory) (c : Int) (sz : Nat) (s : Nat × Count) : Option (Nat × Count) :=
  (w.peek m (c + s.1)).bind fun x =>
    if x = greater ∧ s.2.quotes.outside then
      (skipSpacesIn w m c sz sz s.1).map fun i =>
        (i, { s.2 with cmdLength := s.2.endWords sz s.1, out := some (c + (i + 1 : Nat)) })
    else some s

def spaceStepIn (m : Memory) (c : Int) (sz : Nat) (s : Nat × Count) : Option (Nat × Count) :=
  (w.peek m (c + s.1)).bind fun x =>
    if x = space ∧ s.2.quotes.outside then
      (skipSpacesIn w m c sz sz s.1).map fun i =>
        (i, { s.2 with taskArgc := if s.2.cmdLength = sz then s.2.taskArgc + 1 else s.2.taskArgc })
    else some s

def countStepIn (m : Memory) (c : Int) (sz : Nat) (i : Nat) (k : Count) : Option (Nat × Count) := do
  let x ← w.peek m (c + i)
  let s ← lessStepIn w m c sz (i, { k with quotes := k.quotes.next x })
  let s ← greaterStepIn w m c sz s
  let s ← spaceStepIn w m c sz s
  return (s.1 + 1, s.2)

def countLoopIn (m : Memory) (c : Int) (sz : Nat) : (fuel : Nat) → (i : Nat) → Count → Option Count
  | 0, _, k => some k
  | fuel + 1, i, k =>
    if i < sz then (countStepIn w m c sz i k).bind fun s => countLoopIn m c sz fuel s.1 s.2
    else some k

/-- Its last read is `c[cmd_length - 1]`. -/
def countArgsIn (m : Memory) (c : Int) (sz : Nat) : Option Count := do
  let k ← countLoopIn w m c sz sz 0 ⟨sz, 0, ⟨false, false⟩, none, none⟩
  let x ← w.peek m (c + k.cmdLength - 1)
  return if x ≠ space then { k with taskArgc := k.taskArgc + 1 } else k

/-- The part of the window up to `last`. -/
def upTo (last : Int) : Window := { w with high := last }

def readArgsIn (last : Int) (fuel : Nat) : (n : Nat) → (m : Memory) → (tmp : Int) → Option (List Text × Memory)
  | 0, m, _ => some ([], m)
  | n + 1, m, tmp => do
    let (t, m) ← singleParamIn (upTo w last) fuel m tmp
    let arg ← textIn w m fuel t
    let passed ← textIn w m fuel tmp
    let (args, m) ← readArgsIn last fuel n m (tmp + passed.length + 1)
    return (arg :: args, m)

def readTargetIn (last : Int) (fuel : Nat) (m : Memory) : (target : Option Int) → Option (Option Text × Memory)
  | none => some (none, m)
  | some target => do
    let (t, m) ← singleParamIn (upTo w last) fuel m target
    let name ← textIn w m fuel t
    return (some name, m)

def parserSingleIn (fuel : Nat) (m : Memory) (c : Int) (sz : Nat) (bg : Bool) : Option (Command × Memory) := do
  let last := c + sz
  let m ← w.poke m last nul
  let i ← leadingIn w m c sz
  let c := c + i
  let k ← countArgsIn w m c (sz - i)
  let cmdline ← textIn w m fuel c
  let (argv, m) ← readArgsIn w last fuel k.taskArgc m c
  let (redirectIn, m) ← readTargetIn w last fuel m k.input
  let (redirectOut, m) ← readTargetIn w last fuel m k.out
  return (⟨cmdline, redirectIn, redirectOut, bg, k.taskArgc, argv⟩, m)

def trimIn (m : Memory) (cmdLine : Int) : (length : Nat) → Option Int
  | 0 => some (-1)
  | length + 1 => (w.peek m (cmdLine + length)).bind fun x => if x = space then trimIn m cmdLine length else some length

def parseTasksIn (fuel : Nat) (cmdLine : Int) (bg : Bool) :
    (left : Nat) → (m : Memory) → (i j : Nat) → (q : Quotes) → Option (List Command)
  | 0, m, i, j, _ => do
    let (command, _) ← parserSingleIn w fuel m (cmdLine + i - j) j bg
    return [command]
  | left + 1, m, i, j, q => do
    let x ← w.peek m (cmdLine + i)
    let q := q.next x
    if x = bar ∧ q.outside then
      let (command, m) ← parserSingleIn w fuel m (cmdLine + i - j) j bg
      let commands ← parseTasksIn fuel cmdLine bg left m (i + 1) 0 q
      return command :: commands
    else parseTasksIn fuel cmdLine bg left m (i + 1) (j + 1) q

def interpretIn (fuel : Nat) (m : Memory) (cmdLine : Int) : Option Outcome := do
  let first ← w.peek m cmdLine
  if first = nul then return .nothing
  let line ← textIn w m fuel cmdLine
  let task := countTasks line ⟨false, false⟩ 1
  let i ← trimIn w m cmdLine line.length
  let last ← w.peek m (cmdLine + i)
  if last = ampersand then
    if i = 0 then return .nothing
    let m ← w.poke m (cmdLine + i) nul
    let rest ← textIn w m fuel cmdLine
    let commands ← parseTasksIn w fuel cmdLine true rest.length m 0 0 ⟨false, false⟩
    return .runCmd task commands
  else
    let commands ← parseTasksIn w fuel cmdLine false line.length m 0 0 ⟨false, false⟩
    return .runCmd task commands

section Walks

variable {w : Window} {m : Memory} {st t p : Int} {fuel fuel' idx : Nat} {q : Quotes} {start : Bool} {l : Text}

/-- A walk goes up one character at a time, so that its window comes to a bound on its fuel. -/
theorem textIn_eq (low : w.low ≤ p) : textIn w m fuel p = text m (min fuel (w.high + 1 - p).toNat) p := by
  induction fuel generalizing p with
  | zero => rw [Nat.zero_min, textIn, text]
  | succ fuel ih =>
    rw [textIn]
    by_cases inside : p ≤ w.high
    · rw [Window.peek_inside ⟨low, inside⟩, Option.bind_some, ih (by omega),
        show min (fuel + 1) (w.high + 1 - p).toNat = min fuel (w.high + 1 - (p + 1)).toNat + 1 by omega, text]
    · rw [Window.peek_outside fun has => inside has.2, show min (fuel + 1) (w.high + 1 - p).toNat = 0 by omega]
      rfl

theorem singleParamFrom_started_eq : singleParamFrom st (fuel + 1) m idx q true t =
    if m (st + idx) = nul then some (t, m)
    else if stops q (m (st + idx)) then some (t, put m (st + idx) nul)
    else singleParamFrom st fuel m (idx + 1) q true t := by
  simp only [singleParamFrom, stops, ↓reduceIte, decide_eq_true_eq]
  grind

theorem singleParamFromIn_eq (low : w.low ≤ st + idx) : singleParamFromIn w st fuel m idx q start t =
    singleParamFrom st (min fuel (w.high + 1 - (st + idx)).toNat) m idx q start t := by
  induction fuel generalizing idx q start t with
  | zero => rw [Nat.zero_min, singleParamFromIn, singleParamFrom]
  | succ fuel ih =>
    rw [singleParamFromIn]
    by_cases inside : st + idx ≤ w.high
    · have fewer : min (fuel + 1) (w.high + 1 - (st + idx)).toNat =
        min fuel (w.high + 1 - (st + (idx + 1 : Nat))).toNat + 1 := by omega
      have next : w.low ≤ st + (idx + 1 : Nat) := by omega
      rw [Window.peek_inside ⟨low, inside⟩, Option.bind_some, fewer]
      cases start with
      | true =>
        rw [singleParamFrom_started_eq, if_pos rfl, Window.poke_inside ⟨low, inside⟩, ih next]
        rfl
      | false =>
        rw [singleParamFrom]
        simp only [Bool.false_eq_true, ↓reduceIte, ih next]
    · rw [Window.peek_outside fun has => inside has.2, show min (fuel + 1) (w.high + 1 - (st + idx)).toNat = 0 by omega]
      rfl

end Walks

end Eecs343.TinyShell.Interpreter
