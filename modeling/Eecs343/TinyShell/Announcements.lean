import Eecs343.TinyShell.Table

namespace Eecs343.TinyShell

open Transition

inductive Event where
  /-- `Exec` of a command, in the background or not. -/
  | launch (bg : Bool) (pid : Int) (cmdline : String)
  | stop (pid : Int)
  | exit (pid : Int)
  | runCmdBg (fg : Bool) (id : Option Int)
  | checkJobs

def Event.operation : Event → Operation
  | launch true pid cmdline => .addJob pid .background cmdline true
  | launch false pid cmdline => .addJob pid .foreground cmdline false
  | stop pid => .updateJobs pid .stopped
  | exit pid => .updateJobs pid .done
  | runCmdBg fg id => .runCmdBg fg id
  | checkJobs => .checkJobs

/-- The jobs that `CheckJobs` prints a line for. -/
def dueJobs (s : Shell) : List Job := s.bgjobs.filter fun job => job.state = .done ∧ job.print = true

def announced (s : Shell) : List Nat := (dueJobs s).map Job.added

def jobsIn (s : Shell) (pid : Int) (state : JobState) : List Nat :=
  (s.bgjobs.filter fun job => job.pid = pid ∧ job.state = state).map Job.added

/-- The job that `UpdateJobs` writes. -/
def foundJob (s : Shell) (pid : Int) : Option Job := (s.findJobByPid pid).bind fun i => s.bgjobs[i]?

/-- The job that `RunCmdBg` writes. -/
def namedJob (s : Shell) (id : Option Int) : Option Job := match s.requestedJob id with
  | .inl _ => none
  | .inr i => s.bgjobs[i]?

/-- The shell with a history of its jobs, each under the number of its `AddJob`. -/
structure Watched where
  shell : Shell
  /-- Those that exited in the background, as long as `CheckJobs` has not been called. -/
  owed : List Nat
  /-- Those that exited in the foreground. -/
  quiet : List Nat
  /-- Those whose `Done` line has been printed, once for each time. -/
  told : List Nat
  /-- Those that were launched in the foreground or brought there. -/
  fore : List Nat

namespace Watched

variable (w : Watched)

def owedNext : Event → List Nat
  | .exit pid => w.owed ++ jobsIn w.shell pid .background
  | .checkJobs => []
  | _ => w.owed

def quietNext : Event → List Nat
  | .exit pid => w.quiet ++ jobsIn w.shell pid .foreground
  | _ => w.quiet

def toldNext : Event → List Nat
  | .checkJobs => w.told ++ announced w.shell
  | _ => w.told

def foreNext : Event → List Nat
  | .launch false _ _ => w.fore ++ [w.shell.added]
  | .runCmdBg true id => w.fore ++ ((namedJob w.shell id).map Job.added).toList
  | _ => w.fore

def next (event : Event) : Watched :=
  ⟨event.operation.next w.shell, w.owedNext event, w.quietNext event, w.toldNext event, w.foreNext event⟩

end Watched

def watch : System Watched Event := ⟨fun _ _ => True, Watched.next⟩

def beginning : Watched := ⟨shellStart, [], [], [], []⟩

/-- A job that exited in the background has its line printed by the next `CheckJobs`, no job has it printed
    twice, and one that exited in the foreground never has. -/
structure Announces (w : Watched) : Prop where
  due : ∀ added ∈ w.owed, added ∈ announced w.shell
  once : w.told.Nodup
  never : ∀ added ∈ w.quiet, added ∉ w.told

/-- A background job that exits has never been in the foreground, and is the one `UpdateJobs` finds; no job whose
    line is owed is continued or stopped. -/
def Spares (w : Watched) : Event → Prop
  | .exit pid => ∀ job ∈ w.shell.bgjobs, job.pid = pid → job.state = .background →
      job.added ∉ w.fore ∧ foundJob w.shell pid = some job
  | .stop pid => ∀ job, foundJob w.shell pid = some job → job.added ∉ w.owed
  | .runCmdBg _ id => ∀ job, namedJob w.shell id = some job → job.added ∉ w.owed
  | _ => True

variable {s t : Shell} {w v : Watched} {job job' : Job} {a : Nat} {bg : Bool} {pid : Int} {cmdline : String}

theorem mem_announced : a ∈ announced s ↔ ∃ job ∈ s.bgjobs, job.state = .done ∧ job.print = true ∧ job.added = a := by
  simp [announced, dueJobs, and_assoc]

theorem mem_jobsIn {state : JobState} :
    a ∈ jobsIn s pid state ↔ ∃ job ∈ s.bgjobs, job.pid = pid ∧ job.state = state ∧ job.added = a := by
  simp [jobsIn, and_assoc]

theorem Stamped.same (held : Stamped s) (first : job ∈ s.bgjobs) (second : job' ∈ s.bgjobs)
    (added : job.added = job'.added) : job = job' := by
  have nodup : (s.bgjobs.map Job.added).Nodup := held.ordered.imp fun less => Nat.ne_of_lt less
  exact List.inj_on_of_nodup_map nodup first second added

structure Replaced (s : Shell) (job job' : Job) (t : Shell) : Prop where
  old : job ∈ s.bgjobs
  added : job'.added = job.added
  mem : ∀ x, x ∈ t.bgjobs ↔ x = job' ∨ x ∈ s.bgjobs ∧ x.added ≠ job.added
  count : t.added = s.added

theorem Stamped.replaced (held : Stamped s) (job' : Job) {before after : List Job}
    (was : s.bgjobs = before ++ job :: after)
    (now : t.bgjobs = before ++ job' :: after) (added : job'.added = job.added) (count : t.added = s.added) :
    Replaced s job job' t := by
  have ordered := held.ordered
  rw [was, List.map_append, List.map_cons] at ordered
  obtain ⟨_, tail, apart⟩ := List.pairwise_append.mp ordered
  obtain ⟨behind, _⟩ := List.pairwise_cons.mp tail
  refine ⟨by simp [was], added, ?_, count⟩
  intro x
  rw [now, was]
  simp only [List.mem_append, List.mem_cons]
  constructor
  · rintro (front | rfl | back)
    · exact .inr ⟨.inl front, Nat.ne_of_lt (apart _ (List.mem_map_of_mem front) _ List.mem_cons_self)⟩
    · exact .inl rfl
    · exact .inr ⟨.inr (.inr back), Nat.ne_of_gt (behind _ (List.mem_map_of_mem back))⟩
  · rintro (rfl | ⟨front | rfl | back, other⟩)
    · exact .inr (.inl rfl)
    · exact .inl front
    · exact absurd rfl other
    · exact .inr (.inr back)

theorem updateJobs_none (state : JobState) (missing : foundJob s pid = none) :
    (s.updateJobs pid state).bgjobs = s.bgjobs ∧ (s.updateJobs pid state).added = s.added := by
  unfold Shell.updateJobs
  cases found : s.findJobByPid pid with
  | none => exact ⟨rfl, rfl⟩
  | some i =>
    rw [foundJob, found, Option.bind_some] at missing
    dsimp only
    rw [missing]
    exact ⟨rfl, rfl⟩

theorem Stamped.updateJobs_some (held : Stamped s) (state : JobState) (found : foundJob s pid = some job) :
    ∃ job', Replaced s job job' (s.updateJobs pid state) ∧ job'.state = state ∧ job'.print = job.print ∧ job.pid = pid := by
  obtain ⟨i, place, here⟩ := Option.bind_eq_some_iff.mp found
  obtain ⟨before, after, was, rfl⟩ := split_at here
  have process : job.pid = pid := by
    obtain ⟨inside, same, _⟩ := List.findIdx?_eq_some_iff_getElem.mp place
    have this := List.getElem_of_getElem? here
    obtain ⟨_, there⟩ := this
    rw [there] at same
    exact of_decide_eq_true same
  unfold Shell.updateJobs
  rw [place]
  dsimp only
  rw [here]
  dsimp only
  unfold Shell.update
  split
  · split
    · exact ⟨_, held.replaced { job with state, jid := s.nextjid } was (by simp [was]) rfl rfl, rfl, rfl, process⟩
    · exact ⟨_, held.replaced { job with state } was (by simp [was]) rfl rfl, rfl, rfl, process⟩
  · exact ⟨_, held.replaced { job with state } was (by simp [was]) rfl rfl, rfl, rfl, process⟩

theorem runCmdBg_none (fg : Bool) {id : Option Int} (missing : namedJob s id = none) :
    (s.runCmdBg fg id).bgjobs = s.bgjobs ∧ (s.runCmdBg fg id).added = s.added := by
  unfold Shell.runCmdBg
  cases requested : s.requestedJob id with
  | inl line => exact ⟨rfl, rfl⟩
  | inr i =>
    obtain ⟨job, here, _⟩ := requestedJob_numbered requested
    simp [namedJob, requested, here] at missing

theorem Stamped.runCmdBg_some (held : Stamped s) (fg : Bool) {id : Option Int} (named : namedJob s id = some job) :
    Replaced s job { job with state := if fg then .foreground else .background, print := !fg && job.print }
      (s.runCmdBg fg id) := by
  unfold Shell.runCmdBg
  cases requested : s.requestedJob id with
  | inl line => simp [namedJob, requested] at named
  | inr i =>
    have here : s.bgjobs[i]? = some job := by simpa [namedJob, requested] using named
    obtain ⟨before, after, was, rfl⟩ := split_at here
    cases fg with
    | false => exact held.replaced _ was (by simp [Shell.setState, was, modify_middle]) rfl rfl
    | true =>
      refine held.replaced _ was ?_ rfl ?_
      · simp [Shell.takeFgPid, Shell.clearPrint, Shell.setState, was, modify_middle]
      · simp [Shell.takeFgPid, Shell.clearPrint, Shell.setState, was, modify_middle]

/-- What the shell and its history have to do with each other. -/
structure Watching (w : Watched) : Prop where
  stamped : Stamped w.shell
  print : ∀ job ∈ w.shell.bgjobs, job.print = true ↔ job.added ∉ w.fore
  front : ∀ job ∈ w.shell.bgjobs, job.state = .foreground → job.added ∈ w.fore
  past : ∀ a, a ∈ w.fore ∨ a ∈ w.told → a < w.shell.added
  gone : ∀ job ∈ w.shell.bgjobs, job.added ∉ w.told
  once : w.told.Nodup
  apart : ∀ a ∈ w.told, a ∉ w.fore
  quiet : ∀ a ∈ w.quiet, a ∈ w.fore

theorem watching_beginning : Watching beginning where
  stamped := numbering_start.toStamped
  print := by simp [beginning, shellStart]
  front := by simp [beginning, shellStart]
  past := by simp [beginning]
  gone := by simp [beginning, shellStart]
  once := List.nodup_nil
  apart := by simp [beginning]
  quiet := by simp [beginning]

theorem Watching.never (watching : Watching w) : ∀ a ∈ w.quiet, a ∉ w.told := by
  intro a exited told
  exact watching.apart a told (watching.quiet a exited)

theorem Watching.announces_iff (watching : Watching w) : Announces w ↔ ∀ a ∈ w.owed, a ∈ announced w.shell := by
  constructor
  · exact fun announces => announces.due
  · exact fun due => ⟨due, watching.once, watching.never⟩

/-- A job may be written, with its `print` cleared where it comes to the foreground. -/
theorem Watching.replace (watching : Watching w) (stamped : Stamped v.shell)
    (replaced : Replaced w.shell job job' v.shell)
    (told : v.told = w.told) (fore : ∀ a, a ∈ v.fore ↔ a ∈ w.fore ∨ a = job.added ∧ job'.state = .foreground)
    (print : job'.print = true ↔ job'.state ≠ .foreground ∧ job.print = true) (quiet : ∀ a ∈ v.quiet, a ∈ v.fore) :
    Watching v where
  stamped := stamped
  print := by
    intro x member
    rw [fore, not_or]
    rcases (replaced.mem x).mp member with rfl | ⟨old, other⟩
    · rw [print, replaced.added, watching.print job replaced.old]
      tauto
    · rw [watching.print x old]
      tauto
  front := by
    intro x member front
    rw [fore]
    rcases (replaced.mem x).mp member with rfl | ⟨old, _⟩
    · exact .inr ⟨replaced.added, front⟩
    · exact .inl (watching.front x old front)
  past := by
    intro a
    rw [fore, told, replaced.count]
    rintro ((before | ⟨rfl, _⟩) | before)
    · exact watching.past a (.inl before)
    · exact watching.stamped.counted job replaced.old
    · exact watching.past a (.inr before)
  gone := by
    intro x member
    rw [told]
    rcases (replaced.mem x).mp member with rfl | ⟨old, _⟩
    · rw [replaced.added]
      exact watching.gone job replaced.old
    · exact watching.gone x old
  once := told ▸ watching.once
  apart := by
    intro a before
    rw [told] at before
    rw [fore, not_or]
    refine ⟨watching.apart a before, ?_⟩
    rintro ⟨rfl, _⟩
    exact watching.gone job replaced.old before
  quiet := quiet

theorem Watching.unchanged (watching : Watching w) (stamped : Stamped v.shell) (jobs : v.shell.bgjobs = w.shell.bgjobs)
    (count : v.shell.added = w.shell.added) (told : v.told = w.told) (fore : v.fore = w.fore)
    (quiet : ∀ a ∈ v.quiet, a ∈ v.fore) : Watching v := by
  refine ⟨stamped, ?_, ?_, ?_, ?_, told ▸ watching.once, ?_, quiet⟩
  · rw [jobs, fore]
    exact watching.print
  · rw [jobs, fore]
    exact watching.front
  · rw [count, told, fore]
    exact watching.past
  · rw [jobs, told]
    exact watching.gone
  · rw [told, fore]
    exact watching.apart

theorem Watching.launch (watching : Watching w) (stamped : Stamped (w.next (.launch bg pid cmdline)).shell) :
    Watching (w.next (.launch bg pid cmdline)) := by
  have fresh : w.shell.added ∉ w.fore ∧ w.shell.added ∉ w.told := by
    constructor
    · intro old
      exact absurd (watching.past _ (.inl old)) (Nat.lt_irrefl _)
    · intro old
      exact absurd (watching.past _ (.inr old)) (Nat.lt_irrefl _)
  have other : ∀ job ∈ w.shell.bgjobs, job.added ≠ w.shell.added := by
    intro job member
    exact Nat.ne_of_lt (watching.stamped.counted job member)
  cases bg with
  | false =>
    refine ⟨stamped, ?_, ?_, ?_, ?_, watching.once, ?_, ?_⟩
    all_goals
      simp only [Watched.next, Event.operation, Operation.next, Shell.addJob, Watched.foreNext, Watched.toldNext,
        Watched.quietNext, List.mem_append, List.mem_singleton]
    · rintro job (old | rfl)
      · rw [watching.print job old, not_or]
        exact ⟨fun out => ⟨out, other job old⟩, And.left⟩
      · simp
    · rintro job (old | rfl) front
      · exact .inl (watching.front job old front)
      · exact .inr rfl
    · rintro a ((old | rfl) | old)
      · exact Nat.lt_succ_of_lt (watching.past a (.inl old))
      · exact Nat.lt_succ_self _
      · exact Nat.lt_succ_of_lt (watching.past a (.inr old))
    · rintro job (old | rfl)
      · exact watching.gone job old
      · exact fresh.2
    · intro a told
      rw [not_or]
      refine ⟨watching.apart a told, ?_⟩
      rintro rfl
      exact fresh.2 told
    · exact fun a exited => .inl (watching.quiet a exited)
  | true =>
    refine ⟨stamped, ?_, ?_, ?_, ?_, watching.once, watching.apart, watching.quiet⟩
    all_goals
      simp only [Watched.next, Event.operation, Operation.next, Shell.addJob, Watched.foreNext, Watched.toldNext,
        List.forall_mem_append, List.forall_mem_singleton]
    · exact ⟨watching.print, by simpa using fresh.1⟩
    · exact ⟨watching.front, by simp⟩
    · exact fun a old => Nat.lt_succ_of_lt (watching.past a old)
    · exact ⟨watching.gone, fresh.2⟩

theorem Watching.checkJobs (watching : Watching w) (stamped : Stamped (w.next .checkJobs).shell) :
    Watching (w.next .checkJobs) := by
  have left : ∀ {job}, job ∈ w.shell.checkJobs.bgjobs ↔ job ∈ w.shell.bgjobs ∧ job.state ≠ .done := by
    intro job
    rw [checkJobs_bgjobs]
    simp
  have count := checkJobs_added w.shell
  refine ⟨stamped, ?_, ?_, ?_, ?_, ?_, ?_, watching.quiet⟩
  all_goals simp only [Watched.next, Event.operation, Operation.next, Watched.foreNext, Watched.toldNext]
  · exact fun job member => watching.print job (left.mp member).1
  · exact fun job member => watching.front job (left.mp member).1
  · intro a
    rw [count, List.mem_append]
    rintro (old | old | now)
    · exact watching.past a (.inl old)
    · exact watching.past a (.inr old)
    · obtain ⟨job, member, _, _, rfl⟩ := mem_announced.mp now
      exact watching.stamped.counted job member
  · intro job member
    rw [List.mem_append, not_or]
    refine ⟨watching.gone job (left.mp member).1, ?_⟩
    intro now
    obtain ⟨other, inside, done, _, same⟩ := mem_announced.mp now
    have equal := watching.stamped.same inside (left.mp member).1 same
    exact (left.mp member).2 (equal ▸ done)
  · have nodup : (w.shell.bgjobs.map Job.added).Nodup := watching.stamped.ordered.imp fun less => Nat.ne_of_lt less
    refine watching.once.append (nodup.sublist (List.filter_sublist.map Job.added)) ?_
    intro a old now
    obtain ⟨job, member, _, _, rfl⟩ := mem_announced.mp now
    exact watching.gone job member old
  · intro a told
    rcases List.mem_append.mp told with old | now
    · exact watching.apart a old
    · obtain ⟨job, member, _, prints, rfl⟩ := mem_announced.mp now
      exact (watching.print job member).mp prints

theorem Watching.updateJobs (watching : Watching w) {state : JobState} (ended : state = .stopped ∨ state = .done)
    (shell : v.shell = w.shell.updateJobs pid state) (told : v.told = w.told) (fore : v.fore = w.fore)
    (quiet : ∀ a ∈ v.quiet, a ∈ v.fore) : Watching v := by
  have stamped : Stamped v.shell := shell ▸ watching.stamped.updateJobs pid state
  have away : state ≠ .foreground := by rcases ended with rfl | rfl <;> decide
  cases found : foundJob w.shell pid with
  | none =>
    obtain ⟨jobs, count⟩ := updateJobs_none state found
    exact watching.unchanged stamped (shell ▸ jobs) (shell ▸ count) told fore quiet
  | some job =>
    obtain ⟨job', replaced, now, print, _⟩ := watching.stamped.updateJobs_some state found
    refine watching.replace stamped (shell ▸ replaced) told ?_ ?_ quiet
    · intro a
      rw [fore, now]
      simp [away]
    · rw [print, now]
      simp [away]

theorem Watching.runCmdBg (watching : Watching w) (fg : Bool) (id : Option Int) :
    Watching (w.next (.runCmdBg fg id)) := by
  have stamped : Stamped (w.next (.runCmdBg fg id)).shell := watching.stamped.runCmdBg fg id
  cases named : namedJob w.shell id with
  | none =>
    obtain ⟨jobs, count⟩ := runCmdBg_none fg named
    have fore : (w.next (.runCmdBg fg id)).fore = w.fore := by cases fg <;> simp [Watched.next, Watched.foreNext, named]
    refine watching.unchanged stamped jobs count rfl fore ?_
    rw [fore]
    exact watching.quiet
  | some job =>
    have replaced := watching.stamped.runCmdBg_some fg named
    have fore : ∀ a, a ∈ (w.next (.runCmdBg fg id)).fore ↔ a ∈ w.fore ∨ a = job.added ∧ fg = true := by
      intro a
      cases fg <;> simp [Watched.next, Watched.foreNext, named]
    refine watching.replace stamped replaced rfl ?_ ?_ ?_
    · intro a
      rw [fore]
      cases fg <;> simp
    · cases fg <;> simp
    · intro a exited
      exact (fore a).mpr (.inl (watching.quiet a exited))

theorem Watching.step (watching : Watching w) (event : Event) : Watching (w.next event) := by
  cases event with
  | launch bg pid cmdline =>
    apply watching.launch
    cases bg
    · exact watching.stamped.addJob pid .foreground cmdline false
    · exact watching.stamped.addJob pid .background cmdline true
  | stop pid => exact watching.updateJobs (.inl rfl) rfl rfl rfl watching.quiet
  | exit pid =>
    refine watching.updateJobs (.inr rfl) rfl rfl rfl ?_
    intro a exited
    rcases List.mem_append.mp exited with before | now
    · exact watching.quiet a before
    · obtain ⟨job, member, _, front, rfl⟩ := mem_jobsIn.mp now
      exact watching.front job member front
  | runCmdBg fg id => exact watching.runCmdBg fg id
  | checkJobs => exact watching.checkJobs watching.stamped.checkJobs

theorem Replaced.mem_announced (replaced : Replaced s job job' t) :
    a ∈ announced t ↔ (a = job.added ∧ job'.state = .done ∧ job'.print = true) ∨ (a ∈ announced s ∧ a ≠ job.added) := by
  rw [TinyShell.mem_announced, TinyShell.mem_announced]
  constructor
  · rintro ⟨x, member, done, print, rfl⟩
    rcases (replaced.mem x).mp member with rfl | ⟨old, other⟩
    · exact .inl ⟨replaced.added, done, print⟩
    · exact .inr ⟨⟨x, old, done, print, rfl⟩, other⟩
  · rintro (⟨rfl, done, print⟩ | ⟨⟨x, old, done, print, rfl⟩, other⟩)
    · exact ⟨job', (replaced.mem job').mpr (.inl rfl), done, print, replaced.added⟩
    · exact ⟨x, (replaced.mem x).mpr (.inr ⟨old, other⟩), done, print, rfl⟩

/-- Every job whose line is owed has it printed by `CheckJobs`. -/
def Due (w : Watched) : Prop := ∀ a ∈ w.owed, a ∈ announced w.shell

theorem Due.written (due : Due w) (replaced : Replaced w.shell job job' v.shell) (owed : v.owed = w.owed)
    (running : job'.state ≠ .done) : Due v ↔ job.added ∉ w.owed := by
  have left : ∀ {a}, a ∈ announced v.shell ↔ a ∈ announced w.shell ∧ a ≠ job.added := by simp [replaced.mem_announced, running]
  constructor
  · intro still member
    exact (left.mp (still job.added (owed ▸ member))).2 rfl
  · intro free a member
    rw [owed] at member
    exact left.mpr ⟨due a member, fun same => free (same ▸ member)⟩

theorem announced_congr (jobs : t.bgjobs = s.bgjobs) :
    announced t = announced s := by simp only [announced, dueJobs, jobs]

theorem Due.unchanged (due : Due w) (jobs : v.shell.bgjobs = w.shell.bgjobs) (owed : v.owed = w.owed) : Due v := by
  rw [Due, owed, announced_congr jobs]
  exact due

theorem Watching.background (watching : Watching w) (member : job ∈ w.shell.bgjobs) (running : job.state = .background) :
    job.added ∉ announced w.shell := by
  intro line
  obtain ⟨other, inside, done, _, same⟩ := mem_announced.mp line
  rw [watching.stamped.same inside member same, running] at done
  cases done

theorem Watching.exit_due (watching : Watching w) (due : Due w) (pid : Int) :
    Due (w.next (.exit pid)) ↔ Spares w (.exit pid) := by
  have owed : Due (w.next (.exit pid)) ↔ (∀ a ∈ w.owed, a ∈ announced (w.shell.updateJobs pid .done)) ∧
      ∀ job ∈ w.shell.bgjobs, job.pid = pid → job.state = .background →
        job.added ∈ announced (w.shell.updateJobs pid .done) := by
    simp only [Due, Watched.next, Watched.owedNext, Event.operation, Operation.next, List.forall_mem_append, mem_jobsIn]
    refine and_congr_right fun _ => ⟨?_, ?_⟩
    · intro all job member process running
      exact all job.added ⟨job, member, process, running, rfl⟩
    · rintro all _ ⟨job, member, process, running, rfl⟩
      exact all job member process running
  rw [owed]
  cases found : foundJob w.shell pid with
  | none =>
    rw [announced_congr (updateJobs_none .done found).1,
      and_iff_right (show ∀ a ∈ w.owed, a ∈ announced w.shell from due), Spares]
    refine forall₂_congr fun job member => forall₂_congr fun _ running => ?_
    simp [watching.background member running, found]
  | some written =>
    obtain ⟨job', replaced, done, print, _⟩ := watching.stamped.updateJobs_some .done found
    have lines : ∀ {a}, a ∈ announced (w.shell.updateJobs pid .done) ↔
        (a = written.added ∧ written.print = true) ∨ (a ∈ announced w.shell ∧ a ≠ written.added) := by
      simp [replaced.mem_announced, done, print]
    have before : ∀ a ∈ w.owed, a ∈ announced (w.shell.updateJobs pid .done) := by
      intro a member
      rw [lines]
      by_cases same : a = written.added
      · obtain ⟨other, inside, _, prints, number⟩ := mem_announced.mp (due a member)
        have equal := watching.stamped.same inside replaced.old (number.trans same)
        exact .inl ⟨same, equal ▸ prints⟩
      · exact .inr ⟨due a member, same⟩
    rw [and_iff_right before, Spares]
    refine forall₂_congr fun job member => forall₂_congr fun _ running => ?_
    have silent := watching.background member running
    rw [lines, ← watching.print job member, found, Option.some_inj]
    constructor
    · rintro (⟨same, prints⟩ | ⟨line, _⟩)
      · have equal := watching.stamped.same member replaced.old same
        exact ⟨equal ▸ prints, equal.symm⟩
      · exact absurd line silent
    · rintro ⟨prints, rfl⟩
      exact .inl ⟨rfl, prints⟩

/-- One event leaves every line that is owed due exactly if it spares the jobs. -/
theorem Watching.due_iff (watching : Watching w) (due : Due w) (event : Event) : Due (w.next event) ↔ Spares w event := by
  cases event with
  | launch bg pid cmdline =>
    refine iff_of_true ?_ trivial
    intro a member
    obtain ⟨job, inside, line⟩ := mem_announced.mp (due a member)
    refine mem_announced.mpr ⟨job, ?_, line⟩
    cases bg <;> exact List.mem_append_left _ inside
  | stop pid =>
    cases found : foundJob w.shell pid with
    | none => exact iff_of_true (due.unchanged (updateJobs_none .stopped found).1 rfl) (by simp [Spares, found])
    | some job =>
      obtain ⟨job', replaced, stopped, _⟩ := watching.stamped.updateJobs_some .stopped found
      rw [due.written (v := w.next (.stop pid)) replaced rfl (by simp [stopped])]
      simp [Spares, found]
  | exit pid => exact watching.exit_due due pid
  | runCmdBg fg id =>
    cases named : namedJob w.shell id with
    | none => exact iff_of_true (due.unchanged (runCmdBg_none fg named).1 rfl) (by simp [Spares, named])
    | some job =>
      have replaced := watching.stamped.runCmdBg_some fg named
      rw [due.written (v := w.next (.runCmdBg fg id)) replaced rfl (by cases fg <;> simp)]
      simp [Spares, named]
  | checkJobs => exact iff_of_true (by simp [Due, Watched.next, Watched.owedNext]) trivial

theorem checkLoop_stdout (kept jobs : List Job) (s : Shell) : (Shell.checkLoop kept jobs s).stdout =
    s.stdout ++ (jobs.filter fun job => job.state = .done ∧ job.print = true).map doneLine := by
  induction jobs generalizing kept s with
  | nil => simp [Shell.checkLoop]
  | cons current rest ih =>
    unfold Shell.checkLoop
    by_cases finished : current.state = .done
    · rw [if_pos finished, ih]
      cases prints : current.print <;> simp [finished, prints, Shell.printf]
    · rw [if_neg finished, ih]
      simp [finished]

theorem checkJobs_stdout (s : Shell) : s.checkJobs.stdout = s.stdout ++ (dueJobs s).map doneLine := by
  have checked := checkLoop_stdout [] s.bgjobs s
  simp only [Shell.checkJobs]
  split <;> exact checked

/-- What a call of `CheckJobs` prints. -/
def Prints (w : Watched) : Event → Watched → Prop
  | .checkJobs, v => v.shell.stdout = w.shell.stdout ++ (dueJobs w.shell).map doneLine ∧ v.told = w.told ++ announced w.shell
  | _, v => v.told = w.told

/-- In a run the jobs are announced as they should be exactly if every event spares them. -/
theorem announced_iff_spared {steps : List (Watched × Event)} (run : Run watch.Step beginning steps w) :
    ((∀ v ∈ visited steps w, Announces v) ↔ ∀ taken ∈ steps, Spares taken.1 taken.2) ∧
      ∀ taken ∈ transitions steps w, Prints taken.1 taken.2.1 taken.2.2 := by
  constructor
  · refine run.invariant_iff Spares Watching Announces watching_beginning ?_ ?_ ?_
    · exact watching_beginning.announces_iff.mpr (by simp [beginning])
    · rintro w event _ watching ⟨_, rfl⟩
      exact watching.step event
    · rintro w event _ watching announces ⟨_, rfl⟩
      exact (watching.step event).announces_iff.trans (watching.due_iff announces.due event)
  · refine run.always (fun _ => True) Prints trivial ?_
    rintro w event _ _ ⟨_, rfl⟩
    refine ⟨trivial, ?_⟩
    cases event with
    | checkJobs => exact ⟨checkJobs_stdout w.shell, rfl⟩
    | _ => rfl

def sleepAndEnd : List Event := [.checkJobs, .exit 100, .launch true 100 "sleep 4"]

theorem announced_sleep_and_end :
    (∀ v ∈ visited (watch.trace beginning sleepAndEnd) (watch.final beginning sleepAndEnd), Announces v) ∧
      (watch.final beginning sleepAndEnd).shell.stdout = [doneLine ⟨100, 1, .done, "sleep 4", true, 0⟩] := by
  have run := watch.run_of_admits (show watch.Admits beginning sleepAndEnd from ⟨⟨⟨trivial, trivial⟩, trivial⟩, trivial⟩)
  refine ⟨(announced_iff_spared run).1.mpr ?_, by decide⟩
  simp only [sleepAndEnd, System.trace, List.forall_mem_cons, List.not_mem_nil, false_implies, implies_true, and_true]
  refine ⟨trivial, ?_, trivial⟩
  unfold Spares
  decide

def stopAndContinue : List Event :=
  [.checkJobs, .exit 100, .runCmdBg false (some 1), .stop 100, .launch false 100 "sleep 4"]

theorem silent_stop_and_continue :
    ¬ ∀ steps w, Run watch.Step beginning steps w → ∀ v ∈ visited steps w, Announces v := by
  intro all
  have run := watch.run_of_admits
    (show watch.Admits beginning stopAndContinue from ⟨⟨⟨⟨⟨trivial, trivial⟩, trivial⟩, trivial⟩, trivial⟩, trivial⟩)
  have ended : watch.final beginning stopAndContinue.tail ∈
      visited (watch.trace beginning stopAndContinue) (watch.final beginning stopAndContinue) := by
    simp [stopAndContinue, System.trace, visited]
  have announces := all _ _ run _ ended
  exact absurd (announces.due 0 (by decide)) (by decide)

end Eecs343.TinyShell
