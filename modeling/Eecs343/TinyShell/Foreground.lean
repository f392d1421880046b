import Eecs343.TinyShell.Places

namespace Eecs343.TinyShell

open Transition

/-- `fg_pid` is the process of the one job in the foreground, or negative where there is none. -/
def Agree (s : Shell) : Prop :=
  (0 ≤ s.fgPid → ∃ i, s.entries[i]? = some (s.fgPid, .foreground) ∧
    ∀ (j : Nat) (pid : Int), s.entries[j]? = some (pid, .foreground) → j = i) ∧
  ∀ pid, (pid, .foreground) ∈ s.entries → pid = s.fgPid

/-- The main program is not in the middle of handing the foreground over. -/
def Settled (s : State) : Prop := match s.main with
  | .adding _ _ | .clearing _ | .taking _ => False
  | _ => True

/-- The new process is none of the table, nothing has taken the foreground from it before its job is in the
    table or from the job that `fg` is for, and no stop comes from the keyboard while a job has it. -/
def HandsOver (s : State) : Action → Prop
  | .fork pid => ∀ entry ∈ s.shell.entries, entry.1 ≠ pid
  | .forkFails => False
  | .addJob => ∀ entry, s.added = some entry → entry.2 = .foreground → s.shell.fgPid = entry.1
  | .takeFgPid => ∀ job state, s.main = .taking job → s.jobState job = some state → state = .foreground
  | .stopFgProc => 0 < s.shell.fgPid → ∀ entry ∈ s.shell.entries, entry.2 ≠ .foreground
  | _ => True

structure Sound (s : State) : Prop where
  positive : ∀ pid ∈ pids s.shell, 0 < pid
  distinct : (pids s.shell).Nodup
  place : Place s.shell s.main

variable {s t : State} {action : Action}

theorem sound_start : Sound start where
  positive := by simp [pids, start, shellStart, Shell.entries]
  distinct := List.nodup_nil
  place := ⟨by simp [NoFg, start, shellStart, Shell.entries], by decide⟩

theorem Sound.place_same (sound : Sound s) (same : pids t.shell = pids s.shell) (place : Place t.shell t.main) :
    Sound t where
  positive := by
    rw [same]
    exact sound.positive
  distinct := by
    rw [same]
    exact sound.distinct
  place := place

theorem Sound.entry_pos (sound : Sound s) {entry : Int × JobState} (member : entry ∈ s.shell.entries) : 0 < entry.1 :=
  sound.positive _ (List.mem_map.mpr ⟨_, member, rfl⟩)

theorem Sound.place_at (sound : Sound s) {main : Main} (here : s.main = main) : Place s.shell main := here ▸ sound.place

theorem Sound.fork {pid : Int} (sound : Sound s) (handsOver : HandsOver s (.fork pid)) (enabled : enabled s (.fork pid)) :
    Sound (next s (.fork pid)) := by
  obtain ⟨_, ⟨bg, cmdline, main⟩, positive, _⟩ := enabled
  have idle : Idle s.shell := sound.place_at main
  have fresh : Fresh s.shell pid := by
    refine ⟨positive, ?_⟩
    intro member
    obtain ⟨entry, inside, same⟩ := List.mem_map.mp member
    exact handsOver entry inside same
  simp only [next, main]
  exact sound.place_same rfl ⟨idle, fresh⟩

theorem Sound.addJob (sound : Sound s) (handsOver : HandsOver s .addJob) (enabled : enabled s .addJob) :
    Sound (next s .addJob) := by
  obtain ⟨_, ⟨pid, cmdline, main⟩ | ⟨pid, cmdline, main⟩⟩ := enabled
  · obtain ⟨idle, fresh⟩ := sound.place_at main
    simp only [next, main]
    exact ⟨positive_addJob fresh sound.positive _ _ _, distinct_addJob fresh sound.distinct _ _ _,
      idle.addBackground pid cmdline true⟩
  · obtain ⟨none, fresh⟩ := sound.place_at main
    have given : s.shell.fgPid = pid := handsOver (pid, .foreground) (by simp [State.added, main]) rfl
    simp only [next, main]
    exact ⟨positive_addJob fresh sound.positive _ _ _, distinct_addJob fresh sound.distinct _ _ _,
      .inr ⟨_, none.addForeground given cmdline false, given⟩⟩

theorem Sound.takeFgPid (sound : Sound s) (handsOver : HandsOver s .takeFgPid) (enabled : enabled s .takeFgPid) :
    Sound (next s .takeFgPid) := by
  obtain ⟨_, job, main⟩ := enabled
  obtain ⟨only, bound⟩ := sound.place_at main
  simp only [next, main]
  refine sound.place_same (congrArg (List.map Prod.fst) (entries_takeFgPid s.shell job)) ?_
  cases here : s.shell.entries[job]? with
  | none =>
    left
    exact only.takeNone bound here
  | some entry =>
    have state : entry.2 = .foreground := handsOver job entry.2 main (by rw [jobState_entries, here]; rfl)
    have there : s.shell.entries[job]? = some (entry.1, .foreground) := by rw [here, ← state]
    exact .inr ⟨job, only.takeFgPid there, rfl⟩

theorem Sound.stopFgProc (sound : Sound s) (handsOver : HandsOver s .stopFgProc) : Sound (next s .stopFgProc) := by
  simp only [next]
  split
  · refine sound.place_same rfl (sound.place.stop sound.positive ?_)
    intro positive pid member
    exact handsOver positive _ member rfl
  · exact sound.place_same rfl sound.place

theorem Sound.step (sound : Sound s) (handsOver : HandsOver s action) (step : Step s action t) : Sound t := by
  obtain ⟨enabled, rfl⟩ := step
  cases action with
  | checkJobs =>
    have idle : Idle s.shell := sound.place_at enabled.2
    have sub := pids_checkJobs s.shell
    exact ⟨fun pid member => sound.positive pid (sub.subset member), sound.distinct.sublist sub, idle.checkJobs⟩
  | printJobs =>
    have idle : Idle s.shell := sound.place_at enabled.2
    exact sound.place_same rfl idle
  | exec bg cmdline =>
    have idle : Idle s.shell := sound.place_at enabled.2
    exact sound.place_same rfl idle
  | fork pid => exact sound.fork handsOver enabled
  -- a failed `fork` would be entered as the process -1
  | forkFails => exact handsOver.elim
  | unblock =>
    obtain ⟨_, pid, bg, cmdline, main⟩ := enabled
    have place := sound.place_at main
    simp only [system, next, main]
    exact sound.place_same rfl place
  | setFgPid =>
    obtain ⟨_, pid, cmdline, main⟩ := enabled
    have place := sound.place_at main
    simp only [system, next, main]
    exact sound.place_same rfl ⟨place.1.1, place.2⟩
  | addJob => exact sound.addJob handsOver enabled
  | findFg =>
    obtain ⟨_, pid, main⟩ := enabled
    have place := sound.place_at main
    simp only [system, next, main]
    refine sound.place_same rfl (place.imp_right ?_)
    rintro ⟨job, holds, same⟩
    exact ⟨job, holds, find_of_distinct sound.distinct (same ▸ holds.1)⟩
  | endWait =>
    obtain ⟨_, job, main, ended⟩ := enabled
    have place := sound.place_at main
    refine sound.place_same rfl ?_
    rcases place with idle | ⟨i, holds, rfl⟩
    · exact idle
    -- the foreground job still runs, so that the wait goes on
    · rw [Option.bind_some, jobState_entries, holds.1] at ended
      exact (ended rfl).elim
  | runCmdBg fg id =>
    have idle : Idle s.shell := sound.place_at enabled.2
    simp only [system, next]
    split <;> exact sound.place_same rfl idle
  | testState =>
    obtain ⟨_, fg, job, main⟩ := enabled
    have idle : Idle s.shell := sound.place_at main
    simp only [system, next, main]
    split <;> exact sound.place_same rfl idle
  | sendCont =>
    obtain ⟨_, fg, job, main⟩ := enabled
    have idle : Idle s.shell := sound.place_at main
    simp only [system, next, main]
    exact sound.place_same rfl idle
  | writeState =>
    obtain ⟨_, fg, job, main⟩ := enabled
    have idle : Idle s.shell := sound.place_at main
    cases fg with
    | false =>
      simp only [system, next, main]
      exact sound.place_same (pids_setState job _) (idle.setBackground job)
    | true =>
      simp only [system, next, main]
      exact sound.place_same (pids_setState job _) ⟨idle.1.setForeground job, idle.2⟩
  | clearPrint =>
    obtain ⟨_, job, main⟩ := enabled
    obtain ⟨only, bound⟩ := sound.place_at main
    simp only [system, next, main]
    have entries := entries_clearPrint s.shell job
    refine sound.place_same (congrArg (List.map Prod.fst) entries) ⟨?_, bound⟩
    intro j pid here
    exact only j pid (entries ▸ here)
  | takeFgPid => exact sound.takeFgPid handsOver enabled
  | childExits pid | childStops pid | childContinues pid | intFgProc | enterHandler =>
    exact sound.place_same rfl sound.place
  | stopFgProc => exact sound.stopFgProc handsOver
  | reap pid stopped => exact sound.place_same (pids_handle _ _) (sound.place.handle sound.distinct pid stopped)
  | leaveHandler wpid stopped => exact sound.place_same (pids_handle _ _) (sound.place.handle sound.distinct wpid stopped)

/-- Where the main program is not handing the foreground over, `fg_pid` is right as soon as it has been
    written. -/
theorem Sound.agree_iff (sound : Sound s) (settled : Settled s) : Agree s.shell ↔ s.shell.fgPid ≠ 0 := by
  have idle : Idle s.shell → (Agree s.shell ↔ s.shell.fgPid ≠ 0) := by
    rintro ⟨none, bound⟩
    constructor
    · intro agree zero
      obtain ⟨i, here, _⟩ := agree.1 (by omega)
      exact none _ (List.mem_of_getElem? here)
    · intro nonzero
      exact ⟨fun positive => by omega, fun pid member => (none pid member).elim⟩
  have holds : ∀ job, Holds s.shell job → (Agree s.shell ↔ s.shell.fgPid ≠ 0) := by
    intro job holds
    have positive := holds.positive sound.positive
    refine iff_of_true ⟨fun _ => ⟨job, holds⟩, ?_⟩ (by omega)
    intro pid member
    obtain ⟨i, here⟩ := List.mem_iff_getElem?.mp member
    rw [holds.2 i pid here, holds.1] at here
    cases here
    rfl
  have place := sound.place
  unfold Settled at settled
  cases main : s.main with
  | adding pid cmdline | clearing job | taking job =>
    rw [main] at settled
    exact settled.elim
  | forked pid bg cmdline | launched pid bg cmdline =>
    rw [main] at place
    exact idle place.1
  | waitFg pid =>
    rw [main] at place
    rcases place with none | ⟨job, held, _⟩
    · exact idle none
    · exact holds job held
  | waiting job =>
    rw [main] at place
    rcases place with none | ⟨i, held, _⟩
    · exact idle none
    · exact holds i held
  | _ =>
    rw [main] at place
    exact idle place

theorem addJob_disagrees (lost : ¬HandsOver s .addJob) (enabled : enabled s .addJob) :
    Settled (next s .addJob) ∧ ¬Agree (next s .addJob).shell := by
  obtain ⟨_, ⟨pid, cmdline, main⟩ | ⟨pid, cmdline, main⟩⟩ := enabled
  · simp [HandsOver, State.added, main] at lost
  · have other : s.shell.fgPid ≠ pid := by simpa [HandsOver, State.added, main] using lost
    simp only [next, main]
    refine ⟨trivial, ?_⟩
    intro agree
    have member : (pid, .foreground) ∈ (s.shell.addJob pid .foreground cmdline false).entries := by
      simp [entries_addJob]
    exact other (agree.2 pid member).symm

theorem Sound.takeFgPid_disagrees (sound : Sound s) (lost : ¬HandsOver s .takeFgPid) (enabled : enabled s .takeFgPid) :
    Settled (next s .takeFgPid) ∧ ¬Agree (next s .takeFgPid).shell := by
  obtain ⟨_, job, main⟩ := enabled
  obtain ⟨only, _⟩ := sound.place_at main
  simp only [HandsOver, not_forall] at lost
  obtain ⟨other, state, same, written, notFg⟩ := lost
  obtain rfl : other = job := by simpa [main] using same.symm
  rw [jobState_entries] at written
  obtain ⟨entry, here, rfl⟩ := Option.map_eq_some_iff.mp written
  have positive := sound.entry_pos (List.mem_of_getElem? here)
  have none : NoFg s.shell := by
    apply only.noFg
    intro pid foreground
    rw [here] at foreground
    cases foreground
    exact notFg rfl
  have given := fgPid_takeFgPid here
  simp only [next, main]
  refine ⟨trivial, show ¬Agree (s.shell.takeFgPid other) from ?_⟩
  intro agree
  obtain ⟨i, taken, _⟩ := agree.1 (by omega)
  rw [entries_takeFgPid] at taken
  exact none _ (List.mem_of_getElem? taken)

theorem Sound.stopFgProc_disagrees (sound : Sound s) (lost : ¬HandsOver s .stopFgProc) :
    Settled (next s .stopFgProc) ∧ ¬Agree (next s .stopFgProc).shell := by
  simp only [HandsOver, not_forall, not_not] at lost
  obtain ⟨positive, entry, member, foreground⟩ := lost
  have process := sound.entry_pos member
  have held : ¬NoFg s.shell := by
    intro none
    apply none entry.1
    rw [← foreground]
    exact member
  simp only [next, if_pos (Int.le_of_lt positive)]
  constructor
  · have place := sound.place
    unfold Settled
    simp only [State.withShell]
    cases main : s.main with
    | adding pid cmdline =>
      rw [main] at place
      exact held place.1
    | clearing job | taking job =>
      rw [main] at place
      exact absurd place.2 (by omega)
    | _ => trivial
  · intro agree
    have same : entry.1 = -1 := agree.2 entry.1 (by rw [← foreground]; exact member)
    omega

theorem Sound.disagrees (sound : Sound s) (lost : ¬HandsOver s action) (step : Step s action t)
    (launches : ∀ pid, action ≠ .fork pid) (forks : action ≠ .forkFails) : Settled t ∧ ¬Agree t.shell := by
  obtain ⟨enabled, rfl⟩ := step
  cases action with
  | fork pid => exact (launches pid rfl).elim
  | forkFails => exact (forks rfl).elim
  | addJob => exact addJob_disagrees lost enabled
  | takeFgPid => exact sound.takeFgPid_disagrees lost enabled
  | stopFgProc => exact sound.stopFgProc_disagrees lost
  | _ => exact (lost trivial).elim

/-- No run of the shell has `fg_pid` right throughout, for it starts at 0. Where no step loses the foreground,
    it is right in every settled state from the first write of `fg_pid` on, and a step that loses the
    foreground leaves it wrong. -/
theorem foreground_agrees {steps : List (State × Action)} (run : Run Step start steps s) :
    (¬∀ state ∈ visited steps s, Agree state.shell) ∧
      ((∀ taken ∈ steps, HandsOver taken.1 taken.2) →
        (∀ state ∈ visited steps s, Settled state → (Agree state.shell ↔ state.shell.fgPid ≠ 0)) ∧
        ∀ action t, (∀ pid, action ≠ .fork pid) → action ≠ .forkFails → Step s action t → ¬HandsOver s action →
          Settled t ∧ ¬Agree t.shell) := by
  -- one invariant tells for every place of the main program who is in the foreground
  have sound : (∀ taken ∈ steps, HandsOver taken.1 taken.2) → ∀ state ∈ visited steps s, Sound state := by
    intro handsOver
    exact run.invariant_visited HandsOver Sound sound_start (fun _ _ _ sound admitted step => sound.step admitted step)
      handsOver
  refine ⟨?_, fun handsOver => ⟨?_, ?_⟩⟩
  · intro agree
    obtain ⟨_, here, _⟩ := (agree start run.start_mem_visited).1 (by decide)
    cases here
  · intro state member settled
    exact (sound handsOver state member).agree_iff settled
  · intro action t launches forks step lost
    exact (sound handsOver s (last_mem_visited _ _)).disagrees lost step launches forks

/-- The shell has not run a command, and an interrupt comes from the keyboard. -/
theorem fgPid_starts_wrong : ¬∀ steps s, Run Step start steps s → ∀ state ∈ visited steps s, Agree state.shell := by
  intro claimed
  obtain ⟨_, here, _⟩ := (claimed _ _ .refl _ (last_mem_visited _ _)).1 (by decide)
  cases here

def launchFg : List Action := [.findFg, .addJob, .setFgPid, .unblock, .fork 100, .exec false "vi", .checkJobs]

theorem launched_foreground_agrees :
    (system.final start launchFg).shell.fgPid = 100 ∧ Agree (system.final start launchFg).shell := by
  have forked := fork_admitted false "vi" (show (0 : Int) < 100 by decide)
  have admits : system.Admits start launchFg :=
    ⟨⟨⟨⟨forked, rfl, _, _, _, rfl⟩, rfl, _, _, rfl⟩, rfl, .inr ⟨_, _, rfl⟩⟩, rfl, _, rfl⟩
  have given : HandsOver (system.final start (launchFg.drop 2)) .addJob := by
    intro entry added _
    cases added
    decide
  have fresh : HandsOver (system.final start (launchFg.drop 5)) (.fork 100) := by
    intro entry member
    cases member
  have handsOver : ∀ taken ∈ system.trace start launchFg, HandsOver taken.1 taken.2 := by
    simp only [launchFg, Transition.System.trace, List.forall_mem_cons]
    exact ⟨trivial, given, trivial, trivial, fresh, trivial, trivial, by simp⟩
  have agrees := (foreground_agrees (system.run_of_admits admits)).2 handsOver
  refine ⟨by decide, (agrees.1 _ (last_mem_visited _ _) ?_).mpr (by decide)⟩
  show Settled (system.final start launchFg)
  trivial

end Eecs343.TinyShell
