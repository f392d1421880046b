import Eecs343.TinyShell.Entries

namespace Eecs343.TinyShell

def pids (s : Shell) : List Int := s.entries.map Prod.fst

def NoFg (s : Shell) : Prop := ∀ pid, (pid, .foreground) ∉ s.entries

def Idle (s : Shell) : Prop := NoFg s ∧ s.fgPid ≤ 0

def OnlyFg (s : Shell) (job : Nat) : Prop := ∀ (j : Nat) (pid : Int), s.entries[j]? = some (pid, .foreground) → j = job

def Holds (s : Shell) (job : Nat) : Prop := s.entries[job]? = some (s.fgPid, .foreground) ∧ OnlyFg s job

def Fresh (s : Shell) (pid : Int) : Prop := 0 < pid ∧ pid ∉ pids s

/-- Who has the foreground at each place of the main program. -/
def Place (s : Shell) : Main → Prop
  | .forked pid _ _ | .launched pid _ _ => Idle s ∧ Fresh s pid
  | .adding pid _ => NoFg s ∧ Fresh s pid
  | .clearing job | .taking job => OnlyFg s job ∧ s.fgPid ≤ 0
  | .waitFg pid => Idle s ∨ ∃ job, Holds s job ∧ s.fgPid = pid
  | .waiting job => Idle s ∨ ∃ i, Holds s i ∧ job = some i
  | _ => Idle s

variable {s t : Shell}

theorem found_pid {pid : Int} {i : Nat} (found : s.findJobByPid pid = some i) :
    ∃ state, s.entries[i]? = some (pid, state) := by
  rw [findJobByPid_entries] at found
  obtain ⟨inside, same, _⟩ := List.findIdx?_eq_some_iff_getElem.mp found
  have process : s.entries[i].1 = pid := of_decide_eq_true same
  refine ⟨s.entries[i].2, ?_⟩
  rw [List.getElem?_eq_getElem inside, ← process]

theorem find_of_distinct (distinct : (pids s).Nodup) {pid : Int} {state : JobState} {i : Nat}
    (here : s.entries[i]? = some (pid, state)) : s.findJobByPid pid = some i := by
  obtain ⟨inside, same⟩ := List.getElem?_eq_some_iff.mp here
  rw [findJobByPid_entries]
  refine List.findIdx?_eq_some_iff_getElem.mpr ⟨inside, by simp [same], ?_⟩
  intro j earlier
  simp only [decide_eq_true_eq]
  intro process
  have length : (pids s).length = s.entries.length := List.length_map _
  have first : j < (pids s).length := by omega
  have second : i < (pids s).length := by omega
  have equal : (pids s)[j] = (pids s)[i] := by simp [pids, process, same]
  have places := (distinct.getElem_inj_iff).mp equal
  omega

theorem pids_handle (wpid : Int) (stopped : Bool) : pids (s.handle wpid stopped) = pids s := by
  apply List.ext_getElem?
  intro i
  rw [pids, pids, List.getElem?_map, List.getElem?_map, entries_handle]
  split
  · rename_i found
    obtain ⟨state, here⟩ := found_pid found
    rw [here]
    rfl
  · rfl

theorem pids_setState (job : Nat) (state : JobState) : pids (s.setState job state) = pids s := by
  apply List.ext_getElem?
  intro i
  rw [pids, pids, List.getElem?_map, List.getElem?_map, entries_setState]
  split
  · rw [Option.map_map]
    rfl
  · rfl

theorem NoFg.handle (none : NoFg s) (wpid : Int) (stopped : Bool) : NoFg (s.handle wpid stopped) := by
  intro pid member
  obtain ⟨i, here⟩ := List.mem_iff_getElem?.mp member
  exact none pid (List.mem_of_getElem? (handle_running s (.inl rfl) here).1)

theorem handle_nonpos (bound : s.fgPid ≤ 0) (wpid : Int) (stopped : Bool) : (s.handle wpid stopped).fgPid ≤ 0 := by
  rw [fgPid_handle]
  split <;> omega

theorem OnlyFg.handle {job : Nat} (only : OnlyFg s job) (wpid : Int) (stopped : Bool) :
    OnlyFg (s.handle wpid stopped) job := by
  intro j pid here
  exact only j pid (handle_running s (.inl rfl) here).1

/-- The foreground job keeps the foreground until the handler hears of it, which leaves nobody there. -/
theorem Holds.handle {job : Nat} (holds : Holds s job) (distinct : (pids s).Nodup) (wpid : Int) (stopped : Bool) :
    Idle (s.handle wpid stopped) ∨ Holds (s.handle wpid stopped) job ∧ (s.handle wpid stopped).fgPid = s.fgPid := by
  obtain ⟨here, only⟩ := holds
  by_cases same : wpid = s.fgPid
  · left
    have found := find_of_distinct distinct here
    constructor
    · intro pid member
      obtain ⟨j, there⟩ := List.mem_iff_getElem?.mp member
      obtain ⟨before, other⟩ := handle_running s (.inl rfl) there
      rw [only j pid before, same] at other
      exact other found
    · rw [fgPid_handle, if_pos same]
      decide
  · right
    have fgPid : (s.handle wpid stopped).fgPid = s.fgPid := by rw [fgPid_handle, if_neg same]
    have other : s.findJobByPid wpid ≠ some job := by
      intro found
      obtain ⟨state, there⟩ := found_pid found
      rw [here] at there
      cases there
      exact same rfl
    refine ⟨⟨?_, only.handle wpid stopped⟩, fgPid⟩
    rw [fgPid, entries_handle, if_neg other]
    exact here

/-- Where nobody comes to the foreground and who is there stays or leaves, each place of the main program is
    as it was. -/
theorem Place.change {main : Main} (place : Place s main) (processes : pids t = pids s) (none : NoFg s → NoFg t)
    (only : ∀ job, OnlyFg s job → OnlyFg t job) (bound : s.fgPid ≤ 0 → t.fgPid ≤ 0)
    (holds : ∀ job, Holds s job → Idle t ∨ Holds t job ∧ t.fgPid = s.fgPid) : Place t main := by
  have idle : Idle s → Idle t := fun idle => ⟨none idle.1, bound idle.2⟩
  have fresh : ∀ pid, Fresh s pid → Fresh t pid := by
    intro pid fresh
    rw [Fresh, processes]
    exact fresh
  cases main with
  | forked pid bg cmdline | launched pid bg cmdline => exact ⟨idle place.1, fresh pid place.2⟩
  | adding pid cmdline => exact ⟨none place.1, fresh pid place.2⟩
  | clearing job | taking job => exact ⟨only job place.1, bound place.2⟩
  | waitFg pid =>
    rcases place with empty | ⟨job, held, process⟩
    · exact .inl (idle empty)
    · apply (holds job held).imp_right
      intro ⟨after, same⟩
      exact ⟨job, after, same.trans process⟩
  | waiting job =>
    rcases place with empty | ⟨i, held, same⟩
    · exact .inl (idle empty)
    · apply (holds i held).imp_right
      intro ⟨after, _⟩
      exact ⟨i, after, same⟩
  | _ => exact idle place

theorem Place.handle {main : Main} (place : Place s main) (distinct : (pids s).Nodup) (wpid : Int) (stopped : Bool) :
    Place (s.handle wpid stopped) main := by
  apply place.change (pids_handle wpid stopped)
  · exact fun none => none.handle wpid stopped
  · exact fun _ only => only.handle wpid stopped
  · exact fun bound => handle_nonpos bound wpid stopped
  · exact fun _ holds => holds.handle distinct wpid stopped

theorem checkLoop_fgPid (kept jobs : List Job) (s : Shell) :
    (Shell.checkLoop kept jobs s).fgPid = s.fgPid ∨ (Shell.checkLoop kept jobs s).fgPid = -1 := by
  induction jobs generalizing kept s with
  | nil => exact .inl rfl
  | cons current rest ih =>
    unfold Shell.checkLoop
    split
    · split
      · exact ih _ _
      · right
        exact (ih kept { s with fgPid := -1 }).elim id id
    · exact ih _ _

theorem fgPid_checkJobs (s : Shell) : s.checkJobs.fgPid = s.fgPid ∨ s.checkJobs.fgPid = -1 := by
  have checked := checkLoop_fgPid [] s.bgjobs s
  simp only [Shell.checkJobs]
  split <;> exact checked

theorem Idle.checkJobs (idle : Idle s) : Idle s.checkJobs := by
  constructor
  · intro pid member
    rw [entries_checkJobs] at member
    exact idle.1 pid (List.mem_of_mem_filter member)
  · have bound := idle.2
    rcases fgPid_checkJobs s with same | same <;> omega

theorem pids_checkJobs (s : Shell) : (pids s.checkJobs).Sublist (pids s) := by
  rw [pids, pids, entries_checkJobs]
  exact List.filter_sublist.map Prod.fst

theorem pids_addJob (s : Shell) (pid : Int) (state : JobState) (cmdline : String) (print : Bool) :
    pids (s.addJob pid state cmdline print) = pids s ++ [pid] := by
  simp [pids, entries_addJob]

theorem distinct_addJob {pid : Int} (fresh : Fresh s pid) (distinct : (pids s).Nodup) (state : JobState)
    (cmdline : String) (print : Bool) : (pids (s.addJob pid state cmdline print)).Nodup := by
  rw [pids_addJob]
  exact distinct.append (List.nodup_singleton _) (List.disjoint_singleton.mpr fresh.2)

theorem positive_addJob {pid : Int} (fresh : Fresh s pid) (positive : ∀ pid ∈ pids s, 0 < pid) (state : JobState)
    (cmdline : String) (print : Bool) : ∀ other ∈ pids (s.addJob pid state cmdline print), 0 < other := by
  rw [pids_addJob, List.forall_mem_append, List.forall_mem_singleton]
  exact ⟨positive, fresh.1⟩

theorem Idle.addBackground (idle : Idle s) (pid : Int) (cmdline : String) (print : Bool) :
    Idle (s.addJob pid .background cmdline print) := by
  refine ⟨?_, idle.2⟩
  intro other member
  rw [entries_addJob] at member
  rcases List.mem_append.mp member with member | last
  · exact idle.1 other member
  · simp at last

theorem NoFg.addForeground (none : NoFg s) {pid : Int} (given : s.fgPid = pid) (cmdline : String) (print : Bool) :
    Holds (s.addJob pid .foreground cmdline print) s.entries.length := by
  constructor
  · rw [entries_addJob, List.getElem?_concat_length, ← given]
    rfl
  · intro j other here
    rw [entries_addJob] at here
    by_cases inside : j < s.entries.length
    · rw [List.getElem?_append_left inside] at here
      exact absurd (List.mem_of_getElem? here) (none other)
    · have bound := (List.getElem?_eq_some_iff.mp here).1
      rw [List.length_append, List.length_singleton] at bound
      omega

theorem Idle.setBackground (idle : Idle s) (job : Nat) : Idle (s.setState job .background) := by
  refine ⟨?_, idle.2⟩
  intro pid member
  obtain ⟨i, here⟩ := List.mem_iff_getElem?.mp member
  rw [entries_setState] at here
  split at here
  · obtain ⟨_, _, same⟩ := Option.map_eq_some_iff.mp here
    cases same
  · exact idle.1 pid (List.mem_of_getElem? here)

theorem NoFg.setForeground (none : NoFg s) (job : Nat) : OnlyFg (s.setState job .foreground) job := by
  intro j pid here
  rw [entries_setState] at here
  split at here
  · rename_i same
    exact same.symm
  · exact absurd (List.mem_of_getElem? here) (none pid)

theorem fgPid_takeFgPid {job : Nat} {entry : Int × JobState} (here : s.entries[job]? = some entry) :
    (s.takeFgPid job).fgPid = entry.1 := by
  rw [Shell.entries, List.getElem?_map] at here
  obtain ⟨found, there, rfl⟩ := Option.map_eq_some_iff.mp here
  simp only [Shell.takeFgPid, there]

theorem OnlyFg.takeFgPid {job : Nat} (only : OnlyFg s job) {pid : Int}
    (here : s.entries[job]? = some (pid, .foreground)) :
    Holds (s.takeFgPid job) job := by
  constructor
  · rw [fgPid_takeFgPid here, entries_takeFgPid]
    exact here
  · intro j other
    rw [entries_takeFgPid]
    exact only j other

theorem OnlyFg.noFg {job : Nat} (only : OnlyFg s job) (other : ∀ pid, s.entries[job]? ≠ some (pid, .foreground)) :
    NoFg s := by
  intro pid member
  obtain ⟨i, here⟩ := List.mem_iff_getElem?.mp member
  rw [only i pid here] at here
  exact other pid here

theorem OnlyFg.takeNone {job : Nat} (only : OnlyFg s job) (bound : s.fgPid ≤ 0) (missing : s.entries[job]? = none) :
    Idle (s.takeFgPid job) := by
  constructor
  · intro pid
    rw [entries_takeFgPid]
    exact only.noFg (by simp [missing]) pid
  · rw [Shell.entries, List.getElem?_map, Option.map_eq_none_iff] at missing
    simp only [Shell.takeFgPid, missing]
    exact bound

theorem Holds.positive {job : Nat} (holds : Holds s job) (positive : ∀ pid ∈ pids s, 0 < pid) : 0 < s.fgPid :=
  positive _ (List.mem_map.mpr ⟨_, List.mem_of_getElem? holds.1, rfl⟩)

theorem Holds.not_noFg {job : Nat} (holds : Holds s job) : ¬NoFg s := by
  intro none
  exact none _ (List.mem_of_getElem? holds.1)

theorem Place.stop {main : Main} (place : Place s main) (positive : ∀ pid ∈ pids s, 0 < pid)
    (none : 0 < s.fgPid → NoFg s) : Place { s with fgPid := -1 } main := by
  refine place.change rfl id (fun _ => id) (fun _ => show (-1 : Int) ≤ 0 by decide) ?_
  intro job holds
  exact absurd (none (holds.positive positive)) holds.not_noFg

end Eecs343.TinyShell
