import Eecs343.Server.Seats.Hall

namespace Eecs343.Server.Seats

open Prog

variable {s : Store}

/-- What `view_seat` does with the standby list between `sem_wait` and `sem_post`. -/
def enqueue (customerId : Int) : Op Unit := do
  let newStandby ← malloc
  write fun s => s.setNode newStandby { s.nodes newStandby with customerId }
  write fun s => s.setNode newStandby { s.nodes newStandby with next := none }
  let iter ← read Store.head
  let length ← read Store.standbyLength
  if length = 0 then
    write fun s => { s with head := some newStandby, listed := s.listed ++ [customerId] }
  else do
    let last ← loop tailRound iter pure
    write fun s =>
      { s.setNode last { s.nodes last with next := some newStandby } with listed := s.listed ++ [customerId] }
  let length ← read Store.standbyLength
  write fun s => { s with standbyLength := length + 1 }

/-- What `cancel` does with it there. -/
def dequeue (curr : Nat) : Op Unit := do
  let first ← read Store.head
  let node ← deref first
  let customerId ← read fun s => (s.nodes node).customerId
  write fun s => { s.setCustomer curr customerId with served := s.served ++ [customerId] }
  let first ← read Store.head
  let node ← deref first
  let next ← read fun s => (s.nodes node).next
  write fun s => { s with head := next }
  write fun s => s.setState curr .occupied
  let length ← read Store.standbyLength
  write fun s => { s with standbyLength := length - 1 }

theorem addStandby_eq (customerId : Int) :
    addStandby customerId = semWait.bind fun _ => (enqueue customerId).bind fun _ => semPost := by
  refine congrArg (access _) (funext fun _ => congrArg (access _) (funext fun newStandby => ?_))
  refine congrArg (access _) (funext fun _ => congrArg (access _) (funext fun _ => ?_))
  refine congrArg (access _) (funext fun iter => congrArg (access _) (funext fun length => ?_))
  change (if length = 0 then _ else _) = Prog.bind (if length = 0 then _ else _) _
  by_cases empty : length = 0
  · rw [if_pos empty, if_pos empty]
    rfl
  · rw [if_neg empty, if_neg empty]
    rfl

theorem serveStandby_eq (curr : Nat) :
    serveStandby curr = semWait.bind fun _ => (dequeue curr).bind fun _ => semPost := rfl

/-- `nodes` is the standby list, whatever its length. -/
structure Chained (s : Store) (nodes : List Nat) : Prop where
  path : Linked.Path s.follow s.head (nodes.map some) none
  nodup : nodes.Nodup
  old : ∀ node ∈ nodes, node < s.allocated
  counted : s.standbyLength = nodes.length

theorem Waits.chained {nodes : List Nat} (waits : Waits s nodes) : Chained s nodes :=
  ⟨waits.path, waits.nodup, waits.old, waits.counted⟩

theorem Waits.of_chained {nodes : List Nat} (chained : Chained s nodes) (bounded : nodes.length ≤ 8) : Waits s nodes :=
  ⟨chained.path, chained.nodup, chained.old, chained.counted, bounded⟩

/-- The standby list of `s` is that of `t`. -/
structure SameList (s t : Store) : Prop where
  head : t.head = s.head
  standbyLength : t.standbyLength = s.standbyLength
  nodes : t.nodes = s.nodes
  allocated : t.allocated = s.allocated

theorem Chained.congr {t : Store} {nodes : List Nat} (chained : Chained s nodes) (same : SameList s t) :
    Chained t nodes where
  path := by
    rw [same.head]
    apply chained.path.congr
    intro pointer _
    simp only [Store.follow, same.nodes]
  nodup := chained.nodup
  old := by
    rw [same.allocated]
    exact chained.old
  counted := same.standbyLength.trans chained.counted

theorem Chained.head_iff {nodes : List Nat} (chained : Chained s nodes) : s.head ≠ none ↔ 0 < s.standbyLength := by
  have start := chained.path.start
  rw [chained.counted, start]
  cases nodes with
  | nil => simp
  | cons node nodes =>
    simp only [List.map_cons, List.headD_cons, List.length_cons]
    exact iff_of_true (by simp) (by omega)

theorem ends_tail {stop : Nat → Op Nat} {post : Nat → Store → Prop} (last : Nat) (ends : Ends (stop last) s post)
    {before : List Nat} {iter : Option Nat}
    (path : Linked.Path s.follow iter ((before ++ [last]).map some) none) :
    Ends (loop tailRound iter stop) s post := by
  induction before generalizing iter with
  | nil =>
    obtain ⟨rfl, final⟩ := path
    replace final : (s.nodes last).next = none := final
    simpa [ends_loop, tailRound, final] using ends
  | cons node before ih =>
    obtain ⟨rfl, rest⟩ := path
    have after := ih rest
    replace rest := rest.start
    cases next : (s.nodes node).next with
    | none =>
      exfalso
      cases before <;> simp [Store.follow, next] at rest
    | some other => simpa [ends_loop, tailRound, next, Store.follow] using after

@[simp] theorem ends_malloc {post : Nat → Store → Prop} :
    Ends malloc s post ↔ post s.allocated { s with allocated := s.allocated + 1 } := by
  simp [malloc, ends_access]

theorem Chained.first {t : Store} {customerId : Int} (chained : Chained s [])
    (nodes : t.nodes = Function.update s.nodes s.allocated ⟨customerId, none⟩) (head : t.head = some s.allocated)
    (allocated : t.allocated = s.allocated + 1) (counted : t.standbyLength = s.standbyLength + 1) :
    Chained t [s.allocated] where
  path := ⟨head, by simp [Store.follow, nodes]⟩
  nodup := List.nodup_singleton _
  old := by simp [allocated]
  counted := by simp [counted, chained.counted]

theorem Chained.append {t : Store} {before : List Nat} {last : Nat} {customerId : Int}
    (chained : Chained s (before ++ [last]))
    (nodes : t.nodes = Function.update (Function.update s.nodes s.allocated ⟨customerId, none⟩) last
      ⟨(s.nodes last).customerId, some s.allocated⟩)
    (head : t.head = s.head) (allocated : t.allocated = s.allocated + 1)
    (counted : t.standbyLength = s.standbyLength + 1) : Chained t (before ++ [last] ++ [s.allocated]) where
  path := by
    have fresh : last ≠ s.allocated := Nat.ne_of_lt (chained.old last (by simp))
    have distinct := chained.nodup
    rw [List.append_assoc, List.map_append, head]
    apply Linked.Path.relink (by simpa using chained.path)
    · intro other member
      obtain ⟨node, earlier, rfl⟩ := List.mem_map.mp member
      have notLast : node ≠ last := by
        intro same
        simp only [List.nodup_append, List.mem_singleton] at distinct
        exact distinct.2.2 node earlier last rfl same
      have notNew : node ≠ s.allocated := Nat.ne_of_lt (chained.old node (by simp [earlier]))
      simp [Store.follow, nodes, notLast, notNew]
    · simp [Store.follow, nodes, fresh.symm]
  nodup := by
    apply List.Nodup.append chained.nodup (List.nodup_singleton _)
    simp only [List.disjoint_singleton]
    exact fun member => Nat.lt_irrefl _ (chained.old _ member)
  old := by
    intro node member
    rw [allocated]
    by_cases new : node = s.allocated
    · omega
    · have := chained.old node (by simpa [new] using member)
      omega
  counted := by
    rw [counted, chained.counted]
    simp
    omega

def customers (s : Store) (nodes : List Nat) : List Int := nodes.map fun node => (s.nodes node).customerId

theorem ends_enqueue {nodes : List Nat} (chained : Chained s nodes) (customerId : Int) :
    Ends (enqueue customerId) s fun _ t =>
      Chained t (nodes ++ [s.allocated]) ∧ customers t (nodes ++ [s.allocated]) = customers s nodes ++ [customerId] ∧
        t = { s with head := t.head, standbyLength := s.standbyLength + 1, nodes := t.nodes, allocated := s.allocated + 1,
                     listed := s.listed ++ [customerId] } := by
  have fresh : ∀ node ∈ nodes, Function.update s.nodes s.allocated ⟨customerId, none⟩ node = s.nodes node :=
    fun node member => Function.update_of_ne (Nat.ne_of_lt (chained.old node member)) _ _
  simp only [enqueue, ends_bind, ends_malloc, ends_write, ends_read, ends_ite, Store.setNode, Function.update_self,
    Function.update_idem]
  split
  case isTrue empty =>
    have none : nodes = [] := by
      rw [chained.counted] at empty
      exact List.length_eq_zero_iff.mp (by omega)
    subst none
    refine ⟨chained.first rfl rfl rfl rfl, ?_, trivial⟩
    simp [customers]
  case isFalse some =>
    obtain ⟨before, last, rfl⟩ : ∃ before last, nodes = before ++ [last] := by
      rcases List.eq_nil_or_concat nodes with none | ⟨before, last, split⟩
      · rw [chained.counted, none] at some
        exact (some rfl).elim
      · exact ⟨before, last, by rw [split, List.concat_eq_append]⟩
    have lastFresh := fresh last (by simp)
    apply ends_tail last
    · simp only [ends_pure, lastFresh]
      refine ⟨chained.append rfl rfl rfl rfl, ?_, trivial⟩
      have notNew : s.allocated ≠ last := (Nat.ne_of_lt (chained.old last (by simp))).symm
      rw [customers, List.map_append]
      congr 1
      · apply List.map_congr_left
        intro node member
        by_cases same : node = last
        · simp [same]
        · simp [same, fresh node member]
      · simp [notNew]
    · apply chained.path.congr
      intro pointer member
      obtain ⟨node, inside, rfl⟩ := List.mem_map.mp member
      simp [Store.follow, fresh node inside]

theorem ends_dequeue {node : Nat} {nodes : List Nat} (chained : Chained s (node :: nodes)) (curr : Nat) :
    Ends (dequeue curr) s fun _ t =>
      Chained t nodes ∧
        t = { s with
          seats := Function.update s.seats curr ⟨(s.seats curr).id, (s.nodes node).customerId, .occupied⟩
          head := t.head
          standbyLength := s.standbyLength - 1
          served := s.served ++ [(s.nodes node).customerId] } := by
  obtain ⟨head, path⟩ := chained.path
  simp only [dequeue, ends_bind, ends_write, ends_read, ends_deref, Store.setCustomer, Store.setState,
    Function.update_self, Function.update_idem, head]
  refine ⟨node, rfl, node, rfl, ⟨path, chained.nodup.of_cons, ?_, ?_⟩, rfl⟩
  · exact fun other member => chained.old other (List.mem_cons_of_mem _ member)
  · simp [chained.counted]

end Eecs343.Server.Seats
