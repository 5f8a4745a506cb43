import Mathlib.Data.List.Basic
import Mathlib.Algebra.BigOperators.Group.Finset.Basic

/-!
# The scheduler of tasks

A task has one state link for each of its partitions. A link stands in one of three lists of
its partition: it waits on other tasks, is available to a thread, or is completed; a link
that a thread has taken stands in none. `mark_task_complete` moves the links on whose
dependencies have become complete. A task is named by its place in the list of all tasks.
-/
namespace AnotherC.Scheduler
set_option linter.unusedVariables false

/-! ## The data -/

/-- `ac_task_state_link_t`, without the links of its list. -/
structure StateLink where
  waitingOnOthers : Bool
  ackTime : Int
  completed : Int
deriving Repr, DecidableEq

structure Task where
  taskName : List UInt8
  numPartitions : Nat
  doNothing : Bool
  runEverytime : Bool
  dependencies : List Nat
  partialDependencies : List Nat
  reverseDependencies : List Nat
  reversePartialDependencies : List Nat
deriving Repr, DecidableEq

/-- The lists of `ac_task_state_t`. -/
inductive Root where
  | available
  | tasksToFinish
  | completed
deriving Repr, DecidableEq

/-- `ac_schedule_t`, the arguments that the threads read, and what the tasks hold that
    changes: their links and the partitions selected. -/
structure Schedule where
  numPartitions : Nat
  cpus : Nat
  tasks : List Task
  stateLinkage : Nat → Nat → StateLink
  state : Root → Nat → List Nat
  numAvailable : Nat
  numTasksToRun : Nat
  isDone : Bool
  numRunning : Nat
  selected : Nat → Option (List Bool)
  numSelected : Nat
  selectAll : Bool
  onlyRunSelected : Bool
  force : Bool

/-- What `take_worker` fills in of an `ac_worker_t`. -/
structure Worker where
  task : Nat
  partition : Nat
  ackTime : Int
  running : Nat
deriving Repr, DecidableEq

def noTask : Task := ⟨[],0,false,false,[],[],[],[]⟩

def Schedule.task (s : Schedule) (t : Nat) : Task := s.tasks.getD t noTask

/-- The links that there are. -/
def Schedule.Valid (s : Schedule) (t p : Nat) : Prop := t < s.tasks.length ∧ p < (s.task t).numPartitions

instance (s : Schedule) (t p : Nat) : Decidable (s.Valid t p) := inferInstanceAs (Decidable (_ ∧ _))

/-- `ac_schedule_init`: no tasks. -/
def init (numPartitions cpus : Nat) : Schedule where
  numPartitions := numPartitions
  cpus := cpus
  tasks := []
  stateLinkage := fun _ _ => ⟨false,-1,0⟩
  state := fun _ _ => []
  numAvailable := 0
  numTasksToRun := 0
  isDone := false
  numRunning := 0
  selected := fun _ => none
  numSelected := 0
  selectAll := true
  onlyRunSelected := false
  force := false

/-! ## The lists -/

/-- The list that a link belongs to, by its flags. -/
def rootOf (link : StateLink) : Root :=
  if link.waitingOnOthers then .tasksToFinish else if link.completed ≠ 0 then .completed else .available

def setAt {α : Type} (f : Nat → Nat → α) (t p : Nat) (a : α) : Nat → Nat → α :=
  fun t' p' => if t' = t ∧ p' = p then a else f t' p'

/-- Replaces one of the lists. -/
def setList (state : Root → Nat → List Nat) (r : Root) (p : Nat) (l : List Nat) : Root → Nat → List Nat :=
  fun r' p' => if r' = r ∧ p' = p then l else state r' p'

def Schedule.setLink (s : Schedule) (t p : Nat) (link : StateLink) : Schedule :=
  { s with stateLinkage := setAt s.stateLinkage t p link }

/-- `unlink_state`: a link is in the list that its flags name. -/
def unlinkState (s : Schedule) (t p : Nat) : Schedule :=
  let link := s.stateLinkage t p
  let root := rootOf link
  { s with
    state := setList s.state root p ((s.state root p).erase t)
    numAvailable := if !link.waitingOnOthers && link.completed = 0 then s.numAvailable - 1 else s.numAvailable
    numTasksToRun := if link.waitingOnOthers then s.numTasksToRun - 1 else s.numTasksToRun }

def linkState (s : Schedule) (t p : Nat) : Schedule :=
  let link := s.stateLinkage t p
  let root := rootOf link
  { s with
    state := setList s.state root p (t :: s.state root p)
    numAvailable := if !link.waitingOnOthers && link.completed = 0 then s.numAvailable + 1 else s.numAvailable
    numTasksToRun := if link.waitingOnOthers then s.numTasksToRun + 1 else s.numTasksToRun }

/-- `take_worker`, of the given task or of any. -/
def takeWorker (s : Schedule) (task : Option Nat) (p : Nat) : Option (Schedule × Worker) :=
  match (s.state .available p).find? fun t => task = none || task = some t with
  | some t => some (unlinkState s t p,⟨t,p,-1,0⟩)
  | none => none

/-! ## What is complete -/

def isTaskComplete (s : Schedule) (t : Nat) : Bool :=
  (List.range (s.task t).numPartitions).all fun i =>
    !((s.stateLinkage t i).waitingOnOthers || (s.stateLinkage t i).completed = 0)

/-- `is_worker_complete`; a task without this partition is asked about its first. -/
def isWorkerComplete (s : Schedule) (t p : Nat) : Bool :=
  let i := if (s.task t).numPartitions ≤ p then 0 else p
  !(s.stateLinkage t i).waitingOnOthers && (s.stateLinkage t i).completed ≠ 0

def isDependenciesComplete (s : Schedule) (t p : Nat) : Bool :=
  (s.task t).dependencies.all (isTaskComplete s) && (s.task t).partialDependencies.all (isWorkerComplete s · p)

/-- `partially_complete`, negated. -/
def allCompleted (s : Schedule) (t : Nat) : Bool :=
  (List.range (s.task t).numPartitions).all fun i => (s.stateLinkage t i).completed ≠ 0

/-- All links of a task. -/
def linksOf (s : Schedule) (t : Nat) : List (Nat × Nat) := (List.range (s.task t).numPartitions).map fun i => (t,i)

/-- The links that `mark_task_complete` calls `check_task` for, in its order. -/
def lookedAt (s : Schedule) (t p : Nat) : List (Nat × Nat) :=
  if allCompleted s t then
    (s.task t).reverseDependencies.flatMap (linksOf s) ++ (s.task t).reversePartialDependencies.flatMap (linksOf s)
  else ((s.task t).reversePartialDependencies.filter fun d => p < (s.task d).numPartitions).map fun d => (d,p)

/-- `check_task`, with the `mark_task_complete` it calls for a task that does nothing. -/
def checkTask (mark : Schedule → Nat → Nat → Option Schedule) (s : Schedule) (t p : Nat) : Option Schedule :=
  if (s.stateLinkage t p).waitingOnOthers && isDependenciesComplete s t p then
    let freed := (unlinkState s t p).setLink t p { s.stateLinkage t p with waitingOnOthers := false }
    if (s.task t).doNothing then mark freed t p else some (linkState freed t p)
  else some s

/-- `mark_task_complete`, where calls are nested at most so deep. -/
def markTaskComplete (time : Int) : Nat → Schedule → Nat → Nat → Option Schedule
  | 0, _, _, _ => none
  | depth + 1, s, t, p =>
    let marked := linkState (s.setLink t p ⟨false,(s.stateLinkage t p).ackTime,time⟩) t p
    (lookedAt marked t p).foldlM (fun s c => checkTask (markTaskComplete time depth) s c.1 c.2) marked

/-- Every nested call takes a link out of those that wait. -/
def complete (s : Schedule) (t p : Nat) (time : Int) : Option Schedule :=
  markTaskComplete time (s.numTasksToRun + 1) s t p

end AnotherC.Scheduler
