import AnotherC.Io.SchedulerCascade
import AnotherC.Lib.Events

/-!
# Setting a schedule up

Whatever tasks and dependencies are added, in whatever order: a link waits exactly when its
task has a dependency. `schedule_setup` completes the tasks that do nothing as far as it
can, after which a link waits exactly when something it depends on is incomplete
(`Settled`), and nothing that does nothing is left to a thread (`Quiet`).
-/
namespace AnotherC.Scheduler
open AnotherC.Lib.Events
set_option linter.unusedVariables false

/-! ## The code -/

/-- `_task_find` and `find_task`: the task of this name. -/
def findTask (s : Schedule) (name : List UInt8) : Option Nat := s.tasks.findIdx? fun task => task.taskName = name

def Schedule.append (s : Schedule) (new : Task) : Schedule := { s with tasks := s.tasks ++ [new] }

/-- A new link of `ac_schedule_task`. -/
def linkNew (t : Nat) (s : Schedule) (i : Nat) : Schedule := linkState (s.setLink t i ⟨false,-1,0⟩) t i

/-- `ac_schedule_task`; a task that is known stays as it is. -/
def scheduleTask (s : Schedule) (name : List UInt8) (partitioned : Bool) : Schedule :=
  match findTask s name with
  | some _ => s
  | none =>
    let parts := if partitioned then s.numPartitions else 1
    (List.range parts).foldl (linkNew s.tasks.length) (s.append ⟨name,parts,false,false,[],[],[],[]⟩)

def Schedule.setTask (s : Schedule) (t : Nat) (f : Task → Task) : Schedule := { s with tasks := s.tasks.modify t f }

def addTaskLink (links : List Nat) (toAdd : Nat) : List Nat := if toAdd ∈ links then links else toAdd :: links

/-- The two calls of `add_task_link`. -/
def addLinks (part : Bool) (s : Schedule) (t d : Nat) : Schedule :=
  if part then
    (s.setTask t fun task => { task with partialDependencies := addTaskLink task.partialDependencies d }).setTask d
      fun task => { task with reversePartialDependencies := addTaskLink task.reversePartialDependencies t }
  else
    (s.setTask t fun task => { task with dependencies := addTaskLink task.dependencies d }).setTask d
      fun task => { task with reverseDependencies := addTaskLink task.reverseDependencies t }

/-- The loop of `_ac_task_dependency` over the partitions. -/
def waitOn (t d : Nat) (s : Schedule) (i : Nat) : Schedule :=
  if isWorkerComplete s d i then s
  else if !(s.stateLinkage t i).waitingOnOthers then
    linkState ((unlinkState s t i).setLink t i { s.stateLinkage t i with waitingOnOthers := true }) t i
  else s

/-- `_ac_task_dependency` on one name. -/
def dependOn (s : Schedule) (t : Nat) (name : List UInt8) (part : Bool) : Schedule × Bool :=
  match findTask s name with
  | none => (s,false)
  | some d =>
    let s := addLinks part s t d
    if !(s.stateLinkage t 0).waitingOnOthers then ((List.range (s.task t).numPartitions).foldl (waitOn t d) s,true)
    else (s,true)

/-- `_ac_task_dependency`. For names between bars `ac_pool_split2` gets NULL for the number of
pieces, and writes there. -/
def taskDependency (s : Schedule) (t : Nat) (dependency : List UInt8) (part : Bool) : Option (Schedule × Bool) :=
  if 124 ∈ dependency then none else some (dependOn s t dependency part)

/-- What a program calls before the tasks run, from `main` and from the tasks' setup functions. -/
inductive Call where
  | scheduleTask (name : List UInt8) (partitioned : Bool)
  | dependency (t : Nat) (dependency : List UInt8) (part : Bool)
  | runEverytime (t : Nat)
  | doNothing (t : Nat)
deriving Repr, DecidableEq

/-- A call, on a task that there is. -/
def call (s : Schedule) : Call → Option Schedule
  | .scheduleTask name partitioned => some (scheduleTask s name partitioned)
  | .dependency t dependency part => if t < s.tasks.length then (taskDependency s t dependency part).map Prod.fst else none
  | .runEverytime t => if t < s.tasks.length then some (s.setTask t fun task => { task with runEverytime := true }) else none
  | .doNothing t => if t < s.tasks.length then some (s.setTask t fun task => { task with doNothing := true }) else none

/-- `get_ack_time_for_task`, of every task. -/
def getAckTimes (disk : Nat → Nat → Int) (s : Schedule) : Schedule :=
  { s with stateLinkage := fun t p =>
      if s.Valid t p ∧ (s.stateLinkage t p).ackTime = -1 then { s.stateLinkage t p with ackTime := disk t p }
      else s.stateLinkage t p }

/-- One partition of a task that does nothing. -/
def settle (now : Int) (s : Schedule) (c : Nat × Nat) : Option Schedule :=
  if isDependenciesComplete s c.1 c.2 then
    match takeWorker s (some c.1) c.2 with
    | some (taken,w) => complete taken w.task w.partition now
    | none => some s
  else some s

/-- A task in the second loop of `schedule_setup`. -/
def settleTask (now : Int) (s : Schedule) (t : Nat) : Option Schedule :=
  if (s.task t).doNothing then (linksOf s t).foldlM (settle now) s else some s

/-- `schedule_setup`, behind the setup functions of the tasks. -/
def scheduleSetup (disk : Nat → Nat → Int) (now : Int) (s : Schedule) : Option Schedule :=
  let s := getAckTimes disk s
  (List.range s.tasks.length).foldlM (settleTask now) s

/-! ## While tasks are added -/

def inLists : Nat → Nat → Prop := fun _ _ => False

structure Building (s : Schedule) : Prop where
  sized : Sized s
  wired : Wired s
  filed : Filed s inLists
  none_ : ∀ t p, (s.stateLinkage t p).completed = 0
  waits : ∀ t p, s.Valid t p → ((s.stateLinkage t p).waitingOnOthers = true ↔
    (s.task t).dependencies ≠ [] ∨ (s.task t).partialDependencies ≠ [])
  unselected : ∀ t, s.selected t = none
  unread : ∀ t p, (s.stateLinkage t p).ackTime = -1

section
variable {s s' : Schedule} {t p t' p' d i : Nat} {out : Nat → Nat → Prop} {name : List UInt8} {part : Bool} {time : Int}

theorem task_outside (outside : s.tasks.length ≤ t) : s.task t = noTask := by
  simp [Schedule.task,List.getElem?_eq_none outside]

theorem setTask_task (s : Schedule) (t : Nat) (f : Task → Task) (u : Nat) :
    (s.setTask t f).task u = if u = t ∧ t < s.tasks.length then f (s.task u) else s.task u := by
  unfold Schedule.setTask Schedule.task
  simp only [List.getD_eq_getElem?_getD,List.getElem?_modify]
  by_cases same : t = u
  · subst same
    by_cases inside : t < s.tasks.length
    · simp [inside]
    · simp [inside]
  · rw [if_neg fun both => same both.1.symm]
    simp [same]

theorem setTask_length (s : Schedule) (t : Nat) (f : Task → Task) : (s.setTask t f).tasks.length = s.tasks.length :=
  List.length_modify ..

/-- Only the tasks are others, and they have the partitions they had. -/
structure Retasked (s s' : Schedule) : Prop where
  rest : s' = { s with tasks := s'.tasks }
  length : s'.tasks.length = s.tasks.length
  parts : ∀ t, (s'.task t).numPartitions = (s.task t).numPartitions

theorem Retasked.trans {s'' : Schedule} (first : Retasked s s') (second : Retasked s' s'') : Retasked s s'' := by
  refine ⟨?_,second.length.trans first.length,fun t => (second.parts t).trans (first.parts t)⟩
  have one := first.rest
  have two := second.rest
  rw [one] at two
  exact two

theorem Retasked.setTask (s : Schedule) (t : Nat) (f : Task → Task) (parts : ∀ task, (f task).numPartitions = task.numPartitions) :
    Retasked s (s.setTask t f) := by
  refine ⟨rfl,setTask_length s t f,fun u => ?_⟩
  rw [setTask_task]
  split
  · exact parts _
  · rfl

theorem Retasked.valid (re : Retasked s s') : s'.Valid t p ↔ s.Valid t p := by
  rw [Schedule.Valid,re.length,re.parts,Schedule.Valid]

theorem Retasked.link (re : Retasked s s') : s'.stateLinkage = s.stateLinkage := by
  have rest := re.rest
  rw [rest]

theorem Retasked.selected (re : Retasked s s') : s'.selected = s.selected := by
  have rest := re.rest
  rw [rest]

theorem Retasked.sized (re : Retasked s s') (sized : Sized s) : Sized s' := by
  have parts : s'.numPartitions = s.numPartitions := by
    have rest := re.rest
    rw [rest]
  refine ⟨parts ▸ sized.1,fun t known => ?_⟩
  rw [re.parts,parts]
  exact sized.2 t (re.length ▸ known)

theorem Retasked.filed (re : Retasked s s') (filed : Filed s out) : Filed s' out := by
  have rest := re.rest
  have state : s'.state = s.state := by rw [rest]
  have available : s'.numAvailable = s.numAvailable := by rw [rest]
  have toRun : s'.numTasksToRun = s.numTasksToRun := by rw [rest]
  have parts : s'.numPartitions = s.numPartitions := by rw [rest]
  refine ⟨state ▸ filed.nodup,fun r p t => ?_,?_,?_⟩
  · rw [state,re.valid,re.link]
    exact filed.filed r p t
  · rw [available,shelf,state,parts]
    exact filed.available
  · rw [toRun,shelf,state,parts]
    exact filed.toRun

theorem findTask_lt (found : findTask s name = some d) : d < s.tasks.length := by
  obtain ⟨inside,_⟩ := List.findIdx?_eq_some_iff_getElem.mp found
  exact inside

theorem mem_addTaskLink {l : List Nat} {x y : Nat} : x ∈ addTaskLink l y ↔ x = y ∨ x ∈ l := by
  unfold addTaskLink
  split
  case isTrue member =>
    constructor
    · exact .inr
    · rintro (rfl | inside)
      · exact member
      · exact inside
  case isFalse => rw [List.mem_cons]

theorem addTaskLink_ne (l : List Nat) (y : Nat) : addTaskLink l y ≠ [] :=
  List.ne_nil_of_mem (mem_addTaskLink.mpr (.inl rfl))

theorem addLinks_retasked (part : Bool) (s : Schedule) (t d : Nat) : Retasked s (addLinks part s t d) := by
  unfold addLinks
  split
  · exact (Retasked.setTask s t _ (by intro _; rfl)).trans (Retasked.setTask _ d _ (by intro _; rfl))
  · exact (Retasked.setTask s t _ (by intro _; rfl)).trans (Retasked.setTask _ d _ (by intro _; rfl))

/-- The four lists of a task behind `add_task_link`. -/
theorem addLinks_full (s : Schedule) (known : t < s.tasks.length) (known' : d < s.tasks.length) (u : Nat) :
    ((addLinks false s t d).task u).dependencies =
        (if u = t then addTaskLink (s.task u).dependencies d else (s.task u).dependencies) ∧
    ((addLinks false s t d).task u).reverseDependencies =
        (if u = d then addTaskLink (s.task u).reverseDependencies t else (s.task u).reverseDependencies) ∧
    ((addLinks false s t d).task u).partialDependencies = (s.task u).partialDependencies ∧
    ((addLinks false s t d).task u).reversePartialDependencies = (s.task u).reversePartialDependencies ∧
    ((addLinks false s t d).task u).doNothing = (s.task u).doNothing := by
  unfold addLinks
  simp only [Bool.false_eq_true,if_false,setTask_task,setTask_length,known,known',and_true]
  by_cases one : u = d <;> by_cases two : u = t <;> simp [one,two]
  all_goals split <;> simp_all

theorem addLinks_partial (s : Schedule) (known : t < s.tasks.length) (known' : d < s.tasks.length) (u : Nat) :
    ((addLinks true s t d).task u).partialDependencies =
        (if u = t then addTaskLink (s.task u).partialDependencies d else (s.task u).partialDependencies) ∧
    ((addLinks true s t d).task u).reversePartialDependencies =
        (if u = d then addTaskLink (s.task u).reversePartialDependencies t else (s.task u).reversePartialDependencies) ∧
    ((addLinks true s t d).task u).dependencies = (s.task u).dependencies ∧
    ((addLinks true s t d).task u).reverseDependencies = (s.task u).reverseDependencies ∧
    ((addLinks true s t d).task u).doNothing = (s.task u).doNothing := by
  unfold addLinks
  simp only [if_true,setTask_task,setTask_length,known,known',and_true]
  by_cases one : u = d <;> by_cases two : u = t <;> simp [one,two]
  all_goals split <;> simp_all

theorem mem_link_if {l : List Nat} {u x : Nat} : x ∈ (if u = t then addTaskLink l d else l) ↔ u = t ∧ x = d ∨ x ∈ l := by
  split
  case isTrue same =>
    rw [mem_addTaskLink]
    simp [same]
  case isFalse other => simp [other]

theorem addLinks_wired (part : Bool) (wired : Wired s) (known : t < s.tasks.length) (known' : d < s.tasks.length) :
    Wired (addLinks part s t d) := by
  have length := (addLinks_retasked part s t d).length
  cases part with
  | false =>
    have lists := addLinks_full s known known'
    refine ⟨fun u x => ?_,fun u => ?_,fun u x => ?_,fun u x => ?_⟩
    · rw [(lists u).1,mem_link_if,length]
      rintro (⟨_,rfl⟩ | member)
      · exact known'
      · exact wired.known u x member
    · rw [(lists u).2.2.1,length]
      exact wired.partly u
    · rw [(lists u).1,(lists x).2.1,mem_link_if,mem_link_if,wired.mirror u x]
      exact or_congr_left and_comm
    · rw [(lists u).2.2.1,(lists x).2.2.2.1]
      exact wired.mirrorPartial u x
  | true =>
    have lists := addLinks_partial s known known'
    refine ⟨fun u => ?_,fun u x => ?_,fun u x => ?_,fun u x => ?_⟩
    · rw [(lists u).2.2.1,length]
      exact wired.known u
    · rw [(lists u).1,mem_link_if,length]
      rintro (⟨_,rfl⟩ | member)
      · exact known'
      · exact wired.partly u x member
    · rw [(lists u).2.2.1,(lists x).2.2.2.1]
      exact wired.mirror u x
    · rw [(lists u).1,(lists x).2.1,mem_link_if,mem_link_if,wired.mirrorPartial u x]
      exact or_congr_left and_comm

/-- The task has a dependency afterwards, and no other task has got one. -/
theorem addLinks_some (part : Bool) (known : t < s.tasks.length) (known' : d < s.tasks.length) (u : Nat) :
    ((addLinks part s t d).task u).dependencies ≠ [] ∨ ((addLinks part s t d).task u).partialDependencies ≠ [] ↔
      u = t ∨ ((s.task u).dependencies ≠ [] ∨ (s.task u).partialDependencies ≠ []) := by
  cases part with
  | false =>
    obtain ⟨full,_,part,_⟩ := addLinks_full s known known' u
    rw [full,part]
    by_cases same : u = t
    · simp [same,addTaskLink_ne]
    · simp [same]
  | true =>
    obtain ⟨part,_,full,_⟩ := addLinks_partial s known known' u
    rw [full,part]
    by_cases same : u = t
    · simp [same,addTaskLink_ne]
    · simp [same]

/-- New links one after the other, where those to come are out. -/
theorem linkNew_all (l : List Nat) (distinct : l.Nodup) (sized : Sized s) (valid : ∀ i ∈ l, s.Valid t i)
    (filed : Filed s fun t' p' => t' = t ∧ p' ∈ l) :
    Filed (l.foldl (linkNew t) s) inLists ∧ Frame s (l.foldl (linkNew t) s) ∧
      ∀ t' p', (l.foldl (linkNew t) s).stateLinkage t' p' = if t' = t ∧ p' ∈ l then ⟨false,-1,0⟩ else s.stateLinkage t' p' := by
  induction l generalizing s with
  | nil =>
    refine ⟨filed.congr fun t' p' => ?_,Frame.refl s,fun t' p' => ?_⟩
    · simp [inLists]
    · simp
  | cons i l ih =>
    have fresh := List.nodup_cons.mp distinct
    have frame : Frame s (linkNew t s i) := rfl
    have filed' : Filed (linkNew t s i) fun t' p' => t' = t ∧ p' ∈ l := by
      have linked := (filed.setLink ⟨rfl,List.mem_cons_self⟩ ⟨false,-1,0⟩).link sized
        (valid i List.mem_cons_self) ⟨rfl,List.mem_cons_self⟩
      refine linked.congr fun t' p' => ?_
      unfold less
      constructor
      · rintro ⟨⟨rfl,member⟩,other⟩
        rcases List.mem_cons.mp member with rfl | later
        · exact absurd ⟨rfl,rfl⟩ other
        · exact ⟨rfl,later⟩
      · rintro ⟨rfl,later⟩
        refine ⟨⟨rfl,List.mem_cons_of_mem i later⟩,?_⟩
        rintro ⟨-,rfl⟩
        exact fresh.1 later
    obtain ⟨done_,rest,links⟩ := ih fresh.2 (frame.sized sized)
      (fun j member => frame.valid.mpr (valid j (List.mem_cons_of_mem i member))) filed'
    refine ⟨done_,frame.trans rest,fun t' p' => ?_⟩
    rw [List.foldl_cons,links]
    by_cases later : t' = t ∧ p' ∈ l
    · rw [if_pos later,if_pos ⟨later.1,List.mem_cons_of_mem i later.2⟩]
    · rw [if_neg later]
      by_cases same : t' = t ∧ p' = i
      · obtain ⟨rfl,rfl⟩ := same
        rw [if_pos ⟨rfl,List.mem_cons_self⟩]
        exact setLink_same _ _ _ _
      · rw [if_neg fun both => (List.mem_cons.mp both.2).elim (fun here => same ⟨both.1,here⟩) fun here => later ⟨both.1,here⟩]
        exact setLink_other _ same

theorem init_building {n cpus : Nat} (some_ : 0 < n) : Building (init n cpus) := by
  have none_ : ∀ t, (init n cpus).task t = noTask := fun t => task_outside (Nat.zero_le t)
  refine ⟨⟨some_,fun t known => absurd known (Nat.not_lt_zero t)⟩,⟨?_,?_,?_,?_⟩,⟨?_,?_,?_,?_⟩,?_,?_,?_,?_⟩
  · intro t d member
    rw [none_] at member
    cases member
  · intro t d member
    rw [none_] at member
    cases member
  · intro t d
    rw [none_,none_]
    constructor <;> intro member <;> cases member
  · intro t d
    rw [none_,none_]
    constructor <;> intro member <;> cases member
  · intro r p
    exact List.nodup_nil
  · intro r p t
    constructor
    · intro member
      cases member
    · intro both
      exact absurd both.1.1 (Nat.not_lt_zero t)
  · exact (Finset.sum_const_zero).symm
  · exact (Finset.sum_const_zero).symm
  · intro t p
    rfl
  · intro t p valid
    exact absurd valid.1 (Nat.not_lt_zero t)
  · intro t
    rfl
  · intro t p
    rfl

theorem append_task (s : Schedule) (new : Task) (u : Nat) :
    (s.append new).task u = if u = s.tasks.length then new else s.task u := by
  unfold Schedule.append Schedule.task
  simp only [List.getD_eq_getElem?_getD]
  rcases Nat.lt_trichotomy u s.tasks.length with below | rfl | above
  · rw [if_neg (Nat.ne_of_lt below),List.getElem?_append_left below]
  · rw [if_pos rfl,List.getElem?_append_right (Nat.le_refl _),Nat.sub_self]
    rfl
  · rw [if_neg (Nat.ne_of_gt above),List.getElem?_eq_none (Nat.le_of_lt above),List.getElem?_eq_none]
    rw [List.length_append]
    exact above

theorem append_length (s : Schedule) (new : Task) : (s.append new).tasks.length = s.tasks.length + 1 := List.length_append

theorem append_valid (s : Schedule) (new : Task) (t p : Nat) :
    (s.append new).Valid t p ↔ s.Valid t p ∨ t = s.tasks.length ∧ p < new.numPartitions := by
  unfold Schedule.Valid
  rw [append_length,append_task]
  by_cases same : t = s.tasks.length
  · subst same
    simp
  · have below : t < s.tasks.length + 1 ↔ t < s.tasks.length := by omega
    simp [same,below]

/-- A task without dependencies, behind all others. -/
structure Plain (s : Schedule) (new : Task) : Prop where
  parts : new.numPartitions = 1 ∨ new.numPartitions = s.numPartitions
  full : new.dependencies = []
  partly : new.partialDependencies = []
  reverse : new.reverseDependencies = []
  reversePartial : new.reversePartialDependencies = []

theorem append_lists {new : Task} (f : Task → List Nat) (empty : f new = []) (empty' : f noTask = []) (u : Nat) :
    f ((s.append new).task u) = f (s.task u) := by
  rw [append_task]
  split
  case isTrue same => rw [empty,same,task_outside (Nat.le_refl _),empty']
  case isFalse => rfl

theorem append_wired {new : Task} (wired : Wired s) (plain : Plain s new) : Wired (s.append new) := by
  have full := append_lists (s := s) Task.dependencies plain.full rfl
  have partly := append_lists (s := s) Task.partialDependencies plain.partly rfl
  have reverse := append_lists (s := s) Task.reverseDependencies plain.reverse rfl
  have reversePartial := append_lists (s := s) Task.reversePartialDependencies plain.reversePartial rfl
  refine ⟨fun t d inside => ?_,fun t d inside => ?_,fun t d => ?_,fun t d => ?_⟩
  · rw [full] at inside
    rw [append_length]
    exact Nat.lt_succ_of_lt (wired.known t d inside)
  · rw [partly] at inside
    rw [append_length]
    exact Nat.lt_succ_of_lt (wired.partly t d inside)
  · rw [full,reverse]
    exact wired.mirror t d
  · rw [partly,reversePartial]
    exact wired.mirrorPartial t d

theorem append_sized {new : Task} (sized : Sized s) (plain : Plain s new) : Sized (s.append new) := by
  refine ⟨sized.1,fun t known => ?_⟩
  rw [append_length] at known
  rw [append_task]
  split
  · exact plain.parts
  · exact sized.2 t (by omega)

theorem append_filed (filed : Filed s inLists) (new : Task) :
    Filed (s.append new) fun t' p' => t' = s.tasks.length ∧ p' ∈ List.range new.numPartitions := by
  refine ⟨filed.nodup,fun r p t => (filed.filed r p t).trans ?_,filed.available,filed.toRun⟩
  rw [append_valid]
  constructor
  · rintro ⟨inside,kind,_⟩
    refine ⟨.inl inside,kind,?_⟩
    rintro ⟨rfl,_⟩
    exact absurd inside.1 (Nat.lt_irrefl _)
  · rintro ⟨inside | ⟨rfl,below⟩,kind,listed⟩
    · exact ⟨inside,kind,id⟩
    · exact absurd ⟨rfl,List.mem_range.mpr below⟩ listed

theorem Building.append (building : Building s) {new : Task} (plain : Plain s new) :
    Building ((List.range new.numPartitions).foldl (linkNew s.tasks.length) (s.append new)) := by
  have inside : ∀ i ∈ List.range new.numPartitions, (s.append new).Valid s.tasks.length i :=
    fun i member => (append_valid _ _ _ _).mpr (.inr ⟨rfl,List.mem_range.mp member⟩)
  have sized := append_sized building.sized plain
  obtain ⟨filed,frame,links⟩ := linkNew_all _ List.nodup_range sized inside (append_filed building.filed new)
  refine ⟨frame.sized sized,frame.wired (append_wired building.wired plain),filed,fun t p => ?_,fun t p valid => ?_,
    fun t => (congrFun frame.selected t).trans (building.unselected t),fun t p => ?_⟩
  · rw [links]
    split
    · rfl
    · exact building.none_ t p
  · rw [links,frame.task,append_task]
    by_cases same : t = s.tasks.length
    · subst same
      have below := (frame.valid.mp valid).2
      rw [append_task,if_pos rfl] at below
      rw [if_pos ⟨rfl,List.mem_range.mpr below⟩,if_pos rfl,plain.full,plain.partly]
      simp
    · rw [if_neg fun both => same both.1,if_neg same]
      have old := (append_valid s new t p).mp (frame.valid.mp valid)
      exact building.waits t p (old.resolve_right fun both => same both.1)
  · rw [links]
    split
    · rfl
    · exact building.unread t p

theorem Building.scheduleTask (building : Building s) (name : List UInt8) (partitioned : Bool) :
    Building (scheduleTask s name partitioned) := by
  unfold Scheduler.scheduleTask
  split
  · exact building
  · refine building.append ⟨?_,rfl,rfl,rfl,rfl⟩
    cases partitioned with
    | true => exact .inr rfl
    | false => exact .inl rfl

/-- While nothing is complete the loop makes all its links wait. -/
theorem waitOn_all (l : List Nat) (sized : Sized s) (valid : ∀ i ∈ l, s.Valid t i) (filed : Filed s inLists)
    (none_ : ∀ t p, (s.stateLinkage t p).completed = 0) :
    Filed (l.foldl (waitOn t d) s) inLists ∧ Frame s (l.foldl (waitOn t d) s) ∧
      ∀ t' p', (l.foldl (waitOn t d) s).stateLinkage t' p' =
        if t' = t ∧ p' ∈ l then { s.stateLinkage t' p' with waitingOnOthers := true } else s.stateLinkage t' p' := by
  induction l generalizing s with
  | nil =>
    refine ⟨filed,Frame.refl s,fun t' p' => ?_⟩
    simp
  | cons i l ih =>
    have one : Filed (waitOn t d s i) inLists ∧ Frame s (waitOn t d s i) ∧ ∀ t' p', (waitOn t d s i).stateLinkage t' p' =
        if t' = t ∧ p' = i then { s.stateLinkage t' p' with waitingOnOthers := true } else s.stateLinkage t' p' := by
      have unfinished : isWorkerComplete s d i = false := by
        rw [← Bool.not_eq_true,isWorkerComplete_iff]
        exact fun finished => finished.2 (none_ _ _)
      unfold waitOn
      rw [if_neg (Bool.eq_false_iff.mp unfinished)]
      split
      case isTrue =>
        have valid' := valid i List.mem_cons_self
        have off := filed.unlink sized valid' id
        have put := (off.setLink (.inr ⟨rfl,rfl⟩) { s.stateLinkage t i with waitingOnOthers := true }).link
          sized valid' (.inr ⟨rfl,rfl⟩)
        refine ⟨put.congr fun t' p' => ?_,rfl,fun t' p' => ?_⟩
        · unfold less also inLists
          simp only [false_or,and_not_self]
        · by_cases same : t' = t ∧ p' = i
          · obtain ⟨rfl,rfl⟩ := same
            rw [if_pos ⟨rfl,rfl⟩]
            exact setLink_same _ _ _ _
          · rw [if_neg same]
            exact setLink_other _ same
      case isFalse already =>
        have waiting : (s.stateLinkage t i).waitingOnOthers = true := by simpa using already
        refine ⟨filed,Frame.refl s,fun t' p' => ?_⟩
        split
        case isTrue same =>
          obtain ⟨rfl,rfl⟩ := same
          rw [← waiting]
        case isFalse => rfl
    obtain ⟨filed',frame,links⟩ := one
    have none' : ∀ t' p', ((waitOn t d s i).stateLinkage t' p').completed = 0 := by
      intro t' p'
      rw [links]
      split
      · exact none_ t' p'
      · exact none_ t' p'
    obtain ⟨done_,rest,links'⟩ := ih (frame.sized sized)
      (fun j member => frame.valid.mpr (valid j (List.mem_cons_of_mem i member))) filed' none'
    refine ⟨done_,frame.trans rest,fun t' p' => ?_⟩
    rw [List.foldl_cons,links',links]
    by_cases here : t' = t ∧ p' = i
    · obtain ⟨rfl,rfl⟩ := here
      simp
    · rw [if_neg here]
      have members : t' = t ∧ p' ∈ i :: l ↔ t' = t ∧ p' ∈ l := by
        refine and_congr_right fun same => ?_
        rw [List.mem_cons]
        exact or_iff_right fun equal => here ⟨same,equal⟩
      simp only [members]

theorem Building.dependOn (building : Building s) (known : t < s.tasks.length) (name : List UInt8) (part : Bool) :
    Building (dependOn s t name part).1 := by
  unfold Scheduler.dependOn
  split
  · exact building
  case h_2 d found =>
    have known' := findTask_lt found
    have re := addLinks_retasked part s t d
    obtain ⟨u,isU⟩ : ∃ u, u = addLinks part s t d := ⟨_,rfl⟩
    have some_ := addLinks_some part known known'
    have wired := addLinks_wired part building.wired known known'
    rw [← isU] at re some_ wired
    have known_u : t < u.tasks.length := re.length.symm ▸ known
    have sized := re.sized building.sized
    have filed := re.filed building.filed
    have none_ : ∀ t p, (u.stateLinkage t p).completed = 0 := by
      rw [re.link]
      exact building.none_
    show Building (if _ then _ else _ : Schedule × Bool).1
    rw [← isU]
    split
    case isTrue =>
      have inside : ∀ i ∈ List.range (u.task t).numPartitions, u.Valid t i := fun i member => ⟨known_u,List.mem_range.mp member⟩
      obtain ⟨filed',frame,links⟩ := waitOn_all (d := d) _ sized inside filed none_
      refine ⟨frame.sized sized,frame.wired wired,filed',fun t' p' => ?_,fun t' p' valid' => ?_,fun t' => ?_,fun t' p' => ?_⟩
      · rw [links]
        split
        · exact none_ t' p'
        · exact none_ t' p'
      · have old := frame.valid.mp valid'
        rw [links,frame.task,some_]
        by_cases same : t' = t
        · subst same
          rw [if_pos ⟨rfl,List.mem_range.mpr old.2⟩]
          simp
        · rw [if_neg fun both => same both.1,re.link,building.waits t' p' (re.valid.mp old)]
          simp [same]
      · rw [frame.selected,re.selected]
        exact building.unselected t'
      · rw [links,re.link]
        split
        · exact building.unread t' p'
        · exact building.unread t' p'
    case isFalse already =>
      -- all links of the task have been waiting
      have first : (s.stateLinkage t 0).waitingOnOthers = true := by
        rw [re.link] at already
        simpa using already
      have depends := (building.waits t 0 (building.sized.first known)).mp first
      have unread : ∀ t p, (u.stateLinkage t p).ackTime = -1 := by
        rw [re.link]
        exact building.unread
      refine ⟨sized,wired,filed,none_,fun t' p' valid' => ?_,fun t' => (congrFun re.selected t').trans (building.unselected t'),unread⟩
      rw [re.link,some_,building.waits t' p' (re.valid.mp valid')]
      constructor
      · exact .inr
      · rintro (rfl | either)
        · exact depends
        · exact either

theorem Building.setTask (building : Building s) (f : Task → Task) (parts : ∀ k, (f k).numPartitions = k.numPartitions)
    (full : ∀ k, (f k).dependencies = k.dependencies) (partly : ∀ k, (f k).partialDependencies = k.partialDependencies)
    (reverse : ∀ k, (f k).reverseDependencies = k.reverseDependencies)
    (reversePartial : ∀ k, (f k).reversePartialDependencies = k.reversePartialDependencies) : Building (s.setTask t f) := by
  have re := Retasked.setTask s t f parts
  have lists : ∀ g : Task → List Nat, (∀ k, g (f k) = g k) → ∀ u, g ((s.setTask t f).task u) = g (s.task u) := by
    intro g same u
    rw [setTask_task]
    split
    · exact same _
    · rfl
  refine ⟨re.sized building.sized,⟨?_,?_,?_,?_⟩,re.filed building.filed,building.none_,fun t' p' valid => ?_,building.unselected,building.unread⟩
  · intro u d inside
    rw [lists Task.dependencies full] at inside
    exact re.length.symm ▸ building.wired.known u d inside
  · intro u d inside
    rw [lists Task.partialDependencies partly] at inside
    exact re.length.symm ▸ building.wired.partly u d inside
  · intro u d
    rw [lists Task.dependencies full,lists Task.reverseDependencies reverse]
    exact building.wired.mirror u d
  · intro u d
    rw [lists Task.partialDependencies partly,lists Task.reversePartialDependencies reversePartial]
    exact building.wired.mirrorPartial u d
  · rw [lists Task.dependencies full,lists Task.partialDependencies partly]
    exact building.waits t' p' (re.valid.mp valid)

theorem Building.call (building : Building s) {c : Call} (called : call s c = some s') : Building s' := by
  cases c with
  | scheduleTask name partitioned =>
    cases called
    exact building.scheduleTask name partitioned
  | dependency t dependency part =>
    rw [Scheduler.call] at called
    split at called
    case isFalse => cases called
    case isTrue known =>
      obtain ⟨r,made,rfl⟩ := Option.map_eq_some_iff.mp called
      unfold taskDependency at made
      split at made
      · cases made
      · cases made
        exact building.dependOn known dependency part
  | runEverytime t =>
    rw [Scheduler.call] at called
    split at called
    · cases called
      exact building.setTask _ (fun _ => rfl) (fun _ => rfl) (fun _ => rfl) (fun _ => rfl) fun _ => rfl
    · cases called
  | doNothing t =>
    rw [Scheduler.call] at called
    split at called
    · cases called
      exact building.setTask _ (fun _ => rfl) (fun _ => rfl) (fun _ => rfl) (fun _ => rfl) fun _ => rfl
    · cases called

theorem calls_building {n cpus : Nat} {calls : List Call} (some_ : 0 < n) (ran : Ran call (init n cpus) calls s) : Building s :=
  ran.keeps Building (init_building some_) fun _ _ _ _ building called => building.call called

end

end AnotherC.Scheduler
