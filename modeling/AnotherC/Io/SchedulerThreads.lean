import AnotherC.Io.SchedulerReady
import AnotherC.Lib.Events

/-!
# The threads of the scheduler

Any number of threads take workers, run them and complete them, in any order of their steps.
The critical sections of the mutex are one step each, but for the wait for the condition: a
thread that has decided to wait still holds the mutex for a moment (`dozing`).
`mark_as_done` does not take the mutex, and can come in between.

A link is handed to a thread at most once, and only when all it depends on is complete
(`handed_once`).
-/
namespace AnotherC.Scheduler
open AnotherC.Lib.Events
set_option linter.unusedVariables false

/-! ## The code -/

/-- Where a thread is in `schedule_thread`. -/
inductive Place where
  /-- In front of `get_next_worker`. -/
  | calling
  /-- In its loop, about to wait, with the mutex. -/
  | dozing
  | asleep
  /-- Out of the wait, without the mutex. -/
  | woken
  | holding (w : Worker)
  | running (w : Worker)
  /-- In front of `worker_complete`. -/
  | ending (w : Worker) (time : Int)
  /-- In it, with the ack file written. -/
  | acked (w : Worker) (time : Int)
  /-- Behind the loop, in front of `mark_as_done`. -/
  | leaving
  | gone
deriving Repr, DecidableEq

/-- The schedule, the threads, the times of the ack files and the clock. The links handed to
    threads so far are there to be spoken of: nothing reads them. -/
structure System where
  schedule : Schedule
  places : Nat → Place
  starts : Nat → Nat
  disk : Nat → Nat → Int
  clock : Int
  handed : List (Nat × Nat)

/-- What `parse_args` reads: the tasks that `-t` names, each with its partitions, and flags. -/
structure Args where
  cpus : Nat
  force : Bool
  onlyRunSelected : Bool
  tasks : Option (List (Nat × List Bool))
deriving Repr, DecidableEq

/-- One of the tasks that `-t` names. -/
def select (s : Schedule) (entry : Nat × List Bool) : Schedule :=
  { s with
    selected := fun t => if t = entry.1 then some entry.2 else s.selected t
    numSelected := s.numSelected + entry.2.count true }

/-- `parse_args`, with what it has read. -/
def parseArgs (s : Schedule) (args : Args) : Schedule :=
  (args.tasks.getD []).foldl select
    { s with
      cpus := if args.cpus ≠ 0 then args.cpus else s.cpus
      force := args.force
      onlyRunSelected := args.onlyRunSelected
      selectAll := args.tasks.isNone
      numSelected := 0 }

/-- The threads are created. -/
def start (s : Schedule) (starts : Nat → Nat) (disk : Nat → Nat → Int) (clock : Int) : System where
  schedule := { s with numRunning := s.cpus, isDone := false }
  places := fun i => if i < s.cpus then .calling else .gone
  starts := starts
  disk := disk
  clock := clock
  handed := []

def System.move (sys : System) (i : Nat) (place : Place) : System :=
  { sys with places := fun j => if j = i then place else sys.places j }

def wake : Place → Place
  | .asleep => .woken
  | place => place

/-- `pthread_cond_broadcast`. -/
def System.broadcast (sys : System) : System := { sys with places := fun j => wake (sys.places j) }

/-- No thread has the mutex. -/
def System.free (sys : System) : Bool := (List.range sys.schedule.cpus).all fun i => sys.places i ≠ .dozing

def isWorkerSelected (s : Schedule) (t p : Nat) : Bool := ((s.selected t).bind (·[p]?)).getD false

/-- The condition of the loop in `get_next_worker`. -/
def mustWait (s : Schedule) : Bool := !s.isDone && s.numAvailable = 0 && s.numTasksToRun ≠ 0

/-- `get_next_worker` behind its loop. -/
def takeNext (s : Schedule) (first : Nat) : Option (Schedule × Worker) :=
  if s.numAvailable ≠ 0 then
    match (List.range s.numPartitions).findSome? fun p => takeWorker s none ((p + first) % s.numPartitions) with
    | some (taken,w) =>
      let taken := { taken with numRunning := taken.numRunning + 1 }
      some (taken,{ w with running := min (taken.numRunning + taken.numAvailable) taken.cpus })
    | none => none
  else none

/-- `get_next_worker` from its loop on. -/
def proceed (sys : System) (i : Nat) : System :=
  if mustWait sys.schedule then sys.move i .dozing
  else match takeNext sys.schedule (sys.starts i) with
    | some (s,w) => { sys.move i (.holding w) with schedule := s, handed := (w.task,w.partition) :: sys.handed }
    | none => sys.move i .leaving

/-- `get_ack_time_for_task_and_partition`. -/
def getAckTimeFor (s : Schedule) (t p : Nat) : Int :=
  if (s.task t).numPartitions ≤ p then 0
  else if (s.stateLinkage t p).ackTime > (s.stateLinkage t p).completed then (s.stateLinkage t p).ackTime
  else (s.stateLinkage t p).completed

/-- `worker_needs_to_run`; the times of the input files are given. -/
def workerNeedsToRun (s : Schedule) (w : Worker) (files : List Int) : Bool :=
  w.ackTime = 0 || (s.task w.task).runEverytime ||
    s.force && (s.selectAll || isWorkerSelected s w.task w.partition) ||
    (s.task w.task).dependencies.any (fun d => (List.range (s.task d).numPartitions).any fun i => getAckTimeFor s d i > w.ackTime) ||
    (s.task w.task).partialDependencies.any (fun d => getAckTimeFor s d w.partition > w.ackTime) ||
    files.any (· > w.ackTime)

def taskRunPerArgs (s : Schedule) (w : Worker) : Bool :=
  if s.onlyRunSelected then s.selectAll || isWorkerSelected s w.task w.partition
  else !(!s.selectAll && s.numSelected = 0)

/-- `get_ack_time`. -/
def getAckTime (sys : System) (w : Worker) : Int :=
  let ack := (sys.schedule.stateLinkage w.task w.partition).ackTime
  if ack = -1 then sys.disk w.task w.partition else ack

inductive Event where
  | enter (i : Nat)
  | doze (i : Nat)
  | rise (i : Nat)
  /-- A wait ends without a broadcast. -/
  | spurious (i : Nat)
  | look (i : Nat) (files : List Int)
  /-- The runner and `on_complete` return. -/
  | finish (i : Nat) (ok : Bool)
  | writeAck (i : Nat)
  | complete (i : Nat)
  | leave (i : Nat)
  | tick (now : Int)
deriving Repr, DecidableEq

/-- The part of `worker_complete` that counts the selected partitions. -/
def countSelected (s : Schedule) (w : Worker) : Schedule :=
  if isWorkerSelected s w.task w.partition then
    { s with numSelected := s.numSelected - 1, isDone := if s.numSelected - 1 = 0 then true else s.isDone }
  else s

def step (sys : System) : Event → Option System
  | .enter i =>
    if sys.free = true ∧ sys.places i = .calling then
      if sys.schedule.isDone then some (sys.move i .leaving)
      else some (proceed { sys with schedule := { sys.schedule with numRunning := sys.schedule.numRunning - 1 } } i)
    else none
  | .doze i => if sys.places i = .dozing then some (sys.move i .asleep) else none
  | .rise i => if sys.free = true ∧ sys.places i = .woken then some (proceed sys i) else none
  | .spurious i => if sys.places i = .asleep then some (sys.move i .woken) else none
  | .look i files =>
    match sys.places i with
    | .holding w =>
      let ack := getAckTime sys w
      let s := sys.schedule.setLink w.task w.partition { sys.schedule.stateLinkage w.task w.partition with ackTime := ack }
      let w := { w with ackTime := ack }
      if workerNeedsToRun s w files && taskRunPerArgs s w then some { sys.move i (.running w) with schedule := s }
      else some { sys.move i (.ending w (if ack ≠ 0 then ack else 1)) with schedule := s }
    | _ => none
  | .finish i ok =>
    match sys.places i with
    | .running w => some (sys.move i (if ok then .ending w sys.clock else .leaving))
    | _ => none
  | .writeAck i =>
    match sys.places i with
    | .ending w time =>
      some { sys.move i (.acked w time) with
        disk := if time > w.ackTime ∧ time > 1 then setAt sys.disk w.task w.partition sys.clock else sys.disk }
    | _ => none
  | .complete i =>
    match sys.places i with
    | .acked w time =>
      if sys.free then
        (complete (countSelected sys.schedule w) w.task w.partition time).map fun s =>
          let next := { sys.move i .calling with schedule := s }
          if sys.schedule.numAvailable = 0 && s.numAvailable ≠ 0 || s.isDone then next.broadcast else next
      else none
    | _ => none
  | .leave i =>
    if sys.places i = .leaving then
      if sys.schedule.isDone then some (sys.move i .gone)
      else some ({ sys.move i .gone with schedule := { sys.schedule with isDone := true } } : System).broadcast
    else none
  | .tick now => if sys.clock ≤ now then some { sys with clock := now } else none

/-! ## What is out of the lists -/

/-- The link a thread works on. -/
def key : Place → Option (Nat × Nat)
  | .holding w => some (w.task,w.partition)
  | .running w => some (w.task,w.partition)
  | .ending w _ => some (w.task,w.partition)
  | .acked w _ => some (w.task,w.partition)
  | _ => none

/-- The time a thread completes its link with. -/
def timeOf : Place → Option Int
  | .ending _ time => some time
  | .acked _ time => some time
  | _ => none

/-- The links that have been handed out and are not complete. -/
def Away (s : Schedule) (handed : List (Nat × Nat)) (t p : Nat) : Prop :=
  (t,p) ∈ handed ∧ (s.stateLinkage t p).completed = 0

/-- A schedule with these links handed out. -/
structure Sound (s : Schedule) (handed : List (Nat × Nat)) : Prop where
  good : Good s (Away s handed)
  settled : Settled s
  quiet : ∀ t p, s.Valid t p → Quiet s t p
  once : handed.Nodup
  known : ∀ c ∈ handed, s.Valid c.1 c.2 ∧ (s.task c.1).doNothing = false ∧ (s.stateLinkage c.1 c.2).waitingOnOthers = false
  covers : ∀ t p, s.Valid t p → (s.task t).doNothing = false → Finished s t p → (t,p) ∈ handed

structure Safe (sys : System) : Prop where
  sound : Sound sys.schedule sys.handed
  held : ∀ i t p, key (sys.places i) = some (t,p) → Away sys.schedule sys.handed t p
  apart : ∀ i j c, key (sys.places i) = some c → key (sys.places j) = some c → i = j
  timed : ∀ i time, timeOf (sys.places i) = some time → time ≠ 0
  clock : 0 < sys.clock

/-- The same tasks, lists and flags; the ack times and what concerns the threads may differ. -/
structure Alike (s s' : Schedule) : Prop where
  tasks : s'.tasks = s.tasks
  parts : s'.numPartitions = s.numPartitions
  state : s'.state = s.state
  available : s'.numAvailable = s.numAvailable
  toRun : s'.numTasksToRun = s.numTasksToRun
  waiting : ∀ t p, (s'.stateLinkage t p).waitingOnOthers = (s.stateLinkage t p).waitingOnOthers
  completed : ∀ t p, (s'.stateLinkage t p).completed = (s.stateLinkage t p).completed

/-- How `get_next_worker` takes a worker from a schedule. -/
structure Took (s s' : Schedule) (w : Worker) : Prop where
  available : s.numAvailable ≠ 0
  member : w.task ∈ s.state .available w.partition
  shape : s' = { unlinkState s w.task w.partition with numRunning := s.numRunning + 1 }
  share : w.running = min (s.numRunning + 1 + (unlinkState s w.task w.partition).numAvailable) s.cpus

section
variable {s s' : Schedule} {t p t' p' d q i j : Nat} {out : Nat → Nat → Prop} {time : Int} {w : Worker}
variable {handed : List (Nat × Nat)} {sys sys' : System} {e : Event}

theorem Alike.refl (s : Schedule) : Alike s s := ⟨rfl,rfl,rfl,rfl,rfl,fun _ _ => rfl,fun _ _ => rfl⟩

theorem Alike.trans {s'' : Schedule} (first : Alike s s') (second : Alike s' s'') : Alike s s'' :=
  ⟨second.tasks.trans first.tasks,second.parts.trans first.parts,second.state.trans first.state,
    second.available.trans first.available,second.toRun.trans first.toRun,
    fun t p => (second.waiting t p).trans (first.waiting t p),fun t p => (second.completed t p).trans (first.completed t p)⟩

theorem Alike.task (alike : Alike s s') (t : Nat) : s'.task t = s.task t := by
  rw [Schedule.task,alike.tasks,Schedule.task]

theorem Alike.valid (alike : Alike s s') : s'.Valid t p ↔ s.Valid t p := by
  rw [Schedule.Valid,alike.tasks,alike.task,Schedule.Valid]

theorem Alike.rootOf (alike : Alike s s') (t p : Nat) : rootOf (s'.stateLinkage t p) = rootOf (s.stateLinkage t p) := by
  rw [Scheduler.rootOf,alike.waiting,alike.completed,Scheduler.rootOf]

theorem Alike.finished (alike : Alike s s') : Finished s' t p ↔ Finished s t p := by
  rw [Finished,alike.waiting,alike.completed,Finished]

theorem Alike.needs (alike : Alike s s') : Needs s' t p d q ↔ Needs s t p d q := by
  rw [Needs,alike.task,alike.task,Needs]

theorem Alike.met (alike : Alike s s') : Met s' t p ↔ Met s t p := by
  unfold Met
  simp only [alike.needs,alike.finished]

theorem Alike.away (alike : Alike s s') : Away s' handed t p ↔ Away s handed t p := by
  rw [Away,alike.completed,Away]

theorem Alike.good (alike : Alike s s') (good : Good s out) : Good s' out := by
  have shelf_ : ∀ r, shelf s' r = shelf s r := fun r => by rw [shelf,alike.parts,alike.state,shelf]
  refine ⟨⟨alike.parts ▸ good.sized.1,fun t known => ?_⟩,⟨fun t => ?_,fun t => ?_,fun t d => ?_,fun t d => ?_⟩,
    ⟨alike.state ▸ good.filed.nodup,fun r p t => ?_,?_,?_⟩,fun t p => ?_,fun t p => ?_⟩
  · rw [alike.task,alike.parts]
    exact good.sized.2 t (alike.tasks ▸ known)
  · rw [alike.task,alike.tasks]
    exact good.wired.known t
  · rw [alike.task,alike.tasks]
    exact good.wired.partly t
  · rw [alike.task,alike.task]
    exact good.wired.mirror t d
  · rw [alike.task,alike.task]
    exact good.wired.mirrorPartial t d
  · rw [alike.state,alike.valid,alike.rootOf]
    exact good.filed.filed r p t
  · rw [alike.available,shelf_]
    exact good.filed.available
  · rw [alike.toRun,shelf_]
    exact good.filed.toRun
  · rw [alike.waiting,alike.completed]
    exact good.fresh t p
  · rw [alike.waiting]
    exact good.aside t p

theorem Alike.sound (alike : Alike s s') (sound : Sound s handed) : Sound s' handed := by
  refine ⟨?_,fun t p valid => ?_,fun t p valid => ?_,sound.once,fun c member => ?_,fun t p valid => ?_⟩
  · exact (alike.good sound.good).congr fun t p => alike.away.symm
  · rw [alike.waiting,alike.met]
    exact sound.settled t p (alike.valid.mp valid)
  · rw [Quiet,alike.task,alike.waiting,alike.completed]
    exact sound.quiet t p (alike.valid.mp valid)
  · rw [alike.valid,alike.task,alike.waiting]
    exact sound.known c member
  · rw [alike.task,alike.finished]
    exact sound.covers t p (alike.valid.mp valid)

theorem setAck_alike (s : Schedule) (t p : Nat) (ack : Int) : Alike s (s.setLink t p { s.stateLinkage t p with ackTime := ack }) := by
  have flags : ∀ t' p', ((s.setLink t p { s.stateLinkage t p with ackTime := ack }).stateLinkage t' p').waitingOnOthers =
        (s.stateLinkage t' p').waitingOnOthers ∧
      ((s.setLink t p { s.stateLinkage t p with ackTime := ack }).stateLinkage t' p').completed = (s.stateLinkage t' p').completed := by
    intro t' p'
    by_cases same : t' = t ∧ p' = p
    · obtain ⟨rfl,rfl⟩ := same
      rw [setLink_same]
      exact ⟨rfl,rfl⟩
    · rw [setLink_other _ same]
      exact ⟨rfl,rfl⟩
  exact ⟨rfl,rfl,rfl,rfl,rfl,fun t' p' => (flags t' p').1,fun t' p' => (flags t' p').2⟩

theorem countSelected_alike (s : Schedule) (w : Worker) : Alike s (countSelected s w) := by
  unfold countSelected
  split <;> exact ⟨rfl,rfl,rfl,rfl,rfl,fun _ _ => rfl,fun _ _ => rfl⟩

theorem takeNext_took {first : Nat} (taken : takeNext s first = some (s',w)) : Took s s' w := by
  unfold takeNext at taken
  split at taken
  case isFalse => cases taken
  case isTrue some_ =>
    split at taken
    case h_2 => cases taken
    case h_1 found =>
      obtain ⟨p,_,took⟩ := List.exists_of_findSome?_eq_some found
      obtain ⟨shape,member,rfl,_⟩ := takeWorker_some took
      cases taken
      rw [shape]
      exact ⟨some_,member,rfl,rfl⟩

theorem Took.alike (took : Took s s' w) : Alike (unlinkState s w.task w.partition) s' := by
  rw [took.shape]
  exact ⟨rfl,rfl,rfl,rfl,rfl,fun _ _ => rfl,fun _ _ => rfl⟩

theorem takeNext_none {first : Nat} (sized : Sized s) (filed : Filed s out) (nothing : takeNext s first = none) :
    s.numAvailable = 0 := by
  unfold takeNext at nothing
  split at nothing
  case isFalse zero => exact not_not.mp zero
  case isTrue some_ =>
    split at nothing
    case h_1 => cases nothing
    case h_2 missing =>
      exfalso
      obtain ⟨t,p,valid,kind,inside⟩ := (available_pos sized filed).mp (Nat.pos_of_ne_zero some_)
      have member : t ∈ s.state .available p := (filed.filed _ _ _).mpr ⟨valid,rootOf_available.mpr kind,inside⟩
      have below := sized.inside valid
      -- the partition is met on the way around
      have around : ((p + (s.numPartitions - first % s.numPartitions)) % s.numPartitions + first) % s.numPartitions = p := by
        have small : first % s.numPartitions < s.numPartitions := Nat.mod_lt _ sized.1
        rw [Nat.add_mod,Nat.mod_mod,← Nat.add_mod]
        have split_ := Nat.mod_add_div first s.numPartitions
        have sum : p + (s.numPartitions - first % s.numPartitions) + first = p + s.numPartitions * (first / s.numPartitions + 1) := by
          rw [Nat.mul_add]
          omega
        rw [sum,Nat.add_mul_mod_self_left,Nat.mod_eq_of_lt below]
      have visited : (p + (s.numPartitions - first % s.numPartitions)) % s.numPartitions ∈ List.range s.numPartitions :=
        List.mem_range.mpr (Nat.mod_lt _ sized.1)
      have passed := List.findSome?_eq_none_iff.mp missing _ visited
      rw [around] at passed
      exact takeWorker_none passed t member (.inl rfl)

theorem Sound.taken (sound : Sound s handed) (member : t ∈ s.state .available p) :
    Sound (unlinkState s t p) ((t,p) :: handed) ∧ (t,p) ∉ handed ∧ (s.stateLinkage t p).completed = 0 := by
  obtain ⟨good,valid,free,zero,inside⟩ := sound.good.taken member
  have new : (t,p) ∉ handed := fun old => inside ⟨old,zero⟩
  have finished : ∀ t' p', Finished (unlinkState s t p) t' p' ↔ Finished s t' p' := fun _ _ => Iff.rfl
  refine ⟨⟨good.congr fun t' p' => ?_,sound.settled,sound.quiet,List.nodup_cons.mpr ⟨new,sound.once⟩,?_,?_⟩,new,zero⟩
  · show also (Away s handed) t p t' p' ↔ (t',p') ∈ (t,p) :: handed ∧ (s.stateLinkage t' p').completed = 0
    unfold also Away
    rw [List.mem_cons,Prod.mk.injEq]
    constructor
    · rintro (⟨old,zero'⟩ | ⟨rfl,rfl⟩)
      · exact ⟨.inr old,zero'⟩
      · exact ⟨.inl ⟨rfl,rfl⟩,zero⟩
    · rintro ⟨⟨rfl,rfl⟩ | old,zero'⟩
      · exact .inr ⟨rfl,rfl⟩
      · exact .inl ⟨old,zero'⟩
  · intro c inside
    rcases List.mem_cons.mp inside with rfl | old
    · refine ⟨valid,?_,free⟩
      by_contra nothing
      exact sound.quiet t p valid (Bool.not_eq_false _ ▸ nothing) free zero
    · exact sound.known c old
  · intro t' p' valid' something done_
    exact List.mem_cons_of_mem _ (sound.covers t' p' valid' something done_)

theorem Sound.completed (sound : Sound s handed) (away : Away s handed t p) (some_ : time ≠ 0) :
    ∃ s', complete s t p time = some s' ∧ Marked time (Away s handed) s t p s' ∧ Sound s' handed := by
  obtain ⟨valid,something,free⟩ := sound.known _ away.1
  obtain ⟨s',completed,marked⟩ := complete_spec some_ sound.good valid away away.2
  refine ⟨s',completed,marked,?_⟩
  have link : ∀ t' p', (t',p') ∈ handed → ¬ (t' = t ∧ p' = p) → s'.stateLinkage t' p' = s.stateLinkage t' p' := by
    intro t' p' member other
    rcases marked.links t' p' other with same | ⟨waiting,_⟩
    · exact same
    · rw [(sound.known _ member).2.2] at waiting
      cases waiting
  refine ⟨(marked.good sound.good).congr fun t' p' => ?_,marked.settled away.2 free sound.settled,?_,sound.once,?_,?_⟩
  · unfold less Away
    by_cases same : t' = t ∧ p' = p
    · obtain ⟨rfl,rfl⟩ := same
      rw [marked.here]
      constructor
      · intro both
        exact absurd ⟨rfl,rfl⟩ both.2
      · intro both
        exact absurd both.2 some_
    · constructor
      · rintro ⟨⟨member,zero⟩,_⟩
        rw [link t' p' member same]
        exact ⟨member,zero⟩
      · rintro ⟨member,zero⟩
        rw [link t' p' member same] at zero
        exact ⟨⟨member,zero⟩,same⟩
  · intro t' p' valid'
    exact marked.quiet some_ (sound.quiet t' p' (marked.frame.valid.mp valid'))
  · intro c member
    obtain ⟨valid',something',free'⟩ := sound.known c member
    refine ⟨marked.frame.valid.mpr valid',(marked.frame.task c.1).symm ▸ something',?_⟩
    by_cases same : c.1 = t ∧ c.2 = p
    · rw [same.1,same.2,marked.here]
    · rw [link c.1 c.2 member same]
      exact free'
  · intro t' p' valid' something' done_
    rw [marked.frame.task] at something'
    by_cases same : t' = t ∧ p' = p
    · obtain ⟨rfl,rfl⟩ := same
      exact away.1
    · rcases marked.links t' p' same with equal | ⟨_,_,freed⟩
      · rw [Finished,equal] at done_
        exact sound.covers t' p' (marked.frame.valid.mp valid') something' done_
      · rw [Finished,freed,something'] at done_
        exact absurd rfl done_.2

/-! ## What a step does -/

/-- The system that a thread enters the loop of `get_next_worker` in. -/
def entering (sys : System) : System :=
  { sys with schedule := { sys.schedule with numRunning := sys.schedule.numRunning - 1 } }

/-- The schedule behind `get_ack_time`. -/
def looking (sys : System) (w : Worker) : Schedule :=
  sys.schedule.setLink w.task w.partition { sys.schedule.stateLinkage w.task w.partition with ackTime := getAckTime sys w }

/-- Where a thread is once it knows whether to run its worker. -/
def decision (sys : System) (w : Worker) (files : List Int) : Place :=
  let ready := { w with ackTime := getAckTime sys w }
  if workerNeedsToRun (looking sys w) ready files && taskRunPerArgs (looking sys w) ready then .running ready
  else .ending ready (if getAckTime sys w ≠ 0 then getAckTime sys w else 1)

/-- The end of `worker_complete`. -/
def completing (sys : System) (i : Nat) (s : Schedule) : System :=
  let next := { sys.move i .calling with schedule := s }
  if sys.schedule.numAvailable = 0 && s.numAvailable ≠ 0 || s.isDone then next.broadcast else next

inductive Moves (sys : System) : Event → System → Prop where
  | turnedAway {i : Nat} (free : sys.free = true) (place : sys.places i = .calling) (ended : sys.schedule.isDone = true) :
      Moves sys (.enter i) (sys.move i .leaving)
  | entered {i : Nat} (free : sys.free = true) (place : sys.places i = .calling) (ongoing : sys.schedule.isDone = false) :
      Moves sys (.enter i) (proceed (entering sys) i)
  | dozed {i : Nat} (place : sys.places i = .dozing) : Moves sys (.doze i) (sys.move i .asleep)
  | rose {i : Nat} (free : sys.free = true) (place : sys.places i = .woken) : Moves sys (.rise i) (proceed sys i)
  | stirred {i : Nat} (place : sys.places i = .asleep) : Moves sys (.spurious i) (sys.move i .woken)
  | looked {i : Nat} {w : Worker} (files : List Int) (place : sys.places i = .holding w) :
      Moves sys (.look i files) { sys.move i (decision sys w files) with schedule := looking sys w }
  | finished {i : Nat} {w : Worker} (place : sys.places i = .running w) :
      Moves sys (.finish i true) (sys.move i (.ending w sys.clock))
  | failed {i : Nat} {w : Worker} (place : sys.places i = .running w) : Moves sys (.finish i false) (sys.move i .leaving)
  | wrote {i : Nat} {w : Worker} {time : Int} (place : sys.places i = .ending w time) :
      Moves sys (.writeAck i) { sys.move i (.acked w time) with
        disk := if time > w.ackTime ∧ time > 1 then setAt sys.disk w.task w.partition sys.clock else sys.disk }
  | completed {i : Nat} {w : Worker} {time : Int} {s : Schedule} (place : sys.places i = .acked w time) (free : sys.free = true)
      (marked : complete (countSelected sys.schedule w) w.task w.partition time = some s) :
      Moves sys (.complete i) (completing sys i s)
  | left {i : Nat} (place : sys.places i = .leaving) (ended : sys.schedule.isDone = true) :
      Moves sys (.leave i) (sys.move i .gone)
  | leftFirst {i : Nat} (place : sys.places i = .leaving) (ongoing : sys.schedule.isDone = false) :
      Moves sys (.leave i) ({ sys.move i .gone with schedule := { sys.schedule with isDone := true } } : System).broadcast
  | ticked {now : Int} (later : sys.clock ≤ now) : Moves sys (.tick now) { sys with clock := now }

theorem step_moves (stepped : step sys e = some sys') : Moves sys e sys' := by
  cases e with
  | enter i =>
    rw [step] at stepped
    split at stepped
    case isFalse => cases stepped
    case isTrue both =>
      split at stepped
      case isTrue ended =>
        cases stepped
        exact .turnedAway both.1 both.2 ended
      case isFalse ongoing =>
        cases stepped
        exact .entered both.1 both.2 (Bool.not_eq_true _ ▸ ongoing)
  | doze i =>
    rw [step] at stepped
    split at stepped
    case isFalse => cases stepped
    case isTrue place =>
      cases stepped
      exact .dozed place
  | rise i =>
    rw [step] at stepped
    split at stepped
    case isFalse => cases stepped
    case isTrue both =>
      cases stepped
      exact .rose both.1 both.2
  | spurious i =>
    rw [step] at stepped
    split at stepped
    case isFalse => cases stepped
    case isTrue place =>
      cases stepped
      exact .stirred place
  | look i files =>
    rw [step] at stepped
    split at stepped
    case h_2 => cases stepped
    case h_1 w place =>
      have moves := Moves.looked files place
      unfold decision at moves
      dsimp only at stepped moves
      split at stepped
      case isTrue runs =>
        cases stepped
        have runs' : (workerNeedsToRun (looking sys w) { w with ackTime := getAckTime sys w } files &&
          taskRunPerArgs (looking sys w) { w with ackTime := getAckTime sys w }) = true := runs
        rw [if_pos runs'] at moves
        exact moves
      case isFalse rests =>
        cases stepped
        have rests' : ¬ (workerNeedsToRun (looking sys w) { w with ackTime := getAckTime sys w } files &&
          taskRunPerArgs (looking sys w) { w with ackTime := getAckTime sys w }) = true := rests
        rw [if_neg rests'] at moves
        exact moves
  | finish i ok =>
    rw [step] at stepped
    split at stepped
    case h_2 => cases stepped
    case h_1 w place =>
      cases ok with
      | true =>
        cases stepped
        exact .finished place
      | false =>
        cases stepped
        exact .failed place
  | writeAck i =>
    rw [step] at stepped
    split at stepped
    case h_2 => cases stepped
    case h_1 w time place =>
      cases stepped
      exact .wrote place
  | complete i =>
    rw [step] at stepped
    split at stepped
    case h_2 => cases stepped
    case h_1 w time place =>
      split at stepped
      case isFalse => cases stepped
      case isTrue free =>
        obtain ⟨s,marked,rfl⟩ := Option.map_eq_some_iff.mp stepped
        exact .completed place free marked
  | leave i =>
    rw [step] at stepped
    split at stepped
    case isFalse => cases stepped
    case isTrue place =>
      split at stepped
      case isTrue ended =>
        cases stepped
        exact .left place ended
      case isFalse ongoing =>
        cases stepped
        exact .leftFirst place (Bool.not_eq_true _ ▸ ongoing)
  | tick now =>
    rw [step] at stepped
    split at stepped
    case isFalse => cases stepped
    case isTrue later =>
      cases stepped
      exact .ticked later

/-- The three ways through the end of `get_next_worker`. -/
inductive Proceeds (sys : System) (i : Nat) : System → Prop where
  | waits (must : mustWait sys.schedule = true) : Proceeds sys i (sys.move i .dozing)
  | takes {s : Schedule} {w : Worker} (must : mustWait sys.schedule = false) (taken : takeNext sys.schedule (sys.starts i) = some (s,w)) :
      Proceeds sys i { sys.move i (.holding w) with schedule := s, handed := (w.task,w.partition) :: sys.handed }
  | leaves (must : mustWait sys.schedule = false) (nothing : takeNext sys.schedule (sys.starts i) = none) :
      Proceeds sys i (sys.move i .leaving)

theorem proceed_cases (sys : System) (i : Nat) : Proceeds sys i (proceed sys i) := by
  unfold proceed
  split
  case isTrue must => exact .waits must
  case isFalse free =>
    rw [Bool.not_eq_true] at free
    split
    case h_1 s w taken => exact .takes free taken
    case h_2 nothing => exact .leaves free nothing

/-! ## Safety -/

theorem move_places (sys : System) (i : Nat) (place : Place) (j : Nat) :
    (sys.move i place).places j = if j = i then place else sys.places j := rfl

theorem wake_key (place : Place) : key (wake place) = key place := by
  cases place <;> rfl

theorem wake_timeOf (place : Place) : timeOf (wake place) = timeOf place := by
  cases place <;> rfl

/-- Steps after which no link is handed out, taken or complete that was not before. -/
theorem Safe.shift (safe : Safe sys) (alike : Alike sys.schedule sys'.schedule) (same : sys'.handed = sys.handed)
    (keys : ∀ j c, key (sys'.places j) = some c → key (sys.places j) = some c)
    (times : ∀ j time, timeOf (sys'.places j) = some time → timeOf (sys.places j) = some time ∨ time ≠ 0)
    (clock : sys.clock ≤ sys'.clock) : Safe sys' where
  sound := same ▸ alike.sound safe.sound
  held j t p has := by
    rw [same]
    exact alike.away.mpr (safe.held j t p (keys j _ has))
  apart j k c has has' := safe.apart j k c (keys j c has) (keys k c has')
  timed j time has := (times j time has).elim (safe.timed j time) id
  clock := lt_of_lt_of_le safe.clock clock

/-- A thread goes to another place with the link it has, or without. -/
theorem Safe.moved (safe : Safe sys) {place : Place} (keys : ∀ c, key place = some c → key (sys.places i) = some c)
    (times : ∀ time, timeOf place = some time → timeOf (sys.places i) = some time ∨ time ≠ 0)
    (alike : Alike sys.schedule sys'.schedule) (places : sys'.places = (sys.move i place).places) (same : sys'.handed = sys.handed)
    (clock : sys'.clock = sys.clock) : Safe sys' := by
  refine safe.shift alike same (fun j c has => ?_) (fun j time has => ?_) (le_of_eq clock.symm)
  · rw [places,move_places] at has
    split at has
    case isTrue here => exact here ▸ keys c has
    case isFalse => exact has
  · rw [places,move_places] at has
    split at has
    case isTrue here => exact here ▸ times time has
    case isFalse => exact .inl has

theorem Safe.broadcast (safe : Safe sys) : Safe sys.broadcast := by
  refine safe.shift (Alike.refl _) rfl (fun j c has => ?_) (fun j time has => ?_) le_rfl
  · exact (wake_key _).symm.trans has
  · exact .inl ((wake_timeOf _).symm.trans has)

theorem Safe.proceed (safe : Safe sys) (empty : key (sys.places i) = none) : Safe (proceed sys i) := by
  have after := proceed_cases sys i
  generalize Scheduler.proceed sys i = next at after ⊢
  cases after with
  | waits must => exact safe.moved (fun c has => by cases has) (fun time has => by cases has) (Alike.refl _) rfl rfl rfl
  | leaves must nothing => exact safe.moved (fun c has => by cases has) (fun time has => by cases has) (Alike.refl _) rfl rfl rfl
  | takes must taken =>
    have member := (takeNext_took taken).member
    have alike := (takeNext_took taken).alike
    obtain ⟨sound,new,zero⟩ := safe.sound.taken member
    have others : ∀ j c, j ≠ i → key (sys.places j) = some c → c ∈ sys.handed := fun j c _ has => (safe.held j c.1 c.2 has).1
    refine ⟨alike.sound sound,fun j t p has => ?_,fun j k c has has' => ?_,fun j time has => ?_,safe.clock⟩
    · apply alike.away.mpr
      change key (if j = i then _ else _) = some (t,p) at has
      split at has
      case isTrue here =>
        cases has
        exact ⟨List.mem_cons_self,zero⟩
      case isFalse other =>
        obtain ⟨inside,zero'⟩ := safe.held j t p has
        exact ⟨List.mem_cons_of_mem _ inside,zero'⟩
    · change key (if j = i then _ else _) = some c at has
      change key (if k = i then _ else _) = some c at has'
      split at has <;> split at has'
      case isTrue.isTrue here here' => rw [here,here']
      case isTrue.isFalse here other =>
        cases has
        exact absurd (others k _ other has') new
      case isFalse.isTrue other here =>
        cases has'
        exact absurd (others j _ other has) new
      case isFalse.isFalse => exact safe.apart j k c has has'
    · change timeOf (if j = i then _ else _) = some time at has
      split at has
      case isTrue => cases has
      case isFalse => exact safe.timed j time has

theorem decision_key (sys : System) (w : Worker) (files : List Int) : key (decision sys w files) = some (w.task,w.partition) := by
  unfold decision
  dsimp only
  split <;> rfl

theorem decision_timeOf (files : List Int) (has : timeOf (decision sys w files) = some time) : time ≠ 0 := by
  unfold decision at has
  dsimp only at has
  split at has
  case isTrue => cases has
  case isFalse =>
    cases has
    split
    case isTrue some_ => exact some_
    case isFalse => exact one_ne_zero

theorem Safe.completed (safe : Safe sys) (place : sys.places i = .acked w time)
    (marked : complete (countSelected sys.schedule w) w.task w.partition time = some s) : Safe (completing sys i s) := by
  have alike := countSelected_alike sys.schedule w
  have away := alike.away.mpr (safe.held i w.task w.partition (by rw [place]; rfl))
  have some_ := safe.timed i time (by rw [place]; rfl)
  obtain ⟨s',completed,spec,sound⟩ := (alike.sound safe.sound).completed away some_
  cases completed.symm.trans marked
  have next : Safe { sys.move i .calling with schedule := s } := by
    refine ⟨sound,fun j t p has => ?_,fun j k c has has' => ?_,fun j later has => ?_,safe.clock⟩
    · change key (if j = i then _ else _) = some (t,p) at has
      split at has
      case isTrue => cases has
      case isFalse other =>
        obtain ⟨inside,zero⟩ := safe.held j t p has
        -- the link of another thread is another link
        have apart : ¬ (t = w.task ∧ p = w.partition) := by
          rintro ⟨rfl,rfl⟩
          exact other (safe.apart j i _ has (by rw [place]; rfl))
        refine ⟨inside,?_⟩
        rcases spec.links t p apart with same | ⟨waiting,_⟩
        · rw [same,alike.completed]
          exact zero
        · rw [alike.waiting,(safe.sound.known _ inside).2.2] at waiting
          cases waiting
    · change key (if j = i then _ else _) = some c at has
      change key (if k = i then _ else _) = some c at has'
      split at has <;> split at has'
      case isTrue.isTrue => cases has
      case isTrue.isFalse => cases has
      case isFalse.isTrue => cases has'
      case isFalse.isFalse => exact safe.apart j k c has has'
    · change timeOf (if j = i then _ else _) = some later at has
      split at has
      case isTrue => cases has
      case isFalse => exact safe.timed j later has
  unfold completing
  dsimp only
  split
  · exact next.broadcast
  · exact next

theorem Safe.step (safe : Safe sys) (stepped : step sys e = some sys') : Safe sys' := by
  have moves := step_moves stepped
  cases moves with
  | turnedAway free place ended =>
    exact safe.moved (fun c has => by cases has) (fun time has => by cases has) (Alike.refl _) rfl rfl rfl
  | @entered i free place ongoing =>
    have inside : Safe (entering sys) := by
      refine safe.shift ⟨rfl,rfl,rfl,rfl,rfl,fun _ _ => rfl,fun _ _ => rfl⟩ rfl (fun j c has => has) (fun j time has => .inl has) le_rfl
    exact inside.proceed (by show key (sys.places i) = none; rw [place]; rfl)
  | dozed place => exact safe.moved (fun c has => by cases has) (fun time has => by cases has) (Alike.refl _) rfl rfl rfl
  | rose free place => exact safe.proceed (by rw [place]; rfl)
  | stirred place => exact safe.moved (fun c has => by cases has) (fun time has => by cases has) (Alike.refl _) rfl rfl rfl
  | @looked i w files place =>
    refine safe.moved (fun c has => ?_) (fun time has => .inr (decision_timeOf files has)) (setAck_alike _ _ _ _) rfl rfl rfl
    rw [decision_key] at has
    rw [place]
    exact has
  | @finished i w place =>
    refine safe.moved (fun c has => ?_) (fun time has => ?_) (Alike.refl _) rfl rfl rfl
    · rw [place]
      exact has
    · cases has
      exact .inr (ne_of_gt safe.clock)
  | failed place => exact safe.moved (fun c has => by cases has) (fun time has => by cases has) (Alike.refl _) rfl rfl rfl
  | @wrote i w time place =>
    refine safe.moved (fun c has => ?_) (fun time has => ?_) (Alike.refl _) rfl rfl rfl
    · rw [place]
      exact has
    · rw [place]
      exact .inl has
  | completed place free marked => exact safe.completed place marked
  | left place ended => exact safe.moved (fun c has => by cases has) (fun time has => by cases has) (Alike.refl _) rfl rfl rfl
  | @leftFirst i place ongoing =>
    apply Safe.broadcast
    exact safe.moved (fun c has => by cases has) (fun time has => by cases has)
      ⟨rfl,rfl,rfl,rfl,rfl,fun _ _ => rfl,fun _ _ => rfl⟩ rfl rfl rfl
  | ticked later => exact safe.shift (Alike.refl _) rfl (fun j c has => has) (fun j time has => .inl has) later

end

end AnotherC.Scheduler
