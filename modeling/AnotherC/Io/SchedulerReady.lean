import AnotherC.Io.SchedulerSetup

/-!
# The schedule that the threads start with

In a settled schedule a link waits exactly when something it depends on is incomplete.
`schedule_setup` leads to one, whatever has been added before, and completing a link leads
from one to the next (`Marked.settled`).
-/
namespace AnotherC.Scheduler
open AnotherC.Lib.Events
set_option linter.unusedVariables false

/-- The waiting links are those with an incomplete dependency. -/
def Settled (s : Schedule) : Prop :=
  ∀ t p, s.Valid t p → ((s.stateLinkage t p).waitingOnOthers = true ↔ ¬ Met s t p)

/-- A link of a task that does nothing is complete, unless it waits. -/
def Quiet (s : Schedule) (t p : Nat) : Prop :=
  (s.task t).doNothing = true → (s.stateLinkage t p).waitingOnOthers = false → (s.stateLinkage t p).completed ≠ 0

/-- What `schedule_setup` leaves to the threads. -/
structure Ready (s : Schedule) : Prop where
  good : Good s inLists
  settled : Settled s
  quiet : ∀ t p, s.Valid t p → Quiet s t p
  untouched : ∀ t p, (s.task t).doNothing = false → (s.stateLinkage t p).completed = 0

section
variable {s s' : Schedule} {t p t' p' d q : Nat} {out : Nat → Nat → Prop} {time : Int}

theorem Marked.finished (marked : Marked time out s t p s') (zero : (s.stateLinkage t p).completed = 0)
    (finished : Finished s d q) : Finished s' d q := by
  have other : ¬ (d = t ∧ q = p) := by
    rintro ⟨rfl,rfl⟩
    exact finished.2 zero
  rcases marked.links d q other with same | ⟨waiting,_⟩
  · rw [Finished,same]
    exact finished
  · rw [finished.1] at waiting
    cases waiting

theorem Marked.met (marked : Marked time out s t p s') (zero : (s.stateLinkage t p).completed = 0) (met : Met s t' p') :
    Met s' t' p' :=
  met.of_finished marked.frame fun _ _ _ => marked.finished zero

theorem Marked.waited (marked : Marked time out s t p s') (waiting : (s'.stateLinkage t' p').waitingOnOthers = true) :
    s'.stateLinkage t' p' = s.stateLinkage t' p' := by
  by_cases same : t' = t ∧ p' = p
  · obtain ⟨rfl,rfl⟩ := same
    rw [marked.here] at waiting
    cases waiting
  · rcases marked.links t' p' same with same | ⟨_,_,freed⟩
    · exact same
    · rw [freed] at waiting
      cases waiting

theorem Marked.good (marked : Marked time out s t p s') (good : Good s out) : Good s' (less out t p) := by
  refine ⟨marked.frame.sized good.sized,marked.frame.wired good.wired,marked.filed,?_,?_⟩
  · intro t' p' waiting
    have same := marked.waited waiting
    rw [same] at waiting ⊢
    exact good.fresh t' p' waiting
  · intro t' p' outside
    by_contra waits
    rw [Bool.not_eq_false] at waits
    have same := marked.waited waits
    rw [same,good.aside t' p' outside.1] at waits
    cases waits

theorem Marked.settled (marked : Marked time out s t p s') (zero : (s.stateLinkage t p).completed = 0)
    (taken : (s.stateLinkage t p).waitingOnOthers = false) (settled : Settled s) : Settled s' := by
  intro t' p' valid
  have old := marked.frame.valid.mp valid
  constructor
  · intro waiting met
    have before := marked.ready t' p' old waiting met
    have same := marked.waited waiting
    rw [same] at waiting
    exact (settled t' p' old).mp waiting before
  · intro unmet
    by_contra free
    apply unmet
    rw [Bool.not_eq_true] at free
    have met : (s.stateLinkage t' p').waitingOnOthers = false → Met s' t' p' := by
      intro before
      apply marked.met zero
      by_contra unmet'
      rw [(settled t' p' old).mpr unmet'] at before
      cases before
    by_cases same : t' = t ∧ p' = p
    · obtain ⟨rfl,rfl⟩ := same
      exact met taken
    · rcases marked.links t' p' same with equal | ⟨_,met',_⟩
      · rw [equal] at free
        exact met free
      · exact met'

theorem Marked.quiet (marked : Marked time out s t p s') (some_ : time ≠ 0) (quiet : Quiet s t' p') : Quiet s' t' p' := by
  intro nothing free
  rw [marked.frame.task] at nothing
  by_cases same : t' = t ∧ p' = p
  · obtain ⟨rfl,rfl⟩ := same
    rw [marked.here]
    exact some_
  · rcases marked.links t' p' same with equal | ⟨_,_,freed⟩
    · rw [equal] at free ⊢
      exact quiet nothing free
    · rw [freed,if_pos nothing]
      exact some_

/-- `take_worker` finds a link that is available, if there is one of the kind it looks for. -/
theorem takeWorker_some {task : Option Nat} {w : Worker} (taken : takeWorker s task p = some (s',w)) :
    w = ⟨w.task,p,-1,0⟩ ∧ w.task ∈ s.state .available p ∧ s' = unlinkState s w.task p ∧ (task = none ∨ task = some w.task) := by
  unfold takeWorker at taken
  split at taken
  case h_1 t found =>
    cases taken
    have kind := List.find?_some found
    refine ⟨rfl,List.mem_of_find?_eq_some found,rfl,?_⟩
    simpa using kind
  case h_2 => cases taken

theorem takeWorker_none {task : Option Nat} (nothing : takeWorker s task p = none) :
    ∀ t ∈ s.state .available p, ¬ (task = none ∨ task = some t) := by
  unfold takeWorker at nothing
  split at nothing
  case h_1 => cases nothing
  case h_2 missing =>
    intro t member kind
    have passed := List.find?_eq_none.mp missing t member
    exact passed (by simpa using kind)

/-- A link taken out of the available ones. -/
theorem Good.taken (good : Good s out) (member : t ∈ s.state .available p) :
    Good (unlinkState s t p) (also out t p) ∧ s.Valid t p ∧ (s.stateLinkage t p).waitingOnOthers = false ∧
      (s.stateLinkage t p).completed = 0 ∧ ¬ out t p := by
  obtain ⟨valid,kind,inside⟩ := (good.filed.filed _ _ _).mp member
  obtain ⟨free,zero⟩ := rootOf_available.mp kind
  refine ⟨⟨(unlinkState_frame s t p).sized good.sized,(unlinkState_frame s t p).wired good.wired,
    good.filed.unlink good.sized valid inside,good.fresh,?_⟩,valid,free,zero,inside⟩
  rintro t' p' (outside | ⟨rfl,rfl⟩)
  · exact good.aside t' p' outside
  · exact free

theorem less_also (inside : ¬ out t p) : ∀ t' p', less (also out t p) t p t' p' ↔ out t' p' := by
  intro t' p'
  unfold less also
  constructor
  · rintro ⟨outside | same,other⟩
    · exact outside
    · exact absurd same other
  · intro outside
    refine ⟨.inl outside,?_⟩
    rintro ⟨rfl,rfl⟩
    exact inside outside

theorem Good.congr {out' : Nat → Nat → Prop} (good : Good s out) (same : ∀ t p, out t p ↔ out' t p) : Good s out' :=
  ⟨good.sized,good.wired,good.filed.congr same,good.fresh,fun t p outside => good.aside t p ((same t p).mpr outside)⟩

/-- What the loop over the tasks that do nothing keeps. -/
structure Halfway (s : Schedule) : Prop where
  good : Good s inLists
  settled : Settled s
  untouched : ∀ t p, (s.task t).doNothing = false → (s.stateLinkage t p).completed = 0

/-- The schedule at the end of a loop of `schedule_setup` over links or tasks. -/
structure Further (time : Int) (s s' : Schedule) : Prop where
  half : Halfway s'
  frame : Frame s s'
  acks : ∀ t p, (s'.stateLinkage t p).ackTime = (s.stateLinkage t p).ackTime
  stamps : ∀ t p, (s'.stateLinkage t p).completed = (s.stateLinkage t p).completed ∨ (s'.stateLinkage t p).completed = time ∨
    (s'.stateLinkage t p).completed = 0
  quiet : ∀ t p, Quiet s t p → Quiet s' t p

theorem Further.refl (half : Halfway s) : Further time s s :=
  ⟨half,Frame.refl s,fun _ _ => rfl,fun _ _ => .inl rfl,fun _ _ quiet => quiet⟩

theorem Further.trans {s'' : Schedule} (first : Further time s s') (second : Further time s' s'') : Further time s s'' where
  half := second.half
  frame := first.frame.trans second.frame
  acks t p := (second.acks t p).trans (first.acks t p)
  stamps t p := by
    rcases second.stamps t p with same | stamped
    · rw [same]
      exact first.stamps t p
    · exact .inr stamped
  quiet t p quiet := second.quiet t p (first.quiet t p quiet)

theorem settle_spec {c : Nat × Nat} (some_ : time ≠ 0) (half : Halfway s) (valid : s.Valid c.1 c.2)
    (nothing : (s.task c.1).doNothing = true) : ∃ s', settle time s c = some s' ∧ Further time s s' ∧ Quiet s' c.1 c.2 := by
  by_cases met : Met s c.1 c.2
  case neg =>
    refine ⟨s,?_,Further.refl half,?_⟩
    · rw [settle,if_neg]
      rw [isDependenciesComplete_iff]
      exact met
    · intro _ free
      rw [(half.settled c.1 c.2 valid).mpr met] at free
      cases free
  case pos =>
    have complete_ := isDependenciesComplete_iff.mpr met
    cases taking : takeWorker s (some c.1) c.2 with
    | none =>
      refine ⟨s,?_,Further.refl half,?_⟩
      · rw [settle,if_pos complete_,taking]
      · intro _ free zero
        have member : c.1 ∈ s.state .available c.2 := (half.good.filed.filed _ _ _).mpr ⟨valid,rootOf_available.mpr ⟨free,zero⟩,id⟩
        exact takeWorker_none taking c.1 member (.inr rfl)
    | some r =>
      obtain ⟨taken,w⟩ := r
      obtain ⟨shape,member,rfl,same⟩ := takeWorker_some taking
      have same : w.task = c.1 := (Option.some.inj (same.resolve_left (Option.some_ne_none _))).symm
      rw [same] at member
      obtain ⟨good,_,free,zero,inside⟩ := half.good.taken member
      obtain ⟨s',completed,marked⟩ := complete_spec some_ good ⟨valid.1,valid.2⟩ (.inr ⟨rfl,rfl⟩) zero
      have link : ∀ t p, (s'.stateLinkage t p).ackTime = (s.stateLinkage t p).ackTime ∧
          ((s'.stateLinkage t p).completed = (s.stateLinkage t p).completed ∨ (s.task t).doNothing = true ∧ (s'.stateLinkage t p).completed = time ∨
            (s'.stateLinkage t p).completed = 0) := by
        intro t p
        by_cases same' : t = c.1 ∧ p = c.2
        · obtain ⟨rfl,rfl⟩ := same'
          rw [marked.here]
          exact ⟨rfl,.inr (.inl ⟨nothing,rfl⟩)⟩
        · rcases marked.links t p same' with equal | ⟨_,_,freed⟩
          · rw [equal]
            exact ⟨rfl,.inl rfl⟩
          · rw [freed]
            refine ⟨rfl,.inr ?_⟩
            by_cases nothing' : (s.task t).doNothing = true
            · exact .inl ⟨nothing',if_pos nothing'⟩
            · exact .inr (if_neg nothing')
      have untouched : ∀ t p, (s'.task t).doNothing = false → (s'.stateLinkage t p).completed = 0 := by
        intro t p something
        rw [marked.frame.task] at something
        rcases (link t p).2 with equal | ⟨nothing',_⟩ | zero'
        · rw [equal]
          exact half.untouched t p something
        · exact absurd (something.symm.trans nothing') Bool.false_ne_true
        · exact zero'
      refine ⟨s',?_,⟨⟨(marked.good good).congr (less_also inside),marked.settled zero free half.settled,untouched⟩,marked.frame,
        fun t p => (link t p).1,fun t p => ?_,fun t p => marked.quiet some_⟩,?_⟩
      · rw [settle,if_pos complete_,taking]
        show complete (unlinkState s w.task c.2) w.task w.partition time = some s'
        rw [shape,same]
        exact completed
      · rcases (link t p).2 with equal | ⟨_,stamped⟩ | zero'
        · exact .inl equal
        · exact .inr (.inl stamped)
        · exact .inr (.inr zero')
      · intro _ _
        rw [marked.here]
        exact some_

theorem settle_all (some_ : time ≠ 0) (l : List (Nat × Nat)) (half : Halfway s) (valid : ∀ c ∈ l, s.Valid c.1 c.2)
    (nothing : ∀ c ∈ l, (s.task c.1).doNothing = true) :
    ∃ s', l.foldlM (settle time) s = some s' ∧ Further time s s' ∧ ∀ c ∈ l, Quiet s' c.1 c.2 := by
  induction l generalizing s with
  | nil => exact ⟨s,rfl,Further.refl half,fun c member => absurd member List.not_mem_nil⟩
  | cons c l ih =>
    obtain ⟨u,settled,first,here⟩ := settle_spec some_ half (valid c List.mem_cons_self) (nothing c List.mem_cons_self)
    obtain ⟨s',rest,further,all⟩ := ih first.half (fun e member => first.frame.valid.mpr (valid e (List.mem_cons_of_mem c member)))
      fun e member => (first.frame.task e.1).symm ▸ nothing e (List.mem_cons_of_mem c member)
    refine ⟨s',?_,first.trans further,?_⟩
    · rw [List.foldlM_cons,settled]
      exact rest
    · intro e member
      rcases List.mem_cons.mp member with rfl | later
      · exact further.quiet _ _ here
      · exact all e later

theorem settleTasks_all (some_ : time ≠ 0) (l : List Nat) (half : Halfway s) (known : ∀ t ∈ l, t < s.tasks.length) :
    ∃ s', l.foldlM (settleTask time) s = some s' ∧ Further time s s' ∧ ∀ t ∈ l, ∀ p < (s.task t).numPartitions, Quiet s' t p := by
  induction l generalizing s with
  | nil => exact ⟨s,rfl,Further.refl half,fun t member => absurd member List.not_mem_nil⟩
  | cons t l ih =>
    have one : ∃ u, settleTask time s t = some u ∧ Further time s u ∧ ∀ p < (s.task t).numPartitions, Quiet u t p := by
      unfold settleTask
      by_cases nothing : (s.task t).doNothing = true
      · rw [if_pos nothing]
        have valid : ∀ c ∈ linksOf s t, s.Valid c.1 c.2 := by
          intro c member
          obtain ⟨rfl,inside⟩ := mem_linksOf.mp member
          exact ⟨known _ List.mem_cons_self,inside⟩
        obtain ⟨u,settled,further,all⟩ := settle_all some_ (linksOf s t) half valid
          fun c member => (mem_linksOf.mp member).1.symm ▸ nothing
        exact ⟨u,settled,further,fun p inside => all (t,p) (mem_linksOf.mpr ⟨rfl,inside⟩)⟩
      · rw [if_neg nothing]
        refine ⟨s,rfl,Further.refl half,?_⟩
        intro p _ nothing'
        exact absurd nothing' nothing
    obtain ⟨u,settled,further,here⟩ := one
    obtain ⟨s',rest,further',all⟩ := ih further.half fun e member => further.frame.tasks.symm ▸ known e (List.mem_cons_of_mem t member)
    refine ⟨s',?_,further.trans further',?_⟩
    · rw [List.foldlM_cons,settled]
      exact rest
    · intro e member p inside
      rcases List.mem_cons.mp member with rfl | later
      · exact further'.quiet _ _ (here p inside)
      · rw [← further.frame.task] at inside
        exact all e later p inside

/-- The flags of a link while its time is read. -/
theorem getAckTimes_link (disk : Nat → Nat → Int) (s : Schedule) (t p : Nat) :
    ((getAckTimes disk s).stateLinkage t p).waitingOnOthers = (s.stateLinkage t p).waitingOnOthers ∧
      ((getAckTimes disk s).stateLinkage t p).completed = (s.stateLinkage t p).completed ∧
      ((getAckTimes disk s).stateLinkage t p).ackTime =
        if s.Valid t p ∧ (s.stateLinkage t p).ackTime = -1 then disk t p else (s.stateLinkage t p).ackTime := by
  show (ite _ _ _ : StateLink).waitingOnOthers = _ ∧ (ite _ _ _ : StateLink).completed = _ ∧ (ite _ _ _ : StateLink).ackTime = _
  split <;> exact ⟨rfl,rfl,rfl⟩

theorem getAckTimes_rootOf (disk : Nat → Nat → Int) (s : Schedule) (t p : Nat) :
    rootOf ((getAckTimes disk s).stateLinkage t p) = rootOf (s.stateLinkage t p) := by
  obtain ⟨waiting,completed,_⟩ := getAckTimes_link disk s t p
  rw [rootOf,waiting,completed,rootOf]

theorem Building.halfway (building : Building s) (disk : Nat → Nat → Int) : Halfway (getAckTimes disk s) := by
  have frame : Frame s (getAckTimes disk s) := rfl
  have none_ : ∀ t p, ((getAckTimes disk s).stateLinkage t p).completed = 0 :=
    fun t p => (getAckTimes_link disk s t p).2.1.trans (building.none_ t p)
  refine ⟨⟨frame.sized building.sized,frame.wired building.wired,?_,fun t p _ => none_ t p,fun _ _ outside => outside.elim⟩,?_,
    fun t p _ => none_ t p⟩
  · refine ⟨building.filed.nodup,fun r p t => ?_,building.filed.available,building.filed.toRun⟩
    rw [getAckTimes_rootOf]
    exact building.filed.filed r p t
  · intro t p valid
    rw [(getAckTimes_link disk s t p).1,building.waits t p (frame.valid.mp valid)]
    constructor
    · rintro (some_ | some_) met
      · obtain ⟨d,member⟩ := List.exists_mem_of_ne_nil _ some_
        have first := building.sized.first (building.wired.known t d member)
        exact (met d 0 (.inl ⟨member,first.2⟩)).2 (none_ d 0)
      · obtain ⟨d,member⟩ := List.exists_mem_of_ne_nil _ some_
        exact (met d _ (.inr ⟨member,rfl⟩)).2 (none_ d _)
    · intro unmet
      by_contra nothing
      rw [not_or,not_not,not_not] at nothing
      apply unmet
      rintro d q (⟨member,_⟩ | ⟨member,_⟩)
      · rw [frame.task,nothing.1] at member
        cases member
      · rw [frame.task,nothing.2] at member
        cases member

/-- `schedule_setup` returns a schedule that is ready, with the times of the disk. -/
theorem scheduleSetup_spec (building : Building s) (disk : Nat → Nat → Int) (some_ : time ≠ 0) :
    ∃ s', scheduleSetup disk time s = some s' ∧ Ready s' ∧ Frame s s' ∧
      (∀ t p, s.Valid t p → (s'.stateLinkage t p).ackTime = disk t p) ∧
      ∀ t p, (s'.stateLinkage t p).completed = 0 ∨ (s'.stateLinkage t p).completed = time := by
  obtain ⟨s',settled,further,all⟩ := settleTasks_all some_ (List.range (getAckTimes disk s).tasks.length) (building.halfway disk)
    fun t member => List.mem_range.mp member
  have frame : Frame s (getAckTimes disk s) := rfl
  refine ⟨s',settled,⟨further.half.good,further.half.settled,?_,further.half.untouched⟩,frame.trans further.frame,?_,?_⟩
  · intro t p valid
    have old := further.frame.valid.mp valid
    exact all t (List.mem_range.mpr old.1) p old.2
  · intro t p valid
    rw [further.acks,(getAckTimes_link disk s t p).2.2,if_pos ⟨valid,building.unread t p⟩]
  · intro t p
    rcases further.stamps t p with same | stamped | zero
    · exact .inl (same.trans ((getAckTimes_link disk s t p).2.1.trans (building.none_ t p)))
    · exact .inr stamped
    · exact .inl zero

/-- Whatever has been added in whatever order, the schedule is ready when the threads start:
    every link is in the list that its flags name, it waits exactly when something it depends
    on is incomplete, and nothing that does nothing is left to a thread. -/
theorem setup_ready {n cpus : Nat} {calls : List Call} (some_ : 0 < n) (ran : Ran call (init n cpus) calls s)
    (disk : Nat → Nat → Int) (later : time ≠ 0) : ∃ s', scheduleSetup disk time s = some s' ∧ Ready s' := by
  obtain ⟨s',settled,ready,_⟩ := scheduleSetup_spec (calls_building some_ ran) disk later
  exact ⟨s',settled,ready⟩

/-- A task of two partitions, and one that depends on it. -/
def sampleCalls : List Call := [.scheduleTask [97] true,.scheduleTask [98] false,.dependency 1 [97] false]

theorem sampleCalls_ran : Ran call (init 2 1) sampleCalls (outcome call (init 2 1) sampleCalls) :=
  ran_outcome (by decide +kernel)

theorem setup_ready_sample : ∃ s', scheduleSetup (fun _ _ => 0) 1 (outcome call (init 2 1) sampleCalls) = some s' ∧ Ready s' :=
  setup_ready (by decide) sampleCalls_ran (fun _ _ => 0) (by decide)

end

end AnotherC.Scheduler
