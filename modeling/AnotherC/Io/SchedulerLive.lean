import AnotherC.Io.SchedulerRuns
import Mathlib.Data.Finset.Card
import Mathlib.Data.Finset.Prod

/-!
# Nothing is left behind

In the runs in which no runner fails: a thread sleeps only while nothing is available and
others will wake it (`Awake`). So where the dependencies have no cycle, some thread can
always go on until all are gone (`no_deadlock`), and then every link has completed, or every
selected one (`run_completes`).
-/
namespace AnotherC.Scheduler
open AnotherC.Lib.Events
set_option linter.unusedVariables false

instance (s : Schedule) (t p : Nat) : Decidable (Finished s t p) := inferInstanceAs (Decidable (_ ∧ _))

/-- The selected links that have not completed. -/
def due (s : Schedule) : Finset (Nat × Nat) :=
  (Finset.range s.tasks.length ×ˢ Finset.range s.numPartitions).filter fun c =>
    s.Valid c.1 c.2 ∧ isWorkerSelected s c.1 c.2 = true ∧ ¬ Finished s c.1 c.2

/-- Something is selected, and all that is has completed. -/
def SelectedDone (s : Schedule) : Prop :=
  (∃ t p, s.Valid t p ∧ isWorkerSelected s t p = true) ∧
    ∀ t p, s.Valid t p → isWorkerSelected s t p = true → Finished s t p

/-- A thread that will take a step without waiting for another. -/
def Stirs (place : Place) : Prop := place = .calling ∨ place = .woken ∨ place = .leaving

def Out (place : Place) : Prop := place = .leaving ∨ place = .gone

/-- Nothing is available and nothing waits. -/
def Empty (s : Schedule) : Prop := s.numAvailable = 0 ∧ s.numTasksToRun = 0

/-- What holds as long as no runner fails. -/
structure Awake (sys : System) : Prop where
  kept : ∀ t p, Away sys.schedule sys.handed t p → ∃ i, key (sys.places i) = some (t,p)
  doze : ∀ i, sys.places i = .dozing → mustWait sys.schedule = true
  sleep : ∀ i, sys.places i = .asleep → sys.schedule.isDone = false ∧ sys.schedule.numAvailable = 0
  stirs : ∀ i, sys.places i = .asleep → sys.schedule.numTasksToRun ≠ 0 ∨ ∃ j, Stirs (sys.places j)
  out : ∀ i < sys.schedule.cpus, Out (sys.places i) → sys.schedule.isDone = true ∨ Empty sys.schedule
  outside : ∀ i, sys.schedule.cpus ≤ i → sys.places i = .gone
  why : sys.schedule.isDone = true → Empty sys.schedule ∨ SelectedDone sys.schedule
  counted : (due sys.schedule).card ≤ sys.schedule.numSelected

section
variable {s s' : Schedule} {t p t' p' d q i j : Nat} {out : Nat → Nat → Prop} {time : Int} {w : Worker}
variable {handed : List (Nat × Nat)} {sys sys' : System} {e : Event} {es : List Event}

theorem mem_due (sized : Sized s) {c : Nat × Nat} :
    c ∈ due s ↔ s.Valid c.1 c.2 ∧ isWorkerSelected s c.1 c.2 = true ∧ ¬ Finished s c.1 c.2 := by
  rw [due,Finset.mem_filter]
  refine and_iff_right_of_imp fun both => ?_
  rw [Finset.mem_product,Finset.mem_range,Finset.mem_range]
  exact ⟨both.1.1,sized.inside both.1⟩

theorem mustWait_iff : mustWait s = true ↔ s.isDone = false ∧ s.numAvailable = 0 ∧ s.numTasksToRun ≠ 0 := by
  simp [mustWait,and_assoc]

theorem free_iff : sys.free = true ↔ ∀ i < sys.schedule.cpus, sys.places i ≠ .dozing := by
  simp [System.free]

/-- Where the mutex is free no thread holds it. -/
theorem Awake.none_dozes (awake : Awake sys) (free : sys.free = true) (i : Nat) : sys.places i ≠ .dozing := by
  by_cases inside : i < sys.schedule.cpus
  · exact free_iff.mp free i inside
  · rw [awake.outside i (Nat.le_of_not_lt inside)]
    intro same
    cases same

theorem isWorkerSelected_congr (same : s'.selected = s.selected) (t p : Nat) : isWorkerSelected s' t p = isWorkerSelected s t p := by
  rw [isWorkerSelected,same,isWorkerSelected]

/-- Schedules that differ in ack times and numbers of threads only. -/
structure Level (s s' : Schedule) : Prop where
  alike : Alike s s'
  fixed : Fixed s s'
  isDone : s'.isDone = s.isDone
  numSelected : s'.numSelected = s.numSelected

theorem Level.refl (s : Schedule) : Level s s := ⟨Alike.refl s,Fixed.refl s,rfl,rfl⟩

theorem Level.empty (level : Level s s') : Empty s' ↔ Empty s := by
  rw [Empty,level.alike.available,level.alike.toRun,Empty]

theorem Level.mustWait (level : Level s s') : mustWait s' = mustWait s := by
  rw [Scheduler.mustWait,level.isDone,level.alike.available,level.alike.toRun,Scheduler.mustWait]

theorem Level.selectedDone (level : Level s s') : SelectedDone s' ↔ SelectedDone s := by
  unfold SelectedDone
  simp only [level.alike.valid,level.alike.finished,isWorkerSelected_congr level.fixed.selected]

theorem Level.due (level : Level s s') : due s' = due s := by
  unfold Scheduler.due
  simp only [level.alike.valid,level.alike.finished,isWorkerSelected_congr level.fixed.selected,level.alike.tasks,level.alike.parts]

/-- Steps that leave the lists alone and put nobody to sleep, on the mutex or out. -/
theorem Awake.shift (awake : Awake sys) (level : Level sys.schedule sys'.schedule) (same : sys'.handed = sys.handed)
    (keys : ∀ j c, key (sys.places j) = some c → key (sys'.places j) = some c)
    (doze : ∀ j, sys'.places j = .dozing → sys.places j = .dozing) (sleep : ∀ j, sys'.places j = .asleep → sys.places j = .asleep)
    (stirs : ∀ j, Stirs (sys.places j) → Stirs (sys'.places j)) (out : ∀ j, Out (sys'.places j) → Out (sys.places j))
    (outside : ∀ j, sys.places j = .gone → sys'.places j = .gone) : Awake sys' where
  kept t p away := by
    rw [same] at away
    obtain ⟨i,has⟩ := awake.kept t p (level.alike.away.mp away)
    exact ⟨i,keys i _ has⟩
  doze i dozes := level.mustWait.trans (awake.doze i (doze i dozes))
  sleep i sleeps := by
    rw [level.isDone,level.alike.available]
    exact awake.sleep i (sleep i sleeps)
  stirs i sleeps := by
    rw [level.alike.toRun]
    rcases awake.stirs i (sleep i sleeps) with some_ | ⟨j,stirring⟩
    · exact .inl some_
    · exact .inr ⟨j,stirs j stirring⟩
  out i inside away := by
    rw [level.isDone,level.empty]
    exact awake.out i (level.fixed.cpus ▸ inside) (out i away)
  outside i beyond := outside i (awake.outside i (level.fixed.cpus ▸ beyond))
  why ended := by
    rw [level.empty,level.selectedDone]
    exact awake.why (level.isDone ▸ ended)
  counted := by
    rw [level.due,level.numSelected]
    exact awake.counted

/-- One thread goes on within `schedule_thread`, outside the mutex. -/
theorem Awake.moved (awake : Awake sys) {place : Place} (level : Level sys.schedule sys'.schedule)
    (places : sys'.places = (sys.move i place).places) (same : sys'.handed = sys.handed)
    (keys : key place = key (sys.places i)) (doze : place ≠ .dozing) (sleep : place ≠ .asleep)
    (stirs : Stirs (sys.places i) → Stirs place) (out : Out place → Out (sys.places i))
    (outside : sys.places i = .gone → place = .gone) : Awake sys' := by
  have at_ : ∀ j, sys'.places j = if j = i then place else sys.places j := fun j => by rw [places,move_places]
  refine awake.shift level same (fun j c has => ?_) (fun j dozes => ?_) (fun j sleeps => ?_) (fun j stirring => ?_) (fun j away => ?_)
    fun j gone => ?_
  · rw [at_]
    split
    case isTrue here => rw [keys,← here,has]
    case isFalse => exact has
  · rw [at_] at dozes
    split at dozes
    · exact absurd dozes doze
    · exact dozes
  · rw [at_] at sleeps
    split at sleeps
    · exact absurd sleeps sleep
    · exact sleeps
  · rw [at_]
    split
    case isTrue here => exact stirs (here ▸ stirring)
    case isFalse => exact stirring
  · rw [at_] at away
    split at away
    case isTrue here => exact here ▸ out away
    case isFalse => exact away
  · rw [at_]
    split
    case isTrue here => exact outside (here ▸ gone)
    case isFalse => exact gone

theorem Took.selected (took : Took s s' w) : s'.isDone = s.isDone ∧ s'.numSelected = s.numSelected := by
  rw [took.shape]
  exact ⟨rfl,rfl⟩

/-- A thread that stirs goes through the end of `get_next_worker`. -/
theorem Awake.proceed (awake : Awake sys) (safe : Safe sys) (free : sys.free = true)
    (place : sys.places i = .calling ∨ sys.places i = .woken) : Awake (proceed sys i) := by
  have dozes := awake.none_dozes free
  have empty : key (sys.places i) = none := by
    rcases place with same | same <;> rw [same] <;> rfl
  have inside : ¬ sys.schedule.cpus ≤ i := by
    intro beyond
    have gone := awake.outside i beyond
    rcases place with same | same <;> cases same.symm.trans gone
  have other : ∀ t p, Away sys.schedule sys.handed t p → ∃ j, j ≠ i ∧ key (sys.places j) = some (t,p) := by
    intro t p away
    obtain ⟨j,has⟩ := awake.kept t p away
    refine ⟨j,?_,has⟩
    rintro rfl
    rw [empty] at has
    cases has
  have after := proceed_cases sys i
  generalize Scheduler.proceed sys i = next at after ⊢
  cases after with
  | waits must =>
    obtain ⟨ongoing,none_,some_⟩ := mustWait_iff.mp must
    refine ⟨fun t p away => ?_,fun j _ => must,fun j sleeps => ⟨ongoing,none_⟩,fun j _ => .inl some_,fun j below away => ?_,fun j beyond => ?_,
      awake.why,awake.counted⟩
    · obtain ⟨j,apart,has⟩ := other t p away
      exact ⟨j,(congrArg key (if_neg apart)).trans has⟩
    · change Out (if j = i then _ else _) at away
      split at away
      · rcases away with same | same <;> cases same
      · exact awake.out j below away
    · show (if j = i then _ else _) = _
      rw [if_neg fun same : j = i => inside (same ▸ beyond)]
      exact awake.outside j beyond
  | leaves must nothing =>
    have none_ := takeNext_none safe.sound.good.sized safe.sound.good.filed nothing
    have ended : sys.schedule.isDone = true ∨ Empty sys.schedule := by
      by_contra both
      rw [not_or,Bool.not_eq_true] at both
      have must' := mustWait_iff.mpr ⟨both.1,none_,fun zero => both.2 ⟨none_,zero⟩⟩
      rw [must] at must'
      cases must'
    refine ⟨fun t p away => ?_,fun j dozing => ?_,fun j sleeps => ?_,fun j sleeps => .inr ⟨i,.inr (.inr (if_pos rfl))⟩,fun j below away => ended,
      fun j beyond => ?_,awake.why,awake.counted⟩
    · obtain ⟨j,apart,has⟩ := other t p away
      exact ⟨j,(congrArg key (if_neg apart)).trans has⟩
    · change (if j = i then _ else _) = _ at dozing
      split at dozing
      · cases dozing
      · exact absurd dozing (dozes j)
    · change (if j = i then _ else _) = _ at sleeps
      split at sleeps
      · cases sleeps
      · exact awake.sleep j sleeps
    · show (if j = i then _ else _) = _
      rw [if_neg fun same : j = i => inside (same ▸ beyond)]
      exact awake.outside j beyond
  | @takes s' w must taken =>
    have took := takeNext_took taken
    have member := took.member
    have alike := took.alike
    have fixed := took.fixed
    have some_ := took.available
    obtain ⟨isDone,numSelected⟩ := took.selected
    have finished : ∀ t p, Finished s' t p ↔ Finished sys.schedule t p := fun t p => alike.finished
    have noSleep : ∀ j, sys.places j ≠ .asleep := fun j sleeps => some_ (awake.sleep j sleeps).2
    have selected := isWorkerSelected_congr fixed.selected
    have ended : sys.schedule.isDone = true → SelectedDone sys.schedule := fun ended => (awake.why ended).resolve_left fun zero => some_ zero.1
    refine ⟨fun t p away => ?_,fun j dozing => ?_,fun j sleeps => ?_,fun j sleeps => ?_,fun j below away => ?_,fun j beyond => ?_,
      fun ended' => ?_,?_⟩
    · obtain ⟨listed,zero⟩ := away
      rcases List.mem_cons.mp listed with same | old
      · cases same
        exact ⟨i,congrArg key (if_pos rfl)⟩
      · obtain ⟨j,apart,has⟩ := other t p ⟨old,(alike.completed t p).symm.trans zero⟩
        exact ⟨j,(congrArg key (if_neg apart)).trans has⟩
    · change (if j = i then _ else _) = _ at dozing
      split at dozing
      · cases dozing
      · exact absurd dozing (dozes j)
    · change (if j = i then _ else _) = _ at sleeps
      split at sleeps
      · cases sleeps
      · exact absurd sleeps (noSleep j)
    · change (if j = i then _ else _) = _ at sleeps
      split at sleeps
      · cases sleeps
      · exact absurd sleeps (noSleep j)
    · change Out (if j = i then _ else _) at away
      split at away
      · rcases away with same | same <;> cases same
      · refine .inl (isDone.trans ?_)
        rcases awake.out j (fixed.cpus ▸ below) away with done_ | zero
        · exact done_
        · exact absurd zero.1 some_
    · show (if j = i then _ else _) = _
      change s'.cpus ≤ j at beyond
      rw [fixed.cpus] at beyond
      rw [if_neg fun same : j = i => inside (same ▸ beyond)]
      exact awake.outside j beyond
    · refine .inr ?_
      have before := ended (isDone.symm.trans ended')
      unfold SelectedDone at before ⊢
      simpa only [fixed.valid,selected,finished] using before
    · have same : due s' = due sys.schedule := by
        unfold due
        simp only [fixed.valid,selected,finished,fixed.tasks,alike.parts]
        rfl
      show (due s').card ≤ s'.numSelected
      rw [same,numSelected]
      exact awake.counted

theorem Sound.unfinished (sound : Sound s handed) (valid : s.Valid t p) (unfinished : ¬ Finished s t p) :
    (s.stateLinkage t p).waitingOnOthers = true ∨ 0 < s.numAvailable ∨ Away s handed t p := by
  by_cases waiting : (s.stateLinkage t p).waitingOnOthers = true
  · exact .inl waiting
  · rw [Bool.not_eq_true] at waiting
    have zero : (s.stateLinkage t p).completed = 0 := by
      by_contra some_
      exact unfinished ⟨waiting,some_⟩
    by_cases away : Away s handed t p
    · exact .inr (.inr away)
    · exact .inr (.inl ((available_pos sound.good.sized sound.good.filed).mpr ⟨t,p,valid,⟨waiting,zero⟩,away⟩))

theorem Empty.waits (empty : Empty s) (sound : Sound s handed) (valid : s.Valid t p) :
    (s.stateLinkage t p).waitingOnOthers = false := by
  by_contra waiting
  rw [Bool.not_eq_false] at waiting
  have inside : ¬ Away s handed t p := by
    intro away
    rw [(sound.known _ away.1).2.2] at waiting
    cases waiting
  have some_ := (toRun_pos sound.good.sized sound.good.filed).mpr ⟨t,p,valid,waiting,inside⟩
  have none_ := empty.2
  omega

/-- Completing a link brings nothing in when nothing waits. -/
theorem Marked.empty (marked : Marked time (Away s handed) s t p s') (some_ : time ≠ 0) (sound : Sound s handed)
    (sound' : Sound s' handed) (empty : Empty s) : Empty s' := by
  have none_ : s'.numTasksToRun = 0 := by
    have fewer := marked.fewer
    have zero := empty.2
    omega
  refine ⟨?_,none_⟩
  by_contra more
  obtain ⟨t',p',valid,⟨free,zero⟩,inside⟩ :=
    (available_pos sound'.good.sized sound'.good.filed).mp (Nat.pos_of_ne_zero more)
  have old := marked.frame.valid.mp valid
  have other : ¬ (t' = t ∧ p' = p) := by
    rintro ⟨rfl,rfl⟩
    rw [marked.here] at zero
    exact some_ zero
  rcases marked.links t' p' other with same | ⟨waiting,_⟩
  · rw [same] at free zero
    have inside' : ¬ Away s handed t' p' := fun away => inside ⟨away.1,by rw [same]; exact zero⟩
    have pos := (available_pos sound.good.sized sound.good.filed).mpr ⟨t',p',old,⟨free,zero⟩,inside'⟩
    have none' := empty.1
    omega
  · rw [empty.waits sound old] at waiting
    cases waiting

/-- The count of `worker_complete` reaches zero only when no selected link is left. -/
theorem Marked.due (marked : Marked time out s t p s') (some_ : time ≠ 0) (sized : Sized s)
    (zero : (s.stateLinkage t p).completed = 0) : due s' ⊆ (due s).erase (t,p) := by
  intro c member
  obtain ⟨valid,selected,unfinished⟩ := (mem_due (marked.frame.sized sized)).mp member
  rw [isWorkerSelected_congr marked.frame.selected] at selected
  refine Finset.mem_erase.mpr ⟨?_,(mem_due sized).mpr ⟨marked.frame.valid.mp valid,selected,fun finished => unfinished (marked.finished zero finished)⟩⟩
  rintro rfl
  apply unfinished
  rw [Finished,marked.here]
  exact ⟨rfl,some_⟩

theorem countSelected_counts (s : Schedule) (w : Worker) :
    (isWorkerSelected s w.task w.partition = true ∧ (countSelected s w).numSelected = s.numSelected - 1 ∧
      (countSelected s w).isDone = if s.numSelected - 1 = 0 then true else s.isDone) ∨
    (isWorkerSelected s w.task w.partition = false ∧ countSelected s w = s) := by
  unfold countSelected
  split
  case isTrue selected => exact .inl ⟨selected,rfl,rfl⟩
  case isFalse unselected => exact .inr ⟨Bool.not_eq_true _ ▸ unselected,rfl⟩

theorem completing_broadcast (sys : System) (i : Nat) (s : Schedule) (j : Nat) :
    (completing sys i s).places j = wake (if j = i then .calling else sys.places j) ∨
    (completing sys i s).places j = (if j = i then .calling else sys.places j) ∧ s.isDone = false ∧
      (sys.schedule.numAvailable = 0 → s.numAvailable = 0) := by
  unfold completing
  dsimp only
  split
  case isTrue => exact .inl rfl
  case isFalse quiet =>
    refine .inr ⟨rfl,?_⟩
    rw [Bool.or_eq_true,not_or,Bool.and_eq_true] at quiet
    refine ⟨Bool.not_eq_true _ ▸ quiet.2,fun none_ => ?_⟩
    by_contra some_
    exact quiet.1 ⟨decide_eq_true none_,decide_eq_true some_⟩

theorem wake_dozing {place : Place} (same : wake place = .dozing) : place = .dozing := by
  cases place <;> cases same <;> rfl

theorem wake_asleep {place : Place} : wake place ≠ .asleep := by
  cases place <;> exact fun same => by cases same

theorem wake_out {place : Place} (same : Out (wake place)) : Out place := by
  cases place <;> first | exact same | (rcases same with same | same <;> cases same)

theorem completing_handed (sys : System) (i : Nat) (s : Schedule) : (completing sys i s).handed = sys.handed := by
  unfold completing
  dsimp only
  split <;> rfl

/-- What a place behind a broadcast was before. -/
theorem completing_place (sys : System) (i : Nat) (s : Schedule) (j : Nat) :
    key ((completing sys i s).places j) = key (if j = i then .calling else sys.places j) ∧
    ((completing sys i s).places j = .dozing → (if j = i then Place.calling else sys.places j) = .dozing) ∧
    (Out ((completing sys i s).places j) → Out (if j = i then .calling else sys.places j)) ∧
    ((if j = i then Place.calling else sys.places j) = .gone → (completing sys i s).places j = .gone) := by
  rcases completing_broadcast sys i s j with woken | ⟨same,_⟩
  · rw [woken]
    refine ⟨wake_key _,wake_dozing,wake_out,fun gone => ?_⟩
    rw [gone]
    rfl
  · rw [same]
    exact ⟨rfl,id,id,id⟩

theorem Awake.completed (awake : Awake sys) (safe : Safe sys) (place : sys.places i = .acked w time) (free : sys.free = true)
    (marked : complete (countSelected sys.schedule w) w.task w.partition time = some s) : Awake (completing sys i s) := by
  obtain ⟨spec,sound⟩ := safe.marked place marked
  have alike := countSelected_alike sys.schedule w
  have fixed := (countSelected_fixed sys.schedule w).trans spec.frame.fixed
  have some_ := safe.timed i time (by rw [place]; rfl)
  have away := safe.held i w.task w.partition (by rw [place]; rfl)
  have sound₁ := alike.sound safe.sound
  have zero : ((countSelected sys.schedule w).stateLinkage w.task w.partition).completed = 0 := (alike.completed _ _).trans away.2
  have isDone : s.isDone = (countSelected sys.schedule w).isDone := by
    have frame := spec.frame
    rw [Frame] at frame
    rw [frame]
  have numSelected : s.numSelected = (countSelected sys.schedule w).numSelected := by
    have frame := spec.frame
    rw [Frame] at frame
    rw [frame]
  have stays : sys.schedule.isDone = true → s.isDone = true := by
    intro ended
    rw [isDone]
    rcases countSelected_counts sys.schedule w with ⟨_,_,now⟩ | ⟨_,same⟩
    · rw [now,ended,ite_self]
    · rw [same]
      exact ended
  have empties : Empty sys.schedule → Empty s := by
    intro empty
    apply spec.empty some_ sound₁ sound
    rw [Empty,alike.available,alike.toRun]
    exact empty
  have finished : ∀ t p, Finished sys.schedule t p → Finished s t p := fun t p before => spec.finished zero (alike.finished.mpr before)
  have selected := isWorkerSelected_congr fixed.selected
  have fewer : due s ⊆ (due sys.schedule).erase (w.task,w.partition) := by
    have less_ := spec.due some_ sound₁.good.sized zero
    have same : due (countSelected sys.schedule w) = due sys.schedule := by
      unfold due
      simp only [alike.valid,alike.finished,isWorkerSelected_congr (countSelected_fixed sys.schedule w).selected,alike.tasks,alike.parts]
    rwa [same] at less_
  have valid := (safe.sound.known _ away.1).1
  have here : isWorkerSelected sys.schedule w.task w.partition = true → (due s).card + 1 ≤ (due sys.schedule).card := by
    intro isSelected
    have member : (w.task,w.partition) ∈ due sys.schedule :=
      (mem_due safe.sound.good.sized).mpr ⟨valid,isSelected,fun finished => finished.2 away.2⟩
    have card := Finset.card_le_card fewer
    rw [Finset.card_erase_of_mem member] at card
    have pos := Finset.card_pos.mpr ⟨_,member⟩
    omega
  have counted := awake.counted
  refine ⟨fun t p away' => ?_,fun j dozing => ?_,fun j sleeps => ?_,fun j sleeps => ?_,fun j below away' => ?_,fun j beyond => ?_,fun ended => ?_,?_⟩
  · rw [completing_schedule,completing_handed] at away'
    have other : ¬ (t = w.task ∧ p = w.partition) := by
      rintro ⟨rfl,rfl⟩
      have now := away'.2
      rw [spec.here] at now
      exact some_ now
    have before : (sys.schedule.stateLinkage t p).completed = 0 := by
      by_contra done_
      exact (finished t p ⟨(safe.sound.known _ away'.1).2.2,done_⟩).2 away'.2
    obtain ⟨j,has⟩ := awake.kept t p ⟨away'.1,before⟩
    refine ⟨j,(completing_place sys i s j).1.trans ?_⟩
    rw [if_neg]
    · exact has
    · rintro rfl
      rw [place] at has
      cases has
      exact other ⟨rfl,rfl⟩
  · have was := (completing_place sys i s j).2.1 dozing
    split at was
    · cases was
    · exact absurd was (awake.none_dozes free j)
  · rw [completing_schedule]
    rcases completing_broadcast sys i s j with woken | ⟨same,ongoing,keeps⟩
    · rw [woken] at sleeps
      exact absurd sleeps wake_asleep
    · rw [same] at sleeps
      split at sleeps
      · cases sleeps
      · exact ⟨ongoing,keeps (awake.sleep j sleeps).2⟩
  · refine .inr ⟨i,.inl ?_⟩
    rcases completing_broadcast sys i s i with woken | ⟨same,_⟩
    · rw [woken,if_pos rfl]
      rfl
    · rw [same,if_pos rfl]
  · rw [completing_schedule] at below ⊢
    have was := (completing_place sys i s j).2.2.1 away'
    split at was
    · rcases was with same | same <;> cases same
    · rcases awake.out j (fixed.cpus ▸ below) was with ended | empty
      · exact .inl (stays ended)
      · exact .inr (empties empty)
  · rw [completing_schedule,fixed.cpus] at beyond
    refine (completing_place sys i s j).2.2.2 ?_
    rw [if_neg]
    · exact awake.outside j beyond
    · rintro rfl
      cases place.symm.trans (awake.outside j beyond)
  · rw [completing_schedule] at ended ⊢
    rw [isDone] at ended
    have before : sys.schedule.isDone = true → Empty s ∨ SelectedDone s := by
      intro ended
      rcases awake.why ended with empty | ⟨⟨t,p,valid,isSelected⟩,all⟩
      · exact .inl (empties empty)
      · refine .inr ⟨⟨t,p,fixed.valid.mpr valid,(selected t p).trans isSelected⟩,fun t p valid isSelected => ?_⟩
        exact finished t p (all t p (fixed.valid.mp valid) ((selected t p).symm.trans isSelected))
    rcases countSelected_counts sys.schedule w with ⟨isSelected,_,now⟩ | ⟨_,same⟩
    · rw [now] at ended
      split at ended
      case isTrue last =>
        refine .inr ⟨⟨w.task,w.partition,fixed.valid.mpr valid,(selected _ _).trans isSelected⟩,fun t p valid' isSelected' => ?_⟩
        by_contra unfinished
        have member : (t,p) ∈ due s := (mem_due sound.good.sized).mpr ⟨valid',isSelected',unfinished⟩
        have pos := Finset.card_pos.mpr ⟨_,member⟩
        have less_ := here isSelected
        omega
      case isFalse => exact before ended
    · rw [same] at ended
      exact before ended
  · rw [completing_schedule,numSelected]
    rcases countSelected_counts sys.schedule w with ⟨isSelected,now,_⟩ | ⟨_,same⟩
    · rw [now]
      have less_ := here isSelected
      omega
    · rw [same]
      exact ((Finset.card_le_card fewer).trans (Finset.card_erase_le)).trans counted

/-- A step that is not the failure of a runner. -/
theorem Awake.step (awake : Awake sys) (safe : Safe sys) (works : ∀ i, e ≠ .finish i false) (stepped : step sys e = some sys') :
    Awake sys' := by
  have moves := step_moves stepped
  cases moves with
  | @turnedAway i free place ended =>
    have noSleep : ∀ j, sys.places j ≠ .asleep := fun j sleeps => by
      rw [(awake.sleep j sleeps).1] at ended
      cases ended
    refine ⟨fun t p away => ?_,fun j dozing => ?_,fun j sleeps => ?_,fun j sleeps => ?_,fun j _ _ => .inl ended,fun j beyond => ?_,
      awake.why,awake.counted⟩
    · obtain ⟨j,has⟩ := awake.kept t p away
      refine ⟨j,(congrArg key (if_neg ?_)).trans has⟩
      rintro rfl
      rw [place] at has
      cases has
    · change (if j = i then _ else _) = _ at dozing
      split at dozing
      · cases dozing
      · exact absurd dozing (awake.none_dozes free j)
    · change (if j = i then _ else _) = _ at sleeps
      split at sleeps
      · cases sleeps
      · exact absurd sleeps (noSleep j)
    · change (if j = i then _ else _) = _ at sleeps
      split at sleeps
      · cases sleeps
      · exact absurd sleeps (noSleep j)
    · show (if j = i then _ else _) = _
      rw [if_neg]
      · exact awake.outside j beyond
      · rintro rfl
        cases place.symm.trans (awake.outside j beyond)
  | @entered i free place ongoing =>
    have inside : Awake (entering sys) := by
      refine awake.shift ⟨⟨rfl,rfl,rfl,rfl,rfl,fun _ _ => rfl,fun _ _ => rfl⟩,⟨rfl,rfl,rfl,rfl,rfl,rfl⟩,rfl,rfl⟩ rfl
        (fun _ _ has => has) (fun _ same => same) (fun _ same => same) (fun _ same => same) (fun _ same => same) fun _ same => same
    have safe' : Safe (entering sys) :=
      safe.shift ⟨rfl,rfl,rfl,rfl,rfl,fun _ _ => rfl,fun _ _ => rfl⟩ rfl (fun j c has => has) (fun j time has => .inl has) le_rfl
    exact inside.proceed safe' free (.inl place)
  | @dozed i place =>
    obtain ⟨ongoing,none_,some_⟩ := mustWait_iff.mp (awake.doze i place)
    refine ⟨fun t p away => ?_,fun j dozing => ?_,fun j _ => ⟨ongoing,none_⟩,fun j _ => .inl some_,fun j below away => ?_,fun j beyond => ?_,
      awake.why,awake.counted⟩
    · obtain ⟨j,has⟩ := awake.kept t p away
      refine ⟨j,(congrArg key (if_neg ?_)).trans has⟩
      rintro rfl
      rw [place] at has
      cases has
    · exact awake.doze i place
    · change Out (if j = i then _ else _) at away
      split at away
      · rcases away with same | same <;> cases same
      · exact awake.out j below away
    · show (if j = i then _ else _) = _
      rw [if_neg]
      · exact awake.outside j beyond
      · rintro rfl
        cases place.symm.trans (awake.outside j beyond)
  | rose free place => exact awake.proceed safe free (.inr place)
  | stirred place =>
    refine awake.moved (Level.refl _) rfl rfl ?_ (fun same => by cases same) (fun same => by cases same) (fun _ => .inr (.inl rfl)) ?_ ?_
    · rw [place]
      rfl
    · rintro (same | same) <;> cases same
    · intro gone
      cases place.symm.trans gone
  | @looked i w files place =>
    have level : Level sys.schedule (looking sys w) := ⟨setAck_alike _ _ _ _,⟨rfl,rfl,rfl,rfl,rfl,rfl⟩,rfl,rfl⟩
    have shape : (∃ w', decision sys w files = .running w') ∨ ∃ w' time, decision sys w files = .ending w' time := by
      unfold decision
      dsimp only
      split
      · exact .inl ⟨_,rfl⟩
      · exact .inr ⟨_,_,rfl⟩
    refine awake.moved level rfl rfl ?_ ?_ ?_ ?_ ?_ ?_
    · rw [decision_key,place]
      rfl
    · rcases shape with ⟨w',same⟩ | ⟨w',time,same⟩ <;> rw [same] <;> exact fun equal => by cases equal
    · rcases shape with ⟨w',same⟩ | ⟨w',time,same⟩ <;> rw [same] <;> exact fun equal => by cases equal
    · rw [place]
      rintro (same | same | same) <;> cases same
    · rcases shape with ⟨w',same⟩ | ⟨w',time,same⟩ <;> rw [same] <;> rintro (equal | equal) <;> cases equal
    · intro gone
      cases place.symm.trans gone
  | @finished i w place =>
    refine awake.moved (Level.refl _) rfl rfl ?_ (fun same => by cases same) (fun same => by cases same) ?_ ?_ ?_
    · rw [place]
      rfl
    · rw [place]
      rintro (same | same | same) <;> cases same
    · rintro (same | same) <;> cases same
    · intro gone
      cases place.symm.trans gone
  | @failed i w place => exact absurd rfl (works i)
  | @wrote i w time place =>
    refine awake.moved (Level.refl _) (rfl : _ = (sys.move i (.acked w time)).places) rfl ?_ (fun same => by cases same) (fun same => by cases same) ?_ ?_ ?_
    · rw [place]
      rfl
    · rw [place]
      rintro (same | same | same) <;> cases same
    · rintro (same | same) <;> cases same
    · intro gone
      cases place.symm.trans gone
  | completed place free marked => exact awake.completed safe place free marked
  | @left i place ended =>
    have noSleep : ∀ j, sys.places j ≠ .asleep := fun j sleeps => by
      rw [(awake.sleep j sleeps).1] at ended
      cases ended
    refine ⟨fun t p away => ?_,fun j dozing => ?_,fun j sleeps => ?_,fun j sleeps => ?_,fun j _ _ => .inl ended,fun j beyond => ?_,
      awake.why,awake.counted⟩
    · obtain ⟨j,has⟩ := awake.kept t p away
      refine ⟨j,(congrArg key (if_neg ?_)).trans has⟩
      rintro rfl
      rw [place] at has
      cases has
    · change (if j = i then _ else _) = _ at dozing
      split at dozing
      · cases dozing
      · exact awake.doze j dozing
    · change (if j = i then _ else _) = _ at sleeps
      split at sleeps
      · cases sleeps
      · exact absurd sleeps (noSleep j)
    · change (if j = i then _ else _) = _ at sleeps
      split at sleeps
      · cases sleeps
      · exact absurd sleeps (noSleep j)
    · show (if j = i then _ else _) = _
      split
      · rfl
      · exact awake.outside j beyond
  | @leftFirst i place ongoing =>
    have inside : i < sys.schedule.cpus := by
      by_contra beyond
      cases place.symm.trans (awake.outside i (Nat.le_of_not_lt beyond))
    have empty : Empty sys.schedule := by
      rcases awake.out i inside (.inl place) with ended | empty
      · rw [ongoing] at ended
        cases ended
      · exact empty
    refine ⟨fun t p away => ?_,fun j dozing => ?_,fun j sleeps => absurd sleeps wake_asleep,fun j sleeps => absurd sleeps wake_asleep,
      fun j _ _ => .inl rfl,fun j beyond => ?_,fun _ => .inl empty,awake.counted⟩
    · obtain ⟨j,has⟩ := awake.kept t p away
      refine ⟨j,(wake_key _).trans ((congrArg key (if_neg ?_)).trans has)⟩
      rintro rfl
      rw [place] at has
      cases has
    · have was := wake_dozing dozing
      change (if j = i then _ else _) = _ at was
      split at was
      · cases was
      · exact absurd empty.2 (mustWait_iff.mp (awake.doze j was)).2.2
    · show wake (if j = i then _ else _) = _
      rw [if_neg]
      · rw [awake.outside j beyond]
        rfl
      · rintro rfl
        exact absurd inside (Nat.not_lt.mpr beyond)
  | ticked later =>
    exact awake.shift (Level.refl _) rfl (fun _ _ has => has) (fun _ same => same) (fun _ same => same) (fun _ same => same)
      (fun _ same => same) fun _ same => same

/-! ## The start -/

theorem card_true (l : List Bool) : ((Finset.range l.length).filter fun p => l[p]? = some true).card = l.count true := by
  induction l using List.reverseRecOn with
  | nil => rfl
  | append_singleton l b ih =>
    have old : ((Finset.range l.length).filter fun p => (l ++ [b])[p]? = some true) =
        (Finset.range l.length).filter fun p => l[p]? = some true := by
      apply Finset.filter_congr
      intro p inside
      rw [List.getElem?_append_left (Finset.mem_range.mp inside)]
    rw [List.length_append,List.length_singleton,Finset.range_add_one,Finset.filter_insert,old,List.count_append,
      List.getElem?_append_right (Nat.le_refl _),Nat.sub_self,List.getElem?_cons_zero]
    cases b with
    | true =>
      rw [if_pos rfl,Finset.card_insert_of_notMem,ih]
      · rfl
      · intro member
        exact Nat.lt_irrefl _ (Finset.mem_range.mp (Finset.mem_filter.mp member).1)
    | false =>
      rw [if_neg (fun same => by cases same),ih]
      rfl

theorem select_due (sized : Sized s) (entry : Nat × List Bool) (counted : (due s).card ≤ s.numSelected) :
    (due (select s entry)).card ≤ (select s entry).numSelected := by
  have sub : due (select s entry) ⊆
      due s ∪ ((Finset.range entry.2.length).filter fun p => entry.2[p]? = some true).image fun p => (entry.1,p) := by
    intro c member
    obtain ⟨valid,selected,unfinished⟩ := (mem_due (s := select s entry) sized).mp member
    rw [Finset.mem_union]
    by_cases here : c.1 = entry.1
    · refine .inr (Finset.mem_image.mpr ⟨c.2,?_,by rw [← here]⟩)
      change (((if c.1 = entry.1 then some entry.2 else s.selected c.1).bind (·[c.2]?)).getD false) = true at selected
      rw [if_pos here,Option.bind_some] at selected
      have is_true : entry.2[c.2]? = some true := by
        cases read : entry.2[c.2]? with
        | none =>
          rw [read] at selected
          cases selected
        | some b =>
          rw [read] at selected
          exact congrArg some selected
      exact Finset.mem_filter.mpr ⟨Finset.mem_range.mpr (List.getElem?_eq_some_iff.mp is_true).1,is_true⟩
    · refine .inl ((mem_due sized).mpr ⟨valid,?_,unfinished⟩)
      change (((if c.1 = entry.1 then some entry.2 else s.selected c.1).bind (·[c.2]?)).getD false) = true at selected
      rw [if_neg here] at selected
      exact selected
  have card := (Finset.card_le_card sub).trans (Finset.card_union_le _ _)
  have image : _ ≤ (entry.2.count true) := (Finset.card_image_le (f := fun p => (entry.1,p))
    (s := (Finset.range entry.2.length).filter fun p => entry.2[p]? = some true)).trans (le_of_eq (card_true entry.2))
  show _ ≤ s.numSelected + entry.2.count true
  omega

theorem parseArgs_due (sized : Sized s) (unselected : ∀ t, s.selected t = none) (args : Args) :
    (due (parseArgs s args)).card ≤ (parseArgs s args).numSelected := by
  have all : ∀ (entries : List (Nat × List Bool)) (s : Schedule), Sized s → (due s).card ≤ s.numSelected →
      (due (entries.foldl select s)).card ≤ (entries.foldl select s).numSelected := by
    intro entries
    induction entries with
    | nil => exact fun _ _ counted => counted
    | cons entry entries ih => exact fun s sized counted => ih (select s entry) sized (select_due sized entry counted)
  unfold parseArgs
  refine all _ _ sized ?_
  have none_ : ∀ (s' : Schedule), s'.selected = s.selected → Sized s' → due s' = ∅ := by
    intro s' same sized'
    apply Finset.eq_empty_of_forall_notMem
    intro c member
    have selected := ((mem_due sized').mp member).2.1
    rw [isWorkerSelected,same,unselected] at selected
    cases selected
  rw [Finset.card_eq_zero.mpr]
  exact none_ _ rfl sized

theorem Launched.awake (launched : Launched sys) : Awake sys := by
  have safe := launched.safe
  cases launched with
  | @mk n cpus calls built set disk now clock args starts some_ ran setUp later after named =>
    have building := calls_building some_ ran
    obtain ⟨s',settled,ready,frame,_⟩ := scheduleSetup_spec building disk (ne_of_gt later)
    cases settled.symm.trans setUp
    have counted := parseArgs_due ready.good.sized (fun t => (congrFun frame.selected t).trans (building.unselected t)) args
    have place : ∀ i, (start (parseArgs set args) starts disk clock).places i = .calling ∨
        (start (parseArgs set args) starts disk clock).places i = .gone ∧ (parseArgs set args).cpus ≤ i := by
      intro i
      show (if _ then _ else _) = _ ∨ (if _ then _ else _) = _ ∧ _
      split
      case isTrue => exact .inl rfl
      case isFalse beyond => exact .inr ⟨rfl,Nat.le_of_not_lt beyond⟩
    refine ⟨fun t p away => absurd away.1 List.not_mem_nil,fun i dozing => ?_,fun i sleeps => ?_,fun i sleeps => ?_,fun i below away => ?_,
      fun i beyond => if_neg (Nat.not_lt.mpr beyond),fun ended => (by cases ended),counted⟩
    · rcases place i with same | ⟨same,_⟩ <;> cases same.symm.trans dozing
    · rcases place i with same | ⟨same,_⟩ <;> cases same.symm.trans sleeps
    · rcases place i with same | ⟨same,_⟩ <;> cases same.symm.trans sleeps
    · rcases place i with same | ⟨_,beyond⟩
      · rw [same] at away
        rcases away with other | other <;> cases other
      · exact absurd below (Nat.not_lt.mpr beyond)

theorem awake_run (launched : Launched sys) (ran : Ran step sys es sys') (works : ∀ i, Event.finish i false ∉ es) : Awake sys' ∧ Safe sys' := by
  refine ran.keeps (fun sys => Awake sys ∧ Safe sys) ⟨launched.awake,launched.safe⟩ ?_
  intro s e t member both stepped
  refine ⟨both.1.step both.2 ?_ stepped,both.2.step stepped⟩
  rintro i rfl
  exact works i member

/-! ## No deadlock, and the end -/

/-- No task depends on itself, over any number of others. -/
def Acyclic (s : Schedule) : Prop :=
  WellFounded fun d t => d ∈ (s.task t).dependencies ∨ d ∈ (s.task t).partialDependencies

theorem Needs.valid (needs : Needs s t p d q) (sized : Sized s) (wired : Wired s) : s.Valid d q := by
  rcases needs with ⟨member,inside⟩ | ⟨member,rfl⟩
  · exact ⟨wired.known t d member,inside⟩
  · have known := wired.partly t d member
    split
    · exact sized.first known
    case isFalse few => exact ⟨known,Nat.lt_of_not_le few⟩

theorem Needs.edge (needs : Needs s t p d q) : d ∈ (s.task t).dependencies ∨ d ∈ (s.task t).partialDependencies := by
  rcases needs with ⟨member,_⟩ | ⟨member,_⟩
  · exact .inl member
  · exact .inr member

/-- Where nothing is available and nothing is being worked on, nothing waits either. -/
theorem Sound.nothing_waits (sound : Sound s handed) (acyclic : Acyclic s) (none_ : s.numAvailable = 0)
    (idle : ∀ t p, ¬ Away s handed t p) : ∀ t p, s.Valid t p → (s.stateLinkage t p).waitingOnOthers = false := by
  intro t
  induction t using acyclic.induction with
  | h t ih =>
    intro p valid
    by_contra waiting
    rw [Bool.not_eq_false] at waiting
    apply (sound.settled t p valid).mp waiting
    intro d q needs
    by_contra unfinished
    have valid' := needs.valid sound.good.sized sound.good.wired
    rcases sound.unfinished valid' unfinished with waits | more | away
    · rw [ih d needs.edge q valid'] at waits
      cases waits
    · omega
    · exact idle d q away

/-- Tasks that depend on tasks added before them. -/
theorem acyclic_of_lt (earlier : ∀ t < s.tasks.length, ∀ d ∈ (s.task t).dependencies ++ (s.task t).partialDependencies, d < t) : Acyclic s := by
  refine Subrelation.wf (fun {d t} edge => ?_) Nat.lt_wfRel.wf
  by_cases known : t < s.tasks.length
  · exact earlier t known d (List.mem_append.mpr edge)
  · rw [task_outside (Nat.le_of_not_lt known)] at edge
    exact absurd (edge.elim id id) List.not_mem_nil

/-- Nothing can happen but that time passes or a wait ends by itself. -/
def Stuck (sys : System) : Prop :=
  ∀ e, (∀ i, e ≠ .spurious i) → (∀ now, e ≠ .tick now) → step sys e = none

theorem stuck_of_gone (gone : ∀ i, sys.places i = .gone) : Stuck sys := by
  intro e notSpurious notTick
  cases e with
  | spurious i => exact absurd rfl (notSpurious i)
  | tick now => exact absurd rfl (notTick now)
  | _ =>
    unfold step
    simp [gone]

/-- Whatever order the threads take: unless all are gone, one of them can go on. -/
theorem no_deadlock (launched : Launched sys) (acyclic : Acyclic sys.schedule) (ran : Ran step sys es sys')
    (works : ∀ i, Event.finish i false ∉ es) (stuck : Stuck sys') : ∀ i, sys'.places i = .gone := by
  obtain ⟨awake,safe⟩ := awake_run launched ran works
  have fixed := (safe_run launched.safe ran).2
  have acyclic' : Acyclic sys'.schedule := by
    unfold Acyclic at acyclic ⊢
    simpa only [fixed.task] using acyclic
  have stuck' : ∀ e, step sys' e ≠ none → (∃ i, e = .spurious i) ∨ ∃ now, e = .tick now := by
    intro e enabled
    by_contra other
    rw [not_or,not_exists,not_exists] at other
    exact enabled (stuck e other.1 other.2)
  have notDozing : ∀ i, sys'.places i ≠ .dozing := by
    intro i place
    rcases stuck' (.doze i) (by rw [step,if_pos place]; exact Option.some_ne_none _) with ⟨_,other⟩ | ⟨_,other⟩ <;> cases other
  have free : sys'.free = true := free_iff.mpr fun i _ => notDozing i
  have notCalling : ∀ i, sys'.places i ≠ .calling := by
    intro i place
    have enabled : step sys' (.enter i) ≠ none := by
      rw [step,if_pos ⟨free,place⟩]
      split <;> exact Option.some_ne_none _
    rcases stuck' _ enabled with ⟨_,other⟩ | ⟨_,other⟩ <;> cases other
  have notWoken : ∀ i, sys'.places i ≠ .woken := by
    intro i place
    have enabled : step sys' (.rise i) ≠ none := by
      rw [step,if_pos ⟨free,place⟩]
      exact Option.some_ne_none _
    rcases stuck' _ enabled with ⟨_,other⟩ | ⟨_,other⟩ <;> cases other
  have notLeaving : ∀ i, sys'.places i ≠ .leaving := by
    intro i place
    have enabled : step sys' (.leave i) ≠ none := by
      rw [step,if_pos place]
      split <;> exact Option.some_ne_none _
    rcases stuck' _ enabled with ⟨_,other⟩ | ⟨_,other⟩ <;> cases other
  have notBusy : ∀ i, key (sys'.places i) = none := by
    intro i
    cases place : sys'.places i with
    | holding w =>
      have enabled : step sys' (.look i []) ≠ none := by
        rw [step,place]
        dsimp only
        split <;> exact Option.some_ne_none _
      rcases stuck' _ enabled with ⟨_,other⟩ | ⟨_,other⟩ <;> cases other
    | running w =>
      have enabled : step sys' (.finish i true) ≠ none := by
        rw [step,place]
        exact Option.some_ne_none _
      rcases stuck' _ enabled with ⟨_,other⟩ | ⟨_,other⟩ <;> cases other
    | ending w time =>
      have enabled : step sys' (.writeAck i) ≠ none := by
        rw [step,place]
        exact Option.some_ne_none _
      rcases stuck' _ enabled with ⟨_,other⟩ | ⟨_,other⟩ <;> cases other
    | acked w time =>
      have alike := countSelected_alike sys'.schedule w
      have away := alike.away.mpr (safe.held i w.task w.partition (by rw [place]; rfl))
      obtain ⟨s',completed,_⟩ := (alike.sound safe.sound).completed away (safe.timed i time (by rw [place]; rfl))
      have enabled : step sys' (.complete i) ≠ none := by
        rw [step,place]
        dsimp only
        rw [if_pos free,completed]
        exact Option.some_ne_none _
      rcases stuck' _ enabled with ⟨_,other⟩ | ⟨_,other⟩ <;> cases other
    | _ => rfl
  intro i
  by_contra here
  have sleeps : sys'.places i = .asleep := by
    have busy := notBusy i
    cases place : sys'.places i with
    | calling => exact absurd place (notCalling i)
    | dozing => exact absurd place (notDozing i)
    | asleep => rfl
    | woken => exact absurd place (notWoken i)
    | leaving => exact absurd place (notLeaving i)
    | gone => exact absurd place here
    | _ =>
      rw [place] at busy
      cases busy
  have idle : ∀ t p, ¬ Away sys'.schedule sys'.handed t p := by
    intro t p away
    obtain ⟨j,has⟩ := awake.kept t p away
    rw [notBusy j] at has
    cases has
  have none_ := (awake.sleep i sleeps).2
  have waits := safe.sound.nothing_waits acyclic' none_ idle
  rcases awake.stirs i sleeps with some_ | ⟨j,stirring⟩
  · obtain ⟨t,p,valid,waiting,_⟩ := (toRun_pos safe.sound.good.sized safe.sound.good.filed).mp (Nat.pos_of_ne_zero some_)
    rw [waits t p valid] at waiting
    cases waiting
  · rcases stirring with same | same | same
    · exact notCalling j same
    · exact notWoken j same
    · exact notLeaving j same

theorem sample_acyclic : Acyclic sample.schedule := acyclic_of_lt (by decide +kernel)

theorem sampleRun_works (i : Nat) : Event.finish i false ∉ sampleRun := by
  simp [sampleRun,worked]

theorem sample_gone : ∀ i, (outcome step sample sampleRun).places i = .gone
  | 0 => by decide +kernel
  | i + 1 => by
    refine (awake_run sample_launched sample_ran sampleRun_works).1.outside (i + 1) ?_
    have one : (outcome step sample sampleRun).schedule.cpus = 1 := by decide +kernel
    omega

theorem no_deadlock_sample : (outcome step sample sampleRun).places 0 = .gone :=
  no_deadlock sample_launched sample_acyclic sample_ran sampleRun_works (stuck_of_gone sample_gone) 0

/-- When all threads are gone and no runner has failed, every link has completed, those of
    tasks that do something through a thread; or else what was selected has completed. -/
theorem run_completes (launched : Launched sys) (some_ : 0 < sys.schedule.cpus) (ran : Ran step sys es sys')
    (works : ∀ i, Event.finish i false ∉ es) (gone : ∀ i, sys'.places i = .gone) :
    (∀ t p, sys.schedule.Valid t p → Finished sys'.schedule t p ∧
        ((sys.schedule.task t).doNothing = false → (t,p) ∈ sys'.handed)) ∨
      SelectedDone sys'.schedule := by
  obtain ⟨awake,safe⟩ := awake_run launched ran works
  have fixed := (safe_run launched.safe ran).2
  have end_ : Empty sys'.schedule ∨ SelectedDone sys'.schedule := by
    rcases awake.out 0 (fixed.cpus.symm ▸ some_) (.inr (gone 0)) with ended | empty
    · exact awake.why ended
    · exact .inl empty
  refine end_.imp_left fun empty t p valid => ?_
  have valid' := fixed.valid.mpr valid
  have finished : Finished sys'.schedule t p := by
    by_contra unfinished
    rcases safe.sound.unfinished valid' unfinished with waits | more | away
    · rw [empty.waits safe.sound valid'] at waits
      cases waits
    · have none_ := empty.1
      omega
    · obtain ⟨j,has⟩ := awake.kept t p away
      rw [gone j] at has
      cases has
  refine ⟨finished,fun something => ?_⟩
  rw [← fixed.task] at something
  exact safe.sound.covers t p valid' something finished

theorem run_completes_sample : (∀ t p, sample.schedule.Valid t p → Finished (outcome step sample sampleRun).schedule t p ∧
      ((sample.schedule.task t).doNothing = false → (t,p) ∈ (outcome step sample sampleRun).handed)) ∨
    SelectedDone (outcome step sample sampleRun).schedule :=
  run_completes sample_launched (by decide +kernel) sample_ran sampleRun_works sample_gone

end

end AnotherC.Scheduler
