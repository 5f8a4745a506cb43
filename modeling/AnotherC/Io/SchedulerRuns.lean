import AnotherC.Io.SchedulerThreads

/-!
# Runs of the scheduler

From whatever a program adds and the command line selects, and in whatever order the threads
take their steps: a link is handed out at most once, after all it depends on has completed
(`handed_once`), and the lists and counters agree with the links (`links_filed`).
-/
namespace AnotherC.Scheduler
open AnotherC.Lib.Events
set_option linter.unusedVariables false

/-- The systems that a program starts: it adds tasks and dependencies, and `ac_schedule_run`
    sets up, reads the arguments and creates the threads. -/
inductive Launched : System → Prop where
  | mk {n cpus : Nat} {calls : List Call} {built set : Schedule} {disk : Nat → Nat → Int} {now clock : Int} {args : Args}
      {starts : Nat → Nat} (some_ : 0 < n) (ran : Ran call (init n cpus) calls built)
      (setUp : scheduleSetup disk now built = some set) (later : 0 < now) (after : now ≤ clock)
      (named : ∀ e ∈ args.tasks.getD [], e.1 < set.tasks.length ∧ e.2.length = (set.task e.1).numPartitions) :
      Launched (start (parseArgs set args) starts disk clock)

/-- What a run leaves as it is. -/
structure Fixed (s s' : Schedule) : Prop where
  tasks : s'.tasks = s.tasks
  cpus : s'.cpus = s.cpus
  selected : s'.selected = s.selected
  selectAll : s'.selectAll = s.selectAll
  only : s'.onlyRunSelected = s.onlyRunSelected
  force : s'.force = s.force

section
variable {s s' : Schedule} {t p t' p' d q i j : Nat} {out : Nat → Nat → Prop} {time : Int} {w : Worker}
variable {handed : List (Nat × Nat)} {sys sys' : System} {e : Event} {es : List Event}

theorem Fixed.refl (s : Schedule) : Fixed s s := ⟨rfl,rfl,rfl,rfl,rfl,rfl⟩

theorem Fixed.trans {s'' : Schedule} (first : Fixed s s') (second : Fixed s' s'') : Fixed s s'' :=
  ⟨second.tasks.trans first.tasks,second.cpus.trans first.cpus,second.selected.trans first.selected,
    second.selectAll.trans first.selectAll,second.only.trans first.only,second.force.trans first.force⟩

theorem Frame.fixed (frame : Frame s s') : Fixed s s' := by
  rw [Frame] at frame
  rw [frame]
  exact ⟨rfl,rfl,rfl,rfl,rfl,rfl⟩

theorem Fixed.task (fixed : Fixed s s') (t : Nat) : s'.task t = s.task t := by
  rw [Schedule.task,fixed.tasks,Schedule.task]

theorem Fixed.valid (fixed : Fixed s s') : s'.Valid t p ↔ s.Valid t p := by
  rw [Schedule.Valid,fixed.tasks,fixed.task,Schedule.Valid]

theorem Fixed.needs (fixed : Fixed s s') : Needs s' t p d q ↔ Needs s t p d q := by
  rw [Needs,fixed.task,fixed.task,Needs]

theorem countSelected_fixed (s : Schedule) (w : Worker) : Fixed s (countSelected s w) := by
  unfold countSelected
  split <;> exact ⟨rfl,rfl,rfl,rfl,rfl,rfl⟩

theorem Took.fixed (took : Took s s' w) : Fixed s s' := by
  rw [took.shape]
  exact ⟨rfl,rfl,rfl,rfl,rfl,rfl⟩

theorem proceed_fixed (sys : System) (i : Nat) : Fixed sys.schedule (proceed sys i).schedule := by
  have after := proceed_cases sys i
  generalize proceed sys i = next at after ⊢
  cases after with
  | waits => exact Fixed.refl _
  | leaves => exact Fixed.refl _
  | takes must taken => exact (takeNext_took taken).fixed

theorem Safe.marked (safe : Safe sys) (place : sys.places i = .acked w time)
    (marked : complete (countSelected sys.schedule w) w.task w.partition time = some s) :
    Marked time (Away (countSelected sys.schedule w) sys.handed) (countSelected sys.schedule w) w.task w.partition s ∧
      Sound s sys.handed := by
  have alike := countSelected_alike sys.schedule w
  have away := alike.away.mpr (safe.held i w.task w.partition (by rw [place]; rfl))
  obtain ⟨s',completed,spec,sound⟩ := (alike.sound safe.sound).completed away (safe.timed i time (by rw [place]; rfl))
  cases completed.symm.trans marked
  exact ⟨spec,sound⟩

theorem completing_schedule (sys : System) (i : Nat) (s : Schedule) : (completing sys i s).schedule = s := by
  unfold completing
  dsimp only
  split <;> rfl

theorem safe_fixed (safe : Safe sys) (stepped : step sys e = some sys') : Fixed sys.schedule sys'.schedule := by
  have moves := step_moves stepped
  cases moves with
  | entered free place ongoing =>
    refine Fixed.trans ?_ (proceed_fixed (entering sys) _)
    exact ⟨rfl,rfl,rfl,rfl,rfl,rfl⟩
  | rose free place => exact proceed_fixed sys _
  | completed place free marked =>
    rw [completing_schedule]
    exact (countSelected_fixed _ _).trans (safe.marked place marked).1.frame.fixed
  | _ => exact ⟨rfl,rfl,rfl,rfl,rfl,rfl⟩

theorem safe_run (safe : Safe sys) (ran : Ran step sys es sys') : Safe sys' ∧ Fixed sys.schedule sys'.schedule :=
  ⟨ran.keeps Safe safe fun _ _ _ _ safe stepped => safe.step stepped,
    ran.related (fun a b => Fixed a.schedule b.schedule) safe (fun s => Fixed.refl s.schedule)
      (fun a b c (first : Fixed a.schedule b.schedule) (second : Fixed b.schedule c.schedule) => first.trans second) fun _ _ _ _ safe stepped => ⟨safe.step stepped,safe_fixed safe stepped⟩⟩

theorem parseArgs_alike (s : Schedule) (args : Args) : Alike s (parseArgs s args) := by
  have all : ∀ (entries : List (Nat × List Bool)) (s : Schedule), Alike s (entries.foldl select s) := by
    intro entries
    induction entries with
    | nil => exact Alike.refl
    | cons entry entries ih =>
      intro s
      refine Alike.trans ?_ (ih (select s entry))
      exact ⟨rfl,rfl,rfl,rfl,rfl,fun _ _ => rfl,fun _ _ => rfl⟩
  refine Alike.trans ?_ (all (args.tasks.getD []) _)
  exact ⟨rfl,rfl,rfl,rfl,rfl,fun _ _ => rfl,fun _ _ => rfl⟩

theorem Ready.sound (ready : Ready s) : Sound s [] := by
  refine ⟨ready.good.congr fun t p => ?_,ready.settled,ready.quiet,List.nodup_nil,fun c member => absurd member List.not_mem_nil,?_⟩
  · constructor
    · exact False.elim
    · exact fun away => absurd away.1 List.not_mem_nil
  · intro t p _ something finished
    exact absurd (ready.untouched t p something) finished.2

theorem Launched.safe (launched : Launched sys) : Safe sys := by
  cases launched with
  | @mk n cpus calls built set disk now clock args starts some_ ran setUp later after named =>
    obtain ⟨s',settled,ready⟩ := setup_ready some_ ran disk (ne_of_gt later)
    cases settled.symm.trans setUp
    have two : Alike (parseArgs set args) (start (parseArgs set args) starts disk clock).schedule :=
      ⟨rfl,rfl,rfl,rfl,rfl,fun _ _ => rfl,fun _ _ => rfl⟩
    have none_ : ∀ i, key ((start (parseArgs set args) starts disk clock).places i) = none := by
      intro i
      show key (if _ then _ else _) = none
      split <;> rfl
    refine ⟨two.sound ((parseArgs_alike set args).sound ready.sound),fun i t p has => ?_,fun i j c has => ?_,fun i time has => ?_,lt_of_lt_of_le later after⟩
    · rw [none_ i] at has
      cases has
    · rw [none_ i] at has
      cases has
    · change timeOf (if _ then _ else _) = some time at has
      split at has <;> cases has

/-- No link is handed out twice, none to two threads, and none before all it depends on has
    completed; nothing that does nothing is handed out. -/
theorem handed_once (launched : Launched sys) (ran : Ran step sys es sys') :
    sys'.handed.Nodup ∧ (∀ i j c, key (sys'.places i) = some c → key (sys'.places j) = some c → i = j) ∧
      ∀ t p, (t,p) ∈ sys'.handed → sys.schedule.Valid t p ∧ (sys.schedule.task t).doNothing = false ∧
        ∀ d q, Needs sys.schedule t p d q → Finished sys'.schedule d q := by
  obtain ⟨safe,fixed⟩ := safe_run launched.safe ran
  refine ⟨safe.sound.once,safe.apart,fun t p member => ?_⟩
  obtain ⟨valid,something,free⟩ := safe.sound.known (t,p) member
  refine ⟨fixed.valid.mp valid,(fixed.task t) ▸ something,fun d q needs => ?_⟩
  have met : Met sys'.schedule t p := by
    by_contra unmet
    rw [(safe.sound.settled t p valid).mpr unmet] at free
    cases free
  exact met d q (fixed.needs.mpr needs)

/-- One thread, for the two tasks of `sampleCalls`, of which no ack file is there. -/
def sample : System :=
  let built := outcome call (init 2 1) sampleCalls
  let set := (scheduleSetup (fun _ _ => 0) 1 built).getD built
  start (parseArgs set ⟨0,false,false,none⟩) (fun _ => 0) (fun _ _ => 0) 2

/-- The thread takes one worker, runs it and completes it. -/
def worked : List Event := [.enter 0,.look 0 [],.finish 0 true,.writeAck 0,.complete 0]

def sampleRun : List Event := worked ++ worked ++ worked ++ [.enter 0,.leave 0]

theorem sample_launched : Launched sample := by
  refine .mk (by decide) sampleCalls_ran ?_ (show (0 : Int) < 1 by decide) (show (1 : Int) ≤ 2 by decide) fun e named => by cases named
  have leads : (scheduleSetup (fun _ _ => 0) 1 (outcome call (init 2 1) sampleCalls)).isSome = true := by decide +kernel
  obtain ⟨set,same⟩ := Option.isSome_iff_exists.mp leads
  rw [same,Option.getD_some]

theorem sample_ran : Ran step sample sampleRun (outcome step sample sampleRun) := ran_outcome (by decide +kernel)

theorem handed_once_sample : (outcome step sample sampleRun).handed.Nodup ∧
    (∀ i j c, key ((outcome step sample sampleRun).places i) = some c → key ((outcome step sample sampleRun).places j) = some c → i = j) ∧
      ∀ t p, (t,p) ∈ (outcome step sample sampleRun).handed → sample.schedule.Valid t p ∧ (sample.schedule.task t).doNothing = false ∧
        ∀ d q, Needs sample.schedule t p d q → Finished (outcome step sample sampleRun).schedule d q :=
  handed_once sample_launched sample_ran

/-- Wherever the threads are: a link is in the list that its flags name, and in no other,
    unless it has been handed out and is not complete; the counters are the lengths of the
    lists; a link waits as long as something it depends on is not complete. -/
theorem links_filed (launched : Launched sys) (ran : Ran step sys es sys') :
    (∀ r p, (sys'.schedule.state r p).Nodup) ∧
      (∀ r p t, t ∈ sys'.schedule.state r p ↔ sys.schedule.Valid t p ∧ rootOf (sys'.schedule.stateLinkage t p) = r ∧
        ¬ ((t,p) ∈ sys'.handed ∧ ¬ Finished sys'.schedule t p)) ∧
      sys'.schedule.numAvailable = shelf sys'.schedule .available ∧ sys'.schedule.numTasksToRun = shelf sys'.schedule .tasksToFinish ∧
      ∀ t p, sys.schedule.Valid t p → ((sys'.schedule.stateLinkage t p).waitingOnOthers = true ↔
        ∃ d q, Needs sys.schedule t p d q ∧ ¬ Finished sys'.schedule d q) := by
  obtain ⟨safe,fixed⟩ := safe_run launched.safe ran
  have filed := safe.sound.good.filed
  have away : ∀ t p, Away sys'.schedule sys'.handed t p ↔ (t,p) ∈ sys'.handed ∧ ¬ Finished sys'.schedule t p := by
    intro t p
    refine and_congr_right fun member => ?_
    rw [Finished,(safe.sound.known _ member).2.2]
    simp
  refine ⟨filed.nodup,fun r p t => ?_,filed.available,filed.toRun,fun t p valid => ?_⟩
  · rw [← away,← fixed.valid]
    exact filed.filed r p t
  · rw [safe.sound.settled t p (fixed.valid.mpr valid),Met]
    simp only [fixed.needs,not_forall,exists_prop]

theorem links_filed_sample : (∀ r p, ((outcome step sample worked).schedule.state r p).Nodup) ∧
    (∀ r p t, t ∈ (outcome step sample worked).schedule.state r p ↔
      sample.schedule.Valid t p ∧ rootOf ((outcome step sample worked).schedule.stateLinkage t p) = r ∧
        ¬ ((t,p) ∈ (outcome step sample worked).handed ∧ ¬ Finished (outcome step sample worked).schedule t p)) ∧
    (outcome step sample worked).schedule.numAvailable = shelf (outcome step sample worked).schedule .available ∧
    (outcome step sample worked).schedule.numTasksToRun = shelf (outcome step sample worked).schedule .tasksToFinish ∧
    ∀ t p, sample.schedule.Valid t p → (((outcome step sample worked).schedule.stateLinkage t p).waitingOnOthers = true ↔
      ∃ d q, Needs sample.schedule t p d q ∧ ¬ Finished (outcome step sample worked).schedule d q) :=
  links_filed sample_launched (ran_outcome (by decide +kernel))

end

end AnotherC.Scheduler
