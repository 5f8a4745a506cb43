import AnotherC.Io.SchedulerLive
import Mathlib.Algebra.Order.BigOperators.Group.Finset
import Mathlib.Algebra.Group.Action.Defs
import Mathlib.Algebra.Order.Ring.Nat
import Mathlib.Algebra.BigOperators.Ring.Finset

/-!
# Every run ends

Each step of a thread is paid from what the links, the threads and the flag that ends the
run hold (`funds`): a broadcast is paid by the link that completes, or by the flag. So the
threads take no more steps than that, but for those that waits ending by themselves bring in
(`run_bounded`).

The threads at work are counted by `num_running`, which never falls below zero and leaves
room for those that wait (`running_counted`).
-/
namespace AnotherC.Scheduler
open AnotherC.Lib.Events
set_option linter.unusedVariables false

/-- What a link holds, by the number of threads it may wake. -/
def price (s : Schedule) (handed : List (Nat × Nat)) (c : Nat × Nat) : Nat :=
  if Finished s c.1 c.2 then 0 else if c ∈ handed then 2 * s.cpus + 5 else 2 * s.cpus + 6

/-- What a thread holds. -/
def cost : Place → Nat
  | .calling => 5
  | .dozing => 3
  | .asleep => 2
  | .woken => 4
  | .holding _ => 4
  | .running _ => 3
  | .ending _ _ => 2
  | .acked _ _ => 1
  | .leaving => 1
  | .gone => 0

/-- A thread that `num_running` counts. -/
def busy : Place → Nat
  | .calling => 1
  | .holding _ => 1
  | .running _ => 1
  | .ending _ _ => 1
  | .acked _ _ => 1
  | _ => 0

/-- A thread in the loop of `get_next_worker`. -/
def waiting : Place → Nat
  | .dozing => 1
  | .asleep => 1
  | .woken => 1
  | _ => 0

def workerOf : Place → Option Worker
  | .holding w => some w
  | .running w => some w
  | .ending w _ => some w
  | .acked w _ => some w
  | _ => none

def links (s : Schedule) : Finset (Nat × Nat) :=
  (Finset.range s.tasks.length ×ˢ Finset.range s.numPartitions).filter fun c => s.Valid c.1 c.2

def stock (s : Schedule) (handed : List (Nat × Nat)) : Nat := ∑ c ∈ links s, price s handed c

/-- What the threads hold together, by what each holds where it is. -/
def weigh (weight : Place → Nat) (n : Nat) (places : Nat → Place) : Nat := ∑ i ∈ Finset.range n, weight (places i)

def reserve (s : Schedule) : Nat := if s.isDone then 0 else 2 * s.cpus

def funds (sys : System) : Nat :=
  stock sys.schedule sys.handed + weigh cost sys.schedule.cpus sys.places + reserve sys.schedule

/-- What an event brings in that is no step of a thread. -/
def income : Event → Nat
  | .spurious _ => 3
  | .tick _ => 1
  | _ => 0

/-- The threads there are. -/
def Within (sys : System) : Prop := ∀ i, sys.schedule.cpus ≤ i → sys.places i = .gone

/-- `num_running` counts the threads at work, and those that wait would still fit in. -/
structure Counted (sys : System) : Prop where
  within : Within sys
  busy : weigh busy sys.schedule.cpus sys.places ≤ sys.schedule.numRunning
  waiting : sys.schedule.numRunning + weigh waiting sys.schedule.cpus sys.places ≤ sys.schedule.cpus
  share : ∀ i w, workerOf (sys.places i) = some w → 0 < w.running ∧ w.running ≤ sys.schedule.cpus

section
variable {s s' : Schedule} {t p i j : Nat} {time : Int} {w : Worker}
variable {handed : List (Nat × Nat)} {sys sys' : System} {e : Event} {es : List Event}

theorem mem_links (sized : Sized s) {c : Nat × Nat} : c ∈ links s ↔ s.Valid c.1 c.2 := by
  rw [links,Finset.mem_filter]
  refine and_iff_right_of_imp fun valid => ?_
  rw [Finset.mem_product,Finset.mem_range,Finset.mem_range]
  exact ⟨valid.1,sized.inside valid⟩

theorem weigh_move (weight : Place → Nat) (sys : System) {n i : Nat} (place : Place) (inside : i < n) :
    weigh weight n (sys.move i place).places + weight (sys.places i) = weigh weight n sys.places + weight place := by
  have member := Finset.mem_range.mpr inside
  unfold weigh
  rw [← Finset.add_sum_erase _ _ member,← Finset.add_sum_erase _ (fun j => weight (sys.places j)) member]
  have here : weight ((sys.move i place).places i) = weight place := congrArg weight (if_pos rfl)
  have rest : ∑ j ∈ (Finset.range n).erase i, weight ((sys.move i place).places j) =
      ∑ j ∈ (Finset.range n).erase i, weight (sys.places j) := by
    apply Finset.sum_congr rfl
    intro j other
    exact congrArg weight (if_neg (Finset.mem_erase.mp other).1)
  rw [here,rest]
  omega

theorem cost_wake (place : Place) : cost (wake place) ≤ cost place + 2 := by
  cases place <;> simp [wake,cost]

theorem weigh_wake (n : Nat) (places : Nat → Place) : weigh cost n (fun j => wake (places j)) ≤ weigh cost n places + 2 * n := by
  have all := Finset.sum_le_sum (s := Finset.range n) fun j _ => cost_wake (places j)
  rw [Finset.sum_add_distrib,Finset.sum_const,Finset.card_range,nsmul_eq_mul,Nat.cast_id,Nat.mul_comm] at all
  exact all

/-- Schedules whose links hold the same. -/
theorem stock_congr (tasks : s'.tasks = s.tasks) (parts : s'.numPartitions = s.numPartitions) (cpus : s'.cpus = s.cpus)
    (finished : ∀ t p, Finished s' t p ↔ Finished s t p) : stock s' handed = stock s handed := by
  have task : ∀ t, s'.task t = s.task t := fun t => by rw [Schedule.task,tasks,Schedule.task]
  have valid : ∀ t p, s'.Valid t p ↔ s.Valid t p := fun t p => by rw [Schedule.Valid,tasks,task,Schedule.Valid]
  have same : links s' = links s := by
    unfold links
    simp only [tasks,parts,valid]
  unfold stock
  rw [same]
  apply Finset.sum_congr rfl
  intro c _
  unfold price
  simp only [finished,cpus]

/-- A link that is handed out pays one. -/
theorem stock_taken (sized : Sized s) (valid : s.Valid t p) (unfinished : ¬ Finished s t p) (new : (t,p) ∉ handed) :
    stock s ((t,p) :: handed) + 1 = stock s handed := by
  have member : (t,p) ∈ links s := (mem_links sized).mpr valid
  unfold stock
  rw [← Finset.add_sum_erase _ _ member,← Finset.add_sum_erase _ (price s handed) member]
  have here : price s ((t,p) :: handed) (t,p) = 2 * s.cpus + 5 := by
    rw [price,if_neg unfinished,if_pos List.mem_cons_self]
  have here' : price s handed (t,p) = 2 * s.cpus + 6 := by
    rw [price,if_neg unfinished,if_neg new]
  have rest : ∑ c ∈ (links s).erase (t,p), price s ((t,p) :: handed) c = ∑ c ∈ (links s).erase (t,p), price s handed c := by
    apply Finset.sum_congr rfl
    intro c other
    have apart := (Finset.mem_erase.mp other).1
    unfold price
    simp only [List.mem_cons,apart,false_or]
  rw [here,here',rest]
  omega

/-- A link that completes pays for a thread that calls again and for waking all others. -/
theorem stock_marked {out : Nat → Nat → Prop} (handed : List (Nat × Nat)) (marked : Marked time out s t p s') (some_ : time ≠ 0)
    (sized : Sized s) (valid : s.Valid t p) (zero : (s.stateLinkage t p).completed = 0) (old : (t,p) ∈ handed) :
    stock s' handed + (2 * s.cpus + 5) ≤ stock s handed := by
  have member : (t,p) ∈ links s := (mem_links sized).mpr valid
  have same : links s' = links s := by
    have parts : s'.numPartitions = s.numPartitions := by
      have frame := marked.frame
      rw [Frame] at frame
      rw [frame]
    unfold links
    simp only [marked.frame.valid,marked.frame.tasks,parts]
  have cpus := marked.frame.fixed.cpus
  unfold stock
  rw [same,← Finset.add_sum_erase _ _ member,← Finset.add_sum_erase _ (price s handed) member]
  have finished : Finished s' t p := by
    rw [Finished,marked.here]
    exact ⟨rfl,some_⟩
  have here : price s' handed (t,p) = 0 := if_pos finished
  have here' : price s handed (t,p) = 2 * s.cpus + 5 := by
    rw [price,if_neg fun before => before.2 zero,if_pos old]
  have rest : ∑ c ∈ (links s).erase (t,p), price s' handed c ≤ ∑ c ∈ (links s).erase (t,p), price s handed c := by
    apply Finset.sum_le_sum
    intro c _
    unfold price
    rw [cpus]
    by_cases before : Finished s c.1 c.2
    · rw [if_pos before,if_pos (marked.finished zero before)]
    · rw [if_neg before]
      split
      · exact Nat.zero_le _
      · exact le_rfl
  omega

theorem Within.inside {there : Place} (within : Within sys) (place : sys.places i = there) (here : there ≠ .gone) :
    i < sys.schedule.cpus := by
  by_contra beyond
  exact here (place.symm.trans (within i (Nat.le_of_not_lt beyond)))

theorem Within.move (within : Within sys) (inside : i < sys.schedule.cpus) {place : Place} {s : Schedule} (cpus : s.cpus = sys.schedule.cpus)
    (beyond : s.cpus ≤ j) : (sys.move i place).places j = .gone := by
  rw [cpus] at beyond
  rw [move_places,if_neg fun same : j = i => absurd (same ▸ inside) (Nat.not_lt.mpr beyond)]
  exact within j beyond

/-- The funds behind the end of `get_next_worker`. -/
theorem funds_proceed (safe : Safe sys) (within : Within sys) (inside : i < sys.schedule.cpus) (rich : 4 ≤ cost (sys.places i)) :
    Within (proceed sys i) ∧ funds (proceed sys i) + 1 ≤ funds sys := by
  have after := proceed_cases sys i
  generalize proceed sys i = next at after ⊢
  cases after with
  | waits must =>
    have moved := weigh_move cost sys .dozing inside
    refine ⟨fun j beyond => within.move inside rfl beyond,?_⟩
    show stock sys.schedule sys.handed + weigh cost sys.schedule.cpus (sys.move i .dozing).places + reserve sys.schedule + 1 ≤ funds sys
    change _ = _ + 3 at moved
    unfold funds
    omega
  | leaves must nothing =>
    have moved := weigh_move cost sys .leaving inside
    refine ⟨fun j beyond => within.move inside rfl beyond,?_⟩
    show stock sys.schedule sys.handed + weigh cost sys.schedule.cpus (sys.move i .leaving).places + reserve sys.schedule + 1 ≤ funds sys
    change _ = _ + 1 at moved
    unfold funds
    omega
  | @takes s w must taken =>
    have took := takeNext_took taken
    have member := took.member
    have alike := took.alike
    obtain ⟨_,valid,_,zero,_⟩ := safe.sound.good.taken member
    obtain ⟨_,new,_⟩ := safe.sound.taken member
    have fixed := took.fixed
    have moved := weigh_move cost sys (.holding w) inside
    have paid := stock_taken safe.sound.good.sized valid (fun finished => finished.2 zero) new
    have same : stock s ((w.task,w.partition) :: sys.handed) = stock sys.schedule ((w.task,w.partition) :: sys.handed) :=
      stock_congr alike.tasks alike.parts fixed.cpus fun t p => alike.finished
    have kept : reserve s = reserve sys.schedule := by rw [reserve,took.selected.1,fixed.cpus,reserve]
    refine ⟨fun j beyond => within.move inside fixed.cpus beyond,?_⟩
    show stock s ((w.task,w.partition) :: sys.handed) + weigh cost s.cpus (sys.move i (.holding w)).places + reserve s + 1 ≤ funds sys
    rw [same,kept,fixed.cpus]
    change _ = _ + 4 at moved
    unfold funds
    omega

/-- A thread goes on outside the mutex, for less than it held. -/
theorem funds_moved (within : Within sys) (inside : i < sys.schedule.cpus) {place : Place} (cheaper : cost place + 1 ≤ cost (sys.places i))
    (level : Level sys.schedule sys'.schedule) (places : sys'.places = (sys.move i place).places) (same : sys'.handed = sys.handed) :
    Within sys' ∧ funds sys' + 1 ≤ funds sys := by
  have moved := weigh_move cost sys place inside
  have stocks : stock sys'.schedule sys.handed = stock sys.schedule sys.handed :=
    stock_congr level.alike.tasks level.alike.parts level.fixed.cpus fun t p => level.alike.finished
  have kept : reserve sys'.schedule = reserve sys.schedule := by rw [reserve,level.isDone,level.fixed.cpus,reserve]
  refine ⟨fun j beyond => ?_,?_⟩
  · rw [places]
    exact within.move inside level.fixed.cpus beyond
  · unfold funds
    rw [same,places,stocks,kept,level.fixed.cpus]
    omega

theorem funds_completed (safe : Safe sys) (within : Within sys) (place : sys.places i = .acked w time)
    (marked : complete (countSelected sys.schedule w) w.task w.partition time = some s) :
    Within (completing sys i s) ∧ funds (completing sys i s) + 1 ≤ funds sys := by
  have inside := within.inside place fun same => by cases same
  obtain ⟨spec,sound⟩ := safe.marked place marked
  have alike := countSelected_alike sys.schedule w
  have fixed₁ := countSelected_fixed sys.schedule w
  have fixed := fixed₁.trans spec.frame.fixed
  have away := safe.held i w.task w.partition (by rw [place]; rfl)
  have valid := (safe.sound.known _ away.1).1
  have paid := stock_marked sys.handed spec (safe.timed i time (by rw [place]; rfl)) (alike.good safe.sound.good).sized
    (alike.valid.mpr valid) ((alike.completed _ _).trans away.2) away.1
  have stocks : stock (countSelected sys.schedule w) sys.handed = stock sys.schedule sys.handed :=
    stock_congr alike.tasks alike.parts fixed₁.cpus fun t p => alike.finished
  have moved := weigh_move cost sys .calling inside
  rw [place] at moved
  change _ + 1 = _ + 5 at moved
  have kept : reserve s ≤ reserve sys.schedule := by
    have isDone : s.isDone = (countSelected sys.schedule w).isDone := by
      have frame := spec.frame
      rw [Frame] at frame
      rw [frame]
    unfold reserve
    rw [isDone,fixed.cpus]
    rcases countSelected_counts sys.schedule w with ⟨_,_,now⟩ | ⟨_,same⟩
    · rw [now]
      split
      · exact Nat.zero_le _
      · split at * <;> simp_all
    · rw [same]
  have woken := weigh_wake sys.schedule.cpus (sys.move i .calling).places
  rw [stocks,fixed₁.cpus] at paid
  constructor
  · intro j beyond
    rw [completing_schedule] at beyond
    exact (completing_place sys i s j).2.2.2 (within.move inside fixed.cpus beyond)
  · have spent : weigh cost sys.schedule.cpus (completing sys i s).places ≤
        weigh cost sys.schedule.cpus (sys.move i .calling).places + 2 * sys.schedule.cpus := by
      unfold completing
      dsimp only
      split
      · exact woken
      · exact Nat.le_add_right _ _
    unfold funds
    rw [completing_schedule,completing_handed,fixed.cpus]
    omega

/-- Every step is paid. -/
theorem funds_step (safe : Safe sys) (within : Within sys) (stepped : step sys e = some sys') :
    Within sys' ∧ funds sys' + 1 ≤ funds sys + income e := by
  have moves := step_moves stepped
  cases moves with
  | @turnedAway i free place ended =>
    have inside := within.inside place fun same => by cases same
    exact funds_moved within inside (by rw [place]; decide) (Level.refl _) rfl rfl
  | @entered i free place ongoing =>
    have inside := within.inside place fun same => by cases same
    have safe' : Safe (entering sys) :=
      safe.shift ⟨rfl,rfl,rfl,rfl,rfl,fun _ _ => rfl,fun _ _ => rfl⟩ rfl (fun j c has => has) (fun j time has => .inl has) le_rfl
    have paid := funds_proceed safe' within inside (by show 4 ≤ cost (sys.places i); rw [place]; decide)
    have same : funds (entering sys) = funds sys := by
      have stocks : stock (entering sys).schedule sys.handed = stock sys.schedule sys.handed :=
        stock_congr rfl rfl rfl fun t p => Iff.rfl
      show stock (entering sys).schedule sys.handed + _ + _ = _
      rw [stocks]
      rfl
    rw [same] at paid
    exact paid
  | @dozed i place =>
    have inside := within.inside place fun same => by cases same
    exact funds_moved within inside (by rw [place]; decide) (Level.refl _) rfl rfl
  | @rose i free place =>
    have inside := within.inside place fun same => by cases same
    exact funds_proceed safe within inside (by rw [place]; decide)
  | @stirred i place =>
    have inside := within.inside place fun same => by cases same
    have moved := weigh_move cost sys .woken inside
    rw [place] at moved
    change _ + 2 = _ + 4 at moved
    refine ⟨fun j beyond => within.move inside rfl beyond,?_⟩
    show stock sys.schedule sys.handed + weigh cost sys.schedule.cpus (sys.move i .woken).places + reserve sys.schedule + 1 ≤ funds sys + 3
    unfold funds
    omega
  | @looked i w files place =>
    have inside := within.inside place fun same => by cases same
    have level : Level sys.schedule (looking sys w) := ⟨setAck_alike _ _ _ _,⟨rfl,rfl,rfl,rfl,rfl,rfl⟩,rfl,rfl⟩
    refine funds_moved within inside ?_ level rfl rfl
    rw [place]
    unfold decision
    dsimp only
    split
    · exact Nat.le_refl 4
    · exact Nat.le_succ 3
  | @finished i w place =>
    have inside := within.inside place fun same => by cases same
    exact funds_moved within inside (by rw [place]; exact Nat.le_refl 3) (Level.refl _) rfl rfl
  | @failed i w place =>
    have inside := within.inside place fun same => by cases same
    exact funds_moved within inside (by rw [place]; exact Nat.le_succ 2) (Level.refl _) rfl rfl
  | @wrote i w time place =>
    have inside := within.inside place fun same => by cases same
    exact funds_moved within inside (by rw [place]; exact Nat.le_refl 2) (Level.refl _) (rfl : _ = (sys.move i (.acked w time)).places) rfl
  | completed place free marked => exact funds_completed safe within place marked
  | @left i place ended =>
    have inside := within.inside place fun same => by cases same
    exact funds_moved within inside (by rw [place]; decide) (Level.refl _) rfl rfl
  | @leftFirst i place ongoing =>
    have inside := within.inside place fun same => by cases same
    have moved := weigh_move cost sys .gone inside
    rw [place] at moved
    change _ + 1 = _ + 0 at moved
    have woken := weigh_wake sys.schedule.cpus (sys.move i .gone).places
    have stocks : stock { sys.schedule with isDone := true } sys.handed = stock sys.schedule sys.handed :=
      stock_congr rfl rfl rfl fun t p => Iff.rfl
    have before : reserve sys.schedule = 2 * sys.schedule.cpus := if_neg (Bool.eq_false_iff.mp ongoing)
    refine ⟨fun j beyond => congrArg wake (within.move inside rfl beyond),?_⟩
    show stock { sys.schedule with isDone := true } sys.handed +
      weigh cost sys.schedule.cpus (fun j => wake ((sys.move i .gone).places j)) + 0 + 1 ≤ funds sys + 0
    unfold funds
    rw [stocks,before]
    omega
  | ticked later => exact ⟨within,Nat.le_refl _⟩

/-- No run is longer than what the links and threads pay for, and what waits that end by
    themselves bring in. -/
theorem run_bounded (launched : Launched sys) (ran : Ran step sys es sys') :
    es.length ≤ (links sys.schedule).card * (2 * sys.schedule.cpus + 6) + 7 * sys.schedule.cpus + (es.map income).sum := by
  have within : Within sys := launched.awake.outside
  have paid := ran.affordable (fun sys => Safe sys ∧ Within sys) funds income ⟨launched.safe,within⟩ fun s e t _ both stepped =>
    have one := funds_step both.1 both.2 stepped
    ⟨⟨both.1.step stepped,one.1⟩,one.2⟩
  have stocks : stock sys.schedule sys.handed ≤ (links sys.schedule).card * (2 * sys.schedule.cpus + 6) := by
    unfold stock
    refine (Finset.sum_le_card_nsmul _ _ (2 * sys.schedule.cpus + 6) fun c _ => ?_).trans (le_of_eq (smul_eq_mul _ _))
    unfold price
    split
    · exact Nat.zero_le _
    · split
      · exact Nat.le_succ _
      · exact Nat.le_refl _
  have labours : weigh cost sys.schedule.cpus sys.places ≤ 5 * sys.schedule.cpus := by
    unfold weigh
    refine (Finset.sum_le_card_nsmul _ _ 5 fun i _ => ?_).trans ?_
    · cases sys.places i <;> simp [cost]
    · rw [Finset.card_range,smul_eq_mul,Nat.mul_comm]
  have reserves : reserve sys.schedule ≤ 2 * sys.schedule.cpus := by
    unfold reserve
    split
    · exact Nat.zero_le _
    · exact Nat.le_refl _
  unfold funds at paid
  omega

theorem run_bounded_sample : sampleRun.length ≤
    (links sample.schedule).card * (2 * sample.schedule.cpus + 6) + 7 * sample.schedule.cpus + (sampleRun.map income).sum :=
  run_bounded sample_launched sample_ran

/-! ## The threads at work -/

theorem weigh_member (weight : Place → Nat) {n : Nat} (places : Nat → Place) (inside : i < n) : weight (places i) ≤ weigh weight n places :=
  Finset.single_le_sum (f := fun j => weight (places j)) (fun _ _ => Nat.zero_le _) (Finset.mem_range.mpr inside)

theorem busy_wake (place : Place) : busy (wake place) = busy place := by
  cases place <;> rfl

theorem waiting_wake (place : Place) : waiting (wake place) = waiting place := by
  cases place <;> rfl

theorem workerOf_wake (place : Place) : workerOf (wake place) = workerOf place := by
  cases place <;> rfl

theorem workerOf_move {place : Place} (has : workerOf ((sys.move i place).places j) = some w) :
    workerOf place = some w ∨ workerOf (sys.places j) = some w := by
  rw [move_places] at has
  split at has
  · exact .inl has
  · exact .inr has

theorem Counted.broadcast (counted : Counted sys) : Counted sys.broadcast where
  within i beyond := congrArg wake (counted.within i beyond)
  busy := by
    show weigh Scheduler.busy _ (fun j => wake (sys.places j)) ≤ _
    unfold weigh
    simp only [busy_wake]
    exact counted.busy
  waiting := by
    show _ + weigh Scheduler.waiting _ (fun j => wake (sys.places j)) ≤ _
    unfold weigh
    simp only [waiting_wake]
    exact counted.waiting
  share i w has := by
    refine counted.share i w ?_
    rw [← workerOf_wake]
    exact has

/-- A thread goes on with the worker it has, and is not counted if it was not. -/
theorem Counted.moved (counted : Counted sys) (inside : i < sys.schedule.cpus) (place : Place)
    (works : Scheduler.busy place ≤ Scheduler.busy (sys.places i)) (waits : Scheduler.waiting place ≤ Scheduler.waiting (sys.places i))
    (worker : ∀ w, workerOf place = some w → ∃ w', workerOf (sys.places i) = some w' ∧ w.running = w'.running)
    (cpus : sys'.schedule.cpus = sys.schedule.cpus) (running : sys'.schedule.numRunning = sys.schedule.numRunning)
    (places : sys'.places = (sys.move i place).places) : Counted sys' where
  within j beyond := by
    rw [places]
    exact counted.within.move inside cpus beyond
  busy := by
    have moved := weigh_move Scheduler.busy sys place inside
    have before := counted.busy
    rw [cpus,running,places]
    omega
  waiting := by
    have moved := weigh_move Scheduler.waiting sys place inside
    have before := counted.waiting
    rw [cpus,running,places]
    omega
  share j w has := by
    rw [places] at has
    rw [cpus]
    rcases workerOf_move has with here | other
    · obtain ⟨w',old,same⟩ := worker w here
      rw [same]
      exact counted.share i w' old
    · exact counted.share j w other

/-- The end of `get_next_worker`, for a thread that is not counted. -/
theorem counted_proceed (within : Within sys) (inside : i < sys.schedule.cpus)
    (works : weigh busy sys.schedule.cpus sys.places ≤ sys.schedule.numRunning + busy (sys.places i))
    (waits : sys.schedule.numRunning + weigh waiting sys.schedule.cpus sys.places + 1 ≤ sys.schedule.cpus + waiting (sys.places i))
    (share : ∀ i w, workerOf (sys.places i) = some w → 0 < w.running ∧ w.running ≤ sys.schedule.cpus) : Counted (proceed sys i) := by
  have after := proceed_cases sys i
  generalize proceed sys i = next at after ⊢
  -- a place that holds no worker and is not counted
  have still : ∀ place, workerOf place = none → busy place = 0 → waiting place ≤ 1 → Counted (sys.move i place) := by
    intro place none_ idle one
    have works' := weigh_move busy sys place inside
    have waits' := weigh_move waiting sys place inside
    refine ⟨fun j beyond => within.move inside rfl beyond,?_,?_,fun j w has => ?_⟩
    · show weigh busy sys.schedule.cpus (sys.move i place).places ≤ sys.schedule.numRunning
      omega
    · show sys.schedule.numRunning + weigh waiting sys.schedule.cpus (sys.move i place).places ≤ sys.schedule.cpus
      omega
    · rcases workerOf_move has with here | other
      · rw [none_] at here
        cases here
      · exact share j w other
  cases after with
  | waits must => exact still .dozing rfl rfl le_rfl
  | leaves must nothing => exact still .leaving rfl rfl (Nat.zero_le _)
  | @takes s w must taken =>
    have took := takeNext_took taken
    have cpus := took.fixed.cpus
    have running : s.numRunning = sys.schedule.numRunning + 1 := by rw [took.shape]
    have works' := weigh_move busy sys (.holding w) inside
    have waits' := weigh_move waiting sys (.holding w) inside
    change _ = _ + 1 at works'
    change _ = _ + 0 at waits'
    refine ⟨fun j beyond => within.move inside cpus beyond,?_,?_,fun j w' has => ?_⟩
    · show weigh busy s.cpus (sys.move i (.holding w)).places ≤ s.numRunning
      rw [cpus,running]
      omega
    · show s.numRunning + weigh waiting s.cpus (sys.move i (.holding w)).places ≤ s.cpus
      rw [cpus,running]
      omega
    · show 0 < w'.running ∧ w'.running ≤ s.cpus
      rw [cpus]
      rcases workerOf_move has with here | other
      · cases here
        have room := lt_of_le_of_lt (Nat.zero_le i) inside
        rw [took.share]
        omega
      · exact share j w' other

theorem counted_step (safe : Safe sys) (counted : Counted sys) (stepped : step sys e = some sys') : Counted sys' := by
  have moves := step_moves stepped
  cases moves with
  | turnedAway free place ended =>
    have inside := counted.within.inside place fun same => by cases same
    exact counted.moved inside .leaving (Nat.zero_le _) (Nat.zero_le _) (fun w has => by cases has) rfl rfl rfl
  | @entered i free place ongoing =>
    have inside := counted.within.inside place fun same => by cases same
    have here := weigh_member busy sys.places inside
    have works := counted.busy
    have waits := counted.waiting
    rw [place] at here
    change 1 ≤ _ at here
    refine counted_proceed counted.within inside ?_ ?_ counted.share
    · show weigh busy sys.schedule.cpus sys.places ≤ sys.schedule.numRunning - 1 + busy (sys.places i)
      rw [place]
      change _ ≤ _ + 1
      omega
    · show sys.schedule.numRunning - 1 + weigh waiting sys.schedule.cpus sys.places + 1 ≤ sys.schedule.cpus + waiting (sys.places i)
      omega
  | dozed place =>
    have inside := counted.within.inside place fun same => by cases same
    exact counted.moved inside .asleep (Nat.zero_le _) (by rw [place]; exact le_rfl) (fun w has => by cases has) rfl rfl rfl
  | rose free place =>
    have inside := counted.within.inside place fun same => by cases same
    have works := counted.busy
    have waits := counted.waiting
    refine counted_proceed counted.within inside (by omega) ?_ counted.share
    rw [place]
    exact Nat.succ_le_succ waits
  | stirred place =>
    have inside := counted.within.inside place fun same => by cases same
    exact counted.moved inside .woken (Nat.zero_le _) (by rw [place]; exact le_rfl) (fun w has => by cases has) rfl rfl rfl
  | @looked i w files place =>
    have inside := counted.within.inside place fun same => by cases same
    have kinds : ∃ time, decision sys w files = .running { w with ackTime := getAckTime sys w } ∨
        decision sys w files = .ending { w with ackTime := getAckTime sys w } time := by
      unfold decision
      dsimp only
      split
      · exact ⟨0,.inl rfl⟩
      · exact ⟨_,.inr rfl⟩
    obtain ⟨time,kind⟩ := kinds
    refine counted.moved inside (decision sys w files) ?_ ?_ (fun w' has => ⟨w,by rw [place]; rfl,?_⟩) rfl rfl rfl
    · rw [place]
      rcases kind with same | same <;> rw [same] <;> exact le_rfl
    · rcases kind with same | same <;> rw [same] <;> exact Nat.zero_le _
    · rcases kind with same | same <;> rw [same] at has <;> cases has <;> rfl
  | finished place =>
    have inside := counted.within.inside place fun same => by cases same
    exact counted.moved inside _ (by rw [place]; exact le_rfl) (Nat.zero_le _) (fun w has => ⟨_,by rw [place]; rfl,by cases has; rfl⟩) rfl rfl rfl
  | failed place =>
    have inside := counted.within.inside place fun same => by cases same
    exact counted.moved inside .leaving (Nat.zero_le _) (Nat.zero_le _) (fun w has => by cases has) rfl rfl rfl
  | @wrote i w time place =>
    have inside := counted.within.inside place fun same => by cases same
    exact counted.moved inside (.acked w time) (by rw [place]; exact le_rfl) (Nat.zero_le _)
      (fun w' has => ⟨_,by rw [place]; rfl,by cases has; rfl⟩) rfl rfl rfl
  | @completed i w time s place free marked =>
    have inside := counted.within.inside place fun same => by cases same
    have frame := (safe.marked place marked).1.frame
    rw [Frame] at frame
    have cpus : s.cpus = sys.schedule.cpus := frame ▸ (countSelected_fixed _ _).cpus
    have running : s.numRunning = sys.schedule.numRunning := by
      rw [frame]
      unfold countSelected
      split <;> rfl
    have next : Counted { sys.move i .calling with schedule := s } :=
      counted.moved inside .calling (by rw [place]; exact le_rfl) (Nat.zero_le _) (fun w has => by cases has) cpus running rfl
    unfold completing
    dsimp only
    split
    · exact next.broadcast
    · exact next
  | left place ended =>
    have inside := counted.within.inside place fun same => by cases same
    exact counted.moved inside .gone (Nat.zero_le _) (Nat.zero_le _) (fun w has => by cases has) rfl rfl rfl
  | leftFirst place ongoing =>
    have inside := counted.within.inside place fun same => by cases same
    have next : Counted { sys.move _ .gone with schedule := { sys.schedule with isDone := true } } :=
      counted.moved inside .gone (Nat.zero_le _) (Nat.zero_le _) (fun w has => by cases has) rfl rfl rfl
    exact next.broadcast
  | ticked later => exact ⟨counted.within,counted.busy,counted.waiting,counted.share⟩

theorem Launched.counted (launched : Launched sys) : Counted sys := by
  have within : Within sys := launched.awake.outside
  cases launched with
  | @mk n cpus calls built set disk now clock args starts some_ ran setUp later after named =>
    have calls_ : ∀ i < (parseArgs set args).cpus, (start (parseArgs set args) starts disk clock).places i = .calling := fun i inside => if_pos inside
    refine ⟨within,?_,?_,fun i w has => ?_⟩
    · show weigh busy (parseArgs set args).cpus _ ≤ (parseArgs set args).cpus
      refine (Finset.sum_le_card_nsmul _ _ 1 fun i member => ?_).trans ?_
      · rw [calls_ i (Finset.mem_range.mp member)]
        exact le_rfl
      · rw [Finset.card_range,smul_eq_mul,Nat.mul_one]
    · show (parseArgs set args).cpus + weigh waiting (parseArgs set args).cpus _ ≤ (parseArgs set args).cpus
      have zero : weigh waiting (parseArgs set args).cpus (start (parseArgs set args) starts disk clock).places = 0 := by
        refine Finset.sum_eq_zero fun i member => ?_
        rw [calls_ i (Finset.mem_range.mp member)]
        rfl
      rw [zero]
      exact le_rfl
    · change workerOf (if _ then _ else _) = some w at has
      split at has <;> cases has

/-- Wherever the threads are: `num_running` counts each thread at work, so that the one that
    enters `get_next_worker` finds at least itself, and with the threads that wait it comes
    to no more than there are; each worker is told a share between one and all. -/
theorem running_counted (launched : Launched sys) (ran : Ran step sys es sys') :
    weigh busy sys'.schedule.cpus sys'.places ≤ sys'.schedule.numRunning ∧
      sys'.schedule.numRunning + weigh waiting sys'.schedule.cpus sys'.places ≤ sys.schedule.cpus ∧
      ∀ i w, workerOf (sys'.places i) = some w → 0 < w.running ∧ w.running ≤ sys.schedule.cpus := by
  have both := ran.keeps (fun sys => Safe sys ∧ Counted sys) ⟨launched.safe,launched.counted⟩
    fun s e t _ both stepped => ⟨both.1.step stepped,counted_step both.1 both.2 stepped⟩
  have cpus := (safe_run launched.safe ran).2.cpus
  have counted := both.2
  refine ⟨counted.busy,?_,?_⟩
  · rw [← cpus]
    exact counted.waiting
  · rw [← cpus]
    exact counted.share

theorem running_counted_sample :
    weigh busy (outcome step sample worked).schedule.cpus (outcome step sample worked).places ≤ (outcome step sample worked).schedule.numRunning ∧
      (outcome step sample worked).schedule.numRunning +
        weigh waiting (outcome step sample worked).schedule.cpus (outcome step sample worked).places ≤ sample.schedule.cpus ∧
      ∀ i w, workerOf ((outcome step sample worked).places i) = some w → 0 < w.running ∧ w.running ≤ sample.schedule.cpus :=
  running_counted sample_launched (ran_outcome (by decide +kernel))

end

end AnotherC.Scheduler
