import AnotherC.Io.SchedulerLive

/-!
# What is run again

A worker is skipped when its ack file is at least as new as all it depends on. In a run of
all tasks a completed link is therefore no older than the dependencies it compares itself
with, and its ack file no older than theirs (`up_to_date`); and a second run right behind a
whole one calls no runner and writes no ack file (`second_run_idle`).
-/
namespace AnotherC.Scheduler
open AnotherC.Lib.Events
set_option linter.unusedVariables false

/-- The dependencies whose times `worker_needs_to_run` compares. -/
def Looks (s : Schedule) (t p d q : Nat) : Prop :=
  d ∈ (s.task t).dependencies ∧ q < (s.task d).numPartitions ∨
    d ∈ (s.task t).partialDependencies ∧ q = p ∧ q < (s.task d).numPartitions

/-- No dependency is newer than that, and the ack file of none that does something. -/
def Current (sys : System) (t p : Nat) (time : Int) : Prop :=
  ∀ d q, Looks sys.schedule t p d q → getAckTimeFor sys.schedule d q ≤ time ∧
    ((sys.schedule.task d).doNothing = false → sys.disk d q ≤ time)

/-- A link was skipped with the time of its ack file, or has run and its file been written. -/
def Recorded (disk₀ : Nat → Nat → Int) (clock₀ : Int) (sys : System) (t p : Nat) (time : Int) : Prop :=
  time = disk₀ t p ∧ sys.disk t p = disk₀ t p ∨ clock₀ ≤ time ∧ time ≤ sys.disk t p

/-- The worker of a thread that has read its time. -/
def timedWorker : Place → Option Worker
  | .running w => some w
  | .ending w _ => some w
  | .acked w _ => some w
  | _ => none

/-- The times in a run of all tasks, from what the ack files and the clock were. -/
structure Dated (disk₀ : Nat → Nat → Int) (clock₀ : Int) (sys : System) : Prop where
  all : sys.schedule.selectAll = true
  since : clock₀ ≤ sys.clock
  acks : ∀ t p, sys.schedule.Valid t p → (sys.schedule.stateLinkage t p).ackTime = disk₀ t p
  past : ∀ t p, sys.schedule.Valid t p → (sys.schedule.stateLinkage t p).completed ≤ sys.clock
  stamped : ∀ t p, sys.disk t p ≤ sys.clock
  own : ∀ i w, timedWorker (sys.places i) = some w → w.ackTime = disk₀ w.task w.partition
  unwritten : ∀ t p, ¬ Finished sys.schedule t p → (∀ i w time, sys.places i = .acked w time → ¬ (w.task = t ∧ w.partition = p)) →
    sys.disk t p = disk₀ t p
  ending : ∀ i w time, sys.places i = .ending w time → (time = disk₀ w.task w.partition ∨ clock₀ ≤ time) ∧ time ≤ sys.clock ∧
    Current sys w.task w.partition time
  acked : ∀ i w time, sys.places i = .acked w time → Recorded disk₀ clock₀ sys w.task w.partition time ∧ time ≤ sys.clock ∧
    Current sys w.task w.partition time
  recorded : ∀ t p, (t,p) ∈ sys.handed → Finished sys.schedule t p →
    Recorded disk₀ clock₀ sys t p (sys.schedule.stateLinkage t p).completed ∧
      Current sys t p (sys.schedule.stateLinkage t p).completed

section
variable {s s' : Schedule} {t p d q i : Nat} {time : Int} {w : Worker}
variable {sys sys' : System} {e : Event} {es : List Event} {disk₀ : Nat → Nat → Int} {clock₀ : Int}

theorem Looks.needs (looks : Looks s t p d q) : Needs s t p d q := by
  rcases looks with ⟨member,inside⟩ | ⟨member,rfl,inside⟩
  · exact .inl ⟨member,inside⟩
  · exact .inr ⟨member,(if_neg (Nat.not_le.mpr inside)).symm⟩

theorem Looks.inside (looks : Looks s t p d q) : q < (s.task d).numPartitions := by
  rcases looks with ⟨_,inside⟩ | ⟨_,_,inside⟩
  · exact inside
  · exact inside

theorem getAckTimeFor_le (inside : p < (s.task t).numPartitions) : getAckTimeFor s t p ≤ time ↔
    (s.stateLinkage t p).ackTime ≤ time ∧ (s.stateLinkage t p).completed ≤ time := by
  unfold getAckTimeFor
  rw [if_neg (Nat.not_le.mpr inside)]
  split
  · constructor
    · exact fun le => ⟨le,by omega⟩
    · exact And.left
  · constructor
    · exact fun le => ⟨by omega,le⟩
    · exact And.right

/-- What has completed keeps its times. -/
structure Keeps (sys sys' : System) : Prop where
  fixed : Fixed sys.schedule sys'.schedule
  handed : ∀ c, c ∈ sys.handed → c ∈ sys'.handed
  clock : sys.clock ≤ sys'.clock
  links : ∀ t p, sys.schedule.Valid t p → Finished sys.schedule t p → sys'.schedule.stateLinkage t p = sys.schedule.stateLinkage t p ∧
    sys'.disk t p = sys.disk t p

theorem Keeps.finished (keeps : Keeps sys sys') (valid : sys.schedule.Valid t p) (finished : Finished sys.schedule t p) :
    Finished sys'.schedule t p := by
  rw [Finished,(keeps.links t p valid finished).1]
  exact finished

theorem Fixed.looks (fixed : Fixed s s') : Looks s' t p d q ↔ Looks s t p d q := by
  rw [Looks,fixed.task,fixed.task,Looks]

/-- A link that has been handed out stays as current as it was. -/
theorem Current.keep (current : Current sys t p time) (safe : Safe sys) (keeps : Keeps sys sys') (member : (t,p) ∈ sys.handed) :
    Current sys' t p time := by
  intro d q looks
  have looks₀ := keeps.fixed.looks.mp looks
  obtain ⟨valid,_,free⟩ := safe.sound.known _ member
  have valid' := looks₀.needs.valid safe.sound.good.sized safe.sound.good.wired
  have met : Met sys.schedule t p := by
    by_contra unmet
    rw [(safe.sound.settled t p valid).mpr unmet] at free
    cases free
  obtain ⟨link,file⟩ := keeps.links d q valid' (met d q looks₀.needs)
  obtain ⟨le,file_le⟩ := current d q looks₀
  rw [getAckTimeFor_le looks₀.inside] at le
  rw [getAckTimeFor_le looks.inside,link,file,keeps.fixed.task]
  exact ⟨le,file_le⟩

theorem Keeps.of_shift (fixed : Fixed sys.schedule sys'.schedule) (handed : sys'.handed = sys.handed) (clock : sys.clock ≤ sys'.clock)
    (links : sys'.schedule.stateLinkage = sys.schedule.stateLinkage) (disk : sys'.disk = sys.disk) : Keeps sys sys' :=
  ⟨fixed,fun c member => handed.symm ▸ member,clock,fun t p _ _ => ⟨by rw [links],by rw [disk]⟩⟩

theorem Took.link (took : Took s s' w) : s'.stateLinkage = s.stateLinkage := by
  rw [took.shape]
  rfl

theorem keeps_proceed (sys : System) (i : Nat) : Keeps sys (proceed sys i) := by
  have after := proceed_cases sys i
  generalize proceed sys i = next at after ⊢
  cases after with
  | waits => exact Keeps.of_shift (Fixed.refl _) rfl le_rfl rfl rfl
  | leaves => exact Keeps.of_shift (Fixed.refl _) rfl le_rfl rfl rfl
  | takes must taken =>
    have took := takeNext_took taken
    exact ⟨took.fixed,fun c member => List.mem_cons_of_mem _ member,le_rfl,fun t p _ _ => ⟨by rw [took.link],rfl⟩⟩

theorem countSelected_link (s : Schedule) (w : Worker) : (countSelected s w).stateLinkage = s.stateLinkage := by
  unfold countSelected
  split <;> rfl

theorem completing_clock (sys : System) (i : Nat) (s : Schedule) :
    (completing sys i s).clock = sys.clock ∧ (completing sys i s).disk = sys.disk := by
  unfold completing
  dsimp only
  split <;> exact ⟨rfl,rfl⟩

theorem keeps_step (safe : Safe sys) (stepped : step sys e = some sys') : Keeps sys sys' := by
  have fixed := safe_fixed safe stepped
  have moves := step_moves stepped
  cases moves with
  | @entered i free place ongoing =>
    have rest := keeps_proceed (entering sys) i
    exact ⟨fixed,rest.handed,rest.clock,rest.links⟩
  | rose free place => exact keeps_proceed sys _
  | @looked i w files place =>
    have away := safe.held i w.task w.partition (by rw [place]; rfl)
    refine ⟨fixed,fun c member => member,le_rfl,fun t p _ finished => ⟨setLink_other _ ?_,rfl⟩⟩
    rintro ⟨rfl,rfl⟩
    exact finished.2 away.2
  | @wrote i w time place =>
    have away := safe.held i w.task w.partition (by rw [place]; rfl)
    refine ⟨fixed,fun c member => member,le_rfl,fun t p _ finished => ⟨rfl,?_⟩⟩
    show (if _ then _ else _ : Nat → Nat → Int) t p = _
    split
    · apply setAt_other
      rintro ⟨rfl,rfl⟩
      exact finished.2 away.2
    · rfl
  | @completed i w time s place free marked =>
    have away := safe.held i w.task w.partition (by rw [place]; rfl)
    have spec := (safe.marked place marked).1
    have alike := countSelected_alike sys.schedule w
    refine ⟨fixed,fun c member => (completing_handed sys i s).symm ▸ member,le_of_eq (completing_clock sys i s).1.symm,fun t p _ finished => ?_⟩
    have other : ¬ (t = w.task ∧ p = w.partition) := by
      rintro ⟨rfl,rfl⟩
      exact finished.2 away.2
    refine ⟨?_,by rw [(completing_clock sys i s).2]⟩
    rw [completing_schedule]
    rcases spec.links t p other with same | ⟨waiting,_⟩
    · rw [same,countSelected_link]
    · rw [alike.waiting,finished.1] at waiting
      cases waiting
  | ticked later => exact Keeps.of_shift fixed rfl later rfl rfl
  | _ => exact Keeps.of_shift fixed rfl le_rfl rfl rfl

/-! ## What every step keeps -/

theorem wake_acked {place : Place} : wake place = .acked w time ↔ place = .acked w time := by
  cases place <;> simp [wake]

theorem wake_ending {place : Place} : wake place = .ending w time ↔ place = .ending w time := by
  cases place <;> simp [wake]

theorem wake_timedWorker (place : Place) : timedWorker (wake place) = timedWorker place := by
  cases place <;> rfl

/-- Steps that neither write an ack file nor complete a link. -/
theorem Dated.shift (dated : Dated disk₀ clock₀ sys) (safe : Safe sys) (keeps : Keeps sys sys')
    (acks : ∀ t p, sys.schedule.Valid t p → (sys'.schedule.stateLinkage t p).ackTime = (sys.schedule.stateLinkage t p).ackTime)
    (finished : ∀ t p, Finished sys'.schedule t p ↔ Finished sys.schedule t p)
    (completed : ∀ t p, (sys'.schedule.stateLinkage t p).completed = (sys.schedule.stateLinkage t p).completed)
    (disk : sys'.disk = sys.disk) (handed : ∀ c ∈ sys'.handed, c ∈ sys.handed ∨ ¬ Finished sys.schedule c.1 c.2)
    (own : ∀ j w, timedWorker (sys'.places j) = some w → timedWorker (sys.places j) = some w ∨ w.ackTime = disk₀ w.task w.partition)
    (ending : ∀ j w time, sys'.places j = .ending w time → sys.places j = .ending w time ∨
      (w.task,w.partition) ∈ sys.handed ∧ (time = disk₀ w.task w.partition ∨ clock₀ ≤ time) ∧ time ≤ sys.clock ∧
        Current sys w.task w.partition time)
    (acked : ∀ j w time, sys'.places j = .acked w time ↔ sys.places j = .acked w time) : Dated disk₀ clock₀ sys' where
  all := keeps.fixed.selectAll.trans dated.all
  since := dated.since.trans keeps.clock
  acks t p valid := by
    have old := keeps.fixed.valid.mp valid
    rw [acks t p old]
    exact dated.acks t p old
  past t p valid := by
    rw [completed]
    exact (dated.past t p (keeps.fixed.valid.mp valid)).trans keeps.clock
  stamped t p := by
    rw [disk]
    exact (dated.stamped t p).trans keeps.clock
  own j w has := (own j w has).elim (dated.own j w) id
  unwritten t p unfinished unacked := by
    rw [disk]
    exact dated.unwritten t p (fun before => unfinished ((finished t p).mpr before)) fun j w time place => unacked j w time ((acked j w time).mpr place)
  ending j w time place := by
    rcases ending j w time place with old | ⟨member,kind,le,current⟩
    · obtain ⟨kind,le,current⟩ := dated.ending j w time old
      exact ⟨kind,le.trans keeps.clock,current.keep safe keeps (safe.held j _ _ (by rw [old]; rfl)).1⟩
    · exact ⟨kind,le.trans keeps.clock,current.keep safe keeps member⟩
  acked j w time place := by
    have old := (acked j w time).mp place
    obtain ⟨recorded,le,current⟩ := dated.acked j w time old
    refine ⟨?_,le.trans keeps.clock,current.keep safe keeps (safe.held j _ _ (by rw [old]; rfl)).1⟩
    rw [Recorded,disk]
    exact recorded
  recorded t p member done_ := by
    have before := (finished t p).mp done_
    have old : (t,p) ∈ sys.handed := (handed _ member).resolve_right fun unfinished => unfinished before
    obtain ⟨recorded,current⟩ := dated.recorded t p old before
    rw [completed,Recorded,disk]
    exact ⟨recorded,current.keep safe keeps old⟩

/-- A thread goes on with what it has, or drops it. -/
theorem Dated.moved (dated : Dated disk₀ clock₀ sys) (safe : Safe sys) {place : Place} (keeps : Keeps sys sys')
    (links : sys'.schedule.stateLinkage = sys.schedule.stateLinkage) (disk : sys'.disk = sys.disk) (handed : sys'.handed = sys.handed)
    (places : ∀ j, sys'.places j = (if j = i then place else sys.places j) ∨ sys'.places j = wake (if j = i then place else sys.places j))
    (untimed : timedWorker place = none) (notAcked : ∀ w time, sys.places i ≠ .acked w time) : Dated disk₀ clock₀ sys' := by
  have timed : ∀ j w, timedWorker (sys'.places j) = some w → timedWorker (sys.places j) = some w := by
    intro j w has
    have has' : timedWorker (if j = i then place else sys.places j) = some w := by
      rcases places j with same | same
      · exact same ▸ has
      · rw [same,wake_timedWorker] at has
        exact has
    split at has'
    · rw [untimed] at has'
      cases has'
    · exact has'
  refine dated.shift safe keeps (fun t p _ => by rw [links]) (fun t p => by rw [Finished,links,Finished]) (fun t p => by rw [links]) disk
    (fun c member => .inl (handed ▸ member)) (fun j w has => .inl (timed j w has)) (fun j w time has => .inl ?_) fun j w time => ?_
  · have has' : (if j = i then place else sys.places j) = .ending w time := by
      rcases places j with same | same
      · exact same ▸ has
      · exact wake_ending.mp (same ▸ has)
    split at has'
    · rw [has'] at untimed
      cases untimed
    · exact has'
  · have same : sys'.places j = .acked w time ↔ (if j = i then place else sys.places j) = .acked w time := by
      rcases places j with same | same
      · rw [same]
      · rw [same]
        exact wake_acked
    rw [same]
    split
    case isTrue here =>
      constructor
      · intro equal
        rw [equal] at untimed
        cases untimed
      · intro equal
        exact absurd (here ▸ equal) (notAcked w time)
    case isFalse => exact Iff.rfl

theorem Dated.proceed (dated : Dated disk₀ clock₀ sys) (safe : Safe sys) (empty : key (sys.places i) = none) :
    Dated disk₀ clock₀ (proceed sys i) := by
  have keeps := keeps_proceed sys i
  have notAcked : ∀ w time, sys.places i ≠ .acked w time := by
    intro w time same
    rw [same] at empty
    cases empty
  have after := proceed_cases sys i
  generalize Scheduler.proceed sys i = next at after keeps ⊢
  cases after with
  | waits => exact dated.moved safe keeps rfl rfl rfl (fun j => .inl rfl) rfl notAcked
  | leaves => exact dated.moved safe keeps rfl rfl rfl (fun j => .inl rfl) rfl notAcked
  | @takes s w must taken =>
    have took := takeNext_took taken
    have link := took.link
    have member := took.member
    have alike := took.alike
    obtain ⟨_,_,_,zero,_⟩ := safe.sound.good.taken member
    refine dated.shift safe keeps (fun t p _ => by rw [link]) (fun t p => by rw [Finished,link,Finished]) (fun t p => by rw [link]) rfl
      (fun c inside => ?_) (fun j w' has => .inl ?_) (fun j w' time has => .inl ?_) fun j w' time => ?_
    · rcases List.mem_cons.mp inside with rfl | old
      · exact .inr fun finished => finished.2 zero
      · exact .inl old
    · change timedWorker (if j = i then _ else _) = _ at has
      split at has
      · cases has
      · exact has
    · change (if j = i then _ else _) = _ at has
      split at has
      · cases has
      · exact has
    · show (if j = i then _ else _) = _ ↔ _
      split
      case isTrue here =>
        constructor
        · intro equal
          cases equal
        · intro equal
          exact absurd (here ▸ equal) (notAcked w' time)
      case isFalse => exact Iff.rfl

/-- The skipped worker is as new as all it looks at, and so are their ack files. -/
theorem Dated.skips (dated : Dated disk₀ clock₀ sys) (safe : Safe sys) (early : ∀ t p, 0 ≤ disk₀ t p ∧ disk₀ t p < clock₀)
    (member : (t,p) ∈ sys.handed) (older : ∀ d q, Looks sys.schedule t p d q → getAckTimeFor sys.schedule d q ≤ disk₀ t p) :
    Current sys t p (disk₀ t p) := by
  intro d q looks
  refine ⟨older d q looks,fun something => ?_⟩
  obtain ⟨valid,_,free⟩ := safe.sound.known _ member
  have valid' := looks.needs.valid safe.sound.good.sized safe.sound.good.wired
  have met : Met sys.schedule t p := by
    by_contra unmet
    rw [(safe.sound.settled t p valid).mpr unmet] at free
    cases free
  have finished := met d q looks.needs
  obtain ⟨ack,completed⟩ := (getAckTimeFor_le looks.inside).mp (older d q looks)
  rcases (dated.recorded d q (safe.sound.covers d q valid' something finished) finished).1 with ⟨_,same⟩ | ⟨late,_⟩
  · rw [same,← dated.acks d q valid']
    exact ack
  · -- a dependency that has run in this run is newer
    have before := (early t p).2
    omega

theorem workerNeedsToRun_false {files : List Int} (rests : workerNeedsToRun s w files = false) :
    w.ackTime ≠ 0 ∧ ∀ d q, Looks s w.task w.partition d q → getAckTimeFor s d q ≤ w.ackTime := by
  unfold workerNeedsToRun at rests
  simp only [Bool.or_eq_false_iff,List.any_eq_false,decide_eq_true_eq,decide_eq_false_iff_not,not_lt,gt_iff_lt] at rests
  obtain ⟨⟨⟨⟨⟨some_,_⟩,_⟩,full⟩,partly⟩,_⟩ := rests
  refine ⟨some_,fun d q looks => ?_⟩
  rcases looks with ⟨member,inside⟩ | ⟨member,rfl,_⟩
  · have none_ := full d member
    by_contra newer
    apply none_
    exact List.any_eq_true.mpr ⟨q,List.mem_range.mpr inside,decide_eq_true (not_le.mp newer)⟩
  · exact partly d member

theorem Dated.getAckTime (dated : Dated disk₀ clock₀ sys) (early : ∀ t p, 0 ≤ disk₀ t p ∧ disk₀ t p < clock₀)
    (valid : sys.schedule.Valid w.task w.partition) : getAckTime sys w = disk₀ w.task w.partition := by
  have ack := dated.acks _ _ valid
  have some_ := (early w.task w.partition).1
  unfold Scheduler.getAckTime
  dsimp only
  rw [ack,if_neg (by omega)]

theorem Dated.looked (dated : Dated disk₀ clock₀ sys) (safe : Safe sys) (early : ∀ t p, 0 ≤ disk₀ t p ∧ disk₀ t p < clock₀)
    (files : List Int) (place : sys.places i = .holding w) (keeps : Keeps sys { sys.move i (decision sys w files) with schedule := looking sys w }) :
    Dated disk₀ clock₀ { sys.move i (decision sys w files) with schedule := looking sys w } := by
  have away := safe.held i w.task w.partition (by rw [place]; rfl)
  have valid := (safe.sound.known _ away.1).1
  have ack := dated.getAckTime early valid
  have same : (looking sys w).stateLinkage = sys.schedule.stateLinkage := by
    funext t p
    by_cases here : t = w.task ∧ p = w.partition
    · obtain ⟨rfl,rfl⟩ := here
      have old := dated.acks _ _ valid
      show (sys.schedule.setLink _ _ _).stateLinkage _ _ = _
      rw [setLink_same,ack,← old]
    · exact setLink_other _ here
  have ready : ∀ w', timedWorker (decision sys w files) = some w' → w' = { w with ackTime := disk₀ w.task w.partition } := by
    intro w' has
    unfold decision at has
    dsimp only at has
    rw [ack] at has
    split at has <;> cases has <;> rfl
  refine dated.shift safe keeps (fun t p _ => by show ((looking sys w).stateLinkage t p).ackTime = _; rw [same])
    (fun t p => by show Finished (looking sys w) t p ↔ _; rw [Finished,same,Finished])
    (fun t p => by show ((looking sys w).stateLinkage t p).completed = _; rw [same]) rfl
    (fun c inside => .inl inside) (fun j w' has => ?_) (fun j w' time has => ?_) fun j w' time => ?_
  · change timedWorker (if j = i then _ else _) = some w' at has
    split at has
    · rw [ready w' has]
      exact .inr rfl
    · exact .inl has
  · change (if j = i then _ else _) = _ at has
    split at has
    case isFalse => exact .inl has
    case isTrue =>
      have isW := ready w' (by rw [has]; rfl)
      subst isW
      unfold decision at has
      dsimp only at has
      rw [ack] at has
      split at has
      · cases has
      case isFalse rests =>
        have args : taskRunPerArgs (looking sys w) { w with ackTime := disk₀ w.task w.partition } = true := by
          have all : (looking sys w).selectAll = true := dated.all
          unfold taskRunPerArgs
          rw [all]
          split <;> rfl
        rw [args,Bool.and_true,Bool.not_eq_true] at rests
        obtain ⟨some_,older⟩ := workerNeedsToRun_false rests
        cases has
        dsimp only at some_ older
        rw [if_pos some_]
        refine .inr ⟨away.1,.inl rfl,?_,dated.skips safe early away.1 ?_⟩
        · have before := (early w.task w.partition).2
          have since := dated.since
          show disk₀ w.task w.partition ≤ sys.clock
          omega
        · intro d q looks
          have looks' : Looks (looking sys w) w.task w.partition d q := looks
          have le := older d q looks'
          unfold getAckTimeFor at le ⊢
          rw [same] at le
          exact le
  · show (if j = i then _ else _) = _ ↔ _
    split
    case isTrue here =>
      constructor
      · intro equal
        unfold decision at equal
        dsimp only at equal
        split at equal <;> cases equal
      · intro equal
        rw [here,place] at equal
        cases equal
    case isFalse => exact Iff.rfl

theorem Dated.finished (dated : Dated disk₀ clock₀ sys) (safe : Safe sys) (early : ∀ t p, 0 ≤ disk₀ t p ∧ disk₀ t p < clock₀)
    (place : sys.places i = .running w) (keeps : Keeps sys (sys.move i (.ending w sys.clock))) :
    Dated disk₀ clock₀ (sys.move i (.ending w sys.clock)) := by
  have away := safe.held i w.task w.partition (by rw [place]; rfl)
  refine dated.shift safe keeps (fun t p _ => rfl) (fun t p => Iff.rfl) (fun t p => rfl) rfl (fun c inside => .inl inside)
    (fun j w' has => .inl ?_) (fun j w' time has => ?_) fun j w' time => ?_
  · change timedWorker (if j = i then _ else _) = some w' at has
    split at has
    case isTrue here =>
      rw [here,place]
      exact has
    case isFalse => exact has
  · change (if j = i then _ else _) = _ at has
    split at has
    case isFalse => exact .inl has
    case isTrue =>
      cases has
      refine .inr ⟨away.1,.inr dated.since,le_rfl,fun d q looks => ⟨?_,fun _ => dated.stamped d q⟩⟩
      have valid := looks.needs.valid safe.sound.good.sized safe.sound.good.wired
      have ack := dated.acks d q valid
      have before := (early d q).2
      have since := dated.since
      exact (getAckTimeFor_le looks.inside).mpr ⟨by omega,dated.past d q valid⟩
  · show (if j = i then _ else _) = _ ↔ _
    split
    case isTrue here =>
      constructor
      · intro equal
        cases equal
      · intro equal
        rw [here,place] at equal
        cases equal
    case isFalse => exact Iff.rfl

theorem Dated.wrote (dated : Dated disk₀ clock₀ sys) (safe : Safe sys) (early : ∀ t p, 0 ≤ disk₀ t p ∧ disk₀ t p < clock₀)
    (later : 1 < clock₀) (place : sys.places i = .ending w time) {disk : Nat → Nat → Int}
    (isDisk : disk = if time > w.ackTime ∧ time > 1 then setAt sys.disk w.task w.partition sys.clock else sys.disk)
    (keeps : Keeps sys { sys.move i (.acked w time) with disk := disk }) : Dated disk₀ clock₀ { sys.move i (.acked w time) with disk := disk } := by
  have away := safe.held i w.task w.partition (by rw [place]; rfl)
  have unfinished : ¬ Finished sys.schedule w.task w.partition := fun finished => finished.2 away.2
  have member : ∀ j w' time', sys.places j = .ending w' time' ∨ sys.places j = .acked w' time' → (w'.task,w'.partition) ∈ sys.handed := by
    rintro j w' time' (same | same)
    · exact (safe.held j _ _ (by rw [same]; rfl)).1
    · exact (safe.held j _ _ (by rw [same]; rfl)).1
  have other : ∀ t p, ¬ (t = w.task ∧ p = w.partition) → disk t p = sys.disk t p := by
    intro t p apart
    rw [isDisk]
    split
    · exact setAt_other _ _ apart
    · rfl
  have at_ : ∀ j, ({ sys.move i (.acked w time) with disk := disk } : System).places j = if j = i then .acked w time else sys.places j :=
    fun _ => rfl
  obtain ⟨kind,le,current⟩ := dated.ending i w time place
  have still := dated.unwritten w.task w.partition unfinished fun j w' time' same equal => by
    have both := safe.apart i j (w.task,w.partition) (by rw [place]; rfl) (by rw [same,← equal.1,← equal.2]; rfl)
    rw [← both,place] at same
    cases same
  refine ⟨dated.all,dated.since,dated.acks,dated.past,fun t p => ?_,fun j w' has => ?_,fun t p unfinished' unacked => ?_,fun j w' time' has => ?_,
    fun j w' time' has => ?_,fun t p listed done_ => ?_⟩
  · show disk t p ≤ sys.clock
    by_cases here : t = w.task ∧ p = w.partition
    · obtain ⟨rfl,rfl⟩ := here
      rw [isDisk]
      split
      · rw [setAt_same]
      · exact dated.stamped _ _
    · rw [other t p here]
      exact dated.stamped t p
  · rw [at_] at has
    split at has
    · cases has
      exact dated.own i w (by rw [place]; rfl)
    · exact dated.own j w' has
  · have apart : ¬ (t = w.task ∧ p = w.partition) := by
      rintro ⟨rfl,rfl⟩
      exact unacked i w time (if_pos rfl) ⟨rfl,rfl⟩
    show disk t p = _
    rw [other t p apart]
    refine dated.unwritten t p unfinished' fun j w' time' same => unacked j w' time' ?_
    rw [at_,if_neg]
    · exact same
    · rintro rfl
      rw [place] at same
      cases same
  · rw [at_] at has
    split at has
    · cases has
    · obtain ⟨kind,le,current⟩ := dated.ending j w' time' has
      exact ⟨kind,le,current.keep safe keeps (member j w' time' (.inl has))⟩
  · rw [at_] at has
    split at has
    case isTrue =>
      cases has
      refine ⟨?_,le,current.keep safe keeps (member i w time (.inl place))⟩
      have own := dated.own i w (by rw [place]; rfl)
      have before := (early w.task w.partition).2
      rcases kind with skipped | ran
      · refine .inl ⟨skipped,?_⟩
        show disk w.task w.partition = _
        rw [isDisk,if_neg (fun both => by omega)]
        exact still
      · refine .inr ⟨ran,?_⟩
        show time ≤ disk w.task w.partition
        rw [isDisk,if_pos ⟨by omega,by omega⟩,setAt_same]
        exact le
    case isFalse apart =>
      obtain ⟨recorded,le,current⟩ := dated.acked j w' time' has
      refine ⟨?_,le,current.keep safe keeps (member j w' time' (.inr has))⟩
      have away' : ¬ (w'.task = w.task ∧ w'.partition = w.partition) := by
        intro equal
        exact apart (safe.apart j i (w.task,w.partition) (by rw [has,← equal.1,← equal.2]; rfl) (by rw [place]; rfl))
      show _ ∧ disk _ _ = _ ∨ _ ∧ _ ≤ disk _ _
      rw [other _ _ away']
      exact recorded
  · have apart : ¬ (t = w.task ∧ p = w.partition) := by
      rintro ⟨rfl,rfl⟩
      exact unfinished done_
    obtain ⟨recorded,current⟩ := dated.recorded t p listed done_
    refine ⟨?_,current.keep safe keeps listed⟩
    show _ ∧ disk _ _ = _ ∨ _ ∧ _ ≤ disk _ _
    rw [other _ _ apart]
    exact recorded

theorem Dated.completed (dated : Dated disk₀ clock₀ sys) (safe : Safe sys) (later : 1 < clock₀) (place : sys.places i = .acked w time)
    (marked : complete (countSelected sys.schedule w) w.task w.partition time = some s) (keeps : Keeps sys (completing sys i s)) :
    Dated disk₀ clock₀ (completing sys i s) := by
  have away := safe.held i w.task w.partition (by rw [place]; rfl)
  have spec := (safe.marked place marked).1
  have alike := countSelected_alike sys.schedule w
  have oldLink := countSelected_link sys.schedule w
  have some_ := safe.timed i time (by rw [place]; rfl)
  obtain ⟨clock,disk⟩ := completing_clock sys i s
  obtain ⟨recorded,le,current⟩ := dated.acked i w time place
  have links : ∀ t p, (s.stateLinkage t p).ackTime = (sys.schedule.stateLinkage t p).ackTime ∧
      ((s.stateLinkage t p).completed = (sys.schedule.stateLinkage t p).completed ∨ (s.stateLinkage t p).completed = time ∨
        (s.stateLinkage t p).completed = 0) := by
    intro t p
    by_cases here : t = w.task ∧ p = w.partition
    · obtain ⟨rfl,rfl⟩ := here
      rw [spec.here,oldLink]
      exact ⟨rfl,.inr (.inl rfl)⟩
    · rcases spec.links t p here with same | ⟨_,_,freed⟩
      · rw [same,oldLink]
        exact ⟨rfl,.inl rfl⟩
      · rw [freed,oldLink]
        refine ⟨rfl,.inr ?_⟩
        show (if _ then _ else _) = _ ∨ (if _ then _ else _) = _
        split
        · exact .inl rfl
        · exact .inr rfl
  have finished : ∀ t p, Finished sys.schedule t p → Finished s t p :=
    fun t p before => spec.finished ((alike.completed _ _).trans away.2) (alike.finished.mpr before)
  have places : ∀ j, (∀ w' time', (completing sys i s).places j = .ending w' time' ↔ j ≠ i ∧ sys.places j = .ending w' time') ∧
      (∀ w' time', (completing sys i s).places j = .acked w' time' ↔ j ≠ i ∧ sys.places j = .acked w' time') ∧
      ∀ w', timedWorker ((completing sys i s).places j) = some w' → timedWorker (sys.places j) = some w' := by
    intro j
    have either := completing_broadcast sys i s j
    by_cases here : j = i
    · rw [if_pos here] at either
      have same : (completing sys i s).places j = .calling := either.elim id And.left
      rw [same]
      simp [here,timedWorker]
    · rw [if_neg here] at either
      rcases either with same | ⟨same,_⟩
      · rw [same,wake_timedWorker]
        refine ⟨fun w' time' => ?_,fun w' time' => ?_,fun w' has => has⟩
        · rw [wake_ending]
          exact (and_iff_right here).symm
        · rw [wake_acked]
          exact (and_iff_right here).symm
      · rw [same]
        exact ⟨fun w' time' => (and_iff_right here).symm,fun w' time' => (and_iff_right here).symm,fun w' has => has⟩
  have member : ∀ j w' time', sys.places j = .ending w' time' ∨ sys.places j = .acked w' time' → (w'.task,w'.partition) ∈ sys.handed := by
    rintro j w' time' (same | same)
    · exact (safe.held j _ _ (by rw [same]; rfl)).1
    · exact (safe.held j _ _ (by rw [same]; rfl)).1
  have recorded_ : ∀ t p time', Recorded disk₀ clock₀ (completing sys i s) t p time' ↔ Recorded disk₀ clock₀ sys t p time' := by
    intro t p time'
    rw [Recorded,disk,Recorded]
  refine ⟨keeps.fixed.selectAll.trans dated.all,clock.symm ▸ dated.since,fun t p valid => ?_,fun t p valid => ?_,fun t p => ?_,
    fun j w' has => dated.own j w' ((places j).2.2 w' has),fun t p unfinished unacked => ?_,fun j w' time' has => ?_,fun j w' time' has => ?_,
    fun t p listed done_ => ?_⟩
  · rw [completing_schedule,(links t p).1]
    exact dated.acks t p (keeps.fixed.valid.mp valid)
  · rw [completing_schedule,clock]
    have since := dated.since
    rcases (links t p).2 with same | stamped | zero
    · rw [same]
      exact dated.past t p (keeps.fixed.valid.mp valid)
    · omega
    · omega
  · rw [disk,clock]
    exact dated.stamped t p
  · rw [completing_schedule] at unfinished
    rw [disk]
    refine dated.unwritten t p (fun before => unfinished (finished t p before)) fun j w' time' same equal => ?_
    refine unacked j w' time' (((places j).2.1 w' time').mpr ⟨?_,same⟩) equal
    rintro rfl
    rw [place] at same
    cases same
    apply unfinished
    rw [← equal.1,← equal.2,Finished,spec.here]
    exact ⟨rfl,some_⟩
  · obtain ⟨_,old⟩ := ((places j).1 w' time').mp has
    obtain ⟨kind,le,current⟩ := dated.ending j w' time' old
    exact ⟨kind,clock.symm ▸ le,current.keep safe keeps (member j w' time' (.inl old))⟩
  · obtain ⟨_,old⟩ := ((places j).2.1 w' time').mp has
    obtain ⟨recorded,le,current⟩ := dated.acked j w' time' old
    exact ⟨(recorded_ _ _ _).mpr recorded,clock.symm ▸ le,current.keep safe keeps (member j w' time' (.inr old))⟩
  · rw [completing_handed] at listed
    rw [completing_schedule] at done_ ⊢
    rw [recorded_]
    by_cases here : t = w.task ∧ p = w.partition
    · obtain ⟨rfl,rfl⟩ := here
      rw [spec.here]
      exact ⟨recorded,current.keep safe keeps away.1⟩
    · have same : s.stateLinkage t p = sys.schedule.stateLinkage t p := by
        rcases spec.links t p here with same | ⟨waiting,_⟩
        · rw [same,oldLink]
        · rw [alike.waiting,(safe.sound.known _ listed).2.2] at waiting
          cases waiting
      rw [Finished,same] at done_
      rw [same]
      obtain ⟨recorded,current⟩ := dated.recorded t p listed done_
      exact ⟨recorded,current.keep safe keeps listed⟩

theorem Dated.step (dated : Dated disk₀ clock₀ sys) (safe : Safe sys) (early : ∀ t p, 0 ≤ disk₀ t p ∧ disk₀ t p < clock₀) (later : 1 < clock₀)
    (stepped : step sys e = some sys') : Dated disk₀ clock₀ sys' := by
  have keeps := keeps_step safe stepped
  have moves := step_moves stepped
  cases moves with
  | turnedAway free place ended =>
    exact dated.moved safe keeps rfl rfl rfl (fun j => .inl rfl) rfl fun w time same => by cases place.symm.trans same
  | @entered i free place ongoing =>
    have inside : Dated disk₀ clock₀ (entering sys) :=
      ⟨dated.all,dated.since,dated.acks,dated.past,dated.stamped,dated.own,dated.unwritten,dated.ending,dated.acked,dated.recorded⟩
    have safe' : Safe (entering sys) :=
      safe.shift ⟨rfl,rfl,rfl,rfl,rfl,fun _ _ => rfl,fun _ _ => rfl⟩ rfl (fun j c has => has) (fun j time has => .inl has) le_rfl
    exact inside.proceed safe' (by show key (sys.places i) = none; rw [place]; rfl)
  | dozed place => exact dated.moved safe keeps rfl rfl rfl (fun j => .inl rfl) rfl fun w time same => by cases place.symm.trans same
  | rose free place => exact dated.proceed safe (by rw [place]; rfl)
  | stirred place => exact dated.moved safe keeps rfl rfl rfl (fun j => .inl rfl) rfl fun w time same => by cases place.symm.trans same
  | looked files place => exact dated.looked safe early files place keeps
  | finished place => exact dated.finished safe early place keeps
  | failed place => exact dated.moved safe keeps rfl rfl rfl (fun j => .inl rfl) rfl fun w time same => by cases place.symm.trans same
  | wrote place => exact dated.wrote safe early later place rfl keeps
  | completed place free marked => exact dated.completed safe later place marked keeps
  | left place ended => exact dated.moved safe keeps rfl rfl rfl (fun j => .inl rfl) rfl fun w time same => by cases place.symm.trans same
  | leftFirst place ongoing =>
    exact dated.moved safe keeps rfl rfl rfl (fun j => .inr rfl) rfl fun w time same => by cases place.symm.trans same
  | ticked now =>
    exact dated.shift safe keeps (fun t p _ => rfl) (fun t p => Iff.rfl) (fun t p => rfl) rfl (fun c inside => .inl inside)
      (fun j w has => .inl has) (fun j w time has => .inl has) fun j w time => Iff.rfl

/-! ## A run of all tasks -/

/-- The schedule at the launch: no link has completed but those of tasks that do nothing. -/
theorem Launched.times (launched : Launched sys) :
    (∀ t p, sys.schedule.Valid t p → (sys.schedule.stateLinkage t p).ackTime = sys.disk t p) ∧
      (∀ t p, (sys.schedule.stateLinkage t p).completed ≤ sys.clock) ∧
      (∀ t p, (sys.schedule.task t).doNothing = false → (sys.schedule.stateLinkage t p).completed = 0) ∧
      sys.handed = [] ∧ ∀ i, sys.places i = .calling ∨ sys.places i = .gone := by
  cases launched with
  | @mk n cpus calls built set disk now clock args starts some_ ran setUp later after named =>
    have building := calls_building some_ ran
    obtain ⟨s',settled,ready,frame,acks,stamps⟩ := scheduleSetup_spec building disk (ne_of_gt later)
    cases settled.symm.trans setUp
    have link : (parseArgs set args).stateLinkage = set.stateLinkage := by
      have all : ∀ (entries : List (Nat × List Bool)) (s : Schedule), (entries.foldl select s).stateLinkage = s.stateLinkage := by
        intro entries
        induction entries with
        | nil => exact fun _ => rfl
        | cons entry entries ih => exact fun s => ih (select s entry)
      exact all _ _
    have alike := parseArgs_alike set args
    refine ⟨fun t p valid => ?_,fun t p => ?_,fun t p something => ?_,rfl,fun i => ?_⟩
    · show ((parseArgs set args).stateLinkage t p).ackTime = disk t p
      rw [link]
      exact acks t p (frame.valid.mp (alike.valid.mp valid))
    · show ((parseArgs set args).stateLinkage t p).completed ≤ clock
      rw [link]
      rcases stamps t p with zero | stamped
      · omega
      · omega
    · show ((parseArgs set args).stateLinkage t p).completed = 0
      rw [link]
      exact ready.untouched t p ((congrArg Task.doNothing (alike.task t)).symm.trans something)
    · show (if _ then _ else _) = _ ∨ (if _ then _ else _) = _
      split
      · exact .inl rfl
      · exact .inr rfl

theorem Launched.dated (launched : Launched sys) (all : sys.schedule.selectAll = true) (early : ∀ t p, 0 ≤ sys.disk t p ∧ sys.disk t p < sys.clock) :
    Dated sys.disk sys.clock sys := by
  obtain ⟨acks,past,_,handed,places⟩ := launched.times
  refine ⟨all,le_rfl,acks,fun t p _ => past t p,fun t p => le_of_lt (early t p).2,fun i w has => ?_,fun t p _ _ => rfl,fun i w time has => ?_,
    fun i w time has => ?_,fun t p member => ?_⟩
  · rcases places i with same | same <;> rw [same] at has <;> cases has
  · rcases places i with same | same <;> cases same.symm.trans has
  · rcases places i with same | same <;> cases same.symm.trans has
  · rw [handed] at member
    cases member

theorem dated_run (launched : Launched sys) (all : sys.schedule.selectAll = true)
    (early : ∀ t p, 0 ≤ sys.disk t p ∧ sys.disk t p < sys.clock) (later : 1 < sys.clock) (ran : Ran step sys es sys') :
    Dated sys.disk sys.clock sys' ∧ Safe sys' :=
  ran.keeps (fun now => Dated sys.disk sys.clock now ∧ Safe now) ⟨launched.dated all early,launched.safe⟩
    fun _ _ _ _ both stepped => ⟨both.1.step both.2 early later stepped,both.2.step stepped⟩

/-- However the threads of a run of all tasks take turns: a link that has completed is at
    least as new as every dependency it compares itself with, and its ack file is as new as
    theirs. -/
theorem up_to_date (launched : Launched sys) (all : sys.schedule.selectAll = true)
    (early : ∀ t p, 0 ≤ sys.disk t p ∧ sys.disk t p < sys.clock) (later : 1 < sys.clock) (ran : Ran step sys es sys')
    (valid : sys.schedule.Valid t p) (something : (sys.schedule.task t).doNothing = false) (finished : Finished sys'.schedule t p)
    (looks : Looks sys.schedule t p d q) :
    getAckTimeFor sys'.schedule d q ≤ getAckTimeFor sys'.schedule t p ∧
      ((sys.schedule.task d).doNothing = false → sys'.disk d q ≤ sys'.disk t p) := by
  obtain ⟨dated,safe⟩ := dated_run launched all early later ran
  have fixed := (safe_run launched.safe ran).2
  have valid' := fixed.valid.mpr valid
  have member := safe.sound.covers t p valid' ((fixed.task t).symm ▸ something) finished
  obtain ⟨recorded,current⟩ := dated.recorded t p member finished
  obtain ⟨le,file⟩ := current d q (fixed.looks.mpr looks)
  have own : (sys'.schedule.stateLinkage t p).completed ≤ getAckTimeFor sys'.schedule t p :=
    ((getAckTimeFor_le valid'.2).mp le_rfl).2
  refine ⟨le.trans own,fun something' => ?_⟩
  have file' := file ((fixed.task d).symm ▸ something')
  rcases recorded with ⟨same,same'⟩ | ⟨_,written⟩
  · omega
  · exact file'.trans written

theorem up_to_date_sample :
    getAckTimeFor (outcome step sample sampleRun).schedule 0 1 ≤ getAckTimeFor (outcome step sample sampleRun).schedule 1 0 ∧
      ((sample.schedule.task 0).doNothing = false → (outcome step sample sampleRun).disk 0 1 ≤ (outcome step sample sampleRun).disk 1 0) :=
  up_to_date sample_launched rfl (fun t p => ⟨le_refl (0 : Int),show (0 : Int) < 2 by decide⟩) (by decide) sample_ran (by decide +kernel) (by decide +kernel) (by decide +kernel)
    (.inl (by decide +kernel))

/-! ## A second run -/

/-- A step in which no input file is newer than the ack file of the worker that looks at it. -/
def calmStep (sys : System) (e : Event) : Option System :=
  match e with
  | .look i files =>
    match sys.places i with
    | .holding w => if files.all (· ≤ sys.disk w.task w.partition) then step sys e else none
    | _ => none
  | e => step sys e

/-- Every ack file is as new as those of the dependencies, and nothing runs for other reasons. -/
structure Fresh (s : Schedule) (disk : Nat → Nat → Int) : Prop where
  plain : ∀ t, (s.task t).doNothing = false ∧ (s.task t).runEverytime = false
  force : s.force = false
  written : ∀ t p, s.Valid t p → 0 < disk t p
  newer : ∀ t p, s.Valid t p → ∀ d q, Looks s t p d q → disk d q ≤ disk t p

/-- Nothing has been run. -/
structure Idle (disk : Nat → Nat → Int) (sys : System) : Prop where
  fresh : Fresh sys.schedule disk
  unwritten : sys.disk = disk
  clear : ∀ i w, sys.places i ≠ .running w
  acks : ∀ t p, sys.schedule.Valid t p → (sys.schedule.stateLinkage t p).ackTime = disk t p
  completed : ∀ t p, sys.schedule.Valid t p → (sys.schedule.stateLinkage t p).completed ≤ disk t p
  skipped : ∀ i w time, sys.places i = .ending w time ∨ sys.places i = .acked w time →
    time = disk w.task w.partition ∧ w.ackTime = disk w.task w.partition

theorem calmStep_step (calm : calmStep sys e = some sys') : step sys e = some sys' ∧
    ∀ i files w, e = .look i files → sys.places i = .holding w → ∀ f ∈ files, f ≤ sys.disk w.task w.partition := by
  cases e with
  | look i files =>
    unfold calmStep at calm
    dsimp only at calm
    split at calm
    case h_2 => cases calm
    case h_1 w place =>
      split at calm
      case isFalse => cases calm
      case isTrue old =>
        refine ⟨calm,fun j files' w' same place' f member => ?_⟩
        cases same
        cases place.symm.trans place'
        exact of_decide_eq_true (List.all_eq_true.mp old f member)
  | _ => exact ⟨calm,fun i files w same => by cases same⟩

theorem Fixed.fresh {disk : Nat → Nat → Int} (fixed : Fixed s s') (fresh : Fresh s disk) : Fresh s' disk where
  plain t := by
    rw [fixed.task]
    exact fresh.plain t
  force := fixed.force.trans fresh.force
  written t p valid := fresh.written t p (fixed.valid.mp valid)
  newer t p valid d q looks := fresh.newer t p (fixed.valid.mp valid) d q (fixed.looks.mp looks)

/-- A worker with such ack files has no reason to run. -/
theorem Idle.rests (idle : Idle disk₀ sys) (safe : Safe sys) (files : List Int) (valid : sys.schedule.Valid w.task w.partition)
    (link : s.stateLinkage = sys.schedule.stateLinkage) (fixed : Fixed sys.schedule s) (ack : w.ackTime = disk₀ w.task w.partition)
    (old : ∀ f ∈ files, f ≤ disk₀ w.task w.partition) : workerNeedsToRun s w files = false := by
  have some_ := idle.fresh.written _ _ valid
  have le : ∀ d q, Looks sys.schedule w.task w.partition d q → getAckTimeFor s d q ≤ w.ackTime := by
    intro d q looks
    have valid' := looks.needs.valid safe.sound.good.sized safe.sound.good.wired
    have newer := idle.fresh.newer _ _ valid d q looks
    have acks := idle.acks d q valid'
    have completed := idle.completed d q valid'
    refine (getAckTimeFor_le (fixed.looks.mpr looks).inside).mpr ?_
    rw [link]
    constructor <;> omega
  have full : ∀ d ∈ (s.task w.task).dependencies, ∀ q < (s.task d).numPartitions, getAckTimeFor s d q ≤ w.ackTime := by
    intro d member q inside
    exact le d q (fixed.looks.mp (.inl ⟨member,inside⟩))
  have partly : ∀ d ∈ (s.task w.task).partialDependencies, getAckTimeFor s d w.partition ≤ w.ackTime := by
    intro d member
    by_cases inside : w.partition < (s.task d).numPartitions
    · exact le d _ (fixed.looks.mp (.inr ⟨member,rfl,inside⟩))
    · rw [getAckTimeFor,if_pos (Nat.le_of_not_lt inside)]
      omega
  obtain ⟨_,once⟩ := idle.fresh.plain w.task
  rw [workerNeedsToRun,fixed.task,once,fixed.force,idle.fresh.force,← fixed.task,Bool.false_and,Bool.or_false,Bool.or_false]
  simp only [Bool.or_eq_false_iff,List.any_eq_false,decide_eq_true_eq,decide_eq_false_iff_not,not_lt,gt_iff_lt]
  refine ⟨⟨⟨by omega,fun d member newer => ?_⟩,partly⟩,fun f member => ack.symm ▸ old f member⟩
  obtain ⟨q,inside,newer⟩ := List.any_eq_true.mp newer
  have le' := full d member q (List.mem_range.mp inside)
  have lt := of_decide_eq_true newer
  omega

/-- Steps of threads that have no worker they would complete. -/
theorem Idle.shift (idle : Idle disk₀ sys) (fixed : Fixed sys.schedule sys'.schedule)
    (links : sys'.schedule.stateLinkage = sys.schedule.stateLinkage) (disk : sys'.disk = sys.disk)
    (timed : ∀ j w, timedWorker (sys'.places j) = some w → sys'.places j = sys.places j ∨
      ∃ w, sys'.places j = .ending w (disk₀ w.task w.partition) ∧ w.ackTime = disk₀ w.task w.partition) : Idle disk₀ sys' where
  fresh := fixed.fresh idle.fresh
  unwritten := disk.trans idle.unwritten
  clear j w place := by
    rcases timed j w (by rw [place]; rfl) with same | ⟨w',same,_⟩
    · exact idle.clear j w (same.symm.trans place)
    · cases place.symm.trans same
  acks t p valid := by
    rw [links]
    exact idle.acks t p (fixed.valid.mp valid)
  completed t p valid := by
    rw [links]
    exact idle.completed t p (fixed.valid.mp valid)
  skipped j w time place := by
    have has : timedWorker (sys'.places j) = some w := by
      rcases place with same | same <;> rw [same] <;> rfl
    rcases timed j w has with same | ⟨w',same,ack⟩
    · rw [same] at place
      exact idle.skipped j w time place
    · rw [same] at place
      rcases place with equal | equal
      · cases equal
        exact ⟨rfl,ack⟩
      · cases equal

theorem Idle.proceed (idle : Idle disk₀ sys) (empty : timedWorker (sys.places i) = none) : Idle disk₀ (proceed sys i) := by
  have fixed := proceed_fixed sys i
  have after := proceed_cases sys i
  generalize Scheduler.proceed sys i = next at after fixed ⊢
  have other : ∀ (place : Place) (j : Nat) w, timedWorker place = none → timedWorker (if j = i then place else sys.places j) = some w →
      (if j = i then place else sys.places j) = sys.places j := by
    intro place j w untimed has
    split at has
    · rw [untimed] at has
      cases has
    case isFalse here => exact if_neg here
  cases after with
  | waits => exact idle.shift fixed rfl rfl fun j w has => .inl (other .dozing j w rfl has)
  | leaves => exact idle.shift fixed rfl rfl fun j w has => .inl (other .leaving j w rfl has)
  | @takes s w' must taken => exact idle.shift fixed (takeNext_took taken).link rfl fun j w has => .inl (other (.holding w') j w rfl has)

/-- A thread goes on without its worker. -/
theorem Idle.moved (idle : Idle disk₀ sys) (place : Place) (untimed : timedWorker place = none) (fixed : Fixed sys.schedule sys'.schedule)
    (links : sys'.schedule.stateLinkage = sys.schedule.stateLinkage) (disk : sys'.disk = sys.disk)
    (places : ∀ j, sys'.places j = (if j = i then place else sys.places j) ∨
      sys'.places j = wake (if j = i then place else sys.places j)) : Idle disk₀ sys' := by
  refine idle.shift fixed links disk fun j w has => .inl ?_
  have timed : timedWorker (if j = i then place else sys.places j) = some w := by
    rcases places j with same | same
    · exact same ▸ has
    · rw [same,wake_timedWorker] at has
      exact has
  have here : j ≠ i := by
    intro same
    rw [if_pos same,untimed] at timed
    cases timed
  rw [if_neg here] at timed
  rcases places j with same | same
  · rw [same,if_neg here]
  · rw [same,if_neg here]
    generalize sys.places j = there at timed ⊢
    cases there <;> first | rfl | cases timed

theorem Idle.completed_ (idle : Idle disk₀ sys) (safe : Safe sys) (place : sys.places i = .acked w time)
    (marked : complete (countSelected sys.schedule w) w.task w.partition time = some s) : Idle disk₀ (completing sys i s) := by
  have spec := (safe.marked place marked).1
  have oldLink := countSelected_link sys.schedule w
  have fixed := (countSelected_fixed sys.schedule w).trans spec.frame.fixed
  obtain ⟨same,_⟩ := idle.skipped i w time (.inr place)
  have links : ∀ t p, sys.schedule.Valid t p → (s.stateLinkage t p).ackTime = (sys.schedule.stateLinkage t p).ackTime ∧
      (s.stateLinkage t p).completed ≤ disk₀ t p := by
    intro t p valid
    by_cases here : t = w.task ∧ p = w.partition
    · obtain ⟨rfl,rfl⟩ := here
      rw [spec.here,oldLink]
      exact ⟨rfl,le_of_eq same⟩
    · rcases spec.links t p here with same' | ⟨_,_,freed⟩
      · rw [same',oldLink]
        exact ⟨rfl,idle.completed t p valid⟩
      · rw [freed,oldLink]
        refine ⟨rfl,?_⟩
        show (if _ then _ else _) ≤ _
        rw [(countSelected_fixed sys.schedule w).task,(idle.fresh.plain t).1,if_neg Bool.false_ne_true]
        exact le_of_lt (idle.fresh.written t p valid)
  have places : ∀ j place', timedWorker place' ≠ none → (completing sys i s).places j = place' → sys.places j = place' := by
    intro j place' timed here
    have either := completing_broadcast sys i s j
    by_cases same : j = i
    · rw [if_pos same] at either
      have calling : (completing sys i s).places j = .calling := either.elim id And.left
      rw [calling] at here
      subst here
      exact absurd rfl timed
    · rw [if_neg same] at either
      rcases either with woken | ⟨still,_⟩
      · rw [woken] at here
        subst here
        rw [wake_timedWorker] at timed
        generalize sys.places j = there at timed ⊢
        cases there <;> first | rfl | exact absurd rfl timed
      · exact still.symm.trans here
  refine ⟨?_,(completing_clock sys i s).2.trans idle.unwritten,fun j w' has => ?_,fun t p valid => ?_,fun t p valid => ?_,fun j w' time' has => ?_⟩
  · rw [completing_schedule]
    exact fixed.fresh idle.fresh
  · exact idle.clear j w' (places j _ (Option.some_ne_none _) has)
  · rw [completing_schedule] at valid ⊢
    rw [(links t p (fixed.valid.mp valid)).1]
    exact idle.acks t p (fixed.valid.mp valid)
  · rw [completing_schedule] at valid ⊢
    exact (links t p (fixed.valid.mp valid)).2
  · refine idle.skipped j w' time' ?_
    rcases has with has | has
    · exact .inl (places j _ (Option.some_ne_none _) has)
    · exact .inr (places j _ (Option.some_ne_none _) has)

theorem Idle.step (idle : Idle disk₀ sys) (safe : Safe sys) (calm : calmStep sys e = some sys') : Idle disk₀ sys' := by
  obtain ⟨stepped,old⟩ := calmStep_step calm
  have fixed := safe_fixed safe stepped
  have moves := step_moves stepped
  cases moves with
  | turnedAway free place ended => exact idle.moved .leaving rfl fixed rfl rfl fun j => .inl rfl
  | @entered i free place ongoing =>
    have fresh : Fresh (entering sys).schedule disk₀ := by
      refine Fixed.fresh ?_ idle.fresh
      exact ⟨rfl,rfl,rfl,rfl,rfl,rfl⟩
    have inside : Idle disk₀ (entering sys) :=
      ⟨fresh,idle.unwritten,idle.clear,idle.acks,idle.completed,idle.skipped⟩
    exact inside.proceed (by show timedWorker (sys.places i) = none; rw [place]; rfl)
  | dozed place => exact idle.moved .asleep rfl fixed rfl rfl fun j => .inl rfl
  | rose free place => exact idle.proceed (by rw [place]; rfl)
  | stirred place => exact idle.moved .woken rfl fixed rfl rfl fun j => .inl rfl
  | @looked i w files place =>
    have away := safe.held i w.task w.partition (by rw [place]; rfl)
    have valid : sys.schedule.Valid w.task w.partition := (safe.sound.known _ away.1).1
    have acks := idle.acks _ _ valid
    have some_ : 0 < disk₀ w.task w.partition := idle.fresh.written _ _ valid
    have ack : getAckTime sys w = disk₀ w.task w.partition := by
      unfold getAckTime
      dsimp only
      rw [acks,if_neg (by omega)]
    have same : (looking sys w).stateLinkage = sys.schedule.stateLinkage := by
      funext t p
      by_cases here : t = w.task ∧ p = w.partition
      · obtain ⟨rfl,rfl⟩ := here
        show (sys.schedule.setLink _ _ _).stateLinkage _ _ = _
        rw [setLink_same,ack,← acks]
      · exact setLink_other _ here
    have rests := idle.rests (w := { w with ackTime := disk₀ w.task w.partition }) safe files valid same fixed rfl
      (idle.unwritten ▸ old i files w rfl place)
    have decided : decision sys w files = .ending { w with ackTime := disk₀ w.task w.partition } (disk₀ w.task w.partition) := by
      unfold decision
      dsimp only
      rw [ack,rests,Bool.false_and,if_neg Bool.false_ne_true,if_pos (by omega)]
    rw [decided] at fixed ⊢
    refine idle.shift fixed same rfl fun j w' has => ?_
    change (if j = i then _ else _) = _ ∨ ∃ w'', (if j = i then _ else _) = _ ∧ _
    by_cases here : j = i
    · rw [if_pos here]
      exact .inr ⟨_,rfl,rfl⟩
    · rw [if_neg here]
      exact .inl rfl
  | finished place => exact absurd place (idle.clear _ _)
  | failed place => exact absurd place (idle.clear _ _)
  | @wrote i w time place =>
    obtain ⟨same,ack⟩ := idle.skipped i w time (.inl place)
    have notNewer : ¬ (time > w.ackTime ∧ time > 1) := by omega
    rw [if_neg notNewer]
    refine ⟨idle.fresh,idle.unwritten,fun j w' has => ?_,idle.acks,idle.completed,fun j w' time' has => ?_⟩
    · change (if j = i then _ else _) = _ at has
      split at has
      · cases has
      · exact idle.clear j w' has
    · change (if j = i then _ else _) = _ ∨ (if j = i then _ else _) = _ at has
      split at has
      · rcases has with equal | equal <;> cases equal
        exact ⟨same,ack⟩
      · exact idle.skipped j w' time' has
  | completed place free marked => exact idle.completed_ safe place marked
  | left place ended => exact idle.moved .gone rfl fixed rfl rfl fun j => .inl rfl
  | leftFirst place ongoing => exact idle.moved .gone rfl fixed rfl rfl fun j => .inr rfl
  | ticked later => exact idle.shift fixed rfl rfl fun j w has => .inl rfl

/-- After a whole run of tasks that all do something, with no input newer than the ack files,
    a second run of the same tasks calls no runner and writes no ack file, in whatever order
    its threads take turns. -/
theorem second_run_idle {sys₂ sys₂' : System} {es₂ : List Event} (launched : Launched sys) (all : sys.schedule.selectAll = true)
    (early : ∀ t p, 0 ≤ sys.disk t p ∧ sys.disk t p < sys.clock) (later : 1 < sys.clock) (ran : Ran step sys es sys')
    (whole : ∀ t p, sys.schedule.Valid t p → Finished sys'.schedule t p)
    (plain : ∀ t, (sys.schedule.task t).doNothing = false ∧ (sys.schedule.task t).runEverytime = false)
    (launched₂ : Launched sys₂) (same : sys₂.schedule.tasks = sys.schedule.tasks) (disk : sys₂.disk = sys'.disk)
    (force : sys₂.schedule.force = false) (ran₂ : Ran calmStep sys₂ es₂ sys₂') :
    (∀ i w, sys₂'.places i ≠ .running w) ∧ sys₂'.disk = sys₂.disk := by
  obtain ⟨dated,safe⟩ := dated_run launched all early later ran
  have fixed := (safe_run launched.safe ran).2
  have task : ∀ t, sys₂.schedule.task t = sys.schedule.task t := fun t => by rw [Schedule.task,same,Schedule.task]
  have valid : ∀ t p, sys₂.schedule.Valid t p ↔ sys.schedule.Valid t p := fun t p => by rw [Schedule.Valid,same,task,Schedule.Valid]
  have looks : ∀ t p d q, Looks sys₂.schedule t p d q ↔ Looks sys.schedule t p d q := fun t p d q => by rw [Looks,task,task,Looks]
  have written : ∀ t p, sys.schedule.Valid t p → 0 < sys'.disk t p := by
    intro t p inside
    have finished := whole t p inside
    have member := safe.sound.covers t p (fixed.valid.mpr inside) ((fixed.task t).symm ▸ (plain t).1) finished
    rcases (dated.recorded t p member finished).1 with ⟨skipped,still⟩ | ⟨late,le⟩
    · have some_ := finished.2
      have before := (early t p).1
      omega
    · omega
  have fresh : Fresh sys₂.schedule sys₂.disk := by
    refine ⟨fun t => (task t).symm ▸ plain t,force,fun t p inside => ?_,fun t p inside d q looks' => ?_⟩
    · rw [disk]
      exact written t p ((valid t p).mp inside)
    · rw [disk]
      have inside' := (valid t p).mp inside
      exact (up_to_date launched all early later ran inside' (plain t).1 (whole t p inside') ((looks t p d q).mp looks')).2 (plain d).1
  obtain ⟨acks,_,untouched,_,places⟩ := launched₂.times
  have idle : Idle sys₂.disk sys₂ := by
    refine ⟨fresh,rfl,fun i w has => ?_,acks,fun t p inside => ?_,fun i w time has => ?_⟩
    · rcases places i with same | same <;> cases same.symm.trans has
    · rw [untouched t p (fresh.plain t).1]
      exact le_of_lt (fresh.written t p inside)
    · rcases places i with same | same <;> rcases has with has | has <;> cases same.symm.trans has
  have both := ran₂.keeps (fun now => Idle sys₂.disk now ∧ Safe now) ⟨idle,launched₂.safe⟩
    fun _ _ _ _ both calm => ⟨both.1.step both.2 calm,both.2.step (calmStep_step calm).1⟩
  exact ⟨both.1.clear,both.1.unwritten⟩

/-- The tasks of `sample` once more. -/
def sampleAgain : System :=
  let disk := (outcome step sample sampleRun).disk
  let built := outcome call (init 2 1) sampleCalls
  let set := (scheduleSetup disk 3 built).getD built
  start (parseArgs set ⟨0,false,false,none⟩) (fun _ => 0) disk 3

theorem sampleAgain_launched : Launched sampleAgain := by
  refine .mk (by decide) sampleCalls_ran ?_ (show (0 : Int) < 3 by decide) (show (3 : Int) ≤ 3 by decide) fun e named => by cases named
  have leads : (scheduleSetup (outcome step sample sampleRun).disk 3 (outcome call (init 2 1) sampleCalls)).isSome = true := by
    decide +kernel
  obtain ⟨set,same⟩ := Option.isSome_iff_exists.mp leads
  rw [same,Option.getD_some]

theorem second_run_idle_sample :
    (∀ i w, (outcome calmStep sampleAgain [.enter 0,.look 0 [],.writeAck 0,.complete 0]).places i ≠ .running w) ∧
      (outcome calmStep sampleAgain [.enter 0,.look 0 [],.writeAck 0,.complete 0]).disk = sampleAgain.disk := by
  have whole : ∀ t < sample.schedule.tasks.length, ∀ p < (sample.schedule.task t).numPartitions,
      Finished (outcome step sample sampleRun).schedule t p := by decide +kernel
  have plain : ∀ t < sample.schedule.tasks.length, (sample.schedule.task t).doNothing = false ∧
      (sample.schedule.task t).runEverytime = false := by decide +kernel
  refine second_run_idle sample_launched rfl (fun t p => ⟨le_refl (0 : Int),show (0 : Int) < 2 by decide⟩) (by decide) sample_ran (fun t p valid => whole t valid.1 p valid.2)
    (fun t => ?_) sampleAgain_launched (by decide +kernel) rfl rfl (ran_outcome (by decide +kernel))
  by_cases known : t < sample.schedule.tasks.length
  · exact plain t known
  · rw [task_outside (Nat.le_of_not_lt known)]
    exact ⟨rfl,rfl⟩

end

end AnotherC.Scheduler
