import AnotherC.Io.SchedulerLists

/-!
# What completing a link sets free

`mark_task_complete` returns, and what it leaves waiting was as far from being ready before
(`complete_spec`): a link moves on when its last dependency completes, and then at once.
-/
namespace AnotherC.Scheduler
set_option linter.unusedVariables false

/-! ## Dependencies of links -/

def Finished (s : Schedule) (t p : Nat) : Prop :=
  (s.stateLinkage t p).waitingOnOthers = false ∧ (s.stateLinkage t p).completed ≠ 0

/-- The link depends on that one. -/
def Needs (s : Schedule) (t p d q : Nat) : Prop :=
  d ∈ (s.task t).dependencies ∧ q < (s.task d).numPartitions ∨
    d ∈ (s.task t).partialDependencies ∧ q = if (s.task d).numPartitions ≤ p then 0 else p

/-- All that the link depends on is complete. -/
def Met (s : Schedule) (t p : Nat) : Prop := ∀ d q, Needs s t p d q → Finished s d q

/-- The lists of dependencies name tasks, and each has its mirror. -/
structure Wired (s : Schedule) : Prop where
  known : ∀ t, ∀ d ∈ (s.task t).dependencies, d < s.tasks.length
  partly : ∀ t, ∀ d ∈ (s.task t).partialDependencies, d < s.tasks.length
  mirror : ∀ t d, d ∈ (s.task t).dependencies ↔ t ∈ (s.task d).reverseDependencies
  mirrorPartial : ∀ t d, d ∈ (s.task t).partialDependencies ↔ t ∈ (s.task d).reversePartialDependencies

/-- Nothing but links, lists and counters has changed. -/
def Frame (s s' : Schedule) : Prop :=
  s' = { s with stateLinkage := s'.stateLinkage, state := s'.state, numAvailable := s'.numAvailable,
                numTasksToRun := s'.numTasksToRun }

section
variable {s s' s'' : Schedule} {t p t' p' d q : Nat} {out : Nat → Nat → Prop} {time : Int}

theorem isTaskComplete_iff : isTaskComplete s t = true ↔ ∀ i < (s.task t).numPartitions, Finished s t i := by
  simp [isTaskComplete,Finished]

theorem isWorkerComplete_iff :
    isWorkerComplete s t p = true ↔ Finished s t (if (s.task t).numPartitions ≤ p then 0 else p) := by
  simp [isWorkerComplete,Finished]

theorem isDependenciesComplete_iff : isDependenciesComplete s t p = true ↔ Met s t p := by
  rw [isDependenciesComplete,Bool.and_eq_true,List.all_eq_true,List.all_eq_true]
  constructor
  · rintro ⟨full,part⟩ d q (⟨member,inside⟩ | ⟨member,rfl⟩)
    · exact isTaskComplete_iff.mp (full d member) q inside
    · exact isWorkerComplete_iff.mp (part d member)
  · intro met
    constructor
    · intro d member
      exact isTaskComplete_iff.mpr fun i inside => met d i (.inl ⟨member,inside⟩)
    · intro d member
      exact isWorkerComplete_iff.mpr (met d _ (.inr ⟨member,rfl⟩))

theorem Frame.refl (s : Schedule) : Frame s s := rfl

theorem Frame.trans (first : Frame s s') (second : Frame s' s'') : Frame s s'' := by
  rw [Frame] at first second ⊢
  rw [second,first]

theorem Frame.tasks (frame : Frame s s') : s'.tasks = s.tasks := by
  rw [Frame] at frame
  rw [frame]

theorem Frame.selected (frame : Frame s s') : s'.selected = s.selected := by
  rw [Frame] at frame
  rw [frame]

theorem Frame.task (frame : Frame s s') (t : Nat) : s'.task t = s.task t := by
  rw [Schedule.task,frame.tasks,Schedule.task]

theorem Frame.valid (frame : Frame s s') : s'.Valid t p ↔ s.Valid t p := by
  rw [Schedule.Valid,frame.tasks,frame.task,Schedule.Valid]

theorem Frame.needs (frame : Frame s s') : Needs s' t p d q ↔ Needs s t p d q := by
  rw [Needs,frame.task,frame.task,Needs]

theorem Frame.sized (frame : Frame s s') (sized : Sized s) : Sized s' := by
  have parts : s'.numPartitions = s.numPartitions := by
    rw [Frame] at frame
    rw [frame]
  refine ⟨parts ▸ sized.1,fun t known => ?_⟩
  rw [frame.task,parts]
  exact sized.2 t (frame.tasks ▸ known)

theorem Frame.wired (frame : Frame s s') (wired : Wired s) : Wired s' where
  known t := by
    rw [frame.task,frame.tasks]
    exact wired.known t
  partly t := by
    rw [frame.task,frame.tasks]
    exact wired.partly t
  mirror t d := by
    rw [frame.task,frame.task]
    exact wired.mirror t d
  mirrorPartial t d := by
    rw [frame.task,frame.task]
    exact wired.mirrorPartial t d

theorem unlinkState_frame (s : Schedule) (t p : Nat) : Frame s (unlinkState s t p) := rfl
theorem setLink_frame (s : Schedule) (t p : Nat) (flags : StateLink) : Frame s (s.setLink t p flags) := rfl

theorem Met.of_finished (met : Met s t p) (frame : Frame s s')
    (finished : ∀ d q, Needs s t p d q → Finished s d q → Finished s' d q) : Met s' t p := by
  intro d q needs
  have before := frame.needs.mp needs
  exact finished d q before (met d q before)

/-! ## Links move on -/

/-- Links that waited and whose dependencies are complete have become available, or complete
    where the task does nothing. What is left waiting was as far before. -/
structure Advance (time : Int) (s s' : Schedule) : Prop where
  frame : Frame s s'
  links : ∀ t p, s'.stateLinkage t p = s.stateLinkage t p ∨
    (s.stateLinkage t p).waitingOnOthers = true ∧ Met s' t p ∧
      s'.stateLinkage t p = ⟨false,(s.stateLinkage t p).ackTime,if (s.task t).doNothing then time else 0⟩
  ready : ∀ t p, s.Valid t p → (s'.stateLinkage t p).waitingOnOthers = true → Met s' t p → Met s t p

theorem Advance.finished (advance : Advance time s s') (finished : Finished s t p) : Finished s' t p := by
  rcases advance.links t p with same | ⟨waiting,_⟩
  · rw [Finished,same]
    exact finished
  · rw [finished.1] at waiting
    cases waiting

theorem Advance.met (advance : Advance time s s') (met : Met s t p) : Met s' t p :=
  met.of_finished advance.frame fun _ _ _ => advance.finished

theorem Advance.waited (advance : Advance time s s') (waiting : (s'.stateLinkage t p).waitingOnOthers = true) :
    s'.stateLinkage t p = s.stateLinkage t p := by
  rcases advance.links t p with same | ⟨_,_,freed⟩
  · exact same
  · rw [freed] at waiting
    cases waiting

theorem Advance.refl (time : Int) (s : Schedule) : Advance time s s :=
  ⟨Frame.refl s,fun _ _ => .inl rfl,fun _ _ _ _ met => met⟩

theorem Advance.trans (first : Advance time s s') (second : Advance time s' s'') : Advance time s s'' where
  frame := first.frame.trans second.frame
  links t p := by
    rcases second.links t p with same | ⟨waiting,met,freed⟩
    · rcases first.links t p with same' | ⟨waiting,met,freed⟩
      · exact .inl (same.trans same')
      · exact .inr ⟨waiting,second.met met,same.trans freed⟩
    · have same := first.waited waiting
      rw [same] at waiting freed
      rw [first.frame.task] at freed
      exact .inr ⟨waiting,met,freed⟩
  ready t p valid waiting met := by
    have still := second.waited waiting
    have met' := second.ready t p (first.frame.valid.mpr valid) waiting met
    rw [still] at waiting
    exact first.ready t p valid waiting met'

/-- What the functions of the cascade rely on; the links of `out` are in no list. -/
structure Good (s : Schedule) (out : Nat → Nat → Prop) : Prop where
  sized : Sized s
  wired : Wired s
  filed : Filed s out
  fresh : ∀ t p, (s.stateLinkage t p).waitingOnOthers = true → (s.stateLinkage t p).completed = 0
  aside : ∀ t p, out t p → (s.stateLinkage t p).waitingOnOthers = false

theorem Advance.good (advance : Advance time s s') (good : Good s out) (filed : Filed s' out) : Good s' out where
  sized := advance.frame.sized good.sized
  wired := advance.frame.wired good.wired
  filed := filed
  fresh t p waiting := by
    have same := advance.waited waiting
    rw [same] at waiting ⊢
    exact good.fresh t p waiting
  aside t p outside := by
    rcases advance.links t p with same | ⟨waiting,_⟩
    · rw [same]
      exact good.aside t p outside
    · rw [good.aside t p outside] at waiting
      cases waiting

/-- What a call of `mark_task_complete` leads to. -/
structure Marked (time : Int) (out : Nat → Nat → Prop) (s : Schedule) (t p : Nat) (s' : Schedule) : Prop where
  filed : Filed s' (less out t p)
  frame : Frame s s'
  here : s'.stateLinkage t p = ⟨false,(s.stateLinkage t p).ackTime,time⟩
  links : ∀ t' p', ¬ (t' = t ∧ p' = p) → s'.stateLinkage t' p' = s.stateLinkage t' p' ∨
    (s.stateLinkage t' p').waitingOnOthers = true ∧ Met s' t' p' ∧
      s'.stateLinkage t' p' = ⟨false,(s.stateLinkage t' p').ackTime,if (s.task t').doNothing then time else 0⟩
  ready : ∀ t' p', s.Valid t' p' → (s'.stateLinkage t' p').waitingOnOthers = true → Met s' t' p' → Met s t' p'
  fewer : s'.numTasksToRun ≤ s.numTasksToRun

/-- `mark` does that while fewer links wait than it may nest calls. -/
def Marks (time : Int) (depth : Nat) (mark : Schedule → Nat → Nat → Option Schedule) : Prop :=
  ∀ s out t p, Good s out → s.Valid t p → out t p → (s.stateLinkage t p).completed = 0 → s.numTasksToRun < depth →
    ∃ s', mark s t p = some s' ∧ Marked time out s t p s'

/-- What has been checked is not both waiting and ready. -/
structure Checked (time : Int) (out : Nat → Nat → Prop) (s s' : Schedule) : Prop where
  advance : Advance time s s'
  filed : Filed s' out
  fewer : s'.numTasksToRun ≤ s.numTasksToRun

/-- `freed` of `check_task`. -/
def freed (s : Schedule) (t p : Nat) : Schedule :=
  (unlinkState s t p).setLink t p { s.stateLinkage t p with waitingOnOthers := false }

theorem freed_frame (s : Schedule) (t p : Nat) : Frame s (freed s t p) := rfl

theorem freed_same : (freed s t p).stateLinkage t p = { s.stateLinkage t p with waitingOnOthers := false } :=
  setLink_same _ _ _ _

theorem freed_other (other : ¬ (t' = t ∧ p' = p)) : (freed s t p).stateLinkage t' p' = s.stateLinkage t' p' :=
  setLink_other _ other

/-- A link that waits, taken out of its list. -/
theorem Good.freed (good : Good s out) (valid : s.Valid t p) (waiting : (s.stateLinkage t p).waitingOnOthers = true) :
    Good (freed s t p) (also out t p) ∧ (Scheduler.freed s t p).numTasksToRun + 1 = s.numTasksToRun := by
  have inside : ¬ out t p := fun outside => by
    rw [good.aside t p outside] at waiting
    cases waiting
  have filed : Filed (Scheduler.freed s t p) (also out t p) :=
    (good.filed.unlink good.sized valid inside).setLink (.inr ⟨rfl,rfl⟩) _
  have some_ : 0 < s.numTasksToRun := (toRun_pos good.sized good.filed).mpr ⟨t,p,valid,waiting,inside⟩
  refine ⟨⟨(freed_frame s t p).sized good.sized,(freed_frame s t p).wired good.wired,filed,?_,?_⟩,?_⟩
  · intro t' p' waiting'
    by_cases same : t' = t ∧ p' = p
    · obtain ⟨rfl,rfl⟩ := same
      rw [freed_same] at waiting'
      cases waiting'
    · rw [freed_other same] at waiting' ⊢
      exact good.fresh t' p' waiting'
  · intro t' p' outside
    by_cases same : t' = t ∧ p' = p
    · obtain ⟨rfl,rfl⟩ := same
      rw [freed_same]
    · rw [freed_other same]
      rcases outside with outside | same'
      · exact good.aside t' p' outside
      · exact absurd same' same
  · show (if _ then _ else _) + 1 = _
    rw [if_pos waiting]
    omega

theorem freed_met (waiting : (s.stateLinkage t p).waitingOnOthers = true)
    (fresh : (s.stateLinkage t p).completed = 0) : Met (freed s t p) t' p' ↔ Met s t' p' := by
  have finished : ∀ d q, Finished (freed s t p) d q ↔ Finished s d q := by
    intro d q
    by_cases same : d = t ∧ q = p
    · obtain ⟨rfl,rfl⟩ := same
      rw [Finished,Finished,freed_same,waiting]
      simp [fresh]
    · rw [Finished,Finished,freed_other same]
  constructor
  · intro met d q needs
    exact (finished d q).mp (met d q ((freed_frame s t p).needs.mpr needs))
  · intro met
    exact met.of_finished (freed_frame s t p) fun d q _ done_ => (finished d q).mpr done_

theorem checkTask_spec {depth : Nat} {mark : Schedule → Nat → Nat → Option Schedule} (marks : Marks time depth mark)
    (good : Good s out) (valid : s.Valid t p) (enough : s.numTasksToRun < depth + 1) :
    ∃ s', checkTask mark s t p = some s' ∧ Checked time out s s' ∧
      ((s'.stateLinkage t p).waitingOnOthers = true → ¬ Met s' t p) := by
  by_cases ready : (s.stateLinkage t p).waitingOnOthers = true ∧ Met s t p
  case neg =>
    refine ⟨s,?_,⟨Advance.refl time s,good.filed,le_rfl⟩,fun waiting met => ready ⟨waiting,met⟩⟩
    rw [checkTask,if_neg]
    rw [Bool.and_eq_true,isDependenciesComplete_iff]
    exact ready
  case pos =>
    obtain ⟨waiting,met⟩ := ready
    have fresh := good.fresh t p waiting
    have inside : ¬ out t p := fun outside => by
      rw [good.aside t p outside] at waiting
      cases waiting
    obtain ⟨good',fewer⟩ := good.freed valid waiting
    have back : ∀ t' p', less (also out t p) t p t' p' ↔ out t' p' := by
      intro t' p'
      unfold less also
      constructor
      · rintro ⟨outside | same,other⟩
        · exact outside
        · exact absurd same other
      · intro outside
        refine ⟨.inl outside,?_⟩
        rintro ⟨rfl,rfl⟩
        exact inside outside
    have unfolded : checkTask mark s t p =
        if (s.task t).doNothing then mark (freed s t p) t p else some (linkState (freed s t p) t p) := by
      rw [checkTask,if_pos]
      · rfl
      · rw [Bool.and_eq_true,isDependenciesComplete_iff]
        exact ⟨waiting,met⟩
    by_cases nothing : (s.task t).doNothing = true
    · rw [unfolded,if_pos nothing]
      have zero : ((freed s t p).stateLinkage t p).completed = 0 := by
        rw [freed_same]
        exact fresh
      obtain ⟨s',marked,spec⟩ := marks (freed s t p) (also out t p) t p good' ⟨valid.1,valid.2⟩ (.inr ⟨rfl,rfl⟩) zero (by omega)
      have here : s'.stateLinkage t p = ⟨false,(s.stateLinkage t p).ackTime,time⟩ := by
        rw [spec.here,freed_same]
      have frame : Frame s s' := (freed_frame s t p).trans spec.frame
      have links : ∀ t' p', ¬ (t' = t ∧ p' = p) → s'.stateLinkage t' p' = s.stateLinkage t' p' ∨
          (s.stateLinkage t' p').waitingOnOthers = true ∧ Met s' t' p' ∧
            s'.stateLinkage t' p' = ⟨false,(s.stateLinkage t' p').ackTime,if (s.task t').doNothing then time else 0⟩ := by
        intro t' p' other
        have either := spec.links t' p' other
        rw [freed_other other] at either
        exact either
      have finished : ∀ d q, Finished s d q → Finished s' d q := by
        intro d q done_
        have other : ¬ (d = t ∧ q = p) := by
          rintro ⟨rfl,rfl⟩
          rw [done_.1] at waiting
          cases waiting
        rcases links d q other with same | ⟨waits,_⟩
        · rw [Finished,same]
          exact done_
        · rw [done_.1] at waits
          cases waits
      have met' : Met s' t p := met.of_finished frame fun d q _ => finished d q
      refine ⟨s',marked,⟨⟨frame,fun t' p' => ?_,fun t' p' valid' waits ready' => ?_⟩,spec.filed.congr back,by have := spec.fewer; omega⟩,?_⟩
      · by_cases same : t' = t ∧ p' = p
        · obtain ⟨rfl,rfl⟩ := same
          rw [here,if_pos nothing]
          exact .inr ⟨waiting,met',rfl⟩
        · exact links t' p' same
      · exact (freed_met waiting fresh).mp (spec.ready t' p' ⟨valid'.1,valid'.2⟩ waits ready')
      · intro waits
        rw [here] at waits
        cases waits
    · rw [unfolded,if_neg nothing]
      have here : (linkState (freed s t p) t p).stateLinkage t p = ⟨false,(s.stateLinkage t p).ackTime,0⟩ := by
        rw [linkState_link,freed_same]
        exact congrArg (StateLink.mk false _) fresh
      have frame : Frame s (linkState (freed s t p) t p) := rfl
      have same_met : ∀ t' p', Met (linkState (freed s t p) t p) t' p' ↔ Met (freed s t p) t' p' := fun _ _ => Iff.rfl
      have met' : Met (linkState (freed s t p) t p) t p := (same_met t p).mpr ((freed_met waiting fresh).mpr met)
      have filed := (good'.filed.link good'.sized (show (freed s t p).Valid t p from ⟨valid.1,valid.2⟩) (.inr ⟨rfl,rfl⟩)).congr back
      have count : (linkState (freed s t p) t p).numTasksToRun = (freed s t p).numTasksToRun := by
        show (if _ then _ else _) = _
        rw [if_neg]
        rw [freed_same]
        exact Bool.false_ne_true
      refine ⟨_,rfl,⟨⟨frame,fun t' p' => ?_,fun t' p' valid' waits ready' => ?_⟩,filed,by omega⟩,?_⟩
      · by_cases same : t' = t ∧ p' = p
        · obtain ⟨rfl,rfl⟩ := same
          rw [here,if_neg nothing]
          exact .inr ⟨waiting,met',rfl⟩
        · rw [linkState_link,freed_other same]
          exact .inl rfl
      · exact (freed_met waiting fresh).mp ((same_met t' p').mp ready')
      · intro waits
        rw [here] at waits
        cases waits

theorem checks_spec {depth : Nat} {mark : Schedule → Nat → Nat → Option Schedule} (marks : Marks time depth mark)
    (list : List (Nat × Nat)) (good : Good s out) (valid : ∀ c ∈ list, s.Valid c.1 c.2) (enough : s.numTasksToRun < depth + 1) :
    ∃ s', list.foldlM (fun s c => checkTask mark s c.1 c.2) s = some s' ∧ Checked time out s s' ∧
      ∀ c ∈ list, (s'.stateLinkage c.1 c.2).waitingOnOthers = true → ¬ Met s' c.1 c.2 := by
  induction list generalizing s with
  | nil => exact ⟨s,rfl,⟨Advance.refl time s,good.filed,le_rfl⟩,fun c member => absurd member List.not_mem_nil⟩
  | cons c list ih =>
    obtain ⟨u,checked,first,clear⟩ := checkTask_spec marks good (valid c List.mem_cons_self) enough
    have within : u.numTasksToRun < depth + 1 := by
      have := first.fewer
      omega
    obtain ⟨s',rest,second,clears⟩ := ih (first.advance.good good first.filed)
      (fun d member => first.advance.frame.valid.mpr (valid d (List.mem_cons_of_mem c member))) within
    refine ⟨s',?_,⟨first.advance.trans second.advance,second.filed,second.fewer.trans first.fewer⟩,?_⟩
    · rw [List.foldlM_cons,checked]
      exact rest
    · intro d member waiting met
      rcases List.mem_cons.mp member with rfl | later
      · have still := second.advance.waited waiting
        have met' := second.advance.ready d.1 d.2 (first.advance.frame.valid.mpr (valid d List.mem_cons_self)) waiting met
        rw [still] at waiting
        exact clear waiting met'
      · exact clears d later waiting met

theorem mem_linksOf {c : Nat × Nat} : c ∈ linksOf s t ↔ c.1 = t ∧ c.2 < (s.task t).numPartitions := by
  rw [linksOf,List.mem_map]
  constructor
  · rintro ⟨i,inside,rfl⟩
    exact ⟨rfl,List.mem_range.mp inside⟩
  · rintro ⟨rfl,inside⟩
    exact ⟨c.2,List.mem_range.mpr inside,rfl⟩

theorem allCompleted_iff : allCompleted s t = true ↔ ∀ i < (s.task t).numPartitions, (s.stateLinkage t i).completed ≠ 0 := by
  simp [allCompleted]

/-- Only links that there are get looked at. -/
theorem lookedAt_valid (wired : Wired s) {c : Nat × Nat} (member : c ∈ lookedAt s t p) : s.Valid c.1 c.2 := by
  have known : ∀ u, t ∈ (s.task u).dependencies ∨ t ∈ (s.task u).partialDependencies → u < s.tasks.length := by
    intro u depends
    by_contra outside
    have none_ : s.task u = noTask := by simp [Schedule.task,List.getElem?_eq_none (Nat.le_of_not_lt outside)]
    rw [none_] at depends
    rcases depends with member | member <;> cases member
  unfold lookedAt at member
  split at member
  case isTrue all =>
    rcases List.mem_append.mp member with member | member
    · obtain ⟨u,reverse,inside⟩ := List.mem_flatMap.mp member
      obtain ⟨rfl,below⟩ := mem_linksOf.mp inside
      exact ⟨known _ (.inl ((wired.mirror _ _).mpr reverse)),below⟩
    · obtain ⟨u,reverse,inside⟩ := List.mem_flatMap.mp member
      obtain ⟨rfl,below⟩ := mem_linksOf.mp inside
      exact ⟨known _ (.inr ((wired.mirrorPartial _ _).mpr reverse)),below⟩
  case isFalse some_ =>
    obtain ⟨u,filtered,rfl⟩ := List.mem_map.mp member
    obtain ⟨reverse,below⟩ := List.mem_filter.mp filtered
    exact ⟨known _ (.inr ((wired.mirrorPartial _ _).mpr reverse)),of_decide_eq_true below⟩

/-- A link whose last dependency has just been completed is looked at. -/
theorem lookedAt_needs (sized : Sized s) (wired : Wired s) (valid : s.Valid t' p') (here : Finished s t p)
    (needs : Needs s t' p' t p) (met : Met s t' p') : (t',p') ∈ lookedAt s t p := by
  unfold lookedAt
  rcases needs with ⟨member,inside⟩ | ⟨member,same⟩
  · have all : allCompleted s t = true := allCompleted_iff.mpr fun i below => (met t i (.inl ⟨member,below⟩)).2
    rw [if_pos all,List.mem_append,List.mem_flatMap]
    exact .inl ⟨t',(wired.mirror _ _).mp member,mem_linksOf.mpr ⟨rfl,valid.2⟩⟩
  · have reverse := (wired.mirrorPartial _ _).mp member
    by_cases all : allCompleted s t = true
    · rw [if_pos all,List.mem_append,List.mem_flatMap,List.mem_flatMap]
      exact .inr ⟨t',reverse,mem_linksOf.mpr ⟨rfl,valid.2⟩⟩
    · have equal : p = p' := by
        by_contra other
        apply all
        -- a task without that partition has one only
        have many : (s.task t).numPartitions ≤ p' := by
          by_contra few
          rw [if_neg few] at same
          exact other same
        rw [if_pos many] at same
        have below := sized.inside valid
        apply allCompleted_iff.mpr
        intro i inside
        rcases sized.2 t (wired.partly _ _ member) with one | full
        · have first : i = p := by omega
          rw [first]
          exact here.2
        · omega
      rw [if_neg all,equal]
      exact List.mem_map.mpr ⟨t',List.mem_filter.mpr ⟨reverse,decide_eq_true valid.2⟩,rfl⟩

theorem markTaskComplete_spec (some_ : time ≠ 0) (depth : Nat) : Marks time depth (markTaskComplete time depth) := by
  induction depth with
  | zero =>
    intro s out t p _ _ _ _ enough
    exact absurd enough (Nat.not_lt_zero _)
  | succ depth ih =>
    intro s out t p good valid outside zero enough
    -- the state that the loops start in
    obtain ⟨m,isM⟩ : ∃ m, m = linkState (s.setLink t p ⟨false,(s.stateLinkage t p).ackTime,time⟩) t p := ⟨_,rfl⟩
    have frame : Frame s m := by
      rw [isM]
      rfl
    have here : m.stateLinkage t p = ⟨false,(s.stateLinkage t p).ackTime,time⟩ := by
      rw [isM,linkState_link,setLink_same]
    have others : ∀ t' p', ¬ (t' = t ∧ p' = p) → m.stateLinkage t' p' = s.stateLinkage t' p' := by
      intro t' p' other
      rw [isM,linkState_link,setLink_other _ other]
    have filed : Filed m (less out t p) := by
      rw [isM]
      exact (good.filed.setLink outside _).link ((setLink_frame _ _ _ _).sized good.sized) ⟨valid.1,valid.2⟩ outside
    have count : m.numTasksToRun = s.numTasksToRun := by
      rw [isM]
      show (if _ then _ else _) = _
      rw [setLink_same,if_neg Bool.false_ne_true]
      rfl
    have good' : Good m (less out t p) := by
      refine ⟨frame.sized good.sized,frame.wired good.wired,filed,?_,?_⟩
      · intro t' p' waiting
        by_cases same : t' = t ∧ p' = p
        · obtain ⟨rfl,rfl⟩ := same
          rw [here] at waiting
          cases waiting
        · rw [others t' p' same] at waiting ⊢
          exact good.fresh t' p' waiting
      · intro t' p' both
        rw [others t' p' both.2]
        exact good.aside t' p' both.1
    obtain ⟨s',ran,checked,clear⟩ := checks_spec ih (lookedAt m t p) good' (fun c => lookedAt_valid good'.wired) (by omega)
    have done_ : Finished m t p := by
      rw [Finished,here]
      exact ⟨rfl,some_⟩
    refine ⟨s',?_,?_⟩
    · rw [markTaskComplete,← isM]
      exact ran
    · refine ⟨checked.filed,frame.trans checked.advance.frame,?_,?_,?_,count ▸ checked.fewer⟩
      · rcases checked.advance.links t p with same | ⟨waiting,_⟩
        · rw [same,here]
        · rw [here] at waiting
          cases waiting
      · intro t' p' other
        have either := checked.advance.links t' p'
        rw [others t' p' other,frame.task] at either
        exact either
      · intro t' p' valid' waiting met
        have valid_m := frame.valid.mpr valid'
        have before := checked.advance.ready t' p' valid_m waiting met
        intro d q needs
        by_contra unfinished
        -- what the link was waiting for is the link just completed
        have same : d = t ∧ q = p := by
          by_contra other
          have now := before d q (frame.needs.mpr needs)
          rw [Finished,others d q other] at now
          exact unfinished now
        obtain ⟨rfl,rfl⟩ := same
        exact clear (t',p') (lookedAt_needs good'.sized good'.wired valid_m done_ (frame.needs.mpr needs) before) waiting met

/-- Completing a link returns. -/
theorem complete_spec (some_ : time ≠ 0) (good : Good s out) (valid : s.Valid t p) (outside : out t p)
    (zero : (s.stateLinkage t p).completed = 0) : ∃ s', complete s t p time = some s' ∧ Marked time out s t p s' :=
  markTaskComplete_spec some_ _ s out t p good valid outside zero (Nat.lt_succ_self _)

end

end AnotherC.Scheduler
