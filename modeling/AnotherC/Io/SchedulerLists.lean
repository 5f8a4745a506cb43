import AnotherC.Io.Scheduler
import Mathlib.Algebra.Order.BigOperators.Group.Finset

/-!
# The lists of the scheduler

Every link is in exactly the list that its flags name, but for those that are out, and the
two counters are what the lists hold (`Filed`). Taking a link out of its list, changing one
that is out and putting it back keep that.
-/
namespace AnotherC.Scheduler
set_option linter.unusedVariables false

section
variable {s s' : Schedule} {t p t' p' : Nat} {flags : StateLink} {out out' : Nat → Nat → Prop} {r : Root}

theorem rootOf_available : rootOf flags = .available ↔ flags.waitingOnOthers = false ∧ flags.completed = 0 := by
  cases flags with
  | mk waiting _ completed => cases waiting <;> by_cases none_ : completed = 0 <;> simp [rootOf,none_]

theorem rootOf_toFinish : rootOf flags = .tasksToFinish ↔ flags.waitingOnOthers = true := by
  cases flags with
  | mk waiting _ completed => cases waiting <;> by_cases none_ : completed = 0 <;> simp [rootOf,none_]

@[simp] theorem setAt_same {α : Type} (f : Nat → Nat → α) (t p : Nat) (a : α) : setAt f t p a t p = a := by
  simp [setAt]

theorem setAt_other {α : Type} (f : Nat → Nat → α) (a : α) (other : ¬ (t' = t ∧ p' = p)) : setAt f t p a t' p' = f t' p' :=
  if_neg other

@[simp] theorem setLink_tasks (s : Schedule) (t p : Nat) (flags : StateLink) : (s.setLink t p flags).tasks = s.tasks := rfl

@[simp] theorem setLink_same (s : Schedule) (t p : Nat) (flags : StateLink) : (s.setLink t p flags).stateLinkage t p = flags :=
  setAt_same _ _ _ _

theorem setLink_other (flags : StateLink) (other : ¬ (t' = t ∧ p' = p)) :
    (s.setLink t p flags).stateLinkage t' p' = s.stateLinkage t' p' := setAt_other _ _ other

@[simp] theorem unlinkState_link (s : Schedule) (t p : Nat) : (unlinkState s t p).stateLinkage = s.stateLinkage := rfl
@[simp] theorem unlinkState_tasks (s : Schedule) (t p : Nat) : (unlinkState s t p).tasks = s.tasks := rfl
@[simp] theorem linkState_link (s : Schedule) (t p : Nat) : (linkState s t p).stateLinkage = s.stateLinkage := rfl
@[simp] theorem linkState_tasks (s : Schedule) (t p : Nat) : (linkState s t p).tasks = s.tasks := rfl

/-- A task has one partition or as many as the scheduler, which has some. -/
def Sized (s : Schedule) : Prop :=
  0 < s.numPartitions ∧ ∀ t < s.tasks.length, (s.task t).numPartitions = 1 ∨ (s.task t).numPartitions = s.numPartitions

theorem Sized.inside (sized : Sized s) (valid : s.Valid t p) : p < s.numPartitions := by
  have below := valid.2
  have some_ := sized.1
  rcases sized.2 t valid.1 with one | all <;> omega

theorem Sized.first (sized : Sized s) (known : t < s.tasks.length) : s.Valid t 0 := by
  have some_ := sized.1
  refine ⟨known,?_⟩
  rcases sized.2 t known with one | all <;> omega

/-- How many links the lists of a kind hold. -/
def shelf (s : Schedule) (r : Root) : Nat := ∑ p ∈ Finset.range s.numPartitions, (s.state r p).length

structure Filed (s : Schedule) (out : Nat → Nat → Prop) : Prop where
  nodup : ∀ r p, (s.state r p).Nodup
  filed : ∀ r p t, t ∈ s.state r p ↔ s.Valid t p ∧ rootOf (s.stateLinkage t p) = r ∧ ¬ out t p
  available : s.numAvailable = shelf s .available
  toRun : s.numTasksToRun = shelf s .tasksToFinish

theorem Filed.congr (filed : Filed s out) (same : ∀ t p, out t p ↔ out' t p) : Filed s out' := by
  refine ⟨filed.nodup,fun r p t => ?_,filed.available,filed.toRun⟩
  rw [filed.filed,same]

theorem shelf_setList (l : List Nat) (inside : p < s.numPartitions) :
    (∑ q ∈ Finset.range s.numPartitions, (setList s.state r p l r q).length) + (s.state r p).length = shelf s r + l.length := by
  have member := Finset.mem_range.mpr inside
  unfold shelf
  rw [← Finset.add_sum_erase _ _ member,← Finset.add_sum_erase _ (fun q => (s.state r q).length) member]
  have here : (setList s.state r p l r p).length = l.length := by simp [setList]
  have rest : ∑ q ∈ (Finset.range s.numPartitions).erase p, (setList s.state r p l r q).length =
      ∑ q ∈ (Finset.range s.numPartitions).erase p, (s.state r q).length := by
    apply Finset.sum_congr rfl
    intro q other
    simp [setList,(Finset.mem_erase.mp other).1]
  rw [here,rest]
  omega

theorem shelf_setList_other {r' : Root} (l : List Nat) (other : r' ≠ r) :
    ∑ q ∈ Finset.range s.numPartitions, (setList s.state r p l r' q).length = shelf s r' := by
  apply Finset.sum_congr rfl
  intro q _
  simp [setList,other]

/-- The links out of their lists, with one more. -/
def also (out : Nat → Nat → Prop) (t p : Nat) : Nat → Nat → Prop := fun t' p' => out t' p' ∨ t' = t ∧ p' = p

/-- The links out of their lists, with one less. -/
def less (out : Nat → Nat → Prop) (t p : Nat) : Nat → Nat → Prop := fun t' p' => out t' p' ∧ ¬ (t' = t ∧ p' = p)

theorem counted_available : ((!flags.waitingOnOthers && decide (flags.completed = 0)) = true) ↔ rootOf flags = .available := by
  rw [rootOf_available]
  simp

theorem counted_toRun : flags.waitingOnOthers = true ↔ rootOf flags = .tasksToFinish := rootOf_toFinish.symm

theorem Filed.unlink (filed : Filed s out) (sized : Sized s) (valid : s.Valid t p) (inside : ¬ out t p) :
    Filed (unlinkState s t p) (also out t p) := by
  have here : t ∈ s.state (rootOf (s.stateLinkage t p)) p := (filed.filed _ _ _).mpr ⟨valid,rfl,inside⟩
  have shorter : ((s.state (rootOf (s.stateLinkage t p)) p).erase t).length + 1 = (s.state (rootOf (s.stateLinkage t p)) p).length := by
    have some_ := List.length_pos_of_mem here
    rw [List.length_erase_of_mem here]
    omega
  have sum := shelf_setList (s := s) (r := rootOf (s.stateLinkage t p)) ((s.state (rootOf (s.stateLinkage t p)) p).erase t) (sized.inside valid)
  refine ⟨fun r q => ?_,fun r q t' => ?_,?_,?_⟩
  · show (setList s.state _ p _ r q).Nodup
    unfold setList
    split
    · exact (filed.nodup _ _).erase t
    · exact filed.nodup r q
  · show t' ∈ setList s.state _ p _ r q ↔ s.Valid t' q ∧ rootOf (s.stateLinkage t' q) = r ∧ ¬ also out t p t' q
    unfold setList also
    split
    case isTrue same =>
      obtain ⟨rfl,rfl⟩ := same
      rw [(filed.nodup _ _).mem_erase_iff,filed.filed]
      grind
    case isFalse other =>
      rw [filed.filed]
      grind
  · show (if _ then _ else _) = shelf (unlinkState s t p) .available
    by_cases kind : rootOf (s.stateLinkage t p) = .available
    · rw [if_pos (counted_available.mpr kind),filed.available]
      show _ = ∑ q ∈ Finset.range s.numPartitions, (setList s.state _ p _ .available q).length
      rw [kind] at sum shorter ⊢
      omega
    · rw [if_neg fun counted => kind (counted_available.mp counted),filed.available]
      exact (shelf_setList_other _ (Ne.symm kind)).symm
  · show (if _ then _ else _) = shelf (unlinkState s t p) .tasksToFinish
    by_cases kind : rootOf (s.stateLinkage t p) = .tasksToFinish
    · rw [if_pos (counted_toRun.mpr kind),filed.toRun]
      show _ = ∑ q ∈ Finset.range s.numPartitions, (setList s.state _ p _ .tasksToFinish q).length
      rw [kind] at sum shorter ⊢
      omega
    · rw [if_neg fun counted => kind (counted_toRun.mp counted),filed.toRun]
      exact (shelf_setList_other _ (Ne.symm kind)).symm

theorem Filed.setLink (filed : Filed s out) (outside : out t p) (flags : StateLink) : Filed (s.setLink t p flags) out := by
  refine ⟨filed.nodup,fun r q t' => ?_,filed.available,filed.toRun⟩
  refine (filed.filed r q t').trans (and_congr_right fun _ => ?_)
  by_cases same : t' = t ∧ q = p
  · obtain ⟨rfl,rfl⟩ := same
    constructor
    · intro both
      exact absurd outside both.2
    · intro both
      exact absurd outside both.2
  · rw [setLink_other flags same]

theorem Filed.link (filed : Filed s out) (sized : Sized s) (valid : s.Valid t p) (outside : out t p) :
    Filed (linkState s t p) (less out t p) := by
  have absent : ∀ r, t ∉ s.state r p := fun r member => ((filed.filed _ _ _).mp member).2.2 outside
  have sum := shelf_setList (s := s) (r := rootOf (s.stateLinkage t p)) (t :: s.state (rootOf (s.stateLinkage t p)) p) (sized.inside valid)
  rw [List.length_cons] at sum
  refine ⟨fun r q => ?_,fun r q t' => ?_,?_,?_⟩
  · show (setList s.state _ p _ r q).Nodup
    unfold setList
    split
    · exact List.nodup_cons.mpr ⟨absent _,filed.nodup _ _⟩
    · exact filed.nodup r q
  · show t' ∈ setList s.state _ p _ r q ↔ s.Valid t' q ∧ rootOf (s.stateLinkage t' q) = r ∧ ¬ less out t p t' q
    unfold setList less
    split
    case isTrue same =>
      obtain ⟨rfl,rfl⟩ := same
      rw [List.mem_cons,filed.filed]
      grind
    case isFalse other =>
      rw [filed.filed]
      grind
  · show (if _ then _ else _) = shelf (linkState s t p) .available
    by_cases kind : rootOf (s.stateLinkage t p) = .available
    · rw [if_pos (counted_available.mpr kind),filed.available]
      show _ = ∑ q ∈ Finset.range s.numPartitions, (setList s.state _ p _ .available q).length
      rw [kind] at sum ⊢
      omega
    · rw [if_neg fun counted => kind (counted_available.mp counted),filed.available]
      exact (shelf_setList_other _ (Ne.symm kind)).symm
  · show (if _ then _ else _) = shelf (linkState s t p) .tasksToFinish
    by_cases kind : rootOf (s.stateLinkage t p) = .tasksToFinish
    · rw [if_pos (counted_toRun.mpr kind),filed.toRun]
      show _ = ∑ q ∈ Finset.range s.numPartitions, (setList s.state _ p _ .tasksToFinish q).length
      rw [kind] at sum ⊢
      omega
    · rw [if_neg fun counted => kind (counted_toRun.mp counted),filed.toRun]
      exact (shelf_setList_other _ (Ne.symm kind)).symm

/-- A counter is positive where a list of its kind holds a link. -/
theorem shelf_pos (sized : Sized s) (filed : Filed s out) : 0 < shelf s r ↔
    ∃ t p, s.Valid t p ∧ rootOf (s.stateLinkage t p) = r ∧ ¬ out t p := by
  constructor
  · intro pos
    obtain ⟨p,_,some_⟩ := Finset.exists_ne_zero_of_sum_ne_zero (Nat.ne_of_gt pos)
    obtain ⟨t,member⟩ := List.exists_mem_of_length_pos (Nat.pos_of_ne_zero some_)
    exact ⟨t,p,(filed.filed _ _ _).mp member⟩
  · rintro ⟨t,p,valid,kind,inside⟩
    have member : t ∈ s.state r p := (filed.filed _ _ _).mpr ⟨valid,kind,inside⟩
    have here : (s.state r p).length ≤ shelf s r :=
      Finset.single_le_sum (f := fun q => (s.state r q).length) (fun _ _ => Nat.zero_le _) (Finset.mem_range.mpr (sized.inside valid))
    have some_ := List.length_pos_of_mem member
    omega

theorem toRun_pos (sized : Sized s) (filed : Filed s out) : 0 < s.numTasksToRun ↔
    ∃ t p, s.Valid t p ∧ (s.stateLinkage t p).waitingOnOthers = true ∧ ¬ out t p := by
  rw [filed.toRun,shelf_pos sized filed]
  simp only [rootOf_toFinish]

theorem available_pos (sized : Sized s) (filed : Filed s out) : 0 < s.numAvailable ↔
    ∃ t p, s.Valid t p ∧ ((s.stateLinkage t p).waitingOnOthers = false ∧ (s.stateLinkage t p).completed = 0) ∧ ¬ out t p := by
  rw [filed.available,shelf_pos sized filed]
  simp only [rootOf_available]

end

end AnotherC.Scheduler
