import Mathlib.Data.List.Basic
import Mathlib.Data.List.Nodup

/-!
Boolean functions that need every variable of a list and read no other one. They
are closed under negation and, where no variable is shared, under conjunction and
disjunction; a function needs one set of variables only (`Essential.unique`).
-/
namespace AnotherC.Lib.Dependence
set_option linter.unusedVariables false
universe u v

variable {V : Type u} {ι : Type v}

/-- `f` takes both values, reads the variables of `vars` only, and each of them
    can make the difference. -/
structure Essential (f : (V → Bool) → Bool) (vars : List V) : Prop where
  only : ∀ ρ σ, (∀ v ∈ vars, ρ v = σ v) → f ρ = f σ
  attains : ∀ b, ∃ ρ, f ρ = b
  needs : ∀ v ∈ vars, ∃ ρ σ, (∀ u, u ≠ v → ρ u = σ u) ∧ f ρ ≠ f σ

/-- The first valuation on the variables, the second elsewhere. -/
noncomputable def mixed (vars : List V) (ρ σ : V → Bool) : V → Bool :=
  open Classical in fun v => if v ∈ vars then ρ v else σ v

theorem mixed_inside {vars : List V} {ρ σ : V → Bool} {v : V} (inside : v ∈ vars) :
    mixed vars ρ σ v = ρ v := if_pos inside

theorem mixed_outside {vars : List V} {ρ σ : V → Bool} {v : V} (outside : v ∉ vars) :
    mixed vars ρ σ v = σ v := if_neg outside

theorem Essential.var (v : V) : Essential (fun ρ => ρ v) [v] := by
  constructor
  case only => exact fun ρ σ same => same v (by simp)
  case attains => exact fun b => ⟨fun _ => b,rfl⟩
  case needs =>
    classical
    intro u member
    obtain rfl := List.mem_singleton.mp member
    refine ⟨fun _ => false,Function.update (fun _ => false) u true,?_,?_⟩
    · intro w other
      rw [Function.update_of_ne other]
    · simp

theorem Essential.congr {f g : (V → Bool) → Bool} {vars vars' : List V} (function : ∀ ρ, f ρ = g ρ)
    (same : ∀ v, v ∈ vars ↔ v ∈ vars') (essential : Essential f vars) : Essential g vars' := by
  obtain rfl : f = g := funext function
  constructor
  case only => exact fun ρ σ agree => essential.only ρ σ fun v member => agree v ((same v).mp member)
  case attains => exact essential.attains
  case needs => exact fun v member => essential.needs v ((same v).mpr member)

theorem Essential.neg {f : (V → Bool) → Bool} {vars : List V} (essential : Essential f vars) :
    Essential (fun ρ => !f ρ) vars := by
  constructor
  case only => exact fun ρ σ same => congrArg _ (essential.only ρ σ same)
  case attains =>
    intro b
    obtain ⟨ρ,value⟩ := essential.attains (!b)
    exact ⟨ρ,by simp [value]⟩
  case needs =>
    intro v member
    obtain ⟨ρ,σ,same,differ⟩ := essential.needs v member
    exact ⟨ρ,σ,same,by simpa using differ⟩

section
variable {f g : (V → Bool) → Bool} {vars vars' : List V}

theorem Essential.mixed_left (essential : Essential f vars) (ρ σ : V → Bool) :
    f (mixed vars ρ σ) = f ρ :=
  essential.only _ _ fun v inside => mixed_inside inside

theorem Essential.mixed_right (essential : Essential g vars') (apart : ∀ v ∈ vars, v ∉ vars') (ρ σ : V → Bool) :
    g (mixed vars ρ σ) = g σ :=
  essential.only _ _ fun v inside => mixed_outside fun also => apart v also inside

theorem Essential.both (left : Essential f vars) (right : Essential g vars') (apart : ∀ v ∈ vars, v ∉ vars') :
    Essential (fun ρ => f ρ && g ρ) (vars ++ vars') := by
  constructor
  case only =>
    intro ρ σ same
    have first := left.only ρ σ fun v member => same v (List.mem_append_left _ member)
    have second := right.only ρ σ fun v member => same v (List.mem_append_right _ member)
    simp only [first,second]
  case attains =>
    intro b
    obtain ⟨ρ,first⟩ := left.attains b
    obtain ⟨σ,second⟩ := right.attains b
    refine ⟨mixed vars ρ σ,?_⟩
    simp only [left.mixed_left,right.mixed_right apart,first,second,Bool.and_self]
  case needs =>
    intro v member
    rcases List.mem_append.mp member with inside | inside
    · obtain ⟨ρ,σ,same,differ⟩ := left.needs v inside
      obtain ⟨τ,value⟩ := right.attains true
      refine ⟨mixed vars ρ τ,mixed vars σ τ,?_,?_⟩
      · intro u other
        by_cases within : u ∈ vars
        · rw [mixed_inside within,mixed_inside within,same u other]
        · rw [mixed_outside within,mixed_outside within]
      · simpa only [left.mixed_left,right.mixed_right apart,value,Bool.and_true] using differ
    · obtain ⟨ρ,σ,same,differ⟩ := right.needs v inside
      obtain ⟨τ,value⟩ := left.attains true
      refine ⟨mixed vars τ ρ,mixed vars τ σ,?_,?_⟩
      · intro u other
        by_cases within : u ∈ vars
        · rw [mixed_inside within,mixed_inside within]
        · rw [mixed_outside within,mixed_outside within,same u other]
      · simpa only [left.mixed_left,right.mixed_right apart,value,Bool.true_and] using differ

end

/-- A conjunction over a list whose members share no variable. -/
theorem Essential.all {items : List ι} {f : ι → (V → Bool) → Bool} {vars : ι → List V} (nonempty : items ≠ [])
    (each : ∀ i ∈ items, Essential (f i) (vars i)) (apart : (items.flatMap vars).Nodup) :
    Essential (fun ρ => items.all (f · ρ)) (items.flatMap vars) := by
  induction items with
  | nil => exact absurd rfl nonempty
  | cons i items ih =>
    have first := each i (by simp)
    cases items with
    | nil => exact first.congr (by simp) (by simp)
    | cons j items =>
      rw [List.flatMap_cons,List.nodup_append] at apart
      have rest := ih (by simp) (fun k member => each k (List.mem_cons_of_mem _ member)) apart.2.1
      exact first.both rest fun v inside also => apart.2.2 v inside v also rfl

/-- A disjunction is the negation of the conjunction of the negations. -/
theorem Essential.any {items : List ι} {f : ι → (V → Bool) → Bool} {vars : ι → List V} (nonempty : items ≠ [])
    (each : ∀ i ∈ items, Essential (f i) (vars i)) (apart : (items.flatMap vars).Nodup) :
    Essential (fun ρ => items.any (f · ρ)) (items.flatMap vars) := by
  have negated := (Essential.all nonempty (fun i member => (each i member).neg) apart).neg
  refine negated.congr (fun ρ => ?_) fun _ => Iff.rfl
  rw [List.not_all_eq_any_not]
  simp

/-- A function needs the same variables however it is written. -/
theorem Essential.unique {f : (V → Bool) → Bool} {vars vars' : List V} (one : Essential f vars)
    (other : Essential f vars') : ∀ v, v ∈ vars ↔ v ∈ vars' := by
  have needed {vars vars' : List V} (one : Essential f vars) (other : Essential f vars') :
      ∀ v ∈ vars, v ∈ vars' := by
    intro v member
    obtain ⟨ρ,σ,same,differ⟩ := one.needs v member
    by_contra outside
    refine differ (other.only ρ σ fun u inside => same u ?_)
    rintro rfl
    exact outside inside
  exact fun v => ⟨needed one other v,needed other one v⟩

end AnotherC.Lib.Dependence
