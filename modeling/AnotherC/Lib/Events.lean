import Mathlib

/-!
Systems that take one event after another, where an event that is not enabled leads
nowhere. What every event keeps holds at the end of every run (`Ran.keeps`), and where
every event has a price no run can afford more of them than it starts with
(`Ran.affordable`).
-/
namespace AnotherC.Lib.Events
set_option linter.unusedVariables false

section
variable {σ ε : Type} {step : σ → ε → Option σ} {s t u : σ} {e : ε} {es fs : List ε}

/-- The events lead from one state to the other. -/
def Ran (step : σ → ε → Option σ) (s : σ) (es : List ε) (t : σ) : Prop := es.foldlM step s = some t

theorem Ran.nil (s : σ) : Ran step s [] s := rfl

theorem ran_nil : Ran step s [] t ↔ s = t := Option.some_inj

theorem ran_cons : Ran step s (e :: es) t ↔ ∃ u, step s e = some u ∧ Ran step u es t := by
  rw [Ran,List.foldlM_cons]
  exact Option.bind_eq_some_iff

/-- Where the events lead, if they can happen. -/
def outcome (step : σ → ε → Option σ) (s : σ) (es : List ε) : σ := (es.foldlM step s).getD s

theorem ran_outcome (leads : (es.foldlM step s).isSome = true) : Ran step s es (outcome step s es) := by
  obtain ⟨t,same⟩ := Option.isSome_iff_exists.mp leads
  rw [Ran,outcome,same,Option.getD_some]

/-- What the events of a run keep. -/
theorem Ran.keeps (ran : Ran step s es t) (inv : σ → Prop) (start : inv s)
    (one : ∀ s e t, e ∈ es → inv s → step s e = some t → inv t) : inv t := by
  induction es generalizing s with
  | nil =>
    cases ran_nil.mp ran
    exact start
  | cons e es ih =>
    obtain ⟨u,stepped,rest⟩ := ran_cons.mp ran
    apply ih rest (one s e u List.mem_cons_self start stepped)
    intro s f t member
    exact one s f t (List.mem_cons_of_mem e member)

/-- What holds between the ends of a run, for a relation that every event is in. -/
theorem Ran.related (ran : Ran step s es t) (rel : σ → σ → Prop) {inv : σ → Prop} (start : inv s)
    (refl : ∀ s, rel s s) (trans : ∀ s t u, rel s t → rel t u → rel s u)
    (one : ∀ s e t, e ∈ es → inv s → step s e = some t → inv t ∧ rel s t) : rel s t := by
  have both : inv t ∧ rel s t := by
    apply ran.keeps (fun t => inv t ∧ rel s t) ⟨start,refl s⟩
    intro v e w member before stepped
    obtain ⟨after,one⟩ := one v e w member before.1 stepped
    exact ⟨after,trans s v w before.2 one⟩
  exact both.2

/-- Where every event costs one and some of them bring something in, a run is no longer
    than what there was and what came in. -/
theorem Ran.affordable (ran : Ran step s es t) (inv : σ → Prop) (funds : σ → Nat) (income : ε → Nat) (start : inv s)
    (one : ∀ s e t, e ∈ es → inv s → step s e = some t → inv t ∧ funds t + 1 ≤ funds s + income e) :
    funds t + es.length ≤ funds s + (es.map income).sum := by
  induction es generalizing s with
  | nil =>
    cases ran_nil.mp ran
    simp
  | cons e es ih =>
    obtain ⟨u,stepped,rest⟩ := ran_cons.mp ran
    obtain ⟨after,paid⟩ := one s e u List.mem_cons_self start stepped
    have later := ih rest after fun s f t member => one s f t (List.mem_cons_of_mem e member)
    rw [List.length_cons,List.map_cons,List.sum_cons]
    omega

end

end AnotherC.Lib.Events
