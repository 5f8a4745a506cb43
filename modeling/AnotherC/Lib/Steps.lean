/-!
Machines in steps. A step goes on, returns a result, or is undefined; a run takes as many
steps as its fuel. Which of the three a machine does at last does not depend on the fuel.
-/
namespace AnotherC.Lib.Steps

/-- What a step leads to. -/
inductive Next (σ ρ : Type) where
  | goto (s : σ)
  | returned (r : ρ)
deriving Repr, DecidableEq

variable {σ ρ : Type} {step : σ → Option (Next σ ρ)} {s t : σ} {r : ρ}

def run (step : σ → Option (Next σ ρ)) : Nat → σ → Option (Next σ ρ)
  | 0, s => some (.goto s)
  | n + 1, s => do
    match ← step s with
    | .goto t => run step n t
    | .returned r => some (.returned r)

def Returns (step : σ → Option (Next σ ρ)) (s : σ) (r : ρ) : Prop := ∃ n, run step n s = some (.returned r)

def Fails (step : σ → Option (Next σ ρ)) (s : σ) : Prop := ∃ n, run step n s = none

def Reaches (step : σ → Option (Next σ ρ)) (s t : σ) : Prop := ∃ n, run step n s = some (.goto t)

theorem run_goto (stepped : step s = some (.goto t)) (n : Nat) : run step (n + 1) s = run step n t := by
  rw [run,stepped]
  rfl

theorem Returns.now (stepped : step s = some (.returned r)) : Returns step s r :=
  ⟨1,by rw [run,stepped]; rfl⟩

theorem Fails.now (stepped : step s = none) : Fails step s := ⟨1,by rw [run,stepped]; rfl⟩

theorem Reaches.refl (step : σ → Option (Next σ ρ)) (s : σ) : Reaches step s s := ⟨0,rfl⟩

theorem Returns.after (stepped : step s = some (.goto t)) (later : Returns step t r) : Returns step s r := by
  obtain ⟨n,ran⟩ := later
  exact ⟨n + 1,(run_goto stepped n).trans ran⟩

theorem Fails.after (stepped : step s = some (.goto t)) (later : Fails step t) : Fails step s := by
  obtain ⟨n,ran⟩ := later
  exact ⟨n + 1,(run_goto stepped n).trans ran⟩

theorem Reaches.after {u : σ} (stepped : step s = some (.goto t)) (later : Reaches step t u) : Reaches step s u := by
  obtain ⟨n,ran⟩ := later
  exact ⟨n + 1,(run_goto stepped n).trans ran⟩

/-- What follows a state that is reached. -/
theorem Reaches.run (reaches : Reaches step s t) (n : Nat) : ∃ m, Steps.run step m s = Steps.run step n t := by
  obtain ⟨k,ran⟩ := reaches
  induction k generalizing s with
  | zero =>
    cases ran
    exact ⟨n,rfl⟩
  | succ k ih =>
    rw [Steps.run] at ran
    obtain ⟨next,stepped,ran⟩ := Option.bind_eq_some_iff.mp ran
    cases next with
    | goto u =>
      obtain ⟨m,same⟩ := ih ran
      exact ⟨m + 1,(run_goto stepped m).trans same⟩
    | returned r => cases ran

theorem Reaches.trans {u : σ} (first : Reaches step s t) (second : Reaches step t u) : Reaches step s u := by
  obtain ⟨n,ran⟩ := second
  obtain ⟨m,same⟩ := first.run n
  exact ⟨m,same.trans ran⟩

theorem Reaches.returns (first : Reaches step s t) (later : Returns step t r) : Returns step s r := by
  obtain ⟨n,ran⟩ := later
  obtain ⟨m,same⟩ := first.run n
  exact ⟨m,same.trans ran⟩

theorem Reaches.fails (first : Reaches step s t) (later : Fails step t) : Fails step s := by
  obtain ⟨n,ran⟩ := later
  obtain ⟨m,same⟩ := first.run n
  exact ⟨m,same.trans ran⟩

/-- What each step keeps holds in every state that is reached. -/
theorem Reaches.keeps (inv : σ → Prop) (keeps : ∀ s t, step s = some (.goto t) → inv s → inv t) (reaches : Reaches step s t)
    (first : inv s) : inv t := by
  obtain ⟨n,ran⟩ := reaches
  induction n generalizing s with
  | zero =>
    cases ran
    exact first
  | succ n ih =>
    rw [Steps.run] at ran
    obtain ⟨next,stepped,ran⟩ := Option.bind_eq_some_iff.mp ran
    cases next with
    | goto u => exact ih (keeps s u stepped first) ran
    | returned r => cases ran

/-- A machine that returns has one result, and one that is undefined returns none. -/
theorem run_unique {n m : Nat} {x y : Option (Next σ ρ)} (left : run step n s = x) (right : run step m s = y)
    (isX : ∀ t, x ≠ some (.goto t)) (isY : ∀ t, y ≠ some (.goto t)) : x = y := by
  induction n generalizing s m with
  | zero => exact absurd left.symm (isX s)
  | succ n ih =>
    cases m with
    | zero => exact absurd right.symm (isY s)
    | succ m =>
      rw [run] at left right
      cases stepped : step s with
      | none =>
        rw [stepped] at left right
        exact left.symm.trans right
      | some next =>
        rw [stepped] at left right
        cases next with
        | goto t => exact ih left right
        | returned r => exact left.symm.trans right

theorem Returns.unique {r' : ρ} (returns : Returns step s r) (returns' : Returns step s r') : r = r' := by
  obtain ⟨n,ran⟩ := returns
  obtain ⟨m,ran'⟩ := returns'
  cases run_unique ran ran' nofun nofun
  rfl

theorem Fails.not_returns (fails : Fails step s) : ¬ Returns step s r := by
  rintro ⟨m,ran⟩
  obtain ⟨n,none_⟩ := fails
  cases run_unique none_ ran nofun nofun

end AnotherC.Lib.Steps
