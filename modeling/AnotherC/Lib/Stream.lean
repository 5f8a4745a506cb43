import Mathlib.Data.List.Basic

/-!
Cursors as state machines: a call either fails, or answers an element or the end
and moves on. `Yields step s xs` says that the calls from `s` answer the elements
of `xs` in order and the end at every later call.
-/
namespace AnotherC.Lib.Stream

section
variable {σ ρ : Type} (step : σ → Option (Option ρ × σ))

/-- The answer of call number `n`, counted from 0. -/
def call : Nat → σ → Option (Option ρ)
  | 0, s => (step s).map Prod.fst
  | n + 1, s => (step s).bind fun answer => call n answer.2

/-- The state after `n` calls. -/
def after : Nat → σ → Option σ
  | 0, s => some s
  | n + 1, s => (step s).bind fun answer => after n answer.2

/-- The calls answer exactly the elements of `xs`, and then the end for ever. -/
def Yields (s : σ) (xs : List ρ) : Prop := ∀ n, call step n s = some xs[n]?

/-- A loop of calls up to the first end takes the elements of `xs`. -/
inductive Drains : σ → List ρ → Prop
  | ended {s s' : σ} (moves : step s = some (none,s')) : Drains s []
  | element {s s' : σ} {x : ρ} {xs : List ρ} (moves : step s = some (some x,s')) (rest : Drains s' xs) :
      Drains s (x :: xs)

/-- From some call on, every state satisfies `P`. -/
def Finally (s : σ) (P : σ → Prop) : Prop := ∃ n, ∀ m, n ≤ m → ∃ last, after step m s = some last ∧ P last

variable {step}

theorem Yields.cons {s s' : σ} {x : ρ} {xs : List ρ} (moves : step s = some (some x,s')) (rest : Yields step s' xs) :
    Yields step s (x :: xs) := by
  intro n
  cases n with
  | zero => simp [call,moves]
  | succ n => simpa [call,moves] using rest n

theorem Yields.nil {s s' : σ} (moves : step s = some (none,s')) (rest : Yields step s' []) : Yields step s [] := by
  intro n
  cases n with
  | zero => simp [call,moves]
  | succ n => simpa [call,moves] using rest n

/-- What the calls yield is decided by the first one. -/
theorem Yields.congr {s s' : σ} {xs : List ρ} (same : step s = step s') (yields : Yields step s xs) :
    Yields step s' xs := by
  intro n
  have this := yields n
  cases n <;> simpa only [call,same] using this

/-- The end at a state that the call keeps. -/
theorem Yields.stop {s : σ} (moves : step s = some (none,s)) : Yields step s [] := by
  intro n
  induction n with
  | zero => simp [call,moves]
  | succ n ih => simpa [call,moves] using ih

/-- The end at states that the calls do not leave. -/
theorem Yields.ends {P : σ → Prop} (ends : ∀ s, P s → ∃ s', step s = some (none,s') ∧ P s') {s : σ} (holds : P s) :
    Yields step s [] := by
  intro n
  induction n generalizing s with
  | zero =>
    obtain ⟨s',moves,_⟩ := ends s holds
    simp [call,moves]
  | succ n ih =>
    obtain ⟨s',moves,kept⟩ := ends s holds
    simpa [call,moves] using ih kept

/-- What one call answers and what the later ones do. -/
theorem Yields.head {s : σ} {xs : List ρ} (yields : Yields step s xs) :
    ∃ s', step s = some (xs.head?,s') ∧ Yields step s' xs.tail := by
  have first := yields 0
  simp only [call,Option.map_eq_some_iff] at first
  obtain ⟨⟨answer,s'⟩,moves,same⟩ := first
  have headIs : answer = xs.head? := by cases xs <;> simpa using same
  refine ⟨s',by rw [moves,headIs],fun n => ?_⟩
  have later := yields (n + 1)
  simp only [call,moves,Option.bind_some] at later
  cases xs with
  | nil => simpa using later
  | cons x xs => simpa using later

/-- The first call decides what is yielded. -/
theorem Yields.cons_iff {s s' : σ} {x y : ρ} {xs : List ρ} (moves : step s = some (some x,s')) :
    Yields step s (y :: xs) ↔ x = y ∧ Yields step s' xs := by
  constructor
  · intro yields
    obtain ⟨s₁,moves₁,rest⟩ := yields.head
    rw [moves] at moves₁
    cases moves₁
    exact ⟨rfl,rest⟩
  · rintro ⟨rfl,rest⟩
    exact rest.cons moves

theorem Yields.not_cons {s s' : σ} {y : ρ} {xs : List ρ} (moves : step s = some (none,s')) : ¬ Yields step s (y :: xs) := by
  intro yields
  obtain ⟨s₁,moves₁,_⟩ := yields.head
  rw [moves] at moves₁
  cases moves₁

theorem Yields.not_fault {s : σ} {xs : List ρ} (moves : step s = none) : ¬ Yields step s xs := by
  intro yields
  obtain ⟨s₁,moves₁,_⟩ := yields.head
  rw [moves] at moves₁
  cases moves₁

theorem Drains.unique {s : σ} {xs ys : List ρ} (first : Drains step s xs) (second : Drains step s ys) : xs = ys := by
  induction first generalizing ys with
  | ended moves =>
    cases second with
    | ended => rfl
    | element moves' =>
      rw [moves] at moves'
      cases moves'
  | element moves _ ih =>
    cases second with
    | ended moves' =>
      rw [moves] at moves'
      cases moves'
    | element moves' rest' =>
      rw [moves] at moves'
      cases moves'
      rw [ih rest']

theorem Yields.unique {s : σ} {xs ys : List ρ} (first : Yields step s xs) (second : Yields step s ys) : xs = ys := by
  apply List.ext_getElem?
  intro n
  exact Option.some.inj ((first n).symm.trans (second n))

/-- Calls made through a wrapper. -/
theorem Yields.lift {τ : Type} {wrapped : τ → Option (Option ρ × τ)} (wrap : σ → τ)
    (same : ∀ s, wrapped (wrap s) = (step s).map fun answer => (answer.1,wrap answer.2)) {s : σ} {xs : List ρ}
    (yields : Yields step s xs) : Yields wrapped (wrap s) xs := by
  intro n
  induction n generalizing s xs with
  | zero =>
    have first := yields 0
    simp only [call,Option.map_eq_some_iff] at first
    obtain ⟨answer,moves,isHead⟩ := first
    simp only [call,same,moves,Option.map_some,isHead]
  | succ n ih =>
    obtain ⟨s',moves,rest⟩ := yields.head
    simp only [call,same,moves,Option.map_some,Option.bind_some]
    rw [ih rest,List.getElem?_tail]

/-- A machine that is another one seen through a view yields the same. -/
theorem Yields.view_iff {τ : Type} {outer : τ → Option (Option ρ × τ)} (view : τ → σ)
    (same : ∀ t, (outer t).map (fun answer => (answer.1,view answer.2)) = step (view t)) {t : τ} {xs : List ρ} :
    Yields outer t xs ↔ Yields step (view t) xs := by
  have calls : ∀ n t, call outer n t = call step n (view t) := by
    intro n
    induction n with
    | zero =>
      intro t
      rw [call,call,← same,Option.map_map]
      rfl
    | succ n ih =>
      intro t
      rw [call,call,← same]
      cases outer t with
      | none => rfl
      | some answer => exact ih answer.2
  unfold Yields
  simp only [calls]

theorem Yields.nil_iff {s s' : σ} (moves : step s = some (none,s')) : Yields step s [] ↔ Yields step s' [] := by
  constructor
  · intro yields
    obtain ⟨s₁,moves₁,rest⟩ := yields.head
    rw [moves] at moves₁
    cases moves₁
    exact rest
  · exact Yields.nil moves

theorem Finally.cons {s s' : σ} {answer : Option ρ} {P : σ → Prop} (moves : step s = some (answer,s'))
    (ends : Finally step s' P) : Finally step s P := by
  obtain ⟨n,all⟩ := ends
  refine ⟨n + 1,fun m enough => ?_⟩
  obtain ⟨m,rfl⟩ : ∃ k, m = k + 1 := ⟨m - 1,by omega⟩
  simpa only [after,moves,Option.bind_some] using all m (by omega)

theorem Finally.congr {s s' : σ} {P : σ → Prop} (same : step s = step s') (ends : Finally step s P) :
    Finally step s' P := by
  obtain ⟨n,all⟩ := ends
  refine ⟨n + 1,fun m enough => ?_⟩
  obtain ⟨m,rfl⟩ : ∃ k, m = k + 1 := ⟨m - 1,by omega⟩
  simpa only [after,same] using all (m + 1) (by omega)

theorem Finally.stop {s : σ} {P : σ → Prop} (moves : step s = some (none,s)) (holds : P s) : Finally step s P := by
  refine ⟨0,fun m _ => ?_⟩
  induction m with
  | zero => exact ⟨s,rfl,holds⟩
  | succ m ih => simpa only [after,moves,Option.bind_some] using ih (Nat.zero_le m)

theorem Finally.imp {s : σ} {P Q : σ → Prop} (ends : Finally step s P) (implies : ∀ s, P s → Q s) : Finally step s Q := by
  obtain ⟨n,all⟩ := ends
  refine ⟨n,fun m enough => ?_⟩
  obtain ⟨last,same,holds⟩ := all m enough
  exact ⟨last,same,implies last holds⟩

/-- What comes at the end comes at the end after one call. -/
theorem Finally.tail {s s' : σ} {answer : Option ρ} {P : σ → Prop} (moves : step s = some (answer,s'))
    (ends : Finally step s P) : Finally step s' P := by
  obtain ⟨n,all⟩ := ends
  refine ⟨n,fun m enough => ?_⟩
  simpa only [after,moves,Option.bind_some] using all (m + 1) (by omega)

/-- What every call keeps holds at the end. -/
theorem Finally.invariant {s : σ} {P : σ → Prop} (kept : ∀ s, P s → ∀ answer s', step s = some (answer,s') → P s')
    (holds : P s) {Q : σ → Prop} (ends : Finally step s Q) : ∃ last, P last ∧ Q last := by
  obtain ⟨n,all⟩ := ends
  have keep : ∀ m s, P s → ∀ last, after step m s = some last → P last := by
    intro m
    induction m with
    | zero => intro s holds last same; cases same; exact holds
    | succ m ih =>
      intro s holds last same
      simp only [after,Option.bind_eq_some_iff] at same
      obtain ⟨answer,moves,rest⟩ := same
      exact ih _ (kept s holds _ _ moves) last rest
  obtain ⟨last,same,isLast⟩ := all n (Nat.le_refl n)
  exact ⟨last,keep n s holds last same,isLast⟩

variable (step) in
/-- The calls up to the first end, where `P` holds of each state before a call and
    `Q` of each element with the state after it. -/
inductive Traces (P : σ → Prop) (Q : ρ → σ → Prop) : σ → List ρ → Prop
  | ended {s s' : σ} (holds : P s) (moves : step s = some (none,s')) : Traces P Q s []
  | element {s s' : σ} {x : ρ} {xs : List ρ} (holds : P s) (moves : step s = some (some x,s')) (shows : Q x s')
      (rest : Traces P Q s' xs) : Traces P Q s (x :: xs)

theorem Traces.drains {P : σ → Prop} {Q : ρ → σ → Prop} {s : σ} {xs : List ρ} (traces : Traces step P Q s xs) :
    Drains step s xs := by
  induction traces with
  | ended _ moves => exact .ended moves
  | element _ moves _ _ ih => exact .element moves ih

theorem Traces.cons_iff {P : σ → Prop} {Q : ρ → σ → Prop} {s s' : σ} {x y : ρ} {xs : List ρ}
    (moves : step s = some (some x,s')) :
    Traces step P Q s (y :: xs) ↔ P s ∧ x = y ∧ Q x s' ∧ Traces step P Q s' xs := by
  constructor
  · intro traces
    cases traces with
    | element holds moves' shows rest =>
      rw [moves] at moves'
      cases moves'
      exact ⟨holds,rfl,shows,rest⟩
  · rintro ⟨holds,rfl,shows,rest⟩
    exact .element holds moves shows rest

theorem Traces.nil_iff {P : σ → Prop} {Q : ρ → σ → Prop} {s s' : σ} (moves : step s = some (none,s')) :
    Traces step P Q s [] ↔ P s := by
  constructor
  · intro traces
    cases traces with
    | ended holds _ => exact holds
  · exact fun holds => .ended holds moves

/-- Another answer is not the one that is listed. -/
theorem Traces.head {P : σ → Prop} {Q : ρ → σ → Prop} {s : σ} {xs : List ρ} (traces : Traces step P Q s xs) :
    ∃ s', step s = some (xs.head?,s') := by
  cases traces with
  | ended _ moves => exact ⟨_,moves⟩
  | element _ moves _ _ => exact ⟨_,moves⟩

variable (step) in
/-- The states before the first `n + 1` calls satisfy `P`. -/
def Visits (n : Nat) (s : σ) (P : σ → Prop) : Prop := ∀ i ≤ n, ∀ s', after step i s = some s' → P s'

theorem visits_zero {s : σ} {P : σ → Prop} : Visits step 0 s P ↔ P s := by
  constructor
  · exact fun all => all 0 (Nat.le_refl _) s rfl
  · intro holds i least s' same
    obtain rfl : i = 0 := Nat.le_zero.mp least
    cases same
    exact holds

theorem visits_succ {n : Nat} {s s' : σ} {answer : Option ρ} {P : σ → Prop} (moves : step s = some (answer,s')) :
    Visits step (n + 1) s P ↔ P s ∧ Visits step n s' P := by
  constructor
  · intro all
    refine ⟨all 0 (Nat.zero_le _) s rfl,fun i least last same => all (i + 1) (by omega) last ?_⟩
    simpa only [after,moves,Option.bind_some] using same
  · rintro ⟨first,later⟩ i least last same
    cases i with
    | zero => cases same; exact first
    | succ i =>
      simp only [after,moves,Option.bind_some] at same
      exact later i (by omega) last same

/-- A list read from the front. -/
def pop (xs : List ρ) : Option (Option ρ × List ρ) := some (xs.head?,xs.tail)

theorem pop_yields (xs : List ρ) : Yields pop xs xs := by
  induction xs with
  | nil => exact Yields.stop rfl
  | cons x xs ih => exact Yields.cons rfl ih

variable (step) in
/-- What a loop takes that advances until the end; at most `n` elements. -/
def drain : Nat → σ → List ρ
  | 0, _ => []
  | n + 1, s =>
    match step s with
    | some (some x,s') => x :: drain n s'
    | _ => []

theorem drain_yields {s : σ} {xs : List ρ} (yields : Yields step s xs) {n : Nat} (enough : xs.length ≤ n) :
    drain step n s = xs := by
  induction n generalizing s xs with
  | zero => exact (List.length_eq_zero_iff.mp (Nat.le_zero.mp enough)).symm
  | succ n ih =>
    obtain ⟨s',moves,rest⟩ := yields.head
    cases xs with
    | nil => simp only [drain,moves,List.head?_nil]
    | cons x xs =>
      simp only [drain,moves,List.head?_cons]
      exact congrArg _ (ih rest (by simpa using enough))

end
end AnotherC.Lib.Stream
