import Mathlib.Data.Finset.Max
import Mathlib.Data.Finset.Sort

/-!
Cursors over a finite set of ids. A cursor is advanced to the next id, or to the
least one that is not below a target, and answers 0 once it has run out. What a
cursor of `S` answers to a list of calls is `answers S`; an object `Meets` it from a
position if every list of calls gets these answers, and the object shows the id it
stands on. A relation that each call keeps is enough (`meets_of`).
-/
namespace AnotherC.Lib.Cursor
set_option linter.unusedVariables false

/-- The least id from `k` on, 0 if there is none. -/
def least (S : Finset Nat) (k : Nat) : Nat :=
  if some : (S.filter (k ≤ ·)).Nonempty then (S.filter (k ≤ ·)).min' some else 0

inductive Call
  | advance
  | advanceTo (id : Nat)

/-- A position is the id that the cursor stands on, 0 before the first call, and none
    once it has run out. -/
def found (id : Nat) : Nat × Option Nat := if id = 0 then (0,none) else (id,some id)

/-- What a cursor of `S` answers, and where it then stands. Before the first call there is
    no current id. -/
def answer (S : Finset Nat) : Option Nat → Call → Nat × Option Nat
  | none, _ => (0,none)
  | some current, .advance => found (least S (current + 1))
  | some current, .advanceTo id => if current ≠ 0 ∧ id ≤ current then (current,some current) else found (least S id)

def answers (S : Finset Nat) : Option Nat → List Call → List Nat × Option Nat
  | p, [] => ([],p)
  | p, call :: calls =>
    let (id,p') := answer S p call
    let (ids,p'') := answers S p' calls
    (id :: ids,p'')

/-- The operations of the objects of a type; an operation that does not return is `none`. -/
structure Ops (σ : Type) where
  advance : σ → Option (Nat × σ)
  advanceTo : σ → Nat → Option (Nat × σ)
  current : σ → Nat

section
variable {σ : Type}

def Ops.call (ops : Ops σ) (c : σ) : Call → Option (Nat × σ)
  | .advance => ops.advance c
  | .advanceTo id => ops.advanceTo c id

def Ops.run (ops : Ops σ) : σ → List Call → Option (List Nat × σ)
  | c, [] => some ([],c)
  | c, call :: calls =>
    match ops.call c call with
    | none => none
    | some (id,c') =>
      match ops.run c' calls with
      | none => none
      | some (ids,c'') => some (id :: ids,c'')

/-- What a cursor does that is first advanced to 0 is left open. -/
def Proper (p : Option Nat) (call : Call) : Prop := p = some 0 → call ≠ .advanceTo 0

/-- From this position on the object is a cursor of `S`. -/
def Meets (ops : Ops σ) (S : Finset Nat) (c : σ) (p : Option Nat) : Prop :=
  ∀ calls, (∀ call, calls.head? = some call → Proper p call) →
    ∃ c', ops.run c calls = some ((answers S p calls).1,c') ∧
      ∀ id, (answers S p calls).2 = some id → id ≠ 0 → ops.current c' = id

/-! ## The least id -/

/-- What a search from `k` on finds. -/
def Finds (S : Finset Nat) (k id : Nat) (p : Option Nat) : Prop :=
  id = 0 ∧ p = none ∧ (∀ x ∈ S, x < k) ∨ id ∈ S ∧ k ≤ id ∧ p = some id ∧ ∀ x ∈ S, k ≤ x → id ≤ x

variable {S : Finset Nat} {k id : Nat} {p : Option Nat}

theorem least_finds_of (away : k = 0 → 0 ∉ S) : Finds S k (found (least S k)).1 (found (least S k)).2 := by
  by_cases some : (S.filter (k ≤ ·)).Nonempty
  · have equal : least S k = (S.filter (k ≤ ·)).min' some := dif_pos some
    obtain ⟨inside,beyond⟩ := Finset.mem_filter.mp ((S.filter (k ≤ ·)).min'_mem some)
    rw [← equal] at inside beyond
    have positive : least S k ≠ 0 := by
      intro zero
      rw [zero] at inside beyond
      exact away (Nat.le_zero.mp beyond) inside
    rw [found,if_neg positive]
    refine .inr ⟨inside,beyond,rfl,fun x member from_ => ?_⟩
    rw [equal]
    exact Finset.min'_le _ x (Finset.mem_filter.mpr ⟨member,from_⟩)
  · have equal : least S k = 0 := dif_neg some
    rw [equal,found,if_pos rfl]
    refine .inl ⟨rfl,rfl,fun x member => ?_⟩
    by_contra beyond
    exact some ⟨x,Finset.mem_filter.mpr ⟨member,by omega⟩⟩

theorem least_finds (positive : 0 < k) : Finds S k (found (least S k)).1 (found (least S k)).2 :=
  least_finds_of fun zero => absurd positive (by omega)

theorem Finds.found_of (finds : Finds S k id p) (away : k = 0 → 0 ∉ S) : found (least S k) = (id,p) := by
  have finds' := least_finds_of (S := S) away
  rcases finds with ⟨rfl,rfl,none⟩ | ⟨inside,beyond,rfl,first⟩
  · rcases finds' with ⟨zero,ended,_⟩ | ⟨inside',beyond',_,_⟩
    · exact Prod.ext zero ended
    · exact absurd (none _ inside') (by omega)
  · rcases finds' with ⟨_,_,none'⟩ | ⟨inside',beyond',stands,first'⟩
    · exact absurd (none' id inside) (by omega)
    · have same : (Cursor.found (least S k)).1 = id :=
        Nat.le_antisymm (first' id inside beyond) (first _ inside' beyond')
      exact Prod.ext same (by rw [stands,same])

theorem Finds.found (finds : Finds S k id p) (positive : 0 < k) : found (least S k) = (id,p) :=
  finds.found_of fun zero => absurd positive (by omega)

theorem Finds.positive (finds : Finds S k id p) (positive : 0 < k) : id = 0 ∧ p = none ∨ id ≠ 0 ∧ p = some id := by
  rcases finds with ⟨zero,ended,_⟩ | ⟨inside,beyond,stands,_⟩
  · exact .inl ⟨zero,ended⟩
  · exact .inr ⟨by omega,stands⟩

/-- A search that may start earlier, because there is nothing before. -/
theorem Finds.widen {low : Nat} (finds : Finds S k id p) (le : low ≤ k)
    (skipped : ∀ x ∈ S, low ≤ x → k ≤ x) : Finds S low id p := by
  rcases finds with ⟨zero,ended,none⟩ | ⟨inside,beyond,stands,first⟩
  · refine .inl ⟨zero,ended,fun x member => ?_⟩
    by_contra from_
    have := none x member
    have := skipped x member (by omega)
    omega
  · exact .inr ⟨inside,Nat.le_trans le beyond,stands,fun x member from_ => first x member (skipped x member from_)⟩

theorem answers_ended (S : Finset Nat) (calls : List Call) : ∀ id ∈ (answers S none calls).1, id = 0 := by
  induction calls with
  | nil => simp [answers]
  | cons call calls ih =>
    intro id member
    rcases List.mem_cons.mp member with rfl | rest
    · rfl
    · exact ih id rest

/-- From an id on, the answers are 0 only at the end. -/
theorem answers_stands (positive : k ≠ 0) (calls : List Call) :
    (answers S (some k) calls).1.Pairwise fun a b => a = 0 → b = 0 := by
  induction calls generalizing k with
  | nil => exact .nil
  | cons call calls ih =>
    have next : (answer S (some k) call).1 = 0 ∧ (answer S (some k) call).2 = none ∨
        (answer S (some k) call).1 ≠ 0 ∧ (answer S (some k) call).2 = some (answer S (some k) call).1 := by
      cases call with
      | advance => exact (least_finds (Nat.succ_pos k)).positive (Nat.succ_pos k)
      | advanceTo t =>
        by_cases reached : t ≤ k
        · right
          rw [answer,if_pos ⟨positive,reached⟩]
          exact ⟨positive,rfl⟩
        · rw [answer,if_neg (fun both => reached both.2)]
          exact (least_finds (by omega)).positive (by omega)
    rcases next with ⟨zero,ended⟩ | ⟨alive,stands⟩
    · simp only [answers,ended]
      refine .cons (fun id member _ => answers_ended S calls id member) ?_
      exact List.Pairwise.imp_of_mem (fun _ member _ _ => answers_ended S calls _ member) (List.pairwise_of_forall fun _ _ => trivial)
    · simp only [answers,stands]
      exact .cons (fun id member zero => absurd zero alive) (ih alive)

/-- Once a cursor that was advanced has answered 0, it answers 0 for ever. -/
theorem zero_for_ever (S : Finset Nat) (calls : List Call) :
    (answers S (some 0) (.advance :: calls)).1.Pairwise fun a b => a = 0 → b = 0 := by
  have finds : Finds S (0 + 1) (answer S (some 0) .advance).1 (answer S (some 0) .advance).2 := least_finds (Nat.succ_pos 0)
  rcases finds.positive (Nat.succ_pos 0) with ⟨zero,ended⟩ | ⟨alive,stands⟩
  · simp only [answers,ended]
    refine .cons (fun id member _ => answers_ended S calls id member) ?_
    exact List.Pairwise.imp_of_mem (fun _ member _ _ => answers_ended S calls _ member) (List.pairwise_of_forall fun _ _ => trivial)
  · simp only [answers,stands]
    exact .cons (fun id member zero => absurd zero alive) (answers_stands alive calls)

/-- What an advance answers from any position. -/
theorem advance_answer (S : Finset Nat) (p : Option Nat) :
    (answer S p .advance).1 = 0 ∧ (answer S p .advance).2 = none ∨
      (answer S p .advance).1 ≠ 0 ∧ (answer S p .advance).2 = some (answer S p .advance).1 := by
  cases p with
  | none => exact .inl ⟨rfl,rfl⟩
  | some k => exact (least_finds (Nat.succ_pos k)).positive (Nat.succ_pos k)

/-- After advances alone the cursor stands on the last answer. -/
theorem advances_last (S : Finset Nat) {p : Option Nat} {n : Nat}
    (last : (answers S p (List.replicate n .advance)).1.getLast? = some id) (positive : id ≠ 0) :
    (answers S p (List.replicate n .advance)).2 = some id := by
  induction n generalizing p with
  | zero => cases last
  | succ n ih =>
    cases n with
    | zero =>
      rcases advance_answer S p with ⟨zero,ended⟩ | ⟨_,stands⟩
      · cases last
        exact absurd zero positive
      · cases last
        exact stands
    | succ n => exact ih last

theorem advances_ended (S : Finset Nat) (n : Nat) :
    (answers S none (List.replicate n .advance)).1 = List.replicate n 0 := by
  induction n with
  | zero => rfl
  | succ n ih =>
    rw [List.replicate_succ,List.replicate_succ,← ih]
    rfl

/-- Advances alone list the ids in ascending order. -/
theorem advances_list (S : Finset Nat) (n : Nat) :
    (answers S (some k) (List.replicate n .advance)).1 = ((S.filter (k < ·)).sort ++ List.replicate n 0).take n := by
  induction n generalizing k with
  | zero => rw [List.take_zero]; rfl
  | succ n ih =>
    have finds : Finds S (k + 1) (answer S (some k) .advance).1 (answer S (some k) .advance).2 := least_finds (Nat.succ_pos k)
    rw [List.replicate_succ,answers]
    simp only
    rcases finds with ⟨zero,ended,none⟩ | ⟨inside,beyond,stands,first⟩
    · have empty : S.filter (k < ·) = ∅ := Finset.filter_eq_empty_iff.mpr fun x held => by have := none x held; omega
      rw [zero,ended,advances_ended,empty,Finset.sort_empty,List.nil_append,← List.replicate_succ]
      simp
    · obtain ⟨id,same⟩ : ∃ id, id = (answer S (some k) .advance).1 := ⟨_,rfl⟩
      rw [← same] at inside beyond stands first ⊢
      have split : S.filter (k < ·) = insert id (S.filter (id < ·)) := by
        ext x
        simp only [Finset.mem_filter,Finset.mem_insert]
        constructor
        · rintro ⟨held,more⟩
          rcases Nat.lt_or_eq_of_le (first x held more) with less | equal
          · exact .inr ⟨held,less⟩
          · exact .inl equal.symm
        · rintro (rfl | ⟨held,more⟩)
          · exact ⟨inside,beyond⟩
          · exact ⟨held,by omega⟩
      have sorted := Finset.sort_insert (fun a b : Nat => a ≤ b) (s := S.filter (id < ·)) (a := id)
        (fun b held => Nat.le_of_lt (Finset.mem_filter.mp held).2) (by simp)
      rw [stands,ih,split,sorted,List.cons_append,List.take_succ_cons]
      simp [List.take_append,List.take_replicate]
      omega

/-! ## Calls -/

variable {ops : Ops σ} {c : σ}

theorem answer_positive (S : Finset Nat) (p : Option Nat) (call : Call) : (answer S p call).2 ≠ some 0 := by
  have away : ∀ x, (found x).2 ≠ some 0 := by
    intro x
    by_cases zero : x = 0
    · rw [found,if_pos zero]
      simp
    · rw [found,if_neg zero]
      simpa using zero
  cases p with
  | none => simp [answer]
  | some k =>
    cases call with
    | advance => exact away _
    | advanceTo t =>
      by_cases reached : k ≠ 0 ∧ t ≤ k
      · rw [answer,if_pos reached]
        simpa using reached.1
      · rw [answer,if_neg reached]
        exact away _

/-- One answer for each call. -/
theorem Ops.run_cons {call : Call} {calls : List Call} {ids : List Nat} {c' : σ}
    (run : ops.run c (call :: calls) = some (ids,c')) :
    ∃ id c₁ later, ops.call c call = some (id,c₁) ∧ ops.run c₁ calls = some (later,c') ∧ ids = id :: later := by
  rw [Ops.run] at run
  cases called : ops.call c call with
  | none =>
    rw [called] at run
    cases run
  | some result =>
    obtain ⟨id,c₁⟩ := result
    simp only [called] at run
    cases rest : ops.run c₁ calls with
    | none =>
      rw [rest] at run
      cases run
    | some result =>
      obtain ⟨later,c₂⟩ := result
      simp only [rest,Option.some.injEq,Prod.mk.injEq] at run
      obtain ⟨rfl,rfl⟩ := run
      exact ⟨id,c₁,later,rfl,rest,rfl⟩

theorem Meets.call (meets : Meets ops S c p) (call : Call) (proper : Proper p call) :
    ∃ c', ops.call c call = some ((answer S p call).1,c') ∧ Meets ops S c' (answer S p call).2 := by
  have head : ∀ calls, ∀ other, (call :: calls).head? = some other → Proper p other := by
    intro calls other same
    cases same
    exact proper
  obtain ⟨c',run,shows⟩ := meets [call] (head [])
  simp only [Ops.run,answers] at run
  cases returned : ops.call c call with
  | none =>
    rw [returned] at run
    cases run
  | some result =>
    obtain ⟨id,c₁⟩ := result
    rw [returned] at run
    cases run
    refine ⟨c',rfl,fun calls _ => ?_⟩
    obtain ⟨c₂,run',shows'⟩ := meets (call :: calls) (head calls)
    simp only [Ops.run,answers,returned] at run'
    cases rest : ops.run c' calls with
    | none =>
      rw [rest] at run'
      cases run'
    | some result =>
      obtain ⟨ids,c₃⟩ := result
      rw [rest] at run'
      simp only [Option.some.injEq,Prod.mk.injEq,List.cons.injEq] at run'
      obtain ⟨⟨_,rfl⟩,rfl⟩ := run'
      exact ⟨c₃,rfl,shows'⟩

theorem Meets.current (meets : Meets ops S c (some id)) (positive : id ≠ 0) : ops.current c = id := by
  obtain ⟨c',run,shows⟩ := meets [] (by simp)
  cases run
  exact shows id rfl positive

/-- A relation to the positions that every call keeps. -/
theorem meets_of {R : σ → Option Nat → Prop} (current : ∀ c id, R c (some id) → id ≠ 0 → ops.current c = id)
    (keeps : ∀ c p call, Proper p call → R c p →
      ∃ c', ops.call c call = some ((answer S p call).1,c') ∧ R c' (answer S p call).2)
    (start : R c p) : Meets ops S c p := by
  intro calls proper
  induction calls generalizing c p with
  | nil =>
    refine ⟨c,rfl,fun id at' => ?_⟩
    cases at'
    exact current c id start
  | cons call calls ih =>
    obtain ⟨c',returned,kept⟩ := keeps c p call (proper call rfl) start
    obtain ⟨c'',run,shows⟩ := ih kept fun other _ zero => absurd zero (answer_positive S p call)
    refine ⟨c'',?_,shows⟩
    simp only [Ops.run,returned,run,answers]

theorem Meets.advance (meets : Meets ops S c (some k)) :
    ∃ id c' p, ops.advance c = some (id,c') ∧ Finds S (k + 1) id p ∧ Meets ops S c' p := by
  obtain ⟨c',returned,meets'⟩ := meets.call .advance fun _ => by simp
  exact ⟨_,c',_,returned,least_finds (Nat.succ_pos k),meets'⟩

theorem Meets.advanceTo (meets : Meets ops S c (some k)) (beyond : k < id) :
    ∃ id' c' p, ops.advanceTo c id = some (id',c') ∧ Finds S id id' p ∧ Meets ops S c' p := by
  have positive : id ≠ 0 := by omega
  obtain ⟨c',returned,meets'⟩ := meets.call (.advanceTo id) fun _ => by simpa using positive
  simp only [answer,if_neg (fun both : k ≠ 0 ∧ id ≤ k => absurd both.2 (Nat.not_le.mpr beyond))] at returned meets'
  exact ⟨_,c',_,returned,least_finds (by omega),meets'⟩

theorem Meets.stay (meets : Meets ops S c (some k)) (positive : k ≠ 0) (reached : id ≤ k) :
    ∃ c', ops.advanceTo c id = some (k,c') ∧ Meets ops S c' (some k) := by
  obtain ⟨c',returned,meets'⟩ := meets.call (.advanceTo id) fun zero => absurd (Option.some.inj zero) positive
  simp only [answer,if_pos (And.intro positive reached)] at returned meets'
  exact ⟨c',returned,meets'⟩

/-- An object that only passes its calls on. -/
theorem Meets.lift {τ : Type} {ops' : Ops τ} (f : σ → τ)
    (calls : ∀ c call, ops'.call (f c) call = (ops.call c call).map fun result => (result.1,f result.2))
    (shows : ∀ c, ops'.current (f c) = ops.current c) (meets : Meets ops S c p) : Meets ops' S (f c) p := by
  refine meets_of (R := fun d q => ∃ c, d = f c ∧ Meets ops S c q) ?_ ?_ ⟨c,rfl,meets⟩
  · rintro _ id ⟨c,rfl,meets⟩ positive
    rw [shows]
    exact meets.current positive
  · rintro _ q call proper ⟨c,rfl,meets⟩
    obtain ⟨c',returned,meets'⟩ := meets.call call proper
    exact ⟨f c',by rw [calls,returned]; rfl,c',rfl,meets'⟩

/-- What a cursor of `S` answers, and that it answers 0 only at the end. -/
def Answers (ops : Ops σ) (S : Finset Nat) (c : σ) (calls : List Call) : Prop :=
  ∃ ids c', ops.run c calls = some (ids,c') ∧ ids = (answers S (some 0) calls).1 ∧ ids.Pairwise fun a b => a = 0 → b = 0

theorem Meets.answers (meets : Meets ops S c (some 0)) (calls : List Call) : Answers ops S c (.advance :: calls) := by
  obtain ⟨c',run,_⟩ := meets (.advance :: calls) (by simp [Proper])
  exact ⟨_,c',run,rfl,zero_for_ever S calls⟩

end

/-! ## The sets themselves -/

/-- Sets with positions, as objects. -/
def setOps : Ops (Finset Nat × Option Nat) where
  advance c := some ((answer c.1 c.2 .advance).1,(c.1,(answer c.1 c.2 .advance).2))
  advanceTo c id := some ((answer c.1 c.2 (.advanceTo id)).1,(c.1,(answer c.1 c.2 (.advanceTo id)).2))
  current c := c.2.getD 0

theorem setOps_meets (S : Finset Nat) (p : Option Nat) : Meets setOps S (S,p) p := by
  refine meets_of (R := fun c q => c = (S,q)) (fun c id at' positive => ?_) (fun c q call _ at' => ?_) rfl
  · rw [at']
    rfl
  · subst at'
    cases call <;> exact ⟨_,rfl,rfl⟩

/-! ## Cursors that show data -/

section
variable {σ α : Type} {ops : Ops σ} {data : σ → α} {S : Finset Nat} {P : Nat → α} {c : σ} {p : Option Nat}

variable (ops data S P c p) in
/-- From this position on the object is a cursor of `S`, and where it stands on an id it
    shows what `P` has there. -/
def MeetsWith : Prop :=
  ∀ calls, (∀ call, calls.head? = some call → Proper p call) →
    ∃ c', ops.run c calls = some ((answers S p calls).1,c') ∧
      ∀ id, (answers S p calls).2 = some id → id ≠ 0 → ops.current c' = id ∧ data c' = P id

theorem MeetsWith.meets (meets : MeetsWith ops data S P c p) : Meets ops S c p := by
  intro calls proper
  obtain ⟨c',run,shows⟩ := meets calls proper
  exact ⟨c',run,fun id stands positive => (shows id stands positive).1⟩

open Classical in
variable (ops data) in
/-- Objects beside what they are to show; they stand on an id only where they show it. -/
noncomputable def dataOps : Ops (σ × (Nat → α)) where
  advance c := (ops.advance c.1).map fun result => (result.1,(result.2,c.2))
  advanceTo c id := (ops.advanceTo c.1 id).map fun result => (result.1,(result.2,c.2))
  current c := if data c.1 = c.2 (ops.current c.1) then ops.current c.1 else 0

theorem dataOps_call (c : σ) (call : Call) :
    (dataOps ops data).call (c,P) call = (ops.call c call).map fun result => (result.1,(result.2,P)) := by
  cases call <;> rfl

theorem dataOps_run (c : σ) (calls : List Call) :
    (dataOps ops data).run (c,P) calls = (ops.run c calls).map fun result => (result.1,(result.2,P)) := by
  induction calls generalizing c with
  | nil => rfl
  | cons call calls ih =>
    rw [Ops.run,Ops.run,dataOps_call]
    cases ops.call c call with
    | none => rfl
    | some result =>
      simp only [Option.map_some,ih]
      cases ops.run result.2 calls <;> rfl

theorem dataOps_current {id : Nat} (positive : id ≠ 0) :
    (dataOps ops data).current (c,P) = id ↔ ops.current c = id ∧ data c = P id := by
  by_cases shows : data c = P (ops.current c)
  · have equal : (dataOps ops data).current (c,P) = ops.current c := if_pos shows
    rw [equal]
    exact ⟨fun same => ⟨same,same ▸ shows⟩,fun both => both.1⟩
  · have equal : (dataOps ops data).current (c,P) = 0 := if_neg shows
    rw [equal]
    refine ⟨fun zero => absurd zero.symm positive,fun both => absurd ?_ shows⟩
    rw [both.1]
    exact both.2

/-- A cursor that shows data is a cursor that stands where it shows it. -/
theorem meetsWith_iff : MeetsWith ops data S P c p ↔ Meets (dataOps ops data) S (c,P) p := by
  constructor
  · intro meets calls proper
    obtain ⟨c',run,shows⟩ := meets calls proper
    refine ⟨(c',P),?_,fun id stands positive => (dataOps_current positive).mpr (shows id stands positive)⟩
    rw [dataOps_run,run]
    rfl
  · intro meets calls proper
    obtain ⟨⟨c',Q⟩,run,shows⟩ := meets calls proper
    rw [dataOps_run,Option.map_eq_some_iff] at run
    obtain ⟨⟨ids,c''⟩,run,same⟩ := run
    cases same
    exact ⟨c'',run,fun id stands positive => (dataOps_current positive).mp (shows id stands positive)⟩

theorem MeetsWith.shows {id : Nat} (meets : MeetsWith ops data S P c (some id)) (positive : id ≠ 0) :
    ops.current c = id ∧ data c = P id := by
  obtain ⟨c',run,shows⟩ := meets [] (by simp)
  cases run
  exact shows id rfl positive

theorem least_congr {T : Finset Nat} {k : Nat} (same : ∀ x ≠ 0, x ∈ S ↔ x ∈ T) (positive : 0 < k) : least S k = least T k := by
  have filters : S.filter (k ≤ ·) = T.filter (k ≤ ·) := by
    ext x
    rw [Finset.mem_filter,Finset.mem_filter]
    exact and_congr_left fun beyond => same x (by omega)
  simp only [least,filters]

theorem answer_congr {T : Finset Nat} (same : ∀ x ≠ 0, x ∈ S ↔ x ∈ T) {call : Call} (proper : Proper p call) :
    answer S p call = answer T p call := by
  cases p with
  | none => rfl
  | some k =>
    cases call with
    | advance => rw [answer,answer,least_congr same (Nat.succ_pos k)]
    | advanceTo t =>
      by_cases reached : k ≠ 0 ∧ t ≤ k
      · rw [answer,answer,if_pos reached,if_pos reached]
      · have positive : 0 < t := by
          rcases Nat.eq_zero_or_pos t with rfl | positive
          · have atStart : k = 0 := by omega
            exact absurd rfl (proper (congrArg some atStart))
          · exact positive
        rw [answer,answer,if_neg reached,if_neg reached,least_congr same positive]

theorem answers_congr {T : Finset Nat} (same : ∀ x ≠ 0, x ∈ S ↔ x ∈ T) {calls : List Call}
    (proper : ∀ call, calls.head? = some call → Proper p call) : answers S p calls = answers T p calls := by
  induction calls generalizing p with
  | nil => rfl
  | cons call calls ih =>
    have first := answer_congr same (proper call rfl)
    have rest := ih (p := (answer S p call).2) fun other _ zero => absurd zero (answer_positive S p call)
    simp only [answers,← first,rest]

/-- Whether 0 is in the set makes no difference. -/
theorem MeetsWith.congr {T : Finset Nat} (same : ∀ x ≠ 0, x ∈ S ↔ x ∈ T) (meets : MeetsWith ops data S P c p) :
    MeetsWith ops data T P c p := by
  intro calls proper
  rw [← answers_congr same proper]
  exact meets calls proper

/-- An object that only passes its calls on, and shows what the other shows. -/
theorem MeetsWith.lift {τ : Type} {ops' : Ops τ} {data' : τ → α} (f : σ → τ)
    (calls : ∀ c call, ops'.call (f c) call = (ops.call c call).map fun result => (result.1,f result.2))
    (current : ∀ c, ops'.current (f c) = ops.current c) (same : ∀ c, data' (f c) = data c)
    (meets : MeetsWith ops data S P c p) : MeetsWith ops' data' S P (f c) p := by
  have runs : ∀ others c, ops'.run (f c) others = (ops.run c others).map fun result => (result.1,f result.2) := by
    intro others
    induction others with
    | nil => exact fun c => rfl
    | cons call others ih =>
      intro c
      rw [Ops.run,Ops.run,calls]
      cases ops.call c call with
      | none => rfl
      | some result =>
        simp only [Option.map_some,ih]
        cases ops.run result.2 others <;> rfl
  intro others proper
  obtain ⟨c',run,shows⟩ := meets others proper
  refine ⟨f c',by rw [runs,run]; rfl,fun id stands positive => ?_⟩
  rw [current,same]
  exact shows id stands positive

theorem MeetsWith.call (meets : MeetsWith ops data S P c p) (call : Call) (proper : Proper p call) :
    ∃ c', ops.call c call = some ((answer S p call).1,c') ∧ MeetsWith ops data S P c' (answer S p call).2 := by
  obtain ⟨⟨c',Q⟩,returned,meets'⟩ := (meetsWith_iff.mp meets).call call proper
  rw [dataOps_call,Option.map_eq_some_iff] at returned
  obtain ⟨⟨id,c''⟩,returned,same⟩ := returned
  cases same
  exact ⟨c'',returned,meetsWith_iff.mpr meets'⟩

theorem MeetsWith.advance {k : Nat} (meets : MeetsWith ops data S P c (some k)) :
    ∃ id c' p, ops.advance c = some (id,c') ∧ Finds S (k + 1) id p ∧ MeetsWith ops data S P c' p := by
  obtain ⟨c',returned,meets'⟩ := meets.call .advance fun _ => by simp
  exact ⟨_,c',_,returned,least_finds (Nat.succ_pos k),meets'⟩

theorem MeetsWith.advanceTo {k id : Nat} (meets : MeetsWith ops data S P c (some k)) (beyond : k < id) :
    ∃ id' c' p, ops.advanceTo c id = some (id',c') ∧ Finds S id id' p ∧ MeetsWith ops data S P c' p := by
  have positive : id ≠ 0 := by omega
  obtain ⟨c',returned,meets'⟩ := meets.call (.advanceTo id) fun _ => by simpa using positive
  simp only [answer,if_neg (fun both : k ≠ 0 ∧ id ≤ k => absurd both.2 (Nat.not_le.mpr beyond))] at returned meets'
  exact ⟨_,c',_,returned,least_finds (by omega),meets'⟩

theorem MeetsWith.stay {k id : Nat} (meets : MeetsWith ops data S P c (some k)) (positive : k ≠ 0) (reached : id ≤ k) :
    ∃ c', ops.advanceTo c id = some (k,c') ∧ MeetsWith ops data S P c' (some k) := by
  obtain ⟨c',returned,meets'⟩ := meets.call (.advanceTo id) fun zero => absurd (Option.some.inj zero) positive
  simp only [answer,if_pos (And.intro positive reached)] at returned meets'
  exact ⟨c',returned,meets'⟩

/-- After an answer other than 0 the cursor stands on it. -/
theorem answer_stands (S : Finset Nat) (p : Option Nat) (call : Call) (some_ : (answer S p call).1 ≠ 0) :
    (answer S p call).2 = some (answer S p call).1 := by
  have away : ∀ x, (found x).1 ≠ 0 → (found x).2 = some (found x).1 := by
    intro x alive
    by_cases zero : x = 0
    · rw [found,if_pos zero] at alive
      exact absurd rfl alive
    · rw [found,if_neg zero]
  cases p with
  | none => exact absurd rfl some_
  | some k =>
    cases call with
    | advance => exact away _ some_
    | advanceTo t =>
      by_cases reached : k ≠ 0 ∧ t ≤ k
      · rw [answer,if_pos reached]
      · rw [answer,if_neg reached] at some_ ⊢
        exact away _ some_

theorem answers_last (S : Finset Nat) {p : Option Nat} {calls : List Call} {id : Nat}
    (last : (answers S p calls).1.getLast? = some id) (some_ : id ≠ 0) : (answers S p calls).2 = some id := by
  induction calls generalizing p with
  | nil => cases last
  | cons call calls ih =>
    cases calls with
    | nil =>
      cases last
      exact answer_stands S p call some_
    | cons other calls => exact ih last

/-- An id is in the set if it is what a seek finds. -/
theorem seek_iff {S : Finset Nat} {x : Nat} (positive : x ≠ 0) :
    (answers S (some 0) [.advance,.advanceTo x]).1.getLast? = some x ↔ x ∈ S := by
  have finds : Finds S (0 + 1) (answer S (some 0) .advance).1 (answer S (some 0) .advance).2 := least_finds (Nat.succ_pos 0)
  have last : (answers S (some 0) [.advance,.advanceTo x]).1.getLast? =
      some (answer S (answer S (some 0) .advance).2 (.advanceTo x)).1 := rfl
  rw [last,Option.some.injEq]
  rcases finds with ⟨_,ended,none⟩ | ⟨inside,beyond,stands,first⟩
  · rw [ended]
    refine ⟨fun zero => absurd zero.symm positive,fun member => ?_⟩
    have := none x member
    omega
  · rw [stands]
    generalize (answer S (some 0) .advance).1 = a at inside beyond first ⊢
    by_cases reached : x ≤ a
    · rw [answer,if_pos ⟨by omega,reached⟩]
      constructor
      · rintro rfl
        exact inside
      · intro member
        have := first x member (by omega)
        omega
    · rw [answer,if_neg (fun both => reached both.2)]
      rcases least_finds (S := S) (Nat.pos_of_ne_zero positive) with ⟨zero,_,none⟩ | ⟨inside',_,_,first'⟩
      · rw [zero]
        refine ⟨fun same => absurd same.symm positive,fun member => ?_⟩
        have := none x member
        omega
      · constructor
        · intro same
          rwa [same] at inside'
        · intro member
          have := first' x member (Nat.le_refl x)
          omega

/-- What a cursor of `S` answers, 0 only at the end, and what it shows after each id. -/
def AnswersWith (ops : Ops σ) (data : σ → α) (S : Finset Nat) (P : Nat → α) (c : σ) (calls : List Call) : Prop :=
  ∃ ids c', ops.run c calls = some (ids,c') ∧ ids = (answers S (some 0) calls).1 ∧
    (ids.Pairwise fun a b => a = 0 → b = 0) ∧ ∀ id, ids.getLast? = some id → id ≠ 0 → data c' = P id

/-- The answers say what the set is. -/
theorem AnswersWith.same {T : Finset Nat} {Q : Nat → α} (first : ∀ calls, AnswersWith ops data S P c (.advance :: calls))
    (second : ∀ calls, AnswersWith ops data T Q c (.advance :: calls)) {x : Nat} (positive : x ≠ 0) : x ∈ S ↔ x ∈ T := by
  obtain ⟨ids,c',run,are,_⟩ := first [.advanceTo x]
  obtain ⟨ids',c'',run',are',_⟩ := second [.advanceTo x]
  rw [run] at run'
  cases run'
  rw [← seek_iff positive,← seek_iff positive,← are,← are']

theorem MeetsWith.answers (meets : MeetsWith ops data S P c (some 0)) (calls : List Call) :
    AnswersWith ops data S P c (.advance :: calls) := by
  obtain ⟨c',run,shows⟩ := meets (.advance :: calls) (by simp [Proper])
  exact ⟨_,c',run,rfl,zero_for_ever S calls,fun id last some_ => (shows id (answers_last S last some_) some_).2⟩

/-- A relation to the positions that every call keeps, and that shows the data. -/
theorem meetsWith_of {R : σ → Option Nat → Prop}
    (current : ∀ c id, R c (some id) → id ≠ 0 → ops.current c = id ∧ data c = P id)
    (keeps : ∀ c p call, Proper p call → R c p →
      ∃ c', ops.call c call = some ((answer S p call).1,c') ∧ R c' (answer S p call).2)
    (start : R c p) : MeetsWith ops data S P c p := by
  rw [meetsWith_iff]
  refine meets_of (R := fun d q => d.2 = P ∧ R d.1 q) ?_ ?_ ⟨rfl,start⟩
  · rintro ⟨c,_⟩ id ⟨rfl,related⟩ positive
    exact (dataOps_current positive).mpr (current c id related positive)
  · rintro ⟨c,_⟩ q call proper ⟨rfl,related⟩
    obtain ⟨c',returned,kept⟩ := keeps c q call proper related
    refine ⟨(c',_),?_,rfl,kept⟩
    rw [dataOps_call,returned]
    rfl

end

/-- A set of ids that shows data. -/
theorem setOps_meetsWith {α : Type} (S : Finset Nat) (P : Nat → α) (p : Option Nat) :
    MeetsWith setOps (fun c => P (c.2.getD 0)) S P (S,p) p := by
  refine meetsWith_of (R := fun c q => c = (S,q)) (fun c id at' positive => ?_) (fun c q call _ at' => ?_) rfl
  · rw [at']
    exact ⟨rfl,rfl⟩
  · subst at'
    cases call <;> exact ⟨_,rfl,rfl⟩

end AnotherC.Lib.Cursor
