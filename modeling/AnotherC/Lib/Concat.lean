import AnotherC.Lib.Stream

/-!
Machines one after the other: the calls go to one machine, and at its end to the
next one that a source produces, whose first answer is passed on as it is. The
elements of all machines are yielded in order exactly when no machine opened later
is empty while a still later one is not: the first answer of an empty machine is
taken for the end.
-/
namespace AnotherC.Lib.Concat
open AnotherC.Lib.Stream

/-- The machine that is read and the source of the later ones. -/
inductive State (σ τ : Type) where
  | ended
  | reading (current : Option σ) (source : τ)

section
variable {σ τ ρ : Type} (step : σ → Option (Option ρ × σ)) (next : τ → Option σ × τ)

/-- The next machine's first answer is the answer. -/
def opened : Option σ × τ → Option (Option ρ × State σ τ)
  | (none,_) => some (none,.ended)
  | (some s,source) => (step s).map fun answer => (answer.1,.reading (some answer.2) source)

def concat : State σ τ → Option (Option ρ × State σ τ)
  | .ended => some (none,.ended)
  | .reading none _ => none
  | .reading (some s) source =>
    (step s).bind fun answer =>
      match answer.1 with
      | some x => some (some x,.reading (some answer.2) source)
      | none => opened step (next source)

/-- The source produces machines that yield these lists, and then no more. -/
inductive Members : τ → List (List ρ) → Prop
  | ended {source source' : τ} (absent : next source = (none,source')) : Members source []
  | member {source source' : τ} {s : σ} {xs : List ρ} {later : List (List ρ)} (produced : next source = (some s,source'))
      (yields : Yields step s xs) (rest : Members source' later) : Members source (xs :: later)

/-- No empty member comes before one that is not empty. -/
def Unbroken (members : List (List ρ)) : Prop := members.Pairwise fun xs ys => xs = [] → ys = []

variable {step next}

theorem Unbroken.cons_iff {xs : List ρ} {later : List (List ρ)} :
    Unbroken (xs :: later) ↔ (xs = [] → ∀ ys ∈ later, ys = []) ∧ Unbroken later := by
  unfold Unbroken
  rw [List.pairwise_cons]
  constructor
  · rintro ⟨first,rest⟩
    exact ⟨fun isNil ys member => first ys member isNil,rest⟩
  · rintro ⟨first,rest⟩
    exact ⟨fun ys member isNil => first isNil ys member,rest⟩

theorem Unbroken.of_empty {members : List (List ρ)} (empty : ∀ xs ∈ members, xs = []) : Unbroken members := by
  induction members with
  | nil => exact List.Pairwise.nil
  | cons xs later ih =>
    have rest : ∀ ys ∈ later, ys = [] := fun ys member => empty ys (List.mem_cons_of_mem _ member)
    exact Unbroken.cons_iff.mpr ⟨fun _ => rest,ih rest⟩

theorem ended_yields : Yields (concat step next) .ended ([] : List ρ) := Yields.stop rfl

theorem fault {source : τ} {xs : List ρ} : ¬ Yields (concat step next) (.reading none source) xs :=
  Yields.not_fault rfl

/-- The first machine may be empty; from the second on an empty one hides what is behind it. -/
theorem concat_yields_iff {s : σ} {source : τ} {xs : List ρ} {later : List (List ρ)} (yields : Yields step s xs)
    (members : Members step next source later) :
    Yields (concat step next) (.reading (some s) source) (xs ++ later.flatten) ↔ Unbroken later := by
  induction members generalizing s xs with
  | @ended source source' absent =>
    have unbroken : Unbroken ([] : List (List ρ)) := List.Pairwise.nil
    simp only [List.flatten_nil,List.append_nil,unbroken,iff_true]
    induction xs generalizing s with
    | nil =>
      obtain ⟨s',moves,_⟩ := yields.head
      refine Yields.nil ?_ ended_yields
      simp [concat,moves,opened,absent]
    | cons x xs ih =>
      obtain ⟨s',moves,rest⟩ := yields.head
      exact Yields.cons (by simp [concat,moves]) (ih rest)
  | @member source source' s₂ ys later produced first _ ih =>
    induction xs generalizing s with
    | cons x xs ihx =>
      obtain ⟨s',moves,rest⟩ := yields.head
      have answers : concat step next (.reading (some s) source) = some (some x,.reading (some s') source) := by
        simp [concat,moves]
      rw [List.cons_append,Yields.cons_iff answers,ihx rest]
      exact and_iff_right rfl
    | nil =>
      obtain ⟨s',moves,_⟩ := yields.head
      obtain ⟨s₃,moves₂,rest⟩ := first.head
      have answers : concat step next (.reading (some s) source) = some (ys.head?,.reading (some s₃) source') := by
        simp [concat,moves,opened,produced,moves₂]
      rw [List.flatten_cons,List.nil_append,Unbroken.cons_iff]
      cases ys with
      | cons y ys =>
        rw [List.cons_append,Yields.cons_iff answers]
        simpa using ih rest
      | nil =>
        simp only [List.nil_append,forall_const]
        by_cases empty : ∀ zs ∈ later, zs = []
        · have none : later.flatten = [] := List.flatten_eq_nil_iff.mpr empty
          have unbroken := Unbroken.of_empty empty
          rw [none,Yields.nil_iff answers]
          have after := (ih rest).mpr unbroken
          rw [none] at after
          exact iff_of_true after ⟨empty,unbroken⟩
        · have some : later.flatten ≠ [] := fun isNil => empty (List.flatten_eq_nil_iff.mp isNil)
          obtain ⟨z,zs,isCons⟩ := List.exists_cons_of_ne_nil some
          rw [isCons]
          exact iff_of_false (Yields.not_cons answers) fun both => empty both.1

theorem Members.congr {source source' : τ} {members : List (List ρ)} (same : next source = next source')
    (these : Members step next source members) : Members step next source' members := by
  cases these with
  | ended absent => exact .ended (by rw [← same,absent])
  | member produced yields rest => exact .member (by rw [← same,produced]) yields rest

/-- Reading that starts with what the source produces first, which may be nothing. -/
theorem first_yields_iff {source : τ} {members : List (List ρ)} (these : Members step next source members) :
    Yields (concat step next) (.reading (next source).1 (next source).2) members.flatten ↔
      members ≠ [] ∧ Unbroken members.tail := by
  cases these with
  | ended absent =>
    rw [absent]
    exact iff_of_false fault fun both => both.1 rfl
  | @member _ _ s xs later produced yields rest =>
    rw [produced,List.flatten_cons,List.tail_cons,concat_yields_iff yields rest]
    simp

end
end AnotherC.Lib.Concat
