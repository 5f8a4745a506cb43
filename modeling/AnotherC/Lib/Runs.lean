import Mathlib.Data.List.Infix
import Mathlib.Data.List.Pairwise
import Mathlib.Data.List.Flatten
import Mathlib.Data.List.TakeWhile

/-!
The runs of a list: the longest stretches of elements with the same key as the first of
them. In a list in the order of its keys every key has one run, and the runs are in the
order of the keys.
-/
namespace AnotherC.Lib.Runs
set_option linter.unusedVariables false

section
variable {α β : Type} [DecidableEq β] {key : α → β} {l : List α}

def runs (key : α → β) : List α → List (List α)
  | [] => []
  | x :: xs => (x :: xs.takeWhile fun y => key y = key x) :: runs key (xs.dropWhile fun y => key y = key x)
termination_by l => l.length
decreasing_by exact Nat.lt_succ_of_le (List.dropWhile_sublist _).length_le

theorem runs_cons (x : α) (xs : List α) : runs key (x :: xs) =
    (x :: xs.takeWhile fun y => key y = key x) :: runs key (xs.dropWhile fun y => key y = key x) := by
  rw [runs]

/-- The runs one after the other are the list. -/
theorem runs_flatten (key : α → β) (l : List α) : (runs key l).flatten = l := by
  fun_induction runs key l with
  | case1 => rfl
  | case2 x xs ih => rw [List.flatten_cons,ih,List.cons_append,List.takeWhile_append_dropWhile]

/-- A run has a first element, and only elements with its key. -/
theorem run_shape {g : List α} (member : g ∈ runs key l) : ∃ x xs, g = x :: xs ∧ ∀ y ∈ xs, key y = key x := by
  fun_induction runs key l with
  | case1 => cases member
  | case2 x xs ih =>
    rcases List.mem_cons.mp member with rfl | later
    · refine ⟨x,_,rfl,fun y inside => ?_⟩
      have holds := List.all_eq_true.mp (List.all_takeWhile (p := fun y => decide (key y = key x)) (l := xs)) y inside
      exact of_decide_eq_true holds
    · exact ih later

theorem run_ne_nil {g : List α} (member : g ∈ runs key l) : g ≠ [] := by
  obtain ⟨x,xs,rfl,_⟩ := run_shape member
  exact List.cons_ne_nil x xs

theorem run_key {g : List α} (member : g ∈ runs key l) {x y : α} (first : x ∈ g) (second : y ∈ g) : key x = key y := by
  obtain ⟨z,zs,rfl,same⟩ := run_shape member
  have all : ∀ w ∈ z :: zs, key w = key z := by
    intro w inside
    rcases List.mem_cons.mp inside with rfl | later
    · rfl
    · exact same w later
  rw [all x first,all y second]

theorem run_subset {g : List α} (member : g ∈ runs key l) : ∀ x ∈ g, x ∈ l := by
  intro x inside
  rw [← runs_flatten key l]
  exact List.mem_flatten.mpr ⟨g,member,inside⟩

theorem run_sublist {g : List α} (member : g ∈ runs key l) : g.Sublist l := by
  have whole := List.sublist_flatten_of_mem member
  rwa [runs_flatten] at whole

theorem exists_run (key : α → β) {x : α} (member : x ∈ l) : ∃ g ∈ runs key l, x ∈ g := by
  rw [← runs_flatten key l] at member
  exact List.mem_flatten.mp member

/-- A list of one key is one run. -/
theorem runs_single (some_ : l ≠ []) (same : ∀ x ∈ l, ∀ y ∈ l, key x = key y) : runs key l = [l] := by
  obtain ⟨x,xs,rfl⟩ := List.exists_cons_of_ne_nil some_
  have all : ∀ y ∈ xs, decide (key y = key x) = true := fun y member =>
    decide_eq_true (same y (List.mem_cons_of_mem x member) x List.mem_cons_self)
  rw [runs_cons,List.takeWhile_eq_self_iff.mpr all,List.dropWhile_eq_nil_iff.mpr all,runs]

/-- The keys of the runs ascend if those of the list do. -/
theorem runs_ascending (lt : β → β → Prop) (trans : ∀ a b c, lt a b → lt b c → lt a c)
    (sorted : l.Pairwise fun a b => key a = key b ∨ lt (key a) (key b)) :
    (runs key l).Pairwise fun g h => ∀ x ∈ g, ∀ y ∈ h, lt (key x) (key y) := by
  fun_induction runs key l with
  | case1 => exact .nil
  | case2 x xs ih =>
    obtain ⟨first,rest⟩ := List.pairwise_cons.mp sorted
    have later := rest.sublist (List.dropWhile_sublist fun y => decide (key y = key x))
    refine .cons (fun h member w inside y inside' => ?_) (ih later)
    have same : key w = key x := run_key (l := x :: xs) (by rw [runs_cons]; exact List.mem_cons_self) inside List.mem_cons_self
    have held := run_subset member y inside'
    rw [same]
    -- the first element after the run has a larger key, and so have those after it
    cases after : xs.dropWhile fun y => decide (key y = key x) with
    | nil =>
      rw [after] at held
      cases held
    | cons z zs =>
      have other : ¬ key z = key x := by
        have stop := List.head?_dropWhile_not (fun y => decide (key y = key x)) xs
        rw [after] at stop
        simpa using stop
      have inside : z ∈ xs := (List.dropWhile_sublist fun y => decide (key y = key x)).subset (by rw [after]; simp)
      have less : lt (key x) (key z) := (first z inside).resolve_left fun same => other same.symm
      rw [after] at held later
      rcases List.mem_cons.mp held with rfl | beyond
      · exact less
      · rcases (List.pairwise_cons.mp later).1 y beyond with equal | more
        · rw [← equal]
          exact less
        · exact trans _ _ _ less more

/-- In a list in order a run has all elements with its key. -/
theorem run_all (lt : β → β → Prop) (trans : ∀ a b c, lt a b → lt b c → lt a c) (irrefl : ∀ a, ¬ lt a a)
    (sorted : l.Pairwise fun a b => key a = key b ∨ lt (key a) (key b)) {g : List α} (member : g ∈ runs key l) {x y : α}
    (inside : x ∈ g) (held : y ∈ l) (same : key y = key x) : y ∈ g := by
  obtain ⟨h,member',inside'⟩ := exists_run key held
  by_contra outside
  have apart : g ≠ h := fun equal => outside (equal ▸ inside')
  have either := (runs_ascending lt trans sorted).imp (S := fun g h : List α =>
    (∀ x ∈ g, ∀ y ∈ h, lt (key x) (key y)) ∨ ∀ x ∈ h, ∀ y ∈ g, lt (key x) (key y)) fun both => .inl both
  have symm : Std.Symm fun g h : List α =>
    (∀ x ∈ g, ∀ y ∈ h, lt (key x) (key y)) ∨ ∀ x ∈ h, ∀ y ∈ g, lt (key x) (key y) := ⟨fun _ _ => Or.symm⟩
  rcases either.forall member member' apart with less | less
  · exact irrefl (key y) (by simpa [same] using less x inside y inside')
  · exact irrefl (key y) (by simpa [same] using less y inside' x inside)

end

end AnotherC.Lib.Runs
