import Mathlib.Data.List.Forall2

/-!
Two lists side by side: what holds of the entries at each place, when one of them
is changed, added or looked up.
-/
namespace AnotherC.Lib.Rows

section
variable {α β : Type} {R S : α → β → Prop} {xs : List α} {ys : List β}

theorem forall₂_modify (each : List.Forall₂ R xs ys) (k : Nat) (f : α → α) (g : β → β) :
    List.Forall₂ R (xs.modify k f) (ys.modify k g) ↔ ∀ x y, xs[k]? = some x → ys[k]? = some y → R (f x) (g y) := by
  induction each generalizing k with
  | nil => simp
  | @cons x y xs ys head tail ih =>
    cases k with
    | zero => simp [tail]
    | succ k => simpa [head] using ih k

theorem forall₂_set (each : List.Forall₂ R xs ys) {k : Nat} {x : α} {y : β} (at' : ys[k]? = some y) (new : R x y) :
    List.Forall₂ R (xs.set k x) ys := by
  induction each generalizing k with
  | nil => cases at'
  | cons head tail ih =>
    cases k with
    | zero =>
      cases at'
      exact .cons new tail
    | succ k => exact .cons head (ih at')

theorem forall₂_getElem? (each : List.Forall₂ R xs ys) (k : Nat) :
    (xs[k]? = none ∧ ys[k]? = none) ∨ ∃ x y, xs[k]? = some x ∧ ys[k]? = some y ∧ R x y := by
  induction each generalizing k with
  | nil => exact .inl ⟨rfl,rfl⟩
  | @cons x y xs ys head tail ih =>
    cases k with
    | zero => exact .inr ⟨x,y,rfl,rfl,head⟩
    | succ k => exact ih k

theorem forall₂_inside (each : List.Forall₂ R xs ys) {k : Nat} (inside : k < xs.length) :
    ∃ x y, xs[k]? = some x ∧ ys[k]? = some y ∧ R x y := by
  rcases forall₂_getElem? each k with ⟨none,_⟩ | held
  · exact absurd none (by simp [inside])
  · exact held

theorem forall₂_right {p : β → Prop} (each : List.Forall₂ R xs ys) (all : ∀ y ∈ ys, p y)
    (both : ∀ x y, R x y → p y → S x y) : List.Forall₂ S xs ys := by
  induction each with
  | nil => exact .nil
  | cons head tail ih =>
    exact .cons (both _ _ head (all _ (by simp))) (ih fun y member => all y (by simp [member]))

theorem forall₂_snoc (each : List.Forall₂ R xs ys) {x : α} {y : β} (last : R x y) :
    List.Forall₂ R (xs ++ [x]) (ys ++ [y]) :=
  List.rel_append each (.cons last .nil)

theorem forall₂_places (lengths : xs.length = ys.length)
    (places : ∀ (k : Nat) x y, xs[k]? = some x → ys[k]? = some y → R x y) : List.Forall₂ R xs ys := by
  refine List.forall₂_iff_get.mpr ⟨lengths,fun k inside inside' => places k _ _ ?_ ?_⟩
  · exact List.getElem?_eq_getElem inside
  · exact List.getElem?_eq_getElem inside'

/-- Rows that are changed in step. -/
theorem forall₂_map_both {α' β' : Type*} {R' : α' → β' → Prop} (each : List.Forall₂ R xs ys) {f : α → α'} {g : β → β'}
    (both : ∀ x ∈ xs, ∀ y ∈ ys, R x y → R' (f x) (g y)) : List.Forall₂ R' (xs.map f) (ys.map g) := by
  induction each with
  | nil => exact .nil
  | cons first rest ih =>
    refine .cons (both _ List.mem_cons_self _ List.mem_cons_self first) (ih fun x inside y inside' => ?_)
    exact both x (List.mem_cons_of_mem _ inside) y (List.mem_cons_of_mem _ inside')

end

end AnotherC.Lib.Rows
