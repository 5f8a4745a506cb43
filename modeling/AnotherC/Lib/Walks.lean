import Mathlib.Data.List.Basic
import Mathlib.Data.List.Induction
/-!
Walks in a graph where a node has at most one edge for each label. Where every node that
is met knows the edge it is met by, and the root none, no node is met twice (`walk_unique`).
-/
namespace AnotherC.Lib.Walks
set_option linter.unusedVariables false

section
variable {α β : Type} {follow follow' : α → β → Option α} {root a b c : α} {l : β} {xs ys : List β}

/-- Where the labels lead. -/
def walk (follow : α → β → Option α) : α → List β → Option α
  | a, [] => some a
  | a, l :: ls => (follow a l).bind fun b => walk follow b ls

def Reaches (follow : α → β → Option α) (root a : α) : Prop := ∃ path, walk follow root path = some a

theorem walk_append (xs ys : List β) (a : α) :
    walk follow a (xs ++ ys) = (walk follow a xs).bind fun b => walk follow b ys := by
  induction xs generalizing a with
  | nil => rfl
  | cons l xs ih =>
    rw [List.cons_append,walk,walk,Option.bind_assoc]
    exact congrArg _ (funext ih)

theorem walk_snoc : walk follow a (xs ++ [l]) = some c ↔ ∃ b, walk follow a xs = some b ∧ follow b l = some c := by
  rw [walk_append,Option.bind_eq_some_iff]
  refine exists_congr fun b => and_congr_right fun _ => ?_
  rw [walk]
  cases follow b l <;> simp [walk]

theorem Reaches.refl : Reaches follow a a := ⟨[],rfl⟩

theorem Reaches.edge (reached : Reaches follow root a) (edge : follow a l = some b) : Reaches follow root b := by
  obtain ⟨path,walked⟩ := reached
  exact ⟨path ++ [l],walk_snoc.mpr ⟨a,walked,edge⟩⟩

theorem Reaches.trans (first : Reaches follow a b) (second : Reaches follow b c) : Reaches follow a c := by
  obtain ⟨xs,first⟩ := first
  obtain ⟨ys,second⟩ := second
  refine ⟨xs ++ ys,?_⟩
  rw [walk_append,first]
  exact second

/-- What holds of the root and goes over every edge holds of all that is reached. -/
theorem Reaches.all {p : α → Prop} (start : p root)
    (step : ∀ a l b, Reaches follow root a → p a → follow a l = some b → p b) (reached : Reaches follow root a) : p a := by
  obtain ⟨path,walked⟩ := reached
  induction path using List.reverseRecOn generalizing a with
  | nil =>
    cases walked
    exact start
  | append_singleton path l ih =>
    obtain ⟨b,before,edge⟩ := walk_snoc.mp walked
    exact step b l a ⟨path,before⟩ (ih before) edge

/-- Edges may become walks. -/
theorem Reaches.mono (edges : ∀ a l b, Reaches follow root a → follow a l = some b → Reaches follow' a b)
    (reached : Reaches follow root a) : Reaches follow' root a :=
  reached.all Reaches.refl fun b l c here ih edge => ih.trans (edges b l c here edge)

/-- Every node that is met knows its edge. -/
theorem walk_unique (origin : α → Option (α × β)) (start : origin root = none)
    (back : ∀ a l b, Reaches follow root a → follow a l = some b → origin b = some (a,l))
    (first : walk follow root xs = some a) (second : walk follow root ys = some a) : xs = ys := by
  induction xs using List.reverseRecOn generalizing ys a with
  | nil =>
    cases first
    rcases List.eq_nil_or_concat' ys with rfl | ⟨zs,l,rfl⟩
    · rfl
    · obtain ⟨b,before,edge⟩ := walk_snoc.mp second
      cases start.symm.trans (back b l _ ⟨zs,before⟩ edge)
  | append_singleton xs l ih =>
    obtain ⟨b,before,edge⟩ := walk_snoc.mp first
    have known := back b l a ⟨xs,before⟩ edge
    rcases List.eq_nil_or_concat' ys with rfl | ⟨zs,m,rfl⟩
    · cases second
      cases start.symm.trans known
    · obtain ⟨c,before',edge'⟩ := walk_snoc.mp second
      cases known.symm.trans (back c m a ⟨zs,before'⟩ edge')
      rw [ih before before']

end

end AnotherC.Lib.Walks
