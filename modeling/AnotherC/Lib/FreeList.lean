import Mathlib.Data.List.Nodup
import Mathlib.Data.List.Range

/-!
Free lists: objects are made one after the other, each has a pointer, and the
objects that are not used lie on a singly linked list.
-/
namespace AnotherC.Lib.FreeList

/-- The objects from `first` on, as the pointers have them. -/
def Chain (next : Nat → Option Nat) : Option Nat → List Nat → Prop
  | first, [] => first = none
  | first, r :: rest => first = some r ∧ Chain next (next r) rest

variable {next next' : Nat → Option Nat} {first : Option Nat} {free : List Nat}

/-- A chain depends on its own pointers only. -/
theorem Chain.frame (chain : Chain next first free) (same : ∀ r ∈ free, next' r = next r) : Chain next' first free := by
  induction free generalizing first with
  | nil => exact chain
  | cons r rest ih =>
    refine ⟨chain.1,?_⟩
    rw [same r List.mem_cons_self]
    exact ih chain.2 fun q member => same q (List.mem_cons_of_mem r member)

theorem Chain.push {r : Nat} (chain : Chain next first free) (outside : r ∉ free) :
    Chain (Function.update next r first) (some r) (r :: free) := by
  refine ⟨rfl,?_⟩
  rw [Function.update_self]
  refine chain.frame fun q member => Function.update_of_ne ?_ _ _
  intro same
  rw [same] at member
  exact outside member

theorem Chain.pop {r : Nat} (chain : Chain next (some r) free) :
    ∃ rest, free = r :: rest ∧ Chain next (next r) rest := by
  cases free with
  | nil => exact absurd chain (Option.some_ne_none r)
  | cons q rest =>
    obtain ⟨head,later⟩ := chain
    cases head
    exact ⟨rest,rfl,later⟩

/-- Every object is in use or on the list. -/
theorem used_add_free {made : Nat} (used : Nat → Bool) (nodup : free.Nodup)
    (parts : ∀ r, r ∈ free ↔ r < made ∧ used r = false) : (List.range made).countP used + free.length = made := by
  have listed : free.Perm ((List.range made).filter fun r => !used r) := by
    refine (List.perm_ext_iff_of_nodup nodup (List.nodup_range.filter _)).mpr fun r => ?_
    rw [parts r,List.mem_filter,List.mem_range,Bool.not_eq_true']
  have all := List.length_eq_countP_add_countP used (l := List.range made)
  rw [List.length_range,List.countP_eq_length_filter (p := fun r => decide ¬used r = true)] at all
  rw [listed.length_eq]
  simpa using all.symm

end AnotherC.Lib.FreeList
