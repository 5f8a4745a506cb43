import AnotherC.Lib.Cursor
import Mathlib.Data.List.Pairwise

/-!
Scans over items in ascending order of their ids. A scan stands before the first item,
on an item or past the last one; a call moves it to the next item, or to the first one
whose id is not below a target. What is still ahead of a scan is enough to know where
its calls lead (`next_of`).
-/
namespace AnotherC.Lib.Scan
open AnotherC.Lib.Cursor
set_option linter.unusedVariables false

section
variable {α : Type} {items done rest : List (Nat × α)} {item : Nat × α} {target : Nat}

def Ascending (items : List (Nat × α)) : Prop := items.Pairwise fun a b => a.1 < b.1

inductive Place (α : Type)
  | start
  | on (item : Nat × α)
  | ended

def Place.of : Option (Nat × α) → Place α
  | none => .ended
  | some item => .on item

/-- The first item with a larger id. -/
def above (items : List (Nat × α)) (id : Nat) : Option (Nat × α) := items.find? fun item => id < item.1

/-- The first item whose id is not below the target. -/
def seek (items : List (Nat × α)) (target : Nat) : Option (Nat × α) := items.find? fun item => target ≤ item.1

def next (items : List (Nat × α)) : Place α → Call → Place α
  | .ended, _ => .ended
  | .start, .advance => .of items.head?
  | .start, .advanceTo target => .of (seek items target)
  | .on item, .advance => .of (above items item.1)
  | .on item, .advanceTo target => if target ≤ item.1 then .on item else .of (seek items target)

/-- Where each of the calls leads. -/
def walk (items : List (Nat × α)) : Place α → List Call → List (Place α)
  | _, [] => []
  | place, call :: calls => next items place call :: walk items (next items place call) calls

/-- A scan that stands on `item` has `rest` ahead of it. -/
structure Stands (items : List (Nat × α)) (item : Nat × α) (rest : List (Nat × α)) : Prop where
  ascending : Ascending items
  split : ∃ done, items = done ++ item :: rest

theorem find_skips {p : Nat × α → Bool} (skipped : ∀ item ∈ done, ¬ p item) : (done ++ rest).find? p = rest.find? p := by
  have none_ : done.find? p = none := List.find?_eq_none.mpr skipped
  rw [List.find?_append,none_,Option.none_or]

theorem Stands.above (stands : Stands items item rest) : above items item.1 = rest.head? := by
  obtain ⟨done,rfl⟩ := stands.split
  obtain ⟨_,later,across⟩ := List.pairwise_append.mp stands.ascending
  have skip : ∀ other ∈ done, ¬ decide (item.1 < other.1) = true := by
    intro other member
    have := across other member item (by simp)
    simp
    omega
  rw [Scan.above,find_skips skip,List.find?_cons_of_neg (by simp)]
  cases rest with
  | nil => rfl
  | cons first rest =>
    have next := (List.pairwise_cons.mp later).1 first (by simp)
    exact List.find?_cons_of_pos (by simpa using next)

/-- What is passed over when the scan goes on from an item to a target. -/
theorem Stands.seek {skipped : List (Nat × α)} (stands : Stands items item (skipped ++ rest)) (beyond : item.1 < target)
    (below : ∀ other ∈ skipped, other.1 < target) (reached : ∀ other ∈ rest, target ≤ other.1) : seek items target = rest.head? := by
  obtain ⟨done,rfl⟩ := stands.split
  have across := (List.pairwise_append.mp stands.ascending).2.2
  have shape : done ++ item :: (skipped ++ rest) = (done ++ item :: skipped) ++ rest := by simp
  rw [Scan.seek,shape,find_skips]
  · cases rest with
    | nil => rfl
    | cons first rest => exact List.find?_cons_of_pos (by simpa using reached first (by simp))
  · intro other member
    rcases List.mem_append.mp member with before | after
    · have := across other before item (by simp)
      simp
      omega
    · rcases List.mem_cons.mp after with rfl | later
      · simpa using beyond
      · simpa using below other later

end

end AnotherC.Lib.Scan
