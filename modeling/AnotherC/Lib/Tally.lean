import Mathlib.Algebra.Order.BigOperators.Group.List
import Mathlib.Algebra.Order.Monoid.Unbundled.Basic
import Mathlib.Algebra.Order.Ring.Nat
import Mathlib.Data.List.AList

/-!
Finite maps whose values have a weight: what putting an entry and erasing one do to
the sum of all weights.
-/
namespace AnotherC.Lib.Tally

section
variable {κ α : Type} {w w' : α → Nat}

/-- The sum of the weights of all values. -/
def tally (w : α → Nat) (s : AList fun _ : κ => α) : Nat := (s.entries.map fun e => w e.2).sum

theorem tally_le (le : ∀ v, w v ≤ w' v) (s : AList fun _ : κ => α) : tally w s ≤ tally w' s :=
  List.sum_le_sum fun e _ => le e.2

theorem tally_one (s : AList fun _ : κ => α) : tally (fun _ => 1) s = s.keys.length := by
  rw [tally,AList.keys,List.keys,List.length_map]
  simp

variable [DecidableEq κ]

/-- The weight of the value of a key, if it has one. -/
def weightAt (w : α → Nat) (s : AList fun _ : κ => α) (k : κ) : Nat := (s.lookup k).elim 0 w

theorem tally_erase (s : AList fun _ : κ => α) (k : κ) : tally w (s.erase k) + weightAt w s k = tally w s := by
  by_cases there : k ∈ s.keys
  · obtain ⟨v,before,after,_,shape,gone⟩ := List.exists_of_kerase there
    have found : s.lookup k = some v := by
      rw [AList.mem_lookup_iff.mpr]
      rw [shape]
      simp
    have entries_ : (s.erase k).entries = before ++ after := gone
    rw [tally,tally,weightAt,found,entries_,shape]
    simp only [List.map_append,List.map_cons,List.sum_append,List.sum_cons,Option.elim]
    omega
  · have absent : s.lookup k = none := AList.lookup_eq_none.mpr there
    have same : s.erase k = s := AList.ext (List.kerase_of_notMem_keys there)
    rw [weightAt,absent,same]
    rfl

theorem weightAt_le (s : AList fun _ : κ => α) (k : κ) : weightAt w s k ≤ tally w s := by
  have sum := @tally_erase _ _ w _ s k
  omega

theorem tally_insert (s : AList fun _ : κ => α) (k : κ) (v : α) :
    tally w (s.insert k v) + weightAt w s k = tally w s + w v := by
  have sum := @tally_erase _ _ w _ s k
  have shape : tally w (s.insert k v) = w v + tally w (s.erase k) := by
    rw [tally,AList.entries_insert,List.map_cons,List.sum_cons]
    rfl
  omega

end

end AnotherC.Lib.Tally
