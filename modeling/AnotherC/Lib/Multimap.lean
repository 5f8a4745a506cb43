import Mathlib.Data.List.Basic
import Mathlib.Data.List.Nodup

/-!
Pairs of keys and values, collected by their keys: each key once, in the order of its first
pair, with its values in their order.
-/
namespace AnotherC.Lib.Multimap

variable {κ ν : Type} [DecidableEq κ]

/-- The values of a key. -/
def values (pairs : List (κ × ν)) (k : κ) : List ν := (pairs.filter fun p => p.1 = k).map Prod.snd

def collected (pairs : List (κ × ν)) : List (κ × List ν) := (pairs.map Prod.fst).eraseDups.map fun k => (k,values pairs k)

/-- One value more, at the end of those of its key. -/
def added (groups : List (κ × List ν)) (k : κ) (v : ν) : List (κ × List ν) :=
  if k ∈ groups.map Prod.fst then groups.map fun g => if g.1 = k then (g.1,g.2 ++ [v]) else g else groups ++ [(k,[v])]

theorem values_append (pairs : List (κ × ν)) (k l : κ) (v : ν) :
    values (pairs ++ [(k,v)]) l = if k = l then values pairs l ++ [v] else values pairs l := by
  rw [values,List.filter_append,List.map_append,← values]
  split
  case isTrue same => simp [same]
  case isFalse other => simp [other]

theorem values_none {pairs : List (κ × ν)} {k : κ} (absent : k ∉ pairs.map Prod.fst) : values pairs k = [] := by
  rw [values,List.map_eq_nil_iff,List.filter_eq_nil_iff]
  intro p member same
  exact absent (List.mem_map.mpr ⟨p,member,of_decide_eq_true same⟩)

theorem collected_keys (pairs : List (κ × ν)) : (collected pairs).map Prod.fst = (pairs.map Prod.fst).eraseDups := by
  rw [collected,List.map_map]
  exact List.map_id _

theorem mem_collected (pairs : List (κ × ν)) (k : κ) : k ∈ (collected pairs).map Prod.fst ↔ k ∈ pairs.map Prod.fst := by
  rw [collected_keys,List.mem_eraseDups]

/-- A pair more. -/
theorem collected_append (pairs : List (κ × ν)) (k : κ) (v : ν) : collected (pairs ++ [(k,v)]) = added (collected pairs) k v := by
  have keys : ((pairs ++ [(k,v)]).map Prod.fst).eraseDups =
      (pairs.map Prod.fst).eraseDups ++ if k ∈ pairs.map Prod.fst then [] else [k] := by
    rw [List.map_append,List.eraseDups_append]
    congr 1
    have single : [k].eraseDups = [k] := List.eraseDups_cons
    split
    case isTrue member => simp_all [List.removeAll]
    case isFalse absent => simp_all [List.removeAll]
  rw [added]
  simp only [mem_collected]
  split
  case isTrue member =>
    rw [collected,keys,if_pos member,List.append_nil,collected,List.map_map]
    refine List.map_congr_left fun l inside => ?_
    show (l,values (pairs ++ [(k,v)]) l) = if l = k then (l,values pairs l ++ [v]) else (l,values pairs l)
    rw [values_append]
    by_cases same : k = l
    · rw [if_pos same,if_pos same.symm]
    · rw [if_neg same,if_neg (Ne.symm same)]
  case isFalse absent =>
    rw [collected,keys,if_neg absent,List.map_append,List.map_singleton,values_append,if_pos rfl,values_none absent,List.nil_append]
    refine congrArg (· ++ [(k,[v])]) (List.map_congr_left fun l inside => ?_)
    have other : k ≠ l := by
      rintro rfl
      exact absent (List.mem_eraseDups.mp inside)
    rw [values_append,if_neg other]

end AnotherC.Lib.Multimap
