import AnotherC.Lib.Steps
import AnotherC.Lib.InPlace

/-!
# The array that a split returns

The splits of `ac_pool` count first, allocate an array of `num_splits + 1` pointers and cut the
string in a second pass. `Fills` says what the second pass leaves, whatever it takes for the
end of a piece: its lemmas go from the last piece to the first.
-/
namespace AnotherC.PoolCells
open AnotherC.Lib.Text
open AnotherC.Lib.Steps
open AnotherC.Lib.InPlace

/-- What is returned: `num_splits`, the cells of the array that were written, and the string. -/
structure Split where
  numSplits : Nat
  array : List (Option Nat)
  bytes : List UInt8
deriving Repr, DecidableEq

/-- A write of one byte. -/
def write (bytes : List UInt8) (p : Nat) (c : UInt8) : Option (List UInt8) := if p < bytes.length then some (bytes.set p c) else none

theorem read_cons {bytes : List UInt8} {c : UInt8} {p : Nat} {l : List UInt8} (here : bytes.drop p = c :: l) :
    bytes[p]? = some c ∧ bytes.drop (p + 1) = l := by
  have first := congrArg List.head? here
  rw [List.head?_drop] at first
  refine ⟨first,?_⟩
  rw [← List.tail_drop,here]
  rfl

/-- The bytes behind a piece and what was read of the next one. -/
theorem drop_word (front w rest : List UInt8) : (front ++ w ++ rest).drop (front.length + w.length) = rest := by
  rw [← List.length_append,List.drop_left]

theorem read_word (front w : List UInt8) (c : UInt8) (rest : List UInt8) :
    (front ++ w ++ c :: rest)[front.length + w.length]? = some c := (read_cons (drop_word front w (c :: rest))).1

/-- The byte behind a word is overwritten. -/
theorem write_word (front w : List UInt8) (c x : UInt8) (rest : List UInt8) :
    write (front ++ w ++ c :: rest) (front.length + w.length) x = some (front ++ w ++ x :: rest) := by
  have inside : front.length + w.length < (front ++ w ++ c :: rest).length := by
    simp only [List.length_append,List.length_cons]
    omega
  have written := set_written front w [] c x rest
  have bytes : front ++ (w ++ [x]) ++ shifted [] c ++ rest = front ++ w ++ x :: rest := by simp [shifted]
  rw [List.append_nil,bytes] at written
  rw [write,if_pos inside,written]

section
variable {σ : Type} {step : σ → Option (Next σ Split)} {state state' : σ} {num : Nat} {front w left : List UInt8} {ps : List Nat}
  {pieces : List Text}

theorem cells (room : ps.length < num) (p : Nat) : (ps ++ [p]).length < num + 1 := by
  rw [List.length_append,List.length_singleton]
  exact Nat.succ_lt_succ room

/-- What the second pass leaves: the cells in front, a cell for each piece, and NULL. -/
def Fills (step : σ → Option (Next σ Split)) (num : Nat) (front : List UInt8) (ps : List Nat) (state : σ) (pieces : List Text) : Prop :=
  ps.length + pieces.length = num → ∃ more ps',
    Returns step state ⟨num,(ps ++ front.length :: ps').map some ++ [none],front ++ more⟩ ∧
      List.Forall₂ (Cut (front ++ more)) (front.length :: ps') pieces

theorem Fills.after (stepped : step state = some (.goto state')) (later : Fills step num front ps state' pieces) :
    Fills step num front ps state pieces := by
  intro length
  obtain ⟨more,ps',returns,cuts⟩ := later length
  exact ⟨more,ps',Returns.after stepped returns,cuts⟩

/-- The last piece ends with the string. -/
theorem Fills.last (clean : 0 ∉ w)
    (ends : ps.length < num → step state = some (.returned ⟨num,(ps ++ [front.length]).map some ++ [none],front ++ w ++ 0 :: left⟩)) :
    Fills step num front ps state [w] := by
  intro length
  have room : ps.length < num := by
    rw [← length]
    exact Nat.lt_succ_self _
  have cut := Cut.here front clean left
  have stepped := ends room
  rw [List.append_assoc] at cut stepped
  exact ⟨w ++ 0 :: left,[],Returns.now stepped,.cons cut .nil⟩

/-- A piece is cut, and others follow. -/
theorem Fills.more (clean : 0 ∉ w) (stepped : ps.length < num → step state = some (.goto state'))
    (later : Fills step num (front ++ w ++ 0 :: left) (ps ++ [front.length]) state' pieces) :
    Fills step num front ps state (w :: pieces) := by
  intro length
  rw [List.length_cons] at length
  have room : ps.length < num := by omega
  obtain ⟨behind,ps',returns,cuts⟩ := later (by rw [List.length_append,List.length_singleton]; omega)
  have cut := Cut.here front clean (left ++ behind)
  have whole : front ++ w ++ 0 :: left ++ behind = front ++ (w ++ 0 :: (left ++ behind)) := by simp
  rw [whole] at cuts returns
  rw [List.append_assoc] at cut
  rw [List.append_assoc ps] at returns
  exact ⟨w ++ 0 :: (left ++ behind),_ :: ps',Returns.after (stepped room) returns,.cons cut cuts⟩

end
end AnotherC.PoolCells
