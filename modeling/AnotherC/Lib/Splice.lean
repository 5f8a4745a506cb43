import Mathlib.Data.List.Basic

/-!
Arrays as lists: storing and moving a run of entries within the bounds, `none` when
it would leave the array.
-/
namespace AnotherC.Lib.Splice

section
variable {α : Type}

/-- Stores entries from a place on. -/
def store (m : List α) (at' : Nat) (xs : List α) : Option (List α) :=
  if at' + xs.length ≤ m.length then some (m.take at' ++ xs ++ m.drop (at' + xs.length)) else none

/-- `memmove` within an array. -/
def move (m : List α) (dst src n : Nat) : Option (List α) :=
  if src + n ≤ m.length then store m dst ((m.drop src).take n) else none

/-- What stands where after a store. -/
theorem store_spec {m xs : List α} {at' : Nat} (inside : at' + xs.length ≤ m.length) :
    ∃ m', store m at' xs = some m' ∧ m'.length = m.length ∧
      ∀ i : Nat, m'[i]? = if at' ≤ i ∧ i < at' + xs.length then xs[i - at']? else m[i]? := by
  have front : (m.take at').length = at' := by
    rw [List.length_take]
    omega
  rw [store,if_pos inside]
  refine ⟨_,rfl,?_,fun i => ?_⟩
  · rw [List.length_append,List.length_append,front,List.length_drop]
    omega
  · rw [List.append_assoc]
    by_cases before : i < at'
    · rw [List.getElem?_append_left (by omega),List.getElem?_take,if_pos before,if_neg (by omega)]
    · rw [List.getElem?_append_right (by omega),front]
      by_cases stored : i < at' + xs.length
      · rw [List.getElem?_append_left (by omega),if_pos (by omega)]
      · rw [List.getElem?_append_right (by omega),List.getElem?_drop,if_neg (by omega)]
        congr 1
        omega

theorem store_append {a b c xs : List α} (same : b.length = xs.length) : store (a ++ b ++ c) a.length xs = some (a ++ xs ++ c) := by
  have inside : a.length + xs.length ≤ (a ++ b ++ c).length := by
    rw [List.length_append,List.length_append]
    omega
  have rest : (a ++ b ++ c).drop (a.length + xs.length) = c := by
    rw [← same,← List.length_append,List.drop_left]
  rw [store,if_pos inside,rest,List.append_assoc a b c,List.take_left]

theorem store_outside {m xs : List α} {at' : Nat} (outside : m.length < at' + xs.length) : store m at' xs = none :=
  if_neg (Nat.not_le.mpr outside)

theorem store_length {m m' xs : List α} {at' : Nat} (stored : store m at' xs = some m') : m'.length = m.length := by
  rw [store] at stored
  split_ifs at stored with inside
  cases stored
  simp
  omega

theorem move_length {m m' : List α} {dst src n : Nat} (moved : move m dst src n = some m') : m'.length = m.length := by
  rw [move] at moved
  split_ifs at moved
  exact store_length moved

/-- What stands where after a move, which keeps what is before it. -/
theorem move_spec {m : List α} {dst src n : Nat} (inside : src + n ≤ m.length) (inside' : dst + n ≤ m.length) :
    ∃ m', move m dst src n = some m' ∧ m'.length = m.length ∧ m'.take dst = m.take dst ∧
      ∀ j : Nat, m'[j]? = if dst ≤ j ∧ j < dst + n then m[src + (j - dst)]? else m[j]? := by
  have length : ((m.drop src).take n).length = n := by
    rw [List.length_take,List.length_drop]
    omega
  have front : (m.take dst).length = dst := by
    rw [List.length_take]
    omega
  rw [move,if_pos inside,store,length,if_pos inside']
  refine ⟨_,rfl,?_,?_,fun j => ?_⟩
  · rw [List.length_append,List.length_append,length,front,List.length_drop]
    omega
  · rw [List.append_assoc,List.take_append_of_le_length (by omega),List.take_of_length_le (by omega)]
  · rw [List.append_assoc]
    by_cases before : j < dst
    · rw [List.getElem?_append_left (by omega),List.getElem?_take,if_pos before,if_neg (by omega)]
    · rw [List.getElem?_append_right (by omega),front]
      by_cases moved : j < dst + n
      · rw [List.getElem?_append_left (by omega),List.getElem?_take,if_pos (by omega),List.getElem?_drop,if_pos (by omega)]
      · rw [List.getElem?_append_right (by omega),length,List.getElem?_drop,if_neg (by omega)]
        congr 1
        omega

/-- An array falls apart at any place within it. -/
theorem cut (m : List α) {n : Nat} (inside : n ≤ m.length) : ∃ a b, m = a ++ b ∧ a.length = n :=
  ⟨m.take n,m.drop n,(List.take_append_drop n m).symm,by rw [List.length_take]; omega⟩

/-- Storing after what is already written leaves the rest of the array behind it. -/
theorem store_next (written : List α) {rest xs : List α} (room : xs.length ≤ rest.length) :
    ∃ rest', store (written ++ rest) written.length xs = some (written ++ xs ++ rest') ∧
      xs.length + rest'.length = rest.length := by
  obtain ⟨old,rest',shape,length⟩ := cut rest room
  rw [shape,← List.append_assoc]
  exact ⟨rest',store_append length,by rw [List.length_append,length]⟩

theorem store_first {m xs : List α} (room : xs.length ≤ m.length) :
    ∃ rest', store m 0 xs = some (xs ++ rest') ∧ xs.length + rest'.length = m.length := store_next [] room

/-- Moving a run back over a gap closes the gap. -/
theorem move_closes (front gap run tail : List α) :
    ∃ rest, move (front ++ gap ++ run ++ tail) front.length (front ++ gap).length run.length = some (front ++ run ++ rest) ∧
      rest.length = gap.length + tail.length := by
  have inside : (front ++ gap).length + run.length ≤ (front ++ gap ++ run ++ tail).length := by
    simp only [List.length_append]
    exact Nat.le_add_right _ _
  have moved : ((front ++ gap ++ run ++ tail).drop (front ++ gap).length).take run.length = run := by
    rw [List.append_assoc (front ++ gap),List.drop_left,List.take_left]
  have shape : front ++ gap ++ run ++ tail = front ++ (gap ++ run ++ tail) := by rw [List.append_assoc,List.append_assoc,List.append_assoc]
  obtain ⟨rest,stored,length⟩ := store_next front
    (by rw [List.length_append,List.length_append]; omega : run.length ≤ (gap ++ run ++ tail).length)
  rw [move,if_pos inside,moved,shape]
  refine ⟨rest,stored,?_⟩
  rw [List.length_append,List.length_append] at length
  omega

/-- Moving a run on by one place opens a gap before it. -/
theorem move_opens (front run tail : List α) (x : α) :
    ∃ y, move (front ++ run ++ x :: tail) (front.length + 1) front.length run.length = some (front ++ y :: run ++ tail) := by
  have inside : front.length + run.length ≤ (front ++ run ++ x :: tail).length := by
    simp only [List.length_append]
    omega
  have moved : ((front ++ run ++ x :: tail).drop front.length).take run.length = run := by
    rw [List.append_assoc,List.drop_left,List.take_left]
  obtain ⟨y,old,shape⟩ : ∃ y old, run ++ [x] = y :: old := by
    cases run with
    | nil => exact ⟨x,[],rfl⟩
    | cons z run => exact ⟨z,run ++ [x],rfl⟩
  have length : old.length = run.length := by
    have both := congrArg List.length shape
    simp only [List.length_append,List.length_cons,List.length_nil] at both
    omega
  have whole : front ++ run ++ x :: tail = (front ++ [y]) ++ old ++ tail := by
    have split : front ++ run ++ x :: tail = front ++ (run ++ [x]) ++ tail := by simp
    rw [split,shape]
    simp
  have place : front.length + 1 = (front ++ [y]).length := by rw [List.length_append,List.length_singleton]
  refine ⟨y,?_⟩
  rw [move,if_pos inside,moved,whole,place,store_append length]
  simp

end

end AnotherC.Lib.Splice
