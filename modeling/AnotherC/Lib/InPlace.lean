import AnotherC.Lib.Text

/-!
A text that is rewritten in place: behind a part that stays stand the bytes that were
written, a gap, and the bytes that are still to be read. What is written goes into the gap,
or over the byte that was read last.
-/
namespace AnotherC.Lib.InPlace
open AnotherC.Lib.Text

variable {α : Type} (front written gap : List α) (c x : α) (rest : List α)

/-- The byte that is read next. -/
theorem read_rest : (front ++ written ++ gap ++ c :: rest)[front.length + written.length + gap.length]? = some c := by
  have length : (front ++ written ++ gap).length = front.length + written.length + gap.length := by
    rw [List.length_append,List.length_append]
  rw [List.getElem?_append_right (Nat.le_of_eq length),length,Nat.sub_self]
  rfl

/-- The gap when a byte was read and one was written. -/
def shifted (gap : List α) (c : α) : List α := (gap ++ [c]).tail

@[simp] theorem shifted_length : (shifted gap c).length = gap.length := by
  rw [shifted,List.length_tail,List.length_append,List.length_singleton,Nat.add_sub_cancel]

theorem set_written :
    (front ++ written ++ gap ++ c :: rest).set (front.length + written.length) x =
      front ++ (written ++ [x]) ++ shifted gap c ++ rest := by
  have length : (front ++ written).length = front.length + written.length := List.length_append
  have split : front ++ written ++ gap ++ c :: rest = (front ++ written) ++ (gap ++ [c] ++ rest) := by
    simp only [List.append_assoc,List.singleton_append]
  rw [split,List.set_append_right _ _ (Nat.le_of_eq length),length,Nat.sub_self,shifted]
  cases gap with
  | nil => simp
  | cons g gap => simp

/-- A string stands at an offset, with its NUL. -/
def Cut (bytes : List UInt8) (p : Nat) (s : Text) : Prop := 0 ∉ s ∧ ∃ more, bytes.drop p = s ++ 0 :: more

theorem Cut.stringAt {bytes : List UInt8} {p : Nat} {s : Text} (cut : Cut bytes p s) : Text.stringAt bytes p = s := by
  obtain ⟨free,more,split⟩ := cut
  rw [Text.stringAt,split,List.takeWhile_append_of_pos,List.takeWhile_cons_of_neg (by simp),List.append_nil]
  intro c inside
  simpa using fun zero : c = 0 => free (zero ▸ inside)

theorem Cut.here (front : List UInt8) {s : Text} (free : 0 ∉ s) (more : List UInt8) : Cut (front ++ s ++ 0 :: more) front.length s :=
  ⟨free,more,by rw [List.append_assoc,List.drop_left]⟩

end AnotherC.Lib.InPlace
