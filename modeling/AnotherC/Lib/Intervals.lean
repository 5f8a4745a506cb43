import Mathlib

/-!
Intervals of numbers, each given by its start and its length. Intervals that do not overlap
have room in what they lie in.
-/
namespace AnotherC.Lib.Intervals

def Apart (i j : Nat × Nat) : Prop := i.1 + i.2 ≤ j.1 ∨ j.1 + j.2 ≤ i.1

/-- The numbers in the intervals. -/
def points : List (Nat × Nat) → Finset Nat
  | [] => ∅
  | i :: l => Finset.Ico i.1 (i.1 + i.2) ∪ points l

theorem mem_points {l : List (Nat × Nat)} {n : Nat} : n ∈ points l ↔ ∃ i ∈ l, i.1 ≤ n ∧ n < i.1 + i.2 := by
  induction l with
  | nil => simp [points]
  | cons i l ih => simp [points,ih]

theorem points_card {l : List (Nat × Nat)} (apart : l.Pairwise Apart) : (points l).card = (l.map Prod.snd).sum := by
  induction l with
  | nil => rfl
  | cons i l ih =>
    obtain ⟨first,later⟩ := List.pairwise_cons.mp apart
    have disjoint : Disjoint (Finset.Ico i.1 (i.1 + i.2)) (points l) := by
      rw [Finset.disjoint_left]
      intro n here there
      obtain ⟨j,inside,low,high⟩ := mem_points.mp there
      rw [Finset.mem_Ico] at here
      rcases first j inside with before | behind
      · omega
      · omega
    rw [points,Finset.card_union_of_disjoint disjoint,ih later,Nat.card_Ico,Nat.add_sub_cancel_left,List.map_cons,List.sum_cons]

/-- Intervals that do not overlap are together no longer than what they lie in. -/
theorem sum_le {l : List (Nat × Nat)} (apart : l.Pairwise Apart) {low high : Nat} (inside : ∀ i ∈ l, low ≤ i.1 ∧ i.1 + i.2 ≤ high) :
    (l.map Prod.snd).sum ≤ high - low := by
  rw [← points_card apart,← Nat.card_Ico]
  apply Finset.card_le_card
  intro n member
  obtain ⟨i,within,first,last⟩ := mem_points.mp member
  have bounds := inside i within
  rw [Finset.mem_Ico]
  omega

end AnotherC.Lib.Intervals
