import Mathlib.Data.List.Infix

/-!
A text that is decoded unit by unit. A unit is a symbol together with some of the symbols
behind it, and it stands for one symbol.
-/
namespace AnotherC.Lib.Units

variable {α β : Type} (unit : α → List α → β × Nat)

/-- What a text stands for, behind the symbols that the unit before it has taken. -/
def decoded : Nat → List α → List β
  | _, [] => []
  | k + 1, c :: s => decoded k s
  | 0, c :: s => (unit c s).1 :: decoded (unit c s).2 s

theorem decoded_nil (k : Nat) : decoded unit k [] = [] := by
  cases k <;> rfl

theorem decoded_length (k : Nat) (s : List α) : (decoded unit k s).length ≤ s.length := by
  induction s generalizing k with
  | nil => rw [decoded_nil,List.length_nil,List.length_nil]
  | cons c s ih =>
    cases k with
    | succ k => exact Nat.le_succ_of_le (ih k)
    | zero => exact Nat.succ_le_succ (ih _)

/-- The symbols that a unit takes are missing in the result. -/
theorem decoded_shorter (k : Nat) (s : List α) (inside : k ≤ s.length) : (decoded unit k s).length + k ≤ s.length := by
  induction s generalizing k with
  | nil =>
    rw [decoded_nil]
    exact (Nat.zero_add k).trans_le inside
  | cons c s ih =>
    rw [List.length_cons] at inside ⊢
    cases k with
    | succ k =>
      have later := ih k (by omega)
      rw [decoded]
      omega
    | zero => exact Nat.succ_le_succ (decoded_length unit _ s)

/-- Every symbol of the result is one that a unit stands for. -/
theorem mem_decoded {d : β} {k : Nat} {s : List α} (member : d ∈ decoded unit k s) : ∃ c rest, c ∈ s ∧ d = (unit c rest).1 := by
  induction s generalizing k with
  | nil =>
    rw [decoded_nil] at member
    cases member
  | cons c s ih =>
    cases k with
    | succ k =>
      obtain ⟨e,rest,inside,same⟩ := ih member
      exact ⟨e,rest,List.mem_cons_of_mem _ inside,same⟩
    | zero =>
      rcases List.mem_cons.mp member with rfl | later
      · exact ⟨c,s,List.mem_cons_self,rfl⟩
      · obtain ⟨e,rest,inside,same⟩ := ih later
        exact ⟨e,rest,List.mem_cons_of_mem _ inside,same⟩

/-- The result is as long as the text exactly if no unit takes a symbol behind it. -/
theorem decoded_full {unit : α → List α → β × Nat} (fits : ∀ c s, (unit c s).2 ≤ s.length) (s : List α) :
    (decoded unit 0 s).length = s.length ↔ ∀ c rest, c :: rest <:+ s → (unit c rest).2 = 0 := by
  induction s with
  | nil => simp [decoded]
  | cons c s ih =>
    constructor
    · intro full d rest suffix
      rw [decoded,List.length_cons,List.length_cons,Nat.succ_inj] at full
      have shorter := decoded_shorter unit _ s (fits c s)
      have here : (unit c s).2 = 0 := by omega
      rw [here] at full
      rcases List.suffix_cons_iff.mp suffix with whole | later
      · cases whole
        exact here
      · exact ih.mp full d rest later
    · intro plain
      have here := plain c s (List.suffix_refl _)
      rw [decoded,here,List.length_cons,List.length_cons,ih.mpr fun d rest suffix => plain d rest (suffix.trans (List.suffix_cons c s))]

end AnotherC.Lib.Units
