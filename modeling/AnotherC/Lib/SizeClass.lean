/-!
Size classes: a table of ascending capacities, and the first class that holds so many things.
When there is one thing more or less, the class is the same or the next one.
-/
namespace AnotherC.Lib.SizeClass

/-- The first class whose capacity is at least `n`. -/
structure IsClass (capacity : Nat → Nat) (n c : Nat) : Prop where
  fits : n ≤ capacity c
  least : ∀ b, b < c → capacity b < n

variable {capacity : Nat → Nat} {n c d : Nat}

/-- The classes below `top` ascend. -/
def Ascends (capacity : Nat → Nat) (top : Nat) : Prop := ∀ c, c < top → capacity c < capacity (c + 1)

theorem Ascends.lt {top : Nat} (ascends : Ascends capacity top) {b : Nat} (less : b < c) (inside : c ≤ top) : capacity b < capacity c := by
  induction c with
  | zero => exact absurd less (Nat.not_lt_zero b)
  | succ c ih =>
    have next := ascends c inside
    rcases Nat.lt_or_eq_of_le (Nat.le_of_lt_succ less) with before | same
    · exact Nat.lt_trans (ih before (Nat.le_of_succ_le inside)) next
    · rw [same]
      exact next

/-- The capacities of two classes differ. -/
theorem Ascends.inj {top : Nat} (ascends : Ascends capacity top) (insideC : c ≤ top) (insideD : d ≤ top)
    (same : capacity c = capacity d) : c = d := by
  rcases Nat.lt_trichotomy c d with less | equal | more
  · exact absurd same (Nat.ne_of_lt (ascends.lt less insideD))
  · exact equal
  · exact absurd same.symm (Nat.ne_of_lt (ascends.lt more insideC))

/-- The class of one more, where there is room. -/
theorem IsClass.stays (isClass : IsClass capacity n c) (room : n + 1 ≤ capacity c) : IsClass capacity (n + 1) c :=
  ⟨room,fun b less => Nat.lt_succ_of_lt (isClass.least b less)⟩

/-- The class of one more, where there is none. -/
theorem IsClass.grows {top : Nat} (ascends : Ascends capacity top) (isClass : IsClass capacity n c) (inside : c < top)
    (full : ¬ n + 1 ≤ capacity c) : IsClass capacity (n + 1) (c + 1) := by
  have fits := isClass.fits
  refine ⟨Nat.lt_of_le_of_lt fits (ascends c inside),fun b less => ?_⟩
  rcases Nat.lt_or_eq_of_le (Nat.le_of_lt_succ less) with before | same
  · exact Nat.lt_succ_of_lt (isClass.least b before)
  · rw [same]
    exact Nat.not_le.mp full

/-- The class of one less, where the class before is too small. -/
theorem IsClass.remains (isClass : IsClass capacity (n + 1) (c + 1)) {top : Nat} (ascends : Ascends capacity top) (inside : c ≤ top)
    (above : capacity c < n) : IsClass capacity n (c + 1) := by
  refine ⟨Nat.le_of_succ_le isClass.fits,fun b less => ?_⟩
  rcases Nat.lt_or_eq_of_le (Nat.le_of_lt_succ less) with before | same
  · exact Nat.lt_trans (ascends.lt before inside) above
  · rw [same]
    exact above

/-- The class of one less, where the class before is large enough. -/
theorem IsClass.shrinks (isClass : IsClass capacity (n + 1) (c + 1)) {top : Nat} (ascends : Ascends capacity top) (inside : c ≤ top)
    (room : n ≤ capacity c) : IsClass capacity n c := by
  refine ⟨room,fun b less => ?_⟩
  have last := isClass.least c (Nat.lt_succ_self c)
  exact Nat.lt_of_lt_of_le (ascends.lt less inside) (Nat.le_of_lt_succ last)

end AnotherC.Lib.SizeClass
