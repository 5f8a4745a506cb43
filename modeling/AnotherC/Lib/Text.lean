import AnotherC.Lib.Order

/-!
C strings: byte lists without a NUL, `strcmp`, and strings one after the other in
memory, each ended by its NUL.
-/
namespace AnotherC.Lib.Text
open AnotherC.Lib.Order (Total)

/-- The bytes of a string before its NUL. -/
abbrev Text := List UInt8

/-- The first difference decides, as unsigned bytes; a string comes after its
    beginnings. -/
def strcmp : Text → Text → Int
  | [], [] => 0
  | [], _ :: _ => -1
  | _ :: _, [] => 1
  | a :: as, b :: bs => if a.toNat < b.toNat then -1 else if b.toNat < a.toNat then 1 else strcmp as bs

theorem strcmp_zero {a b : Text} : strcmp a b = 0 ↔ a = b := by
  induction a generalizing b with
  | nil => cases b <;> simp [strcmp]
  | cons x a ih =>
    cases b with
    | nil => simp [strcmp]
    | cons y b =>
      rw [strcmp,List.cons.injEq,← ih,← UInt8.toNat_inj]
      split
      · simp only [Int.reduceNeg,Int.reduceEq,false_iff,not_and]
        omega
      · split
        · simp only [Int.reduceEq,false_iff,not_and]
          omega
        · exact ⟨fun same => ⟨by omega,same⟩,fun both => both.2⟩

theorem strcmp_total : Total strcmp where
  swap a b := by
    induction a generalizing b with
    | nil => cases b <;> simp [strcmp]
    | cons x a ih =>
      cases b with
      | nil => simp [strcmp]
      | cons y b =>
        rw [strcmp,strcmp]
        by_cases less : x.toNat < y.toNat
        · have notMore : ¬ y.toNat < x.toNat := by omega
          simp [less,notMore]
        · by_cases more : y.toNat < x.toNat
          · simp [less,more]
          · simpa [less,more] using ih b
  trans a b c ab bc := by
    induction a generalizing b c with
    | nil => cases c <;> simp [strcmp]
    | cons x a ih =>
      cases b with
      | nil => simp [strcmp] at ab
      | cons y b =>
        cases c with
        | nil => simp [strcmp] at bc
        | cons z c =>
          rw [strcmp] at ab bc ⊢
          by_cases less : x.toNat < z.toNat
          · simp [less]
          · have first : x.toNat = y.toNat ∧ y.toNat = z.toNat := by
              constructor
              · split at ab <;> split at bc <;> omega
              · split at ab <;> split at bc <;> omega
            simp only [first.1,first.2,Nat.lt_irrefl,if_false] at ab bc ⊢
            exact ih b c ab bc

/-- The string that begins at an offset. -/
def stringAt (all : List UInt8) (offset : Nat) : Text := (all.drop offset).takeWhile (· ≠ 0)

/-- The strings one after the other. -/
def joined (strings : List Text) : List UInt8 := strings.flatMap (· ++ [0])

@[simp] theorem joined_nil : joined [] = [] := rfl
@[simp] theorem joined_cons (s : Text) (strings : List Text) : joined (s :: strings) = s ++ 0 :: joined strings := by
  simp [joined]
@[simp] theorem joined_append (xs ys : List Text) : joined (xs ++ ys) = joined xs ++ joined ys := by
  simp [joined]

/-- A string is found where the ones before it end. -/
theorem stringAt_joined {before : List Text} {s : Text} {after : List Text} (free : 0 ∉ s) :
    stringAt (joined (before ++ s :: after)) (joined before).length = s := by
  rw [stringAt,joined_append,List.drop_left,joined_cons,List.takeWhile_append_of_pos]
  · simp
  · intro c member
    have nonzero : c ≠ 0 := fun zero => free (by rwa [← zero])
    simpa using nonzero

theorem stringAt_free (all : List UInt8) (offset : Nat) : 0 ∉ stringAt all offset := by
  intro member
  have all_ := List.all_takeWhile (p := fun c : UInt8 => decide (c ≠ 0)) (l := all.drop offset)
  have nonzero := List.all_eq_true.mp all_ 0 member
  simp at nonzero

end AnotherC.Lib.Text
