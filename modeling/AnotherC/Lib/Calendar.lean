import Mathlib

/-!
The Gregorian calendar: days are counted from the first of January of the year 1, years before
it included. A day is written as a year and the days before it in that year, and these as a
month and a day of the month; and it is counted back.
-/
namespace AnotherC.Lib.Calendar

def isLeap (year : Int) : Bool := year % 4 = 0 && (year % 100 ≠ 0 || year % 400 = 0)

def monthLengths (year : Int) : List Nat := [31,if isLeap year then 29 else 28,31,30,31,30,31,31,30,31,30,31]

/-- The days before the first of January. -/
def daysBeforeYear (year : Int) : Int := 365 * (year - 1) + (year - 1) / 4 - (year - 1) / 100 + (year - 1) / 400

/-- The year of a day: 400 years have 146097 days, a century has a day less than a quarter of
    them, four years have 1461 days and a year has a day less than a quarter of these; so the
    last century and the last year are one day longer. -/
def yearOf (day : Int) : Int :=
  let doe := day % 146097
  let century := min 3 (doe / 36524)
  let doc := doe - 36524 * century
  let year := min 3 (doc % 1461 / 365)
  400 * (day / 146097) + 100 * century + 4 * (doc / 1461) + year + 1

/-- The month and the days before a day in it, from the lengths of the months. -/
def monthOf : List Nat → Nat → Nat × Nat
  | [], n => (0,n)
  | length :: rest, n => if n < length then (0,n) else ((monthOf rest (n - length)).1 + 1,(monthOf rest (n - length)).2)

theorem monthOf_sum (lengths : List Nat) (n : Nat) : (lengths.take (monthOf lengths n).1).sum + (monthOf lengths n).2 = n := by
  induction lengths generalizing n with
  | nil => simp [monthOf]
  | cons length rest ih =>
    rw [monthOf]
    split
    case isTrue => simp
    case isFalse full =>
      have later := ih (n - length)
      rw [List.take_succ_cons,List.sum_cons]
      omega

/-- A day of the year is a day of one of its months. -/
theorem monthOf_inside {lengths : List Nat} {n : Nat} (inside : n < lengths.sum) :
    ∃ length, lengths[(monthOf lengths n).1]? = some length ∧ (monthOf lengths n).2 < length := by
  induction lengths generalizing n with
  | nil => exact absurd inside (Nat.not_lt_zero n)
  | cons length rest ih =>
    rw [List.sum_cons] at inside
    rw [monthOf]
    split
    case isTrue less => exact ⟨length,rfl,less⟩
    case isFalse full =>
      obtain ⟨here,found,less⟩ := ih (n := n - length) (by omega)
      exact ⟨here,found,less⟩

theorem monthLengths_sum (year : Int) : (monthLengths year).sum = if isLeap year then 366 else 365 := by
  rw [monthLengths]
  split <;> rfl

theorem monthLengths_le {year : Int} {month length : Nat} (found : (monthLengths year)[month]? = some length) : length ≤ 31 := by
  have member := List.mem_of_getElem? found
  simp only [monthLengths,List.mem_cons,List.not_mem_nil,or_false] at member
  split at member <;> omega

/-- The days before a year that is so many centuries, fours and years behind a multiple of 400. -/
theorem daysBeforeYear_parts {e c q y : Int} (centuries : 0 ≤ c ∧ c ≤ 3) (fours : 0 ≤ q ∧ q ≤ 24) (years : 0 ≤ y ∧ y ≤ 3) :
    daysBeforeYear (400 * e + 100 * c + 4 * q + y + 1) = 146097 * e + 36524 * c + 1461 * q + 365 * y := by
  have quarter : (400 * e + 100 * c + 4 * q + y) / 4 = 100 * e + 25 * c + q := by omega
  have century : (400 * e + 100 * c + 4 * q + y) / 100 = 4 * e + c := by omega
  have era : (400 * e + 100 * c + 4 * q + y) / 400 = e := by omega
  rw [daysBeforeYear,Int.add_sub_cancel,quarter,century,era]
  omega

/-- The last of four years is a leap year, but for the last of a century that is not the last of
    four. -/
theorem isLeap_parts {e c q : Int} (fours : 0 ≤ q ∧ q ≤ 24) (last : q = 24 → c = 3) :
    isLeap (400 * e + 100 * c + 4 * q + 3 + 1) = true := by
  have four : (400 * e + 100 * c + 4 * q + 3 + 1) % 4 = 0 := by omega
  have century : (400 * e + 100 * c + 4 * q + 3 + 1) % 100 ≠ 0 ∨ (400 * e + 100 * c + 4 * q + 3 + 1) % 400 = 0 := by omega
  simpa [isLeap,four] using century

/-- The centuries, fours and years of a day, and the days that are left. -/
theorem yearOf_parts (day : Int) : ∃ e c q y rest : Int, yearOf day = 400 * e + 100 * c + 4 * q + y + 1 ∧ (0 ≤ c ∧ c ≤ 3) ∧ (0 ≤ q ∧ q ≤ 24) ∧
    (0 ≤ y ∧ y ≤ 3) ∧ day = 146097 * e + 36524 * c + 1461 * q + 365 * y + rest ∧ 0 ≤ rest ∧
      (rest ≤ 364 ∨ y = 3 ∧ rest = 365 ∧ (q = 24 → c = 3)) := by
  simp only [yearOf]
  generalize doe_ : day % 146097 = doe
  generalize era : day / 146097 = e
  generalize century_ : min 3 (doe / 36524) = c
  generalize doc_ : doe - 36524 * c = doc
  generalize four_ : doc / 1461 = q
  generalize doq_ : doc % 1461 = doq
  generalize year_ : min 3 (doq / 365) = y
  have whole : day = 146097 * e + doe := by omega
  have ofEra : 0 ≤ doe ∧ doe ≤ 146096 := by omega
  have centuries : 0 ≤ c ∧ c ≤ 3 ∧ 0 ≤ doc ∧ (doc ≤ 36523 ∨ c = 3 ∧ doc = 36524) := by omega
  have fours : 0 ≤ q ∧ q ≤ 24 ∧ doc = 1461 * q + doq ∧ 0 ≤ doq ∧ doq ≤ 1460 := by omega
  have years : 0 ≤ y ∧ y ≤ 3 ∧ 0 ≤ doq - 365 * y ∧ (doq - 365 * y ≤ 364 ∨ y = 3 ∧ doq = 1460) := by omega
  refine ⟨e,c,q,y,doq - 365 * y,rfl,⟨centuries.1,centuries.2.1⟩,⟨fours.1,fours.2.1⟩,⟨years.1,years.2.1⟩,?_,years.2.2.1,?_⟩
  · omega
  · omega

/-- A day is a day of its year. -/
theorem yearOf_spec (day : Int) : daysBeforeYear (yearOf day) ≤ day ∧
    day < daysBeforeYear (yearOf day) + if isLeap (yearOf day) then 366 else 365 := by
  obtain ⟨e,c,q,y,rest,year,centuries,fours,years,whole,first,last⟩ := yearOf_parts day
  have before : daysBeforeYear (yearOf day) = 146097 * e + 36524 * c + 1461 * q + 365 * y := by
    rw [year]
    exact daysBeforeYear_parts centuries fours years
  refine ⟨by omega,?_⟩
  rcases last with common | ⟨rfl,last,century⟩
  · split <;> omega
  · have leap : isLeap (yearOf day) = true := by
      rw [year]
      exact isLeap_parts fours century
    rw [if_pos leap]
    omega

/-- A year, a month from 0 on, and the days before a day in its month. -/
structure Date where
  year : Int
  month : Nat
  before : Nat
deriving Repr, DecidableEq

def dateOf (day : Int) : Date :=
  let parts := monthOf (monthLengths (yearOf day)) (day - daysBeforeYear (yearOf day)).toNat
  ⟨yearOf day,parts.1,parts.2⟩

def dayOf (date : Date) : Int := daysBeforeYear date.year + ((monthLengths date.year).take date.month).sum + date.before

/-- A day is counted back from its date. -/
theorem dayOf_dateOf (day : Int) : dayOf (dateOf day) = day := by
  have sum := monthOf_sum (monthLengths (yearOf day)) (day - daysBeforeYear (yearOf day)).toNat
  have first := (yearOf_spec day).1
  simp only [dayOf,dateOf]
  omega

/-- The date of a day has a month and a day of that month. -/
theorem dateOf_inside (day : Int) : (dateOf day).month < 12 ∧ (dateOf day).before < 31 := by
  obtain ⟨first,last⟩ := yearOf_spec day
  have inside : (day - daysBeforeYear (yearOf day)).toNat < (monthLengths (yearOf day)).sum := by
    rw [monthLengths_sum]
    by_cases leap : isLeap (yearOf day) = true
    · rw [if_pos leap] at last ⊢
      omega
    · rw [if_neg leap] at last ⊢
      omega
  obtain ⟨length,found,less⟩ := monthOf_inside inside
  obtain ⟨within,-⟩ := List.getElem?_eq_some_iff.mp found
  exact ⟨within,Nat.lt_of_lt_of_le less (monthLengths_le found)⟩

end AnotherC.Lib.Calendar
