import AnotherC.Json.Numbers
import AnotherC.Lib.Calendar

/-!
# `ac_date_time` and `ac_date_time_as_time_t`

A time is printed in 19 bytes and read back as a date and a time of day. Each part says with the
default value of the caller that it could not be read, so that a part which is the default value
is taken for one that could not.
-/
namespace AnotherC.Conv
open AnotherC.AcJson (isDigit)
open AnotherC.JsonNumbers (decimal digit_toNat digit_isDigit)
open AnotherC.Lib.Calendar
open AnotherC.Lib.Text
set_option linter.unusedVariables false

/-! ## What the library gives -/

/-- `struct tm`. -/
structure Tm where
  tmYear : Int
  tmMon : Int
  tmMday : Int
  tmHour : Int
  tmMin : Int
  tmSec : Int
deriving Repr, DecidableEq

/-- The first of January 1970. -/
def epoch : Int := daysBeforeYear 1970

/-- `gmtime_r`. -/
def gmtimeR (ts : Int) : Tm :=
  let date := dateOf (ts / 86400 + epoch)
  let rem := ts % 86400
  ⟨date.year - 1900,date.month,date.before + 1,rem / 3600,rem % 3600 / 60,rem % 60⟩

/-- `timegm`, which takes months behind the twelfth and days behind the last of a month, too. -/
def timegm (t : Tm) : Int :=
  let first := dayOf ⟨t.tmYear + 1900 + t.tmMon / 12,(t.tmMon % 12).toNat,0⟩
  (first + (t.tmMday - 1) - epoch) * 86400 + t.tmHour * 3600 + t.tmMin * 60 + t.tmSec

/-- `%0wd`. -/
def padded (w : Nat) (n : Int) : Text :=
  let sign : Text := if n < 0 then [45] else []
  sign ++ List.replicate (w - sign.length - (decimal n.natAbs).length) 48 ++ decimal n.natAbs

/-! ## The code -/

/-- `ac_date_time`: `snprintf` writes at most 19 bytes and the NUL. -/
def acDateTime (ts : Int) : List UInt8 :=
  let t := gmtimeR ts
  (padded 4 (t.tmYear + 1900) ++ [45] ++ padded 2 (t.tmMon + 1) ++ [45] ++ padded 2 t.tmMday ++ [32] ++
    padded 2 t.tmHour ++ [58] ++ padded 2 t.tmMin ++ [58] ++ padded 2 t.tmSec).take 19 ++ [0]

/-- The tests of one byte after the other, up to the first one that fails. -/
def passes : List (UInt8 → Bool) → List UInt8 → Option Bool
  | [], _ => some true
  | _ :: _, [] => none
  | test :: tests, c :: value => if test c then passes tests value else some false

def isByte (d c : UInt8) : Bool := c = d

/-- `value[i] - '0'`. -/
def digit (value : List UInt8) (i : Nat) : Nat := (value.getD i 0).toNat - 48

/-- `ac_time_of_day_as_time_t`. -/
def acTimeOfDayAsTimeT (value : List UInt8) (default_value : Int) : Option Int := do
  let read ← passes [isDigit,isDigit,isByte 58,isDigit,isDigit,isByte 58,isDigit,isDigit] value
  if read then
    let hour := digit value 0 * 10 + digit value 1
    let minute := digit value 3 * 10 + digit value 4
    let second := digit value 6 * 10 + digit value 7
    some (Int.ofNat ((hour * 3600 + minute * 60 + second) % 2 ^ 32))
  else some default_value

/-- A sum in `uint32_t`, as an `int`. -/
def asInt (n : Int) : Int := (n + 2 ^ 31) % 2 ^ 32 - 2 ^ 31

/-- `ac_date_as_time_t`. -/
def acDateAsTimeT (value : List UInt8) (default_value : Int) : Option Int := do
  let read ← passes [isDigit,isDigit,isDigit,isDigit,isByte 45,isDigit,isDigit,isByte 45,isDigit,isDigit] value
  if read then
    let year := digit value 0 * 1000 + digit value 1 * 100 + digit value 2 * 10 + digit value 3
    let month := digit value 5 * 10 + digit value 6
    let day := digit value 8 * 10 + digit value 9
    some (timegm ⟨asInt (year - 1900),asInt (month - 1),asInt day,0,0,0⟩)
  else some default_value

/-- `ac_date_time_as_time_t`. -/
def acDateTimeAsTimeT (value : List UInt8) (default_value : Int) : Option Int := do
  let a ← acDateAsTimeT value default_value
  if a = default_value then some default_value
  else do
    let b ← acTimeOfDayAsTimeT (value.drop 11) default_value
    if b = default_value then some a else some (a + b)

/-! ## Printed numbers -/

/-- The last digits of a number. -/
def lastDigits : Nat → Nat → Text
  | 0, _ => []
  | w + 1, n => lastDigits w (n / 10) ++ [UInt8.ofNat (48 + n % 10)]

theorem decimal_small {n : Nat} (small : n < 10) : decimal n = [UInt8.ofNat (48 + n)] := by
  rw [decimal]
  by_cases zero : n = 0
  · rw [if_pos zero,zero]
    rfl
  · rw [if_neg zero,Nat.digits_of_lt 10 n zero small]
    rfl

theorem decimal_more {n : Nat} (large : 10 ≤ n) : decimal n = decimal (n / 10) ++ [UInt8.ofNat (48 + n % 10)] := by
  have some_ : n ≠ 0 := by omega
  have more : n / 10 ≠ 0 := by omega
  rw [decimal,decimal,if_neg some_,if_neg more,Nat.digits_def' (by decide) (by omega)]
  simp

theorem lastDigits_zero (w : Nat) : lastDigits w 0 = List.replicate w 48 := by
  induction w with
  | zero => rfl
  | succ w ih =>
    rw [lastDigits,Nat.zero_div,ih,List.replicate_succ']
    rfl

/-- A number with no more digits than its width is printed as so many digits. -/
theorem padded_digits {w n : Nat} (positive : 0 < w) (small : n < 10 ^ w) : padded w n = lastDigits w n := by
  have sign : ¬ (n : Int) < 0 := by omega
  rw [padded]
  simp only [if_neg sign,Int.natAbs_natCast,List.length_nil,Nat.sub_zero,List.nil_append]
  induction w generalizing n with
  | zero => exact absurd positive (Nat.lt_irrefl 0)
  | succ w ih =>
    by_cases less : n < 10
    · have zero : n / 10 = 0 := by omega
      have same : n % 10 = n := by omega
      rw [decimal_small less,lastDigits,zero,lastDigits_zero,same]
      rfl
    · have wide : 0 < w := by
        by_contra none_
        obtain rfl : w = 0 := by omega
        omega
      have less' : n / 10 < 10 ^ w := by
        rw [Nat.pow_succ] at small
        omega
      have shorter := ih wide less' (by omega)
      rw [decimal_more (Nat.not_lt.mp less),lastDigits,← shorter,List.length_append,List.length_singleton,Nat.add_sub_add_right,
        List.append_assoc]

/-! ## What is read back -/

/-- The fields of a time, as they are printed. -/
structure Fields where
  year : Nat
  month : Nat
  day : Nat
  hour : Nat
  minute : Nat
  second : Nat

/-- The fields have as many digits as they are given. -/
structure Fits (f : Fields) : Prop where
  year : f.year < 10 ^ 4
  month : f.month < 10 ^ 2
  day : f.day < 10 ^ 2
  hour : f.hour < 10 ^ 2
  minute : f.minute < 10 ^ 2
  second : f.second < 10 ^ 2

def dateText (f : Fields) : Text := lastDigits 4 f.year ++ [45] ++ lastDigits 2 f.month ++ [45] ++ lastDigits 2 f.day

def timeText (f : Fields) : Text := lastDigits 2 f.hour ++ [58] ++ lastDigits 2 f.minute ++ [58] ++ lastDigits 2 f.second

/-- The byte of a digit. -/
def byte (n : Nat) : UInt8 := UInt8.ofNat (48 + n % 10)

theorem byte_isDigit (n : Nat) : isDigit (byte n) = true := digit_isDigit (Nat.mod_lt n (by decide))

theorem byte_value (n : Nat) : (byte n).toNat - 48 = n % 10 := by
  rw [byte,digit_toNat (Nat.mod_lt n (by decide)),Nat.add_sub_cancel_left]

theorem lastDigits_two (n : Nat) : lastDigits 2 n = [byte (n / 10),byte n] := rfl

theorem lastDigits_four (n : Nat) : lastDigits 4 n = [byte (n / 10 / 10 / 10),byte (n / 10 / 10),byte (n / 10),byte n] := rfl

section
variable (f : Fields) (fits : Fits f)
include fits

theorem time_read (rest : List UInt8) (default_value : Int) :
    acTimeOfDayAsTimeT (timeText f ++ rest) default_value = some (Int.ofNat (f.hour * 3600 + f.minute * 60 + f.second)) := by
  obtain ⟨-,-,-,hours,minutes,seconds⟩ := fits
  have hour : f.hour / 10 % 10 * 10 + f.hour % 10 = f.hour := by omega
  have minute : f.minute / 10 % 10 * 10 + f.minute % 10 = f.minute := by omega
  have second : f.second / 10 % 10 * 10 + f.second % 10 = f.second := by omega
  have small : (f.hour * 3600 + f.minute * 60 + f.second) % 2 ^ 32 = f.hour * 3600 + f.minute * 60 + f.second := by omega
  simp [acTimeOfDayAsTimeT,timeText,lastDigits_two,passes,byte_isDigit,isByte,digit,byte_value,hour,minute,second]
  omega

theorem date_read (rest : List UInt8) (default_value : Int) :
    acDateAsTimeT (dateText f ++ rest) default_value = some (timegm ⟨f.year - 1900,f.month - 1,f.day,0,0,0⟩) := by
  obtain ⟨years,months,days,-⟩ := fits
  have year : f.year / 10 / 10 / 10 % 10 * 1000 + f.year / 10 / 10 % 10 * 100 + f.year / 10 % 10 * 10 + f.year % 10 = f.year := by omega
  have month : f.month / 10 % 10 * 10 + f.month % 10 = f.month := by omega
  have day : f.day / 10 % 10 * 10 + f.day % 10 = f.day := by omega
  have read : acDateAsTimeT (dateText f ++ rest) default_value =
      some (timegm ⟨asInt ((f.year : Nat) - 1900),asInt ((f.month : Nat) - 1),asInt (f.day : Nat),0,0,0⟩) := by
    rw [← year,← month,← day]
    simp [acDateAsTimeT,dateText,lastDigits_two,lastDigits_four,passes,byte_isDigit,isByte,digit,byte_value,year,month,day]
  have asYear : asInt ((f.year : Nat) - 1900) = f.year - 1900 := by
    rw [asInt]
    omega
  have asMonth : asInt ((f.month : Nat) - 1) = f.month - 1 := by
    rw [asInt]
    omega
  have asDay : asInt (f.day : Nat) = f.day := by
    rw [asInt]
    omega
  rw [read,asYear,asMonth,asDay]

end

/-! ## The round trip -/

/-- The time is in the years 0000 to 9999. -/
def InYears (ts : Int) : Prop := 0 ≤ (gmtimeR ts).tmYear + 1900 ∧ (gmtimeR ts).tmYear + 1900 ≤ 9999

/-- The fields of `gmtime_r` as they are printed. -/
def fieldsOf (ts : Int) : Fields :=
  let date := dateOf (ts / 86400 + epoch)
  let rem := (ts % 86400).toNat
  ⟨date.year.toNat,date.month + 1,date.before + 1,rem / 3600,rem % 3600 / 60,rem % 60⟩

theorem fieldsOf_fits {ts : Int} (inYears : InYears ts) : Fits (fieldsOf ts) := by
  obtain ⟨month,before⟩ := dateOf_inside (ts / 86400 + epoch)
  obtain ⟨first,last⟩ := inYears
  simp only [gmtimeR] at first last
  refine ⟨?_,?_,?_,?_,?_,?_⟩ <;> simp only [fieldsOf] <;> omega

/-- Every field is printed with all its digits, and all of them in 19 bytes. -/
theorem acDateTime_fields {ts : Int} (inYears : InYears ts) : acDateTime ts = dateText (fieldsOf ts) ++ 32 :: (timeText (fieldsOf ts) ++ [0]) := by
  have fits := fieldsOf_fits inYears
  obtain ⟨first,last⟩ := inYears
  have year : (gmtimeR ts).tmYear + 1900 = ((fieldsOf ts).year : Int) := by
    simp only [gmtimeR,fieldsOf] at first ⊢
    omega
  have month : (gmtimeR ts).tmMon + 1 = ((fieldsOf ts).month : Int) := rfl
  have day : (gmtimeR ts).tmMday = ((fieldsOf ts).day : Int) := rfl
  have hour : (gmtimeR ts).tmHour = ((fieldsOf ts).hour : Int) := by
    simp only [gmtimeR,fieldsOf]
    omega
  have minute : (gmtimeR ts).tmMin = ((fieldsOf ts).minute : Int) := by
    simp only [gmtimeR,fieldsOf]
    omega
  have second : (gmtimeR ts).tmSec = ((fieldsOf ts).second : Int) := by
    simp only [gmtimeR,fieldsOf]
    omega
  simp only [acDateTime,year,month,day,hour,minute,second]
  rw [padded_digits (by decide) fits.year,padded_digits (by decide) fits.month,padded_digits (by decide) fits.day,
    padded_digits (by decide) fits.hour,padded_digits (by decide) fits.minute,padded_digits (by decide) fits.second]
  rfl

/-- The date that is printed is that of the last midnight. -/
theorem timegm_date {ts : Int} (inYears : InYears ts) :
    timegm ⟨(fieldsOf ts).year - 1900,(fieldsOf ts).month - 1,(fieldsOf ts).day,0,0,0⟩ = ts - ts % 86400 := by
  have inside := (dateOf_inside (ts / 86400 + epoch)).1
  have back := dayOf_dateOf (ts / 86400 + epoch)
  have first := inYears.1
  simp only [gmtimeR] at first
  simp only [fieldsOf,timegm]
  generalize dateOf (ts / 86400 + epoch) = date at inside back first
  have year : (date.year.toNat : Int) - 1900 + 1900 + ((date.month + 1 : Nat) - 1 : Int) / 12 = date.year := by omega
  have month : (((date.month + 1 : Nat) - 1 : Int) % 12).toNat = date.month := by omega
  rw [year,month]
  simp only [dayOf] at back ⊢
  omega

theorem seconds_of_day (ts : Int) : Int.ofNat ((fieldsOf ts).hour * 3600 + (fieldsOf ts).minute * 60 + (fieldsOf ts).second) = ts % 86400 := by
  simp only [fieldsOf,Int.ofNat_eq_natCast]
  omega

/-- What is read back: a part that is the default value ends it. -/
theorem read_back {ts : Int} (inYears : InYears ts) (default_value : Int) :
    acDateTimeAsTimeT (acDateTime ts) default_value = some (if ts - ts % 86400 = default_value then default_value
      else if ts % 86400 = default_value then ts - ts % 86400 else ts) := by
  have fits := fieldsOf_fits inYears
  have behind : (dateText (fieldsOf ts) ++ 32 :: (timeText (fieldsOf ts) ++ [0])).drop 11 = timeText (fieldsOf ts) ++ [0] := rfl
  rw [acDateTime_fields inYears,acDateTimeAsTimeT,date_read _ fits,timegm_date inYears,behind,time_read _ fits,seconds_of_day]
  simp only [Option.bind_eq_bind,Option.bind_some,Int.sub_add_cancel]
  split
  · rfl
  · split <;> rfl

/-- A time in the years 0000 to 9999 is read back exactly when it is a midnight, or the default
    value is neither the last midnight nor the seconds of the day. -/
theorem round_trip_iff (ts default_value : Int) (inYears : InYears ts) :
    acDateTimeAsTimeT (acDateTime ts) default_value = some ts ↔
      ts % 86400 = 0 ∨ default_value ≠ ts - ts % 86400 ∧ default_value ≠ ts % 86400 := by
  rw [read_back inYears,Option.some.injEq]
  by_cases midnight : ts - ts % 86400 = default_value
  · rw [if_pos midnight]
    omega
  · rw [if_neg midnight]
    by_cases seconds : ts % 86400 = default_value
    · rw [if_pos seconds]
      omega
    · rw [if_neg seconds]
      omega

theorem first_inYears : InYears 1 := by
  unfold InYears
  decide +kernel

/-- The first second of 1970, with -1 for what cannot be read. -/
theorem round_trip_first : acDateTimeAsTimeT (acDateTime 1) (-1) = some 1 :=
  (round_trip_iff 1 (-1) first_inYears).mpr (.inr (by decide))

/-- The same second, with 0: the date is taken for one that cannot be read. -/
theorem first_lost : acDateTimeAsTimeT (acDateTime 1) 0 ≠ some 1 := by
  rw [read_back first_inYears]
  decide

end AnotherC.Conv
