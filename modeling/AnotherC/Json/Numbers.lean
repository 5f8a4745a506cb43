import AnotherC.Json.Encode
import Mathlib.Data.Nat.Digits.Lemmas

/-!
# Numbers: `parse_int` to `parse_uint64`, and `ac_json_number`

The digit loops accumulate in a type of 32 or 64 bits without a look at its range, and an
empty loop leaves zero. `signed_exact_iff` and `unsigned_exact_iff` say which texts they
read as the numeral that these are.
-/
namespace AnotherC.JsonNumbers
open AnotherC.Lib.Text AnotherC.AcJson
set_option linter.unusedVariables false

/-! ## The accessors -/

/-- The loop over the digits in a signed type with this maximum: `none` is an overflow,
    and `some none` a byte that is no digit. -/
def signedDigits (max : Nat) : Nat → List UInt8 → Option (Option Nat)
  | num, [] => some (some num)
  | num, ch :: str =>
    if isDigit ch then
      if num * 10 + (ch.toNat - 48) > max then none else signedDigits max (num * 10 + (ch.toNat - 48)) str
    else some none

/-- The same loop in an unsigned type of so many bits. -/
def unsignedDigits (bits : Nat) : Nat → List UInt8 → Option Nat
  | num, [] => some num
  | num, ch :: str => if isDigit ch then unsignedDigits bits ((num * 10 + (ch.toNat - 48)) % 2 ^ bits) str else none

/-- The accessors of signed types, for a string that may be NULL. -/
def parseSigned (max : Nat) (str : Option (List UInt8)) (default_value : Int) : Option Int :=
  match str with
  | none => some default_value
  | some str =>
    if str.head? = some minus then (signedDigits max 0 str.tail).map fun num => (num.map fun n : Nat => -(n : Int)).getD default_value
    else (signedDigits max 0 str).map fun num => (num.map Int.ofNat).getD default_value

def parseUnsigned (bits : Nat) (str : Option (List UInt8)) (default_value : Int) : Option Int :=
  match str with
  | none => some default_value
  | some str => some (((unsignedDigits bits 0 str).map Int.ofNat).getD default_value)

def parseInt := parseSigned (2 ^ 31 - 1)
def parseInt32 := parseSigned (2 ^ 31 - 1)
def parseInt64 := parseSigned (2 ^ 63 - 1)
def parseUint32 := parseUnsigned 32
def parseUint64 := parseUnsigned 64

/-! ## Numerals -/

def valueFrom (num : Nat) (digits : List UInt8) : Nat := digits.foldl (fun num d => num * 10 + (d.toNat - 48)) num

/-- One digit or more. -/
def natural (str : List UInt8) : Option Nat :=
  if str ≠ [] ∧ str.all isDigit = true then some (valueFrom 0 str) else none

/-- A minus sign or none, and one digit or more. -/
def integer (str : List UInt8) : Option Int :=
  if str.head? = some minus then (natural str.tail).map fun n : Nat => -(n : Int) else (natural str).map Int.ofNat

/-- The text is read as its numeral if that is in the range of the type, else the default
    is returned. -/
def Exact (low high : Int) (numeral : List UInt8 → Option Int) (parse : Option (List UInt8) → Int → Option Int)
    (str : List UInt8) : Prop :=
  ∀ default_value, low ≤ default_value → default_value ≤ high →
    parse (some str) default_value =
      some (((numeral str).filter fun v => low ≤ v ∧ v ≤ high).getD default_value)

/-- What stands behind the sign. -/
def body (str : List UInt8) : List UInt8 := if str.head? = some minus then str.tail else str

/-- A value with the sign of its text. -/
def signed (str : List UInt8) (n : Nat) : Int := if str.head? = some minus then -(n : Int) else n

/-- There is something behind the sign, and its leading digits are in range. -/
def SignedFits (max : Nat) (str : List UInt8) : Prop := body str ≠ [] ∧ valueFrom 0 ((body str).takeWhile isDigit) ≤ max

/-- There is something, and it is in range if it is a numeral. -/
def UnsignedFits (bits : Nat) (str : List UInt8) : Prop := str ≠ [] ∧ (str.all isDigit = true → valueFrom 0 str < 2 ^ bits)

section
variable {max bits num : Nat} {str : List UInt8}

theorem valueFrom_cons (num : Nat) (d : UInt8) (digits : List UInt8) :
    valueFrom num (d :: digits) = valueFrom (num * 10 + (d.toNat - 48)) digits := by
  unfold valueFrom
  exact List.foldl_cons

theorem valueFrom_le (num : Nat) (digits : List UInt8) : num ≤ valueFrom num digits := by
  induction digits generalizing num with
  | nil => exact Nat.le_refl num
  | cons d digits ih =>
    have grows : num ≤ num * 10 + (d.toNat - 48) := by omega
    rw [valueFrom_cons]
    exact Nat.le_trans grows (ih (num * 10 + (d.toNat - 48)))

/-- The loop is over where the digits end, or where they leave the range. -/
theorem signedDigits_eq (inside : num ≤ max) (str : List UInt8) :
    signedDigits max num str =
      if valueFrom num (str.takeWhile isDigit) > max then none
      else if str.all isDigit = true then some (some (valueFrom num str)) else some none := by
  induction str generalizing num with
  | nil => exact (if_neg (Nat.not_lt.mpr inside)).symm
  | cons ch str ih =>
    rw [signedDigits]
    by_cases digit : isDigit ch = true
    · rw [if_pos digit,List.takeWhile_cons_of_pos digit,List.all_cons,digit,Bool.true_and,valueFrom_cons,valueFrom_cons]
      by_cases large : num * 10 + (ch.toNat - 48) > max
      · have more := valueFrom_le (num * 10 + (ch.toNat - 48)) (str.takeWhile isDigit)
        rw [if_pos large,if_pos (by omega)]
      · rw [if_neg large]
        exact ih (Nat.not_lt.mp large)
    · have none : ¬ (ch :: str).all isDigit = true := by
        rw [List.all_cons]
        simp [digit]
      rw [if_neg digit,List.takeWhile_cons_of_neg digit,if_neg none]
      exact (if_neg (Nat.not_lt.mpr inside)).symm

theorem valueFrom_mod (m num : Nat) (digits : List UInt8) : valueFrom (num % m) digits % m = valueFrom num digits % m := by
  induction digits generalizing num with
  | nil => exact Nat.mod_mod num m
  | cons d digits ih =>
    rw [valueFrom_cons,valueFrom_cons,← ih (num % m * 10 + (d.toNat - 48)),← ih (num * 10 + (d.toNat - 48)),Nat.add_mod,Nat.mul_mod,Nat.mod_mod,
      ← Nat.mul_mod,← Nat.add_mod]

theorem unsignedDigits_eq (inside : num < 2 ^ bits) (str : List UInt8) :
    unsignedDigits bits num str = if str.all isDigit = true then some (valueFrom num str % 2 ^ bits) else none := by
  induction str generalizing num with
  | nil => exact congrArg some (Nat.mod_eq_of_lt inside).symm
  | cons ch str ih =>
    rw [unsignedDigits,List.all_cons]
    by_cases digit : isDigit ch = true
    · rw [if_pos digit,digit,Bool.true_and,ih (Nat.mod_lt _ (Nat.two_pow_pos bits)),valueFrom_mod]
      rfl
    · rw [if_neg digit]
      simp [digit]

/-! ## Which texts are read -/

theorem natural_some (some_ : str ≠ []) (digits : str.all isDigit = true) : natural str = some (valueFrom 0 str) :=
  if_pos ⟨some_,digits⟩

theorem natural_none (other : ¬ (str ≠ [] ∧ str.all isDigit = true)) : natural str = none := if_neg other

theorem takeWhile_all (digits : str.all isDigit = true) : str.takeWhile isDigit = str := by
  rw [List.takeWhile_eq_self_iff]
  exact fun d member => List.all_eq_true.mp digits d member

/-- A signed accessor reads a text if its leading digits stay in range and it is not
    empty behind the sign. The smallest value is out of range before its sign is set. -/
theorem signed_exact_iff (more : 0 < max) (str : List UInt8) :
    Exact (-(max : Int) - 1) max integer (parseSigned max) str ↔ SignedFits max str := by
  have read : ∀ default_value, parseSigned max (some str) default_value =
      (signedDigits max 0 (body str)).map fun num =>
        (num.map (signed str)).getD default_value := by
    intro default_value
    unfold parseSigned body signed
    dsimp only
    split
    · rfl
    · rfl
  have numeral : integer str = (natural (body str)).map (signed str) := by
    unfold integer body signed
    split
    · rfl
    · rfl
  have within : ∀ n : Nat, n ≤ max → -(max : Int) - 1 ≤ signed str n ∧ signed str n ≤ max := by
    intro n small
    unfold signed
    split <;> omega
  have digits := signedDigits_eq (Nat.zero_le max) (body str)
  unfold Exact SignedFits
  simp only [read,numeral]
  by_cases large : valueFrom 0 ((body str).takeWhile isDigit) > max
  · rw [digits,if_pos large]
    refine iff_of_false (fun exact_ => ?_) fun both => absurd both.2 (Nat.not_le.mpr large)
    have none := exact_ 0 (by omega) (by omega)
    cases none
  rw [digits,if_neg large]
  by_cases some_ : body str = []
  · -- zero is returned for nothing
    refine iff_of_false (fun exact_ => ?_) fun both => both.1 some_
    have one := exact_ 1 (by omega) (by omega)
    rw [some_,natural_none fun both => both.1 rfl] at one
    have zero : signed str 0 = 1 := Option.some.inj one
    unfold signed at zero
    split at zero <;> omega
  refine iff_of_true (fun default_value _ _ => ?_) ⟨some_,Nat.not_lt.mp large⟩
  by_cases all : (body str).all isDigit = true
  · rw [takeWhile_all all] at large
    have inside := within _ (Nat.not_lt.mp large)
    rw [if_pos all,natural_some some_ all]
    simp only [Option.map_some,Option.filter_some,inside,and_self,decide_true,if_true]
  · rw [if_neg all,natural_none fun both => all both.2]
    rfl

theorem signed_bits (bits : Nat) (more : 0 < bits) (str : List UInt8) :
    Exact (-(2 ^ bits)) (2 ^ bits - 1) integer (parseSigned (2 ^ bits - 1)) str ↔ SignedFits (2 ^ bits - 1) str := by
  have power : 2 ≤ 2 ^ bits := Nat.pow_le_pow_right (Nat.succ_pos 1) more
  have cast : ((2 ^ bits - 1 : Nat) : Int) = 2 ^ bits - 1 := by
    rw [Nat.cast_sub (by omega)]
    push_cast
    rfl
  have exact_ := signed_exact_iff (show 0 < 2 ^ bits - 1 by omega) str
  rw [cast,show (-(2 ^ bits - 1) - 1 : Int) = -(2 ^ bits) from by omega] at exact_
  exact exact_

/-- An unsigned accessor reads a text if it is not empty, and in range if it is a numeral. -/
theorem unsigned_exact_iff (more : 0 < bits) (str : List UInt8) :
    Exact 0 (2 ^ bits - 1) (fun str => (natural str).map Int.ofNat) (parseUnsigned bits) str ↔ UnsignedFits bits str := by
  have power : 2 ≤ 2 ^ bits := Nat.pow_le_pow_right (Nat.succ_pos 1) more
  have cast : ((2 ^ bits : Nat) : Int) = 2 ^ bits := by push_cast; rfl
  have digits := unsignedDigits_eq (Nat.two_pow_pos bits) str
  unfold Exact UnsignedFits
  simp only [parseUnsigned,digits]
  by_cases some_ : str = []
  · refine iff_of_false (fun exact_ => ?_) fun both => both.1 some_
    have one := exact_ 1 (by omega) (by omega)
    rw [some_,natural_none fun both => both.1 rfl] at one
    cases one
  by_cases all : str.all isDigit = true
  · rw [if_pos all,natural_some some_ all]
    by_cases small : valueFrom 0 str < 2 ^ bits
    · refine iff_of_true (fun default_value _ _ => ?_) ⟨some_,fun _ => small⟩
      have inside : (0 : Int) ≤ Int.ofNat (valueFrom 0 str) ∧ Int.ofNat (valueFrom 0 str) ≤ 2 ^ bits - 1 := by
        have : (Int.ofNat (valueFrom 0 str)) = ((valueFrom 0 str : Nat) : Int) := rfl
        omega
      rw [Nat.mod_eq_of_lt small]
      simp only [Option.map_some,Option.filter_some,inside,and_self,decide_true,if_true]
    · refine iff_of_false (fun exact_ => ?_) fun both => small (both.2 all)
      have outside : ¬ ((0 : Int) ≤ Int.ofNat (valueFrom 0 str) ∧ Int.ofNat (valueFrom 0 str) ≤ 2 ^ bits - 1) := by
        have : (Int.ofNat (valueFrom 0 str)) = ((valueFrom 0 str : Nat) : Int) := rfl
        omega
      have zero := exact_ 0 (by omega) (by omega)
      have one := exact_ 1 (by omega) (by omega)
      simp only [Option.map_some,Option.filter_some,outside,decide_false,Bool.false_eq_true,if_false,Option.getD_none,
        Option.getD_some,Option.some.injEq] at zero one
      omega
  · rw [if_neg all,natural_none fun both => all both.2]
    exact iff_of_true (fun default_value _ _ => rfl) ⟨some_,fun digits => absurd digits all⟩

/-! ## Printed numbers -/

/-- The digits of `%ld`. -/
def decimal (n : Nat) : List UInt8 := if n = 0 then [48] else (Nat.digits 10 n).reverse.map fun d => UInt8.ofNat (48 + d)

/-- `snprintf(j->value, 22, "%ld", n)`. -/
def printed (n : Int) : List UInt8 := ((if n < 0 then [minus] else []) ++ decimal n.natAbs).take 21

/-- `ac_json_number`. -/
def acJsonNumber (n : Int) : Tree := .leaf .number (printed n)

/-- `ac_jsonv`: the bytes in front of the NUL, or NULL. -/
def acJsonv (bytes : List UInt8) (pool : Pool) (j : Option Nat) : Option (Option (List UInt8)) :=
  match j with
  | none => some none
  | some j => do
    let json ← pool.values[j]?
    if json.type.code ≥ JsonType.string.code then
      match json.value with
      | some (.at q) => some (some (stringAt bytes q))
      | some (.constant text) => some (some text)
      | none => some none
    else some none

/-- `ac_jsono_scan_int64`. -/
def acJsonoScanInt64 (bytes : List UInt8) (pool : Pool) (j : Nat) (key : List UInt8) (default_value : Int) : Option Int := do
  let value ← acJsonoScan bytes pool j key
  let str ← acJsonv bytes pool value
  parseInt64 str default_value

theorem digit_toNat {d : Nat} (small : d < 10) : (UInt8.ofNat (48 + d)).toNat = 48 + d := by
  rw [UInt8.toNat_ofNat']
  omega

theorem digit_isDigit {d : Nat} (small : d < 10) : isDigit (UInt8.ofNat (48 + d)) = true := by
  have value := digit_toNat small
  simp only [isDigit,Bool.and_eq_true,decide_eq_true_eq,UInt8.le_iff_toNat_le,value]
  constructor
  · exact Nat.le_add_right 48 d
  · show 48 + d ≤ 57
    omega

theorem decimal_digits (n : Nat) : (decimal n).all isDigit = true := by
  unfold decimal
  split
  · rfl
  · rw [List.all_eq_true]
    intro c member
    obtain ⟨d,inside,rfl⟩ := List.mem_map.mp member
    exact digit_isDigit (Nat.digits_lt_base (by decide) (List.mem_reverse.mp inside))

theorem decimal_value (n : Nat) : valueFrom 0 (decimal n) = n := by
  unfold decimal
  split
  case isTrue zero => exact zero.symm
  case isFalse =>
    have each : ∀ d ∈ Nat.digits 10 n, d < 10 := fun d member => Nat.digits_lt_base (by decide) member
    have value : ∀ ds : List Nat, (∀ d ∈ ds, d < 10) →
        valueFrom 0 (ds.reverse.map fun d => UInt8.ofNat (48 + d)) = Nat.ofDigits 10 ds := by
      intro ds small
      induction ds with
      | nil => rfl
      | cons d ds ih =>
        rw [List.reverse_cons,List.map_append,valueFrom,List.foldl_append,Nat.ofDigits_cons]
        rw [show List.foldl _ 0 (ds.reverse.map fun d => UInt8.ofNat (48 + d)) = _ from
          ih fun d member => small d (List.mem_cons_of_mem _ member)]
        simp only [List.map_cons,List.map_nil,List.foldl_cons,List.foldl_nil,digit_toNat (small d List.mem_cons_self)]
        omega
    rw [value _ each,Nat.ofDigits_digits]

theorem decimal_whole {n : Nat} (positive : n ≠ 0) : Whole (decimal n) := by
  have some_ : Nat.digits 10 n ≠ [] := Nat.digits_ne_nil_iff_ne_zero.mpr positive
  have last := Nat.getLast_digit_ne_zero 10 positive
  have small := Nat.digits_lt_base (b := 10) (by decide) (List.getLast_mem some_)
  have split : (Nat.digits 10 n).reverse = (Nat.digits 10 n).getLast some_ :: (Nat.digits 10 n).dropLast.reverse := by
    conv_lhs => rw [← List.dropLast_append_getLast some_]
    rw [List.reverse_append]
    rfl
  have all := List.all_eq_true.mp (decimal_digits n)
  have whole : decimal n = UInt8.ofNat (48 + (Nat.digits 10 n).getLast some_) ::
      (Nat.digits 10 n).dropLast.reverse.map fun d => UInt8.ofNat (48 + d) := by
    rw [decimal,if_neg positive,split,List.map_cons]
  refine ⟨_,_,whole,?_,fun c member => all c ?_⟩
  · have value := digit_toNat small
    simp only [isNatural,Bool.and_eq_true,decide_eq_true_eq,UInt8.le_iff_toNat_le,value]
    constructor
    · show 49 ≤ _
      omega
    · show _ ≤ 57
      omega
  · rw [whole]
    exact List.mem_cons_of_mem _ member

theorem decimal_length {n : Nat} (small : n < 10 ^ 20) : (decimal n).length ≤ 20 := by
  unfold decimal
  split
  · decide
  · rw [List.length_map,List.length_reverse]
    exact (Nat.digits_length_le_iff (by decide) n).mpr small

/-- All of a number in 64 bits is printed. -/
theorem printed_whole {n : Int} (low : -(2 ^ 63) ≤ n) (high : n < 2 ^ 63) :
    printed n = (if n < 0 then [minus] else []) ++ decimal n.natAbs := by
  have short := decimal_length (n := n.natAbs) (by omega)
  apply List.take_of_length_le
  rw [List.length_append]
  split
  · show 1 + _ ≤ 21
    omega
  · show 0 + _ ≤ 21
    omega

theorem decimal_head (n : Nat) : (decimal n).head? ≠ some minus := by
  intro first
  have digit := List.all_eq_true.mp (decimal_digits n) minus (List.mem_of_head? first)
  cases digit

theorem decimal_some (n : Nat) : decimal n ≠ [] := by
  unfold decimal
  split
  case isTrue => exact List.cons_ne_nil _ _
  case isFalse positive =>
    rw [ne_eq,List.map_eq_nil_iff,List.reverse_eq_nil_iff]
    exact Nat.digits_ne_nil_iff_ne_zero.mpr positive

/-- What is printed is the numeral of the number. -/
theorem printed_reads {n : Int} (low : -(2 ^ 63) ≤ n) (high : n < 2 ^ 63) :
    body (printed n) = decimal n.natAbs ∧ integer (printed n) = some n := by
  have numeral : natural (decimal n.natAbs) = some n.natAbs := by
    rw [natural_some (decimal_some _) (decimal_digits _),decimal_value]
  rw [printed_whole low high]
  unfold body integer
  by_cases negative : n < 0
  · have same : (-(n.natAbs : Int)) = n := by omega
    rw [if_pos negative,List.singleton_append,List.head?_cons,if_pos rfl,if_pos rfl,List.tail_cons,numeral]
    exact ⟨rfl,congrArg some same⟩
  · have same : (Int.ofNat n.natAbs) = n := Int.natAbs_of_nonneg (Int.not_lt.mp negative)
    rw [if_neg negative,List.nil_append,if_neg (decimal_head _),if_neg (decimal_head _),numeral]
    exact ⟨rfl,congrArg some same⟩

theorem printed_free {n : Int} (low : -(2 ^ 63) ≤ n) (high : n < 2 ^ 63) : 0 ∉ printed n := by
  intro inside
  rw [printed_whole low high] at inside
  rcases List.mem_append.mp inside with sign | digit
  · split at sign
    · cases List.mem_singleton.mp sign
    · cases sign
  · cases List.all_eq_true.mp (decimal_digits _) 0 digit

/-! ## Through a document -/

/-- A member that the writer can dump. -/
def Dumped (member : List UInt8 × Tree) : Prop := EncodedText member.1 ∧ Encoded member.2 ∧ hasNull member.2 = false

/-- A number as a member of an object that is dumped, parsed and read. -/
def ReadsBack (n : Int) (key : List UInt8) (before after : List (List UInt8 × Tree)) : Prop :=
  ∃ fuel a st, acJsonParse fuel (dump (.object (membersOf (before ++ (key,acJsonNumber n) :: after)))) =
      some (.returned (some a) st) ∧
    ∀ default_value, acJsonoScanInt64 st.bytes st.pool a key default_value = some n

/-- The type that the parser gives a number. -/
def numberType (n : Int) : JsonType := if n = 0 then .zero else .number

theorem dump_members {key : List UInt8} {t t' : Tree} (same : dump t = dump t') (before after : List (List UInt8 × Tree)) :
    dumpObject (membersOf (before ++ (key,t) :: after)) = dumpObject (membersOf (before ++ (key,t') :: after)) := by
  induction before with
  | nil =>
    simp only [List.nil_append,membersOf,dumpObject,same]
  | cons member before ih =>
    have comma : (membersOf (before ++ (key,t) :: after)).comma = (membersOf (before ++ (key,t') :: after)).comma := by
      cases before <;> rfl
    simp only [List.cons_append,membersOf,dumpObject,ih,comma]

theorem dump_number (n : Int) : dump (acJsonNumber n) = dump (.leaf (numberType n) (printed n)) := by
  unfold numberType acJsonNumber
  split <;> rfl

theorem number_encoded {n : Int} (low : -(2 ^ 63) ≤ n) (high : n < 2 ^ 63) : Encoded (.leaf (numberType n) (printed n)) := by
  have short : (printed n).length < 2 ^ 32 := by
    have bound : (printed n).length ≤ 21 := List.length_take_le 21 _
    omega
  refine ⟨?_,short⟩
  rw [printed_whole low high,numberType]
  by_cases zero : n = 0
  · rw [if_pos zero,zero]
    rfl
  · rw [if_neg zero]
    refine ⟨_,_,rfl,?_,decimal_whole (by omega)⟩
    split
    · exact .inr rfl
    · exact .inl rfl

/-- After a round trip the accessor has the printed text. -/
theorem number_found {n : Int} (low : -(2 ^ 63) ≤ n) (high : n < 2 ^ 63) {key : List UInt8}
    (before after : List (List UInt8 × Tree)) (keyEncoded : EncodedText key) (absent : ∀ member ∈ before, member.1 ≠ key)
    (others : ∀ member ∈ before ++ after, Dumped member) :
    ∃ fuel st, acJsonParse fuel (dump (.object (membersOf (before ++ (key,acJsonNumber n) :: after)))) =
        some (.returned (some 0) st) ∧
      ∀ default_value, acJsonoScanInt64 st.bytes st.pool 0 key default_value = parseInt64 (some (printed n)) default_value := by
  have leaf := number_encoded low high
  have plain : hasNull (.leaf (numberType n) (printed n)) = false := by
    unfold numberType
    split <;> rfl
  have whole := membersOf_encoded (before ++ (key,.leaf (numberType n) (printed n)) :: after) fun m member => by
    rcases List.mem_append.mp member with first | later
    · exact others m (List.mem_append_left _ first)
    · rcases List.mem_cons.mp later with here | last
      · subst here
        exact ⟨keyEncoded,leaf,plain⟩
      · exact others m (List.mem_append_right _ last)
  have written : dump (.object (membersOf (before ++ (key,acJsonNumber n) :: after))) =
      dump (.object (membersOf (before ++ (key,.leaf (numberType n) (printed n)) :: after))) := by
    rw [dump,dump,dump_members (dump_number n)]
  have treeEncoded : Encoded (.object (membersOf (before ++ (key,.leaf (numberType n) (printed n)) :: after))) := whole.1
  have run := parse_run treeEncoded trivial (dump_spaced treeEncoded)
  have plainTree : hasNull (.object (membersOf (before ++ (key,.leaf (numberType n) (printed n)) :: after))) = false := whole.2
  rw [(strip_self _).mpr plainTree] at run
  obtain ⟨st,⟨fuel,returns⟩,stored⟩ := run
  obtain ⟨v,json,found,isJson,type,length,shows,ended⟩ := leaf_found absent whole.1 stored
  refine ⟨fuel,st,?_,fun default_value => ?_⟩
  · rw [written]
    exact returns
  · have late : json.type.code ≥ JsonType.string.code ∧ numberType n ≠ .binary := by
      rw [type]
      unfold numberType
      split <;> decide
    have text : acJsonv st.bytes st.pool (some v) = some (some (printed n)) := by
      unfold acJsonv
      simp only [isJson,Option.bind_eq_bind,Option.bind_some]
      rw [if_pos late.1]
      rcases shows_at shows ended late.2 with isValue | ⟨q,tail,isValue,at_q⟩
      · rw [isValue]
      · rw [isValue]
        show some (some (stringAt st.bytes q)) = _
        rw [stringAt,at_q,takeWhile_key (printed_free low high)]
    rw [acJsonoScanInt64,found]
    simp only [Option.bind_eq_bind,Option.bind_some,text]

theorem parse_printed {n : Int} (low : -(2 ^ 63) ≤ n) (high : n < 2 ^ 63) (other : n ≠ -(2 ^ 63)) (default_value : Int) :
    parseInt64 (some (printed n)) default_value = some n := by
  have digits := signedDigits_eq (Nat.zero_le (2 ^ 63 - 1)) (decimal n.natAbs)
  rw [takeWhile_all (decimal_digits _),if_neg (by rw [decimal_value]; omega),if_pos (decimal_digits _),decimal_value] at digits
  have numeral := (printed_reads low high).1
  rw [parseInt64,parseSigned]
  unfold body at numeral
  by_cases negative : n < 0
  · have first : (printed n).head? = some minus := by
      rw [printed_whole low high,if_pos negative]
      rfl
    rw [if_pos first] at numeral
    rw [if_pos first,numeral,digits]
    have same : (-(n.natAbs : Int)) = n := by omega
    exact congrArg some same
  · have first : (printed n).head? ≠ some minus := by
      rw [printed_whole low high,if_neg negative]
      exact decimal_head _
    rw [if_neg first] at numeral
    rw [if_neg first,numeral,digits]
    exact congrArg some (Int.natAbs_of_nonneg (Int.not_lt.mp negative))

/-- `-9223372036854775808` overflows before its sign is set. -/
theorem parse_lowest (default_value : Int) : parseInt64 (some (printed (-(2 ^ 63)))) default_value = none := by
  have low : -(2 ^ 63) ≤ (-(2 ^ 63) : Int) := Int.le_refl _
  have high : (-(2 ^ 63) : Int) < 2 ^ 63 := by decide
  have digits := signedDigits_eq (Nat.zero_le (2 ^ 63 - 1)) (decimal (2 ^ 63))
  rw [takeWhile_all (decimal_digits _),decimal_value,if_pos (by decide)] at digits
  have numeral := (printed_reads low high).1
  have first : (printed (-(2 ^ 63))).head? = some minus := by
    rw [printed_whole low high,if_pos (by decide)]
    rfl
  rw [body,if_pos first] at numeral
  rw [parseInt64,parseSigned]
  rw [if_pos first,numeral,show (-(2 ^ 63) : Int).natAbs = 2 ^ 63 from rfl,digits]
  rfl

/-- Whatever object holds it, under whatever key. -/
def AlwaysReadsBack (n : Int) : Prop :=
  ∀ (key : List UInt8) (before after : List (List UInt8 × Tree)), EncodedText key → (∀ member ∈ before, member.1 ≠ key) →
    (∀ member ∈ before ++ after, Dumped member) → ReadsBack n key before after

theorem reads_back_iff {n : Int} (low : -(2 ^ 63) ≤ n) (high : n < 2 ^ 63) : AlwaysReadsBack n ↔ n ≠ -(2 ^ 63) := by
  constructor
  · rintro always rfl
    have key : EncodedText [107] := encoded_plain (by decide) (by decide) (by decide)
    obtain ⟨fuel,a,st,returns,read⟩ := always [107] [] [] key (by simp) (by simp)
    obtain ⟨fuel',st',returns',read'⟩ := number_found low high [] [] key (by simp) (by simp)
    cases run_unique returns returns' trivial trivial
    have lost := (read 0).symm.trans (read' 0)
    rw [parse_lowest] at lost
    cases lost
  · intro other key before after keyEncoded absent others
    obtain ⟨fuel,st,returns,read⟩ := number_found low high before after keyEncoded absent others
    exact ⟨fuel,0,st,returns,fun default_value => (read default_value).trans (parse_printed low high other default_value)⟩

end

/-- The accessors are exact on the texts that fit, and every number of 64 bits but the
    smallest comes back from a document. -/
theorem numbers_exact (str : List UInt8) (n : Int) :
    (Exact (-(2 ^ 31)) (2 ^ 31 - 1) integer parseInt str ↔ SignedFits (2 ^ 31 - 1) str) ∧
    (Exact (-(2 ^ 31)) (2 ^ 31 - 1) integer parseInt32 str ↔ SignedFits (2 ^ 31 - 1) str) ∧
    (Exact (-(2 ^ 63)) (2 ^ 63 - 1) integer parseInt64 str ↔ SignedFits (2 ^ 63 - 1) str) ∧
    (Exact 0 (2 ^ 32 - 1) (fun str => (natural str).map Int.ofNat) parseUint32 str ↔ UnsignedFits 32 str) ∧
    (Exact 0 (2 ^ 64 - 1) (fun str => (natural str).map Int.ofNat) parseUint64 str ↔ UnsignedFits 64 str) ∧
    (-(2 ^ 63) ≤ n → n < 2 ^ 63 → (AlwaysReadsBack n ↔ n ≠ -(2 ^ 63))) :=
  ⟨signed_bits 31 (by decide) str,signed_bits 31 (by decide) str,signed_bits 63 (by decide) str,
    unsigned_exact_iff (by decide) str,unsigned_exact_iff (by decide) str,reads_back_iff⟩

/-- A sign without digits is read as zero. -/
theorem sign_is_zero : ¬ Exact (-(2 ^ 31)) (2 ^ 31 - 1) integer parseInt [minus] := by
  intro exact_
  have one := exact_ 1 (by decide) (by decide)
  cases one

end AnotherC.JsonNumbers
