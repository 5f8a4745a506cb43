import Mathlib.Algebra.GroupWithZero.Nat
import AnotherC.Lib.Text

/-!
# Fields of CSV: `ac_pool`

A field with a delimiter, a newline or a quote in it is put in quotes, with every
quote in it doubled; a record is split into its fields. Splitting inverts the
encoding, and passes every byte on that is not a quote.
-/
namespace AnotherC.PoolCsv
open AnotherC.Lib.Text
set_option linter.unusedVariables false

/-- `ac_pool_csv_encode`. -/
def acPoolCsvEncode (delim : UInt8) (s : Text) : Text :=
  if s.any fun c => c = delim || c = 10 || c = 34 then
    34 :: (s.flatMap (fun c => if c = 34 then [34,c] else [c]) ++ [34])
  else s

/-- The first loop of `_ac_pool_split_csv`, outside or inside of quotes; `none` is a
    read behind the zero that ends the string. -/
def countFields (delim : UInt8) : Bool → List UInt8 → Option Nat
  | false, [] => some 1
  | false, c :: s =>
    if c = 34 then countFields delim true s
    else if c = delim then (countFields delim false s).map (· + 1)
    else countFields delim false s
  | true, [] => none
  | true, c :: s =>
    if c ≠ 34 then countFields delim true s
    else
      match s with
      | [] => countFields delim false []
      | c₂ :: s₂ => if c₂ = 34 then countFields delim true s₂ else countFields delim false (c₂ :: s₂)

/-- The second loop; `wp` is what was written of the current field. It is written
    over the string, never behind the byte that is read. -/
def splitFields (delim : UInt8) : Bool → Text → List UInt8 → Option (List Text)
  | false, wp, [] => some [wp]
  | false, wp, c :: s =>
    if c = 34 then splitFields delim true wp s
    else if c = delim then (splitFields delim false [] s).map (wp :: ·)
    else splitFields delim false (wp ++ [c]) s
  | true, _, [] => none
  | true, wp, c :: s =>
    if c ≠ 34 then splitFields delim true (wp ++ [c]) s
    else
      match s with
      | [] => splitFields delim false wp []
      | c₂ :: s₂ => if c₂ = 34 then splitFields delim true (wp ++ [34]) s₂ else splitFields delim false wp (c₂ :: s₂)

/-- `ac_pool_split_csv`: `num_splits` and the fields, with room for as many pointers. -/
def acPoolSplitCsv (delim : UInt8) (s : Text) : Option (Nat × List Text) :=
  (countFields delim false s).bind fun num =>
  (splitFields delim false [] s).bind fun fields =>
    if fields.length > num then none else some (num,fields)

/-- The fields of a row, encoded and joined. -/
def csvLine (delim : UInt8) : List Text → Text
  | [] => []
  | [f] => acPoolCsvEncode delim f
  | f :: g :: row => acPoolCsvEncode delim f ++ delim :: csvLine delim (g :: row)

section
variable {delim : UInt8}

theorem splitFields_inside {c : UInt8} (noQuote : c ≠ 34) (wp s : List UInt8) :
    splitFields delim true wp (c :: s) = splitFields delim true (wp ++ [c]) s := by
  rw [splitFields.eq_def]
  simp only [if_pos noQuote]

theorem countFields_inside {c : UInt8} (noQuote : c ≠ 34) (s : List UInt8) :
    countFields delim true (c :: s) = countFields delim true s := by
  rw [countFields.eq_def]
  simp only [if_pos noQuote]

/-- Both loops walk the same way: the fields are as many as were counted. -/
theorem splitFields_count (quoted : Bool) (wp s : List UInt8) :
    countFields delim quoted s = (splitFields delim quoted wp s).map List.length := by
  induction quoted, wp, s using splitFields.induct delim with
  | case1 => rfl
  | case2 wp s ih => simpa only [countFields,splitFields,if_true] using ih
  | case3 wp s noQuote ih =>
    simp only [countFields,splitFields,noQuote,if_false,if_true,ih,Option.map_map]
    rfl
  | case4 wp c s noQuote inField ih => simpa only [countFields,splitFields,noQuote,inField,if_false] using ih
  | case5 => rfl
  | case6 wp c s noQuote ih => rw [countFields_inside noQuote,splitFields_inside noQuote,ih]
  | case7 wp c quote ih => simpa only [countFields,splitFields,if_neg quote] using ih
  | case8 wp c quote s ih => simpa only [countFields,splitFields,if_neg quote,if_true] using ih
  | case9 wp c quote c₂ s noQuote ih =>
    rw [countFields,splitFields,if_neg quote,if_neg quote]
    simpa only [noQuote,if_false] using ih

/-- There is room for the pointers to all fields. -/
theorem acPoolSplitCsv_eq (s : Text) :
    acPoolSplitCsv delim s = (splitFields delim false [] s).map fun fields => (fields.length,fields) := by
  rw [acPoolSplitCsv,splitFields_count false [] s]
  cases splitFields delim false [] s with
  | none => rfl
  | some fields =>
    simp only [Option.map_some,Option.bind_some]
    rw [if_neg (Nat.lt_irrefl _)]

/-! ### What splitting passes on -/

/-- The bytes that are not quotes. -/
def plain (s : List UInt8) : Nat := s.countP (· ≠ 34)

@[simp] theorem plain_nil : plain [] = 0 := rfl
@[simp] theorem plain_append (xs ys : List UInt8) : plain (xs ++ ys) = plain xs + plain ys := List.countP_append
@[simp] theorem plain_quote (xs : List UInt8) : plain (34 :: xs) = plain xs := by simp [plain]
theorem plain_other {c : UInt8} (noQuote : c ≠ 34) (xs : List UInt8) : plain (c :: xs) = plain xs + 1 := by
  simp [plain,noQuote]

/-- The bytes of a row that are not quotes, with one more for the end of each field. -/
def plainRow (row : List Text) : Nat := (row.map fun f => plain f + 1).sum

/-- Every byte of a record but the quotes is in a field, or ends one. -/
theorem splitFields_plain (noQuote : delim ≠ 34) (quoted : Bool) (wp s : List UInt8) :
    ∀ row, splitFields delim quoted wp s = some row → plainRow row = plain wp + plain s + 1 := by
  induction quoted, wp, s using splitFields.induct delim with
  | case1 wp =>
    intro row split
    cases split
    simp [plainRow]
  | case2 wp s ih =>
    intro row split
    rw [splitFields,if_pos rfl] at split
    rw [ih row split,plain_quote]
  | case3 wp s _ ih =>
    intro row split
    rw [splitFields,if_neg noQuote,if_pos rfl,Option.map_eq_some_iff] at split
    obtain ⟨later,split,rfl⟩ := split
    have rest := ih later split
    rw [plain_nil,Nat.zero_add] at rest
    rw [plain_other noQuote,plainRow,List.map_cons,List.sum_cons,← plainRow,rest]
    omega
  | case4 wp c s other inField ih =>
    intro row split
    rw [splitFields,if_neg other,if_neg inField] at split
    rw [ih row split,plain_append,plain_other other,plain_other other,plain_nil]
    omega
  | case5 => exact nofun
  | case6 wp c s other ih =>
    intro row split
    rw [splitFields_inside other] at split
    rw [ih row split,plain_append,plain_other other,plain_other other,plain_nil]
    omega
  | case7 wp c quote ih =>
    intro row split
    rw [splitFields,if_neg quote] at split
    rw [ih row split,not_ne_iff.mp quote,plain_quote]
  | case8 wp c quote s ih =>
    intro row split
    rw [splitFields,if_neg quote] at split
    simp only [if_true] at split
    rw [ih row split,not_ne_iff.mp quote,plain_append,plain_quote,plain_quote,plain_quote,plain_nil]
    omega
  | case9 wp c quote c₂ s other ih =>
    intro row split
    rw [splitFields,if_neg quote] at split
    simp only [other,if_false] at split
    rw [ih row split,not_ne_iff.mp quote,plain_quote]

/-! ### Splitting what was encoded -/

/-- A byte sequence that does not begin with a quote. -/
def Unquoted (s : List UInt8) : Prop := ∀ t, s ≠ 34 :: t

/-- The inside of a quoted field, up to the quote that closes it. -/
theorem splitFields_quoted (f wp : List UInt8) {rest : List UInt8} (unquoted : Unquoted rest) :
    splitFields delim true wp ((f.flatMap fun c => if c = 34 then [34,c] else [c]) ++ 34 :: rest) =
      splitFields delim false (wp ++ f) rest := by
  induction f generalizing wp with
  | nil =>
    rw [List.flatMap_nil,List.nil_append,List.append_nil]
    cases rest with
    | nil => rfl
    | cons c rest =>
      have noQuote : c ≠ 34 := fun same => unquoted rest (by rw [same])
      rw [splitFields.eq_def]
      simp only [ne_eq,not_true_eq_false,if_false,noQuote]
  | cons c f ih =>
    rw [List.flatMap_cons]
    by_cases quote : c = 34
    · subst quote
      simp only [if_true,List.cons_append,List.nil_append]
      rw [splitFields.eq_def]
      simp only [ne_eq,not_true_eq_false,if_false,if_true]
      rw [ih,List.append_assoc,List.singleton_append]
    · simp only [quote,if_false,List.cons_append,List.nil_append]
      rw [splitFields_inside quote,ih,List.append_assoc,List.singleton_append]

/-- A field that needs no quotes. -/
theorem splitFields_bare (f wp : List UInt8) (bare : ∀ c ∈ f, c ≠ delim ∧ c ≠ 34) (rest : List UInt8) :
    splitFields delim false wp (f ++ rest) = splitFields delim false (wp ++ f) rest := by
  induction f generalizing wp with
  | nil => simp
  | cons c f ih =>
    obtain ⟨inField,noQuote⟩ := bare c List.mem_cons_self
    rw [List.cons_append,splitFields,if_neg noQuote,if_neg inField,
      ih (wp ++ [c]) (fun d member => bare d (List.mem_cons_of_mem _ member)),List.append_assoc,List.singleton_append]

variable (delim) in
/-- The encoded field is read as the field. -/
theorem splitFields_encode (f : Text) {rest : List UInt8} (unquoted : Unquoted rest) :
    splitFields delim false [] (acPoolCsvEncode delim f ++ rest) = splitFields delim false f rest := by
  rw [acPoolCsvEncode]
  split
  case isTrue =>
    rw [List.cons_append,splitFields,if_pos rfl,List.append_assoc,List.singleton_append,splitFields_quoted f [] unquoted,
      List.nil_append]
  case isFalse bare =>
    refine (splitFields_bare f [] (fun c member => ?_) rest).trans (by rw [List.nil_append])
    have each := List.any_eq_false.mp (Bool.eq_false_iff.mpr bare) c member
    simp only [Bool.or_eq_true,decide_eq_true_eq,not_or] at each
    exact ⟨each.1.1,each.2⟩

/-- A row is split into its fields again. -/
theorem splitFields_line (noQuote : delim ≠ 34) {row : List Text} (filled : row ≠ []) :
    splitFields delim false [] (csvLine delim row) = some row := by
  induction row with
  | nil => exact absurd rfl filled
  | cons f row ih =>
    cases row with
    | nil =>
      have encoded := splitFields_encode delim f (show Unquoted [] from nofun)
      rw [List.append_nil] at encoded
      rw [csvLine,encoded,splitFields]
    | cons g row =>
      rw [csvLine,splitFields_encode delim f (fun t same => noQuote (List.cons.inj same).1),splitFields,if_neg noQuote,if_pos rfl,
        ih nofun,Option.map_some]

theorem acPoolSplitCsv_line (noQuote : delim ≠ 34) {row : List Text} (filled : row ≠ []) :
    acPoolSplitCsv delim (csvLine delim row) = some (row.length,row) := by
  rw [acPoolSplitCsv_eq,splitFields_line noQuote filled,Option.map_some]

/-! ### Quotes -/

/-- Newlines stand only inside of quotes, where a walk begins outside or inside. -/
def Shielded : Bool → List UInt8 → Prop
  | _, [] => True
  | quoted, c :: s => if c = 34 then Shielded (!quoted) s else (c = 10 → quoted = true) ∧ Shielded quoted s

/-- Whether a walk ends inside of quotes. -/
def endsQuoted : Bool → List UInt8 → Bool
  | quoted, [] => quoted
  | quoted, c :: s => endsQuoted (if c = 34 then !quoted else quoted) s

theorem endsQuoted_append (quoted : Bool) (xs ys : List UInt8) :
    endsQuoted quoted (xs ++ ys) = endsQuoted (endsQuoted quoted xs) ys := by
  induction xs generalizing quoted with
  | nil => rfl
  | cons c xs ih => exact ih _

theorem shielded_append (quoted : Bool) (xs ys : List UInt8) :
    Shielded quoted (xs ++ ys) ↔ Shielded quoted xs ∧ Shielded (endsQuoted quoted xs) ys := by
  induction xs generalizing quoted with
  | nil => simp [Shielded,endsQuoted]
  | cons c xs ih =>
    rw [List.cons_append,Shielded,Shielded,endsQuoted]
    by_cases quote : c = 34
    · simp only [quote,if_true]
      exact ih _
    · simp only [quote,if_false]
      rw [ih,and_assoc]

theorem quoted_walk (f : List UInt8) :
    endsQuoted true (f.flatMap fun c => if c = 34 then [34,c] else [c]) = true ∧
      Shielded true (f.flatMap fun c => if c = 34 then [34,c] else [c]) := by
  induction f with
  | nil => exact ⟨rfl,trivial⟩
  | cons c f ih =>
    rw [List.flatMap_cons,endsQuoted_append,shielded_append]
    by_cases quote : c = 34
    · subst quote
      simpa [endsQuoted,Shielded] using ih
    · simpa [endsQuoted,Shielded,quote] using ih

theorem bare_walk {f : List UInt8} (bare : ∀ c ∈ f, c ≠ 34 ∧ c ≠ 10) : endsQuoted false f = false ∧ Shielded false f := by
  induction f with
  | nil => exact ⟨rfl,trivial⟩
  | cons c f ih =>
    obtain ⟨noQuote,noLine⟩ := bare c List.mem_cons_self
    have later := ih fun d member => bare d (List.mem_cons_of_mem _ member)
    simpa [endsQuoted,Shielded,noQuote,noLine] using later

variable (delim) in
/-- An encoded field closes its quotes and shields its newlines. -/
theorem encode_walk (f : Text) :
    endsQuoted false (acPoolCsvEncode delim f) = false ∧ Shielded false (acPoolCsvEncode delim f) := by
  rw [acPoolCsvEncode]
  split
  case isTrue =>
    obtain ⟨ends,shielded⟩ := quoted_walk f
    rw [endsQuoted,Shielded,if_pos rfl,if_pos rfl,endsQuoted_append,shielded_append]
    simp only [Bool.not_false,ends,shielded,true_and]
    exact ⟨rfl,trivial⟩
  case isFalse bare =>
    refine bare_walk fun c member => ?_
    have each := List.any_eq_false.mp (Bool.eq_false_iff.mpr bare) c member
    simp only [Bool.or_eq_true,decide_eq_true_eq,not_or] at each
    exact ⟨each.2,each.1.2⟩

theorem line_walk (noQuote : delim ≠ 34) (noLine : delim ≠ 10) (row : List Text) :
    endsQuoted false (csvLine delim row) = false ∧ Shielded false (csvLine delim row) := by
  induction row with
  | nil => exact ⟨rfl,trivial⟩
  | cons f row ih =>
    cases row with
    | nil => exact encode_walk delim f
    | cons g row =>
      obtain ⟨ends,shielded⟩ := encode_walk delim f
      rw [csvLine,endsQuoted_append,shielded_append,ends,endsQuoted,Shielded,if_neg noQuote,if_neg noQuote]
      exact ⟨ih.1,shielded,fun same => absurd same noLine,ih.2⟩

end

/-! ### Strings -/

theorem encode_nulFree (delim : UInt8) {f : Text} (free : 0 ∉ f) : 0 ∉ acPoolCsvEncode delim f := by
  rw [acPoolCsvEncode]
  split
  · intro member
    simp only [List.mem_cons,List.mem_append,List.mem_flatMap,List.not_mem_nil,or_false] at member
    rcases member with quote | ⟨c,inField,member⟩ | quote
    · exact absurd quote (by decide)
    · split at member
      · simp only [List.mem_cons,List.not_mem_nil,or_false] at member
        rcases member with quote | same
        · exact absurd quote (by decide)
        · exact free (same ▸ inField)
      · exact free (List.mem_singleton.mp member ▸ inField)
    · exact absurd quote (by decide)
  · exact free

theorem line_nulFree {delim : UInt8} (nonzero : delim ≠ 0) {row : List Text} (free : ∀ f ∈ row, 0 ∉ f) :
    0 ∉ csvLine delim row := by
  induction row with
  | nil => exact List.not_mem_nil
  | cons f row ih =>
    have first := encode_nulFree delim (free f List.mem_cons_self)
    cases row with
    | nil => exact first
    | cons g row =>
      have later := ih fun f member => free f (List.mem_cons_of_mem _ member)
      rw [csvLine]
      simp only [List.mem_append,List.mem_cons,not_or]
      exact ⟨first,Ne.symm nonzero,later⟩

end AnotherC.PoolCsv
