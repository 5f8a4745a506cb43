import AnotherC.Core.PoolSplitCsv

/-!
# `ac_pool_csv_encode` in memory

A field that needs quotes is written to memory that is allocated for its bytes, for as many
more as it has quotes, for the two quotes around it and for the NUL. The quotes are counted in
an `int`. A byte behind the memory is not there to be written.
-/
namespace AnotherC.PoolEncodeCsv
open AnotherC.PoolCsv (acPoolCsvEncode csvLine splitFields_line line_nulFree)
open AnotherC.PoolSplitCsv
open AnotherC.Lib.Text
set_option linter.unusedVariables false

/-! ## The code -/

/-- The second loop of `ac_pool_csv_encode`; a count that is no `int` any more is undefined. -/
def countQuotes : Nat → List UInt8 → Option Nat
  | num, [] => some num
  | num, c :: s => if c = 34 then if num + 1 < 2^31 then countQuotes (num + 1) s else none else countQuotes num s

/-- `*wp++ = c` in `room` bytes. -/
def put (room : Nat) (res : List UInt8) (c : UInt8) : Option (List UInt8) := if res.length < room then some (res ++ [c]) else none

/-- The third loop. -/
def writeField (room : Nat) : List UInt8 → List UInt8 → Option (List UInt8)
  | res, [] => some res
  | res, c :: s => do
    let res ← if c = 34 then put room res 34 else some res
    let res ← put room res c
    writeField room res s

/-- The bytes behind `res` that are written, and the NUL. -/
def writeQuoted (room : Nat) (s : Text) : Option (List UInt8) := do
  let res ← put room [] 34
  let res ← writeField room res s
  let res ← put room res 34
  put room res 0

/-- `ac_pool_csv_encode`; the string is read up to its NUL. -/
def csvEncode (delim : UInt8) (s : Text) : Option Text :=
  if s.any fun c => c = delim || c = 10 || c = 34 then do
    let num ← countQuotes 0 s
    let res ← writeQuoted (s.length + 3 + num) s
    some (stringAt res 0)
  else some s

/-- The fields of a row are encoded, and joined. -/
def encodeRow (delim : UInt8) : List Text → Option Text
  | [] => some []
  | [f] => csvEncode delim f
  | f :: g :: row => do
    let first ← csvEncode delim f
    let later ← encodeRow delim (g :: row)
    some (first ++ delim :: later)

/-! ## A field -/

theorem countQuotes_eq (num : Nat) (small : num < 2^31) (s : List UInt8) :
    countQuotes num s = if num + s.count 34 < 2^31 then some (num + s.count 34) else none := by
  induction s generalizing num with
  | nil => rw [countQuotes,List.count_nil,Nat.add_zero,if_pos small]
  | cons c s ih =>
    rw [countQuotes]
    by_cases quote : c = 34
    · subst quote
      rw [if_pos rfl,List.count_cons_self]
      by_cases more : num + 1 < 2^31
      · rw [if_pos more,ih _ more,Nat.add_assoc,Nat.add_comm 1]
      · rw [if_neg more,if_neg (by omega)]
    · rw [if_neg quote,List.count_cons_of_ne quote,ih num small]

theorem put_some {room : Nat} {res : List UInt8} (c : UInt8) (fits : res.length < room) : put room res c = some (res ++ [c]) := if_pos fits

/-- The quotes of a field, doubled. -/
def doubled (s : List UInt8) : List UInt8 := s.flatMap fun c => if c = 34 then [34,c] else [c]

theorem doubled_quote (s : List UInt8) : doubled (34 :: s) = 34 :: 34 :: doubled s := rfl

theorem doubled_other {c : UInt8} (other : c ≠ 34) (s : List UInt8) : doubled (c :: s) = c :: doubled s := by
  rw [doubled,List.flatMap_cons,if_neg other]
  rfl

theorem doubled_length (s : List UInt8) : (doubled s).length = s.length + s.count 34 := by
  induction s with
  | nil => rfl
  | cons c s ih =>
    by_cases quote : c = 34
    · subst quote
      rw [doubled_quote,List.count_cons_self,List.length_cons,List.length_cons,List.length_cons,ih]
      omega
    · rw [doubled_other quote,List.count_cons_of_ne quote,List.length_cons,List.length_cons,ih]
      omega

theorem writeField_eq {room : Nat} (s res : List UInt8) (fits : res.length + (doubled s).length ≤ room) :
    writeField room res s = some (res ++ doubled s) := by
  induction s generalizing res with
  | nil => exact congrArg some (List.append_nil res).symm
  | cons c s ih =>
    by_cases quote : c = 34
    · subst quote
      rw [doubled_quote,List.length_cons,List.length_cons] at fits
      have first : (res ++ [34]).length = res.length + 1 := List.length_append
      have second : (res ++ [34] ++ [34]).length = res.length + 2 := by rw [List.length_append,List.length_singleton,first]
      rw [writeField,if_pos rfl,put_some 34 (by omega)]
      simp only [Option.bind_eq_bind,Option.bind_some]
      rw [put_some 34 (by omega),Option.bind_some,ih _ (by omega),doubled_quote]
      simp
    · rw [doubled_other quote,List.length_cons] at fits
      rw [writeField,if_neg quote]
      simp only [Option.bind_eq_bind,Option.bind_some]
      rw [put_some c (by omega),Option.bind_some,ih _ (by rw [List.length_append,List.length_singleton]; omega),doubled_other quote]
      simp

/-- What is allocated is enough. -/
theorem writeQuoted_eq (s : Text) : writeQuoted (s.length + 3 + s.count 34) s = some (34 :: (doubled s ++ [34]) ++ [0]) := by
  have length := doubled_length s
  have quoted : ([34] ++ doubled s : List UInt8).length = s.length + s.count 34 + 1 := by
    rw [List.length_append,List.length_singleton,length]
    omega
  have closed : ([34] ++ doubled s ++ [34] : List UInt8).length = s.length + s.count 34 + 2 := by
    rw [List.length_append,List.length_singleton,quoted]
  rw [writeQuoted,put_some 34 (by rw [List.length_nil]; omega)]
  simp only [Option.bind_eq_bind,Option.bind_some]
  rw [List.nil_append,writeField_eq s [34] (by rw [List.length_singleton]; omega),Option.bind_some,put_some 34 (by omega),Option.bind_some,
    put_some 0 (by omega)]
  rfl

variable {delim : UInt8}

theorem stringAt_start {s : Text} (free : 0 ∉ s) : stringAt (s ++ [0]) 0 = s := by
  rw [stringAt,List.drop_zero,List.takeWhile_append_of_pos,List.takeWhile_cons_of_neg (by simp),List.append_nil]
  intro c inside
  simpa using fun zero : c = 0 => free (zero ▸ inside)

variable (delim) in
/-- The field is encoded when its quotes can be counted. -/
theorem csvEncode_eq {s : Text} (free : 0 ∉ s) :
    csvEncode delim s = if s.count 34 < 2^31 then some (acPoolCsvEncode delim s) else none := by
  have clean := PoolCsv.encode_nulFree delim free
  rw [csvEncode]
  rw [acPoolCsvEncode] at clean ⊢
  by_cases needs : (s.any fun c => c = delim || c = 10 || c = 34) = true
  · rw [if_pos needs] at clean ⊢
    rw [if_pos needs,countQuotes_eq 0 (by decide),Nat.zero_add]
    by_cases small : s.count 34 < 2^31
    · rw [if_pos small,if_pos small,Option.bind_eq_bind,Option.bind_some,writeQuoted_eq,Option.bind_eq_bind,Option.bind_some]
      exact congrArg some (stringAt_start clean)
    · rw [if_neg small,if_neg small]
      rfl
  · have quoteless : s.count 34 = 0 := by
      rw [List.count_eq_zero]
      intro quote
      exact needs (List.any_eq_true.mpr ⟨34,quote,by simp⟩)
    rw [if_neg needs,if_neg needs,if_pos (by omega)]

/-! ## A row -/

theorem encodeRow_small {row : List Text} (free : ∀ f ∈ row, 0 ∉ f) (small : ∀ f ∈ row, f.count 34 < 2^31) :
    encodeRow delim row = some (csvLine delim row) := by
  induction row with
  | nil => rfl
  | cons f row ih =>
    have first : csvEncode delim f = some (acPoolCsvEncode delim f) := by
      rw [csvEncode_eq delim (free f List.mem_cons_self),if_pos (small f List.mem_cons_self)]
    cases row with
    | nil => exact first
    | cons g row =>
      have later := ih (fun h inside => free h (List.mem_cons_of_mem _ inside)) (fun h inside => small h (List.mem_cons_of_mem _ inside))
      rw [encodeRow,first,later]
      rfl

theorem encodeRow_some {row : List Text} (free : ∀ f ∈ row, 0 ∉ f) {line : Text} (encoded : encodeRow delim row = some line) :
    ∀ f ∈ row, f.count 34 < 2^31 := by
  have each : ∀ f : Text, 0 ∉ f → (csvEncode delim f).isSome → f.count 34 < 2^31 := by
    intro f free encodes
    rw [csvEncode_eq delim free] at encodes
    by_contra large
    rw [if_neg large] at encodes
    cases encodes
  induction row generalizing line with
  | nil => exact fun f inside => absurd inside List.not_mem_nil
  | cons f row ih =>
    have nulFree := free f List.mem_cons_self
    cases row with
    | nil =>
      intro f' inside
      cases List.mem_singleton.mp inside
      exact each f nulFree (Option.isSome_iff_exists.mpr ⟨line,encoded⟩)
    | cons g row =>
      rw [encodeRow] at encoded
      obtain ⟨first,isFirst,encoded⟩ := Option.bind_eq_some_iff.mp encoded
      obtain ⟨later,isLater,-⟩ := Option.bind_eq_some_iff.mp encoded
      intro f' inside
      cases List.mem_cons.mp inside with
      | inl same =>
        subst same
        exact each f' nulFree (Option.isSome_iff_exists.mpr ⟨first,isFirst⟩)
      | inr inside => exact ih (fun h inside => free h (List.mem_cons_of_mem _ inside)) isLater f' inside

/-- The row is encoded, joined and split into its fields again, where no field has quotes that
    are too many for an `int`. -/
theorem csv_fields_kept_iff (delim : UInt8) (nonzero : delim ≠ 0) (noQuote : delim ≠ 34) (row : List Text) (filled : row ≠ [])
    (free : ∀ f ∈ row, 0 ∉ f) : (∃ line, encodeRow delim row = some line ∧ Splits delim line row) ↔ ∀ f ∈ row, f.count 34 < 2^31 := by
  constructor
  · rintro ⟨line,encoded,-⟩
    exact encodeRow_some free encoded
  · intro small
    exact ⟨_,encodeRow_small free small,splits (line_nulFree nonzero free) (splitFields_line noQuote filled)⟩

/-- `"`, an empty field, and `a,`. -/
theorem csv_fields_kept_three : ∃ line, encodeRow 44 [[34],[],[97,44]] = some line ∧ Splits 44 line [[34],[],[97,44]] := by
  refine (csv_fields_kept_iff 44 (by decide) (by decide) [[34],[],[97,44]] (by decide) ?_).mpr ?_
  · decide
  · intro f inside
    simp only [List.mem_cons,List.not_mem_nil,or_false] at inside
    rcases inside with rfl | rfl | rfl <;> simp

/-- Two to the 31st quotes. -/
theorem quotes_uncounted :
    ¬ ∃ line, encodeRow 44 [List.replicate (2^31) 34] = some line ∧ Splits 44 line [List.replicate (2^31) 34] := by
  rintro ⟨line,encoded,-⟩
  have free : ∀ f ∈ [List.replicate (2^31) (34 : UInt8)], 0 ∉ f := by
    intro f inside zero
    rw [List.mem_singleton.mp inside] at zero
    exact absurd (List.eq_of_mem_replicate zero) (by decide)
  have small := encodeRow_some free encoded _ List.mem_cons_self
  rw [List.count_replicate_self] at small
  exact Nat.lt_irrefl _ small

end AnotherC.PoolEncodeCsv
