import AnotherC.Core.PoolCsv
import AnotherC.Io.Framing
import AnotherC.Io.InSearch
import Mathlib.Data.List.TakeWhile

/-!
# CSV files

A record of a CSV file ends at a newline outside of quotes. The reader keeps track
of quotes only within a piece of the buffer: `csv_round_trip_iff` states exactly
which tables are read back, in terms of where the pieces begin.
-/
namespace AnotherC.CsvFile
open AnotherC.Lib.Bytes
open AnotherC.Lib.Stream (Yields)
open AnotherC.Lib.Text (Text)
open AnotherC.InBase
open AnotherC.InSearch
open AnotherC.PoolCsv
open AnotherC.Framing (Format In acInInit)
set_option linter.unusedVariables false

/-- `ac_io_csv_delimiter`. -/
def acIoCsvDelimiter (delim : Int) : Format := -(delim + 257)

/-- The loop over `p` for CSV, outside or inside of quotes. -/
def findCsv (delim : Int) : Bool → List UInt8 → Option Nat
  | _, [] => none
  | false, c :: rest =>
    if signedChar c = 34 then (findCsv delim true rest).map (· + 1)
    else if signedChar c ≠ delim then (findCsv delim false rest).map (· + 1)
    else some 0
  | true, c :: rest =>
    if signedChar c ≠ 34 then (findCsv delim true rest).map (· + 1)
    else
      match rest with
      | [] => none
      | c₂ :: rest₂ =>
        if signedChar c₂ = 34 then (findCsv delim true rest₂).map (· + 2)
        else (findCsv delim false (c₂ :: rest₂)).map (· + 1)

/-- `ac_in_base_read_delimited`, with the quoting of CSV for delimiters from 256 on. -/
def readDelimited (h : InBase) (delim : Int) (required : Bool) : Option (Option Found × InBase) :=
  if delim ≥ 256 then readWith (findCsv (delim - 256) false) h required else readWith (findDelimiter delim) h required

theorem readDelimited_plain (h : InBase) {delim : Int} (small : delim < 256) (required : Bool) :
    readDelimited h delim required = acInBaseReadDelimited h delim required := by
  rw [readDelimited,if_neg (by omega),readWith_delimiter]

/-- `ac_io_record_t`: the length, and the bytes at `record` up to where it is
    terminated. -/
structure Record where
  length : Nat
  record : List UInt8
deriving Repr, DecidableEq

/-- `_advance_delimited`. -/
def advanceDelimited (h : In) (delimiter : Int) : Option (Option Record × In) :=
  match readDelimited h.base delimiter h.fullRecordRequired with
  | none => none
  | some (none,base) => some (none,{ h with base := base })
  | some (some found,base) => some (some ⟨uint32 found.rlen,found.p⟩,{ h with base := base })

/-- `ac_in_advance` for a delimiter format. -/
def acInAdvance (h : In) : Option (Option Record × In) := advanceDelimited h (-h.format - 1)

/-- The string that a pointer to the record stands for. -/
def Record.text (r : Record) : Text := r.record.takeWhile (· ≠ 0)

/-- The rows as lines, each ended by a newline. -/
def csvFile (rows : List (List Text)) : List UInt8 := rows.flatMap fun row => csvLine 44 row ++ [10]

/-! ### Searching -/

/-- A newline that an even number of quotes stands before, counting one more for a
    search that begins inside of quotes. -/
def Newline (quoted : Bool) (xs : List UInt8) (j : Nat) : Prop :=
  xs[j]? = some 10 ∧ endsQuoted quoted (xs.take j) = false

theorem signedChar_quote (c : UInt8) : signedChar c = 34 ↔ c = 34 := by
  have := c.toNat_lt
  rw [← UInt8.toNat_inj]
  simp only [signedChar,UInt8.reduceToNat]
  split <;> omega

theorem signedChar_newline (c : UInt8) : signedChar c = 10 ↔ c = 10 := by
  have := c.toNat_lt
  rw [← UInt8.toNat_inj]
  simp only [signedChar,UInt8.reduceToNat]
  split <;> omega

/-- A doubled quote is as good as one that closes and one that opens: the search goes
    on with the state of the walk. -/
theorem findCsv_cons (quoted : Bool) (c : UInt8) (rest : List UInt8) :
    findCsv 10 quoted (c :: rest) =
      if c = 10 ∧ quoted = false then some 0
      else (findCsv 10 (if c = 34 then !quoted else quoted) rest).map (· + 1) := by
  rw [findCsv.eq_def]
  simp only [ne_eq,signedChar_quote,signedChar_newline]
  cases quoted with
  | false =>
    by_cases quote : c = 34
    · simp [quote]
    · by_cases line : c = 10 <;> simp [quote,line]
  | true =>
    by_cases quote : c = 34
    · simp only [quote,not_true_eq_false,if_false,if_true,Bool.not_true,Bool.true_eq_false,and_false]
      cases rest with
      | nil => rfl
      | cons c₂ rest =>
        by_cases quote₂ : c₂ = 34
        · have opens : findCsv 10 false (c₂ :: rest) = (findCsv 10 true rest).map (· + 1) := by
            rw [findCsv,if_pos ((signedChar_quote c₂).mpr quote₂)]
          simp only [if_pos quote₂,opens,Option.map_map]
          rfl
        · simp only [if_neg quote₂]
    · simp [quote]

theorem newline_zero (quoted : Bool) (c : UInt8) (rest : List UInt8) :
    Newline quoted (c :: rest) 0 ↔ c = 10 ∧ quoted = false := by
  simp [Newline,endsQuoted]

theorem newline_succ (quoted : Bool) (c : UInt8) (rest : List UInt8) (j : Nat) :
    Newline quoted (c :: rest) (j + 1) ↔ Newline (if c = 34 then !quoted else quoted) rest j := by
  simp [Newline,endsQuoted]

theorem findCsv_found {quoted : Bool} {xs : List UInt8} {i : Nat} (found : findCsv 10 quoted xs = some i) :
    Newline quoted xs i ∧ ∀ j < i, ¬ Newline quoted xs j := by
  induction xs generalizing quoted i with
  | nil => cases quoted <;> cases found
  | cons c xs ih =>
    rw [findCsv_cons] at found
    by_cases here : c = 10 ∧ quoted = false
    · rw [if_pos here] at found
      cases found
      exact ⟨(newline_zero quoted c xs).mpr here,nofun⟩
    · rw [if_neg here] at found
      obtain ⟨k,later,rfl⟩ := Option.map_eq_some_iff.mp found
      obtain ⟨isLine,first⟩ := ih later
      refine ⟨(newline_succ quoted c xs k).mpr isLine,fun j below isLine => ?_⟩
      cases j with
      | zero => exact here ((newline_zero quoted c xs).mp isLine)
      | succ j => exact first j (by omega) ((newline_succ quoted c xs j).mp isLine)

theorem findCsv_unfound {quoted : Bool} {xs : List UInt8} (unfound : findCsv 10 quoted xs = none) (j : Nat) :
    ¬ Newline quoted xs j := by
  induction xs generalizing quoted j with
  | nil => simp [Newline]
  | cons c xs ih =>
    rw [findCsv_cons] at unfound
    by_cases here : c = 10 ∧ quoted = false
    · rw [if_pos here] at unfound
      cases unfound
    · rw [if_neg here] at unfound
      have later := ih (Option.map_eq_none_iff.mp unfound)
      intro isLine
      cases j with
      | zero => exact here ((newline_zero quoted c xs).mp isLine)
      | succ j => exact later j ((newline_succ quoted c xs j).mp isLine)

/-- The search for CSV finds the first newline outside of quotes. -/
theorem findCsv_searches : Searches (findCsv 10 false) (Newline false) where
  found xs i found := findCsv_found found
  unfound xs unfound := findCsv_unfound unfound
  inside xs j isLine := (List.getElem?_eq_some_iff.mp isLine.1).1
  start xs ys j below := by
    unfold Newline
    rw [List.getElem?_append_left below,List.take_append_of_le_length (Nat.le_of_lt below)]

/-! ### Lines -/

/-- The newlines of what is shielded have an odd number of quotes before them. -/
theorem shielded_newline {quoted : Bool} {xs : List UInt8} (shielded : Shielded quoted xs) {j : Nat} (isLine : xs[j]? = some 10) :
    endsQuoted quoted (xs.take j) = true := by
  induction xs generalizing quoted j with
  | nil => cases isLine
  | cons c xs ih =>
    rw [Shielded] at shielded
    cases j with
    | zero =>
      simp only [List.getElem?_cons_zero,Option.some.injEq] at isLine
      subst isLine
      have both : quoted = true ∧ Shielded quoted xs := by simpa using shielded
      exact both.1
    | succ j =>
      rw [List.getElem?_cons_succ] at isLine
      rw [List.take_succ_cons,endsQuoted]
      by_cases quote : c = 34
      · simp only [quote,if_true] at shielded ⊢
        exact ih shielded isLine
      · simp only [quote,if_false] at shielded ⊢
        exact ih shielded.2 isLine

/-- A walk can begin in the middle: a different state there is a different state at
    the end. -/
theorem endsQuoted_not (quoted : Bool) (xs : List UInt8) : endsQuoted (!quoted) xs = !endsQuoted quoted xs := by
  induction xs generalizing quoted with
  | nil => rfl
  | cons c xs ih =>
    rw [endsQuoted,endsQuoted]
    by_cases quote : c = 34
    · simp only [quote,if_true]
      exact ih _
    · simp only [quote,if_false]
      exact ih _

/-- In every line, each newline and the one that ends it are searched in a piece that
    begins outside of quotes: an even number of quotes of the line stands before it.
    `filled` is how much is buffered at the beginning of a line. -/
def Aligned (room : Nat) : Nat → List (List UInt8) → Prop
  | _, [] => True
  | filled, line :: lines =>
    (∀ j, (line ++ [10])[j]? = some 10 → endsQuoted false (line.take (pieceStart room filled j)) = false) ∧
      Aligned room (nextFilled room filled line.length) lines

/-- The bytes of the line between the beginning of a piece and a place. -/
theorem endsQuoted_split (line : List UInt8) {begin j : Nat} (before : begin ≤ j) :
    endsQuoted false (line.take j) = endsQuoted (endsQuoted false (line.take begin)) ((line.drop begin).take (j - begin)) := by
  have cut : line.take j = line.take begin ++ (line.drop begin).take (j - begin) := by
    rw [← List.take_add,Nat.add_sub_cancel' before]
  rw [cut,endsQuoted_append]

/-- Where the search of a piece ends in a line: at the newlines in quotes if the piece
    begins inside of quotes, and at the end of the line if it begins outside. -/
theorem breaks_line {line rest : List UInt8} (ends : endsQuoted false line = false) (shielded : Shielded false line)
    (room filled : Nat) {j : Nat} (inside : j ≤ line.length) :
    Breaks (Newline false) room filled (line ++ 10 :: rest) j ↔
      (line ++ [10])[j]? = some 10 ∧
        (endsQuoted false (line.take (pieceStart room filled j)) = true ↔ j < line.length) := by
  have before := pieceStart_le room filled j
  have here : ((line ++ 10 :: rest).drop (pieceStart room filled j))[j - pieceStart room filled j]? =
      (line ++ [10])[j]? := by
    rw [List.getElem?_drop,Nat.add_sub_cancel' before]
    by_cases earlier : j < line.length
    · rw [List.getElem?_append_left earlier,List.getElem?_append_left earlier]
    · have last : j = line.length := by omega
      rw [last,List.getElem?_append_right (Nat.le_refl _),List.getElem?_append_right (Nat.le_refl _),Nat.sub_self]
      rfl
  have between : ((line ++ 10 :: rest).drop (pieceStart room filled j)).take (j - pieceStart room filled j) =
      (line.drop (pieceStart room filled j)).take (j - pieceStart room filled j) := by
    rw [List.drop_append_of_le_length (by omega),List.take_append_of_le_length (by rw [List.length_drop]; omega)]
  rw [Breaks,Newline,here,between]
  refine and_congr_right fun isLine => ?_
  have whole := endsQuoted_split line before
  have other := endsQuoted_not false ((line.drop (pieceStart room filled j)).take (j - pieceStart room filled j))
  rw [Bool.not_false] at other
  by_cases earlier : j < line.length
  · rw [List.getElem?_append_left earlier] at isLine
    rw [shielded_newline shielded isLine] at whole
    simp only [earlier,iff_true]
    cases begins : endsQuoted false (line.take (pieceStart room filled j)) with
    | false =>
      rw [begins] at whole
      simp [← whole]
    | true =>
      rw [begins,other] at whole
      simpa using whole.symm
  · have last : j = line.length := by omega
    have all : line.take j = line := by rw [last,List.take_length]
    rw [all,ends] at whole
    simp only [earlier,iff_false,Bool.not_eq_true]
    cases begins : endsQuoted false (line.take (pieceStart room filled j)) with
    | false =>
      rw [begins] at whole
      simp [← whole]
    | true =>
      rw [begins,other] at whole
      simpa using whole.symm

/-- The reader finds the end of a line exactly when the line is aligned. -/
theorem first_line {line rest : List UInt8} (ends : endsQuoted false line = false) (shielded : Shielded false line)
    (room filled : Nat) :
    First (Breaks (Newline false) room filled (line ++ 10 :: rest)) line.length ↔
      ∀ j, (line ++ [10])[j]? = some 10 → endsQuoted false (line.take (pieceStart room filled j)) = false := by
  have last : (line ++ [10])[line.length]? = some 10 := by
    rw [List.getElem?_append_right (Nat.le_refl _),Nat.sub_self]
    rfl
  constructor
  · rintro ⟨breaks,first⟩ j isLine
    obtain ⟨below,_⟩ := List.getElem?_eq_some_iff.mp isLine
    rw [List.length_append,List.length_singleton] at below
    by_cases earlier : j < line.length
    · have noBreak := first j earlier
      rw [breaks_line ends shielded room filled (Nat.le_of_lt earlier)] at noBreak
      simp only [isLine,true_and,earlier,iff_true] at noBreak
      simpa using noBreak
    · have same : j = line.length := by omega
      rw [breaks_line ends shielded room filled (Nat.le_refl _)] at breaks
      rw [same]
      simpa using breaks.2
  · intro aligned
    constructor
    · rw [breaks_line ends shielded room filled (Nat.le_refl _)]
      exact ⟨last,by simp [aligned line.length last]⟩
    · intro j earlier breaks
      rw [breaks_line ends shielded room filled (Nat.le_of_lt earlier)] at breaks
      have begins := aligned j breaks.1
      rw [breaks.2.mpr earlier] at begins
      cases begins

/-! ### Records -/

/-- A table: rows that have fields, and fields without a zero. -/
def Table (rows : List (List Text)) : Prop := ∀ row ∈ rows, row ≠ [] ∧ ∀ f ∈ row, 0 ∉ f

theorem file_nulFree {rows : List (List Text)} (table : Table rows) : 0 ∉ csvFile rows := by
  intro member
  obtain ⟨row,inTable,member⟩ := List.mem_flatMap.mp member
  rcases List.mem_append.mp member with inLine | newline
  · exact line_nulFree (by decide) (table row inTable).2 inLine
  · exact absurd (List.mem_singleton.mp newline) (by decide)

theorem text_nulFree {r : Record} (free : 0 ∉ r.record) : r.text = r.record := by
  refine List.takeWhile_eq_self_iff.mpr fun c member => ?_
  have nonzero : c ≠ 0 := fun zero => free (zero ▸ member)
  simpa using nonzero

/-- The rows that splitting every record gives. -/
def Rows (records : List Record) (rows : List (List Text)) : Prop :=
  records.map (fun r => acPoolSplitCsv 44 r.text) = rows.map fun row => some (row.length,row)

/-- A record that is split into the row has as many bytes that are no quotes as its
    line. -/
theorem split_plain {row : List Text} (filled : row ≠ []) {x : List UInt8}
    (split : acPoolSplitCsv 44 x = some (row.length,row)) : plain x = plain (csvLine 44 row) := by
  have whole : ∀ y, acPoolSplitCsv 44 y = some (row.length,row) → plainRow row = plain y + 1 := by
    intro y split
    rw [acPoolSplitCsv_eq,Option.map_eq_some_iff] at split
    obtain ⟨fields,split,same⟩ := split
    rw [← (Prod.mk.inj same).2]
    simpa using splitFields_plain (by decide) false [] y fields split
  have first := whole x split
  have second := whole _ (acPoolSplitCsv_line (by decide) filled)
  omega

/-- A record that ends at another place than its line is split otherwise. -/
theorem split_elsewhere {row : List Text} (filled : row ≠ []) {rest : List UInt8} {n : Nat}
    (isLine : (csvLine 44 row ++ 10 :: rest)[n]? = some 10) (elsewhere : n ≠ (csvLine 44 row).length) :
    acPoolSplitCsv 44 ((csvLine 44 row ++ 10 :: rest).take n) ≠ some (row.length,row) := by
  intro split
  have same := split_plain filled split
  rcases Nat.lt_or_gt_of_ne elsewhere with before | behind
  · rw [List.take_append_of_le_length (Nat.le_of_lt before)] at same
    rw [List.getElem?_append_left before] at isLine
    have cut := List.drop_eq_getElem_cons before
    rw [List.getElem?_eq_getElem before,Option.some.injEq] at isLine
    rw [isLine] at cut
    have whole := congrArg plain (List.take_append_drop n (csvLine 44 row))
    rw [plain_append,cut,plain_other (by decide)] at whole
    omega
  · have cut : (csvLine 44 row ++ 10 :: rest).take n =
        csvLine 44 row ++ 10 :: rest.take (n - (csvLine 44 row).length - 1) := by
      rw [List.take_append,List.take_of_length_le (by omega),List.take_cons (by omega)]
    rw [cut,plain_append,plain_other (by decide)] at same
    omega

/-! ### Reading the file -/

/-- An input for CSV whose base is ahead of these bytes. -/
structure CsvAhead (size room : Nat) (h : In) (filled : Nat) (rest : List UInt8) : Prop where
  format : h.format = acIoCsvDelimiter 10
  required : h.fullRecordRequired = true
  ahead : Ahead size room h.base filled rest

theorem csv_calls {size room filled : Nat} {h : In} {rest : List UInt8} (ahead : CsvAhead size room h filled rest) :
    acInAdvance h =
      match readWith (findCsv 10 false) h.base true with
      | none => none
      | some (none,base) => some (none,{ h with base := base })
      | some (some found,base) => some (some ⟨uint32 found.rlen,found.p⟩,{ h with base := base }) := by
  obtain ⟨base,format,required⟩ := h
  have isFormat : format = acIoCsvDelimiter 10 := ahead.format
  have isRequired : required = true := ahead.required
  subst isFormat isRequired
  rfl

theorem csv_ends {size room filled : Nat} (positive : 0 < room) {h : In} (ahead : CsvAhead size room h filled []) :
    Yields acInAdvance h [] := by
  refine Yields.ends (P := fun h => ∃ filled, CsvAhead size room h filled []) (fun h holds => ?_) ⟨filled,ahead⟩
  obtain ⟨filled,ahead⟩ := holds
  rcases readWith_reads findCsv_searches positive ahead.ahead with ⟨n,_,_,short,_⟩ | ⟨_,base,answer,filled',next⟩
  · exact absurd short (Nat.not_lt_zero n)
  · refine ⟨{ h with base := base },?_,filled',ahead.format,ahead.required,next⟩
    rw [csv_calls ahead,answer]

theorem csv_yields {size room : Nat} (positive : 0 < room) {rows : List (List Text)} (table : Table rows) {h : In}
    {filled : Nat} (ahead : CsvAhead size room h filled (csvFile rows)) :
    (∃ records, Yields acInAdvance h records ∧ Rows records rows) ↔ Aligned room filled (rows.map (csvLine 44)) := by
  induction rows generalizing h filled with
  | nil => exact ⟨fun _ => trivial,fun _ => ⟨[],csv_ends positive ahead,rfl⟩⟩
  | cons row rows ih =>
    have calls := csv_calls ahead
    obtain ⟨filledRow,_⟩ := table row List.mem_cons_self
    have later : Table rows := fun r member => table r (List.mem_cons_of_mem _ member)
    obtain ⟨ends,shielded⟩ := line_walk (show (44 : UInt8) ≠ 34 by decide) (by decide) row
    have file : csvFile (row :: rows) = csvLine 44 row ++ 10 :: csvFile rows := by simp [csvFile]
    have base := ahead.ahead
    have nulFree := file_nulFree table
    rw [file] at base nulFree
    have firstIff : First (Breaks (Newline false) room filled (csvLine 44 row ++ 10 :: csvFile rows)) (csvLine 44 row).length ↔
        _ := first_line ends shielded room filled
    rw [List.map_cons,Aligned,← firstIff]
    rcases readWith_reads findCsv_searches positive base with ⟨n,base',first,short,answer,next⟩ | ⟨unbroken,base',answer,_⟩
    · rw [answer] at calls
      have text : Record.text ⟨uint32 (int32 n),(csvLine 44 row ++ 10 :: csvFile rows).take n⟩ =
          (csvLine 44 row ++ 10 :: csvFile rows).take n :=
        text_nulFree fun member => nulFree (List.mem_of_mem_take member)
      by_cases same : n = (csvLine 44 row).length
      · subst same
        rw [List.take_left' rfl] at text calls
        rw [← List.drop_drop,List.drop_left' rfl,List.drop_one,List.tail_cons] at next
        have rest := ih later (h := { h with base := base' }) ⟨ahead.format,ahead.required,next⟩
        have split := acPoolSplitCsv_line (show (44 : UInt8) ≠ 34 by decide) filledRow
        constructor
        · rintro ⟨records,yields,split⟩
          cases records with
          | nil => cases split
          | cons r records =>
            obtain ⟨_,yields⟩ := (Yields.cons_iff calls).mp yields
            exact ⟨first,rest.mp ⟨records,yields,(List.cons.inj split).2⟩⟩
        · rintro ⟨_,aligned⟩
          obtain ⟨records,yields,splits⟩ := rest.mpr aligned
          refine ⟨_,Yields.cons calls yields,?_⟩
          rw [Rows,List.map_cons,List.map_cons,text,split,splits]
      · refine iff_of_false ?_ fun aligned => same (first.unique aligned.1)
        rintro ⟨records,yields,split⟩
        cases records with
        | nil => cases split
        | cons r records =>
          obtain ⟨isRecord,_⟩ := (Yields.cons_iff calls).mp yields
          have splitFirst := (List.cons.inj split).1
          rw [← isRecord] at splitFirst
          dsimp only at splitFirst
          rw [text] at splitFirst
          have isLine : (csvLine 44 row ++ 10 :: csvFile rows)[n]? = some 10 := by
            have hit := first.1.1
            rwa [List.getElem?_drop,Nat.add_sub_cancel' (pieceStart_le room filled n)] at hit
          exact split_elsewhere filledRow isLine same splitFirst
    · rw [answer] at calls
      refine iff_of_false ?_ fun aligned => unbroken _ aligned.1.1
      rintro ⟨records,yields,split⟩
      cases records with
      | nil => cases split
      | cons r records => exact Yields.not_cons calls yields

/-- A file that the buffer holds as a whole is in one piece. -/
theorem aligned_of_short {room filled : Nat} {lines : List (List UInt8)}
    (short : (lines.flatMap fun line => line ++ [10]).length ≤ filled) : Aligned room filled lines := by
  induction lines generalizing filled with
  | nil => trivial
  | cons line lines ih =>
    rw [List.flatMap_cons,List.length_append,List.length_append,List.length_singleton] at short
    refine ⟨fun j isLine => ?_,ih ?_⟩
    · obtain ⟨below,_⟩ := List.getElem?_eq_some_iff.mp isLine
      rw [List.length_append,List.length_singleton] at below
      rw [pieceStart_buffered (by omega),List.take_zero]
      rfl
    · rw [nextFilled,if_pos (by omega)]
      omega

/-- A row whose second newline is the first byte of the second piece. -/
def straddling : List Text := [List.replicate 254 97 ++ [44,10]]

end AnotherC.CsvFile
