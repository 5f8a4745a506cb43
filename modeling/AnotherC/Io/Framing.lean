import AnotherC.Io.InBase
import AnotherC.Lib.Stream

/-!
# Records in files: `ac_out` and `ac_in`

A file holds its records one after the other: behind their length in four bytes,
of one fixed length, or each followed by a delimiter. The writer and the reader
cut the file at boundaries of their own. `file_round_trip` states exactly when the
reader gives back what was written.
-/
namespace AnotherC.Framing
open AnotherC.Lib
open AnotherC.Lib.Bytes
open AnotherC.Lib.Stream (Yields)
open AnotherC.InBase
set_option linter.unusedVariables false

/-- `ac_io_format_t`. -/
abbrev Format := Int

def acIoDelimiter (delim : Int) : Format := -(delim + 1)

def acIoFixed (size : Int) : Format := size

def acIoPrefix : Format := 0

/-! ### The writer -/

/-- `ac_out_t` over a file descriptor; `file` is what was written to it. -/
structure Out where
  buffer : List UInt8
  bufferSize : Nat
  file : List UInt8
  format : Format
deriving Repr, DecidableEq

def acOutInit (bufferSize : Nat) (format : Format) : Out := ⟨[],bufferSize,[],format⟩

/-- `_ac_out_write`; with no bytes it empties the buffer. -/
def writeD (h : Out) (d : List UInt8) : Out :=
  if h.buffer.length + d.length < h.bufferSize then
    if d.length ≠ 0 then { h with buffer := h.buffer ++ d }
    else { h with file := h.file ++ h.buffer, buffer := [] }
  else
    let diff := h.bufferSize - h.buffer.length
    let h := { h with file := h.file ++ (h.buffer ++ d.take diff), buffer := [] }
    let d := d.drop diff
    if d.length ≥ h.bufferSize then { h with file := h.file ++ d } else { h with buffer := d }

def acOutWrite (h : Out) (d : List UInt8) : Out := if d.length = 0 then h else writeD h d

def acOutWritePrefix (h : Out) (d : List UInt8) : Out :=
  let length := d.length % 2 ^ 32
  acOutWrite (acOutWrite h (bytes 4 length)) (d.take length)

/-- The delimiter is kept as an `unsigned char`. -/
def acOutWriteDelimiter (h : Out) (delimiter : UInt8) (d : List UInt8) : Out := acOutWrite (acOutWrite h d) [delimiter]

/-- A record of another length is `abort`. -/
def acOutWriteFixed (h : Out) (fixed : Nat) (d : List UInt8) : Option Out :=
  if d.length ≠ fixed then none else some (acOutWrite h d)

/-- `ac_out_write_record`: the call through the function pointer that
    `_ac_out_init_` sets by the format. -/
def acOutWriteRecord (h : Out) (d : List UInt8) : Option Out :=
  if h.format < 0 then
    let delim := -h.format - 1
    let delim := if delim ≥ 256 then delim - 256 else delim
    some (acOutWriteDelimiter h (UInt8.ofNat delim.toNat) d)
  else if h.format > 0 then acOutWriteFixed h h.format.toNat d
  else some (acOutWritePrefix h d)

def writeRecords (h : Out) : List (List UInt8) → Option Out
  | [] => some h
  | d :: records => (acOutWriteRecord h d).bind fun h => writeRecords h records

/-- `ac_out_flush`, when the output is destroyed. -/
def acOutFlush (h : Out) : List UInt8 := (writeD h []).file

/-! ### The reader -/

/-- `ac_in_t` over a file. -/
structure In where
  base : InBase
  format : Format
  fullRecordRequired : Bool
deriving Repr, DecidableEq

def acInInit (file : List UInt8) (bufferSize : Nat) (format : Format) : In := ⟨acInBaseInit file bufferSize,format,true⟩

/-- The record that stands in `rec`: its length is a `uint32_t`. -/
def record (found : Found) : List UInt8 := found.p.take (uint32 found.rlen)

def advancePrefix (h : In) : Option (Option (List UInt8) × In) :=
  match acInBaseRead h.base 4 with
  | none => none
  | some (none,base) => some (none,{ h with base := base })
  | some (some p,base) =>
    let length := number p
    if length > 0 then
      match acInBaseReadz32 base length with
      | none => none
      | some read =>
        -- the lengths are compared as `uint32_t`
        if read.1.rlen ≠ int32 length then some (none,{ h with base := read.2 })
        else some (some (read.1.p.take length),{ h with base := read.2 })
    else some (some [],{ h with base := base })

def advanceFixed (h : In) (fixed : Nat) : Option (Option (List UInt8) × In) :=
  let read := acInBaseReadz h.base fixed
  if read.1.rlen ≠ fixed then some (none,{ h with base := read.2 })
  else some (some (read.1.p.take fixed),{ h with base := read.2 })

def advanceDelimited (h : In) (delimiter : Int) : Option (Option (List UInt8) × In) :=
  match acInBaseReadDelimited h.base delimiter h.fullRecordRequired with
  | none => none
  | some (none,base) => some (none,{ h with base := base })
  | some (some found,base) => some (some (record found),{ h with base := base })

/-- `ac_in_advance`: the call through the function pointer that `_ac_in_init`
    sets by the format. -/
def acInAdvance (h : In) : Option (Option (List UInt8) × In) :=
  if h.format < 0 then advanceDelimited h (-h.format - 1)
  else if h.format > 0 then advanceFixed h h.format.toNat
  else advancePrefix h

/-! ### What is written -/

/-- The bytes written so far, also those that still are in the buffer. -/
def written (h : Out) : List UInt8 := h.file ++ h.buffer

theorem writeD_written (h : Out) (d : List UInt8) : written (writeD h d) = written h ++ d := by
  simp only [writeD]
  split
  · split
    · simp [written]
    case isFalse none =>
      have nothing : d = [] := List.length_eq_zero_iff.mp (by simpa using none)
      simp [written,nothing]
  · split <;> simp [written]

theorem acOutWrite_written (h : Out) (d : List UInt8) : written (acOutWrite h d) = written h ++ d := by
  simp only [acOutWrite]
  split
  case isTrue none => rw [List.length_eq_zero_iff.mp none,List.append_nil]
  case isFalse => exact writeD_written h d

theorem writeD_fields (h : Out) (d : List UInt8) :
    (writeD h d).format = h.format ∧ (writeD h d).bufferSize = h.bufferSize := by
  simp only [writeD]
  split <;> split <;> exact ⟨rfl,rfl⟩

theorem acOutWrite_fields (h : Out) (d : List UInt8) :
    (acOutWrite h d).format = h.format ∧ (acOutWrite h d).bufferSize = h.bufferSize := by
  simp only [acOutWrite]
  split
  · exact ⟨rfl,rfl⟩
  · exact writeD_fields h d

/-- The output is flushed to its last byte, whatever the size of the buffer. -/
theorem acOutFlush_written (h : Out) : acOutFlush h = written h := by
  have all := writeD_written h []
  have empty : (writeD h []).buffer = [] := by
    simp only [writeD,List.length_nil,List.drop_nil]
    split
    · rfl
    · split <;> rfl
  rw [written,empty,List.append_nil,List.append_nil] at all
  exact all

/-! ### Formats -/

/-- The three kinds of format. -/
inductive Kind
  | prefixed
  | fixed (size : Nat)
  | delimited (delim : UInt8)
deriving Repr, DecidableEq

def Kind.format : Kind → Format
  | .prefixed => acIoPrefix
  | .fixed size => acIoFixed size
  | .delimited delim => acIoDelimiter delim.toNat

/-- The records that can be written in a format. -/
def Kind.Valid (records : List (List UInt8)) : Kind → Prop
  | .prefixed => ∀ d ∈ records, d.length < 2 ^ 31
  | .fixed size => 0 < size ∧ size < 2 ^ 31 ∧ ∀ d ∈ records, d.length = size
  | .delimited delim => ∀ d ∈ records, delim ∉ d

def Kind.frame : Kind → List UInt8 → List UInt8
  | .prefixed, d => bytes 4 d.length ++ d
  | .fixed _, d => d
  | .delimited delim, d => d ++ [delim]

def writeFile (bufferSize : Nat) (format : Format) (records : List (List UInt8)) : Option (List UInt8) :=
  (writeRecords (acOutInit bufferSize format) records).map acOutFlush

theorem record_written {kind : Kind} {h : Out} (format : h.format = kind.format) {d : List UInt8}
    (valid : kind.Valid [d]) :
    ∃ h', acOutWriteRecord h d = some h' ∧ h'.format = kind.format ∧ written h' = written h ++ kind.frame d := by
  have fields := fun d => (acOutWrite_fields h d).1.trans format
  cases kind with
  | prefixed =>
    have small : d.length % 2 ^ 32 = d.length :=
      Nat.mod_eq_of_lt (Nat.lt_trans (valid d (by simp)) (by decide))
    refine ⟨acOutWritePrefix h d,?_,?_,?_⟩
    · simp only [acOutWriteRecord,format,Kind.format,acIoPrefix,Int.lt_irrefl,if_false,gt_iff_lt]
    · exact (acOutWrite_fields _ _).1.trans (fields _)
    · simp only [acOutWritePrefix,acOutWrite_written,small,List.take_length,Kind.frame,List.append_assoc]
  | fixed size =>
    obtain ⟨positive,_,length⟩ := valid
    refine ⟨acOutWrite h d,?_,fields d,acOutWrite_written h d⟩
    have notNegative : ¬ (size : Int) < 0 := by omega
    have isPositive : (size : Int) > 0 := by omega
    simp only [acOutWriteRecord,format,Kind.format,acIoFixed,notNegative,if_false,isPositive,if_true,acOutWriteFixed,
      Int.toNat_natCast,length d (by simp),ne_eq,not_true_eq_false]
  | delimited delim =>
    have small := delim.toNat_lt
    refine ⟨acOutWriteDelimiter h delim d,?_,?_,?_⟩
    · have negative : -((delim.toNat : Int) + 1) < 0 := by omega
      have byte : - -((delim.toNat : Int) + 1) - 1 = delim.toNat := by omega
      have below : ¬ (delim.toNat : Int) ≥ 256 := by omega
      simp only [acOutWriteRecord,format,Kind.format,acIoDelimiter,negative,if_true,byte,below,if_false,
        Int.toNat_natCast,UInt8.ofNat_toNat]
    · exact (acOutWrite_fields _ _).1.trans (fields _)
    · simp only [acOutWriteDelimiter,acOutWrite_written,Kind.frame,List.append_assoc]

theorem valid_cons {kind : Kind} {d : List UInt8} {records : List (List UInt8)} (valid : kind.Valid (d :: records)) :
    kind.Valid [d] ∧ kind.Valid records := by
  cases kind with
  | prefixed => exact ⟨fun e member => valid e (by simp_all),fun e member => valid e (List.mem_cons_of_mem _ member)⟩
  | fixed size =>
    obtain ⟨positive,small,lengths⟩ := valid
    exact ⟨⟨positive,small,fun e member => lengths e (by simp_all)⟩,positive,small,
      fun e member => lengths e (List.mem_cons_of_mem _ member)⟩
  | delimited delim =>
    exact ⟨fun e member => valid e (by simp_all),fun e member => valid e (List.mem_cons_of_mem _ member)⟩

theorem records_written {kind : Kind} {records : List (List UInt8)} (valid : kind.Valid records) {h : Out}
    (format : h.format = kind.format) :
    ∃ h', writeRecords h records = some h' ∧ written h' = written h ++ records.flatMap kind.frame := by
  induction records generalizing h with
  | nil => exact ⟨h,rfl,by simp⟩
  | cons d records ih =>
    obtain ⟨one,rest⟩ := valid_cons valid
    obtain ⟨h₁,wrote,format₁,bytes₁⟩ := record_written format one
    obtain ⟨h₂,wrotes,bytes₂⟩ := ih rest format₁
    refine ⟨h₂,by rw [writeRecords,wrote]; exact wrotes,?_⟩
    rw [bytes₂,bytes₁,List.flatMap_cons,List.append_assoc]

/-- The file holds the records, each in its frame. -/
theorem writeFile_frames {kind : Kind} {records : List (List UInt8)} (valid : kind.Valid records) (bufferSize : Nat) :
    writeFile bufferSize kind.format records = some (records.flatMap kind.frame) := by
  obtain ⟨h,wrote,bytes⟩ := records_written valid (h := acOutInit bufferSize kind.format) rfl
  rw [writeFile,wrote,Option.map_some,acOutFlush_written,bytes]
  rfl

/-! ### Reading -/

section
variable {size : Nat} {h : In}

theorem prefix_calls (format : h.format = Kind.prefixed.format) : acInAdvance h = advancePrefix h := by
  simp only [acInAdvance,format,Kind.format,acIoPrefix,Int.lt_irrefl,if_false,gt_iff_lt]

theorem fixed_calls {n : Nat} (format : h.format = (Kind.fixed n).format) (positive : 0 < n) :
    acInAdvance h = advanceFixed h n := by
  have notNegative : ¬ (n : Int) < 0 := by omega
  have isPositive : (n : Int) > 0 := by omega
  simp only [acInAdvance,format,Kind.format,acIoFixed,notNegative,if_false,isPositive,if_true,Int.toNat_natCast]

theorem delimited_calls {delim : UInt8} (format : h.format = (Kind.delimited delim).format) :
    acInAdvance h = advanceDelimited h delim.toNat := by
  have negative : -((delim.toNat : Int) + 1) < 0 := by omega
  have byte : - -((delim.toNat : Int) + 1) - 1 = delim.toNat := by omega
  simp only [acInAdvance,format,Kind.format,acIoDelimiter,negative,if_true,byte]

/-- An input at the end of its file. -/
def AtEnd (size : Nat) (kind : Kind) (h : In) : Prop :=
  h.format = kind.format ∧ h.fullRecordRequired = true ∧ Holds size h.base []

theorem prefix_ends (room : 0 < int32 size) (atEnd : AtEnd size .prefixed h) : Yields acInAdvance h [] := by
  refine Yields.ends (P := AtEnd size .prefixed) (fun h atEnd => ?_) atEnd
  obtain ⟨format,required,holds⟩ := atEnd
  obtain ⟨base,read,next⟩ := (read_takes holds 4).2.1 (by decide) room
  refine ⟨{ h with base := base },?_,format,required,next⟩
  rw [prefix_calls format,advancePrefix,read]

theorem fixed_ends {n : Nat} (positive : 0 < n) (small : n < 2 ^ 31) (atEnd : AtEnd size (.fixed n) h) :
    Yields acInAdvance h [] := by
  refine Yields.ends (P := AtEnd size (.fixed n)) (fun h atEnd => ?_) atEnd
  obtain ⟨format,required,holds⟩ := atEnd
  obtain ⟨base,read,next⟩ := (readz_takes holds small).2.1 rfl positive
  refine ⟨{ h with base := base },?_,format,required,next⟩
  rw [fixed_calls format positive,advanceFixed,read]
  simp only
  rw [if_pos (by omega)]

theorem delimited_ends (room : 0 < int32 size) {delim : UInt8} (atEnd : AtEnd size (.delimited delim) h) :
    Yields acInAdvance h [] := by
  refine Yields.ends (P := AtEnd size (.delimited delim)) (fun h atEnd => ?_) atEnd
  obtain ⟨format,required,holds⟩ := atEnd
  obtain ⟨base,read,next⟩ := delimited_takes room delim.toNat holds
  refine ⟨{ h with base := base },?_,format,required,next⟩
  rw [delimited_calls format,advanceDelimited,required,read]

/-- A record of this length passes through the buffer: one refill reads it, or it
    is longer than the buffer. -/
def Passes (size : Nat) (length : Nat) : Prop := (length : Int) ≤ int32 size ∨ size < length

theorem prefix_yields (room : 4 ≤ int32 size) {records : List (List UInt8)} (valid : Kind.prefixed.Valid records)
    (format : h.format = Kind.prefixed.format) (required : h.fullRecordRequired = true)
    (holds : Holds size h.base (records.flatMap Kind.prefixed.frame)) :
    Yields acInAdvance h records ↔ ∀ d ∈ records, Passes size d.length := by
  induction records generalizing h with
  | nil => exact ⟨fun _ => by simp,fun _ => prefix_ends (by omega) ⟨format,required,holds⟩⟩
  | cons d records ih =>
    obtain ⟨one,rest⟩ := valid_cons valid
    have small := one d (by simp)
    have number : number (bytes 4 d.length) = d.length := by
      rw [number_bytes]
      exact Nat.mod_eq_of_lt (Nat.lt_trans small (by decide))
    rw [List.flatMap_cons,Kind.frame,List.append_assoc] at holds
    obtain ⟨base,read,next⟩ := (read_takes holds 4).1 (by simp) room
    rw [List.take_left' (bytes_length _ _)] at read
    rw [List.drop_left' (bytes_length _ _)] at next
    have calls := prefix_calls format
    have short : int32 d.length = d.length := int32_small small
    simp only [advancePrefix,read,number,acInBaseReadz32,small,if_true,short] at calls
    rw [List.forall_mem_cons]
    by_cases empty : d.length > 0
    · rw [if_pos empty] at calls
      have enough : d.length ≤ (d ++ records.flatMap Kind.prefixed.frame).length := by simp
      obtain ⟨taken,_,cut⟩ := readz_takes next small
      by_cases passes : Passes size d.length
      · obtain ⟨base,read,next⟩ := taken enough passes
        rw [List.take_left' rfl] at read
        rw [List.drop_left' rfl] at next
        simp only [read,ne_eq,not_true_eq_false,if_false,List.take_length] at calls
        rw [Yields.cons_iff calls,ih (h := { h with base := base }) rest format required next]
        simp [passes]
      · simp only [Passes,not_or,Int.not_le,Nat.not_lt] at passes
        rw [if_pos (cut passes.1 passes.2 enough)] at calls
        exact ⟨fun yields => absurd yields (Yields.not_cons calls),fun all => by
          rcases all.1 with fits | longer <;> omega⟩
    · have none : d = [] := List.length_eq_zero_iff.mp (by omega)
      subst none
      rw [if_neg empty] at calls
      have passes : Passes size 0 := .inl (by omega)
      rw [Yields.cons_iff calls,ih (h := { h with base := base }) rest format required next]
      simp [passes]

theorem fixed_yields {n : Nat} {records : List (List UInt8)} (valid : (Kind.fixed n).Valid records)
    (format : h.format = (Kind.fixed n).format) (required : h.fullRecordRequired = true)
    (holds : Holds size h.base (records.flatMap (Kind.fixed n).frame)) :
    Yields acInAdvance h records ↔ records = [] ∨ Passes size n := by
  induction records generalizing h with
  | nil => exact ⟨fun _ => .inl rfl,fun _ => fixed_ends valid.1 valid.2.1 ⟨format,required,holds⟩⟩
  | cons d records ih =>
    obtain ⟨one,rest⟩ := valid_cons valid
    obtain ⟨positive,small,lengths⟩ := one
    have length := lengths d (by simp)
    have calls := fixed_calls format positive
    simp only [advanceFixed] at calls
    rw [List.flatMap_cons,Kind.frame] at holds
    have enough : n ≤ (d ++ records.flatMap (Kind.fixed n).frame).length := by
      rw [List.length_append]
      omega
    obtain ⟨taken,_,cut⟩ := readz_takes holds small
    by_cases passes : Passes size n
    · obtain ⟨base,read,next⟩ := taken enough passes
      rw [List.take_left' length] at read
      rw [List.drop_left' length] at next
      simp only [read,ne_eq,not_true_eq_false,if_false,List.take_of_length_le (Nat.le_of_eq length)] at calls
      rw [Yields.cons_iff calls,ih (h := { h with base := base }) rest format required next]
      simp [passes]
    · have beyond := passes
      simp only [Passes,not_or,Int.not_le,Nat.not_lt] at beyond
      rw [if_pos (cut beyond.1 beyond.2 enough)] at calls
      exact ⟨fun yields => absurd yields (Yields.not_cons calls),fun either => by simp [passes] at either⟩

/-- A delimiter that the search finds. -/
def Findable (delim : UInt8) : Prop := delim.toNat < 128 ∧ delim.toNat ≠ 34

theorem signedChar_delim {c delim : UInt8} (findable : Findable delim) : signedChar c = delim.toNat ↔ c = delim := by
  have := c.toNat_lt
  have := delim.toNat_lt
  have small := findable.1
  rw [← UInt8.toNat_inj]
  simp only [signedChar]
  split <;> omega

theorem find_frame {delim : UInt8} (findable : Findable delim) {d : List UInt8} (valid : delim ∉ d) (rest : List UInt8) :
    findDelimiter delim.toNat (d ++ delim :: rest) = some d.length := by
  induction d with
  | nil =>
    have same := (signedChar_delim (c := delim) findable).mpr rfl
    have noQuote : (delim.toNat : Int) ≠ 34 := by
      have := findable.2
      omega
    simp [findDelimiter,same,noQuote]
  | cons c d ih =>
    simp only [List.mem_cons,not_or] at valid
    have differs := mt (signedChar_delim (c := c) findable).mp (Ne.symm valid.1)
    rw [List.cons_append,findDelimiter,ih valid.2,Option.map_some,List.length_cons,if_pos differs,ite_self]

/-- A byte from 128 on, or a quote, is never found. -/
theorem find_none {delim : UInt8} (unfindable : ¬ Findable delim) (xs : List UInt8) :
    findDelimiter delim.toNat xs = none := by
  induction xs with
  | nil => rfl
  | cons c xs ih =>
    simp only [findDelimiter,ih,Option.map_none]
    split
    · rfl
    case isFalse noQuote =>
      rw [if_pos]
      have := c.toNat_lt
      simp only [Findable,not_and_or,Nat.not_lt,not_not] at unfindable
      simp only [signedChar] at noQuote ⊢
      split <;> omega

theorem delimited_yields (room : 0 < int32 size) {delim : UInt8} {records : List (List UInt8)}
    (valid : (Kind.delimited delim).Valid records) (format : h.format = (Kind.delimited delim).format)
    (required : h.fullRecordRequired = true) (holds : Holds size h.base (records.flatMap (Kind.delimited delim).frame)) :
    Yields acInAdvance h records ↔ records = [] ∨ Findable delim ∧ ∀ d ∈ records, d.length < 2 ^ 32 := by
  induction records generalizing h with
  | nil => exact ⟨fun _ => .inl rfl,fun _ => delimited_ends room ⟨format,required,holds⟩⟩
  | cons d records ih =>
    obtain ⟨one,rest⟩ := valid_cons valid
    have calls := delimited_calls format
    simp only [advanceDelimited,required] at calls
    rw [List.flatMap_cons,Kind.frame,List.append_assoc,List.singleton_append] at holds
    have takes := delimited_takes room delim.toNat holds
    by_cases findable : Findable delim
    · rw [find_frame findable (one d (by simp))] at takes
      obtain ⟨base,read,next⟩ := takes
      rw [List.take_left' rfl] at read
      rw [← List.drop_drop,List.drop_left' rfl,List.drop_one,List.tail_cons] at next
      simp only [read,record,uint32_int32] at calls
      rw [Yields.cons_iff calls,ih (h := { h with base := base, fullRecordRequired := true }) rest format rfl next]
      have whole : d.take (d.length % 2 ^ 32) = d ↔ d.length < 2 ^ 32 := by
        refine ⟨fun all => ?_,fun small => by rw [Nat.mod_eq_of_lt small,List.take_length]⟩
        have := Nat.mod_lt d.length (show 2 ^ 32 > 0 by decide)
        have := congrArg List.length all
        rw [List.length_take] at this
        omega
      rw [whole,List.forall_mem_cons]
      simp only [findable,true_and,reduceCtorEq,false_or]
      exact and_congr_right fun _ => or_iff_right_of_imp fun empty => by simp [empty]
    · rw [find_none findable] at takes
      obtain ⟨base,read,_⟩ := takes
      simp only [read] at calls
      exact ⟨fun yields => absurd yields (Yields.not_cons calls),fun either => by simp [findable] at either⟩

end

/-! ### Round trips -/

/-- When a file is read back: the `int` that the allocated size converts to is
    positive, and has room for four bytes and for every record. A delimiter is
    found, and no record is longer than a `uint32_t` can say. -/
def Kind.Sound (bufferSize : Nat) (records : List (List UInt8)) : Kind → Prop
  | .prefixed => 0 < int32 (allocated bufferSize) ∧
      (records = [] ∨ 4 ≤ int32 (allocated bufferSize)) ∧ ∀ d ∈ records, Passes (allocated bufferSize) d.length
  | .fixed size => records = [] ∨ 0 < int32 (allocated bufferSize) ∧ Passes (allocated bufferSize) size
  | .delimited delim => 0 < int32 (allocated bufferSize) ∧
      (records = [] ∨ Findable delim ∧ ∀ d ∈ records, d.length < 2 ^ 32)

theorem prefix_sound {records : List (List UInt8)} (valid : Kind.prefixed.Valid records) (bufferSize : Nat) :
    Yields acInAdvance (acInInit (records.flatMap Kind.prefixed.frame) bufferSize Kind.prefixed.format) records ↔
      Kind.prefixed.Sound bufferSize records := by
  simp only [Kind.Sound]
  have calls : acInAdvance (acInInit (records.flatMap Kind.prefixed.frame) bufferSize Kind.prefixed.format) =
      advancePrefix _ := prefix_calls rfl
  simp only [advancePrefix] at calls
  rcases Int.lt_or_le 0 (int32 (allocated bufferSize)) with positive | stuck
  · have holds := init_holds (Int.le_of_lt positive) (records.flatMap Kind.prefixed.frame)
    rcases Int.lt_or_le (int32 (allocated bufferSize)) 4 with short | room
    · cases records with
      | nil => exact ⟨fun _ => ⟨positive,.inl rfl,by simp⟩,fun _ => prefix_ends positive ⟨rfl,rfl,holds⟩⟩
      | cons d records =>
        have read := (read_takes holds 4).2.2 (by simp [Kind.frame]) short
        have noRoom : ¬ 4 ≤ int32 (allocated bufferSize) := by omega
        simp only [acInInit,read] at calls
        exact ⟨fun yields => absurd yields (Yields.not_fault calls),fun sound => by simp [noRoom] at sound⟩
    · rw [prefix_yields room valid rfl rfl holds]
      simp [positive,room]
  · have notPositive : ¬ 0 < int32 (allocated bufferSize) := by omega
    simp only [acInInit,stuck_read stuck (init_stuck stuck _) (by decide : 0 < 4)] at calls
    exact ⟨fun yields => absurd yields (Yields.not_fault calls),fun sound => absurd sound.1 notPositive⟩

/-- A fixed-length input whose buffer is never filled. -/
theorem fixed_stuck {bufferSize n : Nat} (stuck : int32 (allocated bufferSize) ≤ 0) (positive : 0 < n)
    (small : n < 2 ^ 31) {h : In} (format : h.format = (Kind.fixed n).format)
    (base : Stuck (allocated bufferSize) h.base) : Yields acInAdvance h [] := by
  have large : 2 ^ 31 ≤ allocated bufferSize := by
    by_contra below
    have some : 0 < allocated bufferSize := by
      rw [allocated]
      split <;> omega
    rw [int32_small (by omega)] at stuck
    omega
  refine Yields.ends (P := fun h => h.format = (Kind.fixed n).format ∧ Stuck (allocated bufferSize) h.base)
    (fun h holds => ?_) ⟨format,base⟩
  obtain ⟨base,read,next⟩ := stuck_readz stuck holds.2 positive (Nat.le_of_lt (Nat.lt_of_lt_of_le small large))
  refine ⟨{ h with base := base },?_,holds.1,next⟩
  rw [fixed_calls holds.1 positive,advanceFixed,read]
  simp only
  rw [if_pos (by omega)]

theorem fixed_sound {n : Nat} {records : List (List UInt8)} (valid : (Kind.fixed n).Valid records) (bufferSize : Nat) :
    Yields acInAdvance (acInInit (records.flatMap (Kind.fixed n).frame) bufferSize (Kind.fixed n).format) records ↔
      (Kind.fixed n).Sound bufferSize records := by
  simp only [Kind.Sound]
  rcases Int.lt_or_le 0 (int32 (allocated bufferSize)) with positive | stuck
  · have holds := init_holds (Int.le_of_lt positive) (records.flatMap (Kind.fixed n).frame)
    rw [fixed_yields valid rfl rfl holds]
    simp [positive]
  · have notPositive : ¬ 0 < int32 (allocated bufferSize) := by omega
    have nothing := fixed_stuck stuck valid.1 valid.2.1 (h := acInInit (records.flatMap (Kind.fixed n).frame) bufferSize
      (Kind.fixed n).format) rfl (init_stuck stuck _)
    refine ⟨fun yields => .inl (yields.unique nothing),fun sound => ?_⟩
    rcases sound with rfl | sound
    · exact nothing
    · exact absurd sound.1 notPositive

theorem delimited_sound {delim : UInt8} {records : List (List UInt8)} (valid : (Kind.delimited delim).Valid records)
    (bufferSize : Nat) :
    Yields acInAdvance (acInInit (records.flatMap (Kind.delimited delim).frame) bufferSize (Kind.delimited delim).format)
      records ↔ (Kind.delimited delim).Sound bufferSize records := by
  simp only [Kind.Sound]
  rcases Int.lt_or_le 0 (int32 (allocated bufferSize)) with positive | stuck
  · have holds := init_holds (Int.le_of_lt positive) (records.flatMap (Kind.delimited delim).frame)
    rw [delimited_yields positive valid rfl rfl holds]
    simp [positive]
  · have notPositive : ¬ 0 < int32 (allocated bufferSize) := by omega
    have calls : acInAdvance (acInInit (records.flatMap (Kind.delimited delim).frame) bufferSize
        (Kind.delimited delim).format) = advanceDelimited _ delim.toNat := delimited_calls rfl
    simp only [advanceDelimited,acInInit,stuck_delimited stuck (init_stuck stuck _)] at calls
    exact ⟨fun yields => absurd yields (Yields.not_fault calls),fun sound => absurd sound.1 notPositive⟩

/-- Reading back a file gives the records that were written exactly where the
    format, the sizes and the records are as `Sound` says. The size of the writer's
    buffer plays no part. -/
theorem file_round_trip (kind : Kind) (records : List (List UInt8)) (valid : kind.Valid records)
    (writerSize readerSize : Nat) :
    ∃ file, writeFile writerSize kind.format records = some file ∧
      (Yields acInAdvance (acInInit file readerSize kind.format) records ↔ kind.Sound readerSize records) := by
  refine ⟨_,writeFile_frames valid writerSize,?_⟩
  cases kind with
  | prefixed => exact prefix_sound valid readerSize
  | fixed n => exact fixed_sound valid readerSize
  | delimited delim => exact delimited_sound valid readerSize

/-- A record behind a delimiter from 128 on is not found. -/
theorem byte200_lost : ∃ file, writeFile 64 (Kind.delimited 200).format [[1]] = some file ∧
    ¬ Yields acInAdvance (acInInit file 256 (Kind.delimited 200).format) [[1]] := by
  refine ⟨[1,200],rfl,fun yields => ?_⟩
  have first := yields 0
  have ended : Stream.call acInAdvance 0 (acInInit [1,200] 256 (Kind.delimited 200).format) = some none := by decide
  rw [ended] at first
  cases first

theorem file_round_trip_line : ∃ file, writeFile 3 (Kind.delimited 10).format [[1,2,3],[]] = some file ∧
    Yields acInAdvance (acInInit file 0 (Kind.delimited 10).format) [[1,2,3],[]] := by
  obtain ⟨file,wrote,reads⟩ := file_round_trip (.delimited 10) [[1,2,3],[]] (by simp [Kind.Valid]) 3 0
  exact ⟨file,wrote,reads.mpr ⟨by decide,.inr ⟨⟨by decide,by decide⟩,by simp⟩⟩⟩

end AnotherC.Framing
