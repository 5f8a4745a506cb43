import AnotherC.Io.CsvFile
import AnotherC.Io.InList

/-!
# Reading numbered entries: `file_sync_read`

The file to start with is chosen by the labels. A file is opened by reading up to the first entry
that is wanted, which `ac_in_reset` then makes the next one again, and files without such an entry
are passed over. What comes are the entries with an id above the checkpoint, in order
(`read_exact_iff`), unless the size of the buffer, which is multiplied by 1024 in 32 bits, is no
positive `int`.
-/
namespace AnotherC.FileSyncRead
open AnotherC.Lib.Bytes
open AnotherC.Lib.Stream (Yields)
open AnotherC.InBase
open AnotherC.Framing (In Format acIoDelimiter)
open AnotherC.CsvFile (Record)
open AnotherC.InList (AcInCb)
set_option linter.unusedVariables false

/-! ## `sscanf` -/

def isSpace (c : UInt8) : Bool := c = 32 || 9 ≤ c && c ≤ 13

def isDigit (c : UInt8) : Bool := 48 ≤ c && c ≤ 57

def value (digits : List UInt8) : Nat := digits.foldl (fun v c => v * 10 + (c.toNat - 48)) 0

/-- `sscanf` with `%u`; a number that does not fit is undefined, here it wraps around. -/
def scanU (str : List UInt8) : Option UInt32 :=
  let str := str.dropWhile isSpace
  let unsigned := if str.head? = some 43 ∨ str.head? = some 45 then str.tail else str
  let digits := unsigned.takeWhile isDigit
  if digits = [] then none
  else some (if str.head? = some 45 then 0 - UInt32.ofNat (value digits) else UInt32.ofNat (value digits))

/-! ## Inputs -/

/-- `ac_in_t` over a file with what `ac_in_reset` changes; `isReset` says whether `advance` is
    `_reset_`. -/
structure Handle where
  input : In
  current : Option Record
  currentTmp : Option Record
  isReset : Bool
deriving Repr, DecidableEq

def acInAdvance (h : Handle) : Option (Option Record × Handle) :=
  if h.isReset then some (h.currentTmp,{ h with current := h.currentTmp, currentTmp := none, isReset := false })
  else (CsvFile.acInAdvance h.input).map fun answer => (answer.1,{ h with input := answer.2, current := answer.1 })

def acInReset (h : Handle) : Handle :=
  if h.current.isSome then { h with current := none, currentTmp := h.current, isReset := true } else h

/-- `ac_in_base_init_gz`; the bytes are those that `gzread` gives. -/
def acInBaseInitGz (file : List UInt8) (bufferSize : Nat) : InBase :=
  acInBaseInit file (if bufferSize < 32000 then 32000 else bufferSize)

/-- `ac_in_quick_init`, by the extension of the file. -/
def acInQuickInit (gzip : Bool) (file : List UInt8) (format : Format) (bufferSize : Nat) : Handle where
  input := ⟨if gzip then acInBaseInitGz file bufferSize else acInBaseInit file bufferSize,format,true⟩
  current := none
  currentTmp := none
  isReset := false

/-- The bytes that are not read yet. -/
def unread (h : Handle) : Nat :=
  (h.input.base.buf.buffer.length - h.input.base.buf.pos) + h.input.base.file.length

/-! ## Reading -/

/-- `ac_file_sync_entry_t`, as far as it is read. -/
structure Entry where
  gzip : Bool
  files : List UInt32
  bufferSize : UInt32
  checkpoint : UInt32
deriving Repr, DecidableEq

/-- The test in the loop of `in_cb`. -/
def wanted (entry : Entry) (useCheckpoint : Bool) (r : Record) : Bool :=
  if 44 ∈ r.text then
    let id := (scanU (r.text.takeWhile (· ≠ 44))).getD 0
    !useCheckpoint || id > entry.checkpoint
  else false

/-- The loop of `in_cb`. Where a turn takes nothing it would go on for ever; `none` is that. -/
def seek (entry : Entry) (useCheckpoint : Bool) (h : Handle) : Option (Option Record × Handle) :=
  match acInAdvance h with
  | none => none
  | some (none,h') => some (none,h')
  | some (some r,h') =>
    if wanted entry useCheckpoint r then some (some r,h')
    else if unread h' < unread h then seek entry useCheckpoint h'
    else none
termination_by unread h

/-- `in_cb` with the files from `idx` on. `disk` has the files by their ids; one that is not there is
    opened as an empty input. -/
def inCb (disk : UInt32 → Option (List UInt8)) (entry : Entry) (useCheckpoint : Bool) :
    List UInt32 → Option (Option Handle × List UInt32)
  | [] => some (none,[])
  | curId :: files =>
    match disk curId with
    | none => inCb disk entry useCheckpoint files
    | some file =>
      let h := acInQuickInit entry.gzip file (acIoDelimiter 10) (entry.bufferSize * 1024).toNat
      match seek entry useCheckpoint h with
      | none => none
      | some (none,h) => inCb disk entry useCheckpoint files
      | some (some r,h) => some (some (acInReset h),files)

/-- `files + sp`, with the loop of `file_sync_read`. -/
def fromCheckpoint (checkpoint : UInt32) : List UInt32 → List UInt32
  | [] => []
  | [file] => [file]
  | file :: next :: files =>
    if next > checkpoint + 1 then file :: next :: files else fromCheckpoint checkpoint (next :: files)

/-- `advance_cb` with a callback that may not return. -/
def advanceCb (cb : List UInt32 → Option (Option Handle × List UInt32)) (h : AcInCb Handle Record (List UInt32)) :
    Option (Option Record × AcInCb Handle Record (List UInt32)) :=
  h.curIn.bind fun curIn =>
  (acInAdvance curIn).bind fun answer =>
    match answer.1 with
    | some r => some (some r,{ h with curIn := some answer.2, current := some r, numCurrent := 1 })
    | none =>
      (cb h.arg).bind fun opened =>
        match opened with
        | (none,arg) => some (none,{ h with curIn := none, arg := arg }.acInEmpty)
        | (some curIn,arg) =>
          (acInAdvance curIn).map fun answer =>
            (answer.1,{ h with curIn := some answer.2, arg := arg, current := answer.1, numCurrent := 1 })

/-- `ac_in_advance` of what `file_sync_read` returns, NULL included. -/
def acInAdvanceCb (cb : List UInt32 → Option (Option Handle × List UInt32)) :
    Option (AcInCb Handle Record (List UInt32)) → Option (Option Record × Option (AcInCb Handle Record (List UInt32)))
  | none => some (none,none)
  | some h =>
    match h.advance with
    | .members => (advanceCb cb h).map fun answer => (answer.1,some answer.2)
    | .emptyRecord => some (none,some h)

/-- `ac_in_init_from_cb`. -/
def acInInitFromCb (cb : List UInt32 → Option (Option Handle × List UInt32)) (arg : List UInt32) :
    Option (Option (AcInCb Handle Record (List UInt32))) :=
  (cb arg).map fun opened =>
    match opened with
    | (none,_) => none
    | (some curIn,arg) =>
      some { arg := arg, curIn := some curIn, current := none, numCurrent := 0, advance := .members }

def fileSyncRead (disk : UInt32 → Option (List UInt8)) (entry : Entry) (useCheckpoint : Bool) :
    Option (Option (AcInCb Handle Record (List UInt32))) :=
  acInInitFromCb (inCb disk entry useCheckpoint)
    (if useCheckpoint then fromCheckpoint entry.checkpoint entry.files else entry.files)

/-! ## Sync files -/

/-- A line `<id>,{json}`; the digits are those of the id. -/
structure SyncRecord where
  digits : List UInt8
  json : List UInt8
deriving Repr, DecidableEq

def SyncRecord.id (r : SyncRecord) : UInt32 := UInt32.ofNat (value r.digits)

def SyncRecord.bytes (r : SyncRecord) : List UInt8 := r.digits ++ 44 :: r.json

structure SyncFile where
  label : UInt32
  records : List SyncRecord
deriving Repr, DecidableEq

def SyncFile.bytes (f : SyncFile) : List UInt8 := f.records.flatMap fun r => r.bytes ++ [10]

/-- The record is one line with an id of 32 bits. -/
structure SyncRecord.Valid (r : SyncRecord) : Prop where
  some_ : r.digits ≠ []
  digits : ∀ c ∈ r.digits, isDigit c = true
  fits : value r.digits < 2 ^ 32
  line : 10 ∉ r.json

/-- The files hold records, with ids that go up, and a label is above the ids of the file before and
    not above the first one of its own. -/
structure Valid (files : List SyncFile) : Prop where
  some_ : ∀ f ∈ files, f.records ≠ []
  records : ∀ f ∈ files, ∀ r ∈ f.records, r.Valid
  ascending : (files.flatMap SyncFile.records).Pairwise fun r s => r.id < s.id
  above : files.IsChain fun f g => ∀ r ∈ f.records, r.id < g.label
  first : ∀ f ∈ files, ∀ r ∈ f.records.head?, f.label ≤ r.id

/-- The files are on the disk. -/
def Stored (disk : UInt32 → Option (List UInt8)) (files : List SyncFile) : Prop :=
  ∀ f ∈ files, disk f.label = some f.bytes

/-- The records that are to come. -/
def unseen (entry : Entry) (useCheckpoint : Bool) (files : List SyncFile) : List SyncRecord :=
  (files.flatMap SyncFile.records).filter fun r => !useCheckpoint || r.id > entry.checkpoint

/-- The read returns, and what it returns is advanced through exactly the records that are to come. -/
def Exact (disk : UInt32 → Option (List UInt8)) (entry : Entry) (useCheckpoint : Bool) (files : List SyncFile) : Prop :=
  ∃ h, fileSyncRead disk entry useCheckpoint = some h ∧
    Yields (acInAdvanceCb (inCb disk entry useCheckpoint)) h
      ((unseen entry useCheckpoint files).map fun r => ⟨r.bytes.length,r.bytes⟩)

/-- The size that is allocated for the buffer. -/
def bufferRoom (entry : Entry) : Nat :=
  let bufferSize := (entry.bufferSize * 1024).toNat
  if entry.gzip then allocated (if bufferSize < 32000 then 32000 else bufferSize) else allocated bufferSize

/-! ## What is read of a line -/

/-- The record that the reader makes of a line: its length is a `uint32_t`. -/
def got (r : SyncRecord) : Record := ⟨r.bytes.length % 2 ^ 32,r.bytes⟩

theorem digit_range {c : UInt8} (digit : isDigit c = true) : 48 ≤ c.toNat ∧ c.toNat ≤ 57 := by
  simp only [isDigit,Bool.and_eq_true,decide_eq_true_eq,UInt8.le_iff_toNat_le] at digit
  exact digit

theorem scanU_digits {r : SyncRecord} (valid : r.Valid) : scanU r.digits = some r.id := by
  obtain ⟨c,rest,whole⟩ := List.exists_cons_of_ne_nil valid.some_
  obtain ⟨low,high⟩ := digit_range (valid.digits c (by rw [whole]; exact List.mem_cons_self))
  have other (k : UInt8) (outside : k.toNat < 48) : c ≠ k := by
    intro same
    rw [same] at low
    omega
  have space : isSpace c = false := by
    simp only [isSpace,Bool.or_eq_false_iff,Bool.and_eq_false_iff,decide_eq_false_iff_not]
    refine ⟨other 32 (by decide),.inr fun below => ?_⟩
    have := UInt8.le_iff_toNat_le.mp below
    have thirteen : (13 : UInt8).toNat = 13 := rfl
    omega
  have start : r.digits.dropWhile isSpace = r.digits := by
    rw [whole,List.dropWhile_cons_of_neg (by rw [space]; exact Bool.false_ne_true)]
  have digits : r.digits.takeWhile isDigit = r.digits := List.takeWhile_eq_self_iff.mpr valid.digits
  have plus : ¬ (r.digits.head? = some 43 ∨ r.digits.head? = some 45) := by
    rw [whole,List.head?_cons,Option.some.injEq,Option.some.injEq]
    rintro (same | same)
    · exact other 43 (by decide) same
    · exact other 45 (by decide) same
  have minus : ¬ r.digits.head? = some 45 := fun same => plus (.inr same)
  simp only [scanU,start,if_neg plus,digits,if_neg valid.some_,if_neg minus,SyncRecord.id]

theorem got_text {r : SyncRecord} (valid : r.Valid) :
    (got r).text = r.digits ++ 44 :: r.json.takeWhile (· ≠ 0) := by
  have nonzero : ∀ c ∈ r.digits, (fun c : UInt8 => decide (c ≠ 0)) c = true := by
    intro c member
    have := digit_range (valid.digits c member)
    simp only [decide_eq_true_eq]
    intro zero
    rw [zero] at this
    exact absurd this.1 (by decide)
  simp only [Record.text,got,SyncRecord.bytes]
  rw [List.takeWhile_append_of_pos nonzero,List.takeWhile_cons_of_pos (by decide)]

theorem wanted_got {r : SyncRecord} (valid : r.Valid) (entry : Entry) (useCheckpoint : Bool) :
    wanted entry useCheckpoint (got r) = (!useCheckpoint || decide (r.id > entry.checkpoint)) := by
  have before : ((got r).text).takeWhile (· ≠ 44) = r.digits := by
    have noComma : ∀ c ∈ r.digits, (fun c : UInt8 => decide (c ≠ 44)) c = true := by
      intro c member
      have := digit_range (valid.digits c member)
      simp only [decide_eq_true_eq]
      intro comma
      rw [comma] at this
      exact absurd this.1 (by decide)
    rw [got_text valid,List.takeWhile_append_of_pos noComma,List.takeWhile_cons_of_neg (by decide),List.append_nil]
  have comma : 44 ∈ (got r).text := by
    rw [got_text valid]
    exact List.mem_append_right _ List.mem_cons_self
  simp only [wanted,if_pos comma,before,scanU_digits valid,Option.getD_some]

theorem bytes_line {r : SyncRecord} (valid : r.Valid) : 10 ∉ r.bytes := by
  intro member
  rcases List.mem_append.mp member with digit | rest
  · exact absurd (digit_range (valid.digits 10 digit)).1 (by decide)
  · rcases List.mem_cons.mp rest with comma | inside
    · exact absurd comma (by decide)
    · exact valid.line inside

/-! ## Lines of a file -/

/-- The lines are still to be read. -/
structure Ahead (size : Nat) (h : In) (rs : List SyncRecord) : Prop where
  format : h.format = acIoDelimiter 10
  required : h.fullRecordRequired = true
  holds : InBase.Holds size h.base (rs.flatMap fun r => r.bytes ++ [10])

section
variable {size : Nat} (room : 0 < int32 size)

theorem ahead_calls {h : In} {rs : List SyncRecord} (ahead : Ahead size h rs) :
    CsvFile.acInAdvance h = CsvFile.advanceDelimited h 10 ∧
      CsvFile.readDelimited h.base 10 h.fullRecordRequired = acInBaseReadDelimited h.base 10 true := by
  obtain ⟨base,format,required⟩ := h
  have isFormat : format = acIoDelimiter 10 := ahead.format
  have isRequired : required = true := ahead.required
  subst isFormat isRequired
  exact ⟨rfl,CsvFile.readDelimited_plain _ (by decide) true⟩

theorem ahead_found {h : In} {rs : List SyncRecord} (ahead : Ahead size h rs) {found : Found} {base : InBase}
    (read : acInBaseReadDelimited h.base 10 true = some (some found,base)) :
    CsvFile.acInAdvance h = some (some ⟨uint32 found.rlen,found.p⟩,{ h with base := base }) := by
  obtain ⟨called,plain⟩ := ahead_calls ahead
  rw [called,CsvFile.advanceDelimited,plain,read]

theorem ahead_ended {h : In} {rs : List SyncRecord} (ahead : Ahead size h rs) {base : InBase}
    (read : acInBaseReadDelimited h.base 10 true = some (none,base)) :
    CsvFile.acInAdvance h = some (none,{ h with base := base }) := by
  obtain ⟨called,plain⟩ := ahead_calls ahead
  rw [called,CsvFile.advanceDelimited,plain,read]

include room in
theorem line_takes {h : In} {r : SyncRecord} {rs : List SyncRecord} (valid : r.Valid) (ahead : Ahead size h (r :: rs)) :
    ∃ h', CsvFile.acInAdvance h = some (some (got r),h') ∧ Ahead size h' rs := by
  have holds := ahead.holds
  rw [List.flatMap_cons,List.append_assoc,List.singleton_append] at holds
  have takes := delimited_takes room 10 holds
  have findable : Framing.Findable 10 := ⟨by decide,by decide⟩
  have found := Framing.find_frame findable (bytes_line valid) (rs.flatMap fun r => r.bytes ++ [10])
  have ten : ((10 : UInt8).toNat : Int) = 10 := rfl
  rw [ten] at found
  rw [found] at takes
  obtain ⟨base,read,next⟩ := takes
  rw [List.take_left' rfl] at read
  rw [← List.drop_drop,List.drop_left' rfl,List.drop_one,List.tail_cons] at next
  refine ⟨{ h with base := base },?_,ahead.format,ahead.required,next⟩
  rw [ahead_found ahead read]
  simp only [uint32_int32,got]

include room in
theorem end_takes {h : In} (ahead : Ahead size h []) :
    ∃ h', CsvFile.acInAdvance h = some (none,h') ∧ Ahead size h' [] := by
  obtain ⟨base,read,next⟩ := delimited_takes room 10 ahead.holds
  refine ⟨{ h with base := base },?_,ahead.format,ahead.required,next⟩
  rw [ahead_ended ahead read]

theorem unread_eq {h : Handle} {rs : List SyncRecord} (ahead : Ahead size h.input rs) :
    unread h = (rs.flatMap fun r => r.bytes ++ [10]).length := by
  have holds := ahead.holds.holds
  have inside := ahead.holds.inside
  have length : (restore h.input.base).buf.buffer.length = h.input.base.buf.buffer.length := by
    rw [restore]
    split
    · rfl
    · exact List.length_set
  have pos : (restore h.input.base).buf.pos = h.input.base.buf.pos := by
    rw [restore]
    split <;> rfl
  have file : (restore h.input.base).file = h.input.base.file := by
    rw [restore]
    split <;> rfl
  rw [← holds,List.length_append,List.length_drop,length,pos,file,unread]

include room in
/-- The search for the first record that is wanted. -/
theorem seek_finds (entry : Entry) (useCheckpoint : Bool) {rs left : List SyncRecord} (valid : ∀ r ∈ rs, r.Valid)
    {h : Handle} (ahead : Ahead size h.input rs) (plain : h.isReset = false)
    (drops : (rs.dropWhile fun r => !(!useCheckpoint || decide (r.id > entry.checkpoint))) = left) :
    (left = [] → ∃ h', seek entry useCheckpoint h = some (none,h')) ∧
      ∀ r rest, left = r :: rest → ∃ h', seek entry useCheckpoint h = some (some (got r),h') ∧
        Ahead size h'.input rest ∧ h'.current = some (got r) := by
  induction rs generalizing h with
  | nil =>
    obtain ⟨input,moves,_⟩ := end_takes room ahead
    refine ⟨fun _ => ⟨{ h with input := input, current := none },?_⟩,fun r rest some_ => ?_⟩
    · rw [seek,acInAdvance,if_neg (by rw [plain]; exact Bool.false_ne_true),moves]
      rfl
    · rw [← drops] at some_
      cases some_
  | cons r rs ih =>
    have validr := valid r List.mem_cons_self
    obtain ⟨input,moves,next⟩ := line_takes room validr ahead
    have call : acInAdvance h = some (some (got r),{ h with input := input, current := some (got r) }) := by
      rw [acInAdvance,if_neg (by rw [plain]; exact Bool.false_ne_true),moves]
      rfl
    rw [List.dropWhile_cons] at drops
    rw [seek,call]
    simp only [wanted_got validr]
    cases want : !useCheckpoint || decide (r.id > entry.checkpoint) with
    | true =>
      simp only [want,Bool.not_true,Bool.false_eq_true,if_false] at drops
      simp only [if_true]
      refine ⟨fun none_ => ?_,fun q rest same => ?_⟩
      · rw [← drops] at none_
        cases none_
      · rw [← drops] at same
        cases same
        exact ⟨_,rfl,next,rfl⟩
    | false =>
      have fewer : unread { h with input := input, current := some (got r) } < unread h := by
        rw [unread_eq next,unread_eq ahead,List.flatMap_cons,List.length_append,List.length_append,List.length_singleton]
        omega
      simp only [want,Bool.not_false,if_true] at drops
      simp only [Bool.false_eq_true,if_false,if_pos fewer]
      exact ih (fun q member => valid q (List.mem_cons_of_mem r member)) next plain drops

end

/-! ## Files -/

/-- What is wanted is as the records say it. -/
def wants (entry : Entry) (useCheckpoint : Bool) (r : SyncRecord) : Bool := !useCheckpoint || decide (r.id > entry.checkpoint)

/-- What comes of a file once it is opened. -/
def news (entry : Entry) (useCheckpoint : Bool) (f : SyncFile) : List SyncRecord :=
  f.records.dropWhile fun r => !wants entry useCheckpoint r

/-- The handle gives these records: it is ahead of them, or it was reset to the first one. -/
inductive Gives (size : Nat) : Handle → List SyncRecord → Prop
  | ahead {h : Handle} {rs : List SyncRecord} (ahead : Ahead size h.input rs) (plain : h.isReset = false) : Gives size h rs
  | reset {h : Handle} {r : SyncRecord} {rs : List SyncRecord} (ahead : Ahead size h.input rs) (reset : h.isReset = true)
      (tmp : h.currentTmp = some (got r)) : Gives size h (r :: rs)

section
variable {size : Nat} (room : 0 < int32 size) {entry : Entry} {useCheckpoint : Bool}

include room in
theorem Gives.next {h : Handle} {r : SyncRecord} {rs : List SyncRecord} (valid : r.Valid) (gives : Gives size h (r :: rs)) :
    ∃ h', acInAdvance h = some (some (got r),h') ∧ Gives size h' rs := by
  cases gives with
  | ahead ahead plain =>
    obtain ⟨input,moves,next⟩ := line_takes room valid ahead
    refine ⟨{ h with input := input, current := some (got r) },?_,.ahead next plain⟩
    rw [acInAdvance,if_neg (by rw [plain]; exact Bool.false_ne_true),moves]
    rfl
  | reset ahead reset tmp =>
    refine ⟨{ h with current := h.currentTmp, currentTmp := none, isReset := false },?_,.ahead ahead rfl⟩
    rw [acInAdvance,if_pos reset,tmp]

include room in
theorem Gives.ends {h : Handle} (gives : Gives size h []) : ∃ h', acInAdvance h = some (none,h') := by
  cases gives with
  | ahead ahead plain =>
    obtain ⟨input,moves,_⟩ := end_takes room ahead
    refine ⟨{ h with input := input, current := none },?_⟩
    rw [acInAdvance,if_neg (by rw [plain]; exact Bool.false_ne_true),moves]
    rfl

theorem bufferRoom_init (entry : Entry) (file : List UInt8) :
    (acInQuickInit entry.gzip file (acIoDelimiter 10) (entry.bufferSize * 1024).toNat).input.base =
      acInBaseInit file (if entry.gzip then
        (if (entry.bufferSize * 1024).toNat < 32000 then 32000 else (entry.bufferSize * 1024).toNat)
        else (entry.bufferSize * 1024).toNat) := by
  cases gzip : entry.gzip with
  | true => simp only [acInQuickInit,acInBaseInitGz,if_true]
  | false => simp only [acInQuickInit,Bool.false_eq_true,if_false]

theorem bufferRoom_eq (entry : Entry) : bufferRoom entry = allocated (if entry.gzip then
    (if (entry.bufferSize * 1024).toNat < 32000 then 32000 else (entry.bufferSize * 1024).toNat)
    else (entry.bufferSize * 1024).toNat) := by
  rw [bufferRoom]
  cases entry.gzip <;> rfl

theorem quickInit_ahead (positive : 0 < int32 (bufferRoom entry)) (f : SyncFile) :
    Ahead (bufferRoom entry) (acInQuickInit entry.gzip f.bytes (acIoDelimiter 10) (entry.bufferSize * 1024).toNat).input
      f.records := by
  refine ⟨rfl,rfl,?_⟩
  rw [bufferRoom_init,bufferRoom_eq]
  rw [bufferRoom_eq] at positive
  exact init_holds (Int.le_of_lt positive) f.bytes

variable (useCheckpoint) in
/-- The next file with a record that is wanted is opened in front of it. -/
theorem inCb_opens {disk : UInt32 → Option (List UInt8)} (positive : 0 < int32 (bufferRoom entry)) {files : List SyncFile}
    (stored : Stored disk files) (valid : ∀ f ∈ files, ∀ r ∈ f.records, r.Valid) :
    ((∀ f ∈ files, news entry useCheckpoint f = []) ∧
        inCb disk entry useCheckpoint (files.map SyncFile.label) = some (none,[])) ∨
      ∃ skipped f later h r rest, files = skipped ++ f :: later ∧
        (∀ g ∈ skipped, news entry useCheckpoint g = []) ∧ news entry useCheckpoint f = r :: rest ∧
        inCb disk entry useCheckpoint (files.map SyncFile.label) = some (some h,later.map SyncFile.label) ∧
        Gives (bufferRoom entry) h (r :: rest) := by
  induction files with
  | nil => exact .inl ⟨by simp,rfl⟩
  | cons f files ih =>
    have later := ih (fun g member => stored g (List.mem_cons_of_mem f member))
      fun g member => valid g (List.mem_cons_of_mem f member)
    have finds := seek_finds positive entry useCheckpoint (valid f List.mem_cons_self)
      (quickInit_ahead positive f) rfl rfl
    rw [List.map_cons,inCb,stored f List.mem_cons_self]
    simp only
    cases new : news entry useCheckpoint f with
    | nil =>
      obtain ⟨h',sought⟩ := finds.1 new
      rw [sought]
      simp only
      rcases later with ⟨none_,past⟩ | ⟨skipped,g,later,h,r,rest,whole,none_,some_,opened,gives⟩
      · exact .inl ⟨List.forall_mem_cons.mpr ⟨new,none_⟩,past⟩
      · exact .inr ⟨f :: skipped,g,later,h,r,rest,by rw [whole,List.cons_append],
          List.forall_mem_cons.mpr ⟨new,none_⟩,some_,opened,gives⟩
    | cons r rest =>
      obtain ⟨h',sought,ahead,current⟩ := finds.2 r rest new
      rw [sought]
      refine .inr ⟨[],f,files,acInReset h',r,rest,rfl,by simp,new,rfl,?_⟩
      rw [acInReset,if_pos (by rw [current]; rfl)]
      exact .reset ahead rfl current

theorem news_nil {skipped : List SyncFile} (none_ : ∀ g ∈ skipped, news entry useCheckpoint g = [])
    (files : List SyncFile) : (skipped ++ files).flatMap (news entry useCheckpoint) = files.flatMap (news entry useCheckpoint) := by
  rw [List.flatMap_append,List.flatMap_eq_nil_iff.mpr none_,List.nil_append]

/-- The rest of the file that is read, and what is new in the later ones. -/
theorem reading_yields {disk : UInt32 → Option (List UInt8)} (positive : 0 < int32 (bufferRoom entry))
    (later : List SyncFile) (stored : Stored disk later) (valid : ∀ f ∈ later, ∀ r ∈ f.records, r.Valid)
    (rs : List SyncRecord) (validr : ∀ r ∈ rs, r.Valid) {h : Handle} (gives : Gives (bufferRoom entry) h rs)
    (current : Option Record) (numCurrent : Nat) :
    Yields (acInAdvanceCb (inCb disk entry useCheckpoint))
      (some ⟨later.map SyncFile.label,some h,current,numCurrent,.members⟩)
      ((rs ++ later.flatMap (news entry useCheckpoint)).map got) := by
  induction measure : later.length using Nat.strongRecOn generalizing later rs h current numCurrent with
  | ind n ih =>
    induction rs generalizing h current numCurrent with
    | cons r rs ihrs =>
      obtain ⟨h',moves,next⟩ := gives.next positive (validr r List.mem_cons_self)
      have call : acInAdvanceCb (inCb disk entry useCheckpoint)
          (some ⟨later.map SyncFile.label,some h,current,numCurrent,.members⟩) =
          some (some (got r),some ⟨later.map SyncFile.label,some h',some (got r),1,.members⟩) := by
        simp only [acInAdvanceCb,advanceCb,Option.bind_some,moves,Option.map_some]
      exact Yields.cons call (ihrs (fun q member => validr q (List.mem_cons_of_mem r member)) next _ _)
    | nil =>
      obtain ⟨h',moves⟩ := gives.ends positive
      rcases inCb_opens useCheckpoint positive stored valid with
        ⟨none_,past⟩ | ⟨skipped,f,more,h₂,r,rest,whole,none_,some_,opened,gives₂⟩
      · rw [List.nil_append,List.flatMap_eq_nil_iff.mpr none_,List.map_nil]
        have call : acInAdvanceCb (inCb disk entry useCheckpoint)
            (some ⟨later.map SyncFile.label,some h,current,numCurrent,.members⟩) =
            some (none,some ⟨[],none,none,0,.emptyRecord⟩) := by
          simp only [acInAdvanceCb,advanceCb,Option.bind_some,moves,past,Option.map_some,InList.AcInCb.acInEmpty]
        exact Yields.nil call (Yields.stop rfl)
      · have inside (g : SyncFile) (member : g ∈ f :: more) : g ∈ later := by
          rw [whole]
          exact List.mem_append_right skipped member
        have validf : ∀ q ∈ r :: rest, q.Valid := by
          intro q member
          rw [← some_] at member
          exact valid f (inside f List.mem_cons_self) q (List.dropWhile_sublist _ |>.subset member)
        obtain ⟨h₃,first,next⟩ := gives₂.next positive (validf r List.mem_cons_self)
        rw [List.nil_append,whole,news_nil none_,List.flatMap_cons,some_,List.cons_append,List.map_cons]
        have call : acInAdvanceCb (inCb disk entry useCheckpoint)
            (some ⟨later.map SyncFile.label,some h,current,numCurrent,.members⟩) =
            some (some (got r),some ⟨more.map SyncFile.label,some h₃,some (got r),1,.members⟩) := by
          simp only [acInAdvanceCb,advanceCb,Option.bind_some,moves,opened,first,Option.map_some]
        rw [whole] at call
        refine Yields.cons call (ih more.length ?_ more (fun g member => stored g (inside g (List.mem_cons_of_mem f member)))
          (fun g member => valid g (inside g (List.mem_cons_of_mem f member))) rest
          (fun q member => validf q (List.mem_cons_of_mem r member)) next _ _ rfl)
        rw [← measure,whole,List.length_append,List.length_cons]
        omega

variable (useCheckpoint) in
/-- Everything that is new in these files comes. -/
theorem files_yield {disk : UInt32 → Option (List UInt8)} (positive : 0 < int32 (bufferRoom entry)) {files : List SyncFile}
    (stored : Stored disk files) (valid : ∀ f ∈ files, ∀ r ∈ f.records, r.Valid) :
    ∃ h, acInInitFromCb (inCb disk entry useCheckpoint) (files.map SyncFile.label) = some h ∧
      Yields (acInAdvanceCb (inCb disk entry useCheckpoint)) h ((files.flatMap (news entry useCheckpoint)).map got) := by
  rw [acInInitFromCb]
  rcases inCb_opens useCheckpoint positive stored valid with
    ⟨none_,past⟩ | ⟨skipped,f,later,h,r,rest,whole,none_,some_,opened,gives⟩
  · rw [past,List.flatMap_eq_nil_iff.mpr none_]
    exact ⟨none,rfl,Yields.stop rfl⟩
  · have inside (g : SyncFile) (member : g ∈ f :: later) : g ∈ files := by
      rw [whole]
      exact List.mem_append_right skipped member
    rw [opened]
    refine ⟨_,rfl,?_⟩
    rw [whole,news_nil none_,List.flatMap_cons,some_]
    refine reading_yields positive later (fun g member => stored g (inside g (List.mem_cons_of_mem f member)))
      (fun g member => valid g (inside g (List.mem_cons_of_mem f member))) (r :: rest) ?_ gives none 0
    intro q member
    rw [← some_] at member
    exact valid f (inside f List.mem_cons_self) q (List.dropWhile_sublist _ |>.subset member)

variable (useCheckpoint) in
/-- A buffer whose size is no positive `int` lets no file be opened. -/
theorem inCb_stuck {disk : UInt32 → Option (List UInt8)} (stuck : int32 (bufferRoom entry) ≤ 0) {f : SyncFile}
    {files : List SyncFile} (stored : Stored disk (f :: files)) :
    inCb disk entry useCheckpoint ((f :: files).map SyncFile.label) = none := by
  have base := bufferRoom_init entry f.bytes
  rw [bufferRoom_eq] at stuck
  have never := stuck_delimited stuck (init_stuck stuck f.bytes) 10 true
  rw [← base] at never
  have call : CsvFile.acInAdvance
      (acInQuickInit entry.gzip f.bytes (acIoDelimiter 10) (entry.bufferSize * 1024).toNat).input = none := by
    show CsvFile.advanceDelimited _ 10 = _
    have stops := CsvFile.readDelimited_plain
      (acInQuickInit entry.gzip f.bytes (acIoDelimiter 10) (entry.bufferSize * 1024).toNat).input.base
      (show (10 : Int) < 256 by decide) true
    rw [never] at stops
    have required : (acInQuickInit entry.gzip f.bytes (acIoDelimiter 10) (entry.bufferSize * 1024).toNat).input.fullRecordRequired =
        true := rfl
    rw [CsvFile.advanceDelimited,required,stops]
  rw [List.map_cons,inCb,stored f List.mem_cons_self]
  simp only
  rw [seek,acInAdvance,if_neg (by exact Bool.false_ne_true),call]
  rfl

end

/-! ## The file to start with -/

/-- The files that are passed over hold nothing above the checkpoint. -/
theorem fromCheckpoint_skips (checkpoint : UInt32) {files : List SyncFile}
    (above : files.IsChain fun f g => ∀ r ∈ f.records, r.id < g.label) :
    ∃ skipped rest, files = skipped ++ rest ∧
      fromCheckpoint checkpoint (files.map SyncFile.label) = rest.map SyncFile.label ∧
      (∀ f ∈ skipped, ∀ r ∈ f.records, r.id ≤ checkpoint) ∧ (files ≠ [] → rest ≠ []) := by
  induction files with
  | nil => exact ⟨[],[],rfl,rfl,by simp,id⟩
  | cons f tail ih =>
  cases tail with
  | nil => exact ⟨[],[f],rfl,rfl,by simp,id⟩
  | cons g files =>
    rw [List.isChain_cons_cons] at above
    rw [List.map_cons,List.map_cons,fromCheckpoint]
    split
    case isTrue => exact ⟨[],f :: g :: files,rfl,rfl,by simp,id⟩
    case isFalse notAbove =>
      obtain ⟨skipped,rest,whole,start,old,some_⟩ := ih above.2
      refine ⟨f :: skipped,rest,by rw [whole,List.cons_append],start,?_,fun _ => some_ (List.cons_ne_nil g files)⟩
      refine List.forall_mem_cons.mpr ⟨fun r member => ?_,old⟩
      have below := above.1 r member
      rw [UInt32.lt_iff_toNat_lt] at below
      rw [gt_iff_lt,UInt32.lt_iff_toNat_lt] at notAbove
      rw [UInt32.le_iff_toNat_le]
      have sum := UInt32.toNat_add checkpoint 1
      have one : (1 : UInt32).toNat = 1 := rfl
      have small := checkpoint.toNat_lt
      have smallr := r.id.toNat_lt
      rw [one] at sum
      omega

/-- What an upward closed condition drops from an ascending list is what it filters out. -/
theorem dropWhile_eq_filter {α : Type} {lt : α → α → Prop} {p : α → Bool} {xs : List α} (ascending : xs.Pairwise lt)
    (closed : ∀ x y, lt x y → p x = true → p y = true) : xs.dropWhile (fun x => !p x) = xs.filter p := by
  induction xs with
  | nil => rfl
  | cons x xs ih =>
    obtain ⟨first,rest⟩ := List.pairwise_cons.mp ascending
    cases holds : p x with
    | false => rw [List.dropWhile_cons_of_pos (by simp [holds]),List.filter_cons_of_neg (by simp [holds]),ih rest]
    | true =>
      rw [List.dropWhile_cons_of_neg (by simp [holds]),List.filter_cons_of_pos holds]
      congr 1
      exact (List.filter_eq_self.mpr fun y member => closed x y (first y member) holds).symm

theorem news_eq {entry : Entry} {useCheckpoint : Bool} {files : List SyncFile}
    (ascending : (files.flatMap SyncFile.records).Pairwise fun r s => r.id < s.id) :
    files.flatMap (news entry useCheckpoint) = unseen entry useCheckpoint files := by
  induction files with
  | nil => rfl
  | cons f files ih =>
    rw [List.flatMap_cons] at ascending
    obtain ⟨mine,rest,_⟩ := List.pairwise_append.mp ascending
    have closed (r s : SyncRecord) (less : r.id < s.id) (wanted_ : wants entry useCheckpoint r = true) :
        wants entry useCheckpoint s = true := by
      simp only [wants,Bool.or_eq_true,Bool.not_eq_true',decide_eq_true_eq] at wanted_ ⊢
      refine wanted_.imp id fun past => ?_
      rw [gt_iff_lt,UInt32.lt_iff_toNat_lt] at past ⊢
      rw [UInt32.lt_iff_toNat_lt] at less
      omega
    rw [List.flatMap_cons,unseen,List.flatMap_cons,List.filter_append,ih rest]
    congr 1
    exact dropWhile_eq_filter mine closed

/-- What comes is what is unseen of all files. -/
theorem start_unseen {entry : Entry} (useCheckpoint : Bool) {files : List SyncFile} (valid : Valid files)
    (listed : entry.files = files.map SyncFile.label) :
    ∃ skipped rest, files = skipped ++ rest ∧ (files ≠ [] → rest ≠ []) ∧
      (if useCheckpoint then fromCheckpoint entry.checkpoint entry.files else entry.files) = rest.map SyncFile.label ∧
      rest.flatMap (news entry useCheckpoint) = unseen entry useCheckpoint files := by
  cases useCheckpoint with
  | false => exact ⟨[],files,rfl,id,listed,news_eq valid.ascending⟩
  | true =>
    obtain ⟨skipped,rest,whole,start,old,some_⟩ := fromCheckpoint_skips entry.checkpoint valid.above
    refine ⟨skipped,rest,whole,some_,by rw [if_pos rfl,listed,start],?_⟩
    have ascending := valid.ascending
    rw [whole,List.flatMap_append] at ascending
    rw [news_eq (List.pairwise_append.mp ascending).2.1,unseen,unseen,whole,List.flatMap_append,List.filter_append]
    have nothing : (skipped.flatMap SyncFile.records).filter
        (fun r => !true || decide (r.id > entry.checkpoint)) = [] := by
      refine List.filter_eq_nil_iff.mpr fun r member => ?_
      obtain ⟨f,inside,member⟩ := List.mem_flatMap.mp member
      have low := UInt32.le_iff_toNat_le.mp (old f inside r member)
      simp only [Bool.not_true,Bool.false_or,decide_eq_true_eq,gt_iff_lt,UInt32.lt_iff_toNat_lt]
      omega
    rw [nothing,List.nil_append]

/-! ## The result -/

theorem got_eq_iff (rs : List SyncRecord) :
    rs.map got = rs.map (fun r => (⟨r.bytes.length,r.bytes⟩ : Record)) ↔ ∀ r ∈ rs, r.bytes.length < 2 ^ 32 := by
  induction rs with
  | nil => simp
  | cons r rs ih =>
    rw [List.map_cons,List.map_cons,List.cons.injEq,ih,List.forall_mem_cons]
    refine and_congr_left fun _ => ?_
    simp only [got,Record.mk.injEq,and_true]
    have := Nat.mod_lt r.bytes.length (show 2 ^ 32 > 0 by decide)
    constructor
    · intro same
      omega
    · exact Nat.mod_eq_of_lt

theorem bufferRoom_pos_iff (entry : Entry) :
    0 < int32 (bufferRoom entry) ↔ (entry.bufferSize * 1024).toNat < 2 ^ 31 := by
  have small := (entry.bufferSize * 1024).toNat_lt
  have either : bufferRoom entry < 2 ^ 31 ↔ (entry.bufferSize * 1024).toNat < 2 ^ 31 := by
    simp only [bufferRoom,allocated]
    split <;> split <;> (try split) <;> omega
  have bounds : 256 ≤ bufferRoom entry ∧ bufferRoom entry < 2 ^ 32 := by
    simp only [bufferRoom,allocated]
    split <;> split <;> (try split) <;> omega
  rw [← either,int32,Nat.mod_eq_of_lt bounds.2]
  split
  · omega
  · omega

/-- Reading gives exactly the records above the checkpoint, or all without one, unless there is a file
    and the size of the buffer times 1024, in 32 bits, is no positive `int`, or a record is longer
    than a `uint32_t` can say. -/
theorem read_exact_iff (disk : UInt32 → Option (List UInt8)) (entry : Entry) (useCheckpoint : Bool)
    (files : List SyncFile) (valid : Valid files) (listed : entry.files = files.map SyncFile.label)
    (stored : Stored disk files) :
    Exact disk entry useCheckpoint files ↔
      (files = [] ∨ (entry.bufferSize * 1024).toNat < 2 ^ 31) ∧
        ∀ r ∈ unseen entry useCheckpoint files, r.bytes.length < 2 ^ 32 := by
  obtain ⟨skipped,rest,whole,some_,start,new⟩ := start_unseen useCheckpoint valid listed
  have inside (f : SyncFile) (member : f ∈ rest) : f ∈ files := by
    rw [whole]
    exact List.mem_append_right skipped member
  have storedRest : Stored disk rest := fun f member => stored f (inside f member)
  rw [Exact,fileSyncRead,start,← bufferRoom_pos_iff,← got_eq_iff]
  by_cases positive : 0 < int32 (bufferRoom entry)
  · obtain ⟨h,opened,yields⟩ := files_yield useCheckpoint positive storedRest
      fun f member => valid.records f (inside f member)
    rw [new] at yields
    constructor
    · rintro ⟨h',opened',yields'⟩
      rw [opened] at opened'
      cases opened'
      exact ⟨.inr positive,yields.unique yields'⟩
    · rintro ⟨_,same⟩
      rw [same] at yields
      exact ⟨h,opened,yields⟩
  · cases rest with
    | nil =>
      have none_ : files = [] := by
        by_contra exists_
        exact some_ exists_ rfl
      have nothing : unseen entry useCheckpoint files = [] := new.symm
      rw [nothing]
      exact iff_of_true ⟨none,rfl,Yields.stop rfl⟩ ⟨.inl none_,rfl⟩
    | cons f rest =>
      have exists_ : files ≠ [] := by
        rw [whole]
        simp
      rw [acInInitFromCb,inCb_stuck useCheckpoint (Int.not_lt.mp positive) storedRest]
      refine iff_of_false ?_ fun both => (both.1.resolve_left exists_ |> positive)
      rintro ⟨h,opened,_⟩
      exact absurd opened (Option.some_ne_none h).symm

/-- The lines `1,{}` and `2,{}` of `1.json`, and `4,{}` of `3.json`. -/
def twoFiles : List SyncFile := [⟨1,[⟨[49],[123,125]⟩,⟨[50],[123,125]⟩]⟩,⟨3,[⟨[52],[123,125]⟩]⟩]

/-- A disk with these files. -/
def diskOf (files : List SyncFile) (label : UInt32) : Option (List UInt8) :=
  (files.find? fun f => f.label == label).map SyncFile.bytes

theorem twoFiles_valid : Valid twoFiles where
  some_ := by decide
  records f member r inside := by
    have all : ∃ d, (d = 49 ∨ d = 50 ∨ d = 52) ∧ r.digits = [d] ∧ r.json = [123,125] := by
      simp only [twoFiles,List.mem_cons,List.not_mem_nil,or_false] at member
      rcases member with rfl | rfl
      · simp only [List.mem_cons,List.not_mem_nil,or_false] at inside
        rcases inside with rfl | rfl
        · exact ⟨49,.inl rfl,rfl,rfl⟩
        · exact ⟨50,.inr (.inl rfl),rfl,rfl⟩
      · rw [List.mem_singleton.mp inside]
        exact ⟨52,.inr (.inr rfl),rfl,rfl⟩
    have digit : ∀ d : UInt8, d = 49 ∨ d = 50 ∨ d = 52 → isDigit d = true ∧ value [d] < 10 := by
      rintro d (rfl | rfl | rfl)
      · exact ⟨rfl,by decide⟩
      · exact ⟨rfl,by decide⟩
      · exact ⟨rfl,by decide⟩
    obtain ⟨d,which,digits,json⟩ := all
    obtain ⟨isDigit_,small⟩ := digit d which
    refine ⟨by rw [digits]; exact List.cons_ne_nil _ _,fun c member => ?_,by rw [digits]; omega,by rw [json]; decide⟩
    rw [digits] at member
    rw [List.mem_singleton.mp member]
    exact isDigit_
  ascending := by decide
  above := by
    rw [twoFiles,List.isChain_cons_cons]
    exact ⟨by decide,List.isChain_singleton _⟩
  first := by decide

/-- With the checkpoint 1 the records 2 and 4 are to come. -/
theorem read_exact_two : Exact (diskOf twoFiles) ⟨false,[1,3],16,1⟩ true twoFiles :=
  (read_exact_iff (diskOf twoFiles) ⟨false,[1,3],16,1⟩ true twoFiles twoFiles_valid rfl (by unfold Stored; decide)).mpr
    ⟨.inr (by decide),by decide⟩

/-- A buffer of 2 GiB: the read does not return. -/
theorem read_stuck :
    (¬ ∀ (disk : UInt32 → Option (List UInt8)) (entry : Entry) (useCheckpoint : Bool) (files : List SyncFile),
      Valid files → entry.files = files.map SyncFile.label → Stored disk files →
        Exact disk entry useCheckpoint files) ∧
    fileSyncRead (diskOf twoFiles) ⟨false,[1,3],2097152,0⟩ false = none := by
  have stored : Stored (diskOf twoFiles) twoFiles := by
    unfold Stored
    decide
  have never : fileSyncRead (diskOf twoFiles) ⟨false,[1,3],2097152,0⟩ false = none := by
    have large : int32 (bufferRoom ⟨false,[1,3],2097152,0⟩) ≤ 0 := by decide
    have stuck : inCb (diskOf twoFiles) ⟨false,[1,3],2097152,0⟩ false (twoFiles.map SyncFile.label) = none :=
      inCb_stuck false large stored
    show (inCb _ _ _ (twoFiles.map SyncFile.label)).map _ = none
    rw [stuck]
    rfl
  refine ⟨fun claim => ?_,never⟩
  obtain ⟨h,opened,_⟩ := claim (diskOf twoFiles) ⟨false,[1,3],2097152,0⟩ false twoFiles twoFiles_valid rfl stored
  rw [never] at opened
  exact absurd opened (Option.some_ne_none h).symm

end AnotherC.FileSyncRead
