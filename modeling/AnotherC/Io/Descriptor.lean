import AnotherC.Io.CsvFile

/-!
# Reading from a descriptor: `ac_in_init_with_fd`

`read` may give fewer bytes than it is asked for, and `fill_blocks` takes that for the
end of the input. A delivery lists the pieces in which the bytes come. As long as no
read is short before the end, every delivery is read as a file is
(`readz_gives`, `read_base_gives`, `delimited_gives`), and so all of them give the same
records (`deliveries_agree`).
-/
namespace AnotherC.Descriptor
open AnotherC.Lib.Bytes
open AnotherC.InBase
open AnotherC.InSearch
open AnotherC.Framing (In Format)
open AnotherC.CsvFile (Record findCsv readDelimited)
set_option linter.unusedVariables false

/-- How a descriptor delivers what is left: the lengths of the pieces, behind which
    the rest is one piece. `short` tells of the reads up to now: whether one has given
    less than it was asked for, and less than was left. -/
structure Delivery where
  pieces : List Nat
  short : Bool
deriving Repr, DecidableEq

/-- A regular file. -/
def whole : Delivery := ⟨[],false⟩

/-- `read` of `n` bytes where `left` bytes are to come: how many it gives. -/
def Delivery.read (d : Delivery) (n left : Nat) : Nat × Delivery :=
  match d.pieces with
  | [] => (min n left,d)
  | piece :: pieces =>
    let got := min n (min piece left)
    (got,⟨if got < piece then (piece - got) :: pieces else pieces,d.short || decide (got < n ∧ got < left)⟩)

/-- `fill_blocks`. -/
def fillFrom (b : InBuffer) (file : List UInt8) (d : Delivery) : (InBuffer × List UInt8) × Delivery :=
  if b.eof then ((b,file),d)
  else
    let bytes := int32 (b.size - b.buffer.length)
    if bytes < 0 then ((b,file),d)
    else
      let read := d.read bytes.toNat file.length
      let b := { b with buffer := b.buffer ++ file.take read.1 }
      if read.1 < bytes then (({ b with eof := true, size := b.buffer.length },file.drop read.1),read.2)
      else ((b,file.drop read.1),read.2)

/-- `ac_in_base_init`. -/
def initFrom (file : List UInt8) (bufferSize : Nat) (d : Delivery) : InBase × Delivery :=
  let filled := fillFrom ⟨[],allocated bufferSize,0,false⟩ file d
  (⟨filled.1.1,filled.1.2,none,none,0⟩,filled.2)

/-- The loop that gathers a record in `bh`. -/
def gatherFrom (find : List UInt8 → Option Nat) (required : Bool) (h : InBase) (bh : List UInt8) (d : Delivery) :
    Option (Option Found × InBase) × Delivery :=
  let bh := bh ++ h.buf.buffer
  let filled := fillFrom { h.buf with buffer := [], pos := 0 } h.file d
  let b := filled.1.1
  match find b.buffer with
  | some i =>
    let bh := bh ++ b.buffer.take i
    if i + 1 > b.buffer.length then (none,filled.2)
    else
      (some (some ⟨int32 bh.length,bh⟩,{ h with buf := { b with pos := i + 1 }, file := filled.1.2, bh := some bh }),
        filled.2)
  | none =>
    if b.eof then
      let b := { b with pos := b.buffer.length }
      if required then (some (none,{ h with buf := b, file := filled.1.2, bh := none }),filled.2)
      else
        let bh := bh ++ b.buffer
        (some (some ⟨int32 bh.length,bh⟩,{ h with buf := b, file := filled.1.2, bh := some bh }),filled.2)
    else if filled.1.2.length < h.file.length then
      gatherFrom find required { h with buf := b, file := filled.1.2 } bh filled.2
    else (none,filled.2)
termination_by h.file.length

/-- `ac_in_base_read_delimited` with the loop over `p` as a parameter. -/
def searchFrom (find : List UInt8 → Option Nat) (h : InBase) (required : Bool) (d : Delivery) :
    Option (Option Found × InBase) × Delivery :=
  let h := cleanupLastRead h
  match find (h.buf.buffer.drop h.buf.pos) with
  | some i => (foundDelimiter h i,d)
  | none =>
    if h.buf.eof then
      (some (endOfBlock { h with buf := { h.buf with pos := h.buf.buffer.length } } (h.buf.buffer.drop h.buf.pos) required),
        d)
    else if h.buf.pos > 0 then
      let searched := (h.buf.buffer.drop h.buf.pos).length
      let filled := fillFrom (resetBlock h.buf) h.file d
      let h := { h with buf := filled.1.1, file := filled.1.2 }
      match find (h.buf.buffer.drop searched) with
      | some i => (foundDelimiter h (searched + i),filled.2)
      | none =>
        if h.buf.eof then
          (some (endOfBlock { h with buf := { h.buf with pos := h.buf.buffer.length } } h.buf.buffer required),filled.2)
        else gatherFrom find required h [] filled.2
    else gatherFrom find required h [] d

/-- `ac_in_base_read_delimited`. -/
def delimitedFrom (h : InBase) (delim : Int) (required : Bool) (d : Delivery) :
    Option (Option Found × InBase) × Delivery :=
  if delim ≥ 256 then searchFrom (findCsv (delim - 256) false) h required d
  else searchFrom (findDelimiter delim) h required d

/-- `ac_in_base_readz`. -/
def readzFrom (h : InBase) (len : Nat) (d : Delivery) : (Found × InBase) × Delivery :=
  let h := cleanupLastRead h
  let b := h.buf
  if b.pos + len ≤ b.buffer.length then
    ((⟨len,(b.buffer.drop b.pos).take len⟩,terminate { h with buf := { b with pos := b.pos + len } } (b.pos + len)),d)
  else if len > b.size then
    if b.eof then (restOfBuffer h,d)
    else
      let filled := fillFrom ⟨b.buffer.drop b.pos,len,b.buffer.length - b.pos,false⟩ h.file d
      let tmp := filled.1.1
      ((⟨int32 tmp.buffer.length,tmp.buffer⟩,
        { h with
          buf := { b with buffer := [], pos := 0, eof := tmp.eof }
          file := filled.1.2
          bh := some tmp.buffer }),filled.2)
  else if b.eof then (restOfBuffer h,d)
  else
    let filled := fillFrom (resetBlock b) h.file d
    let b := filled.1.1
    let len := if len > b.buffer.length then b.buffer.length else len
    ((⟨int32 len,b.buffer.take len⟩,terminate { h with buf := { b with pos := len }, file := filled.1.2 } len),filled.2)

/-- `ac_in_base_readz` of a length that is converted to an `int32_t`. -/
def readz32From (h : InBase) (len : Nat) (d : Delivery) : Option (Found × InBase) × Delivery :=
  if len < 2 ^ 31 then
    let read := readzFrom h len d
    (some read.1,read.2)
  else (acInBaseReadz32 h len,d)

/-- `ac_in_base_read`. -/
def readFrom (h : InBase) (len : Nat) (d : Delivery) : Option (Option (List UInt8) × InBase) × Delivery :=
  let h := restore h
  let b := h.buf
  if b.pos + len ≤ b.buffer.length then
    (some (some ((b.buffer.drop b.pos).take len),{ h with buf := { b with pos := b.pos + len } }),d)
  else if b.eof then (some (none,{ h with buf := { b with pos := b.buffer.length } }),d)
  else
    let filled := fillFrom (resetBlock b) h.file d
    let b := filled.1.1
    if len > b.buffer.length then
      if b.eof then (some (none,{ h with buf := { b with pos := b.buffer.length }, file := filled.1.2 }),filled.2)
      else (none,filled.2)
    else (some (some (b.buffer.take len),{ h with buf := { b with pos := len }, file := filled.1.2 }),filled.2)

/-! ### `ac_in_advance` -/

/-- What `_advance_prefix` makes of the record behind its length. -/
def recordRead (h : In) (length : Nat) : Option (Found × InBase) → Delivery → Option (Option Record × In) × Delivery
  | none, d => (none,d)
  | some (found,base), d =>
    if found.rlen ≠ int32 length then (some (none,{ h with base := base }),d)
    else (some (some ⟨length,found.p⟩,{ h with base := base }),d)

/-- What `_advance_prefix` makes of the length. -/
def lengthRead (h : In) :
    Option (Option (List UInt8) × InBase) → Delivery → Option (Option Record × In) × Delivery
  | none, d => (none,d)
  | some (none,base), d => (some (none,{ h with base := base }),d)
  | some (some p,base), d =>
    if number p > 0 then
      let read := readz32From base (number p) d
      recordRead h (number p) read.1 read.2
    else (some (some ⟨number p,p⟩,{ h with base := base }),d)

def advancePrefix (h : In) (d : Delivery) : Option (Option Record × In) × Delivery :=
  let read := readFrom h.base 4 d
  lengthRead h read.1 read.2

def advanceFixed (h : In) (fixed : Nat) (d : Delivery) : Option (Option Record × In) × Delivery :=
  let read := readzFrom h.base fixed d
  if read.1.1.rlen ≠ fixed then (some (none,{ h with base := read.1.2 }),read.2)
  else (some (some ⟨fixed,read.1.1.p⟩,{ h with base := read.1.2 }),read.2)

/-- What `_advance_delimited` makes of what is read. -/
def lineRead (h : In) : Option (Option Found × InBase) → Option (Option Record × In)
  | none => none
  | some (none,base) => some (none,{ h with base := base })
  | some (some found,base) => some (some ⟨uint32 found.rlen,found.p⟩,{ h with base := base })

def advanceDelimited (h : In) (delimiter : Int) (d : Delivery) : Option (Option Record × In) × Delivery :=
  let read := delimitedFrom h.base delimiter h.fullRecordRequired d
  (lineRead h read.1,read.2)

/-- `ac_in_advance`: the call through the function pointer. -/
def acInAdvance (h : In) (d : Delivery) : Option (Option Record × In) × Delivery :=
  if h.format < 0 then advanceDelimited h (-h.format - 1) d
  else if h.format > 0 then advanceFixed h h.format.toNat d
  else advancePrefix h d

/-- `ac_in_init_with_fd`. -/
def acInInitWithFd (file : List UInt8) (bufferSize : Nat) (format : Format) (required : Bool) (d : Delivery) :
    In × Delivery :=
  let base := initFrom file bufferSize d
  (⟨base.1,format,required⟩,base.2)

/-- The answer of call number `n`, counted from 0, and the delivery after it. -/
def answer : Nat → In → Delivery → Option (Option Record) × Delivery
  | 0, h, d =>
    let call := acInAdvance h d
    (call.1.map Prod.fst,call.2)
  | n + 1, h, d =>
    match acInAdvance h d with
    | (none,d) => (none,d)
    | (some (_,h),d) => answer n h d

/-- What call number `n` answers on a descriptor. -/
def delivered (file : List UInt8) (bufferSize : Nat) (format : Format) (required : Bool) (d : Delivery) (n : Nat) :
    Option (Option Record) × Delivery :=
  let opened := acInInitWithFd file bufferSize format required d
  answer n opened.1 opened.2

/-! ### Deliveries without a short read -/

/-- Every delivery of which no read is short up to the end of the call gives `a`. -/
def Gives {α : Type} (m : Delivery → α × Delivery) (a : α) : Prop :=
  ∀ d, (m d).2.short = false → d.short = false ∧ (m d).1 = a

theorem Gives.pure {α : Type} (a : α) : Gives (fun d => (a,d)) a := fun d steady => ⟨steady,rfl⟩

/-- What is done after a call that gives `a`. -/
theorem Gives.bind {α β : Type} {m : Delivery → α × Delivery} {a : α} {k : α → Delivery → β × Delivery} {b : β}
    (first : Gives m a) (second : Gives (k a) b) (kept : ∀ x d, (k x d).2.short = false → d.short = false) :
    Gives (fun d => k (m d).1 (m d).2) b := by
  intro d steady
  obtain ⟨before,same⟩ := first d (kept _ _ steady)
  dsimp only at steady ⊢
  rw [same] at steady ⊢
  exact ⟨before,(second _ steady).2⟩

theorem read_gives (n left : Nat) : Gives (fun d => d.read n left) (min n left) := by
  intro d
  dsimp only
  unfold Delivery.read
  cases d.pieces with
  | nil => exact fun steady => ⟨steady,rfl⟩
  | cons piece pieces =>
    intro steady
    simp only [Bool.or_eq_false_iff,decide_eq_false_iff_not] at steady
    refine ⟨steady.1,?_⟩
    dsimp only
    omega

/-- Without a short read the buffer is filled as from a file. -/
theorem fill_gives (b : InBuffer) (file : List UInt8) : Gives (fillFrom b file) (fillBlocks b file) := by
  intro d
  simp only [fillFrom,fillBlocks]
  by_cases ended : b.eof = true
  · rw [if_pos ended,if_pos ended]
    exact fun steady => ⟨steady,rfl⟩
  · rw [if_neg ended,if_neg ended]
    by_cases negative : int32 (b.size - b.buffer.length) < 0
    · rw [if_pos negative,if_pos negative]
      exact fun steady => ⟨steady,rfl⟩
    · rw [if_neg negative,if_neg negative]
      have read := read_gives (int32 (b.size - b.buffer.length)).toNat file.length d
      dsimp only at read
      generalize d.read (int32 (b.size - b.buffer.length)).toNat file.length = got at read
      intro steady
      have still : got.2.short = false := by
        split_ifs at steady <;> exact steady
      obtain ⟨before,amount⟩ := read still
      refine ⟨before,?_⟩
      rw [amount]
      have same : file.take (min (int32 (b.size - b.buffer.length)).toNat file.length) =
            file.take (int32 (b.size - b.buffer.length)).toNat ∧
          file.drop (min (int32 (b.size - b.buffer.length)).toNat file.length) =
            file.drop (int32 (b.size - b.buffer.length)).toNat := by
        rcases Nat.le_total (int32 (b.size - b.buffer.length)).toNat file.length with fits | rest
        · rw [Nat.min_eq_left fits]
          exact ⟨rfl,rfl⟩
        · rw [Nat.min_eq_right rest,List.take_length,List.drop_length,List.take_of_length_le rest,
            List.drop_of_length_le rest]
          exact ⟨rfl,rfl⟩
      rw [same.1,same.2]
      by_cases ends : (file.length : Int) < int32 (b.size - b.buffer.length)
      · rw [if_pos ends,if_pos (by omega)]
      · rw [if_neg ends,if_neg (by omega)]

theorem gather_gives (find : List UInt8 → Option Nat) (required : Bool) (h : InBase) (bh : List UInt8) :
    Gives (gatherFrom find required h bh) (gatherWith find required h bh) := by
  induction unread : h.file.length using Nat.strongRecOn generalizing h bh with
  | ind unread ih =>
    intro d
    rw [gatherFrom,gatherWith]
    have fill := fill_gives { h.buf with buffer := [], pos := 0 } h.file d
    generalize fillFrom { h.buf with buffer := [], pos := 0 } h.file d = filled at fill
    obtain ⟨⟨b,left⟩,d'⟩ := filled
    intro steady
    have still : d'.short = false := by
      dsimp only at steady
      split at steady
      · split at steady <;> exact steady
      · split at steady
        · split at steady <;> exact steady
        · split at steady
          case isTrue fewer => exact (ih left.length (by omega) _ _ rfl d' steady).1
          case isFalse => exact steady
    obtain ⟨before,same⟩ := fill still
    refine ⟨before,?_⟩
    rw [← same]
    dsimp only at steady ⊢
    cases found : find b.buffer with
    | some i =>
      dsimp only
      split <;> rfl
    | none =>
      rw [found] at steady
      dsimp only at steady ⊢
      by_cases ended : b.eof = true
      · rw [if_pos ended,if_pos ended]
        split <;> rfl
      · rw [if_neg ended] at steady
        rw [if_neg ended,if_neg ended]
        by_cases fewer : left.length < h.file.length
        · rw [if_pos fewer] at steady
          rw [if_pos fewer,if_pos fewer]
          exact (ih left.length (by omega) _ _ rfl d' steady).2
        · rw [if_neg fewer,if_neg fewer]

theorem search_gives (find : List UInt8 → Option Nat) (h : InBase) (required : Bool) :
    Gives (searchFrom find h required) (readWith find h required) := by
  intro d
  simp only [searchFrom,readWith]
  generalize cleanupLastRead h = h
  cases find (h.buf.buffer.drop h.buf.pos) with
  | some i => exact fun steady => ⟨steady,rfl⟩
  | none =>
    dsimp only
    by_cases ended : h.buf.eof = true
    · rw [if_pos ended,if_pos ended]
      exact fun steady => ⟨steady,rfl⟩
    · rw [if_neg ended,if_neg ended]
      by_cases moved : h.buf.pos > 0
      · rw [if_pos moved,if_pos moved]
        have fill := fill_gives (resetBlock h.buf) h.file d
        generalize fillFrom (resetBlock h.buf) h.file d = filled at fill
        obtain ⟨⟨b,left⟩,d'⟩ := filled
        intro steady
        have still : d'.short = false := by
          dsimp only at steady
          split at steady
          · exact steady
          · split at steady
            · exact steady
            · exact (gather_gives _ _ _ _ d' steady).1
        obtain ⟨before,same⟩ := fill still
        refine ⟨before,?_⟩
        rw [← same]
        dsimp only at steady ⊢
        cases found : find (b.buffer.drop (h.buf.buffer.drop h.buf.pos).length) with
        | some i => rfl
        | none =>
          rw [found] at steady
          dsimp only at steady ⊢
          by_cases ends : b.eof = true
          · rw [if_pos ends,if_pos ends]
          · rw [if_neg ends] at steady
            rw [if_neg ends,if_neg ends]
            exact (gather_gives _ _ _ _ d' steady).2
      · rw [if_neg moved,if_neg moved]
        exact gather_gives _ _ _ _ d

theorem delimited_gives (h : InBase) (delim : Int) (required : Bool) :
    Gives (delimitedFrom h delim required) (readDelimited h delim required) := by
  intro d
  unfold delimitedFrom readDelimited
  split
  · exact search_gives _ _ _ d
  · exact search_gives _ _ _ d

theorem readz_gives (h : InBase) (len : Nat) : Gives (readzFrom h len) (acInBaseReadz h len) := by
  intro d
  simp only [readzFrom,acInBaseReadz]
  generalize cleanupLastRead h = h
  by_cases here : h.buf.pos + len ≤ h.buf.buffer.length
  · rw [if_pos here,if_pos here]
    exact fun steady => ⟨steady,rfl⟩
  · rw [if_neg here,if_neg here]
    by_cases long : len > h.buf.size
    · rw [if_pos long,if_pos long]
      by_cases ended : h.buf.eof = true
      · rw [if_pos ended,if_pos ended]
        exact fun steady => ⟨steady,rfl⟩
      · rw [if_neg ended,if_neg ended]
        intro steady
        obtain ⟨before,same⟩ := fill_gives _ _ d steady
        rw [same]
        exact ⟨before,rfl⟩
    · rw [if_neg long,if_neg long]
      by_cases ended : h.buf.eof = true
      · rw [if_pos ended,if_pos ended]
        exact fun steady => ⟨steady,rfl⟩
      · rw [if_neg ended,if_neg ended]
        intro steady
        obtain ⟨before,same⟩ := fill_gives _ _ d steady
        rw [same]
        exact ⟨before,rfl⟩

theorem readz32_gives (h : InBase) (len : Nat) : Gives (readz32From h len) (acInBaseReadz32 h len) := by
  intro d
  unfold readz32From
  by_cases small : len < 2 ^ 31
  · rw [if_pos small,acInBaseReadz32,if_pos small]
    intro steady
    obtain ⟨before,same⟩ := readz_gives h len d steady
    exact ⟨before,congrArg some same⟩
  · rw [if_neg small]
    exact fun steady => ⟨steady,rfl⟩

theorem read_base_gives (h : InBase) (len : Nat) : Gives (readFrom h len) (acInBaseRead h len) := by
  intro d
  simp only [readFrom,acInBaseRead]
  generalize restore h = h
  by_cases here : h.buf.pos + len ≤ h.buf.buffer.length
  · rw [if_pos here,if_pos here]
    exact fun steady => ⟨steady,rfl⟩
  · rw [if_neg here,if_neg here]
    by_cases ended : h.buf.eof = true
    · rw [if_pos ended,if_pos ended]
      exact fun steady => ⟨steady,rfl⟩
    · rw [if_neg ended,if_neg ended]
      have fill := fill_gives (resetBlock h.buf) h.file d
      generalize fillFrom (resetBlock h.buf) h.file d = filled at fill
      obtain ⟨⟨b,left⟩,d'⟩ := filled
      intro steady
      have still : d'.short = false := by
        dsimp only at steady
        split at steady
        · split at steady <;> exact steady
        · exact steady
      obtain ⟨before,same⟩ := fill still
      refine ⟨before,?_⟩
      rw [← same]
      dsimp only
      split
      · split <;> rfl
      · rfl

/-! ### Records -/

theorem recordRead_kept (h : In) (length : Nat) (read : Option (Found × InBase)) (d : Delivery) :
    (recordRead h length read d).2 = d := by
  unfold recordRead
  split
  · rfl
  · split <;> rfl

theorem recordRead_gives (h : In) (length : Nat) (read : Option (Found × InBase)) :
    Gives (recordRead h length read) (recordRead h length read whole).1 := by
  intro d steady
  rw [recordRead_kept] at steady
  refine ⟨steady,?_⟩
  unfold recordRead
  cases read with
  | none => rfl
  | some found =>
    dsimp only
    split <;> rfl

theorem lengthRead_gives (h : In) (read : Option (Option (List UInt8) × InBase)) : ∃ a, Gives (lengthRead h read) a := by
  cases read with
  | none => exact ⟨none,Gives.pure none⟩
  | some answer =>
    obtain ⟨p,base⟩ := answer
    cases p with
    | none => exact ⟨_,Gives.pure _⟩
    | some p =>
      by_cases positive : number p > 0
      · refine ⟨(recordRead h (number p) (acInBaseReadz32 base (number p)) whole).1,fun d => ?_⟩
        simp only [lengthRead,if_pos positive]
        refine Gives.bind (readz32_gives base (number p)) (recordRead_gives h (number p) _) ?_ d
        intro read d steady
        rw [recordRead_kept] at steady
        exact steady
      · refine ⟨some (some ⟨number p,p⟩,{ h with base := base }),fun d steady => ?_⟩
        simp only [lengthRead,if_neg positive] at steady ⊢
        exact ⟨steady,trivial⟩

theorem prefix_gives (h : In) : ∃ a, Gives (advancePrefix h) a := by
  obtain ⟨a,length⟩ := lengthRead_gives h (acInBaseRead h.base 4)
  refine ⟨a,Gives.bind (read_base_gives h.base 4) length ?_⟩
  intro read d steady
  obtain ⟨_,gives⟩ := lengthRead_gives h read
  exact (gives d steady).1

theorem fixed_gives (h : In) (fixed : Nat) : ∃ a, Gives (advanceFixed h fixed) a := by
  refine ⟨if (acInBaseReadz h.base fixed).1.rlen ≠ fixed then some (none,{ h with base := (acInBaseReadz h.base fixed).2 })
    else some (some ⟨fixed,(acInBaseReadz h.base fixed).1.p⟩,{ h with base := (acInBaseReadz h.base fixed).2 }),?_⟩
  intro d
  unfold advanceFixed
  dsimp only
  intro steady
  have still : (readzFrom h.base fixed d).2.short = false := by
    split at steady <;> exact steady
  obtain ⟨before,same⟩ := readz_gives h.base fixed d still
  rw [same]
  refine ⟨before,?_⟩
  split <;> rfl

theorem line_gives (h : In) (delimiter : Int) : ∃ a, Gives (advanceDelimited h delimiter) a := by
  refine ⟨lineRead h (readDelimited h.base delimiter h.fullRecordRequired),?_⟩
  intro d steady
  obtain ⟨before,same⟩ := delimited_gives h.base delimiter h.fullRecordRequired d steady
  exact ⟨before,congrArg (lineRead h) same⟩

theorem advance_gives (h : In) : ∃ a, Gives (acInAdvance h) a := by
  by_cases negative : h.format < 0
  · obtain ⟨a,gives⟩ := line_gives h (-h.format - 1)
    refine ⟨a,fun d => ?_⟩
    rw [acInAdvance,if_pos negative]
    exact gives d
  · by_cases positive : h.format > 0
    · obtain ⟨a,gives⟩ := fixed_gives h h.format.toNat
      refine ⟨a,fun d => ?_⟩
      rw [acInAdvance,if_neg negative,if_pos positive]
      exact gives d
    · obtain ⟨a,gives⟩ := prefix_gives h
      refine ⟨a,fun d => ?_⟩
      rw [acInAdvance,if_neg negative,if_neg positive]
      exact gives d

/-- The run: no call before has had a short read, and all answer alike. -/
theorem answer_gives (n : Nat) : ∀ h : In, ∃ a, Gives (answer n h) a := by
  induction n with
  | zero =>
    intro h
    obtain ⟨a,gives⟩ := advance_gives h
    refine ⟨a.map Prod.fst,fun d steady => ?_⟩
    obtain ⟨before,same⟩ := gives d steady
    exact ⟨before,congrArg (Option.map Prod.fst) same⟩
  | succ n ih =>
    intro h
    obtain ⟨a,gives⟩ := advance_gives h
    have kept : ∀ d, (answer (n + 1) h d).2.short = false → (acInAdvance h d).2.short = false := by
      intro d steady
      rw [answer] at steady
      generalize acInAdvance h d = call at steady
      obtain ⟨x,d'⟩ := call
      cases x with
      | none => exact steady
      | some next =>
        obtain ⟨b,later⟩ := ih next.2
        exact (later d' steady).1
    cases a with
    | none =>
      refine ⟨none,fun d steady => ?_⟩
      obtain ⟨before,same⟩ := gives d (kept d steady)
      refine ⟨before,?_⟩
      rw [answer]
      generalize acInAdvance h d = call at same
      obtain ⟨x,d'⟩ := call
      cases same
      rfl
    | some next =>
      obtain ⟨b,later⟩ := ih next.2
      refine ⟨b,fun d steady => ?_⟩
      obtain ⟨before,same⟩ := gives d (kept d steady)
      refine ⟨before,?_⟩
      rw [answer] at steady ⊢
      generalize acInAdvance h d = call at same steady
      obtain ⟨x,d'⟩ := call
      cases same
      exact (later d' steady).2

theorem delivered_gives (file : List UInt8) (bufferSize : Nat) (format : Format) (required : Bool) (n : Nat) :
    ∃ a, Gives (fun d => delivered file bufferSize format required d n) a := by
  obtain ⟨a,gives⟩ := answer_gives n ⟨acInBaseInit file bufferSize,format,required⟩
  refine ⟨a,fun d steady => ?_⟩
  have fill := fill_gives ⟨[],allocated bufferSize,0,false⟩ file d
  have opened : ∀ d', (delivered file bufferSize format required d' n) =
      answer n ⟨⟨(fillFrom ⟨[],allocated bufferSize,0,false⟩ file d').1.1,
        (fillFrom ⟨[],allocated bufferSize,0,false⟩ file d').1.2,none,none,0⟩,format,required⟩
        (fillFrom ⟨[],allocated bufferSize,0,false⟩ file d').2 := fun _ => rfl
  dsimp only at steady ⊢
  rw [opened] at steady ⊢
  generalize fillFrom ⟨[],allocated bufferSize,0,false⟩ file d = filled at fill steady
  obtain ⟨⟨b,left⟩,d'⟩ := filled
  obtain ⟨c,run⟩ := answer_gives n ⟨⟨b,left,none,none,0⟩,format,required⟩
  obtain ⟨before,same⟩ := fill (run d' steady).1
  refine ⟨before,?_⟩
  obtain ⟨rfl,rfl⟩ := Prod.mk.inj same
  exact (gives d' steady).2

/-- As long as neither delivery has a short read before the end of the stream, each
    call answers the same. -/
theorem deliveries_agree (file : List UInt8) (bufferSize : Nat) (format : Format) (required : Bool)
    (pieces others : List Nat) (n : Nat) (steady : (delivered file bufferSize format required ⟨pieces,false⟩ n).2.short = false)
    (still : (delivered file bufferSize format required ⟨others,false⟩ n).2.short = false) :
    (delivered file bufferSize format required ⟨pieces,false⟩ n).1 =
      (delivered file bufferSize format required ⟨others,false⟩ n).1 := by
  obtain ⟨a,gives⟩ := delivered_gives file bufferSize format required n
  exact (gives _ steady).2.trans (gives _ still).2.symm

/-- Two lines that come in one piece. -/
theorem deliveries_agree_lines :
    (delivered [97,10,98,10] 0 (-11) true ⟨[],false⟩ 1).1 = (delivered [97,10,98,10] 0 (-11) true ⟨[4],false⟩ 1).1 :=
  deliveries_agree [97,10,98,10] 0 (-11) true [] [4] 1 (by decide) (by decide)

/-- Two lines that come in two pieces: the second one is lost. -/
theorem second_piece_lost : ([2,2] : List Nat).sum = [97,10,98,10].length ∧
    (delivered [97,10,98,10] 0 (-11) true ⟨[4],false⟩ 1).1 = some (some ⟨1,[98]⟩) ∧
    (delivered [97,10,98,10] 0 (-11) true ⟨[2,2],false⟩ 1).1 = some none := by
  decide

end AnotherC.Descriptor
