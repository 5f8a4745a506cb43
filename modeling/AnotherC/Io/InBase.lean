import Mathlib.Data.List.Basic
import AnotherC.Lib.Bytes

/-!
# Buffered reading: `ac_in_base`

The buffer is refilled from the file when what is asked for does not fit into
its rest. What is handed out points into the buffer and is terminated by a zero,
which takes the place of the first unread byte until the next call. `Holds`
states what is still to be read, and each of the three ways of reading takes its
part off the front of it (`read_takes`, `readz_takes`, `delimited_takes`).
-/
namespace AnotherC.InBase
open AnotherC.Lib.Bytes
set_option linter.unusedVariables false

/-- `ac_in_buffer_t`: the bytes in use, the bytes allocated, the position. -/
structure InBuffer where
  buffer : List UInt8
  size : Nat
  pos : Nat
  eof : Bool
deriving Repr, DecidableEq

/-- `ac_in_base_t`. `file` is what was not read from the file yet, `bh` the
    buffer for a record that does not fit into `buf`, and `zerop` where a zero
    stands in place of the byte `zero`. -/
structure InBase where
  buf : InBuffer
  file : List UInt8
  bh : Option (List UInt8)
  zerop : Option Nat
  zero : UInt8
deriving Repr, DecidableEq

def resetBlock (b : InBuffer) : InBuffer := { b with buffer := b.buffer.drop b.pos, pos := 0 }

/-- Reads fill the buffer unless the file ends. The room is an `int`, and where
    that is negative the read fails. -/
def fillBlocks (b : InBuffer) (file : List UInt8) : InBuffer × List UInt8 :=
  if b.eof then (b,file)
  else
    let bytes := int32 (b.size - b.buffer.length)
    if bytes < 0 then (b,file)
    else
      let b := { b with buffer := b.buffer ++ file.take bytes.toNat }
      if file.length < bytes then ({ b with eof := true, size := b.buffer.length },file.drop bytes.toNat)
      else (b,file.drop bytes.toNat)

/-- The second half of `cleanup_last_read`. -/
def restore (h : InBase) : InBase :=
  match h.zerop with
  | none => h
  | some zerop => { h with buf := { h.buf with buffer := h.buf.buffer.set zerop h.zero }, zerop := none }

def cleanupLastRead (h : InBase) : InBase := { restore h with bh := none }

/-- Puts the zero at a position; behind the bytes in use it is in a spare byte. -/
def terminate (h : InBase) (position : Nat) : InBase :=
  { h with
    zero := h.buf.buffer.getD position 0
    zerop := some position
    buf := { h.buf with buffer := h.buf.buffer.set position 0 } }

def acInBaseInit (file : List UInt8) (bufferSize : Nat) : InBase :=
  let bufferSize := if bufferSize < 256 then 256 else bufferSize
  let filled := fillBlocks ⟨[],bufferSize,0,false⟩ file
  ⟨filled.1,filled.2,none,none,0⟩

/-- `ac_in_base_reinit` over a file. -/
def acInBaseReinit (base : InBase) (bufferSize : Nat) : InBase := { base with buf := { base.buf with size := bufferSize } }

/-- What a call hands out: the length it reports and the bytes at the pointer. -/
structure Found where
  rlen : Int
  p : List UInt8
deriving Repr, DecidableEq

/-- The loops over `p` that look for the delimiter. A quote is passed over before
    it is compared with the delimiter. -/
def findDelimiter (delim : Int) : List UInt8 → Option Nat
  | [] => none
  | c :: rest =>
    if signedChar c = 34 then (findDelimiter delim rest).map (· + 1)
    else if signedChar c ≠ delim then (findDelimiter delim rest).map (· + 1)
    else some 0

/-- `end_of_block`: `p` are the bytes from `p` up to `ep`, where the buffer ends. -/
def endOfBlock (h : InBase) (p : List UInt8) (required : Bool) : Option Found × InBase :=
  if required then (none,h) else (some ⟨int32 p.length,p⟩,terminate h h.buf.buffer.length)

/-- The record that ends at the delimiter found in the buffer; `none` is `abort`. -/
def foundDelimiter (h : InBase) (i : Nat) : Option (Option Found × InBase) :=
  let b := h.buf
  let rlen := int32 i
  let pos := (b.pos + (rlen + 1)).toNat
  if pos > b.buffer.length then none
  else some (some ⟨rlen,(b.buffer.drop b.pos).take i⟩,terminate { h with buf := { b with pos := pos } } (b.pos + i))

/-- The loop that gathers a record in `bh`. Where a turn reads nothing and the
    file does not end, the loop goes on for ever; `none` is that. -/
def gather (delim : Int) (required : Bool) (h : InBase) (bh : List UInt8) : Option (Option Found × InBase) :=
  let bh := bh ++ h.buf.buffer
  let filled := fillBlocks { h.buf with buffer := [], pos := 0 } h.file
  let b := filled.1
  match findDelimiter delim b.buffer with
  | some i =>
    let bh := bh ++ b.buffer.take i
    if i + 1 > b.buffer.length then none
    else some (some ⟨int32 bh.length,bh⟩,{ h with buf := { b with pos := i + 1 }, file := filled.2, bh := some bh })
  | none =>
    if b.eof then
      let b := { b with pos := b.buffer.length }
      if required then some (none,{ h with buf := b, file := filled.2, bh := none })
      else
        let bh := bh ++ b.buffer
        some (some ⟨int32 bh.length,bh⟩,{ h with buf := b, file := filled.2, bh := some bh })
    else if filled.2.length < h.file.length then gather delim required { h with buf := b, file := filled.2 } bh
    else none
termination_by h.file.length

/-- `ac_in_base_read_delimited`, apart from the quoting of CSV. -/
def acInBaseReadDelimited (h : InBase) (delim : Int) (required : Bool) : Option (Option Found × InBase) :=
  let h := cleanupLastRead h
  match findDelimiter delim (h.buf.buffer.drop h.buf.pos) with
  | some i => foundDelimiter h i
  | none =>
    if h.buf.eof then
      some (endOfBlock { h with buf := { h.buf with pos := h.buf.buffer.length } } (h.buf.buffer.drop h.buf.pos) required)
    else if h.buf.pos > 0 then
      -- the part in the buffer was searched, so the search goes on in what is read now
      let searched := (h.buf.buffer.drop h.buf.pos).length
      let filled := fillBlocks (resetBlock h.buf) h.file
      let h := { h with buf := filled.1, file := filled.2 }
      match findDelimiter delim (h.buf.buffer.drop searched) with
      | some i => foundDelimiter h (searched + i)
      | none =>
        if h.buf.eof then
          some (endOfBlock { h with buf := { h.buf with pos := h.buf.buffer.length } } h.buf.buffer required)
        else gather delim required h []
    else gather delim required h []

/-- The rest of the buffer at the end of the file, as `ac_in_base_readz` hands
    it out. -/
def restOfBuffer (h : InBase) : Found × InBase :=
  let b := h.buf
  let rest := b.buffer.drop b.pos
  (⟨int32 rest.length,rest⟩,terminate { h with buf := { b with pos := b.buffer.length } } b.buffer.length)

def acInBaseReadz (h : InBase) (len : Nat) : Found × InBase :=
  let h := cleanupLastRead h
  let b := h.buf
  if b.pos + len ≤ b.buffer.length then
    (⟨len,(b.buffer.drop b.pos).take len⟩,terminate { h with buf := { b with pos := b.pos + len } } (b.pos + len))
  else if len > b.size then
    if b.eof then restOfBuffer h
    else
      -- the record is longer than the buffer and goes into one of its own size
      let filled := fillBlocks ⟨b.buffer.drop b.pos,len,b.buffer.length - b.pos,false⟩ h.file
      let tmp := filled.1
      (⟨int32 tmp.buffer.length,tmp.buffer⟩,
        { h with
          buf := { b with buffer := [], pos := 0, eof := tmp.eof }
          file := filled.2
          bh := some tmp.buffer })
  else if b.eof then restOfBuffer h
  else
    let filled := fillBlocks (resetBlock b) h.file
    let b := filled.1
    let len := if len > b.buffer.length then b.buffer.length else len
    (⟨int32 len,b.buffer.take len⟩,terminate { h with buf := { b with pos := len }, file := filled.2 } len)

/-- `ac_in_base_readz` of a length that is converted to an `int32_t`. A negative one
    is added to `pos` as a `size_t`: the sum wraps around to a place before `pos`, or
    lies behind the buffer. `none` is that no buffer of that length can be had. -/
def acInBaseReadz32 (h : InBase) (len : Nat) : Option (Found × InBase) :=
  if len < 2 ^ 31 then some (acInBaseReadz h len)
  else
    let h := cleanupLastRead h
    let b := h.buf
    if 2 ^ 32 ≤ b.pos + len then
      let pos := b.pos + len - 2 ^ 32
      some (⟨int32 len,b.buffer.drop b.pos⟩,terminate { h with buf := { b with pos := pos } } pos)
    else if b.eof then some (restOfBuffer h)
    else none

/-- `ac_in_base_read`; `none` is `abort`. -/
def acInBaseRead (h : InBase) (len : Nat) : Option (Option (List UInt8) × InBase) :=
  let h := restore h
  let b := h.buf
  if b.pos + len ≤ b.buffer.length then
    some (some ((b.buffer.drop b.pos).take len),{ h with buf := { b with pos := b.pos + len } })
  else if b.eof then some (none,{ h with buf := { b with pos := b.buffer.length } })
  else
    let filled := fillBlocks (resetBlock b) h.file
    let b := filled.1
    if len > b.buffer.length then
      if b.eof then some (none,{ h with buf := { b with pos := b.buffer.length }, file := filled.2 })
      else none
    else some (some (b.buffer.take len),{ h with buf := { b with pos := len }, file := filled.2 })

/-! ### What is still to be read -/

/-- A buffer with `size` bytes allocated and a file, of which `rest` is to be read. -/
structure Ready (size : Nat) (b : InBuffer) (file rest : List UInt8) : Prop where
  inside : b.pos ≤ b.buffer.length
  fits : (b.buffer.length : Int) ≤ int32 size
  holds : b.buffer.drop b.pos ++ file = rest
  ended : b.eof = true → file = []
  unended : b.eof = false → b.size = size

/-- What is still to be read once the terminating zero is taken back. -/
def Holds (size : Nat) (h : InBase) (rest : List UInt8) : Prop := Ready size (restore h).buf (restore h).file rest

theorem restore_terminate (h : InBase) (position : Nat) :
    (restore (terminate h position)).buf = h.buf ∧ (restore (terminate h position)).file = h.file := by
  refine ⟨?_,rfl⟩
  simp only [restore,terminate,List.set_set]
  by_cases inside : position < h.buf.buffer.length
  · simp [inside]
  · rw [List.set_eq_of_length_le (Nat.not_lt.mp inside)]

theorem terminate_holds {size : Nat} {h : InBase} {rest : List UInt8} (ready : Ready size h.buf h.file rest)
    (position : Nat) : Holds size (terminate h position) rest := by
  obtain ⟨buf,file⟩ := restore_terminate h position
  rw [Holds,buf,file]
  exact ready

theorem unpatched_holds {size : Nat} {h : InBase} {rest : List UInt8} (ready : Ready size h.buf h.file rest)
    (clean : h.zerop = none) : Holds size h rest := by
  simp only [Holds,restore,clean]
  exact ready

theorem restore_clean (h : InBase) : (restore h).zerop = none := by
  simp only [restore]
  split
  · assumption
  · rfl

theorem cleanup_clean (h : InBase) : (cleanupLastRead h).zerop = none := restore_clean h

/-- What a refill does: bytes move from the file to the buffer, up to its size
    unless the file ends. -/
theorem fill_spec {b : InBuffer} (unended : b.eof = false) (fits : (b.buffer.length : Int) ≤ int32 b.size)
    (file : List UInt8) :
    ∃ n, (fillBlocks b file).1.buffer = b.buffer ++ file.take n ∧ (fillBlocks b file).2 = file.drop n ∧
      (fillBlocks b file).1.pos = b.pos ∧ ((b.buffer ++ file.take n).length : Int) ≤ int32 b.size ∧
      ((fillBlocks b file).1.eof = true → file.drop n = []) ∧
      ((fillBlocks b file).1.eof = false → (fillBlocks b file).1.size = b.size ∧
        ((b.buffer ++ file.take n).length : Int) = int32 b.size) := by
  have room := int32_sub (by have := int32_le b.size; omega) fits
  have bytes : ¬ int32 (b.size - b.buffer.length) < 0 := by omega
  simp only [fillBlocks,unended,Bool.false_eq_true,if_false,bytes]
  refine ⟨(int32 (b.size - b.buffer.length)).toNat,?_⟩
  have length : ((b.buffer ++ file.take (int32 (b.size - b.buffer.length)).toNat).length : Int) ≤ int32 b.size := by
    rw [List.length_append,List.length_take]
    omega
  split
  case isTrue short =>
    refine ⟨rfl,rfl,rfl,length,fun _ => List.drop_eq_nil_iff.mpr (by omega),fun none => ?_⟩
    cases none
  case isFalse long =>
    refine ⟨rfl,rfl,rfl,length,fun ends => ?_,fun _ => ⟨rfl,?_⟩⟩
    · cases ends
    · rw [List.length_append,List.length_take]
      omega

/-- A refill of a buffer that starts with what is to be read. -/
theorem fill_ready {size : Nat} {b : InBuffer} {file rest : List UInt8} (ready : Ready size b file rest)
    (unended : b.eof = false) (start : b.pos = 0) :
    Ready size (fillBlocks b file).1 (fillBlocks b file).2 rest ∧ (fillBlocks b file).1.pos = 0 ∧
      (fillBlocks b file).1.buffer.take b.buffer.length = b.buffer ∧
      (fillBlocks b file).1.buffer.drop b.buffer.length ++ (fillBlocks b file).2 = file ∧
      ((fillBlocks b file).1.eof = false → ((fillBlocks b file).1.buffer.length : Int) = int32 size) := by
  have sizeIs := ready.unended unended
  obtain ⟨n,buffer,left,pos,fits,ended,more⟩ := fill_spec unended (by rw [sizeIs]; exact ready.fits) file
  have holds := ready.holds
  rw [start,List.drop_zero] at holds
  refine ⟨⟨?_,?_,?_,?_,?_⟩,pos.trans start,?_,?_,?_⟩
  · rw [pos,start]
    exact Nat.zero_le _
  · rw [buffer,← sizeIs]
    exact fits
  · rw [pos,start,buffer,left,List.drop_zero,List.append_assoc,List.take_append_drop]
    exact holds
  · rw [left]
    exact ended
  · exact fun unended => (more unended).1.trans sizeIs
  · rw [buffer,List.take_left']
    rfl
  · rw [buffer,left,List.drop_left' rfl,List.take_append_drop]
  · intro unended
    rw [buffer,← sizeIs]
    exact (more unended).2

theorem reset_ready {size : Nat} {b : InBuffer} {file rest : List UInt8} (ready : Ready size b file rest) :
    Ready size (resetBlock b) file rest where
  inside := Nat.zero_le _
  fits := by
    have := ready.fits
    simp only [resetBlock,List.length_drop]
    omega
  holds := ready.holds
  ended := ready.ended
  unended := ready.unended

/-- Bytes of the buffer are taken off what is to be read. -/
theorem advance_ready {size : Nat} {b : InBuffer} {file rest : List UInt8} (ready : Ready size b file rest) (len : Nat)
    (inside : b.pos + len ≤ b.buffer.length) :
    Ready size { b with pos := b.pos + len } file (rest.drop len) ∧ (b.buffer.drop b.pos).take len = rest.take len := by
  have enough : len ≤ (b.buffer.drop b.pos).length := by
    rw [List.length_drop]
    omega
  refine ⟨⟨inside,ready.fits,?_,ready.ended,ready.unended⟩,?_⟩
  · rw [← ready.holds,List.drop_append_of_le_length enough,List.drop_drop]
  · rw [← ready.holds,List.take_append_of_le_length enough]

/-- At the end of the file the rest of the buffer is all. -/
theorem end_ready {size : Nat} {b : InBuffer} {file rest : List UInt8} (ready : Ready size b file rest)
    (ended : b.eof = true) : Ready size { b with pos := b.buffer.length } file [] ∧ b.buffer.drop b.pos = rest := by
  have nothing := ready.ended ended
  have holds := ready.holds
  rw [nothing,List.append_nil] at holds
  exact ⟨⟨Nat.le_refl _,ready.fits,by rw [nothing]; simp,ready.ended,ready.unended⟩,holds⟩

/-- A read takes its bytes if the buffer has room for them and aborts if it has
    not; short of bytes it finds the end. -/
theorem read_takes {size : Nat} {h : InBase} {rest : List UInt8} (holds : Holds size h rest) (len : Nat) :
    (len ≤ rest.length → (len : Int) ≤ int32 size →
      ∃ h', acInBaseRead h len = some (some (rest.take len),h') ∧ Holds size h' (rest.drop len)) ∧
    (rest.length < len → (rest.length : Int) < int32 size →
      ∃ h', acInBaseRead h len = some (none,h') ∧ Holds size h' []) ∧
    (len ≤ rest.length → int32 size < len → acInBaseRead h len = none) := by
  have clean := restore_clean h
  have whole := congrArg List.length holds.holds
  have inside := holds.inside
  have fits := holds.fits
  rw [List.length_append,List.length_drop] at whole
  simp only [acInBaseRead]
  split
  case isTrue here =>
    obtain ⟨ready,taken⟩ := advance_ready holds len here
    refine ⟨fun _ _ => ?_,fun short => by omega,fun _ beyond => by omega⟩
    rw [taken]
    exact ⟨_,rfl,unpatched_holds ready clean⟩
  case isFalse notHere =>
    split
    case isTrue ended =>
      have nothing := congrArg List.length (holds.ended ended)
      rw [List.length_nil] at nothing
      refine ⟨fun enough => by omega,fun _ _ => ?_,fun enough => by omega⟩
      exact ⟨_,rfl,unpatched_holds (end_ready holds ended).1 clean⟩
    case isFalse unended =>
      obtain ⟨ready,pos,_,_,full⟩ := fill_ready (reset_ready holds) (Bool.eq_false_iff.mpr unended) rfl
      have all := congrArg List.length ready.holds
      have fitsAfter := ready.fits
      rw [List.length_append,List.length_drop,pos] at all
      split
      case isTrue short =>
        split
        case isTrue ended =>
          have nothing := congrArg List.length (ready.ended ended)
          rw [List.length_nil] at nothing
          refine ⟨fun enough => by omega,fun _ _ => ?_,fun enough => by omega⟩
          exact ⟨_,rfl,unpatched_holds (end_ready ready ended).1 clean⟩
        case isFalse more =>
          have := full (Bool.eq_false_iff.mpr more)
          exact ⟨fun _ room => by omega,fun _ room => by omega,fun _ _ => rfl⟩
      case isFalse enough =>
        obtain ⟨next,taken⟩ := advance_ready ready len (by omega)
        rw [pos,Nat.zero_add] at next
        rw [pos,List.drop_zero] at taken
        refine ⟨fun _ _ => ?_,fun short => by omega,fun _ beyond => by omega⟩
        rw [taken]
        exact ⟨_,rfl,unpatched_holds next clean⟩

theorem cleanup_ready {size : Nat} {h : InBase} {rest : List UInt8} (holds : Holds size h rest) :
    Ready size (cleanupLastRead h).buf (cleanupLastRead h).file rest := holds

theorem restOfBuffer_takes {size : Nat} {h : InBase} {rest : List UInt8} (ready : Ready size h.buf h.file rest)
    (ended : h.buf.eof = true) :
    ∃ h', restOfBuffer h = (⟨int32 rest.length,rest⟩,h') ∧ Holds size h' [] := by
  obtain ⟨next,all⟩ := end_ready ready ended
  refine ⟨terminate { h with buf := { h.buf with pos := h.buf.buffer.length } } h.buf.buffer.length,?_,
    terminate_holds next _⟩
  simp only [restOfBuffer,all]

/-- The refill of a buffer of the record's own size. -/
theorem overflow_takes {size : Nat} {b : InBuffer} {file rest : List UInt8} (ready : Ready size b file rest) {len : Nat}
    (unended : b.eof = false) (small : len < 2 ^ 31) (more : b.buffer.length - b.pos < len) :
    ∃ tmp left, fillBlocks ⟨b.buffer.drop b.pos,len,b.buffer.length - b.pos,false⟩ file = (tmp,left) ∧
      tmp.buffer = rest.take len ∧ left = rest.drop len ∧
      Ready size { b with buffer := [], pos := 0, eof := tmp.eof } left (rest.drop len) := by
  have length : (b.buffer.drop b.pos).length < len := by
    rw [List.length_drop]
    exact more
  obtain ⟨n,buffer,left,_,fits,ended,full⟩ := fill_spec (b := ⟨b.buffer.drop b.pos,len,b.buffer.length - b.pos,false⟩) rfl
    (by rw [int32_small small]; exact Int.ofNat_le.mpr (Nat.le_of_lt length)) file
  generalize fillBlocks ⟨b.buffer.drop b.pos,len,b.buffer.length - b.pos,false⟩ file = filled at *
  obtain ⟨tmp,left'⟩ := filled
  simp only at buffer left ended full fits
  have whole : tmp.buffer ++ left' = rest := by
    rw [buffer,left,List.append_assoc,List.take_append_drop]
    exact ready.holds
  rw [← buffer,int32_small small] at fits
  have taken : tmp.buffer = rest.take len ∧ left' = rest.drop len := by
    rw [← whole]
    cases eof : tmp.eof with
    | true =>
      rw [left,ended eof,List.append_nil,List.take_of_length_le (by omega),List.drop_eq_nil_iff.mpr (by omega)]
      exact ⟨rfl,rfl⟩
    | false =>
      have length := (full eof).2
      rw [← buffer,int32_small small] at length
      rw [List.take_left' (by omega),List.drop_left' (by omega)]
      exact ⟨rfl,rfl⟩
  refine ⟨tmp,left',rfl,taken.1,taken.2,⟨Nat.le_refl _,?_,?_,?_,fun _ => ready.unended unended⟩⟩
  · have := ready.fits
    simp only [List.length_nil]
    omega
  · simpa using taken.2
  · intro eof
    rw [left]
    exact ended eof

/-- A read of a whole record takes its bytes, unless the record is longer than
    what one refill reads and yet not longer than the buffer claims to be. -/
theorem readz_takes {size : Nat} {h : InBase} {rest : List UInt8} (holds : Holds size h rest) {len : Nat}
    (small : len < 2 ^ 31) :
    (len ≤ rest.length → (len : Int) ≤ int32 size ∨ size < len →
      ∃ h', acInBaseReadz h len = (⟨len,rest.take len⟩,h') ∧ Holds size h' (rest.drop len)) ∧
    (rest = [] → 0 < len → ∃ h', acInBaseReadz h len = (⟨0,[]⟩,h') ∧ Holds size h' []) ∧
    (int32 size < len → len ≤ size → len ≤ rest.length → (acInBaseReadz h len).1.rlen ≠ len) := by
  have ready := cleanup_ready holds
  have clean := cleanup_clean h
  have whole := congrArg List.length ready.holds
  have inside := ready.inside
  have fits := ready.fits
  rw [List.length_append,List.length_drop] at whole
  simp only [acInBaseReadz]
  split
  case isTrue here =>
    obtain ⟨next,taken⟩ := advance_ready ready len here
    refine ⟨fun _ _ => ?_,fun nothing some => ?_,fun beyond _ _ => ?_⟩
    · rw [taken]
      exact ⟨_,rfl,terminate_holds next _⟩
    · rw [nothing,List.length_nil] at whole
      omega
    · omega
  case isFalse notHere =>
    split
    case isTrue long =>
      split
      case isTrue ended =>
        have nothing := congrArg List.length (ready.ended ended)
        rw [List.length_nil] at nothing
        refine ⟨fun enough _ => by omega,fun empty _ => ?_,fun _ _ enough => by omega⟩
        obtain ⟨h',same,next⟩ := restOfBuffer_takes ready ended
        exact ⟨h',by rw [same,empty]; rfl,next⟩
      case isFalse unended =>
        have unended := Bool.eq_false_iff.mpr unended
        have sizeIs := ready.unended unended
        obtain ⟨tmp,left,filled,buffer,_,next⟩ := overflow_takes ready unended small (by omega)
        rw [filled]
        refine ⟨fun enough _ => ?_,fun nothing some => ?_,fun beyond inside _ => by omega⟩
        · rw [buffer,List.length_take,Nat.min_eq_left enough,int32_small small]
          exact ⟨_,rfl,unpatched_holds next clean⟩
        · rw [nothing,List.drop_nil] at next
          rw [buffer,nothing,List.take_nil]
          exact ⟨_,rfl,unpatched_holds next clean⟩
    case isFalse short =>
      split
      case isTrue ended =>
        have nothing := congrArg List.length (ready.ended ended)
        rw [List.length_nil] at nothing
        refine ⟨fun enough _ => by omega,fun empty _ => ?_,fun _ _ enough => by omega⟩
        obtain ⟨h',same,next⟩ := restOfBuffer_takes ready ended
        exact ⟨h',by rw [same,empty]; rfl,next⟩
      case isFalse unended =>
        have unended := Bool.eq_false_iff.mpr unended
        have sizeIs := ready.unended unended
        obtain ⟨filled,pos,_,_,full⟩ := fill_ready (reset_ready ready) unended rfl
        have fitsAfter := filled.fits
        have all := congrArg List.length filled.holds
        rw [List.length_append,List.length_drop,pos] at all
        refine ⟨fun enough room => ?_,fun nothing some => ?_,fun beyond _ _ => ?_⟩
        · have available : len ≤ (fillBlocks (resetBlock (cleanupLastRead h).buf) (cleanupLastRead h).file).1.buffer.length := by
            cases eof : (fillBlocks (resetBlock (cleanupLastRead h).buf) (cleanupLastRead h).file).1.eof with
            | true =>
              have nothing := congrArg List.length (filled.ended eof)
              rw [List.length_nil] at nothing
              omega
            | false =>
              have := full eof
              omega
          obtain ⟨next,taken⟩ := advance_ready filled len (by omega)
          rw [pos,Nat.zero_add] at next
          rw [pos,List.drop_zero] at taken
          rw [if_neg (Nat.not_lt.mpr available),taken,int32_small small]
          exact ⟨_,rfl,terminate_holds next _⟩
        · rw [nothing,List.length_nil] at all
          have none : (fillBlocks (resetBlock (cleanupLastRead h).buf) (cleanupLastRead h).file).1.buffer.length = 0 := by
            omega
          obtain ⟨next,taken⟩ := advance_ready filled 0 (by omega)
          rw [pos,nothing] at next
          rw [none,if_pos some,List.take_zero]
          exact ⟨_,rfl,terminate_holds next _⟩
        · have bound := int32_lt size
          split
          · rw [int32_small (by omega)]
            dsimp only
            omega
          · omega

/-! ### Delimiters -/

theorem find_lt {delim : Int} {xs : List UInt8} {i : Nat} (found : findDelimiter delim xs = some i) : i < xs.length := by
  induction xs generalizing i with
  | nil => cases found
  | cons c xs ih =>
    simp only [findDelimiter] at found
    split at found
    · obtain ⟨j,later,rfl⟩ := Option.map_eq_some_iff.mp found
      exact Nat.succ_lt_succ (ih later)
    · split at found
      · obtain ⟨j,later,rfl⟩ := Option.map_eq_some_iff.mp found
        exact Nat.succ_lt_succ (ih later)
      · cases found
        exact Nat.succ_pos _

theorem find_append_some {delim : Int} {xs : List UInt8} {i : Nat} (found : findDelimiter delim xs = some i)
    (ys : List UInt8) : findDelimiter delim (xs ++ ys) = some i := by
  induction xs generalizing i with
  | nil => cases found
  | cons c xs ih =>
    simp only [List.cons_append,findDelimiter] at found ⊢
    split at found
    case isTrue quote =>
      obtain ⟨j,later,rfl⟩ := Option.map_eq_some_iff.mp found
      rw [if_pos quote,ih later,Option.map_some]
    case isFalse quote =>
      rw [if_neg quote]
      split at found
      case isTrue differs =>
        obtain ⟨j,later,rfl⟩ := Option.map_eq_some_iff.mp found
        rw [if_pos differs,ih later,Option.map_some]
      case isFalse same => rw [if_neg same,found]

/-- The search goes on behind what was searched. -/
theorem find_append_none {delim : Int} {xs : List UInt8} (unfound : findDelimiter delim xs = none) (ys : List UInt8) :
    findDelimiter delim (xs ++ ys) = (findDelimiter delim ys).map (xs.length + ·) := by
  induction xs with
  | nil => simp
  | cons c xs ih =>
    simp only [List.cons_append,findDelimiter] at unfound ⊢
    have shift : ∀ later : Option Nat, (later.map (xs.length + ·)).map (· + 1) = later.map ((c :: xs).length + ·) := by
      intro later
      rw [Option.map_map]
      congr 1
      funext i
      simp only [Function.comp,List.length_cons]
      omega
    split at unfound
    case isTrue quote => rw [if_pos quote,ih (Option.map_eq_none_iff.mp unfound),shift]
    case isFalse quote =>
      rw [if_neg quote]
      split at unfound
      case isTrue differs => rw [if_pos differs,ih (Option.map_eq_none_iff.mp unfound),shift]
      case isFalse => cases unfound

theorem found_takes {size : Nat} {h : InBase} {rest : List UInt8} (ready : Ready size h.buf h.file rest) {i : Nat}
    (inside : h.buf.pos + i < h.buf.buffer.length) :
    ∃ h', foundDelimiter h i = some (some ⟨int32 i,rest.take i⟩,h') ∧ Holds size h' (rest.drop (i + 1)) := by
  have fits := ready.fits
  have bound := int32_lt size
  have small : int32 i = i := int32_small (by omega)
  have pos : ((h.buf.pos : Int) + (int32 i + 1)).toNat = h.buf.pos + (i + 1) := by
    rw [small]
    omega
  obtain ⟨next,_⟩ := advance_ready ready (i + 1) inside
  obtain ⟨_,taken⟩ := advance_ready ready i (Nat.le_of_lt inside)
  simp only [foundDelimiter,pos,taken]
  rw [if_neg (by omega)]
  exact ⟨_,rfl,terminate_holds next _⟩

/-- What is left to be read once the whole buffer went to `bh`. -/
theorem emptied_ready {size : Nat} {b : InBuffer} {file rest : List UInt8} (ready : Ready size b file rest) :
    Ready size { b with buffer := [], pos := 0 } file file where
  inside := Nat.le_refl _
  fits := by
    have := ready.fits
    simp only [List.length_nil]
    omega
  holds := rfl
  ended := ready.ended
  unended := ready.unended

/-- The gathering loop takes what is up to the delimiter, over any number of
    refills. -/
theorem gather_takes {size : Nat} (positive : 0 < int32 size) (delim : Int) (required : Bool) {h : InBase}
    (ready : Ready size h.buf h.file (h.buf.buffer ++ h.file)) (clean : h.zerop = none) (unended : h.buf.eof = false)
    (bh : List UInt8) :
    match findDelimiter delim h.file with
    | some i => ∃ h', gather delim required h bh =
          some (some ⟨int32 (bh ++ (h.buf.buffer ++ h.file.take i)).length,bh ++ (h.buf.buffer ++ h.file.take i)⟩,h') ∧
        Holds size h' (h.file.drop (i + 1))
    | none => required = true → ∃ h', gather delim required h bh = some (none,h') ∧ Holds size h' [] := by
  induction unread : h.file.length using Nat.strongRecOn generalizing h bh with
  | ind unread ih =>
    obtain ⟨filled,pos,_,_,full⟩ := fill_ready (emptied_ready ready) unended rfl
    have whole := filled.holds
    have lengths := congrArg List.length whole
    rw [pos,List.drop_zero] at whole
    rw [gather]
    generalize fillBlocks { h.buf with buffer := [], pos := 0 } h.file = f at *
    obtain ⟨b,left⟩ := f
    simp only at *
    rw [pos,List.drop_zero,List.length_append] at lengths
    cases here : findDelimiter delim b.buffer with
    | some i =>
      have inside := find_lt here
      rw [← whole,find_append_some here]
      obtain ⟨next,_⟩ := advance_ready filled (i + 1) (by omega)
      rw [pos,Nat.zero_add] at next
      simp only [List.take_append_of_le_length (Nat.le_of_lt inside),List.append_assoc]
      rw [if_neg (by omega)]
      rw [← whole] at next
      exact ⟨_,rfl,unpatched_holds next clean⟩
    | none =>
      simp only
      cases eof : b.eof with
      | true =>
        have nothing := filled.ended eof
        rw [nothing,List.append_nil] at whole
        rw [← whole,here]
        rintro rfl
        have next := (end_ready filled eof).1
        rw [eof] at next
        exact ⟨_,rfl,unpatched_holds next clean⟩
      | false =>
        have length := full eof
        have fewer : left.length < h.file.length := by omega
        simp only [fewer,if_true,Bool.false_eq_true,if_false]
        have again := ih left.length (by omega) (h := { h with buf := b, file := left })
          (by rw [whole]; exact filled) clean eof (bh ++ h.buf.buffer) rfl
        rw [← whole,find_append_none here]
        simp only at again
        cases later : findDelimiter delim left with
        | none =>
          rw [later] at again
          exact again
        | some i =>
          rw [later] at again
          simp only [Option.map_some]
          rw [List.take_length_add_append,Nat.add_assoc,List.drop_length_add_append]
          simpa only [List.append_assoc] using again

/-- The gathering loop, entered when the whole buffer was searched. -/
theorem gather_rest {size : Nat} (positive : 0 < int32 size) {delim : Int} {h : InBase} {rest : List UInt8}
    (ready : Ready size h.buf h.file rest) (start : h.buf.pos = 0) (clean : h.zerop = none) (unended : h.buf.eof = false)
    (unfound : findDelimiter delim h.buf.buffer = none) :
    match findDelimiter delim rest with
    | some i => ∃ h', gather delim true h [] = some (some ⟨int32 (rest.take i).length,rest.take i⟩,h') ∧
        Holds size h' (rest.drop (i + 1))
    | none => ∃ h', gather delim true h [] = some (none,h') ∧ Holds size h' [] := by
  have whole := ready.holds
  rw [start,List.drop_zero] at whole
  have gathered := gather_takes positive delim true (whole ▸ ready) clean unended []
  rw [← whole,find_append_none unfound]
  cases later : findDelimiter delim h.file with
  | none =>
    rw [later] at gathered
    exact gathered rfl
  | some i =>
    rw [later] at gathered
    simp only [Option.map_some]
    rw [List.take_length_add_append,Nat.add_assoc,List.drop_length_add_append]
    exact gathered

theorem endOfBlock_required (h : InBase) (p : List UInt8) : endOfBlock h p true = (none,h) := rfl

/-- A read up to a delimiter takes what is before it, or finds that there is none. -/
theorem delimited_takes {size : Nat} (positive : 0 < int32 size) (delim : Int) {h : InBase} {rest : List UInt8}
    (holds : Holds size h rest) :
    match findDelimiter delim rest with
    | some i => ∃ h', acInBaseReadDelimited h delim true = some (some ⟨int32 (rest.take i).length,rest.take i⟩,h') ∧
        Holds size h' (rest.drop (i + 1))
    | none => ∃ h', acInBaseReadDelimited h delim true = some (none,h') ∧ Holds size h' [] := by
  have ready := cleanup_ready holds
  have clean := cleanup_clean h
  have inside := ready.inside
  have whole := ready.holds
  simp only [acInBaseReadDelimited,endOfBlock_required]
  generalize cleanupLastRead h = h at *
  cases here : findDelimiter delim (h.buf.buffer.drop h.buf.pos) with
  | some i =>
    have before := find_lt here
    obtain ⟨h',same,next⟩ := found_takes ready (i := i) (by rw [List.length_drop] at before; omega)
    have length : (rest.take i).length = i := by
      rw [List.length_take,Nat.min_eq_left]
      rw [← whole,List.length_append]
      omega
    rw [← whole,find_append_some here,whole]
    exact ⟨h',by rw [length]; exact same,next⟩
  | none =>
    cases eof : h.buf.eof with
    | true =>
      have nothing := ready.ended eof
      have next := (end_ready ready eof).1
      rw [← whole,find_append_none here,nothing]
      rw [eof,nothing] at next
      simp only [findDelimiter,Option.map_none,if_true]
      exact ⟨_,rfl,unpatched_holds next clean⟩
    | false =>
      simp only [Bool.false_eq_true,if_false]
      by_cases start : h.buf.pos > 0
      · rw [if_pos start]
        obtain ⟨filled,pos,kept,_,_⟩ := fill_ready (reset_ready ready) eof rfl
        have all := filled.holds
        have size := filled.fits
        rw [pos,List.drop_zero] at all
        change (fillBlocks (resetBlock h.buf) h.file).1.buffer.take (h.buf.buffer.drop h.buf.pos).length =
          h.buf.buffer.drop h.buf.pos at kept
        generalize fillBlocks (resetBlock h.buf) h.file = f at *
        obtain ⟨b,left⟩ := f
        simp only at *
        have split := List.take_append_drop (h.buf.buffer.drop h.buf.pos).length b.buffer
        rw [kept] at split
        cases later : findDelimiter delim (b.buffer.drop (h.buf.buffer.drop h.buf.pos).length) with
        | some i =>
          have found : findDelimiter delim b.buffer = some ((h.buf.buffer.drop h.buf.pos).length + i) := by
            rw [← split,find_append_none here,later,Option.map_some]
          have before := find_lt found
          obtain ⟨h',same,next⟩ := found_takes (h := { h with buf := b, file := left }) filled
            (i := (h.buf.buffer.drop h.buf.pos).length + i) (by simp only; omega)
          have length : (rest.take ((h.buf.buffer.drop h.buf.pos).length + i)).length =
              (h.buf.buffer.drop h.buf.pos).length + i := by
            rw [List.length_take,Nat.min_eq_left]
            rw [← all,List.length_append]
            omega
          rw [← all,find_append_some found,all]
          exact ⟨h',by rw [length]; exact same,next⟩
        | none =>
          have unfound : findDelimiter delim b.buffer = none := by
            rw [← split,find_append_none here,later,Option.map_none]
          cases ended : b.eof with
          | true =>
            have nothing := filled.ended ended
            have next := (end_ready filled ended).1
            rw [← all,find_append_none unfound,nothing]
            rw [ended,nothing] at next
            simp only [findDelimiter,Option.map_none,if_true]
            exact ⟨_,rfl,unpatched_holds next clean⟩
          | false =>
            simp only [Bool.false_eq_true,if_false]
            exact gather_rest positive (h := { h with buf := b, file := left }) filled pos clean ended unfound
      · have start : h.buf.pos = 0 := by omega
        rw [start,List.drop_zero] at here
        simp only [start,gt_iff_lt,Nat.lt_irrefl,if_false]
        exact gather_rest positive ready start clean eof here

/-! ### Opening a file -/

/-- The size that is allocated. -/
def allocated (bufferSize : Nat) : Nat := if bufferSize < 256 then 256 else bufferSize

theorem init_holds {bufferSize : Nat} (room : 0 ≤ int32 (allocated bufferSize)) (file : List UInt8) :
    Holds (allocated bufferSize) (acInBaseInit file bufferSize) file := by
  have empty : Ready (allocated bufferSize) ⟨[],allocated bufferSize,0,false⟩ file file :=
    ⟨Nat.le_refl _,room,rfl,nofun,fun _ => rfl⟩
  exact unpatched_holds (h := acInBaseInit file bufferSize) (fill_ready empty rfl rfl).1 rfl

/-- A larger buffer goes on with what is to be read. -/
theorem reinit_holds {size : Nat} {h : InBase} {rest : List UInt8} (holds : Holds size h rest) {bufferSize : Nat}
    (larger : int32 size ≤ int32 bufferSize) : Holds bufferSize (acInBaseReinit h bufferSize) rest := by
  have buf : (restore (acInBaseReinit h bufferSize)).buf = { (restore h).buf with size := bufferSize } := by
    unfold restore acInBaseReinit
    cases h.zerop <;> rfl
  have file : (restore (acInBaseReinit h bufferSize)).file = (restore h).file := by
    unfold restore acInBaseReinit
    cases h.zerop <;> rfl
  unfold Holds
  rw [buf,file]
  exact ⟨holds.inside,Int.le_trans holds.fits larger,holds.holds,holds.ended,fun _ => rfl⟩

/-- A buffer whose size is no positive `int`: nothing is ever read into it. -/
def Stuck (size : Nat) (h : InBase) : Prop := (restore h).buf = ⟨[],size,0,false⟩

theorem stuck_fill {size : Nat} (room : int32 size ≤ 0) (file : List UInt8) :
    fillBlocks ⟨[],size,0,false⟩ file = (⟨[],size,0,false⟩,file) := by
  simp only [fillBlocks,Bool.false_eq_true,if_false,List.length_nil,Nat.sub_zero,List.nil_append]
  split
  · rfl
  case isFalse none =>
    have zero : int32 size = 0 := by omega
    rw [zero]
    simp only [Int.toNat_zero,List.take_zero,List.drop_zero]
    rw [if_neg (by omega)]

theorem init_stuck {bufferSize : Nat} (room : int32 (allocated bufferSize) ≤ 0) (file : List UInt8) :
    Stuck (allocated bufferSize) (acInBaseInit file bufferSize) :=
  congrArg Prod.fst (stuck_fill room file)

theorem stuck_read {size : Nat} (room : int32 size ≤ 0) {h : InBase} (stuck : Stuck size h) {len : Nat} (some : 0 < len) :
    acInBaseRead h len = none := by
  simp only [acInBaseRead]
  rw [Stuck] at stuck
  simp only [stuck,resetBlock,List.drop_nil,stuck_fill room,List.length_nil]
  rw [if_neg (by omega),if_neg (by decide),if_pos (by omega),if_neg (by decide)]

theorem stuck_delimited {size : Nat} (room : int32 size ≤ 0) {h : InBase} (stuck : Stuck size h) (delim : Int)
    (required : Bool) : acInBaseReadDelimited h delim required = none := by
  have buf : (cleanupLastRead h).buf = ⟨[],size,0,false⟩ := stuck
  simp only [acInBaseReadDelimited,buf,List.drop_nil,findDelimiter,Bool.false_eq_true,if_false,gt_iff_lt,Nat.lt_irrefl]
  rw [gather]
  simp only [buf,stuck_fill room,findDelimiter,Bool.false_eq_true,if_false,Nat.lt_irrefl]

theorem stuck_readz {size : Nat} (room : int32 size ≤ 0) {h : InBase} (stuck : Stuck size h) {len : Nat} (some : 0 < len)
    (inside : len ≤ size) : ∃ h', acInBaseReadz h len = (⟨0,[]⟩,h') ∧ Stuck size h' := by
  have buf : (cleanupLastRead h).buf = ⟨[],size,0,false⟩ := stuck
  simp only [acInBaseReadz,buf,resetBlock,List.drop_nil,stuck_fill room,List.length_nil]
  rw [if_neg (by omega),if_neg (by omega),if_neg (by decide),if_pos some]
  refine ⟨_,rfl,?_⟩
  rw [Stuck,(restore_terminate _ _).1]

end AnotherC.InBase
