import AnotherC.Io.InBase
import AnotherC.Io.Lz4Out
import AnotherC.Lib.Stream

/-!
# Reading LZ4 frames: `ac_in`

The input checks the header, and then reads block by block what the frame holds.
`frame_round_trip_iff` states exactly when a frame that was written is read back.
-/
namespace AnotherC.Lz4
open AnotherC.Lib.Bytes
open AnotherC.Lib.Stream (Drains)
open AnotherC.InBase (InBase InBuffer acInBaseInit acInBaseReinit acInBaseRead Holds allocated)
set_option linter.unusedVariables false

/-- `ac_in_options_t`, what an LZ4 input uses of it. -/
structure AcInOptions where
  bufferSize : Nat
  compressedBufferSize : Nat
  format : Int
  fullRecordRequired : Bool
deriving Repr, DecidableEq

/-- `ac_in_t`. Of `buf` the model keeps the bytes in use, the size and the position,
    and `bh` is the buffer of a record that does not fit. -/
structure In (κ χ : Type) where
  base : InBase
  lz4 : AcLz4 κ χ
  blockSize : Nat
  blockHeaderSize : Nat
  buf : InBuffer
  bh : Option (List UInt8)
  zerop : Option Nat
  zero : UInt8
  format : Int
  fullRecordRequired : Bool

/-- The size of the buffer of the compressed bytes. -/
def AcInOptions.baseSize (options : AcInOptions) : Nat :=
  if options.compressedBufferSize = 0 then options.bufferSize else options.compressedBufferSize

section
variable {κ χ : Type} (lib : Library κ χ)

/-- `_ac_in_init` of an LZ4 file, up to the first `fill_blocks`. Without a header
    the handle is that of `ac_in_empty`, the inner `none`; the outer one is `abort`. -/
def openLz4 (file : List UInt8) (options : AcInOptions) (memory : XxhState χ) : Option (Option (In κ χ)) :=
  match acInBaseRead (acInBaseInit file options.baseSize) 7 with
  | none => none
  | some (none,_) => some none
  | some (some headerp,base) =>
    match acLz4InitDecompress lib headerp memory with
    | none => some none
    | some lz4 =>
      let least := lz4.acLz4CompressedSize + lz4.blockHeaderSize + 4
      let base := if options.baseSize % 2 ^ 32 < least then acInBaseReinit base least else base
      let bufferSize := options.bufferSize % 2 ^ 32
      let bufferSize := if bufferSize < lz4.blockSize * 2 + 100 then lz4.blockSize * 2 + 100 else bufferSize
      some (some
        { base := base
          lz4 := lz4
          blockSize := lz4.blockSize
          blockHeaderSize := lz4.blockHeaderSize
          buf := ⟨[],bufferSize,0,false⟩
          bh := none
          zerop := none
          zero := 0
          format := options.format
          fullRecordRequired := options.fullRecordRequired })

/-- `read_lz4_block`: the bytes of a block, or none where it answers no positive
    number; the outer `none` is `abort`, or bytes outside of a buffer. -/
def readLz4Block (h : In κ χ) : Option (Option (List UInt8) × In κ χ) :=
  match acInBaseRead h.base 4 with
  | none => none
  | some (none,base) => some (none,{ h with base := base })
  | some (some s,base) =>
    let compressed := decide (number s &&& 0x80000000 = 0)
    let length := if compressed then number s else number s - 0x80000000
    if length = 0 then some (none,{ h with base := base })
    -- the length is handed on as an `int32_t`
    else if length + h.blockHeaderSize ≥ 2 ^ 31 then none
    else
      match acInBaseRead base (length + h.blockHeaderSize) with
      | none => none
      | some (none,base) => some (none,{ h with base := base })
      | some (some p,base) =>
        match acLz4Decompress lib h.lz4 p h.blockSize compressed with
        | none => none
        | some (none,lz4) => some (none,{ h with base := base, lz4 := lz4 })
        | some (some r,lz4) => some (if r = [] then none else some r,{ h with base := base, lz4 := lz4 })

end

section
variable {κ χ : Type} {lib : Library κ χ}

theorem and_high {n : Nat} (small : n < 2 ^ 31) :
    n &&& 0x80000000 = 0 ∧ (n + 2 ^ 31) &&& 0x80000000 ≠ 0 := by
  have bit := Nat.and_two_pow n 31
  have high := Nat.and_two_pow (n + 2 ^ 31) 31
  have off : n.testBit 31 = false := Nat.testBit_lt_two_pow small
  rw [Nat.add_comm,Nat.testBit_two_pow_add_eq,off] at high
  rw [off] at bit
  refine ⟨by simpa using bit,?_⟩
  rw [Nat.add_comm]
  intro none
  rw [show (0x80000000 : Nat) = 2 ^ 31 by rfl,high] at none
  cases none

/-- An input of a frame with these options, before the bytes `rest`. -/
structure Reads (options : AcOutOptions) (size : Nat) (h : In κ χ) (rest : List UInt8) : Prop where
  holds : Holds size h.base rest
  room : (options.size.bytes + 4 : Nat) ≤ int32 size
  checksum : h.lz4.blockChecksum = options.blockChecksum
  hashes : Hashes h.lz4
  blockSize : h.blockSize = options.size.bytes
  headerSize : h.blockHeaderSize = if options.blockChecksum then 4 else 0

/-- Reading a block takes its bytes and gives what it stands for. -/
theorem readLz4Block_block {options : AcOutOptions} {size : Nat} {h : In κ χ} {b : Block}
    (sound : b.Sound lib options.size.bytes) {rest : List UInt8}
    (reads : Reads options size h (b.encode lib options.blockChecksum ++ rest)) :
    ∃ h', readLz4Block lib h = some (some b.content,h') ∧ Reads options size h' rest := by
  have small := (blockSize_bounds options.size).2
  have room := reads.room
  have headerSize := reads.headerSize
  obtain ⟨positive,short⟩ := sound.data_bounds
  have fits := sound.fits
  have holds := reads.holds
  rw [Block.encode,List.append_assoc] at holds
  obtain ⟨base,read,next⟩ := (AnotherC.InBase.read_takes holds 4).1 (by simp) (by omega)
  rw [List.take_left' (bytes_length _ _)] at read
  rw [List.drop_left' (bytes_length _ _)] at next
  have stored : (b.data ++ if options.blockChecksum then bytes 4 (lib.xxh32 b.data).toNat else []).length =
      b.data.length + h.blockHeaderSize := by
    rw [List.length_append,headerSize]
    cases options.blockChecksum <;> simp
  have headerSmall : h.blockHeaderSize ≤ 4 := by
    rw [headerSize]
    split <;> omega
  obtain ⟨base',read',next'⟩ := (AnotherC.InBase.read_takes next (b.data.length + h.blockHeaderSize)).1
    (by rw [List.length_append,stored]; omega) (by omega)
  rw [← stored,List.take_left' rfl,stored] at read'
  rw [← stored,List.drop_left' rfl] at next'
  have isSize : number (bytes 4 (if b.raw then b.data.length + 2 ^ 31 else b.data.length)) =
      if b.raw then b.data.length + 2 ^ 31 else b.data.length := by
    rw [number_bytes]
    apply Nat.mod_eq_of_lt
    split <;> omega
  obtain ⟨low,high⟩ := and_high (n := b.data.length) (by omega)
  have marked : decide (number (bytes 4 (if b.raw then b.data.length + 2 ^ 31 else b.data.length)) &&& 0x80000000 = 0) =
      !b.raw := by
    rw [isSize]
    cases b.raw
    · simpa using low
    · simpa using high
  obtain ⟨xxh,decompressed,still⟩ := decompress_sound lib reads.hashes sound
  rw [← reads.checksum] at read'
  have length : (if (!b.raw) = true then number (bytes 4 (if b.raw then b.data.length + 2 ^ 31 else b.data.length))
      else number (bytes 4 (if b.raw then b.data.length + 2 ^ 31 else b.data.length)) - 0x80000000) = b.data.length := by
    rw [isSize]
    cases b.raw <;> simp
  refine ⟨{ h with base := base', lz4 := { h.lz4 with xxh := xxh } },?_,next',room,reads.checksum,still,reads.blockSize,
    headerSize⟩
  simp only [readLz4Block,read,marked,length,read',reads.blockSize,decompressed,sound.filled,if_false]
  rw [if_neg (by omega),if_neg (by omega)]

variable (lib) in
/-- The end mark is read as the end. -/
theorem readLz4Block_end {options : AcOutOptions} {size : Nat} {h : In κ χ} {rest : List UInt8}
    (reads : Reads options size h (bytes 4 0 ++ rest)) : ∃ h', readLz4Block lib h = some (none,h') := by
  have room := reads.room
  obtain ⟨base,read,_⟩ := (AnotherC.InBase.read_takes reads.holds 4).1 (by simp) (by omega)
  rw [List.take_left' (bytes_length _ _)] at read
  have zero : number (bytes 4 0) = 0 := by decide
  exact ⟨{ h with base := base },by simp only [readLz4Block,read,zero]; rfl⟩

theorem blocks_drain {options : AcOutOptions} {size : Nat} {blocks : List Block}
    (sound : ∀ b ∈ blocks, b.Sound lib options.size.bytes) {h : In κ χ} {rest : List UInt8}
    (reads : Reads options size h (blocks.flatMap (Block.encode lib options.blockChecksum) ++ (bytes 4 0 ++ rest))) :
    Drains (readLz4Block lib) h (blocks.map Block.content) := by
  induction blocks generalizing h with
  | nil =>
    obtain ⟨h',moves⟩ := readLz4Block_end lib reads
    exact .ended moves
  | cons b blocks ih =>
    rw [List.flatMap_cons,List.append_assoc] at reads
    obtain ⟨h',moves,next⟩ := readLz4Block_block (sound b List.mem_cons_self) reads
    exact .element moves (ih (fun c member => sound c (List.mem_cons_of_mem _ member)) next)

variable (lib) in
/-- The input of a frame is opened before its blocks, where the size of the buffer
    is an `int` that has room for the header. -/
theorem openLz4_reads {options : AcOutOptions} {body : List UInt8} (inOptions : AcInOptions) (memory : XxhState χ)
    (room : 7 ≤ int32 (allocated inOptions.baseSize)) :
    ∃ size h, openLz4 lib (headerTable options.size options.blockChecksum options.contentChecksum ++ body) inOptions memory =
        some (some h) ∧ Reads options size h body := by
  have length := headerTable_length options.size options.blockChecksum options.contentChecksum
  obtain ⟨base,read,next⟩ := (AnotherC.InBase.read_takes (AnotherC.InBase.init_holds (by omega)
    (headerTable options.size options.blockChecksum options.contentChecksum ++ body)) 7).1
    (by rw [List.length_append]; omega) room
  rw [List.take_left' length] at read
  rw [List.drop_left' length] at next
  have bounds := blockSize_bounds options.size
  have bound := compressBound_small bounds.2
  have divided : options.size.bytes / 255 ≤ 16449 := Nat.le_trans (Nat.div_le_div_right bounds.2) (by decide)
  have decompressor : ∃ l, acLz4InitDecompress lib (headerTable options.size options.blockChecksum options.contentChecksum)
        memory = some l ∧ l.blockChecksum = options.blockChecksum ∧ Hashes l ∧ l.blockSize = options.size.bytes ∧
      l.blockHeaderSize = (if options.blockChecksum then 4 else 0) ∧
      l.compressedSize = lz4CompressBound options.size.bytes := by
    rw [acLz4InitDecompress,checkHeader_table,Option.map_some]
    refine ⟨_,rfl,rfl,?_,rfl,rfl,rfl⟩
    unfold Hashes XxhState.Ready
    cases options.contentChecksum <;> simp
  obtain ⟨l,initialised,checksum,hashes,blockSize,headerSize,compressedSize⟩ := decompressor
  have headerSmall : l.blockHeaderSize ≤ 4 := by
    rw [headerSize]
    split <;> omega
  have least : l.acLz4CompressedSize + l.blockHeaderSize + 4 < 2 ^ 31 ∧
      options.size.bytes + 4 ≤ l.acLz4CompressedSize + l.blockHeaderSize + 4 := by
    rw [AcLz4.acLz4CompressedSize,compressedSize,bound]
    omega
  have low : int32 (allocated inOptions.baseSize) ≤ inOptions.baseSize % 2 ^ 32 ∨ allocated inOptions.baseSize = 256 := by
    rw [allocated]
    split
    · exact .inr rfl
    · left
      rw [int32]
      split <;> omega
  simp only [openLz4,read,initialised]
  by_cases small : inOptions.baseSize % 2 ^ 32 < l.acLz4CompressedSize + l.blockHeaderSize + 4
  · simp only [if_pos small]
    have larger : int32 (allocated inOptions.baseSize) ≤ int32 (l.acLz4CompressedSize + l.blockHeaderSize + 4) := by
      rw [int32_small least.1]
      rcases low with low | least256
      · omega
      · rw [least256,int32_small (by omega)]
        omega
    refine ⟨_,_,rfl,AnotherC.InBase.reinit_holds next larger,?_,checksum,hashes,blockSize,headerSize⟩
    rw [int32_small least.1]
    omega
  · simp only [if_neg small]
    refine ⟨_,_,rfl,next,?_,checksum,hashes,blockSize,headerSize⟩
    have same : allocated inOptions.baseSize = inOptions.baseSize := by
      rw [allocated,if_neg]
      have := Nat.mod_le inOptions.baseSize (2 ^ 32)
      omega
    rw [same] at room ⊢
    simp only [int32] at room ⊢
    split at room
    case isTrue below =>
      rw [if_pos below]
      omega
    case isFalse => omega

/-- Without that room reading the header aborts. -/
theorem openLz4_fault {file : List UInt8} (long : 7 ≤ file.length) (inOptions : AcInOptions) (memory : XxhState χ)
    (short : int32 (allocated inOptions.baseSize) < 7) : openLz4 lib file inOptions memory = none := by
  have aborts : acInBaseRead (acInBaseInit file inOptions.baseSize) 7 = none := by
    rcases Int.lt_or_le 0 (int32 (allocated inOptions.baseSize)) with positive | stuck
    · have holds := AnotherC.InBase.init_holds (Int.le_of_lt positive) file
      exact (AnotherC.InBase.read_takes holds 7).2.2 long short
    · exact AnotherC.InBase.stuck_read stuck (AnotherC.InBase.init_stuck stuck file) (by decide)
  rw [openLz4,aborts]

theorem Frame.long {options : AcOutOptions} {blocks : List Block} {file : List UInt8}
    (frame : Frame lib options blocks file) : 7 ≤ file.length := by
  obtain ⟨finish,_,rfl⟩ := frame.holds
  simp only [List.length_append,headerTable_length]
  omega

theorem Frame.drains {options : AcOutOptions} {blocks : List Block} {file : List UInt8}
    (frame : Frame lib options blocks file) (inOptions : AcInOptions) (memory : XxhState χ)
    (room : 7 ≤ int32 (allocated inOptions.baseSize)) :
    ∃ h, openLz4 lib file inOptions memory = some (some h) ∧
      Drains (readLz4Block lib) h (blocks.map Block.content) := by
  obtain ⟨finish,⟨checksum,rfl,_⟩,rfl⟩ := frame.holds
  rw [List.append_assoc]
  obtain ⟨size,h,opened,reads⟩ := openLz4_reads lib inOptions memory room
  exact ⟨h,opened,blocks_drain frame.sound reads⟩

/-- What is written is a frame of sound blocks that stand for all chunks, and
    reading its blocks up to the end mark gives them back: exactly where the
    content checksum is off, or goes on from a hash state that allows it, or nothing
    is written, and where the reader's buffer has room for the header. -/
theorem frame_round_trip_iff (lawful : Lawful lib) (options : AcOutOptions) (memory : XxhState χ) (ctx : κ)
    (chunks : List (List UInt8)) (inOptions : AcInOptions) (inMemory : XxhState χ) :
    (∃ file blocks h, writeFile lib options memory ctx chunks = some file ∧ Frame lib options blocks file ∧
        blocks.flatMap Block.content = chunks.flatten ∧ openLz4 lib file inOptions inMemory = some (some h) ∧
        Drains (readLz4Block lib) h (blocks.map Block.content)) ↔
      (options.contentChecksum = false ∨ memory.Ready ∨ chunks.flatten = []) ∧
        7 ≤ int32 (allocated inOptions.baseSize) := by
  constructor
  · rintro ⟨file,blocks,h,wrote,frame,_,opened,_⟩
    constructor
    · by_contra unready
      obtain ⟨on,notReady,filled⟩ : options.contentChecksum ≠ false ∧ ¬ memory.Ready ∧ chunks.flatten ≠ [] := by
        simpa only [not_or] using unready
      rw [writeFile_fault options (not_or.mpr ⟨on,notReady⟩) ctx filled] at wrote
      cases wrote
    · by_contra short
      rw [openLz4_fault frame.long inOptions inMemory (Int.not_le.mp short)] at opened
      cases opened
  · rintro ⟨ready,room⟩
    have written : ∃ file blocks, writeFile lib options memory ctx chunks = some file ∧ Frame lib options blocks file ∧
        blocks.flatMap Block.content = chunks.flatten := by
      rcases ready with off | ready | empty
      · exact writeFile_frame lawful options (.inl off) ctx chunks
      · exact writeFile_frame lawful options (.inr ready) ctx chunks
      · obtain ⟨file,wrote,frame⟩ := writeFile_empty lib options memory ctx empty
        exact ⟨file,[],wrote,frame,by rw [empty]; rfl⟩
    obtain ⟨file,blocks,wrote,frame,content⟩ := written
    obtain ⟨h,opened,drains⟩ := frame.drains inOptions inMemory room
    exact ⟨file,blocks,h,wrote,frame,content,opened,drains⟩

end

/-! ### A compressor that finds no matches -/

/-- A block of one sequence that is all literals. -/
def literals (src : List UInt8) : List UInt8 :=
  if src.length < 15 then UInt8.ofNat (src.length * 16) :: src
  else 0xF0 :: (List.replicate ((src.length - 15) / 255) 255 ++ UInt8.ofNat ((src.length - 15) % 255) :: src)

/-- Takes such a block apart. -/
def unliterals (block : List UInt8) (size : Nat) : Option (List UInt8) :=
  let src := if (block.headD 0).toNat / 16 < 15 then block.tail else (block.tail.dropWhile (· = 255)).tail
  if src.length ≤ size then some src else none

theorem unliterals_literals (src : List UInt8) {size : Nat} (fits : src.length ≤ size) :
    unliterals (literals src) size = some src := by
  by_cases few : src.length < 15
  · have token : (UInt8.ofNat (src.length * 16)).toNat / 16 < 15 := by
      rw [UInt8.toNat_ofNat',Nat.mod_eq_of_lt (by omega)]
      omega
    rw [literals,if_pos few,unliterals,List.headD_cons,if_pos token,List.tail_cons,if_pos fits]
  · have token : ¬ (0xF0 : UInt8).toNat / 16 < 15 := by decide
    have last : UInt8.ofNat ((src.length - 15) % 255) ≠ 255 := by
      intro same
      have value := congrArg UInt8.toNat same
      have below := Nat.mod_lt (src.length - 15) (show 255 > 0 by decide)
      rw [UInt8.toNat_ofNat',Nat.mod_eq_of_lt (by omega)] at value
      simp only [UInt8.reduceToNat] at value
      omega
    have skipped : (List.replicate ((src.length - 15) / 255) (255 : UInt8) ++
        UInt8.ofNat ((src.length - 15) % 255) :: src).dropWhile (· = 255) =
          UInt8.ofNat ((src.length - 15) % 255) :: src := by
      rw [List.dropWhile_append_of_pos (by simp [List.mem_replicate]),List.dropWhile_cons_of_neg (by simpa using last)]
    rw [literals,if_neg few,unliterals,List.headD_cons,if_neg token,List.tail_cons,skipped,List.tail_cons,if_pos fits]

/-- The library with this compressor and a hash that counts. -/
def literalLibrary : Library Unit Unit where
  compressFast := fun ctx src _ _ => (literals src,ctx)
  compressHC := fun ctx src _ _ => (literals src,ctx)
  decompressSafe := unliterals
  xxh32 := fun data => UInt32.ofNat data.length
  reset := ()
  absorb := fun words _ _ => words
  digest := fun _ memsize => UInt32.ofNat memsize

theorem literals_inverts : Inverts literalLibrary fun (ctx : Unit) src _ _ => (literals src,ctx) := by
  intro ctx src destLen level filled small room
  refine ⟨?positive,?bounded,fun size fits => unliterals_literals src fits⟩
  case positive =>
    dsimp only [literals]
    split <;> exact Nat.succ_pos _
  case bounded =>
    rw [lz4CompressBound,if_neg (by omega)]
    dsimp only [literals]
    split
    · rw [List.length_cons]
      omega
    · have below := Nat.div_le_div_right (c := 255) (Nat.sub_le src.length 15)
      rw [List.length_cons,List.length_append,List.length_replicate,List.length_cons]
      omega

theorem literalLibrary_lawful : Lawful literalLibrary := ⟨literals_inverts,literals_inverts⟩

def frameOptions (contentChecksum : Bool) : AcOutOptions where
  bufferSize := 0
  level := 1
  size := .s64kb
  blockChecksum := true
  contentChecksum := contentChecksum

def frameInOptions (bufferSize : Nat) : AcInOptions where
  bufferSize := bufferSize
  compressedBufferSize := 0
  format := 0
  fullRecordRequired := true

theorem frame_round_trip_iff_hello :
    ∃ file blocks h, writeFile literalLibrary (frameOptions true) ⟨3,()⟩ () [[104,101],[],[108,108,111]] = some file ∧
      Frame literalLibrary (frameOptions true) blocks file ∧
      blocks.flatMap Block.content = [[104,101],[],[108,108,111]].flatten ∧
      openLz4 literalLibrary file (frameInOptions 300) ⟨9,()⟩ = some (some h) ∧
      Drains (readLz4Block literalLibrary) h (blocks.map Block.content) :=
  (frame_round_trip_iff literalLibrary_lawful (frameOptions true) ⟨3,()⟩ () [[104,101],[],[108,108,111]]
    (frameInOptions 300) ⟨9,()⟩).mpr ⟨.inr (.inl (by unfold XxhState.Ready; decide)),by decide⟩

/-- With a content checksum the hash goes on from whatever the memory held, and
    writes outside of its state; a buffer of 2^31 bytes is not read at all. -/
theorem frame_fails :
    (writeFile literalLibrary (frameOptions true) ⟨17,()⟩ () [[1]] = none) ∧
    ∃ file, writeFile literalLibrary (frameOptions false) ⟨0,()⟩ () [[1]] = some file ∧
      openLz4 literalLibrary file (frameInOptions (2 ^ 31)) ⟨0,()⟩ = none := by
  constructor
  · exact writeFile_fault (frameOptions true) (by simp [frameOptions,XxhState.Ready]) () (by simp)
  · obtain ⟨file,blocks,wrote,frame,_⟩ :=
      writeFile_frame literalLibrary_lawful (frameOptions false) (.inl rfl : _ ∨ XxhState.Ready ⟨0,()⟩) () [[1]]
    exact ⟨file,wrote,openLz4_fault frame.long (frameInOptions (2 ^ 31)) ⟨0,()⟩ (by decide)⟩

end AnotherC.Lz4
