import AnotherC.Lib.Bytes
import Mathlib.Data.Nat.Bitwise

/-!
# LZ4 frames: `ac_lz4`

The header of a frame, its blocks and its end. The compression and the hash are
parameters; of the state of the streamed hash the model keeps `memsize`, on which
the bounds of its memory accesses depend.
-/
namespace AnotherC.Lz4
open AnotherC.Lib.Bytes
set_option linter.unusedVariables false

/-- The functions of `lz4.c`, `lz4hc.c` and `xxhash.c` that are used here. `κ` is
    the state of a compressor, `χ` what a streamed hash keeps besides `memsize`.
    A compressor answers the bytes that it wrote to the destination. -/
structure Library (κ χ : Type) where
  compressFast : κ → List UInt8 → Nat → Int → List UInt8 × κ
  compressHC : κ → List UInt8 → Nat → Int → List UInt8 × κ
  decompressSafe : List UInt8 → Nat → Option (List UInt8)
  xxh32 : List UInt8 → UInt32
  reset : χ
  absorb : χ → Nat → List UInt8 → χ
  digest : χ → Nat → UInt32

/-- `LZ4_compressBound`. -/
def lz4CompressBound (isize : Nat) : Nat := if isize > 0x7E000000 then 0 else isize + isize / 255 + 16

/-- What is promised of a compressor for an input that is neither empty nor longer
    than `LZ4_MAX_INPUT_SIZE`: within the bound it succeeds, and its output
    decompresses to the input. -/
def Inverts {κ χ : Type} (lib : Library κ χ) (compress : κ → List UInt8 → Nat → Int → List UInt8 × κ) : Prop :=
  ∀ ctx src destLen level, src ≠ [] → src.length ≤ 0x7E000000 → lz4CompressBound src.length ≤ destLen →
    0 < (compress ctx src destLen level).1.length ∧
      (compress ctx src destLen level).1.length ≤ lz4CompressBound src.length ∧
      ∀ size, src.length ≤ size → lib.decompressSafe (compress ctx src destLen level).1 size = some src

structure Lawful {κ χ : Type} (lib : Library κ χ) : Prop where
  fast : Inverts lib lib.compressFast
  hc : Inverts lib lib.compressHC

/-- `XXH32_state_t`. -/
structure XxhState (χ : Type) where
  memsize : Nat
  words : χ

/-- `XXH32_update`. Up to 16 bytes are kept in `mem32`; with a larger `memsize` the
    bytes go behind it. -/
def xxh32Update {κ χ : Type} (lib : Library κ χ) (state : XxhState χ) (input : List UInt8) : Option (XxhState χ) :=
  if state.memsize + input.length < 16 then
    some ⟨state.memsize + input.length,lib.absorb state.words state.memsize input⟩
  else if state.memsize > 16 then none
  else some ⟨(state.memsize + input.length) % 16,lib.absorb state.words state.memsize input⟩

/-- `ac_lz4_block_size_t`. -/
inductive BlockSize
  | s64kb
  | s256kb
  | s1mb
  | s4mb
deriving Repr, DecidableEq

def BlockSize.bytes : BlockSize → Nat
  | .s64kb => 64 * 1024
  | .s256kb => 256 * 1024
  | .s1mb => 1024 * 1024
  | .s4mb => 4 * 1024 * 1024

/-- The tables `_64kb` to `cb_4mb`, by block checksum and content checksum. -/
def headerTable : BlockSize → Bool → Bool → List UInt8
  | .s64kb, false, false => [0x04,0x22,0x4d,0x18,0x60,0x40,0x82]
  | .s64kb, false, true => [0x04,0x22,0x4d,0x18,0x64,0x40,0xa7]
  | .s64kb, true, false => [0x04,0x22,0x4d,0x18,0x70,0x40,0xad]
  | .s64kb, true, true => [0x04,0x22,0x4d,0x18,0x74,0x40,0xbd]
  | .s256kb, false, false => [0x04,0x22,0x4d,0x18,0x60,0x50,0xfb]
  | .s256kb, false, true => [0x04,0x22,0x4d,0x18,0x64,0x50,0x08]
  | .s256kb, true, false => [0x04,0x22,0x4d,0x18,0x70,0x50,0x84]
  | .s256kb, true, true => [0x04,0x22,0x4d,0x18,0x74,0x50,0xff]
  | .s1mb, false, false => [0x04,0x22,0x4d,0x18,0x60,0x60,0x51]
  | .s1mb, false, true => [0x04,0x22,0x4d,0x18,0x64,0x60,0x85]
  | .s1mb, true, false => [0x04,0x22,0x4d,0x18,0x70,0x60,0x33]
  | .s1mb, true, true => [0x04,0x22,0x4d,0x18,0x74,0x60,0xd9]
  | .s4mb, false, false => [0x04,0x22,0x4d,0x18,0x60,0x70,0x73]
  | .s4mb, false, true => [0x04,0x22,0x4d,0x18,0x64,0x70,0xb9]
  | .s4mb, true, false => [0x04,0x22,0x4d,0x18,0x70,0x70,0x72]
  | .s4mb, true, true => [0x04,0x22,0x4d,0x18,0x74,0x70,0x8e]

/-- `ac_lz4_header_t`; `compressedSize` is the bound for a whole block. -/
structure Header where
  size : BlockSize
  blockSize : Nat
  compressedSize : Nat
  blockChecksum : Bool
  contentChecksum : Bool
  header : List UInt8
deriving Repr, DecidableEq

/-- The checksum flags in the order of the tests. -/
def flags : List (Bool × Bool) := [(false,false),(true,false),(false,true),(true,true)]

/-- `ac_lz4_check_header`. -/
def acLz4CheckHeader (header : List UInt8) : Option Header :=
  if header.length ≠ 7 then none
  else if header.take 4 ≠ (headerTable .s64kb false false).take 4 then none
  else
    let size : Option BlockSize :=
      if header.getD 5 0 = 0x40 then some .s64kb
      else if header.getD 5 0 = 0x50 then some .s256kb
      else if header.getD 5 0 = 0x60 then some .s1mb
      else if header.getD 5 0 = 0x70 then some .s4mb
      else none
    size.bind fun size =>
      let same := fun flag : Bool × Bool =>
        header.getD 4 0 = (headerTable size flag.1 flag.2).getD 4 0 ∧
          header.getD 6 0 = (headerTable size flag.1 flag.2).getD 6 0
      (flags.find? fun flag => decide (same flag)).map fun flag =>
        ⟨size,size.bytes,lz4CompressBound size.bytes,flag.1,flag.2,headerTable size flag.1 flag.2⟩

/-- `ac_lz4_t`; a decompressor has no `ctx`. -/
structure AcLz4 (κ χ : Type) where
  size : BlockSize
  contentChecksum : Bool
  blockChecksum : Bool
  level : Int
  header : List UInt8
  blockSize : Nat
  compressedSize : Nat
  blockHeaderSize : Nat
  xxh : XxhState χ
  ctx : Option κ

/-- `ac_lz4_init`. Nothing resets the hash: its state is what the allocated `memory`
    holds. -/
def acLz4Init {κ χ : Type} (level : Int) (size : BlockSize) (blockChecksum contentChecksum : Bool)
    (memory : XxhState χ) (ctx : κ) : AcLz4 κ χ where
  size := size
  contentChecksum := contentChecksum
  blockChecksum := blockChecksum
  level := level
  header := headerTable size blockChecksum contentChecksum
  blockSize := size.bytes
  compressedSize := lz4CompressBound size.bytes
  blockHeaderSize := 4 + if blockChecksum then 4 else 0
  xxh := memory
  ctx := some ctx

section
variable {κ χ : Type} (lib : Library κ χ)

/-- `ac_lz4_init_decompress`. -/
def acLz4InitDecompress (header : List UInt8) (memory : XxhState χ) : Option (AcLz4 κ χ) :=
  (acLz4CheckHeader header).map fun h =>
    { size := h.size
      contentChecksum := h.contentChecksum
      blockChecksum := h.blockChecksum
      level := 1
      header := h.header
      blockSize := h.blockSize
      compressedSize := h.compressedSize
      blockHeaderSize := if h.blockChecksum then 4 else 0
      xxh := if h.contentChecksum then ⟨0,lib.reset⟩ else memory
      ctx := none }

/-- `ac_lz4_compressed_size`. -/
def AcLz4.acLz4CompressedSize (l : AcLz4 κ χ) : Nat := l.compressedSize + l.blockHeaderSize

/-- `ac_lz4_compress`: the fast compressor below `LZ4HC_CLEVEL_MIN`, which is 3. -/
def acLz4Compress (ctx : κ) (level : Int) (src : List UInt8) (destLen : Nat) : List UInt8 × κ :=
  if level < 3 then lib.compressFast ctx src destLen (if level < 0 then -level + 1 else 1)
  else lib.compressHC ctx src destLen level

/-- `ac_lz4_compress_block`; `none` where it writes behind the destination. -/
def acLz4CompressBlock (l : AcLz4 κ χ) (ctx : κ) (src : List UInt8) (destLen : Nat) :
    Option (List UInt8 × AcLz4 κ χ) :=
  (if l.contentChecksum then xxh32Update lib l.xxh src else some l.xxh).bind fun xxh =>
    let compressed := acLz4Compress lib ctx l.level src (destLen - l.blockHeaderSize)
    let data := if compressed.1.length ≥ src.length then src else compressed.1
    let size := if compressed.1.length ≥ src.length then src.length ||| 0x80000000 else compressed.1.length
    let block := bytes 4 size ++ (data ++ if l.blockChecksum then bytes 4 (lib.xxh32 data).toNat else [])
    if block.length > destLen then none else some (block,{ l with xxh := xxh, ctx := some compressed.2 })

/-- `ac_lz4_finish`: what it answers and, for a compressor, what it writes. -/
def acLz4Finish (l : AcLz4 κ χ) (dest : List UInt8) : Int × List UInt8 :=
  match l.ctx with
  | some _ =>
    if l.contentChecksum then (8,bytes 4 0 ++ bytes 4 (lib.digest l.xxh.words l.xxh.memsize).toNat) else (4,bytes 4 0)
  | none =>
    if l.contentChecksum ∧ (lib.digest l.xxh.words l.xxh.memsize).toNat ≠ number (dest.take 4) then (-500,[]) else (0,[])

/-- `ac_lz4_decompress`: the bytes written to the destination, or no bytes for a
    negative answer; `none` where it writes behind the destination. -/
def acLz4Decompress (l : AcLz4 κ χ) (src : List UInt8) (destLen : Nat) (compressed : Bool) :
    Option (Option (List UInt8) × AcLz4 κ χ) :=
  if l.blockChecksum ∧ (lib.xxh32 (src.take (src.length - 4))).toNat ≠ number (src.drop (src.length - 4)) then some (none,l)
  else
    let src := if l.blockChecksum then src.take (src.length - 4) else src
    match if compressed then lib.decompressSafe src destLen else some src with
    | none => some (none,l)
    | some r =>
      if r.length > destLen then none
      else (if l.contentChecksum then xxh32Update lib l.xxh r else some l.xxh).map fun xxh => (some r,{ l with xxh := xxh })

end

/-! ### Headers -/

/-- The header check reads back what was written. -/
theorem checkHeader_table (size : BlockSize) (blockChecksum contentChecksum : Bool) :
    acLz4CheckHeader (headerTable size blockChecksum contentChecksum) =
      some ⟨size,size.bytes,lz4CompressBound size.bytes,blockChecksum,contentChecksum,
        headerTable size blockChecksum contentChecksum⟩ := by
  cases size <;> cases blockChecksum <;> cases contentChecksum <;> decide

theorem headerTable_length (size : BlockSize) (blockChecksum contentChecksum : Bool) :
    (headerTable size blockChecksum contentChecksum).length = 7 := by
  cases size <;> cases blockChecksum <;> cases contentChecksum <;> rfl

theorem blockSize_bounds (size : BlockSize) : 65536 ≤ size.bytes ∧ size.bytes ≤ 4194304 := by
  cases size <;> decide

theorem compressBound_small {n : Nat} (small : n ≤ 4194304) : lz4CompressBound n = n + n / 255 + 16 := by
  rw [lz4CompressBound,if_neg (by omega)]

theorem compressBound_mono {n m : Nat} (below : n ≤ m) (small : m ≤ 4194304) :
    lz4CompressBound n ≤ lz4CompressBound m := by
  rw [compressBound_small small,compressBound_small (Nat.le_trans below small)]
  have := Nat.div_le_div_right (c := 255) below
  omega

/-! ### The hash -/

/-- A state that the streamed hash can go on from. -/
def XxhState.Ready {χ : Type} (state : XxhState χ) : Prop := state.memsize ≤ 16

theorem update_ready {κ χ : Type} (lib : Library κ χ) {state : XxhState χ} (ready : state.Ready) (input : List UInt8) :
    ∃ state', xxh32Update lib state input = some state' ∧ state'.Ready := by
  unfold XxhState.Ready at ready
  rw [xxh32Update]
  by_cases few : state.memsize + input.length < 16
  · rw [if_pos few]
    exact ⟨_,rfl,Nat.le_of_lt few⟩
  · rw [if_neg few,if_neg (by omega)]
    refine ⟨_,rfl,?_⟩
    have := Nat.mod_lt (state.memsize + input.length) (show 16 > 0 by decide)
    exact Nat.le_of_lt this

theorem update_fault {κ χ : Type} (lib : Library κ χ) {state : XxhState χ} (unready : ¬ state.Ready)
    (input : List UInt8) : xxh32Update lib state input = none := by
  unfold XxhState.Ready at unready
  rw [xxh32Update,if_neg (by omega),if_pos (by omega)]

/-! ### Blocks -/

/-- A block of a frame: what it stands for, and the bytes stored for it. -/
structure Block where
  content : List UInt8
  data : List UInt8
  raw : Bool

section
variable {κ χ : Type} {lib : Library κ χ}

def Block.encode (lib : Library κ χ) (blockChecksum : Bool) (b : Block) : List UInt8 :=
  bytes 4 (if b.raw then b.data.length + 2 ^ 31 else b.data.length) ++
    (b.data ++ if blockChecksum then bytes 4 (lib.xxh32 b.data).toNat else [])

/-- A block stands for at most `blockSize` bytes. It is marked where these bytes
    themselves are stored, and otherwise decompresses to them. -/
structure Block.Sound (lib : Library κ χ) (blockSize : Nat) (b : Block) : Prop where
  filled : b.content ≠ []
  fits : b.content.length ≤ blockSize
  stored : b.raw = true → b.data = b.content
  packed : b.raw = false → 0 < b.data.length ∧ b.data.length < b.content.length ∧
    lib.decompressSafe b.data blockSize = some b.content

theorem Block.Sound.data_bounds {blockSize : Nat} {b : Block} (sound : b.Sound lib blockSize) :
    0 < b.data.length ∧ b.data.length ≤ b.content.length := by
  cases marked : b.raw with
  | true =>
    rw [sound.stored marked]
    exact ⟨List.length_pos_iff.mpr sound.filled,Nat.le_refl _⟩
  | false =>
    obtain ⟨positive,less,_⟩ := sound.packed marked
    exact ⟨positive,Nat.le_of_lt less⟩

variable (lib) in
theorem encode_length (blockChecksum : Bool) (b : Block) :
    (b.encode lib blockChecksum).length = b.data.length + (4 + if blockChecksum then 4 else 0) := by
  rw [Block.encode,List.length_append,List.length_append,bytes_length]
  cases blockChecksum
  · simp only [Bool.false_eq_true,if_false,List.length_nil]
    omega
  · simp only [if_true,bytes_length]
    omega

theorem or_high {n : Nat} (small : n < 2 ^ 31) : n ||| 0x80000000 = n + 2 ^ 31 := by
  have sum := Nat.two_pow_add_eq_or_of_lt small 1
  rw [Nat.mul_one] at sum
  rw [Nat.or_comm,Nat.add_comm]
  exact sum.symm

theorem compress_inverts (lawful : Lawful lib) (ctx : κ) (level : Int) {src : List UInt8} (filled : src ≠ [])
    (small : src.length ≤ 0x7E000000) {destLen : Nat} (room : lz4CompressBound src.length ≤ destLen) :
    0 < (acLz4Compress lib ctx level src destLen).1.length ∧
      ∀ size, src.length ≤ size →
        lib.decompressSafe (acLz4Compress lib ctx level src destLen).1 size = some src := by
  rw [acLz4Compress]
  split
  · obtain ⟨positive,_,back⟩ := lawful.fast ctx src destLen _ filled small room
    exact ⟨positive,back⟩
  · obtain ⟨positive,_,back⟩ := lawful.hc ctx src destLen level filled small room
    exact ⟨positive,back⟩

/-- What a compressor keeps: only the states of the hash and of the compressor change. -/
def Advances (l l' : AcLz4 κ χ) : Prop := ∃ xxh ctx, l' = { l with xxh := xxh, ctx := some ctx }

/-- The hash is not used, or can go on. -/
def Hashes (l : AcLz4 κ χ) : Prop := l.contentChecksum = false ∨ l.xxh.Ready

variable (lib) in
theorem hash_advances {l : AcLz4 κ χ} (hashes : Hashes l) (input : List UInt8) :
    ∃ xxh, (if l.contentChecksum then xxh32Update lib l.xxh input else some l.xxh) = some xxh ∧
      (l.contentChecksum = false ∨ xxh.Ready) := by
  cases summed : l.contentChecksum with
  | false =>
    exact ⟨l.xxh,by simp,.inl rfl⟩
  | true =>
    have ready : l.xxh.Ready := by
      rcases hashes with off | ready
      · rw [summed] at off
        cases off
      · exact ready
    obtain ⟨xxh,updated,still⟩ := update_ready lib ready input
    exact ⟨xxh,by simpa using updated,.inr still⟩

/-- A block that is compressed into enough room is a sound block of its input. -/
theorem compressBlock_sound (lawful : Lawful lib) {l : AcLz4 κ χ} (hashes : Hashes l)
    (headerSize : l.blockHeaderSize = 4 + if l.blockChecksum then 4 else 0) (ctx : κ) {src : List UInt8}
    (filled : src ≠ []) {blockSize : Nat} (fits : src.length ≤ blockSize) (small : blockSize ≤ 4194304) :
    ∃ (b : Block) (l' : AcLz4 κ χ), acLz4CompressBlock lib l ctx src (lz4CompressBound src.length + 8) =
        some (b.encode lib l.blockChecksum,l') ∧
      b.content = src ∧ b.Sound lib blockSize ∧ Advances l l' ∧ Hashes l' := by
  obtain ⟨xxh,hashed,still⟩ := hash_advances lib hashes src
  have header : l.blockHeaderSize ≤ 8 := by
    rw [headerSize]
    split <;> omega
  obtain ⟨positive,back⟩ := compress_inverts lawful ctx l.level filled (by omega)
    (show lz4CompressBound src.length ≤ lz4CompressBound src.length + 8 - l.blockHeaderSize by omega)
  have bound := compressBound_small (Nat.le_trans fits small)
  simp only [acLz4CompressBlock,hashed,Option.bind_some]
  generalize acLz4Compress lib ctx l.level src (lz4CompressBound src.length + 8 - l.blockHeaderSize) = out at *
  by_cases raw : out.1.length ≥ src.length
  · have encoded := encode_length lib l.blockChecksum ⟨src,src,true⟩
    have inside : ¬ ((Block.mk src src true).encode lib l.blockChecksum).length > lz4CompressBound src.length + 8 := by
      rw [encoded]
      dsimp only
      omega
    refine ⟨⟨src,src,true⟩,{ l with xxh := xxh, ctx := some out.2 },?_,rfl,⟨filled,fits,fun _ => rfl,nofun⟩,
      ⟨xxh,out.2,rfl⟩,still⟩
    simp only [if_pos raw,or_high (show src.length < 2 ^ 31 by omega)]
    exact if_neg inside
  · have encoded := encode_length lib l.blockChecksum ⟨src,out.1,false⟩
    have inside : ¬ ((Block.mk src out.1 false).encode lib l.blockChecksum).length > lz4CompressBound src.length + 8 := by
      rw [encoded]
      dsimp only
      omega
    refine ⟨⟨src,out.1,false⟩,{ l with xxh := xxh, ctx := some out.2 },?_,rfl,
      ⟨filled,fits,nofun,fun _ => ⟨positive,Nat.not_le.mp raw,back blockSize fits⟩⟩,⟨xxh,out.2,rfl⟩,still⟩
    simp only [if_neg raw]
    exact if_neg inside

theorem compressBlock_length {l l' : AcLz4 κ χ} {ctx : κ} {src block : List UInt8} {destLen : Nat}
    (wrote : acLz4CompressBlock lib l ctx src destLen = some (block,l')) : block.length ≤ destLen := by
  simp only [acLz4CompressBlock,Option.bind_eq_some_iff,Option.ite_none_left_eq_some,Option.some.injEq,
    Prod.mk.injEq] at wrote
  obtain ⟨xxh,_,inside,same,_⟩ := wrote
  rw [← same]
  exact Nat.not_lt.mp inside

/-- With a hash that cannot go on no block is written. -/
theorem compressBlock_fault {l : AcLz4 κ χ} (unready : ¬ Hashes l) (ctx : κ) (src : List UInt8) (destLen : Nat) :
    acLz4CompressBlock lib l ctx src destLen = none := by
  obtain ⟨on,unready⟩ := not_or.mp unready
  rw [acLz4CompressBlock,if_pos (by simpa using on),update_fault lib unready]
  rfl

variable (lib) in
/-- Decompressing a sound block gives what it stands for. -/
theorem decompress_sound {l : AcLz4 κ χ} (hashes : Hashes l) {blockSize : Nat} {b : Block} (sound : b.Sound lib blockSize) :
    ∃ xxh, acLz4Decompress lib l (b.data ++ if l.blockChecksum then bytes 4 (lib.xxh32 b.data).toNat else []) blockSize
        (!b.raw) = some (some b.content,{ l with xxh := xxh }) ∧ Hashes { l with xxh := xxh } := by
  obtain ⟨xxh,hashed,still⟩ := hash_advances lib hashes b.content
  have unpacked : (if (!b.raw) = true then lib.decompressSafe b.data blockSize else some b.data) = some b.content := by
    cases marked : b.raw with
    | true => simp [sound.stored marked]
    | false => simpa using (sound.packed marked).2.2
  have inside : ¬ b.content.length > blockSize := Nat.not_lt.mpr sound.fits
  refine ⟨xxh,?_,still⟩
  cases summed : l.blockChecksum with
  | false =>
    simp only [acLz4Decompress,summed,Bool.false_eq_true,false_and,if_false,List.append_nil,unpacked,if_neg inside,hashed,
      Option.map_some]
  | true =>
    have checksum : number (bytes 4 (lib.xxh32 b.data).toNat) = (lib.xxh32 b.data).toNat := by
      rw [number_bytes]
      exact Nat.mod_eq_of_lt (lib.xxh32 b.data).toNat_lt
    simp only [acLz4Decompress,summed,if_true,true_and,List.length_append,bytes_length,Nat.add_sub_cancel,List.take_left',
      List.drop_left',checksum,ne_eq,not_true_eq_false,if_false,unpacked,if_neg inside,hashed,Option.map_some]

end
end AnotherC.Lz4
