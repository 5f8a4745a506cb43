import AnotherC.Io.Lz4

/-!
# Writing LZ4 frames: `ac_out`

The chunks that are written gather in a buffer of one block; full blocks are
compressed into a second buffer, which goes to the file when the next block may
not fit. `Wrote` says what file and second buffer hold together after any number
of writes.
-/
namespace AnotherC.Lz4
open AnotherC.Lib.Bytes
set_option linter.unusedVariables false

/-- `ac_out_options_t`, what an LZ4 output uses of it. -/
structure AcOutOptions where
  bufferSize : Nat
  level : Int
  size : BlockSize
  blockChecksum : Bool
  contentChecksum : Bool
deriving Repr, DecidableEq

/-- `ac_out_t`. `buffer` and `buffer2` are the bytes in use; behind the
    `bufferSize2` bytes of `buffer2` there are 8 more. `file` is what was written. -/
structure Out (κ χ : Type) where
  lz4 : AcLz4 κ χ
  buffer : List UInt8
  bufferSize : Nat
  buffer2 : List UInt8
  bufferSize2 : Nat
  file : List UInt8

section
variable {κ χ : Type} (lib : Library κ χ)

def acOutInitLz4 (options : AcOutOptions) (memory : XxhState χ) (ctx : κ) : Out κ χ :=
  let lz4 := acLz4Init options.level options.size options.blockChecksum options.contentChecksum memory ctx
  let least := lz4.acLz4CompressedSize + lz4.blockSize + 8
  let bufferSize := if options.bufferSize < least then least else options.bufferSize
  ⟨lz4,[],lz4.blockSize,lz4.header,bufferSize - lz4.blockSize,[]⟩

/-- `_write_to_fd` of the second buffer. -/
def writeToFd (h : Out κ χ) : Out κ χ := { h with file := h.file ++ h.buffer2, buffer2 := [] }

/-- `_write_to_lz4`; `none` is a write behind the buffer, or the loop to `start`
    when an empty buffer has no room. -/
def writeToLz4 (h : Out κ χ) (p : List UInt8) : Option (Out κ χ) :=
  if p.length = 0 then some (writeToFd h)
  else if h.buffer2.length + (lz4CompressBound p.length + 8) ≤ h.bufferSize2 then
    h.lz4.ctx.bind fun ctx =>
    (acLz4CompressBlock lib h.lz4 ctx p (lz4CompressBound p.length + 8)).map fun block =>
      let h := { h with lz4 := block.2, buffer2 := h.buffer2 ++ block.1 }
      if h.buffer2.length < h.bufferSize2 then h else writeToFd h
  else if h.buffer2.length = 0 then none
  else writeToLz4 (writeToFd h) p
termination_by h.buffer2.length
decreasing_by
  simp only [writeToFd,List.length_nil]
  omega

/-- The loop over whole blocks of a chunk; `none` also where it makes no progress. -/
def writeBlocks (h : Out κ χ) (d : List UInt8) : Option (Out κ χ) :=
  if enough : d.length ≥ h.bufferSize then
    if positive : h.bufferSize = 0 then none
    else (writeToLz4 lib h (d.take h.bufferSize)).bind fun h' => writeBlocks h' (d.drop h.bufferSize)
  else some { h with buffer := d }
termination_by d.length
decreasing_by
  rw [List.length_drop]
  omega

/-- `_ac_out_write_lz4`; with no bytes it ends the frame. -/
def acOutWriteLz4 (h : Out κ χ) (d : List UInt8) : Option (Out κ χ) :=
  if h.buffer.length + d.length ≤ h.bufferSize then
    let h := { h with buffer := h.buffer ++ d }
    if d.length ≠ 0 then some h
    else
      (writeToLz4 lib h h.buffer).bind fun h =>
        let finish := (acLz4Finish lib h.lz4 []).2
        if h.buffer2.length + finish.length > h.bufferSize2 + 8 then none
        else writeToLz4 lib { h with buffer := [], buffer2 := h.buffer2 ++ finish } []
  else
    let diff := h.bufferSize - h.buffer.length
    (writeToLz4 lib h (h.buffer ++ d.take diff)).bind fun h => writeBlocks lib { h with buffer := [] } (d.drop diff)

/-- `ac_out_write`. -/
def acOutWrite (h : Out κ χ) (d : List UInt8) : Option (Out κ χ) :=
  if d.length = 0 then some h else acOutWriteLz4 lib h d

def writeChunks (h : Out κ χ) : List (List UInt8) → Option (Out κ χ)
  | [] => some h
  | d :: chunks => (acOutWrite lib h d).bind fun h => writeChunks h chunks

/-- The file after the chunks are written and the output is destroyed. -/
def writeFile (options : AcOutOptions) (memory : XxhState χ) (ctx : κ) (chunks : List (List UInt8)) :
    Option (List UInt8) :=
  (writeChunks lib (acOutInitLz4 options memory ctx) chunks).bind fun h => (acOutWriteLz4 lib h []).map (·.file)

end

section
variable {κ χ : Type} {lib : Library κ χ}

/-- The blocks written so far, in the file and in the second buffer. -/
structure Wrote (lib : Library κ χ) (options : AcOutOptions) (h : Out κ χ) (blocks : List Block) : Prop where
  lz4 : ∃ xxh ctx, h.lz4 = acLz4Init options.level options.size options.blockChecksum options.contentChecksum xxh ctx
  hashes : Hashes h.lz4
  size : h.bufferSize = options.size.bytes
  inside : h.buffer.length ≤ options.size.bytes
  room : lz4CompressBound options.size.bytes + 8 ≤ h.bufferSize2
  within : h.buffer2.length ≤ h.bufferSize2
  holds : h.file ++ h.buffer2 =
    headerTable options.size options.blockChecksum options.contentChecksum ++
      blocks.flatMap (Block.encode lib options.blockChecksum)
  sound : ∀ b ∈ blocks, b.Sound lib options.size.bytes

theorem flush_wrote {options : AcOutOptions} {h : Out κ χ} {blocks : List Block} (wrote : Wrote lib options h blocks) :
    Wrote lib options (writeToFd h) blocks where
  lz4 := wrote.lz4
  hashes := wrote.hashes
  size := wrote.size
  inside := wrote.inside
  room := wrote.room
  within := Nat.zero_le _
  holds := by
    simp only [writeToFd,List.append_nil]
    exact wrote.holds
  sound := wrote.sound

theorem buffer_wrote {options : AcOutOptions} {h : Out κ χ} {blocks : List Block} (wrote : Wrote lib options h blocks)
    {buffer : List UInt8} (inside : buffer.length ≤ options.size.bytes) :
    Wrote lib options { h with buffer := buffer } blocks where
  lz4 := wrote.lz4
  hashes := wrote.hashes
  size := wrote.size
  inside := inside
  room := wrote.room
  within := wrote.within
  holds := wrote.holds
  sound := wrote.sound

/-- A block that fits is appended to the second buffer. -/
theorem append_wrote {options : AcOutOptions} {h : Out κ χ} {blocks : List Block} (wrote : Wrote lib options h blocks)
    {b : Block} {l : AcLz4 κ χ} (advances : Advances h.lz4 l) (hashes : Hashes l)
    (sound : b.Sound lib options.size.bytes)
    (within : (h.buffer2 ++ b.encode lib options.blockChecksum).length ≤ h.bufferSize2) :
    Wrote lib options { h with lz4 := l, buffer2 := h.buffer2 ++ b.encode lib options.blockChecksum } (blocks ++ [b]) where
  lz4 := by
    obtain ⟨xxh,ctx,same⟩ := wrote.lz4
    obtain ⟨xxh',ctx',rfl⟩ := advances
    exact ⟨xxh',ctx',by rw [same]; rfl⟩
  hashes := hashes
  size := wrote.size
  inside := wrote.inside
  room := wrote.room
  within := within
  holds := by
    simp only [← List.append_assoc,wrote.holds,List.flatMap_append,List.flatMap_cons,List.flatMap_nil,List.append_nil]
  sound := by
    intro c member
    rcases List.mem_append.mp member with earlier | last
    · exact wrote.sound c earlier
    · rw [List.mem_singleton.mp last]
      exact sound

/-- What `_write_to_lz4` does with the bytes of a block once there is room. -/
theorem compress_wrote (lawful : Lawful lib) {options : AcOutOptions} {h : Out κ χ} {blocks : List Block}
    (wrote : Wrote lib options h blocks) {p : List UInt8} (filled : p ≠ []) (fits : p.length ≤ options.size.bytes)
    (room : h.buffer2.length + (lz4CompressBound p.length + 8) ≤ h.bufferSize2) :
    ∃ (b : Block) (h' : Out κ χ), writeToLz4 lib h p = some h' ∧ Wrote lib options h' (blocks ++ [b]) ∧
      b.content = p ∧ h'.buffer = h.buffer := by
  obtain ⟨xxh,ctx,same⟩ := wrote.lz4
  have present : h.lz4.ctx = some ctx := by rw [same]; rfl
  have checksum : h.lz4.blockChecksum = options.blockChecksum := by rw [same]; rfl
  have headerSize : h.lz4.blockHeaderSize = 4 + if h.lz4.blockChecksum then 4 else 0 := by rw [same]; rfl
  have some := List.length_pos_iff.mpr filled
  obtain ⟨b,l,compressed,content,sound,advances,hashes⟩ :=
    compressBlock_sound lawful wrote.hashes headerSize ctx filled fits (blockSize_bounds options.size).2
  have length := compressBlock_length compressed
  rw [checksum] at compressed length
  have next := append_wrote wrote advances hashes sound (by rw [List.length_append]; omega)
  rw [writeToLz4,if_neg (by omega),if_pos room,present,Option.bind_some,compressed,Option.map_some]
  by_cases below : (h.buffer2 ++ b.encode lib options.blockChecksum).length < h.bufferSize2
  · refine ⟨b,_,rfl,?_,content,?_⟩
    · rw [if_pos below]
      exact next
    · rw [if_pos below]
  · refine ⟨b,_,rfl,?_,content,?_⟩
    · rw [if_neg below]
      exact flush_wrote next
    · rw [if_neg below]
      rfl

/-- After at most one turn through `start` the block is written. -/
theorem writeToLz4_wrote (lawful : Lawful lib) {options : AcOutOptions} {h : Out κ χ} {blocks : List Block}
    (wrote : Wrote lib options h blocks) {p : List UInt8} (filled : p ≠ []) (fits : p.length ≤ options.size.bytes) :
    ∃ (b : Block) (h' : Out κ χ), writeToLz4 lib h p = some h' ∧ Wrote lib options h' (blocks ++ [b]) ∧
      b.content = p ∧ h'.buffer = h.buffer := by
  have bound := compressBound_mono fits (blockSize_bounds options.size).2
  have room := wrote.room
  have some := List.length_pos_iff.mpr filled
  by_cases here : h.buffer2.length + (lz4CompressBound p.length + 8) ≤ h.bufferSize2
  · exact compress_wrote lawful wrote filled fits here
  · have used : h.buffer2.length ≠ 0 := by omega
    have empty : (writeToFd h).buffer2.length + (lz4CompressBound p.length + 8) ≤ (writeToFd h).bufferSize2 := by
      simp only [writeToFd,List.length_nil]
      omega
    rw [writeToLz4,if_neg (by omega),if_neg here,if_neg used]
    exact compress_wrote lawful (flush_wrote wrote) filled fits empty

theorem writeBlocks_wrote (lawful : Lawful lib) {options : AcOutOptions} {h : Out κ χ} {blocks : List Block}
    (wrote : Wrote lib options h blocks) (d : List UInt8) :
    ∃ (more : List Block) (h' : Out κ χ), writeBlocks lib h d = some h' ∧ Wrote lib options h' (blocks ++ more) ∧
      more.flatMap Block.content ++ h'.buffer = d := by
  have size := wrote.size
  have positive := (blockSize_bounds options.size).1
  induction length : d.length using Nat.strongRecOn generalizing h blocks d with
  | ind length ih =>
    subst length
    rw [writeBlocks]
    by_cases enough : d.length ≥ h.bufferSize
    · rw [dif_pos enough,dif_neg (by omega)]
      have taken : (d.take h.bufferSize).length = h.bufferSize := List.length_take_of_le enough
      have filled : d.take h.bufferSize ≠ [] := by
        rw [← List.length_pos_iff]
        omega
      obtain ⟨b,h₁,wrote₁,next,content,_⟩ := writeToLz4_wrote lawful wrote filled (by omega)
      obtain ⟨more,h₂,wrote₂,last,whole⟩ := ih (d.drop h.bufferSize).length
        (by rw [List.length_drop]; omega) next (d.drop h.bufferSize) next.size rfl
      refine ⟨b :: more,h₂,by rw [wrote₁]; exact wrote₂,by simpa using last,?_⟩
      rw [List.flatMap_cons,content,List.append_assoc,whole,List.take_append_drop]
    · rw [dif_neg enough]
      refine ⟨[],_,rfl,?_,rfl⟩
      rw [List.append_nil]
      exact buffer_wrote wrote (by omega)

/-- One write: the bytes are in new blocks and in the buffer. -/
theorem acOutWrite_wrote (lawful : Lawful lib) {options : AcOutOptions} {h : Out κ χ} {blocks : List Block}
    (wrote : Wrote lib options h blocks) (d : List UInt8) :
    ∃ (more : List Block) (h' : Out κ χ), acOutWrite lib h d = some h' ∧ Wrote lib options h' (blocks ++ more) ∧
      more.flatMap Block.content ++ h'.buffer = h.buffer ++ d := by
  have size := wrote.size
  have inside := wrote.inside
  have positive := (blockSize_bounds options.size).1
  by_cases none : d.length = 0
  · rw [acOutWrite,if_pos none,List.length_eq_zero_iff.mp none]
    exact ⟨[],h,rfl,by simpa using wrote,by simp⟩
  · rw [acOutWrite,if_neg none,acOutWriteLz4]
    by_cases fits : h.buffer.length + d.length ≤ h.bufferSize
    · simp only [if_pos fits,ne_eq,none,not_false_eq_true,if_true]
      refine ⟨[],_,rfl,?_,rfl⟩
      rw [List.append_nil]
      exact buffer_wrote wrote (by rw [List.length_append]; omega)
    · rw [if_neg fits]
      have length : (h.buffer ++ d.take (h.bufferSize - h.buffer.length)).length = h.bufferSize := by
        rw [List.length_append,List.length_take]
        omega
      have filled : h.buffer ++ d.take (h.bufferSize - h.buffer.length) ≠ [] := by
        rw [← List.length_pos_iff]
        omega
      obtain ⟨b,h₁,wrote₁,next,content,_⟩ := writeToLz4_wrote lawful wrote filled (by omega)
      have emptied := buffer_wrote next (show ([] : List UInt8).length ≤ options.size.bytes from Nat.zero_le _)
      obtain ⟨more,h₂,wrote₂,last,whole⟩ :=
        writeBlocks_wrote lawful emptied (d.drop (h.bufferSize - h.buffer.length))
      refine ⟨b :: more,h₂,by simp only [wrote₁,Option.bind_some]; exact wrote₂,by simpa using last,?_⟩
      rw [List.flatMap_cons,content,List.append_assoc,whole,List.append_assoc,List.take_append_drop]

theorem writeChunks_wrote (lawful : Lawful lib) {options : AcOutOptions} (chunks : List (List UInt8)) {h : Out κ χ}
    {blocks : List Block} (wrote : Wrote lib options h blocks) :
    ∃ (more : List Block) (h' : Out κ χ), writeChunks lib h chunks = some h' ∧ Wrote lib options h' (blocks ++ more) ∧
      more.flatMap Block.content ++ h'.buffer = h.buffer ++ chunks.flatten := by
  induction chunks generalizing h blocks with
  | nil => exact ⟨[],h,rfl,by simpa using wrote,by simp⟩
  | cons d chunks ih =>
    obtain ⟨first,h₁,wrote₁,next,whole₁⟩ := acOutWrite_wrote lawful wrote d
    obtain ⟨more,h₂,wrote₂,last,whole₂⟩ := ih next
    refine ⟨first ++ more,h₂,by rw [writeChunks,wrote₁]; exact wrote₂,by simpa using last,?_⟩
    rw [List.flatMap_append,List.append_assoc,whole₂,← List.append_assoc,whole₁,List.flatten_cons,List.append_assoc]

/-- What ends a frame. -/
def AtEnd (options : AcOutOptions) (finish : List UInt8) : Prop :=
  ∃ checksum : List UInt8, finish = bytes 4 0 ++ checksum ∧ checksum.length = if options.contentChecksum then 4 else 0

variable (lib) in
theorem finish_atEnd {options : AcOutOptions} {l : AcLz4 κ χ} {xxh : XxhState χ} {ctx : κ}
    (same : l = acLz4Init options.level options.size options.blockChecksum options.contentChecksum xxh ctx) :
    AtEnd options (acLz4Finish lib l []).2 ∧ (acLz4Finish lib l []).2.length ≤ 8 := by
  subst same
  cases summed : options.contentChecksum with
  | true =>
    simp only [AtEnd,acLz4Finish,acLz4Init,summed,if_true]
    exact ⟨⟨_,rfl,bytes_length _ _⟩,by simp⟩
  | false =>
    simp only [AtEnd,acLz4Finish,acLz4Init,summed,Bool.false_eq_true,if_false]
    exact ⟨⟨[],rfl,rfl⟩,by simp⟩

/-- The last write ends the frame, with room for the end mark and the checksum. -/
theorem finish_wrote (lawful : Lawful lib) {options : AcOutOptions} {h : Out κ χ} {blocks : List Block}
    (wrote : Wrote lib options h blocks) :
    ∃ (more : List Block) (finish : List UInt8) (h' : Out κ χ), acOutWriteLz4 lib h [] = some h' ∧
      AtEnd options finish ∧ more.flatMap Block.content = h.buffer ∧
      (∀ b ∈ blocks ++ more, b.Sound lib options.size.bytes) ∧
      h'.file = headerTable options.size options.blockChecksum options.contentChecksum ++
        (blocks ++ more).flatMap (Block.encode lib options.blockChecksum) ++ finish := by
  have inside : h.buffer.length ≤ h.bufferSize := by rw [wrote.size]; exact wrote.inside
  obtain ⟨more,h₁,wrote₁,next,content⟩ : ∃ (more : List Block) (h₁ : Out κ χ),
      writeToLz4 lib { h with buffer := h.buffer ++ [] } (h.buffer ++ []) = some h₁ ∧
        Wrote lib options h₁ (blocks ++ more) ∧ more.flatMap Block.content = h.buffer := by
    rw [List.append_nil]
    by_cases filled : h.buffer = []
    · refine ⟨[],writeToFd h,?_,by simpa using flush_wrote wrote,by simp [filled]⟩
      rw [writeToLz4,if_pos (by simp [filled])]
    · obtain ⟨b,h₁,wrote₁,next,content,_⟩ := writeToLz4_wrote lawful wrote filled wrote.inside
      exact ⟨[b],h₁,wrote₁,next,by simp [content]⟩
  obtain ⟨xxh,ctx,same⟩ := next.lz4
  obtain ⟨ends,short⟩ := finish_atEnd lib same
  generalize isFinish : (acLz4Finish lib h₁.lz4 []).2 = finish at ends short
  have within := next.within
  refine ⟨more,finish,writeToFd { h₁ with buffer := [], buffer2 := h₁.buffer2 ++ finish },?wrote,ends,content,next.sound,
    ?file⟩
  case wrote =>
    rw [acOutWriteLz4]
    simp only [List.length_nil,Nat.add_zero,inside,if_true,ne_eq,not_true_eq_false,if_false,wrote₁,Option.bind_some,
      isFinish]
    rw [if_neg (by omega),writeToLz4,if_pos List.length_nil]
  case file =>
    simp only [writeToFd]
    rw [← List.append_assoc,next.holds]

theorem init_wrote (lib : Library κ χ) (options : AcOutOptions) {memory : XxhState χ}
    (ready : options.contentChecksum = false ∨ memory.Ready) (ctx : κ) :
    Wrote lib options (acOutInitLz4 options memory ctx) [] where
  lz4 := ⟨memory,ctx,rfl⟩
  hashes := ready
  size := rfl
  inside := Nat.zero_le _
  room := by
    simp only [acOutInitLz4,acLz4Init,AcLz4.acLz4CompressedSize]
    split <;> split <;> omega
  within := by
    have length := headerTable_length options.size options.blockChecksum options.contentChecksum
    simp only [acOutInitLz4,acLz4Init,AcLz4.acLz4CompressedSize,length]
    split <;> split <;> omega
  holds := by simp [acOutInitLz4,acLz4Init]
  sound := by simp

/-- A frame: the header, sound blocks, and the end mark. -/
structure Frame (lib : Library κ χ) (options : AcOutOptions) (blocks : List Block) (file : List UInt8) : Prop where
  sound : ∀ b ∈ blocks, b.Sound lib options.size.bytes
  holds : ∃ finish, AtEnd options finish ∧
    file = headerTable options.size options.blockChecksum options.contentChecksum ++
      blocks.flatMap (Block.encode lib options.blockChecksum) ++ finish

/-- Whatever is written comes out as a frame whose blocks stand for all of it. -/
theorem writeFile_frame (lawful : Lawful lib) (options : AcOutOptions) {memory : XxhState χ}
    (ready : options.contentChecksum = false ∨ memory.Ready) (ctx : κ) (chunks : List (List UInt8)) :
    ∃ file blocks, writeFile lib options memory ctx chunks = some file ∧ Frame lib options blocks file ∧
      blocks.flatMap Block.content = chunks.flatten := by
  obtain ⟨blocks,h₁,wrote₁,next,whole₁⟩ := writeChunks_wrote lawful chunks (init_wrote lib options ready ctx)
  obtain ⟨more,finish,h₂,wrote₂,ends,content,sound,file⟩ := finish_wrote lawful next
  rw [List.nil_append] at sound file
  refine ⟨h₂.file,blocks ++ more,by rw [writeFile,wrote₁,Option.bind_some,wrote₂,Option.map_some],
    ⟨sound,finish,ends,file⟩,?_⟩
  rw [List.flatMap_append,content,whole₁]
  rfl

/-- With a hash that cannot go on no bytes get past `_write_to_lz4`. -/
theorem writeToLz4_fault {h : Out κ χ} (unready : ¬ Hashes h.lz4) {p : List UInt8} (filled : p ≠ []) :
    writeToLz4 lib h p = none := by
  have some := List.length_pos_iff.mpr filled
  have here : ∀ h : Out κ χ, ¬ Hashes h.lz4 → (h.lz4.ctx.bind fun ctx =>
      (acLz4CompressBlock lib h.lz4 ctx p (lz4CompressBound p.length + 8)).map fun block =>
        let h := { h with lz4 := block.2, buffer2 := h.buffer2 ++ block.1 }
        if h.buffer2.length < h.bufferSize2 then h else writeToFd h) = none := by
    intro h unready
    rw [Option.bind_eq_none_iff]
    intro ctx _
    rw [compressBlock_fault unready,Option.map_none]
  rw [writeToLz4,if_neg (by omega),here h unready]
  split
  · rfl
  · split
    · rfl
    · rw [writeToLz4,if_neg (by omega),here (writeToFd h) unready]
      split
      · rfl
      · rw [if_pos (by simp [writeToFd])]

variable (lib) in
/-- Such an output keeps bytes at most in its first buffer. -/
theorem writeChunks_fault (chunks : List (List UInt8)) {h : Out κ χ} (unready : ¬ Hashes h.lz4)
    (positive : 0 < h.bufferSize) (inside : h.buffer.length ≤ h.bufferSize) :
    writeChunks lib h chunks = none ∨
      writeChunks lib h chunks = some { h with buffer := h.buffer ++ chunks.flatten } ∧
        (h.buffer ++ chunks.flatten).length ≤ h.bufferSize := by
  induction chunks generalizing h with
  | nil => exact .inr ⟨by simp [writeChunks],by simpa using inside⟩
  | cons d chunks ih =>
    rw [writeChunks,acOutWrite,acOutWriteLz4,List.flatten_cons,← List.append_assoc]
    by_cases none : d.length = 0
    · rw [if_pos none,List.length_eq_zero_iff.mp none,List.append_nil]
      exact ih unready positive inside
    · rw [if_neg none]
      by_cases fits : h.buffer.length + d.length ≤ h.bufferSize
      · simp only [if_pos fits,ne_eq,none,not_false_eq_true,if_true,Option.bind_some]
        exact ih (h := { h with buffer := h.buffer ++ d }) unready positive (by rw [List.length_append]; omega)
      · left
        have filled : h.buffer ++ d.take (h.bufferSize - h.buffer.length) ≠ [] := by
          rw [← List.length_pos_iff,List.length_append,List.length_take]
          omega
        simp only [if_neg fits,writeToLz4_fault unready filled,Option.bind_none]

theorem writeFile_fault (options : AcOutOptions) {memory : XxhState χ}
    (unready : ¬ (options.contentChecksum = false ∨ memory.Ready)) (ctx : κ) {chunks : List (List UInt8)}
    (filled : chunks.flatten ≠ []) : writeFile lib options memory ctx chunks = none := by
  have positive := (blockSize_bounds options.size).1
  have cannot : ¬ Hashes (acOutInitLz4 options memory ctx).lz4 := unready
  rw [writeFile]
  rcases writeChunks_fault lib chunks cannot (show 0 < options.size.bytes by omega) (Nat.zero_le _) with
    fault | ⟨wrote,inside⟩
  · rw [fault,Option.bind_none]
  · have short : chunks.flatten.length ≤ options.size.bytes := inside
    have buffer : (acOutInitLz4 options memory ctx).buffer ++ chunks.flatten = chunks.flatten := rfl
    have size : (acOutInitLz4 options memory ctx).bufferSize = options.size.bytes := rfl
    rw [wrote,Option.bind_some,acOutWriteLz4]
    simp only [buffer,size,List.length_nil,Nat.add_zero,short,if_true,ne_eq,not_true_eq_false,if_false,List.append_nil]
    rw [writeToLz4_fault (by exact cannot) filled,Option.bind_none,Option.map_none]

theorem writeChunks_empty {chunks : List (List UInt8)} (empty : chunks.flatten = []) (h : Out κ χ) :
    writeChunks lib h chunks = some h := by
  induction chunks with
  | nil => rfl
  | cons d chunks ih =>
    obtain ⟨none,rest⟩ := List.append_eq_nil_iff.mp (List.flatten_cons.symm.trans empty)
    rw [writeChunks,acOutWrite,if_pos (by simp [none]),Option.bind_some]
    exact ih rest

variable (lib) in
/-- Chunks without bytes make a frame without blocks. -/
theorem writeFile_empty (options : AcOutOptions) (memory : XxhState χ) (ctx : κ) {chunks : List (List UInt8)}
    (empty : chunks.flatten = []) :
    ∃ file, writeFile lib options memory ctx chunks = some file ∧ Frame lib options [] file := by
  obtain ⟨ends,short⟩ := finish_atEnd lib (l := (acOutInitLz4 options memory ctx).lz4) rfl
  have buffer : (acOutInitLz4 options memory ctx).buffer = [] := rfl
  have flushed : writeToLz4 lib (acOutInitLz4 options memory ctx) [] = some (writeToFd (acOutInitLz4 options memory ctx)) := by
    rw [writeToLz4,if_pos List.length_nil]
  rw [writeFile,writeChunks_empty empty,Option.bind_some,acOutWriteLz4]
  simp only [buffer,List.length_nil,Nat.add_zero,Nat.zero_le,if_true,ne_eq,not_true_eq_false,if_false,List.append_nil]
  have same : { acOutInitLz4 options memory ctx with buffer := [] } = acOutInitLz4 options memory ctx := rfl
  have lz4 : (writeToFd (acOutInitLz4 options memory ctx)).lz4 = (acOutInitLz4 options memory ctx).lz4 := rfl
  have buffer2 : (writeToFd (acOutInitLz4 options memory ctx)).buffer2 = [] := rfl
  simp only [same,flushed,Option.bind_some,lz4,buffer2,List.nil_append,List.length_nil,Nat.zero_add]
  rw [if_neg (by omega),writeToLz4,if_pos List.length_nil,Option.map_some]
  exact ⟨_,rfl,nofun,_,ends,by simp [writeToFd,acOutInitLz4,acLz4Init]⟩

end
end AnotherC.Lz4
