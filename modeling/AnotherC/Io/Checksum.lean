import AnotherC.Io.Lz4In
import AnotherC.Io.Xxh32

/-!
# The content checksum of an LZ4 output

The hash of the content goes on, block by block, from what the memory of the output
held: `ac_lz4_init` does not reset it. From the state that `XXH32_reset` leaves the
checksum is that of the content; from whatever the memory holds it is not
(`content_checksum`).
-/
namespace AnotherC.Lz4
open AnotherC.Lib.Bytes
open AnotherC.Xxh32 (Words Hashed library)
set_option linter.unusedVariables false

section
variable {κ : Type} {fast hc : κ → List UInt8 → Nat → Int → List UInt8 × κ}
  {decompressSafe : List UInt8 → Nat → Option (List UInt8)}

/-- The hash of a compressor has taken in `content`. -/
def Sums (l : AcLz4 κ Words) (content : List UInt8) : Prop :=
  l.contentChecksum = true ∧ l.ctx.isSome = true ∧ Hashed l.xxh.words l.xxh.memsize content

theorem update_hashed {state state' : XxhState Words} {content input : List UInt8}
    (hashed : Hashed state.words state.memsize content)
    (updated : xxh32Update (library fast hc decompressSafe) state input = some state') :
    Hashed state'.words state'.memsize (content ++ input) := by
  have next := Xxh32.absorb_hashed hashed input
  rw [xxh32Update] at updated
  split at updated
  case isTrue few =>
    cases updated
    rw [Nat.mod_eq_of_lt few] at next
    exact next
  case isFalse =>
    split at updated
    · cases updated
    · cases updated
      exact next

theorem compressBlock_sums {l l' : AcLz4 κ Words} {ctx : κ} {content src block : List UInt8} {destLen : Nat}
    (sums : Sums l content)
    (wrote : acLz4CompressBlock (library fast hc decompressSafe) l ctx src destLen = some (block,l')) :
    Sums l' (content ++ src) := by
  obtain ⟨on,_,hashed⟩ := sums
  simp only [acLz4CompressBlock,on,if_true,Option.bind_eq_some_iff,Option.ite_none_left_eq_some,Option.some.injEq,
    Prod.mk.injEq] at wrote
  obtain ⟨xxh,updated,_,_,rfl⟩ := wrote
  exact ⟨rfl,rfl,update_hashed hashed updated⟩

/-- The bytes that go to `_write_to_lz4` are taken in. -/
theorem writeToLz4_sums {h h' : Out κ Words} {content p : List UInt8} (sums : Sums h.lz4 content)
    (wrote : writeToLz4 (library fast hc decompressSafe) h p = some h') :
    Sums h'.lz4 (content ++ p) ∧ h'.buffer = h.buffer ∧ h'.bufferSize = h.bufferSize := by
  induction used : h.buffer2.length using Nat.strongRecOn generalizing h with
  | ind used ih =>
    rw [writeToLz4] at wrote
    split at wrote
    case isTrue none =>
      cases wrote
      rw [List.length_eq_zero_iff.mp none,List.append_nil]
      exact ⟨sums,rfl,rfl⟩
    case isFalse =>
      split at wrote
      case isTrue =>
        simp only [Option.bind_eq_some_iff,Option.map_eq_some_iff] at wrote
        obtain ⟨ctx,_,⟨block,l⟩,compressed,rfl⟩ := wrote
        have next := compressBlock_sums sums compressed
        split <;> exact ⟨next,rfl,rfl⟩
      case isFalse =>
        split at wrote
        · cases wrote
        case isFalse some =>
          exact ih (writeToFd h).buffer2.length (by rw [← used]; simp only [writeToFd,List.length_nil]; omega)
            (h := writeToFd h) sums wrote rfl

theorem writeBlocks_sums {h h' : Out κ Words} {content d : List UInt8} (sums : Sums h.lz4 content)
    (wrote : writeBlocks (library fast hc decompressSafe) h d = some h') :
    ∃ more, Sums h'.lz4 (content ++ more) ∧ more ++ h'.buffer = d ∧ h'.buffer.length ≤ h'.bufferSize := by
  induction length : d.length using Nat.strongRecOn generalizing h content d with
  | ind length ih =>
    rw [writeBlocks] at wrote
    split at wrote
    case isTrue enough =>
      split at wrote
      · cases wrote
      case isFalse positive =>
        obtain ⟨h₁,first,rest⟩ := Option.bind_eq_some_iff.mp wrote
        obtain ⟨next,_,_⟩ := writeToLz4_sums sums first
        obtain ⟨more,last,whole,inside⟩ := ih (d.drop h.bufferSize).length
          (by rw [← length,List.length_drop]; omega) next rest rfl
        refine ⟨d.take h.bufferSize ++ more,by rw [← List.append_assoc]; exact last,?_,inside⟩
        rw [List.append_assoc,whole,List.take_append_drop]
    case isFalse few =>
      cases wrote
      refine ⟨[],by rw [List.append_nil]; exact sums,rfl,?_⟩
      dsimp only
      omega

/-- The output has taken in `content`, up to what is in its buffer. -/
def Gathers (h : Out κ Words) (content : List UInt8) : Prop :=
  ∃ done, Sums h.lz4 done ∧ done ++ h.buffer = content ∧ h.buffer.length ≤ h.bufferSize

theorem write_gathers {h h' : Out κ Words} {content d : List UInt8} (gathers : Gathers h content)
    (wrote : acOutWrite (library fast hc decompressSafe) h d = some h') : Gathers h' (content ++ d) := by
  obtain ⟨done,sums,same,inside⟩ := gathers
  rw [acOutWrite] at wrote
  split at wrote
  case isTrue none =>
    cases wrote
    rw [List.length_eq_zero_iff.mp none,List.append_nil]
    exact ⟨done,sums,same,inside⟩
  case isFalse some =>
    rw [acOutWriteLz4] at wrote
    split at wrote
    case isTrue fits =>
      cases wrote
      refine ⟨done,sums,?_,?_⟩
      · rw [← same,List.append_assoc]
      · rw [List.length_append]
        exact fits
    case isFalse =>
      obtain ⟨h₁,first,rest⟩ := Option.bind_eq_some_iff.mp wrote
      obtain ⟨next,_,_⟩ := writeToLz4_sums sums first
      obtain ⟨more,last,whole,within⟩ := writeBlocks_sums (h := { h₁ with buffer := [] }) next rest
      refine ⟨_,last,?_,within⟩
      rw [← same,List.append_assoc,whole,List.append_assoc,List.append_assoc,List.append_assoc,List.take_append_drop]

theorem writeChunks_gathers {chunks : List (List UInt8)} {h h' : Out κ Words} {content : List UInt8}
    (gathers : Gathers h content) (wrote : writeChunks (library fast hc decompressSafe) h chunks = some h') :
    Gathers h' (content ++ chunks.flatten) := by
  induction chunks generalizing h content with
  | nil =>
    cases wrote
    simpa using gathers
  | cons d chunks ih =>
    obtain ⟨h₁,first,rest⟩ := Option.bind_eq_some_iff.mp wrote
    have next := ih (write_gathers gathers first) rest
    rw [List.flatten_cons, ← List.append_assoc]
    exact next

/-- The frame ends with the digest of all that was taken in. -/
theorem finish_sums {h h' : Out κ Words} {content : List UInt8} (gathers : Gathers h content)
    (wrote : acOutWriteLz4 (library fast hc decompressSafe) h [] = some h') :
    h'.file.drop (h'.file.length - 4) = bytes 4 (Xxh32.xxh32 content).toNat := by
  obtain ⟨done,sums,same,inside⟩ := gathers
  rw [acOutWriteLz4] at wrote
  simp only [List.length_nil,Nat.add_zero,inside,if_true,ne_eq,not_true_eq_false,if_false,List.append_nil] at wrote
  obtain ⟨h₁,first,rest⟩ := Option.bind_eq_some_iff.mp wrote
  obtain ⟨⟨on,compressor,hashed⟩,_,_⟩ := writeToLz4_sums sums first
  obtain ⟨ctx,present⟩ := Option.isSome_iff_exists.mp compressor
  have digest := Xxh32.digest_hashed hashed
  rw [same] at digest
  have finish : (acLz4Finish (library fast hc decompressSafe) h₁.lz4 []).2 =
      bytes 4 0 ++ bytes 4 (Xxh32.xxh32 content).toNat := by
    rw [acLz4Finish,present]
    simp only [on,if_true]
    rw [← digest]
    rfl
  rw [finish] at rest
  split at rest
  · cases rest
  · rw [writeToLz4,if_pos List.length_nil] at rest
    cases rest
    simp only [writeToFd]
    rw [← List.append_assoc, ← List.append_assoc]
    apply List.drop_left'
    simp only [List.length_append,bytes_length]
    omega

/-- The four bytes behind the end mark are the hash of the content. -/
def ChecksumRight (lib : Library κ Words) (options : AcOutOptions) (memory : XxhState Words) (ctx : κ)
    (chunks : List (List UInt8)) : Prop :=
  ∃ file, writeFile lib options memory ctx chunks = some file ∧
    file.drop (file.length - 4) = bytes 4 (Xxh32.xxh32 chunks.flatten).toNat

/-- From the state that a reset leaves the checksum is right. -/
theorem reset_right (lawful : Lawful (library fast hc decompressSafe)) {options : AcOutOptions}
    (on : options.contentChecksum = true) (ctx : κ) (chunks : List (List UInt8)) :
    ChecksumRight (library fast hc decompressSafe) options ⟨0,Xxh32.reset⟩ ctx chunks := by
  obtain ⟨file,_,wrote,_,_⟩ :=
    writeFile_frame lawful options (.inr (by unfold XxhState.Ready; decide) : _ ∨ XxhState.Ready ⟨0,Xxh32.reset⟩) ctx chunks
  refine ⟨file,wrote,?_⟩
  obtain ⟨h,chunksWrote,rest⟩ := Option.bind_eq_some_iff.mp wrote
  obtain ⟨h',finished,rfl⟩ := Option.map_eq_some_iff.mp rest
  have start : Gathers (acOutInitLz4 options ⟨0,Xxh32.reset⟩ ctx) [] :=
    ⟨[],⟨on,rfl,Xxh32.reset_hashed⟩,rfl,Nat.zero_le _⟩
  have gathers := writeChunks_gathers start chunksWrote
  rw [List.nil_append] at gathers
  exact finish_sums gathers finished

end

/-- Without bytes the checksum is the digest of the memory as it is. -/
theorem empty_digest {κ : Type} (lib : Library κ Words) {options : AcOutOptions} (on : options.contentChecksum = true)
    (memory : XxhState Words) (ctx : κ) {chunks : List (List UInt8)} (empty : chunks.flatten = []) {file : List UInt8}
    (wrote : writeFile lib options memory ctx chunks = some file) :
    file.drop (file.length - 4) = bytes 4 (lib.digest memory.words memory.memsize).toNat := by
  have finish : (acLz4Finish lib (acOutInitLz4 options memory ctx).lz4 []).2 =
      bytes 4 0 ++ bytes 4 (lib.digest memory.words memory.memsize).toNat := by
    simp only [acLz4Finish,acOutInitLz4,acLz4Init,on,if_true]
  have buffer : (acOutInitLz4 options memory ctx).buffer = [] := rfl
  have flushed : writeToLz4 lib (acOutInitLz4 options memory ctx) [] = some (writeToFd (acOutInitLz4 options memory ctx)) := by
    rw [writeToLz4,if_pos List.length_nil]
  have same : { acOutInitLz4 options memory ctx with buffer := [] } = acOutInitLz4 options memory ctx := rfl
  have lz4 : (writeToFd (acOutInitLz4 options memory ctx)).lz4 = (acOutInitLz4 options memory ctx).lz4 := rfl
  rw [writeFile,writeChunks_empty empty,Option.bind_some,acOutWriteLz4] at wrote
  simp only [buffer,List.length_nil,Nat.add_zero,Nat.zero_le,if_true,ne_eq,not_true_eq_false,if_false,List.append_nil,
    same,flushed,Option.bind_some,lz4,finish] at wrote
  split at wrote
  · cases wrote
  · rw [writeToLz4,if_pos List.length_nil] at wrote
    cases wrote
    simp only [writeToFd,List.nil_append]
    rw [← List.append_assoc]
    apply List.drop_left'
    simp only [List.length_append,bytes_length]
    omega

/-- The checksum is right from the state that a reset leaves, and for no content it
    is right whatever the memory holds. -/
theorem content_checksum {κ : Type} {fast hc : κ → List UInt8 → Nat → Int → List UInt8 × κ}
    {decompressSafe : List UInt8 → Nat → Option (List UInt8)} (lawful : Lawful (library fast hc decompressSafe))
    (options : AcOutOptions) (on : options.contentChecksum = true) (ctx : κ) (chunks : List (List UInt8)) :
    ChecksumRight (library fast hc decompressSafe) options ⟨0,Xxh32.reset⟩ ctx chunks ∧
      ¬ ∀ memory, ChecksumRight (library fast hc decompressSafe) options memory ctx chunks := by
  refine ⟨reset_right lawful on ctx chunks,fun always => ?_⟩
  by_cases empty : chunks.flatten = []
  · obtain ⟨file,wrote,right⟩ := always ⟨0,{ Xxh32.reset with totalLen := 1 }⟩
    rw [empty_digest _ on _ _ empty wrote,empty] at right
    have differs : bytes 4 (Xxh32.digest { Xxh32.reset with totalLen := 1 } 0).toNat ≠ bytes 4 (Xxh32.xxh32 []).toNat := by
      decide
    exact differs right
  · obtain ⟨file,wrote,_⟩ := always ⟨17,Xxh32.reset⟩
    rw [writeFile_fault options (by simp [on,XxhState.Ready]) ctx empty] at wrote
    cases wrote

/-- The library with a compressor that finds no matches. -/
def literalXxh32 : Library Unit Words :=
  library (fun ctx src _ _ => (literals src,ctx)) (fun ctx src _ _ => (literals src,ctx)) unliterals

theorem literalXxh32_lawful : Lawful literalXxh32 := ⟨literals_inverts,literals_inverts⟩

theorem content_checksum_hello :
    ChecksumRight literalXxh32 (frameOptions true) ⟨0,Xxh32.reset⟩ () [[104,101],[],[108,108,111]] ∧
      ¬ ∀ memory, ChecksumRight literalXxh32 (frameOptions true) memory () [[104,101],[],[108,108,111]] :=
  content_checksum literalXxh32_lawful (frameOptions true) rfl () [[104,101],[],[108,108,111]]

/-- A length of 17 in the memory has the first byte written outside of the state, and
    with a total length of 1 the checksum of nothing is another one. -/
theorem memory_shows : ¬ ChecksumRight literalXxh32 (frameOptions true) ⟨17,Xxh32.reset⟩ () [[104]] ∧
    ¬ ChecksumRight literalXxh32 (frameOptions true) ⟨0,{ Xxh32.reset with totalLen := 1 }⟩ () [] := by
  constructor
  · rintro ⟨file,wrote,_⟩
    rw [writeFile_fault (frameOptions true) (by simp [frameOptions,XxhState.Ready]) () (by simp)] at wrote
    cases wrote
  · rintro ⟨file,wrote,right⟩
    rw [empty_digest literalXxh32 rfl _ () rfl wrote] at right
    have differs : bytes 4 (Xxh32.digest { Xxh32.reset with totalLen := 1 } 0).toNat ≠ bytes 4 (Xxh32.xxh32 []).toNat := by
      decide
    exact differs right

end AnotherC.Lz4
