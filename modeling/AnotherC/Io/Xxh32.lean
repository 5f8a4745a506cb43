import AnotherC.Io.Lz4

/-!
# The streamed hash: `XXH32` of `xxhash.c`

The hash goes over the input in stripes of 16 bytes and finishes with the rest. A
streamed hash keeps the rest for the next update: after a reset and any updates it
is at `Hashed` of all that was given to it, and its digest is the hash of that
(`digest_hashed`).
-/
namespace AnotherC.Xxh32
open AnotherC.Lib.Bytes
open AnotherC.Lz4 (Library XxhState xxh32Update)
set_option linter.unusedVariables false

def prime1 : UInt32 := 2654435761
def prime2 : UInt32 := 2246822519
def prime3 : UInt32 := 3266489917
def prime4 : UInt32 := 668265263
def prime5 : UInt32 := 374761393

/-- `XXH_rotl32`. -/
def rotl (x r : UInt32) : UInt32 := (x <<< r) ||| (x >>> (32 - r))

def round (seed input : UInt32) : UInt32 := rotl (seed + input * prime2) 13 * prime1

def avalanche (h : UInt32) : UInt32 :=
  let h := (h ^^^ (h >>> 15)) * prime2
  let h := (h ^^^ (h >>> 13)) * prime3
  h ^^^ (h >>> 16)

/-- `XXH_readLE32`. -/
def readLE32 (p : List UInt8) : UInt32 := UInt32.ofNat (number (p.take 4))

/-- `XXH32_finalize`: words of four bytes, then single bytes. -/
def finalize : UInt32 → List UInt8 → UInt32
  | h, a :: b :: c :: d :: p => finalize (rotl (h + readLE32 [a,b,c,d] * prime3) 17 * prime4) p
  | h, a :: p => finalize (rotl (h + UInt32.ofNat a.toNat * prime5) 11 * prime1) p
  | h, [] => avalanche h

/-- `v1` to `v4`. -/
structure Lanes where
  v1 : UInt32
  v2 : UInt32
  v3 : UInt32
  v4 : UInt32
deriving Repr, DecidableEq

/-- The lanes of an empty input, with seed 0. -/
def seeds : Lanes := ⟨prime1 + prime2,prime2,0,0 - prime1⟩

def stripe (v : Lanes) (p : List UInt8) : Lanes :=
  ⟨round v.v1 (readLE32 p),round v.v2 (readLE32 (p.drop 4)),round v.v3 (readLE32 (p.drop 8)),
    round v.v4 (readLE32 (p.drop 12))⟩

/-- The loop over the whole stripes. -/
def stripes (v : Lanes) (p : List UInt8) : Lanes :=
  if short : p.length < 16 then v else stripes (stripe v p) (p.drop 16)
termination_by p.length
decreasing_by
  rw [List.length_drop]
  omega

/-- What the loop leaves. -/
def remainder (p : List UInt8) : List UInt8 := p.drop (16 * (p.length / 16))

def merge (v : Lanes) : UInt32 := rotl v.v1 1 + rotl v.v2 7 + rotl v.v3 12 + rotl v.v4 18

/-- `XXH32` with seed 0. -/
def xxh32 (input : List UInt8) : UInt32 :=
  let h := if input.length ≥ 16 then merge (stripes seeds input) else 0 + prime5
  finalize (h + UInt32.ofNat input.length) (remainder input)

/-! ### Streaming -/

/-- `XXH32_state_t` besides `memsize`; `large` is whether `large_len` is not 0. -/
structure Words where
  totalLen : UInt32
  large : Bool
  lanes : Lanes
  mem32 : List UInt8
deriving Repr, DecidableEq

/-- `memcpy` into `mem32`. -/
def overwrite (mem : List UInt8) (start : Nat) (p : List UInt8) : List UInt8 :=
  mem.take start ++ p ++ mem.drop (start + p.length)

def reset : Words := ⟨0,false,seeds,List.replicate 16 0⟩

/-- `XXH32_update`, where `memsize` is at most 16. -/
def absorb (s : Words) (memsize : Nat) (input : List UInt8) : Words :=
  let totalLen := s.totalLen + UInt32.ofNat input.length
  let large := s.large || decide (input.length ≥ 16) || decide (totalLen ≥ 16)
  if memsize + input.length < 16 then ⟨totalLen,large,s.lanes,overwrite s.mem32 memsize input⟩
  else if memsize = 0 then
    ⟨totalLen,large,stripes s.lanes input,overwrite s.mem32 0 (remainder input)⟩
  else
    let mem := overwrite s.mem32 memsize (input.take (16 - memsize))
    let p := input.drop (16 - memsize)
    ⟨totalLen,large,stripes (stripe s.lanes mem) p,overwrite mem 0 (remainder p)⟩

/-- `XXH32_digest`. -/
def digest (s : Words) (memsize : Nat) : UInt32 :=
  let h := if s.large then merge s.lanes else s.lanes.v3 + prime5
  finalize (h + s.totalLen) (s.mem32.take (memsize % 16))

/-- The library with this hash. -/
def library {κ : Type} (compressFast compressHC : κ → List UInt8 → Nat → Int → List UInt8 × κ)
    (decompressSafe : List UInt8 → Nat → Option (List UInt8)) : Library κ Words :=
  ⟨compressFast,compressHC,decompressSafe,xxh32,reset,absorb,digest⟩

example : xxh32 [] = 0x02CC5D05 := by decide

/-! ### Stripes -/

theorem remainder_length (p : List UInt8) : (remainder p).length = p.length % 16 := by
  rw [remainder,List.length_drop]
  omega

theorem remainder_short {p : List UInt8} (short : p.length < 16) : remainder p = p := by
  rw [remainder,Nat.div_eq_of_lt short]
  rfl

theorem remainder_drop {p : List UInt8} (enough : 16 ≤ p.length) : remainder p = remainder (p.drop 16) := by
  rw [remainder,remainder,List.drop_drop,List.length_drop]
  congr 1
  omega

theorem stripe_take (v : Lanes) (p : List UInt8) : stripe v (p.take 16) = stripe v p := by
  simp only [stripe,readLE32,List.drop_take,List.take_take]
  rfl

/-- The loop over an input is the loop over the stripes of its beginning, and then
    over what these leave with the rest. -/
theorem stripes_append (v : Lanes) (xs ys : List UInt8) :
    stripes v (xs ++ ys) = stripes (stripes v xs) (remainder xs ++ ys) ∧
      remainder (xs ++ ys) = remainder (remainder xs ++ ys) := by
  induction unread : xs.length using Nat.strongRecOn generalizing v xs with
  | ind unread ih =>
    by_cases short : xs.length < 16
    · rw [remainder_short short,stripes.eq_1 v xs,dif_pos short]
      exact ⟨rfl,rfl⟩
    · have enough : 16 ≤ xs.length := by omega
      obtain ⟨lanes,left⟩ := ih (xs.drop 16).length (by rw [List.length_drop]; omega) (stripe v xs) (xs.drop 16) rfl
      have dropped : (xs ++ ys).drop 16 = xs.drop 16 ++ ys := List.drop_append_of_le_length enough
      have first : stripe v (xs ++ ys) = stripe v xs := by
        rw [← stripe_take v (xs ++ ys), ← stripe_take v xs,List.take_append_of_le_length enough]
      have long : ¬ (xs ++ ys).length < 16 := by
        rw [List.length_append]
        omega
      rw [stripes.eq_1 v (xs ++ ys),dif_neg long,dropped,first,stripes.eq_1 v xs,dif_neg short,remainder_drop enough,
        remainder_drop (p := xs ++ ys) (by omega),dropped]
      exact ⟨lanes,left⟩

/-! ### The state after an input -/

/-- The state has taken in `content`. -/
structure Hashed (s : Words) (memsize : Nat) (content : List UInt8) : Prop where
  totalLen : s.totalLen = UInt32.ofNat content.length
  large : s.large = decide (content.length ≥ 16)
  lanes : s.lanes = stripes seeds content
  size : memsize = content.length % 16
  room : s.mem32.length = 16
  mem32 : s.mem32.take memsize = remainder content

theorem reset_hashed : Hashed reset 0 [] := by
  refine ⟨rfl,rfl,?_,rfl,rfl,rfl⟩
  rw [stripes]
  rfl

theorem overwrite_length (mem p : List UInt8) (start : Nat) (inside : start + p.length ≤ mem.length) :
    (overwrite mem start p).length = mem.length := by
  simp only [overwrite,List.length_append,List.length_take,List.length_drop]
  omega

theorem overwrite_take (mem p : List UInt8) (start : Nat) (inside : start + p.length ≤ mem.length) :
    (overwrite mem start p).take (start + p.length) = mem.take start ++ p := by
  rw [overwrite]
  apply List.take_left'
  rw [List.length_append,List.length_take]
  omega

/-- Some update has seen 16 bytes, or the total has not wrapped around. -/
theorem large_total (n m : Nat) :
    (decide (n ≥ 16) || decide (m ≥ 16) || decide (UInt32.ofNat n + UInt32.ofNat m ≥ 16)) = decide (n + m ≥ 16) := by
  have sum : (UInt32.ofNat n + UInt32.ofNat m).toNat = (n + m) % 2 ^ 32 := by
    rw [UInt32.toNat_add,UInt32.toNat_ofNat',UInt32.toNat_ofNat', ← Nat.add_mod]
  have word : UInt32.ofNat n + UInt32.ofNat m ≥ 16 ↔ (n + m) % 2 ^ 32 ≥ 16 := by
    rw [ge_iff_le,UInt32.le_iff_toNat_le,sum]
    rfl
  rw [Bool.eq_iff_iff]
  simp only [Bool.or_eq_true,decide_eq_true_eq,word]
  have below := Nat.mod_le (n + m) (2 ^ 32)
  constructor
  · omega
  · intro many
    by_cases small : n + m < 2 ^ 32
    · right
      rw [Nat.mod_eq_of_lt small]
      exact many
    · left
      omega

/-- An update takes in its input. -/
theorem absorb_hashed {s : Words} {memsize : Nat} {content : List UInt8} (hashed : Hashed s memsize content)
    (input : List UInt8) :
    Hashed (absorb s memsize input) ((memsize + input.length) % 16) (content ++ input) := by
  have kept := hashed.size
  have room := hashed.room
  have left := remainder_length content
  have below : memsize < 16 := by
    rw [kept]
    exact Nat.mod_lt _ (by decide)
  obtain ⟨lanes,rest⟩ := stripes_append seeds content input
  have total : s.totalLen + UInt32.ofNat input.length = UInt32.ofNat (content ++ input).length := by
    rw [hashed.totalLen,List.length_append,UInt32.ofNat_add]
  have large : (s.large || decide (input.length ≥ 16) || decide (s.totalLen + UInt32.ofNat input.length ≥ 16)) =
      decide ((content ++ input).length ≥ 16) := by
    rw [hashed.large,hashed.totalLen,large_total,List.length_append]
  have size : (memsize + input.length) % 16 = (content ++ input).length % 16 := by
    rw [List.length_append,kept]
    omega
  have already := hashed.lanes
  have held := hashed.mem32
  rw [← kept] at left
  rw [← already] at lanes
  unfold absorb
  dsimp only
  by_cases few : memsize + input.length < 16
  · have short : (remainder content ++ input).length < 16 := by
      rw [List.length_append]
      omega
    rw [if_pos few]
    refine ⟨total,large,?_,size,?_,?_⟩
    · rw [lanes,stripes.eq_1 s.lanes,dif_pos short]
    · rw [overwrite_length _ _ _ (by omega)]
      exact room
    · rw [rest,remainder_short short,Nat.mod_eq_of_lt few,overwrite_take _ _ _ (by omega),held]
  · rw [if_neg few]
    by_cases zero : memsize = 0
    · have nothing : remainder content = [] := List.length_eq_zero_iff.mp (left.trans zero)
      rw [if_pos zero]
      rw [nothing,List.nil_append] at lanes rest
      have fits : 0 + (remainder input).length ≤ s.mem32.length := by
        rw [remainder_length]
        omega
      refine ⟨total,large,lanes.symm,size,?_,?_⟩
      · rw [overwrite_length _ _ _ fits]
        exact room
      · have taken := overwrite_take _ _ _ fits
        rw [remainder_length,Nat.zero_add,List.take_zero,List.nil_append] at taken
        rw [rest,zero,Nat.zero_add]
        exact taken
    · rw [if_neg zero]
      have first : (input.take (16 - memsize)).length = 16 - memsize := by
        rw [List.length_take]
        omega
      have whole : overwrite s.mem32 memsize (input.take (16 - memsize)) = (remainder content ++ input).take 16 := by
        rw [List.take_append,List.take_of_length_le (by omega : (remainder content).length ≤ 16),left, ← held]
        have all := overwrite_take s.mem32 (input.take (16 - memsize)) memsize (by omega)
        have length := overwrite_length s.mem32 (input.take (16 - memsize)) memsize (by omega)
        rw [List.take_of_length_le (by omega)] at all
        exact all
      have later : (remainder content ++ input).drop 16 = input.drop (16 - memsize) := by
        rw [List.drop_append,List.drop_of_length_le (by omega : (remainder content).length ≤ 16),left]
        rfl
      have long : ¬ (remainder content ++ input).length < 16 := by
        rw [List.length_append]
        omega
      rw [whole,stripe_take, ← later]
      have fits : 0 + (remainder ((remainder content ++ input).drop 16)).length ≤
          ((remainder content ++ input).take 16).length := by
        rw [remainder_length,List.length_take]
        omega
      refine ⟨total,large,?_,size,?_,?_⟩
      · rw [lanes,stripes.eq_1 s.lanes,dif_neg long]
      · rw [overwrite_length _ _ _ fits,List.length_take]
        omega
      · have taken := overwrite_take _ _ _ fits
        rw [remainder_length,Nat.zero_add,List.take_zero,List.nil_append] at taken
        rw [rest,remainder_drop (p := remainder content ++ input) (by omega)]
        refine Eq.trans ?_ taken
        congr 1
        rw [later,List.length_drop]
        omega

/-- The digest is the hash of all that was taken in. -/
theorem digest_hashed {s : Words} {memsize : Nat} {content : List UInt8} (hashed : Hashed s memsize content) :
    digest s memsize = xxh32 content := by
  have kept := hashed.size
  have small : memsize % 16 = memsize := by
    rw [kept]
    exact Nat.mod_mod _ _
  rw [digest,xxh32,hashed.large,hashed.lanes,hashed.totalLen,small,hashed.mem32]
  by_cases large : content.length ≥ 16
  · simp only [large,decide_true,if_true]
  · have none : stripes seeds content = seeds := by
      rw [stripes,dif_pos (by omega)]
    simp only [large,decide_false,Bool.false_eq_true,if_false,none]
    rfl

end AnotherC.Xxh32
