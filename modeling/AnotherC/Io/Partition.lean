import AnotherC.Lib.Bytes
import AnotherC.Lib.Memory

/-!
# `ac_io_hash_partition`

A partitioned output asks a function of the record which of its files the record belongs in, and
this one hashes the bytes of the record from an offset on. The range it hashes ends one byte
behind the record, so that the partition is that of the record and of the byte that follows it
(`same_partition_iff`). `ac_lz4_hash64` is `XXH64` of `xxhash.c` with seed 0.
-/
namespace AnotherC.Partition
open AnotherC.Lib.Bytes (number)
open AnotherC.Lib.Memory
set_option linter.unusedVariables false

/-! ## `XXH64` -/

def prime1 : UInt64 := 11400714785074694791
def prime2 : UInt64 := 14029467366897019727
def prime3 : UInt64 := 1609587929392839161
def prime4 : UInt64 := 9650029242287828579
def prime5 : UInt64 := 2870177450012600261

/-- `XXH_rotl64`. -/
def rotl (x r : UInt64) : UInt64 := (x <<< r) ||| (x >>> (64 - r))

def round (acc input : UInt64) : UInt64 := rotl (acc + input * prime2) 31 * prime1

def mergeRound (acc val : UInt64) : UInt64 := (acc ^^^ round 0 val) * prime1 + prime4

def avalanche (h : UInt64) : UInt64 :=
  let h := (h ^^^ (h >>> 33)) * prime2
  let h := (h ^^^ (h >>> 29)) * prime3
  h ^^^ (h >>> 32)

/-- `XXH_get64bits` and `XXH_get32bits`. -/
def readLE (p : List UInt8) : UInt64 := UInt64.ofNat (number p)

/-- `XXH64_finalize`: words of eight bytes, then one of four, then single bytes. -/
def finalize : UInt64 → List UInt8 → UInt64
  | h, a :: b :: c :: d :: e :: f :: g :: i :: p => finalize (rotl (h ^^^ round 0 (readLE [a,b,c,d,e,f,g,i])) 27 * prime1 + prime4) p
  | h, a :: b :: c :: d :: p => finalize (rotl (h ^^^ readLE [a,b,c,d] * prime1) 23 * prime2 + prime3) p
  | h, a :: p => finalize (rotl (h ^^^ UInt64.ofNat a.toNat * prime5) 11 * prime1) p
  | h, [] => avalanche h

/-- `v1` to `v4`. -/
structure Lanes where
  v1 : UInt64
  v2 : UInt64
  v3 : UInt64
  v4 : UInt64
deriving Repr, DecidableEq

def stripe (v : Lanes) (p : List UInt8) : Lanes :=
  ⟨round v.v1 (readLE (p.take 8)),round v.v2 (readLE ((p.drop 8).take 8)),round v.v3 (readLE ((p.drop 16).take 8)),
    round v.v4 (readLE ((p.drop 24).take 8))⟩

/-- The loop over the whole stripes of 32 bytes, and what it leaves. -/
def stripes (v : Lanes) (p : List UInt8) : Lanes × List UInt8 :=
  if short : p.length < 32 then (v,p) else stripes (stripe v p) (p.drop 32)
termination_by p.length
decreasing_by
  rw [List.length_drop]
  omega

/-- `XXH64` with seed 0. -/
def xxh64 (input : List UInt8) : UInt64 :=
  let len := UInt64.ofNat input.length
  if input.length ≥ 32 then
    let (v,rest) := stripes ⟨prime1 + prime2,prime2,0,0 - prime1⟩ input
    let h := rotl v.v1 1 + rotl v.v2 7 + rotl v.v3 12 + rotl v.v4 18
    finalize (mergeRound (mergeRound (mergeRound (mergeRound h v.v1) v.v2) v.v3) v.v4 + len) rest
  else finalize (prime5 + len) input

/-- `ac_lz4_hash64`. -/
def acLz4Hash64 (s : List UInt8) : Nat := (xxh64 s).toNat

/-! ## The code -/

/-- `ac_io_record_t`; the record is an address, and its length has 32 bits. -/
structure Record where
  record : Nat
  length : Nat
  tag : Int
deriving Repr, DecidableEq

/-- `(r->length - offs) + 1`, in `size_t`. -/
def hashedSize (length offs : Nat) : Nat := (((length : Int) - offs + 1) % 2 ^ 64).toNat

/-- `ac_io_hash_partition`, with the memory. -/
def acIoHashPartition (hash64 : List UInt8 → Nat) (m : Memory) (r : Record) (numPart : Nat) (arg : Option Nat) : Nat :=
  let offs := arg.getD 0
  hash64 (read m (r.record + offs) (hashedSize r.length offs)) % numPart

/-- `write_partitioned_record`: the file that the record is written to, if there is one. -/
def writePartitionedRecord (partition : Record → Nat) (numPartitions d len : Nat) : Option Nat :=
  let p := partition ⟨d,len % 2 ^ 32,0⟩
  if p ≥ numPartitions then none else some p

/-- `ac_out_write_record` of an output that is partitioned by the hash. -/
def hashPartitioned (hash64 : List UInt8 → Nat) (numPartitions : Nat) (arg : Option Nat) (m : Memory) (d len : Nat) : Option Nat :=
  writePartitionedRecord (fun r => acIoHashPartition hash64 m r numPartitions arg) numPartitions d len

/-! ## Two calls -/

section
variable {m₁ m₂ : Memory} {d₁ d₂ : Nat}

theorem read_same_iff (len : Nat) : read m₁ d₁ len = read m₂ d₂ len ↔ ∀ i, i < len → m₁ (d₁ + i) = m₂ (d₂ + i) := by
  constructor
  · intro same i inside
    have here := congrArg (fun l : List UInt8 => l[i]?) same
    simp only [read_getElem _ _ inside,Option.some.injEq] at here
    exact here
  · intro same
    refine List.ext_getElem? fun i => ?_
    by_cases inside : i < len
    · rw [read_getElem _ _ inside,read_getElem _ _ inside,same i inside]
    · rw [List.getElem?_eq_none (by rw [read_length]; exact Nat.not_lt.mp inside),
        List.getElem?_eq_none (by rw [read_length]; exact Nat.not_lt.mp inside)]

/-- Whatever the hash is, a record goes to the file of what is hashed. -/
theorem hashPartitioned_eq {hash64 : List UInt8 → Nat} {numPart : Nat} (parts : 0 < numPart) (arg : Option Nat) (m : Memory) (d len : Nat) :
    hashPartitioned hash64 numPart arg m d len =
      some (hash64 (read m (d + arg.getD 0) (hashedSize (len % 2 ^ 32) (arg.getD 0))) % numPart) := by
  have inside : ¬ hash64 (read m (d + arg.getD 0) (hashedSize (len % 2 ^ 32) (arg.getD 0))) % numPart ≥ numPart :=
    Nat.not_le.mpr (Nat.mod_lt _ parts)
  exact if_neg inside

/-- All functions of the bytes give the same file only where there is one file, or the bytes are
    the same. -/
theorem all_hashes {numPart : Nat} (parts : 0 < numPart) (xs ys : List UInt8) :
    (∀ hash64 : List UInt8 → Nat, hash64 xs % numPart = hash64 ys % numPart) ↔ numPart = 1 ∨ xs = ys := by
  constructor
  · intro same
    by_cases one : numPart = 1
    · exact .inl one
    · by_contra differ
      rw [not_or] at differ
      have other : ¬ ys = xs := fun equal => differ.2 equal.symm
      have apart := same fun l => if l = xs then 0 else 1
      simp only [if_true,if_neg other,Nat.zero_mod] at apart
      rw [Nat.mod_eq_of_lt (by omega)] at apart
      cases apart
  · rintro (rfl | rfl) hash64
    · rw [Nat.mod_one,Nat.mod_one]
    · rfl

/-- Two records with the same bytes go to the same file, for every hash, exactly when there is one
    file or the bytes behind them that are hashed are the same. -/
theorem same_partition_iff {len numPart : Nat} {arg : Option Nat} (parts : 0 < numPart) (same : ∀ i, i < len → m₁ (d₁ + i) = m₂ (d₂ + i)) :
    (∀ hash64, hashPartitioned hash64 numPart arg m₁ d₁ len = hashPartitioned hash64 numPart arg m₂ d₂ len) ↔
      numPart = 1 ∨ ∀ i, arg.getD 0 ≤ i → len ≤ i → i < arg.getD 0 + hashedSize (len % 2 ^ 32) (arg.getD 0) → m₁ (d₁ + i) = m₂ (d₂ + i) := by
  simp only [hashPartitioned_eq parts,Option.some.injEq]
  rw [all_hashes parts,read_same_iff]
  refine or_congr_right ?_
  constructor
  · intro all i low _ high
    have here := all (i - arg.getD 0) (by omega)
    have place : ∀ d, d + arg.getD 0 + (i - arg.getD 0) = d + i := by
      intro d
      omega
    rw [place,place] at here
    exact here
  · intro behind i inside
    rw [Nat.add_assoc,Nat.add_assoc]
    by_cases within : arg.getD 0 + i < len
    · exact same _ within
    · exact behind _ (Nat.le_add_right _ _) (Nat.not_lt.mp within) (Nat.add_lt_add_left inside _)

/-- Behind a record of less than 4 GiB that has the offset, one byte is hashed. -/
theorem hashed_behind {len offs : Nat} (small : len < 2 ^ 32) (offset : offs ≤ len) : offs + hashedSize (len % 2 ^ 32) offs = len + 1 := by
  have whole : (((len : Int) - offs + 1) % 2 ^ 64).toNat = len - offs + 1 := by omega
  rw [Nat.mod_eq_of_lt small,hashedSize,whole]
  omega

/-- Records that both end with a terminator, as the readers leave them, meet in one file. -/
theorem terminated_same {len numPart : Nat} {arg : Option Nat} (parts : 0 < numPart) (small : len < 2 ^ 32) (offset : arg.getD 0 ≤ len)
    (same : ∀ i, i < len → m₁ (d₁ + i) = m₂ (d₂ + i)) (first : m₁ (d₁ + len) = 0) (second : m₂ (d₂ + len) = 0) (hash64 : List UInt8 → Nat) :
    hashPartitioned hash64 numPart arg m₁ d₁ len = hashPartitioned hash64 numPart arg m₂ d₂ len := by
  refine (same_partition_iff parts same).mpr (.inr fun i _ low high => ?_) hash64
  rw [hashed_behind small offset] at high
  obtain rfl : i = len := by omega
  rw [first,second]

end

/-- The record `a` with a NUL behind it, and with a line feed. -/
def withNul : Memory := fun a => if a = 0 then 97 else 0

def withLine : Memory := fun a => if a = 0 then 97 else 10

/-- A NUL and a line feed. -/
def withBoth : Memory := fun a => if a = 0 then 97 else if a = 1 then 0 else 10

/-- The record `a` with a NUL behind it, whatever is behind that. -/
theorem same_partition_a :
    hashPartitioned acLz4Hash64 2 none withNul 0 1 = hashPartitioned acLz4Hash64 2 none withBoth 0 1 := by
  have same : ∀ i, i < 1 → withNul (0 + i) = withBoth (0 + i) := by
    intro i inside
    obtain rfl : i = 0 := by omega
    rfl
  refine (same_partition_iff (by decide) same).mpr (.inr fun i _ low high => ?_) acLz4Hash64
  have last : i < 0 + hashedSize (1 % 2 ^ 32) 0 := high
  rw [hashed_behind (by decide) (Nat.zero_le 1)] at last
  obtain rfl : i = 1 := by omega
  rfl

/-- With two files, the record `a` goes to the first one with a NUL behind it, and to the second
    one with a line feed. -/
theorem split_by_next_byte : (∀ i, i < 1 → withNul (0 + i) = withLine (0 + i)) ∧
    hashPartitioned acLz4Hash64 2 none withNul 0 1 = some 0 ∧ hashPartitioned acLz4Hash64 2 none withLine 0 1 = some 1 := by
  refine ⟨?_,by decide +kernel,by decide +kernel⟩
  intro i inside
  obtain rfl : i = 0 := by omega
  rfl

end AnotherC.Partition
