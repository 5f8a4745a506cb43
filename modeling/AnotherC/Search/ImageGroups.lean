import AnotherC.Lib.Bytes
import AnotherC.Lib.Runs
import Mathlib.Algebra.BigOperators.Group.List.Basic
import Mathlib.Data.List.Pairwise
import Mathlib.Data.List.Perm.Subperm

/-!
# The groups of an image: `ac_search_builder_destroy`

The postings of a term are written in groups of 4096 ids. A group has its number, the
length of its records in one, two or three bytes, and the records. `header_iff` says for
which postings `advance_group` reads back the lengths that were written: the three bytes
have 22 bits for a length that no check keeps below 2^22.
-/
namespace AnotherC.ImageGroups
open AnotherC.Lib.Bytes AnotherC.Lib.Runs
set_option linter.unusedVariables false

/-! ## Writing -/

/-- `term_data_t`. -/
structure TermData where
  id : Nat
  position : Nat
  value : Int
deriving DecidableEq, Repr

def groupOf (d : TermData) : Nat := d.id &&& 0xffff000

def subId (d : TermData) : Nat := d.id &&& 0xfff

/-- What the first loop over the positions of an id adds to `sum`. -/
def positionSize (d : TermData) : Nat :=
  if d.value = 0 then 2
  else if 0 < d.value ∧ d.value < 65536 then
    if d.value < 256 then 3 else 4
  else 6

/-- What the second loop appends. -/
def encodePosition (d : TermData) : List UInt8 :=
  if d.value = 0 then bytes 2 d.position
  else if 0 < d.value ∧ d.value < 65536 then
    if d.value < 256 then bytes 2 (d.position ||| 1 <<< 14) ++ bytes 1 d.value.toNat
    else bytes 2 (d.position ||| 2 <<< 14) ++ bytes 2 d.value.toNat
  else bytes 2 (d.position ||| 3 <<< 14) ++ bytes 4 (uint32 d.value)

/-- The record of an id with one position, which is 0. -/
def encodeValue (sid : Nat) (value : Int) : List UInt8 :=
  if 0 ≤ value ∧ value < 65536 then
    if value < 256 then
      if value < 5 then bytes 2 (sid + value.toNat) else bytes 2 (sid ||| 5) ++ bytes 1 value.toNat
    else bytes 2 (sid ||| 6) ++ bytes 2 value.toNat
  else bytes 2 (sid ||| 7) ++ bytes 4 (uint32 value)

/-- The record of an id with other positions; `sum` is a `uint32_t`. -/
def encodePositions (sid : Nat) (ds : List TermData) : List UInt8 :=
  let sid := sid ||| 8
  let sum := ((ds.map positionSize).sum % 2 ^ 32 + (2 ^ 32 - 1)) % 2 ^ 32
  (if sum > 7 then bytes 2 sid ++ bytes 4 sum else bytes 2 (sid ||| sum)) ++ ds.flatMap encodePosition

/-- The record of an id, from its postings. -/
def encodeId : List TermData → List UInt8
  | [] => []
  | cur2 :: more =>
    let sid := subId cur2 <<< 4
    if more = [] ∧ cur2.position = 0 then encodeValue sid cur2.value else encodePositions sid (cur2 :: more)

/-- `group_bh` for the postings of a group. -/
def groupBody (g : List TermData) : List UInt8 := (runs subId g).flatMap encodeId

/-- The length of a group, from a `size_t` to a `uint32_t` and then to as few bytes as its
    size says. -/
def encodeLength (length : Nat) : List UInt8 :=
  let len := length % 2 ^ 32
  if len ≤ 63 then bytes 1 len
  else if len ≤ 16383 then bytes 1 ((len &&& 0x3f00) >>> 8 ||| 1 <<< 6) ++ bytes 1 (len &&& 0xff)
  else bytes 1 ((len &&& 0x3f0000) >>> 16 ||| 2 <<< 6) ++ bytes 2 (len &&& 0xffffff)

def encodeGroup : List TermData → List UInt8
  | [] => []
  | cur :: more =>
    bytes 2 (groupOf cur >>> 12) ++ encodeLength (groupBody (cur :: more)).length ++ groupBody (cur :: more)

/-- `out_bh` for the postings of a term. -/
def encodeTerm (ds : List TermData) : List UInt8 := (runs groupOf ds).flatMap encodeGroup

/-- `max_term_size`. -/
def maxTermSize (ds : List TermData) : Nat :=
  ((runs groupOf ds).flatMap (runs subId)).foldl (fun most run =>
    if run.length = 1 ∧ run.all (fun d => d.position = 0) then most else max most run.length) 0

/-! ## Reading -/

/-- `ac_search_builder_image_term_t` without the fields of `term_pos`: the memory from
    `gp` and from `p` on, how far `egp` and `ep` are from there, and the bytes of
    `[wp,p)`. -/
structure ImageTerm where
  gp : List UInt8
  groups : Nat
  p : List UInt8
  left : Nat
  wp : List UInt8
  gid : Nat
  id : Nat
  value : Int
deriving DecidableEq, Repr

/-- The length in the header of a group, how many bytes it takes and what comes after it;
    `none` is `abort()`. -/
def readLength : List UInt8 → Option (Nat × Nat × List UInt8)
  | [] => none
  | h :: p =>
    let highBits := h.toNat >>> 6
    if highBits = 0 then some (h.toNat,1,p)
    else if highBits = 1 then
      match p with
      | b :: p => some (((h.toNat &&& 0x3f) <<< 8) + b.toNat,2,p)
      | _ => none
    else if highBits = 2 then
      match p with
      | b0 :: b1 :: p => some (((h.toNat &&& 0x3f) <<< 16) + number [b0,b1],3,p)
      | _ => none
    else none

def advanceGroup (t : ImageTerm) : Option ImageTerm :=
  match t.gp with
  | g0 :: g1 :: p => (readLength p).map fun (len,size,p) =>
      { t with p := p, left := len, gp := p.drop len, groups := t.groups - (2 + size + len), gid := number [g0,g1] <<< 12 }
  | _ => none

/-! ## Lengths -/

/-- What the builder takes for a term: the ids have 28 bits, the positions 14, and the
    values are of `int32_t`. -/
structure Accepted (d : TermData) : Prop where
  id : d.id < 2 ^ 28
  position : d.position ≤ 0x3FFF
  value : -2 ^ 31 ≤ d.value ∧ d.value < 2 ^ 31

/-- The order in which the postings of a term are delivered, each id and position once. -/
def Before (d e : TermData) : Prop := d.id < e.id ∨ d.id = e.id ∧ d.position < e.position

instance (d e : TermData) : Decidable (Before d e) := inferInstanceAs (Decidable (_ ∨ _))

/-- How many bytes a value alone takes after the id. -/
def valueSize (value : Int) : Nat :=
  if 0 ≤ value ∧ value < 5 then 0 else if 0 ≤ value ∧ value < 256 then 1 else if 0 ≤ value ∧ value < 65536 then 2 else 4

/-- How many bytes the positions of an id take, with their length where it is written. -/
def positionsSize (ds : List TermData) : Nat :=
  (ds.map positionSize).sum + if (ds.map positionSize).sum > 8 then 4 else 0

/-- The size of the record of an id. -/
def idSize : List TermData → Nat
  | [] => 0
  | d :: more => 2 + if more = [] ∧ d.position = 0 then valueSize d.value else positionsSize (d :: more)

/-- The size of the records of a group. -/
def groupSize (g : List TermData) : Nat := ((runs subId g).map idSize).sum

section
variable {g ds : List TermData} {d : TermData} {rest : List UInt8}

theorem encodePosition_length (d : TermData) : (encodePosition d).length = positionSize d := by
  rw [encodePosition,positionSize]
  by_cases zero : d.value = 0
  · rw [if_pos zero,if_pos zero,bytes_length]
  · rw [if_neg zero,if_neg zero]
    by_cases word : 0 < d.value ∧ d.value < 65536
    · rw [if_pos word,if_pos word]
      by_cases byte : d.value < 256
      · rw [if_pos byte,if_pos byte,List.length_append,bytes_length,bytes_length]
      · rw [if_neg byte,if_neg byte,List.length_append,bytes_length,bytes_length]
    · rw [if_neg word,if_neg word,List.length_append,bytes_length,bytes_length]

theorem encodePositions_length (few : (ds.map positionSize).sum < 2 ^ 32) (some_ : 0 < (ds.map positionSize).sum) (sid : Nat) :
    (encodePositions sid ds).length = 2 + positionsSize ds := by
  have appended : (ds.flatMap encodePosition).length = (ds.map positionSize).sum := by
    rw [List.length_flatMap]
    exact congrArg List.sum (List.map_congr_left fun d _ => encodePosition_length d)
  have sum : ((ds.map positionSize).sum % 2 ^ 32 + (2 ^ 32 - 1)) % 2 ^ 32 = (ds.map positionSize).sum - 1 := by omega
  rw [encodePositions,sum,List.length_append,appended,positionsSize]
  by_cases large : (ds.map positionSize).sum - 1 > 7
  · rw [if_pos large,if_pos (by omega),List.length_append,bytes_length,bytes_length]
    omega
  · rw [if_neg large,if_neg (by omega),bytes_length]
    omega

theorem encodeValue_length (sid : Nat) (value : Int) : (encodeValue sid value).length = 2 + valueSize value := by
  rw [encodeValue,valueSize]
  by_cases word : 0 ≤ value ∧ value < 65536
  · rw [if_pos word]
    by_cases byte : value < 256
    · rw [if_pos byte]
      by_cases direct : value < 5
      · rw [if_pos direct,if_pos ⟨word.1,direct⟩,bytes_length]
      · rw [if_neg direct,if_neg (fun both => direct both.2),if_pos ⟨word.1,byte⟩,List.length_append,bytes_length,bytes_length]
    · rw [if_neg byte,if_neg (by omega),if_neg (by omega),if_pos word,List.length_append,bytes_length,bytes_length]
  · rw [if_neg word,if_neg (by omega),if_neg (by omega),if_neg word,List.length_append,bytes_length,bytes_length]

theorem positionSize_bounds (d : TermData) : 2 ≤ positionSize d ∧ positionSize d ≤ 6 := by
  rw [positionSize]
  by_cases zero : d.value = 0
  · simp [zero]
  · rw [if_neg zero]
    by_cases word : 0 < d.value ∧ d.value < 65536
    · rw [if_pos word]
      by_cases byte : d.value < 256
      · simp [byte]
      · simp [byte]
    · simp [word]

theorem positionSize_sum (ds : List TermData) :
    2 * ds.length ≤ (ds.map positionSize).sum ∧ (ds.map positionSize).sum ≤ 6 * ds.length := by
  induction ds with
  | nil => simp
  | cons d ds ih =>
    have := positionSize_bounds d
    rw [List.map_cons,List.sum_cons,List.length_cons]
    omega

/-! ## The postings of an id -/

theorem groupOf_eq (d : TermData) : groupOf d = (d.id / 4096 % 65536) <<< 12 := by
  have mask : 0xffff000 = (2 ^ 16 - 1) <<< 12 := by decide
  rw [groupOf,mask]
  exact and_high_bits d.id 12 16

theorem subId_eq (d : TermData) : subId d = d.id % 4096 := Nat.and_two_pow_sub_one_eq_mod d.id 12

theorem groupOf_shift (d : TermData) : groupOf d >>> 12 = d.id / 4096 % 65536 := by
  rw [groupOf_eq]
  omega

/-- Two postings of a group with the same sub-id have the same id. -/
theorem id_eq {e : TermData} (small : d.id < 2 ^ 28) (small' : e.id < 2 ^ 28) (group : groupOf d = groupOf e)
    (sub : subId d = subId e) : d.id = e.id := by
  rw [groupOf_eq,groupOf_eq] at group
  rw [subId_eq,subId_eq] at sub
  omega

/-- The postings of a group, as they are delivered. -/
structure Delivered (ds : List TermData) : Prop where
  accepted : ∀ d ∈ ds, Accepted d
  sorted : ds.Pairwise Before

theorem Delivered.sublist {es : List TermData} (delivered : Delivered ds) (sub : es.Sublist ds) : Delivered es :=
  ⟨fun d member => delivered.accepted d (sub.subset member),delivered.sorted.sublist sub⟩

/-- An id has each position at most once. -/
theorem Delivered.positions (delivered : Delivered ds) (same : ∀ d ∈ ds, ∀ e ∈ ds, d.id = e.id) : ds.length ≤ 16384 := by
  have ascending : (ds.map TermData.position).Pairwise (· < ·) := by
    refine List.pairwise_map.mpr (delivered.sorted.imp_of_mem fun {d e} first second before => ?_)
    have equal := same d first e second
    rcases before with less | ⟨_,less⟩
    · omega
    · exact less
  have distinct : (ds.map TermData.position).Nodup := ascending.imp fun less => Nat.ne_of_lt less
  have inside : ds.map TermData.position ⊆ List.range 16384 := by
    intro p member
    obtain ⟨d,held,rfl⟩ := List.mem_map.mp member
    have := (delivered.accepted d held).position
    exact List.mem_range.mpr (by omega)
  have few := (List.subperm_of_subset distinct inside).length_le
  rwa [List.length_map,List.length_range] at few

/-- The postings of an id in a group of a term. -/
theorem Delivered.same_id {run : List TermData} (delivered : Delivered ds) (member : g ∈ runs groupOf ds)
    (member' : run ∈ runs subId g) : ∀ d ∈ run, ∀ e ∈ run, d.id = e.id := by
  intro d first e second
  have inGroup := run_subset member'
  have inTerm := run_subset member
  exact id_eq (delivered.accepted d (inTerm d (inGroup d first))).id (delivered.accepted e (inTerm e (inGroup e second))).id
    (run_key member (inGroup d first) (inGroup e second)) (run_key member' first second)

theorem encodeId_length (delivered : Delivered ds) (same : ∀ d ∈ ds, ∀ e ∈ ds, d.id = e.id) :
    (encodeId ds).length = idSize ds := by
  cases ds with
  | nil => rfl
  | cons d more =>
    rw [encodeId,idSize]
    by_cases single : more = [] ∧ d.position = 0
    · rw [if_pos single,if_pos single,encodeValue_length]
    · have few := delivered.positions same
      have sums := positionSize_sum (d :: more)
      rw [List.length_cons] at few sums
      rw [if_neg single,if_neg single,encodePositions_length (by omega) (by omega)]

theorem groupBody_length (delivered : Delivered ds) (member : g ∈ runs groupOf ds) : (groupBody g).length = groupSize g := by
  rw [groupBody,List.length_flatMap,groupSize]
  refine congrArg List.sum (List.map_congr_left fun run member' => ?_)
  have sub : run.Sublist ds := (run_sublist member').trans (run_sublist member)
  exact encodeId_length (delivered.sublist sub) (delivered.same_id member member')

/-! ## The header -/

theorem header_bits : ∀ x < 64, x >>> 6 = 0 ∧ (x ||| 1 <<< 6) >>> 6 = 1 ∧ (x ||| 1 <<< 6) &&& 0x3f = x ∧
    (x ||| 2 <<< 6) >>> 6 = 2 ∧ (x ||| 2 <<< 6) &&& 0x3f = x ∧ (x ||| 1 <<< 6) < 256 ∧ (x ||| 2 <<< 6) < 256 := by
  decide

theorem readLength_one {h : UInt8} {p : List UInt8} (bits : h.toNat >>> 6 = 0) : readLength (h :: p) = some (h.toNat,1,p) :=
  if_pos bits

theorem readLength_two {h b : UInt8} {p : List UInt8} (bits : h.toNat >>> 6 = 1) :
    readLength (h :: b :: p) = some (((h.toNat &&& 0x3f) <<< 8) + b.toNat,2,p) :=
  (if_neg (by omega)).trans (if_pos bits)

theorem readLength_three {h b0 b1 : UInt8} {p : List UInt8} (bits : h.toNat >>> 6 = 2) :
    readLength (h :: b0 :: b1 :: p) = some (((h.toNat &&& 0x3f) <<< 16) + number [b0,b1],3,p) :=
  (if_neg (by omega)).trans ((if_neg (by omega)).trans (if_pos bits))

/-- Of the length that was written 22 bits are read. -/
theorem readLength_encodeLength (length : Nat) (rest : List UInt8) :
    readLength (encodeLength length ++ rest) =
      some ((if length % 2 ^ 32 ≤ 16383 then length % 2 ^ 32 else length % 2 ^ 22),(encodeLength length).length,rest) := by
  obtain ⟨len,len_eq⟩ : ∃ len, len = length % 2 ^ 32 := ⟨_,rfl⟩
  have small : len < 2 ^ 32 := by omega
  have low : length % 2 ^ 22 = len % 2 ^ 22 := by omega
  rw [encodeLength,low,← len_eq]
  by_cases one : len ≤ 63
  · have value : (UInt8.ofNat len).toNat = len := by
      rw [UInt8.toNat_ofNat']
      omega
    simp only [if_pos one,if_pos (by omega : len ≤ 16383)]
    rw [bytes,bytes,List.cons_append,List.nil_append,readLength_one (by rw [value]; exact (header_bits len (by omega)).1),value]
    rfl
  · by_cases two : len ≤ 16383
    · have high : (len &&& 0x3f00) >>> 8 = len / 256 := by
        have mask : 0x3f00 = (2 ^ 6 - 1) <<< 8 := by decide
        rw [mask,and_high_bits]
        omega
      have byte : len &&& 0xff = len % 256 := Nat.and_two_pow_sub_one_eq_mod len 8
      obtain ⟨_,bits,value,_,_,fits,_⟩ := header_bits (len / 256) (by omega)
      have first : (UInt8.ofNat (len / 256 ||| 1 <<< 6)).toNat = len / 256 ||| 1 <<< 6 := by
        rw [UInt8.toNat_ofNat']
        exact Nat.mod_eq_of_lt fits
      have second : (UInt8.ofNat (len % 256)).toNat = len % 256 := by
        rw [UInt8.toNat_ofNat']
        omega
      simp only [if_neg one,if_pos two,high,byte]
      simp only [bytes,List.cons_append,List.nil_append]
      rw [readLength_two (by rw [first]; exact bits),first,value,second]
      have whole : (len / 256) <<< 8 + len % 256 = len := by omega
      rw [whole]
      rfl
    · have high : (len &&& 0x3f0000) >>> 16 = len / 65536 % 64 := by
        have mask : 0x3f0000 = (2 ^ 6 - 1) <<< 16 := by decide
        rw [mask,and_high_bits]
        omega
      have word : len &&& 0xffffff = len % 2 ^ 24 := Nat.and_two_pow_sub_one_eq_mod len 24
      obtain ⟨_,_,_,bits,value,_,fits⟩ := header_bits (len / 65536 % 64) (by omega)
      have first : (UInt8.ofNat (len / 65536 % 64 ||| 2 <<< 6)).toNat = len / 65536 % 64 ||| 2 <<< 6 := by
        rw [UInt8.toNat_ofNat']
        exact Nat.mod_eq_of_lt fits
      have second : number [UInt8.ofNat (len % 2 ^ 24),UInt8.ofNat (len % 2 ^ 24 / 256)] = len % 2 ^ 16 := by
        have whole := number_bytes 2 (len % 2 ^ 24)
        have shorter : len % 2 ^ 24 % 256 ^ 2 = len % 2 ^ 16 := by omega
        rw [shorter] at whole
        exact whole
      simp only [if_neg one,if_neg two,high,word]
      simp only [bytes,List.cons_append,List.nil_append]
      rw [readLength_three (by rw [first]; exact bits),first,value,second]
      have whole : (len / 65536 % 64) <<< 16 + len % 2 ^ 16 = len % 2 ^ 22 := by omega
      rw [whole]
      rfl

/-- `advance_group` at the group finds its records, with their length, and the next group
    after them. -/
def Decodes (g : List TermData) : Prop :=
  ∀ t rest, t.gp = encodeGroup g ++ rest →
    ∃ t', advanceGroup t = some t' ∧ t'.p = groupBody g ++ rest ∧ t'.left = (groupBody g).length ∧ t'.gp = rest

/-- What `advance_group` reads at a group. -/
theorem advanceGroup_encode {t : ImageTerm} {cur : TermData} {more : List TermData}
    (here : t.gp = encodeGroup (cur :: more) ++ rest) {len : Nat}
    (len_eq : len = if (groupBody (cur :: more)).length % 2 ^ 32 ≤ 16383 then (groupBody (cur :: more)).length % 2 ^ 32
      else (groupBody (cur :: more)).length % 2 ^ 22) :
    advanceGroup t = some { t with
      p := groupBody (cur :: more) ++ rest, left := len, gp := (groupBody (cur :: more) ++ rest).drop len,
      groups := t.groups - (2 + (encodeLength (groupBody (cur :: more)).length).length + len), gid := groupOf cur } := by
  have shape : t.gp = bytes 2 (groupOf cur >>> 12) ++
      (encodeLength (groupBody (cur :: more)).length ++ (groupBody (cur :: more) ++ rest)) := by
    rw [here,encodeGroup]
    simp only [List.append_assoc]
  have number_ : number [UInt8.ofNat (groupOf cur >>> 12),UInt8.ofNat ((groupOf cur >>> 12) / 256)] = groupOf cur >>> 12 := by
    have whole := number_bytes 2 (groupOf cur >>> 12)
    have small : groupOf cur >>> 12 % 256 ^ 2 = groupOf cur >>> 12 := by
      rw [groupOf_shift]
      omega
    rw [small] at whole
    exact whole
  have back : (groupOf cur >>> 12) <<< 12 = groupOf cur := by
    rw [groupOf_shift,groupOf_eq]
  rw [advanceGroup,shape]
  simp only [bytes,List.cons_append,List.nil_append,readLength_encodeLength,Option.map_some,number_,back,← len_eq]

theorem decodes_iff (some_ : g ≠ []) : Decodes g ↔ (groupBody g).length ≤ 4194303 := by
  obtain ⟨cur,more,rfl⟩ := List.exists_cons_of_ne_nil some_
  constructor
  · intro decodes
    obtain ⟨t',read,_,left,_⟩ := decodes ⟨encodeGroup (cur :: more),0,[],0,[],0,0,0⟩ [] (List.append_nil _).symm
    rw [advanceGroup_encode (List.append_nil _).symm rfl] at read
    cases read
    simp only at left
    split at left <;> omega
  · intro short t rest here
    have len : (groupBody (cur :: more)).length = if (groupBody (cur :: more)).length % 2 ^ 32 ≤ 16383
        then (groupBody (cur :: more)).length % 2 ^ 32 else (groupBody (cur :: more)).length % 2 ^ 22 := by
      split <;> omega
    exact ⟨_,advanceGroup_encode here len,rfl,rfl,List.drop_left⟩

/-- The lengths of the groups of a term are read back when each is below 2^22. -/
theorem header_iff (delivered : Delivered ds) :
    (∀ g ∈ runs groupOf ds, Decodes g) ↔ ∀ g ∈ runs groupOf ds, groupSize g ≤ 4194303 := by
  refine forall₂_congr fun g member => ?_
  rw [decodes_iff (run_ne_nil member),groupBody_length delivered member]

end

/-- Two ids in one group, a third one in another. -/
theorem header_iff_three :
    (∀ g ∈ runs groupOf [⟨5,0,7⟩,⟨9,1,-1⟩,⟨8192,0,0⟩], Decodes g) ↔
      ∀ g ∈ runs groupOf [⟨5,0,7⟩,⟨9,1,-1⟩,⟨8192,0,0⟩], groupSize g ≤ 4194303 :=
  header_iff ⟨by
    intro d member
    simp only [List.mem_cons,List.not_mem_nil,or_false] at member
    rcases member with rfl | rfl | rfl <;> exact ⟨by decide,by decide,by decide⟩,by decide⟩

/-- All 16384 positions of 43 ids, with a negative value at each. -/
def manyPostings : List TermData := (List.range 43).flatMap fun k => (List.range 16384).map fun p => ⟨k + 1,p,-1⟩

theorem mem_manyPostings {d : TermData} (member : d ∈ manyPostings) : d.id ≤ 43 ∧ d.position < 16384 ∧ d.value = -1 := by
  obtain ⟨k,small,inside⟩ := List.mem_flatMap.mp member
  obtain ⟨p,low,rfl⟩ := List.mem_map.mp inside
  exact ⟨List.mem_range.mp small,List.mem_range.mp low,rfl⟩

theorem manyPostings_delivered : Delivered manyPostings := by
  refine ⟨fun d member => ?_,List.pairwise_flatMap.mpr ⟨fun k member => ?_,?_⟩⟩
  · obtain ⟨id,position,value⟩ := mem_manyPostings member
    exact ⟨by omega,by omega,by omega⟩
  · exact List.pairwise_map.mpr (List.pairwise_lt_range.imp fun less => .inr ⟨rfl,less⟩)
  · refine List.pairwise_lt_range.imp fun {j k} less d member e member' => ?_
    obtain ⟨p,_,rfl⟩ := List.mem_map.mp member
    obtain ⟨q,_,rfl⟩ := List.mem_map.mp member'
    exact .inl (Nat.succ_lt_succ less)

theorem manyPostings_length : manyPostings.length = 43 * 16384 := by
  rw [manyPostings,List.length_flatMap]
  simp

/-- Six bytes for each negative value. -/
theorem idSize_negative {ds : List TermData} (negative : ∀ d ∈ ds, d.value = -1) : 6 * ds.length ≤ idSize ds := by
  have sum : (ds.map positionSize).sum = 6 * ds.length := by
    have six : ds.map positionSize = ds.map fun _ => 6 := List.map_congr_left fun d member => by
      rw [positionSize,negative d member]
      decide
    rw [six,List.map_const',List.sum_replicate_nat,Nat.mul_comm]
  cases ds with
  | nil => exact Nat.zero_le _
  | cons d more =>
    rw [idSize]
    by_cases single : more = [] ∧ d.position = 0
    · have four : valueSize d.value = 4 := by
        rw [negative d (by simp)]
        decide
      rw [if_pos single,four,single.1]
      exact Nat.le_refl 6
    · rw [if_neg single,positionsSize,sum]
      omega

theorem groupSize_negative {g : List TermData} (negative : ∀ d ∈ g, d.value = -1) : 6 * g.length ≤ groupSize g := by
  have each : ∀ rs : List (List TermData), (∀ run ∈ rs, ∀ d ∈ run, d.value = -1) → 6 * rs.flatten.length ≤ (rs.map idSize).sum := by
    intro rs all
    induction rs with
    | nil => simp
    | cons run rs ih =>
      have first := idSize_negative (all run (by simp))
      have later := ih fun other member => all other (by simp [member])
      rw [List.flatten_cons,List.length_append,List.map_cons,List.sum_cons]
      omega
  have total := each (runs subId g) fun run member d inside => negative d (run_subset member d inside)
  rwa [runs_flatten] at total

/-- A group of more than 2^22 bytes, of which fewer are read. -/
theorem many_postings_truncated : Delivered manyPostings ∧ ¬ ∀ g ∈ runs groupOf manyPostings, Decodes g := by
  refine ⟨manyPostings_delivered,fun all => ?_⟩
  have length := manyPostings_length
  have some_ : manyPostings ≠ [] := fun none_ => by
    rw [none_] at length
    simp at length
  have group : ∀ d ∈ manyPostings, groupOf d = 0 := by
    intro d member
    have bounds := mem_manyPostings member
    rw [groupOf_eq]
    omega
  have one : runs groupOf manyPostings = [manyPostings] :=
    runs_single some_ fun d first e second => (group d first).trans (group e second).symm
  have member : manyPostings ∈ runs groupOf manyPostings := by
    rw [one]
    exact List.mem_singleton_self _
  have short := (decodes_iff some_).mp (all manyPostings member)
  have large := groupSize_negative fun d held => (mem_manyPostings held).2.2
  rw [groupBody_length manyPostings_delivered member] at short
  omega

end AnotherC.ImageGroups
