import AnotherC.Lib.Bytes
import AnotherC.Lib.Splice
import Mathlib.Data.List.Pairwise

/-!
# Postings in groups: `ac_s`

A term has a group for each 4096 ids. A group is a slot of ten bytes: the type bit and
the number of the group, then either one record or a pointer to a block, which holds
the length of its records and the records, in ascending order of their ids.
-/
namespace AnotherC.Groups
open AnotherC.Lib.Bytes AnotherC.Lib.Splice
set_option linter.unusedVariables false

/-! ## Records -/

/-- How many bytes of `p` belong to a record after its first two; `none` when `p` ends
    too early. -/
def advanceBody (v : Nat) (p : List UInt8) : Option Nat :=
  let skip := if v &&& 8 ≠ 0 then p.head?.map fun n => n.toNat + 1 else some 0
  match skip with
  | none => none
  | some skip =>
    if v &&& 7 < 7 then some (skip + (v &&& 7))
    else
      match p.drop skip with
      | [] => none
      | n :: p =>
        if n.toNat > 1 then some (skip + (n.toNat + 1))
        else if n.toNat = 0 then
          match p with
          | b0 :: b1 :: _ => some (skip + (1 + (number [b0,b1] + 2)))
          | _ => none
        else
          match p with
          | b0 :: b1 :: b2 :: b3 :: _ => some (skip + (1 + (number [b0,b1,b2,b3] + 4)))
          | _ => none

/-- `advance_id` at the bytes from `p` on: how far `p` moves, and the id. -/
def advanceId : List UInt8 → Option (Nat × Nat)
  | b0 :: b1 :: p =>
    let v := number [b0,b1]
    (advanceBody v p).map fun n => (2 + n,v >>> 4)
  | _ => none

/-- The bytes that `copy_data` writes. -/
def copyData (subId : Nat) : List UInt8 → List UInt8
  | [] => []
  | control :: data => bytes 2 (subId <<< 4 ||| control.toNat) ++ data

/-- A payload: four bits that say how the bytes after them are to be read, and these
    bytes. -/
structure Payload (data : List UInt8) : Prop where
  control : ∃ control rest, data = control :: rest ∧ control.toNat < 16 ∧ advanceBody control.toNat rest = some rest.length

/-- A record: an id of the group and its payload. -/
abbrev Record := Nat × List UInt8

def encode (r : Record) : List UInt8 := copyData r.1 r.2

def encodeAll (rs : List Record) : List UInt8 := rs.flatMap encode

structure Sound (rs : List Record) : Prop where
  ids : ∀ r ∈ rs, r.1 < 4096
  payloads : ∀ r ∈ rs, Payload r.2
  ascending : rs.Pairwise fun r s => r.1 < s.1

section
variable {v : Nat} {p q data : List UInt8} {id n : Nat}

theorem advanceBody_append (read : advanceBody v p = some n) : advanceBody v (p ++ q) = some n := by
  cases p with
  | nil =>
    rw [advanceBody] at read ⊢
    by_cases flag : v &&& 8 ≠ 0
    · simp [flag] at read
    · simp only [if_neg flag] at read ⊢
      by_cases short : v &&& 7 < 7
      · rw [if_pos short] at read ⊢
        exact read
      · rw [if_neg short] at read
        simp at read
  | cons b p =>
    rw [advanceBody] at read ⊢
    have skip : (if v &&& 8 ≠ 0 then (b :: p ++ q).head?.map fun n => n.toNat + 1 else some 0) =
        if v &&& 8 ≠ 0 then (b :: p).head?.map fun n => n.toNat + 1 else some 0 := rfl
    rw [skip]
    cases amount : (if v &&& 8 ≠ 0 then (b :: p).head?.map fun n => n.toNat + 1 else some 0) with
    | none =>
      rw [amount] at read
      cases read
    | some amount' =>
      rw [amount] at read
      simp only at read ⊢
      by_cases short : v &&& 7 < 7
      · rw [if_pos short] at read ⊢
        exact read
      · rw [if_neg short] at read ⊢
        cases rest : (b :: p).drop amount' with
        | nil =>
          rw [rest] at read
          cases read
        | cons n' p' =>
          have inside : amount' ≤ (b :: p).length := by
            by_contra beyond
            rw [List.drop_eq_nil_of_le (by omega)] at rest
            cases rest
          rw [List.drop_append_of_le_length inside,rest]
          rw [rest] at read
          simp only [List.cons_append] at read ⊢
          by_cases one : n'.toNat > 1
          · rw [if_pos one] at read ⊢
            exact read
          · rw [if_neg one] at read ⊢
            by_cases zero : n'.toNat = 0
            · rw [if_pos zero] at read ⊢
              rcases p' with _ | ⟨b0,_ | ⟨b1,p'⟩⟩
              · cases read
              · cases read
              · exact read
            · rw [if_neg zero] at read ⊢
              rcases p' with _ | ⟨b0,_ | ⟨b1,_ | ⟨b2,_ | ⟨b3,p'⟩⟩⟩⟩
              · cases read
              · cases read
              · cases read
              · cases read
              · exact read

/-- The bits of the id say nothing about the payload. -/
theorem control_bits {c : Nat} (small : c < 16) (id : Nat) :
    (id <<< 4 ||| c) &&& 7 = c &&& 7 ∧ (id <<< 4 ||| c) &&& 8 = c &&& 8 := by
  have shape : id <<< 4 ||| c = id * 16 + c := by
    rw [← Nat.shiftLeft_add_eq_or_of_lt (by omega : c < 2 ^ 4),Nat.shiftLeft_eq]
  have low : (id <<< 4 ||| c) &&& 15 = c &&& 15 := by
    have mod : ∀ x : Nat, x &&& 15 = x % 16 := fun x => Nat.and_two_pow_sub_one_eq_mod x 4
    rw [mod,mod,shape]
    omega
  constructor
  · have both := congrArg (· &&& 7) low
    simpa only [Nat.and_assoc,(by decide : 15 &&& 7 = 7)] using both
  · have both := congrArg (· &&& 8) low
    simpa only [Nat.and_assoc,(by decide : 15 &&& 8 = 8)] using both

theorem advanceBody_control {c : Nat} (small : c < 16) (id : Nat) : advanceBody (id <<< 4 ||| c) p = advanceBody c p := by
  obtain ⟨three,flag⟩ := control_bits small id
  rw [advanceBody,advanceBody,three,flag]

/-- The first two bytes of a record. -/
theorem head_bits {control : UInt8} (small : id < 4096) (nibble : control.toNat < 16) :
    number (bytes 2 (id <<< 4 ||| control.toNat)) = id <<< 4 ||| control.toNat ∧ (id <<< 4 ||| control.toNat) >>> 4 = id := by
  have value : id <<< 4 ||| control.toNat = id * 16 + control.toNat := by
    rw [← Nat.shiftLeft_add_eq_or_of_lt (by omega : control.toNat < 2 ^ 4),Nat.shiftLeft_eq]
  constructor
  · rw [number_bytes]
    exact Nat.mod_eq_of_lt (by omega)
  · rw [Nat.shiftRight_eq_div_pow]
    omega

theorem encode_length {r : Record} (payload : Payload r.2) : (encode r).length = r.2.length + 1 := by
  obtain ⟨control,rest,shape,_⟩ := payload.control
  rw [encode,shape,copyData,List.length_append,bytes_length,List.length_cons]
  omega

/-- What `advance_id` reads at a record. -/
theorem advanceId_encode {r : Record} (payload : Payload r.2) (small : r.1 < 4096) (q : List UInt8) :
    advanceId (encode r ++ q) = some ((encode r).length,r.1) := by
  obtain ⟨control,rest,shape,nibble,read⟩ := payload.control
  obtain ⟨stored,high⟩ := head_bits small nibble
  obtain ⟨v,v_eq⟩ : ∃ v, v = r.1 <<< 4 ||| control.toNat := ⟨_,rfl⟩
  rw [← v_eq] at stored high
  have body : advanceBody v (rest ++ q) = some rest.length := by
    rw [v_eq]
    exact advanceBody_append (by rw [advanceBody_control nibble]; exact read)
  have front : encode r = UInt8.ofNat v :: UInt8.ofNat (v / 256) :: rest := by
    rw [encode,shape,copyData,← v_eq]
    rfl
  have stored' : number [UInt8.ofNat v,UInt8.ofNat (v / 256)] = v := stored
  rw [front,List.cons_append,List.cons_append,advanceId]
  simp only [stored',body,high,Option.map_some,List.length_cons]
  congr 2
  omega

/-! ## Groups of records -/

theorem encodeAll_append (rs ss : List Record) : encodeAll (rs ++ ss) = encodeAll rs ++ encodeAll ss := List.flatMap_append

theorem encodeAll_cons (r : Record) (rs : List Record) : encodeAll (r :: rs) = encode r ++ encodeAll rs := rfl

/-- The records with the one of an id inserted, or replaced. -/
def putRecord (rs : List Record) (id : Nat) (data : List UInt8) : List Record :=
  rs.filter (fun r => r.1 < id) ++ (id,data) :: rs.filter fun r => id < r.1

/-- The records without the one of an id. -/
def removeRecord (rs : List Record) (id : Nat) : List Record := rs.filter fun r => r.1 ≠ id

variable {rs before after : List Record}

/-- Where an id is, or belongs, among the records. -/
inductive Split (rs : List Record) (id : Nat) : List Record → Option (List UInt8) → List Record → Prop
  | held {before after : List Record} {d : List UInt8} (shape : rs = before ++ (id,d) :: after) (below : ∀ r ∈ before, r.1 < id)
      (above : ∀ r ∈ after, id < r.1) : Split rs id before (some d) after
  | missing {before after : List Record} (shape : rs = before ++ after) (below : ∀ r ∈ before, r.1 < id)
      (above : ∀ r ∈ after, id < r.1) : Split rs id before none after

theorem exists_split (ascending : rs.Pairwise fun r s => r.1 < s.1) (id : Nat) : ∃ before d after, Split rs id before d after := by
  induction rs with
  | nil => exact ⟨[],none,[],.missing rfl (by simp) (by simp)⟩
  | cons r rs ih =>
    obtain ⟨first,rest⟩ := List.pairwise_cons.mp ascending
    rcases Nat.lt_trichotomy r.1 id with less | same | more
    · obtain ⟨before,d,after,split⟩ := ih rest
      cases split with
      | held shape below above =>
        refine ⟨r :: before,_,after,.held (by rw [shape,List.cons_append]) (fun s member => ?_) above⟩
        rcases List.mem_cons.mp member with rfl | other
        · exact less
        · exact below s other
      | missing shape below above =>
        refine ⟨r :: before,none,after,.missing (by rw [shape,List.cons_append]) (fun s member => ?_) above⟩
        rcases List.mem_cons.mp member with rfl | other
        · exact less
        · exact below s other
    · subst same
      exact ⟨[],some r.2,rs,.held rfl (by simp) first⟩
    · refine ⟨[],none,r :: rs,.missing rfl (by simp) (fun s member => ?_)⟩
      rcases List.mem_cons.mp member with rfl | other
      · exact more
      · exact Nat.lt_trans more (first s other)

variable {d : Option (List UInt8)}

theorem Split.put (split : Split rs id before d after) (data : List UInt8) :
    putRecord rs id data = before ++ (id,data) :: after := by
  have low : ∀ l : List Record, (∀ r ∈ l, r.1 < id) → l.filter (fun r => r.1 < id) = l ∧ l.filter (fun r => id < r.1) = [] := by
    intro l below
    refine ⟨List.filter_eq_self.mpr fun r member => by simpa using below r member,List.filter_eq_nil_iff.mpr fun r member => ?_⟩
    have := below r member
    simp
    omega
  have high : ∀ l : List Record, (∀ r ∈ l, id < r.1) → l.filter (fun r => r.1 < id) = [] ∧ l.filter (fun r => id < r.1) = l := by
    intro l above
    refine ⟨List.filter_eq_nil_iff.mpr fun r member => ?_,List.filter_eq_self.mpr fun r member => by simpa using above r member⟩
    have := above r member
    simp
    omega
  cases split with
  | held shape below above =>
    rw [putRecord,shape,List.filter_append,List.filter_append,List.filter_cons_of_neg (by simp),List.filter_cons_of_neg (by simp),
      (low _ below).1,(low _ below).2,(high _ above).1,(high _ above).2]
    simp
  | missing shape below above =>
    rw [putRecord,shape,List.filter_append,List.filter_append,(low _ below).1,(low _ below).2,(high _ above).1,(high _ above).2]
    simp

theorem Split.remove (split : Split rs id before d after) : removeRecord rs id = before ++ after := by
  have keep : ∀ l : List Record, (∀ r ∈ l, r.1 ≠ id) → l.filter (fun r => r.1 ≠ id) = l := by
    intro l away
    exact List.filter_eq_self.mpr fun r member => by simpa using away r member
  cases split with
  | held shape below above =>
    rw [removeRecord,shape,List.filter_append,List.filter_cons_of_neg (by simp),
      keep _ fun r member => Nat.ne_of_lt (below r member),keep _ fun r member => Nat.ne_of_gt (above r member)]
  | missing shape below above =>
    rw [removeRecord,shape,List.filter_append,keep _ fun r member => Nat.ne_of_lt (below r member),
      keep _ fun r member => Nat.ne_of_gt (above r member)]

theorem Split.mem (split : Split rs id before d after) {data : List UInt8} : (id,data) ∈ rs ↔ d = some data := by
  have away : ∀ l : List Record, (∀ r ∈ l, r.1 ≠ id) → (id,data) ∉ l := fun l differ member => differ _ member rfl
  cases split with
  | held shape below above =>
    have low := away before fun r member => Nat.ne_of_lt (below r member)
    have high := away after fun r member => Nat.ne_of_gt (above r member)
    rw [shape,List.mem_append,List.mem_cons,Option.some.injEq,Prod.mk.injEq]
    constructor
    · rintro (first | same | last)
      · exact absurd first low
      · exact same.2.symm
      · exact absurd last high
    · exact fun same => .inr (.inl ⟨rfl,same.symm⟩)
  | missing shape below above =>
    have low := away before fun r member => Nat.ne_of_lt (below r member)
    have high := away after fun r member => Nat.ne_of_gt (above r member)
    rw [shape,List.mem_append]
    exact iff_of_false (fun either => either.elim low high) (by simp)

theorem Split.sound_put (split : Split rs id before d after) (sound : Sound rs) (small : id < 4096) {data : List UInt8}
    (payload : Payload data) : Sound (before ++ (id,data) :: after) := by
  have sub : ∀ r, r ∈ before ∨ r ∈ after → r ∈ rs := by
    intro r member
    cases split with
    | held shape below above =>
      rw [shape,List.mem_append,List.mem_cons]
      exact member.imp_right .inr
    | missing shape below above =>
      rw [shape,List.mem_append]
      exact member
  have apart : (before ++ after).Pairwise fun r s => r.1 < s.1 := by
    cases split with
    | held shape below above =>
      have sublist : (before ++ after).Sublist rs := by
        rw [shape]
        exact (List.Sublist.refl before).append (List.sublist_cons_self _ after)
      exact sound.ascending.sublist sublist
    | missing shape below above => exact shape ▸ sound.ascending
  have below : ∀ r ∈ before, r.1 < id := by cases split <;> assumption
  have above : ∀ r ∈ after, id < r.1 := by cases split <;> assumption
  obtain ⟨left,right,across⟩ := List.pairwise_append.mp apart
  refine ⟨fun r member => ?_,fun r member => ?_,?_⟩
  · rcases List.mem_append.mp member with first | last
    · exact sound.ids r (sub r (.inl first))
    · rcases List.mem_cons.mp last with rfl | last
      · exact small
      · exact sound.ids r (sub r (.inr last))
  · rcases List.mem_append.mp member with first | last
    · exact sound.payloads r (sub r (.inl first))
    · rcases List.mem_cons.mp last with rfl | last
      · exact payload
      · exact sound.payloads r (sub r (.inr last))
  · refine List.pairwise_append.mpr ⟨left,List.pairwise_cons.mpr ⟨above,right⟩,fun r first s last => ?_⟩
    rcases List.mem_cons.mp last with rfl | last
    · exact below r first
    · exact across r first s last

/-- The records with smaller ids, with this id and with larger ids, as bytes. -/
def lower (rs : List Record) (id : Nat) : List UInt8 := encodeAll (rs.filter fun r => r.1 < id)
def present (rs : List Record) (id : Nat) : List UInt8 := encodeAll (rs.filter fun r => r.1 = id)
def upper (rs : List Record) (id : Nat) : List UInt8 := encodeAll (rs.filter fun r => id < r.1)

theorem Split.parts (split : Split rs id before d after) :
    lower rs id = encodeAll before ∧ upper rs id = encodeAll after ∧
      present rs id = (d.map fun d => encode (id,d)).getD [] ∧
      encodeAll rs = encodeAll before ++ present rs id ++ encodeAll after := by
  have low : ∀ l : List Record, (∀ r ∈ l, r.1 < id) → l.filter (fun r => r.1 < id) = l ∧
      l.filter (fun r => r.1 = id) = [] ∧ l.filter (fun r => id < r.1) = [] := by
    intro l below
    refine ⟨List.filter_eq_self.mpr fun r member => by simpa using below r member,
      List.filter_eq_nil_iff.mpr fun r member => ?_,List.filter_eq_nil_iff.mpr fun r member => ?_⟩
    · have := below r member
      simp
      omega
    · have := below r member
      simp
      omega
  have high : ∀ l : List Record, (∀ r ∈ l, id < r.1) → l.filter (fun r => r.1 < id) = [] ∧
      l.filter (fun r => r.1 = id) = [] ∧ l.filter (fun r => id < r.1) = l := by
    intro l above
    refine ⟨List.filter_eq_nil_iff.mpr fun r member => ?_,List.filter_eq_nil_iff.mpr fun r member => ?_,
      List.filter_eq_self.mpr fun r member => by simpa using above r member⟩
    · have := above r member
      simp
      omega
    · have := above r member
      simp
      omega
  cases split with
  | held shape below above =>
    obtain ⟨l1,l2,l3⟩ := low _ below
    obtain ⟨h1,h2,h3⟩ := high _ above
    rename_i d₀
    have middle : present rs id = encode (id,d₀) := by
      rw [present,shape,List.filter_append,List.filter_cons_of_pos (by simp),l2,h2]
      exact List.append_nil _
    refine ⟨?_,?_,middle,?_⟩
    · rw [lower,shape,List.filter_append,List.filter_cons_of_neg (by simp),l1,h1,List.append_nil]
    · rw [upper,shape,List.filter_append,List.filter_cons_of_neg (by simp),l3,h3,List.nil_append]
    · rw [middle,shape,encodeAll_append,encodeAll_cons,List.append_assoc]
  | missing shape below above =>
    obtain ⟨l1,l2,l3⟩ := low _ below
    obtain ⟨h1,h2,h3⟩ := high _ above
    have middle : present rs id = [] := by
      rw [present,shape,List.filter_append,l2,h2]
      rfl
    refine ⟨?_,?_,middle,?_⟩
    · rw [lower,shape,List.filter_append,l1,h1,List.append_nil]
    · rw [upper,shape,List.filter_append,l3,h3,List.nil_append]
    · rw [middle,shape,encodeAll_append,List.append_nil]

/-! ## Finding an id -/

/-- `find_id_in_block`: where the loop ends, and what it stores in `nextp`. -/
def findIdInBlock : Nat → List UInt8 → Nat → Nat → Nat → Option (Nat × Option Nat)
  | 0, _, _, _, _ => none
  | fuel + 1, mem, bp, ep, id =>
    if bp < ep then
      match advanceId (mem.drop bp) with
      | none => none
      | some (n,_id) =>
        let next := bp + n
        if id > _id then findIdInBlock fuel mem next ep id
        else if id = _id then some (bp,some next)
        else some (bp,none)
    else some (ep,none)

theorem encode_two {r : Record} (payload : Payload r.2) : 2 ≤ (encode r).length := by
  rw [encode_length payload]
  obtain ⟨control,rest,shape,_⟩ := payload.control
  rw [shape,List.length_cons]
  omega

theorem length_le_bytes (payloads : ∀ r ∈ rs, Payload r.2) : rs.length ≤ (encodeAll rs).length := by
  induction rs with
  | nil => exact Nat.le_refl 0
  | cons r rs ih =>
    have two := encode_two (payloads r (by simp))
    have rest := ih fun s member => payloads s (by simp [member])
    rw [encodeAll_cons,List.length_append,List.length_cons]
    omega

/-- The loop stops at the record of the id, or where it belongs. -/
theorem find_spec (split : Split rs id before d after) (sound : Sound rs) {fuel : Nat} (enough : rs.length < fuel)
    (front tail : List UInt8) :
    findIdInBlock fuel (front ++ encodeAll rs ++ tail) front.length (front.length + (encodeAll rs).length) id =
      some (front.length + (encodeAll before).length,
        d.map fun d => front.length + (encodeAll before).length + (encode (id,d)).length) := by
  induction fuel generalizing rs before front with
  | zero => exact absurd enough (Nat.not_lt_zero _)
  | succ fuel ih =>
    rw [findIdInBlock]
    cases rs with
    | nil =>
      have none_ : before = [] ∧ d = none := by
        cases split with
        | held shape below above => simp at shape
        | missing shape below above => exact ⟨(List.append_eq_nil_iff.mp shape.symm).1,rfl⟩
      rw [none_.1,none_.2,if_neg (by simp [encodeAll])]
      rfl
    | cons r rs =>
      have payload := sound.payloads r (by simp)
      have small := sound.ids r (by simp)
      have two := encode_two payload
      have more : front.length < front.length + (encodeAll (r :: rs)).length := by
        rw [encodeAll_cons,List.length_append]
        omega
      have read : advanceId ((front ++ encodeAll (r :: rs) ++ tail).drop front.length) = some ((encode r).length,r.1) := by
        rw [List.append_assoc,List.drop_left,encodeAll_cons,List.append_assoc]
        exact advanceId_encode payload small _
      rw [if_pos more,read]
      simp only
      cases before with
      | nil =>
        cases split with
        | held shape below above =>
          obtain ⟨rfl,rfl⟩ := List.cons.inj shape
          rw [if_neg (Nat.lt_irrefl _),if_pos rfl]
          rfl
        | missing shape below above =>
          have shape' : r :: rs = after := shape
          have beyond := above r (by rw [← shape']; simp)
          rw [if_neg (by omega),if_neg (by omega)]
          rfl
      | cons b before =>
        have split' : b = r ∧ b.1 < id ∧ Split rs id before d after := by
          cases split with
          | held shape below above =>
            obtain ⟨rfl,rest⟩ := List.cons.inj shape
            exact ⟨rfl,below r (by simp),.held rest (fun s member => below s (by simp [member])) above⟩
          | missing shape below above =>
            obtain ⟨rfl,rest⟩ := List.cons.inj shape
            exact ⟨rfl,below r (by simp),.missing rest (fun s member => below s (by simp [member])) above⟩
        obtain ⟨rfl,less,split'⟩ := split'
        rw [if_pos less]
        have sound' : Sound rs := ⟨fun s member => sound.ids s (by simp [member]),fun s member => sound.payloads s (by simp [member]),
          (List.pairwise_cons.mp sound.ascending).2⟩
        have next := ih split' sound' (by simpa using enough) (front ++ encode b)
        rw [List.length_append] at next
        rw [encodeAll_cons,← List.append_assoc front,List.length_append,← Nat.add_assoc,next,encodeAll_cons,List.length_append,
          Nat.add_assoc front.length]

end

/-! ## Size classes -/

/-- `sizeof(ac_block_t)`, which is packed. -/
def slotSize : Nat := 10

def sizeTbl : List Nat :=
  [0,1,2,3,4,5,6,7,12,24,32,48,64,96,128,196,256,512,512 * 2,512 * 4,512 * 6,512 * 8,2048 * 6,2048 * 8,2048 * 12,2048 * 16,
    2048 * 24,2048 * 32,2048 * 48,65536 * 2,65536 * 3,65536 * 4,65536 * 8,65536 * 12,65536 * 16,65536 * 24,65536 * 32,
    65536 * 48,65536 * 64,65536 * 96,65536 * 128,65536 * 196,65536 * 256].map (· * slotSize)

/-- `size_tbl[block_id]`. -/
def blockSize (blockId : Nat) : Nat := sizeTbl.getD blockId 0

/-- The tree of comparisons of `get_block_id`; `none` where it aborts. -/
def classOf (blockSize : Nat → Nat) (size : Nat) : Option Nat :=
  if size ≤ blockSize 16 then
    if size ≤ blockSize 8 then
      if size ≤ blockSize 4 then
        if size ≤ blockSize 2 then
          if size ≤ blockSize 0 then some 0 else if size ≤ blockSize 1 then some 1 else some 2
        else if size ≤ blockSize 3 then some 3 else some 4
      else if size ≤ blockSize 6 then
        if size ≤ blockSize 5 then some 5 else some 6
      else if size ≤ blockSize 7 then some 7 else some 8
    else if size ≤ blockSize 12 then
      if size ≤ blockSize 10 then
        if size ≤ blockSize 9 then some 9 else some 10
      else if size ≤ blockSize 11 then some 11 else some 12
    else if size ≤ blockSize 14 then
      if size ≤ blockSize 13 then some 13 else some 14
    else if size ≤ blockSize 15 then some 15 else some 16
  else if size ≤ blockSize 32 then
    if size ≤ blockSize 24 then
      if size ≤ blockSize 20 then
        if size ≤ blockSize 18 then
          if size ≤ blockSize 17 then some 17 else some 18
        else if size ≤ blockSize 19 then some 19 else some 20
      else if size ≤ blockSize 22 then
        if size ≤ blockSize 21 then some 21 else some 22
      else if size ≤ blockSize 23 then some 23 else some 24
    else if size ≤ blockSize 28 then
      if size ≤ blockSize 26 then
        if size ≤ blockSize 25 then some 25 else some 26
      else if size ≤ blockSize 27 then some 27 else some 28
    else if size ≤ blockSize 30 then
      if size ≤ blockSize 29 then some 29 else some 30
    else if size ≤ blockSize 31 then some 31 else some 32
  else if size ≤ blockSize 33 then some 33
  else if size ≤ blockSize 34 then some 34
  else if size ≤ blockSize 35 then some 35
  else if size ≤ blockSize 36 then some 36
  else if size ≤ blockSize 37 then some 37
  else if size ≤ blockSize 38 then some 38
  else if size ≤ blockSize 39 then some 39
  else if size ≤ blockSize 40 then some 40
  else if size ≤ blockSize 41 then some 41
  else if size ≤ blockSize 42 then some 42
  else none

def getBlockId (size : Nat) : Option Nat := classOf blockSize size

/-- The largest size class. -/
def maxSize : Nat := 65536 * 256 * slotSize

/-- What a branch of the tree may return. -/
def Fits (blockSize : Nat → Nat) (size : Nat) : Option Nat → Prop
  | none => blockSize 42 < size
  | some blockId => blockId ≤ 42 ∧ size ≤ blockSize blockId

theorem fits_ite {blockSize : Nat → Nat} {size : Nat} {c : Prop} [Decidable c] {r r' : Option Nat}
    (yes : c → Fits blockSize size r) (no : ¬ c → Fits blockSize size r') : Fits blockSize size (if c then r else r') := by
  by_cases holds : c
  · rw [if_pos holds]
    exact yes holds
  · rw [if_neg holds]
    exact no holds

theorem classOf_fits (blockSize : Nat → Nat) (size : Nat) : Fits blockSize size (classOf blockSize size) := by
  unfold classOf
  repeat' first
    | exact ⟨by decide,by assumption⟩
    | exact Nat.not_le.mp (by assumption)
    | refine fits_ite (fun yes => ?_) fun no => ?_

theorem getBlockId_fits {size blockId : Nat} (found : getBlockId size = some blockId) : blockId ≤ 42 ∧ size ≤ blockSize blockId := by
  have fits := classOf_fits blockSize size
  rw [show classOf blockSize size = some blockId from found] at fits
  exact fits

theorem blockSize_le (blockId : Nat) : blockSize blockId ≤ maxSize := by
  have all : ∀ n ∈ sizeTbl, n ≤ maxSize := by decide
  rw [blockSize,List.getD_eq_getElem?_getD]
  cases found : sizeTbl[blockId]? with
  | none => exact Nat.zero_le _
  | some n => exact all n (List.mem_of_getElem? found)

theorem getBlockId_none {size : Nat} : getBlockId size = none ↔ maxSize < size := by
  constructor
  · intro aborted
    have fits := classOf_fits blockSize size
    rw [show classOf blockSize size = none from aborted] at fits
    exact fits
  · intro above
    cases found : getBlockId size with
    | none => rfl
    | some blockId =>
      have fits := (getBlockId_fits found).2
      have most := blockSize_le blockId
      omega

theorem getBlockId_some {size : Nat} (fits : size ≤ maxSize) : ∃ blockId, getBlockId size = some blockId := by
  cases found : getBlockId size with
  | none => exact absurd (getBlockId_none.mp found) (Nat.not_lt.mpr fits)
  | some blockId => exact ⟨blockId,rfl⟩

/-- The size class before the one that a branch of the tree returns is too small. -/
def Least (blockSize : Nat → Nat) (size : Nat) : Option Nat → Prop
  | none => True
  | some blockId => blockId = 0 ∨ blockSize (blockId - 1) < size

theorem least_ite {blockSize : Nat → Nat} {size : Nat} {c : Prop} [Decidable c] {r r' : Option Nat}
    (yes : c → Least blockSize size r) (no : ¬ c → Least blockSize size r') : Least blockSize size (if c then r else r') := by
  by_cases holds : c
  · rw [if_pos holds]
    exact yes holds
  · rw [if_neg holds]
    exact no holds

theorem classOf_least (blockSize : Nat → Nat) (size : Nat) : Least blockSize size (classOf blockSize size) := by
  unfold classOf
  repeat' first
    | exact trivial
    | exact .inl rfl
    | exact .inr (Nat.not_le.mp (by assumption))
    | refine least_ite (fun yes => ?_) fun no => ?_

theorem blockSize_mono {b c : Nat} (le : b ≤ c) (inside : c ≤ 42) : blockSize b ≤ blockSize c := by
  have all : ∀ c ≤ 42, ∀ b ≤ c, blockSize b ≤ blockSize c := by decide +kernel
  exact all c inside b le

theorem blockSize_step {b : Nat} (inside : b < 42) : blockSize b + slotSize ≤ blockSize (b + 1) := by
  have all : ∀ b < 42, blockSize b + slotSize ≤ blockSize (b + 1) := by decide +kernel
  exact all b inside

/-- The size class is the first that is large enough. -/
theorem getBlockId_iff {size blockId : Nat} :
    getBlockId size = some blockId ↔ blockId ≤ 42 ∧ size ≤ blockSize blockId ∧ (blockId = 0 ∨ blockSize (blockId - 1) < size) := by
  have forward : ∀ b, getBlockId size = some b → b ≤ 42 ∧ size ≤ blockSize b ∧ (b = 0 ∨ blockSize (b - 1) < size) := by
    intro b found
    obtain ⟨inside,fits⟩ := getBlockId_fits found
    have least := classOf_least blockSize size
    rw [show classOf blockSize size = some b from found] at least
    exact ⟨inside,fits,least⟩
  constructor
  · exact forward blockId
  · rintro ⟨inside,fits,least⟩
    obtain ⟨b,found⟩ := getBlockId_some (Nat.le_trans fits (blockSize_le blockId))
    obtain ⟨inside',fits',least'⟩ := forward b found
    rw [found]
    congr 1
    rcases Nat.lt_trichotomy b blockId with less | same | more
    · have mono := blockSize_mono (by omega : b ≤ blockId - 1) (by omega)
      omega
    · exact same
    · have mono := blockSize_mono (by omega : blockId ≤ b - 1) (by omega)
      omega

/-! ## Slots -/

/-- The eight bytes of a slot after its type and group: bytes of a record, or a pointer
    into a block. -/
inductive Cell
  | inline (bytes : List UInt8)
  | block (mem : List UInt8) (offset : Nat)
  deriving DecidableEq

/-- `ac_block_t`. -/
structure Slot where
  type : Nat
  group : Nat
  cell : Cell
  deriving DecidableEq

/-- The counters of a term, and `total_bytes`. -/
structure Counts where
  numIds : Nat
  bytes : Nat
  totalBytes : Nat
  deriving DecidableEq

/-- What `ac_s_alloc` returns for a size class, whatever it holds, and the eight bytes
    of the pointer in the slot. -/
structure Machine where
  alloc : Nat → List UInt8
  pointer : List UInt8
  alloc_length : ∀ blockId, (alloc blockId).length = blockSize blockId
  pointer_length : pointer.length = 8

/-- Memory of zeros. -/
def zeros : Machine where
  alloc := fun blockId => List.replicate (blockSize blockId) 0
  pointer := List.replicate 8 0
  alloc_length := fun blockId => List.length_replicate
  pointer_length := rfl

/-- `a - b` of `uint32_t`. -/
def sub32 (a b : Nat) : Nat := (a + (2 ^ 32 - b % 2 ^ 32)) % 2 ^ 32

/-- A record of `old` bytes becomes one of `new`. -/
def Counts.replace (t : Counts) (old new : Nat) : Counts :=
  { t with bytes := (sub32 t.bytes old + new) % 2 ^ 32, totalBytes := (sub32 t.totalBytes old + new) % 2 ^ 32 }

def Counts.insert (t : Counts) (new : Nat) : Counts :=
  { numIds := (t.numIds + 1) % 2 ^ 32, bytes := (t.bytes + new) % 2 ^ 32, totalBytes := (t.totalBytes + new) % 2 ^ 32 }

/-- `*(uint32_t *)(p)`. -/
def readNumber (mem : List UInt8) (p : Nat) : Option Nat :=
  match mem.drop p with
  | b0 :: b1 :: b2 :: b3 :: _ => some (number [b0,b1,b2,b3])
  | _ => none

theorem readNumber_bytes {n : Nat} (small : n < 2 ^ 32) (rest : List UInt8) : readNumber (bytes 4 n ++ rest) 0 = some n := by
  have whole := number_bytes 4 n
  rw [Nat.mod_eq_of_lt (by omega)] at whole
  exact congrArg some whole

/-- The block that holds the records. -/
structure HoldsBlock (mem : List UInt8) (rs : List Record) : Prop where
  fits : 4 + (encodeAll rs).length ≤ maxSize
  size : ∃ blockId, getBlockId (4 + (encodeAll rs).length) = some blockId ∧ mem.length = blockSize blockId
  content : ∃ slack, mem = bytes 4 (encodeAll rs).length ++ encodeAll rs ++ slack

/-- The parts of a block around a stretch of it. -/
theorem parts_spec {H B O A slack mem : List UInt8} (four : H.length = 4) (shape : mem = H ++ (B ++ O ++ A) ++ slack) :
    (mem.drop 4).take B.length = B ∧ (mem.drop (4 + B.length + O.length)).take A.length = A := by
  have place : 4 + B.length + O.length = (H ++ B ++ O).length := by
    rw [List.length_append,List.length_append,four]
  have whole : mem = (H ++ B ++ O) ++ (A ++ slack) := by
    rw [shape]
    simp only [List.append_assoc]
  constructor
  · rw [shape,List.append_assoc,List.append_assoc,List.append_assoc,← four,List.drop_left,List.take_left]
  · rw [whole,place,List.drop_left,List.take_left]

theorem stretch_spec {H B O A slack mem : List UInt8} (four : H.length = 4) (shape : mem = H ++ (B ++ O ++ A) ++ slack) :
    (mem.drop (4 + B.length)).take O.length = O := by
  have place : 4 + B.length = (H ++ B).length := by rw [List.length_append,four]
  have whole : mem = (H ++ B) ++ (O ++ (A ++ slack)) := by
    rw [shape]
    simp only [List.append_assoc]
  rw [whole,place,List.drop_left,List.take_left]

/-- What the code finds in a block. -/
theorem HoldsBlock.find {mem : List UInt8} {rs before after : List Record} {id : Nat} {d : Option (List UInt8)}
    (block : HoldsBlock mem rs) (sound : Sound rs) (split : Split rs id before d after) :
    readNumber mem 0 = some (encodeAll rs).length ∧
      findIdInBlock (mem.length + 1) mem 4 (4 + (encodeAll rs).length) id =
        some (4 + (encodeAll before).length,d.map fun d => 4 + (encodeAll before).length + (encode (id,d)).length) := by
  obtain ⟨slack,shape⟩ := block.content
  have fits := block.fits
  have largest : maxSize < 2 ^ 32 := by decide
  constructor
  · rw [shape,List.append_assoc]
    exact readNumber_bytes (by omega) _
  · have fuel : rs.length < mem.length + 1 := by
      have many := length_le_bytes sound.payloads
      have total := congrArg List.length shape
      rw [List.length_append,List.length_append] at total
      omega
    have found := find_spec split sound fuel (bytes 4 (encodeAll rs).length) slack
    rw [← shape,bytes_length] at found
    exact found

/-- A well-formed group of these records: one record in the slot, or all of them in a
    block, as the type bit says. -/
structure Holds (g : Slot) (rs : List Record) : Prop where
  sound : Sound rs
  some_ : rs ≠ []
  stored : g.type = 0 ∧ (∃ r slack, rs = [r] ∧ g.cell = .inline (encode r ++ slack) ∧ (encode r ++ slack).length = 8) ∨
    g.type = 1 ∧ ∃ mem, g.cell = .block mem 0 ∧ HoldsBlock mem rs

/-! ## One reading -/

section
variable {rs ss : List Record} {r s : Record} {x y : List UInt8}

theorem encode_cancel (left : Payload r.2) (right : Payload s.2) (small : r.1 < 4096) (small' : s.1 < 4096)
    (equal : encode r ++ x = encode s ++ y) : r = s ∧ x = y := by
  have first := advanceId_encode left small x
  have second := advanceId_encode right small' y
  rw [equal,second] at first
  obtain ⟨length,id⟩ := Prod.mk.inj (Option.some.inj first)
  obtain ⟨same,rest⟩ := List.append_inj equal length.symm
  refine ⟨?_,rest⟩
  obtain ⟨control,body,shape,nibble,_⟩ := left.control
  obtain ⟨control',body',shape',nibble',_⟩ := right.control
  obtain ⟨stored,_⟩ := head_bits small nibble
  obtain ⟨stored',_⟩ := head_bits small' nibble'
  rw [encode,encode,shape,shape',copyData,copyData] at same
  obtain ⟨head,bodies⟩ := List.append_inj same (by rw [bytes_length,bytes_length])
  have value : r.1 <<< 4 ||| control.toNat = s.1 <<< 4 ||| control'.toNat := by rw [← stored,← stored',head]
  have low : control.toNat = control'.toNat := by
    rw [← Nat.shiftLeft_add_eq_or_of_lt (by omega : control.toNat < 2 ^ 4),← Nat.shiftLeft_add_eq_or_of_lt (by omega : control'.toNat < 2 ^ 4),
      id] at value
    omega
  have same_ : control = control' := UInt8.toNat_inj.mp low
  exact Prod.ext id.symm (by rw [shape,shape',same_,bodies])

theorem encodeAll_cancel (left : Sound rs) (right : Sound ss) (equal : encodeAll rs = encodeAll ss) : rs = ss := by
  have tail : ∀ {r : Record} {rs : List Record}, Sound (r :: rs) → Sound rs := by
    intro r rs sound
    exact ⟨fun s member => sound.ids s (by simp [member]),fun s member => sound.payloads s (by simp [member]),
      (List.pairwise_cons.mp sound.ascending).2⟩
  have filled : ∀ {r : Record} {rs : List Record}, Sound (r :: rs) → encodeAll (r :: rs) ≠ [] := by
    intro r rs sound empty
    have two := encode_two (sound.payloads r (by simp))
    rw [encodeAll_cons] at empty
    rw [(List.append_eq_nil_iff.mp empty).1] at two
    exact absurd two (by decide)
  induction rs generalizing ss with
  | nil =>
    cases ss with
    | nil => rfl
    | cons s ss => exact absurd equal.symm (filled right)
  | cons r rs ih =>
    cases ss with
    | nil => exact absurd equal (filled left)
    | cons s ss =>
      rw [encodeAll_cons,encodeAll_cons] at equal
      obtain ⟨same,rest⟩ := encode_cancel (left.payloads r (by simp)) (right.payloads s (by simp)) (left.ids r (by simp))
        (right.ids s (by simp)) equal
      rw [same,ih (tail left) (tail right) rest]

/-- A slot holds one list of records at most. -/
theorem holds_unique {g : Slot} (left : Holds g rs) (right : Holds g ss) : rs = ss := by
  rcases left.stored with ⟨type,r,slack,shape,cell,_⟩ | ⟨type,mem,cell,block⟩
  · rcases right.stored with ⟨_,s,slack',shape',cell',_⟩ | ⟨type',_⟩
    · have equal : encode r ++ slack = encode s ++ slack' := Cell.inline.inj (cell.symm.trans cell')
      subst shape shape'
      obtain ⟨same,_⟩ := encode_cancel (left.sound.payloads r (by simp)) (right.sound.payloads s (by simp))
        (left.sound.ids r (by simp)) (right.sound.ids s (by simp)) equal
      rw [same]
    · rw [type] at type'
      cases type'
  · rcases right.stored with ⟨type',_⟩ | ⟨_,mem',cell',block'⟩
    · rw [type] at type'
      cases type'
    · obtain ⟨rfl,_⟩ := Cell.block.inj (cell.symm.trans cell')
      obtain ⟨slack,shape⟩ := block.content
      obtain ⟨slack',shape'⟩ := block'.content
      have fits := block.fits
      have fits' := block'.fits
      have largest : maxSize < 2 ^ 32 := by decide
      have header := readNumber_bytes (by omega : (encodeAll rs).length < 2 ^ 32) (encodeAll rs ++ slack)
      have header' := readNumber_bytes (by omega : (encodeAll ss).length < 2 ^ 32) (encodeAll ss ++ slack')
      rw [← List.append_assoc,← shape] at header
      rw [← List.append_assoc,← shape',header] at header'
      have length := Option.some.inj header'
      rw [shape] at shape'
      have parts := (List.append_inj shape' (by rw [List.length_append,List.length_append,bytes_length,bytes_length,length])).1
      exact encodeAll_cancel left.sound right.sound (List.append_inj parts (by rw [bytes_length,bytes_length])).2

end

end AnotherC.Groups
