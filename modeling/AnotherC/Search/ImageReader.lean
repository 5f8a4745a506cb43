import AnotherC.Lib.Scan
import AnotherC.Search.ImageGroups

/-!
# Reading a term of an image: `ac_search_builder_image_advance`

The reader stands on an id of a term and is advanced to the next one, or to a target.
`image_reader_fine` says what the calls of a run answer as long as each of them is `Fine`:
the first seek does not compare the id it comes to in group 0, a seek that runs out of
groups leaves the last of them to be read, one that runs out of ids stands on the last
of them, and the number of the group is taken from only 28 bits of the target.
-/
namespace AnotherC.ImageReader
open AnotherC.Lib.Bytes AnotherC.Lib.Cursor AnotherC.Lib.Scan AnotherC.ImageGroups
set_option linter.unusedVariables false

/-! ## The reader -/

/-- What `advance_id` reads after the id and its control bits: the value, where `wp` is and
    where the record ends. -/
def readBody (control : Nat) (p : List UInt8) : Option (Int × Nat × Nat) :=
  if control &&& 8 ≠ 0 then
    let control := control - 8
    if control = 0 then
      match p with
      | b0 :: b1 :: b2 :: b3 :: _ => some (0,4,4 + (number [b0,b1,b2,b3] + 1) % 2 ^ 32)
      | _ => none
    else some (0,0,control + 1)
  else if control < 5 then some (control,0,0)
  else if control = 5 then
    match p with
    | b :: _ => some (b.toNat,1,1)
    | _ => none
  else if control = 6 then
    match p with
    | b0 :: b1 :: _ => some (number [b0,b1],2,2)
    | _ => none
  else
    match p with
    | b0 :: b1 :: b2 :: b3 :: _ => some (int32 (number [b0,b1,b2,b3]),4,4)
    | _ => none

def advanceId (t : ImageTerm) : Option ImageTerm :=
  match t.p with
  | b0 :: b1 :: p =>
    let id := number [b0,b1]
    (readBody (id &&& 0xF) p).map fun (value,wp,n) =>
      { t with id := (id >>> 4) + t.gid, value := value, p := p.drop n, left := t.left - (2 + n), wp := (p.drop wp).take (n - wp) }
  | _ => none

/-- The first id of the next group. -/
def nextGroup (t : ImageTerm) : Option (Bool × ImageTerm) :=
  if t.groups = 0 then some (false,t)
  else (advanceGroup t).bind fun t => (advanceId t).map fun t => (true,t)

def imageAdvance (t : ImageTerm) : Option (Bool × ImageTerm) :=
  if t.left = 0 then nextGroup t else (advanceId t).map fun t => (true,t)

/-- `while(t->gid < gid)`; false where it runs out of groups. -/
def skipGroups : Nat → ImageTerm → Nat → Option (Bool × ImageTerm)
  | 0, _, _ => none
  | fuel + 1, t, gid =>
    if t.gid < gid then
      if t.groups = 0 then some (false,t) else (advanceGroup t).bind fun t => skipGroups fuel t gid
    else some (true,t)

/-- `while(id > t->id && t->p < t->ep)`. -/
def scanIds : Nat → ImageTerm → Nat → Option ImageTerm
  | 0, _, _ => none
  | fuel + 1, t, id => if id > t.id ∧ t.left ≠ 0 then (advanceId t).bind fun t => scanIds fuel t id else some t

/-- What both paths of `ac_search_builder_image_advance_to` end with. -/
def seekInGroup (t : ImageTerm) (id : Nat) : Option (Bool × ImageTerm) :=
  (scanIds (t.left + 1) t id).bind fun t => if id ≤ t.id then some (true,t) else nextGroup t

/-- The path for a target in a later group. -/
def seekLater (t : ImageTerm) (gid id : Nat) : Option (Bool × ImageTerm) :=
  match skipGroups (t.groups + 1) t gid with
  | none => none
  | some (false,t) => some (false,t)
  | some (true,t) => (advanceId t).bind fun t => if gid < t.gid then some (true,t) else seekInGroup t id

def imageAdvanceTo (t : ImageTerm) (id : Nat) : Option (Bool × ImageTerm) :=
  if id ≤ t.id then some (true,t)
  else
    let gid := id &&& 0xffff000
    if t.gid < gid then seekLater t gid id else seekInGroup t id

/-- The reader of the term whose groups are at `offs` of `term_data`. -/
def fillTerm (termData : List UInt8) (offs : Nat) : ImageTerm where
  gp := termData.drop offs
  groups := number ((termData.drop (offs - 4)).take 4)
  p := []
  left := 0
  wp := []
  gid := 0
  id := 0
  value := 0

def call (t : ImageTerm) : Call → Option (Bool × ImageTerm)
  | .advance => imageAdvance t
  | .advanceTo id => imageAdvanceTo t id

/-! ## Encoded terms -/

/-- What may follow an id with these control bits. -/
inductive Body : Nat → List UInt8 → Prop
  | direct {control : Nat} (small : control < 5) : Body control []
  | uint8 (b : UInt8) : Body 5 [b]
  | uint16 (b0 b1 : UInt8) : Body 6 [b0,b1]
  | int32 (b0 b1 b2 b3 : UInt8) : Body 7 [b0,b1,b2,b3]
  | few {positions : List UInt8} (length : 2 ≤ positions.length ∧ positions.length ≤ 8) :
    Body (8 + (positions.length - 1)) positions
  | many {positions : List UInt8} (length : 1 ≤ positions.length ∧ positions.length < 2 ^ 32) :
    Body 8 (bytes 4 (positions.length - 1) ++ positions)

/-- An id of a group, with its control bits and the bytes that follow. -/
structure IdRecord where
  id : Nat
  control : Nat
  body : List UInt8
  small : id < 4096
  shape : Body control body

def encodeRecord (r : IdRecord) : List UInt8 := bytes 2 (r.id <<< 4 ||| r.control) ++ r.body

def encodeRecords (rs : List IdRecord) : List UInt8 := rs.flatMap encodeRecord

/-- A group of a term: its ids ascend, and its length fits into the header. -/
structure ImageGroup where
  number : Nat
  records : List IdRecord
  small : number < 2 ^ 16
  some_ : records ≠ []
  ascending : records.Pairwise fun r s => r.id < s.id
  fits : (encodeRecords records).length ≤ 4194303

def encodeImageGroup (g : ImageGroup) : List UInt8 :=
  bytes 2 g.number ++ encodeLength (encodeRecords g.records).length ++ encodeRecords g.records

def encodeGroups (gs : List ImageGroup) : List UInt8 := gs.flatMap encodeImageGroup

/-- The ids of a group in the term. -/
def idsFrom (gid : Nat) (rs : List IdRecord) : List (Nat × IdRecord) := rs.map fun r => (r.id + gid,r)

def ids (gs : List ImageGroup) : List (Nat × IdRecord) := gs.flatMap fun g => idsFrom (g.number <<< 12) g.records

section
variable {control n : Nat} {body q : List UInt8} {r : IdRecord} {rs : List IdRecord} {g : ImageGroup} {gs : List ImageGroup}
  {t : ImageTerm}

theorem Body.control_lt (shape : Body control body) : control < 16 := by
  cases shape with
  | direct small => omega
  | uint8 b => decide
  | uint16 b0 b1 => decide
  | int32 b0 b1 b2 b3 => decide
  | few length => omega
  | many length => decide

/-- The whole body is read. -/
theorem Body.read (shape : Body control body) (q : List UInt8) :
    ∃ value wp, readBody control (body ++ q) = some (value,wp,body.length) := by
  cases shape with
  | direct small =>
    have flag : ∀ c < 5, ¬ c &&& 8 ≠ 0 := by decide
    exact ⟨_,_,(if_neg (flag control small)).trans (if_pos small)⟩
  | uint8 b => exact ⟨_,_,rfl⟩
  | uint16 b0 b1 => exact ⟨_,_,rfl⟩
  | int32 b0 b1 b2 b3 => exact ⟨_,_,rfl⟩
  | few length =>
    have flag : ∀ c < 8, (8 + c) &&& 8 ≠ 0 := by decide
    refine ⟨0,0,?_⟩
    have less : 8 + (body.length - 1) - 8 = body.length - 1 := by omega
    have count : body.length - 1 + 1 = body.length := by omega
    unfold readBody
    rw [if_pos (flag _ (by omega))]
    simp only [less,if_neg (by omega : ¬ body.length - 1 = 0),count]
  | @many positions length =>
    refine ⟨0,4,?_⟩
    have whole := number_bytes 4 (positions.length - 1)
    have back : (positions.length - 1) % 256 ^ 4 = positions.length - 1 := Nat.mod_eq_of_lt (by omega)
    have read : number [UInt8.ofNat (positions.length - 1),UInt8.ofNat ((positions.length - 1) / 256),
        UInt8.ofNat ((positions.length - 1) / 256 / 256),UInt8.ofNat ((positions.length - 1) / 256 / 256 / 256)] =
        positions.length - 1 := whole.trans back
    have found : readBody 8 (bytes 4 (positions.length - 1) ++ positions ++ q) = some (0,4,4 + (number
        [UInt8.ofNat (positions.length - 1),UInt8.ofNat ((positions.length - 1) / 256),
        UInt8.ofNat ((positions.length - 1) / 256 / 256),UInt8.ofNat ((positions.length - 1) / 256 / 256 / 256)] + 1) % 2 ^ 32) := rfl
    have count : 4 + (positions.length - 1 + 1) % 2 ^ 32 = (bytes 4 (positions.length - 1) ++ positions).length := by
      rw [List.length_append,bytes_length]
      omega
    rw [found,read,count]

theorem low_bits {r : IdRecord} : (r.id <<< 4 ||| r.control) &&& 0xF = r.control ∧ (r.id <<< 4 ||| r.control) >>> 4 = r.id ∧
    number (bytes 2 (r.id <<< 4 ||| r.control)) = r.id <<< 4 ||| r.control := by
  have nibble := r.shape.control_lt
  have small := r.small
  have value : r.id <<< 4 ||| r.control = r.id * 16 + r.control := by
    rw [← Nat.shiftLeft_add_eq_or_of_lt (by omega : r.control < 2 ^ 4),Nat.shiftLeft_eq]
  have low : (r.id <<< 4 ||| r.control) &&& 0xF = (r.id <<< 4 ||| r.control) % 16 := Nat.and_two_pow_sub_one_eq_mod _ 4
  refine ⟨by rw [low,value]; omega,by rw [Nat.shiftRight_eq_div_pow,value]; omega,?_⟩
  rw [number_bytes,value]
  exact Nat.mod_eq_of_lt (by omega)

theorem encodeRecord_length (r : IdRecord) : (encodeRecord r).length = 2 + r.body.length := by
  rw [encodeRecord,List.length_append,bytes_length]

/-- What `advance_id` does at a record. -/
theorem advanceId_encode (here : t.p = encodeRecord r ++ q) :
    ∃ value wp, advanceId t = some { t with
      id := r.id + t.gid, value := value, p := q, left := t.left - (encodeRecord r).length, wp := wp } := by
  obtain ⟨low,high,stored⟩ := low_bits (r := r)
  obtain ⟨v,v_eq⟩ : ∃ v, v = r.id <<< 4 ||| r.control := ⟨_,rfl⟩
  rw [← v_eq] at low high stored
  have stored' : number [UInt8.ofNat v,UInt8.ofNat (v / 256)] = v := stored
  obtain ⟨value,wp,read⟩ := r.shape.read q
  have front : t.p = UInt8.ofNat v :: UInt8.ofNat (v / 256) :: (r.body ++ q) := by
    rw [here,encodeRecord,← v_eq]
    rfl
  refine ⟨value,((r.body ++ q).drop wp).take (r.body.length - wp),?_⟩
  rw [advanceId,front]
  simp only [stored',low,high,read,Option.map_some,List.drop_left,encodeRecord_length]

/-! ## Where the reader is -/

/-- The groups ascend. -/
def GroupsAscend (gs : List ImageGroup) : Prop := gs.Pairwise fun g h => g.number < h.number

/-- Memory with the groups that are still to be read. -/
structure Ahead (t : ImageTerm) (gs : List ImageGroup) : Prop where
  gp : ∃ after, t.gp = encodeGroups gs ++ after
  groups : t.groups = (encodeGroups gs).length
  ascend : GroupsAscend gs

/-- The reader has `rs` left in its group, and the groups `gs` after it. -/
structure Reads (t : ImageTerm) (rs : List IdRecord) (gs : List ImageGroup) : Prop extends Ahead t gs where
  p : ∃ slack, t.p = encodeRecords rs ++ slack
  left : t.left = (encodeRecords rs).length
  ascending : rs.Pairwise fun r s => r.id < s.id
  group : ∃ number, t.gid = number <<< 12 ∧ ∀ g ∈ gs, number < g.number

def ahead (t : ImageTerm) (rs : List IdRecord) (gs : List ImageGroup) : List (Nat × IdRecord) := idsFrom t.gid rs ++ ids gs

theorem encodeRecords_cons (r : IdRecord) (rs : List IdRecord) : encodeRecords (r :: rs) = encodeRecord r ++ encodeRecords rs := rfl

theorem length_le_records (rs : List IdRecord) : rs.length ≤ (encodeRecords rs).length := by
  induction rs with
  | nil => exact Nat.le_refl 0
  | cons r rs ih =>
    rw [encodeRecords_cons,List.length_append,encodeRecord_length,List.length_cons]
    omega

theorem encodeGroups_cons (g : ImageGroup) (gs : List ImageGroup) : encodeGroups (g :: gs) = encodeImageGroup g ++ encodeGroups gs := rfl

theorem Reads.left_iff (reads : Reads t rs gs) : t.left = 0 ↔ rs = [] := by
  rw [reads.left]
  cases rs with
  | nil => simp [encodeRecords]
  | cons r rs =>
    rw [encodeRecords_cons,List.length_append,encodeRecord_length]
    exact ⟨fun zero => by omega,fun no => by cases no⟩

theorem encodeImageGroup_length (g : ImageGroup) : (encodeImageGroup g).length =
    2 + (encodeLength (encodeRecords g.records).length).length + (encodeRecords g.records).length := by
  rw [encodeImageGroup,List.length_append,List.length_append,bytes_length]

theorem Ahead.groups_iff (ahead : Ahead t gs) : t.groups = 0 ↔ gs = [] := by
  rw [ahead.groups]
  cases gs with
  | nil => simp [encodeGroups]
  | cons g gs =>
    rw [encodeGroups_cons,List.length_append,encodeImageGroup_length]
    exact ⟨fun zero => by omega,fun no => by cases no⟩

/-- The reader at the next group. -/
theorem advanceGroup_spec (ahead : Ahead t (g :: gs)) :
    ∃ t', advanceGroup t = some t' ∧ Reads t' g.records gs ∧ t'.gid = g.number <<< 12 ∧ t'.id = t.id := by
  obtain ⟨after,gp⟩ := ahead.gp
  have groups := ahead.groups
  rw [encodeGroups_cons,List.length_append,encodeImageGroup_length] at groups
  have fits := g.fits
  have len : (if (encodeRecords g.records).length % 2 ^ 32 ≤ 16383 then (encodeRecords g.records).length % 2 ^ 32
      else (encodeRecords g.records).length % 2 ^ 22) = (encodeRecords g.records).length := by
    split <;> omega
  have shape : t.gp = bytes 2 g.number ++ (encodeLength (encodeRecords g.records).length ++
      (encodeRecords g.records ++ (encodeGroups gs ++ after))) := by
    rw [gp,encodeGroups_cons,encodeImageGroup]
    simp only [List.append_assoc]
  have number_ : number [UInt8.ofNat g.number,UInt8.ofNat (g.number / 256)] = g.number := by
    have whole := number_bytes 2 g.number
    have small := g.small
    rw [Nat.mod_eq_of_lt (by omega)] at whole
    exact whole
  have read : advanceGroup t = some { t with
      p := encodeRecords g.records ++ (encodeGroups gs ++ after), left := (encodeRecords g.records).length,
      gp := encodeGroups gs ++ after, gid := g.number <<< 12,
      groups := t.groups - (2 + (encodeLength (encodeRecords g.records).length).length + (encodeRecords g.records).length) } := by
    rw [advanceGroup,shape]
    simp only [bytes,List.cons_append,List.nil_append,readLength_encodeLength,Option.map_some,number_,len,List.drop_left]
  obtain ⟨above,ascend⟩ := List.pairwise_cons.mp ahead.ascend
  refine ⟨_,read,⟨⟨⟨after,rfl⟩,?_,ascend⟩,⟨_,rfl⟩,rfl,g.ascending,g.number,rfl,above⟩,rfl,rfl⟩
  show t.groups - _ = _
  omega

/-- The reader after the next id. -/
theorem advanceId_spec (reads : Reads t (r :: rs) gs) :
    ∃ t', advanceId t = some t' ∧ Reads t' rs gs ∧ t'.gid = t.gid ∧ t'.id = r.id + t.gid := by
  obtain ⟨slack,here⟩ := reads.p
  rw [encodeRecords_cons,List.append_assoc] at here
  obtain ⟨value,wp,read⟩ := advanceId_encode here
  have left := reads.left
  rw [encodeRecords_cons,List.length_append] at left
  refine ⟨_,read,⟨⟨reads.gp,reads.groups,reads.ascend⟩,⟨slack,rfl⟩,?_,(List.pairwise_cons.mp reads.ascending).2,reads.group⟩,rfl,rfl⟩
  show t.left - _ = _
  omega

/-! ## What the calls answer -/

/-- What the calls so far have delivered: nothing, an id, or false after an id or after
    nothing. -/
inductive Standing
  | fresh
  | on (item : Nat × IdRecord)
  | ended (last : Option (Nat × IdRecord))

def lastId : Option (Nat × IdRecord) → Nat
  | none => 0
  | some item => item.1

/-- The item that was delivered last. -/
def Standing.last : Standing → Option (Nat × IdRecord)
  | .fresh => none
  | .on item => some item
  | .ended last => last

def deliver (s : Standing) : Option (Nat × IdRecord) → Bool × Standing
  | none => (false,.ended s.last)
  | some item => (true,.on item)

def answer (items : List (Nat × IdRecord)) (s : Standing) (order : Call) : Bool × Standing :=
  match s, order with
  | .ended last, .advance => (false,.ended last)
  | .ended last, .advanceTo target => (decide (target ≤ lastId last),.ended last)
  | .fresh, .advance => deliver .fresh items.head?
  | .on item, .advance => deliver (.on item) (above items item.1)
  | s, .advanceTo target => if target ≤ lastId s.last then (true,s) else deliver s (seek items target)

/-- The group that `advance_to` looks for. -/
def targetGroup (target : Nat) : Nat := target &&& 0xffff000

/-- Where a call does what it should: not where a seek comes to a first id below its target
    in group 0, where it has skipped or scanned to the end before, or where a group lies
    beyond the one of a target whose highest bits are not looked at. -/
def Fine (items : List (Nat × IdRecord)) (t : ImageTerm) (s : Standing) (order : Call) : Prop :=
  match s, order with
  | .ended _, .advance => t.left = 0
  | .ended last, .advanceTo target => target ≤ lastId last ∨ ∀ x ∈ items, x.1 < target
  | .fresh, .advanceTo target => target = 0 ∨
      if target < 2 ^ 28 then ∀ first, items.head? = some first → target < 4096 → target ≤ first.1
      else items = [] ∨ 0 < targetGroup target ∧ ∀ x ∈ items, x.1 < targetGroup target + 4096
  | .on item, .advanceTo target => target < 2 ^ 28 ∨
      ∀ x ∈ items, x.1 < max (targetGroup target) (item.1 / 4096 * 4096) + 4096
  | _, .advance => True

/-- Every call of the run is fine where it is made. -/
def FineRun (items : List (Nat × IdRecord)) : ImageTerm → Standing → List Call → Prop
  | _, _, [] => True
  | t, s, order :: calls => Fine items t s order ∧
      ∀ b t', call t order = some (b,t') → FineRun items t' (answer items s order).2 calls

/-- Every call of the run returns, and answers what it should; the reader then has the id
    that is delivered, and is unchanged where the target is not above the last one. -/
def Answers (items : List (Nat × IdRecord)) : ImageTerm → Standing → List Call → Prop
  | _, _, [] => True
  | t, s, order :: calls => ∃ t', call t order = some ((answer items s order).1,t') ∧
      (∀ item, (answer items s order).2 = .on item → t'.id = item.1) ∧
      (∀ target, order = .advanceTo target → target ≤ lastId s.last → t' = t) ∧
      Answers items t' (answer items s order).2 calls

/-! ## Single steps -/

variable {items done : List (Nat × IdRecord)} {item : Nat × IdRecord} {target last : Nat}

/-- The reader has just delivered an item. -/
def On (items : List (Nat × IdRecord)) (t : ImageTerm) (item : Nat × IdRecord) : Prop :=
  ∃ rs gs, Stands items item (ahead t rs gs) ∧ Reads t rs gs ∧ t.id = item.1 ∧ t.gid = (item.1 / 4096) <<< 12

/-- The reader has answered false, and there are no further groups. -/
def Over (items : List (Nat × IdRecord)) (t : ImageTerm) (last : Nat) : Prop :=
  ∃ rs, Reads t rs [] ∧ (∀ x ∈ idsFrom t.gid rs, x ∈ items ∧ last ≤ x.1) ∧ last ≤ t.id ∧
    (t.id = last ∨ ∃ x ∈ items, x.1 = t.id)

theorem idsFrom_bounds {number : Nat} {x : Nat × IdRecord} (member : x ∈ idsFrom (number <<< 12) rs) :
    number <<< 12 ≤ x.1 ∧ x.1 < (number + 1) <<< 12 := by
  obtain ⟨r,_,rfl⟩ := List.mem_map.mp member
  have small := r.small
  simp only
  omega

theorem ids_bounds {number : Nat} {x : Nat × IdRecord} (above : ∀ g ∈ gs, number < g.number) (member : x ∈ ids gs) :
    (number + 1) <<< 12 ≤ x.1 := by
  obtain ⟨g,held,inside⟩ := List.mem_flatMap.mp member
  have bounds := idsFrom_bounds inside
  have less := above g held
  omega

theorem ascending_ids (ascend : GroupsAscend gs) : Ascending (ids gs) := by
  refine List.pairwise_flatMap.mpr ⟨fun g member => ?_,ascend.imp fun {g h} less x inside y inside' => ?_⟩
  · refine List.pairwise_map.mpr (g.ascending.imp fun {r s} less => ?_)
    show r.id + _ < s.id + _
    omega
  · have upper := idsFrom_bounds inside
    have lower := idsFrom_bounds inside'
    omega

/-- The record that is read is the next item. -/
theorem advanceId_on (ascending : Ascending items) (shape : items = done ++ ahead t (r :: rs) gs) (reads : Reads t (r :: rs) gs) :
    ∃ t', advanceId t = some t' ∧ On items t' (r.id + t.gid,r) ∧ Reads t' rs gs ∧ t'.gid = t.gid := by
  obtain ⟨t',read,reads',gid,id⟩ := advanceId_spec reads
  have next : ahead t (r :: rs) gs = (r.id + t.gid,r) :: ahead t' rs gs := by
    rw [ahead,ahead,gid]
    rfl
  obtain ⟨number,number_eq,_⟩ := reads.group
  have small := r.small
  refine ⟨t',read,⟨rs,gs,⟨ascending,done,by rw [shape,next]⟩,reads',id,?_⟩,reads',gid⟩
  rw [gid]
  simp only
  omega

theorem nextGroup_on (ascending : Ascending items) (shape : items = done ++ ids (g :: gs)) (ahead_ : Ahead t (g :: gs)) :
    ∃ t', nextGroup t = some (true,t') ∧ ∃ first, (ids (g :: gs)).head? = some first ∧ On items t' first := by
  have some_ : ¬ t.groups = 0 := fun zero => by cases ahead_.groups_iff.mp zero
  obtain ⟨t',loaded,reads,gid,_⟩ := advanceGroup_spec ahead_
  obtain ⟨r,rs,records⟩ := List.exists_cons_of_ne_nil g.some_
  have first : ids (g :: gs) = ahead t' (r :: rs) gs := by
    rw [ahead,gid,← records]
    rfl
  rw [records] at reads
  obtain ⟨t'',read,on,_⟩ := advanceId_on ascending (by rw [shape,first]) reads
  refine ⟨t'',?_,_,by rw [first]; rfl,on⟩
  rw [nextGroup,if_neg some_,loaded,Option.bind_some,read,Option.map_some]

theorem nextGroup_none (ahead : Ahead t []) : nextGroup t = some (false,t) := if_pos (ahead.groups_iff.mpr rfl)

/-- The scan stops at the first id from the target on, or at the end of the group. -/
theorem scanIds_spec {fuel : Nat} (reads : Reads t rs gs) (below : t.id < target) (enough : rs.length < fuel) :
    (∃ t' front r rs', scanIds fuel t target = some t' ∧ rs = front ++ r :: rs' ∧ Reads t' rs' gs ∧ t'.gid = t.gid ∧
      t'.id = r.id + t.gid ∧ target ≤ t'.id ∧ ∀ x ∈ idsFrom t.gid front, x.1 < target) ∨
    ∃ t', scanIds fuel t target = some t' ∧ Reads t' [] gs ∧ t'.gid = t.gid ∧ t'.id < target ∧
      (t'.id = t.id ∨ ∃ x ∈ idsFrom t.gid rs, x.1 = t'.id) ∧ ∀ x ∈ idsFrom t.gid rs, x.1 < target := by
  induction fuel generalizing t rs with
  | zero => exact absurd enough (Nat.not_lt_zero _)
  | succ fuel ih =>
    rw [scanIds]
    cases rs with
    | nil =>
      rw [if_neg (fun both => both.2 (reads.left_iff.mpr rfl))]
      exact .inr ⟨t,rfl,reads,rfl,below,.inl rfl,by simp [idsFrom]⟩
    | cons r rs =>
      obtain ⟨t',read,reads',gid,id⟩ := advanceId_spec reads
      rw [if_pos ⟨below,fun zero => by cases reads.left_iff.mp zero⟩,read,Option.bind_some]
      by_cases reached : target ≤ t'.id
      · refine .inl ⟨t',[],r,rs,?_,rfl,reads',gid,id,reached,by simp [idsFrom]⟩
        cases fuel with
        | zero => simp at enough
        | succ fuel => exact if_neg (fun both => by omega)
      · have first : ∀ x ∈ idsFrom t.gid [r], x.1 < target := by
          intro x member
          rw [List.mem_singleton.mp member]
          simp only
          omega
        rcases ih reads' (Nat.not_le.mp reached) (by simpa using enough) with
          ⟨t'',front,r',rs',scans,shape,reads'',gid',id',reached',passed⟩ | ⟨t'',scans,reads'',gid',less,from_,passed⟩
        · rw [gid] at passed id' gid'
          refine .inl ⟨t'',r :: front,r',rs',scans,by rw [shape,List.cons_append],reads'',gid',id',reached',?_⟩
          intro x member
          rcases List.mem_cons.mp member with rfl | later
          · exact first _ (List.mem_singleton_self _)
          · exact passed x later
        · rw [gid] at passed from_ gid'
          refine .inr ⟨t'',scans,reads'',gid',less,.inr ?_,fun x member => ?_⟩
          · rcases from_ with same | ⟨x,member,same⟩
            · exact ⟨_,List.mem_cons_self,by rw [same,id]⟩
            · exact ⟨x,List.mem_cons_of_mem _ member,same⟩
          · rcases List.mem_cons.mp member with rfl | later
            · exact first _ (List.mem_singleton_self _)
            · exact passed x later

/-- The item that should be found is delivered; without one the answer is false. -/
def Delivers (items : List (Nat × IdRecord)) (found : Option (Nat × IdRecord)) (last : Nat)
    (result : Option (Bool × ImageTerm)) : Prop :=
  (∀ item, found = some item → ∃ t', result = some (true,t') ∧ On items t' item) ∧
    (found = none → ∃ t', result = some (false,t') ∧ Over items t' last)

section
variable {found : Option (Nat × IdRecord)} {result : Option (Bool × ImageTerm)} {t' : ImageTerm}

theorem Delivers.some (same : found = some item) (returned : result = Option.some (true,t')) (on : On items t' item) :
    Delivers items found last result := by
  refine ⟨fun other same' => ?_,fun none_ => ?_⟩
  · rw [same] at same'
    cases same'
    exact ⟨t',returned,on⟩
  · rw [same] at none_
    cases none_

theorem Delivers.none (same : found = none) (returned : result = Option.some (false,t')) (ended : Over items t' last) :
    Delivers items found last result := by
  refine ⟨fun other same' => ?_,fun _ => ⟨t',returned,ended⟩⟩
  rw [same] at same'
  cases same'

end

theorem seek_none (below : ∀ x ∈ items, x.1 < target) : seek items target = none := by
  refine List.find?_eq_none.mpr fun x member => ?_
  have := below x member
  simp
  omega

/-- The first item that is not below the target. -/
theorem seek_split {rest : List (Nat × IdRecord)} (shape : items = done ++ item :: rest) (below : ∀ x ∈ done, x.1 < target)
    (reached : target ≤ item.1) : seek items target = some item := by
  have skip : ∀ x ∈ done, ¬ decide (target ≤ x.1) = true := by
    intro x member
    have := below x member
    simp
    omega
  rw [seek,shape,find_skips skip]
  exact List.find?_cons_of_pos (by simpa using reached)

/-- A seek in the group, where every id of the later groups is from the target on. -/
theorem seekInGroup_seeks (ascending : Ascending items) (shape : items = done ++ ahead t rs gs) (reads : Reads t rs gs)
    (below : t.id < target) (passed : ∀ x ∈ done, x.1 < target) (beyond : ∀ x ∈ ids gs, target ≤ x.1)
    (from_ : ∀ x ∈ ahead t rs gs, t.id ≤ x.1) : Delivers items (seek items target) t.id (seekInGroup t target) := by
  have enough : rs.length < t.left + 1 := by
    rw [reads.left]
    exact Nat.lt_succ_of_le (length_le_records rs)
  rw [seekInGroup]
  rcases scanIds_spec reads below enough with
    ⟨t',front,r,rs',scans,split,reads',gid,id,reached,passed'⟩ | ⟨t',scans,reads',gid,less,from',passed'⟩
  · rw [scans,Option.bind_some,if_pos reached]
    have whole : items = (done ++ idsFrom t.gid front) ++ (r.id + t.gid,r) :: ahead t' rs' gs := by
      rw [shape,ahead,ahead,gid,split,idsFrom,List.map_append]
      simp [idsFrom]
    obtain ⟨number,number_eq,_⟩ := reads.group
    have small := r.small
    refine .some (seek_split whole ?_ (by rw [← id]; exact reached)) rfl
      ⟨rs',gs,⟨ascending,_,whole⟩,reads',id,by rw [gid]; simp only; omega⟩
    intro x member
    rcases List.mem_append.mp member with before | scanned
    · exact passed x before
    · exact passed' x scanned
  · rw [scans,Option.bind_some,if_neg (by omega)]
    cases gs with
    | nil =>
      have all : ∀ x ∈ items, x.1 < target := by
        intro x member
        rw [shape] at member
        rcases List.mem_append.mp member with before | later
        · exact passed x before
        · rcases List.mem_append.mp later with here | none_
          · exact passed' x here
          · cases none_
      refine .none (seek_none all) (nextGroup_none reads'.toAhead) ⟨[],reads',by simp [idsFrom],?_,?_⟩
      · rcases from' with same | ⟨x,member,same⟩
        · exact Nat.le_of_eq same.symm
        · rw [← same]
          exact from_ x (List.mem_append_left _ member)
      · refine from'.imp_right fun ⟨x,member,same⟩ => ⟨x,?_,same⟩
        rw [shape]
        exact List.mem_append_right _ (List.mem_append_left _ member)
    | cons g gs =>
      have whole : items = (done ++ idsFrom t.gid rs) ++ ids (g :: gs) := by
        rw [shape,ahead,List.append_assoc]
      obtain ⟨t'',next,first,head,on⟩ := nextGroup_on ascending whole reads'.toAhead
      obtain ⟨others,list⟩ : ∃ others, ids (g :: gs) = first :: others := by
        cases list : ids (g :: gs) with
        | nil =>
          rw [list] at head
          cases head
        | cons x others =>
          rw [list] at head
          cases head
          exact ⟨others,rfl⟩
      refine .some (seek_split (by rw [whole,list]) ?_ (beyond first (by rw [list]; simp))) next on
      intro x member
      rcases List.mem_append.mp member with before | scanned
      · exact passed x before
      · exact passed' x scanned

/-- The groups that are skipped lie below the one that is looked for. -/
theorem skipGroups_spec {fuel group : Nat} (ahead_ : Ahead t gs) (less : t.gid < group <<< 12) (enough : gs.length < fuel) :
    (∃ t', skipGroups fuel t (group <<< 12) = some (false,t') ∧ t'.id = t.id ∧ (∀ x ∈ ids gs, x.1 < group <<< 12) ∧
      (gs = [] ∧ t' = t ∨ ∃ rs, Reads t' rs [] ∧ ∀ x ∈ idsFrom t'.gid rs, x ∈ ids gs)) ∨
    ∃ t' passed r rs gs', skipGroups fuel t (group <<< 12) = some (true,t') ∧ t'.id = t.id ∧ Reads t' (r :: rs) gs' ∧
      group <<< 12 ≤ t'.gid ∧ ids gs = passed ++ ahead t' (r :: rs) gs' ∧ ∀ x ∈ passed, x.1 < group <<< 12 := by
  induction fuel generalizing t gs with
  | zero => exact absurd enough (Nat.not_lt_zero _)
  | succ fuel ih =>
    rw [skipGroups,if_pos less]
    cases gs with
    | nil => exact .inl ⟨t,if_pos (ahead_.groups_iff.mpr rfl),rfl,by simp [ids],.inl ⟨rfl,rfl⟩⟩
    | cons g gs =>
      obtain ⟨t',loaded,reads,gid,id⟩ := advanceGroup_spec ahead_
      have some_ : ¬ t.groups = 0 := fun zero => by cases ahead_.groups_iff.mp zero
      have split : ids (g :: gs) = ahead t' g.records gs := by
        rw [ahead,gid]
        rfl
      have enough' : gs.length < fuel := by simpa using enough
      rw [if_neg some_,loaded,Option.bind_some]
      by_cases less' : t'.gid < group <<< 12
      · have first : ∀ x ∈ idsFrom t'.gid g.records, x.1 < group <<< 12 := by
          intro x member
          rw [gid] at member less'
          have bounds := idsFrom_bounds member
          omega
        rcases ih reads.toAhead less' enough' with
          ⟨t'',skips,id',below,stays⟩ | ⟨t'',passed,r,rs,gs',skips,id',reads',reached,shape,below⟩
        · refine .inl ⟨t'',skips,id'.trans id,fun x member => ?_,.inr ?_⟩
          · rw [split] at member
            rcases List.mem_append.mp member with here | later
            · exact first x here
            · exact below x later
          · rcases stays with ⟨rfl,rfl⟩ | ⟨rs,reads',inside⟩
            · exact ⟨g.records,reads,fun x member => by rw [split]; exact List.mem_append_left _ member⟩
            · exact ⟨rs,reads',fun x member => by rw [split]; exact List.mem_append_right _ (inside x member)⟩
        · refine .inr ⟨t'',idsFrom t'.gid g.records ++ passed,r,rs,gs',skips,id'.trans id,reads',reached,?_,fun x member => ?_⟩
          · rw [split,ahead,shape,List.append_assoc]
          · rcases List.mem_append.mp member with here | later
            · exact first x here
            · exact below x later
      · obtain ⟨r,rs,records⟩ := List.exists_cons_of_ne_nil g.some_
        refine .inr ⟨t',[],r,rs,gs,?_,id,by rw [← records]; exact reads,Nat.not_lt.mp less',by rw [split,records]; rfl,by simp⟩
        cases fuel with
        | zero => exact absurd enough' (Nat.not_lt_zero _)
        | succ fuel => exact if_neg less'

theorem targetGroup_eq (target : Nat) : targetGroup target = (target / 4096 % 65536) <<< 12 := by
  have mask : 0xffff000 = (2 ^ 16 - 1) <<< 12 := by decide
  rw [targetGroup,mask]
  exact and_high_bits target 12 16

/-- A seek to a later group. -/
theorem imageAdvanceTo_later (ascending : Ascending items) (shape : items = done ++ ids gs) (ahead_ : Ahead t gs)
    (less : t.gid < targetGroup target) (below : t.id < target) (passed : ∀ x ∈ done, x.1 < target)
    (from_ : ∀ x ∈ ids gs, t.id ≤ x.1) (still : gs = [] → Over items t t.id)
    (fine : target < 2 ^ 28 ∨ ∀ x ∈ items, x.1 < targetGroup target + 4096) :
    Delivers items (seek items target) t.id (imageAdvanceTo t target) := by
  have enough : gs.length < t.groups + 1 := by
    have many : ∀ gs : List ImageGroup, gs.length ≤ (encodeGroups gs).length := by
      intro gs
      induction gs with
      | nil => exact Nat.le_refl 0
      | cons g gs ih =>
        rw [encodeGroups_cons,List.length_append,encodeImageGroup_length,List.length_cons]
        omega
    have := many gs
    rw [ahead_.groups]
    omega
  have group : targetGroup target ≤ target := Nat.and_le_left
  have eq := targetGroup_eq target
  have path : imageAdvanceTo t target = seekLater t (targetGroup target) target :=
    (if_neg (Nat.not_le.mpr below)).trans (if_pos less)
  rw [path,seekLater]
  rw [eq] at less
  rcases skipGroups_spec ahead_ less enough with
    ⟨t',skips,id,all,stays⟩ | ⟨t',before,r,rs,gs',skips,id,reads,reached,split,all⟩
  · rw [eq,skips]
    refine .none (seek_none fun x member => ?_) rfl ?_
    · rw [shape] at member
      rcases List.mem_append.mp member with here | later
      · exact passed x here
      · have := all x later
        omega
    · rcases stays with ⟨none_,rfl⟩ | ⟨rs,reads,inside⟩
      · exact still none_
      · refine ⟨rs,reads,fun x member => ⟨?_,from_ x (inside x member)⟩,Nat.le_of_eq id.symm,.inl id⟩
        rw [shape]
        exact List.mem_append_right _ (inside x member)
  · have whole : items = (done ++ before) ++ ahead t' (r :: rs) gs' := by
      rw [shape,split,List.append_assoc]
    have passed' : ∀ x ∈ done ++ before, x.1 < target := by
      intro x member
      rcases List.mem_append.mp member with here | later
      · exact passed x here
      · have := all x later
        omega
    obtain ⟨t'',read,on,reads',gid⟩ := advanceId_on ascending whole reads
    have inside : (r.id + t'.gid,r) ∈ items := by
      rw [whole]
      exact List.mem_append_right _ (by simp [ahead,idsFrom])
    rw [eq,skips]
    simp only [read,Option.bind_some]
    rw [gid]
    have head : items = (done ++ before) ++ (r.id + t'.gid,r) :: (idsFrom t'.gid rs ++ ids gs') := by
      rw [whole]
      rfl
    have idOn : t''.id = r.id + t'.gid := by
      obtain ⟨_,_,_,_,same,_⟩ := on
      exact same
    by_cases more : (target / 4096 % 65536) <<< 12 < t'.gid
    · rw [if_pos more]
      obtain ⟨number,number_eq,_⟩ := reads.group
      refine .some (seek_split head passed' ?_) rfl on
      rcases fine with small | high
      · simp only
        omega
      · have := high _ inside
        simp only at this
        omega
    · rw [if_neg more]
      by_cases first : target ≤ r.id + t'.gid
      · refine .some (seek_split head passed' first) ?_ on
        rw [seekInGroup,scanIds,if_neg (by omega),Option.bind_some,if_pos (by omega)]
      · have whole' : items = (done ++ before ++ [(r.id + t'.gid,r)]) ++ ahead t'' rs gs' := by
          rw [head,ahead,gid]
          simp
        have tail : ∀ x ∈ ahead t'' rs gs', r.id + t'.gid ≤ x.1 := by
          intro x member
          have ordered := ascending
          rw [head] at ordered
          have later := (List.pairwise_cons.mp (List.pairwise_append.mp ordered).2.1).1 x
            (by rw [ahead,gid] at member; exact member)
          exact Nat.le_of_lt later
        obtain ⟨number,number_eq,above⟩ := reads.group
        have seeks := seekInGroup_seeks ascending whole' reads' (by omega : t''.id < target) ?_ ?_ (by rw [idOn]; exact tail)
        · obtain ⟨found,missed⟩ := seeks
          refine ⟨found,fun none_ => ?_⟩
          obtain ⟨t₃,returned,rs₃,reads₃,from₃,le₃,id₃⟩ := missed none_
          have start : t.id ≤ t''.id := by
            rw [idOn]
            exact from_ (r.id + t'.gid,r) (by rw [split]; exact List.mem_append_right _ (by simp [ahead,idsFrom]))
          refine ⟨t₃,returned,rs₃,reads₃,fun x member => ⟨(from₃ x member).1,Nat.le_trans start (from₃ x member).2⟩,
            Nat.le_trans start le₃,.inr ?_⟩
          rcases id₃ with same | here
          · exact ⟨_,inside,by rw [same,idOn]⟩
          · exact here
        · intro x member
          rcases List.mem_append.mp member with early | last
          · exact passed' x early
          · rw [List.mem_singleton.mp last]
            exact Nat.not_le.mp first
        · intro x member
          have bounds := ids_bounds above member
          rcases fine with small | high
          · omega
          · have inItems : x ∈ items := by
              rw [head]
              exact List.mem_append_right _ (List.mem_cons_of_mem _ (List.mem_append_right _ member))
            have := high x inItems
            omega

/-! ## Runs -/

/-- The reader is where the calls so far have led. -/
inductive At (items : List (Nat × IdRecord)) (t : ImageTerm) : Standing → Prop
  | fresh {gs : List ImageGroup} (shape : items = ids gs) (ahead : Ahead t gs) (gid : t.gid = 0) (id : t.id = 0)
    (left : t.left = 0) : At items t .fresh
  | on {item : Nat × IdRecord} (on : On items t item) : At items t (.on item)
  | ended {last : Option (Nat × IdRecord)} (ended : Over items t (lastId last)) : At items t (.ended last)

/-- What a call leads to that moves the reader. -/
theorem Delivers.at {s : Standing} {found : Option (Nat × IdRecord)} {result : Option (Bool × ImageTerm)}
    (delivers : Delivers items found (lastId s.last) result) :
    ∃ t', result = Option.some ((deliver s found).1,t') ∧ (∀ item, (deliver s found).2 = .on item → t'.id = item.1) ∧
      At items t' (deliver s found).2 := by
  cases found with
  | none =>
    obtain ⟨t',returned,ended⟩ := delivers.2 rfl
    exact ⟨t',returned,(fun item same => by cases same),.ended ended⟩
  | some item =>
    obtain ⟨t',returned,on⟩ := delivers.1 item rfl
    refine ⟨t',returned,fun other same => ?_,.on on⟩
    cases same
    obtain ⟨_,_,_,_,id,_⟩ := on
    exact id

/-- Without groups left the reader stays where it is. -/
theorem Reads.ended (reads : Reads t [] []) (id : t.id = last) : Over items t last :=
  ⟨[],reads,by simp [idsFrom],Nat.le_of_eq id.symm,.inl id⟩

/-- A fresh reader counts as one in a group without ids. -/
theorem Ahead.start (ahead : Ahead t []) (gid : t.gid = 0) (left : t.left = 0) : Reads t [] [] :=
  ⟨ahead,⟨t.p,rfl⟩,left,.nil,0,gid,by simp⟩

theorem nextGroup_delivers (ascending : Ascending items) (shape : items = done ++ ids gs) (ahead_ : Ahead t gs)
    (still : gs = [] → Over items t last) : Delivers items (ids gs).head? last (nextGroup t) := by
  cases gs with
  | nil => exact .none rfl (nextGroup_none ahead_) (still rfl)
  | cons g gs =>
    obtain ⟨t',next,first,head,on⟩ := nextGroup_on ascending shape ahead_
    exact .some head next on

theorem advance_fresh (shape : items = ids gs) (ahead_ : Ahead t gs) (gid : t.gid = 0) (id : t.id = 0) (left : t.left = 0) :
    Delivers items items.head? 0 (imageAdvance t) := by
  have ascending : Ascending items := by
    rw [shape]
    exact ascending_ids ahead_.ascend
  rw [imageAdvance,if_pos left]
  have still : gs = [] → Over items t 0 := by
    intro none_
    subst none_
    exact (ahead_.start gid left).ended id
  have delivers := nextGroup_delivers ascending (by rw [shape]; exact (List.nil_append _).symm) ahead_ still
  rwa [← shape] at delivers

theorem advance_on (on : On items t item) : Delivers items (above items item.1) item.1 (imageAdvance t) := by
  obtain ⟨rs,gs,stands,reads,id,gid⟩ := on
  obtain ⟨before,whole⟩ := stands.split
  have shape : items = (before ++ [item]) ++ ahead t rs gs := by rw [whole,List.append_cons]
  rw [stands.above,imageAdvance]
  cases rs with
  | nil =>
    rw [if_pos (reads.left_iff.mpr rfl)]
    refine nextGroup_delivers stands.ascending shape reads.toAhead fun none_ => ?_
    subst none_
    exact reads.ended id
  | cons r rs =>
    obtain ⟨t',read,on,_,_⟩ := advanceId_on stands.ascending shape reads
    rw [if_neg (fun zero => by cases reads.left_iff.mp zero),read]
    exact .some rfl rfl on

theorem seek_fresh (shape : items = ids gs) (ahead_ : Ahead t gs) (gid : t.gid = 0) (id : t.id = 0) (left : t.left = 0)
    (positive : 0 < target) (fine : Fine items t .fresh (.advanceTo target)) :
    Delivers items (seek items target) 0 (imageAdvanceTo t target) := by
  have ascending : Ascending items := by
    rw [shape]
    exact ascending_ids ahead_.ascend
  have fine := fine.resolve_left (Nat.ne_of_gt positive)
  have still : gs = [] → Over items t t.id := by
    intro none_
    subst none_
    exact (ahead_.start gid left).ended rfl
  have eq := targetGroup_eq target
  have whole : items = [] ++ ids gs := shape
  by_cases later : t.gid < targetGroup target
  · rw [← id]
    refine imageAdvanceTo_later ascending whole ahead_ later (by omega) (by simp) (by simp [id]) still ?_
    by_cases small : target < 2 ^ 28
    · exact .inl small
    · rw [if_neg small] at fine
      rcases fine with empty | ⟨_,high⟩
      · exact .inr (by simp [empty])
      · exact .inr high
  · have path : imageAdvanceTo t target = seekInGroup t target := (if_neg (by omega)).trans (if_neg later)
    have stop : seekInGroup t target = nextGroup t := by
      rw [seekInGroup,scanIds,if_neg (fun both => both.2 left),Option.bind_some,if_neg (by omega)]
    rw [path,stop,← id]
    cases gs with
    | nil => exact .none (by rw [shape]; rfl) (nextGroup_none ahead_) (still rfl)
    | cons g gs =>
      obtain ⟨t',next,first,head,on⟩ := nextGroup_on ascending whole ahead_
      obtain ⟨others,list⟩ : ∃ others, items = first :: others := by
        rw [← shape] at head
        cases list : items with
        | nil =>
          rw [list] at head
          cases head
        | cons x others =>
          rw [list] at head
          cases head
          exact ⟨others,rfl⟩
      refine .some (seek_split (by rw [list]; exact (List.nil_append _).symm) (by simp) ?_) next on
      by_cases small : target < 2 ^ 28
      · rw [if_pos small] at fine
        exact fine first (by rw [list]; rfl) (by omega)
      · rw [if_neg small] at fine
        rcases fine with empty | ⟨some_,_⟩
        · rw [empty] at list
          cases list
        · omega

theorem seek_on (on : On items t item) (above : item.1 < target) (fine : Fine items t (.on item) (.advanceTo target)) :
    Delivers items (seek items target) item.1 (imageAdvanceTo t target) := by
  obtain ⟨rs,gs,stands,reads,id,gid⟩ := on
  obtain ⟨before,whole⟩ := stands.split
  have eq := targetGroup_eq target
  have group : targetGroup target ≤ target := Nat.and_le_left
  obtain ⟨_,tail,across⟩ := List.pairwise_append.mp (whole ▸ stands.ascending)
  have later : ∀ x ∈ ahead t rs gs, item.1 < x.1 := (List.pairwise_cons.mp tail).1
  have early : ∀ x ∈ before ++ [item], x.1 < target := by
    intro x member
    rcases List.mem_append.mp member with first | last
    · have := across x first item (by simp)
      omega
    · rw [List.mem_singleton.mp last]
      exact above
  have inside : ∀ x ∈ ahead t rs gs, x ∈ items := by
    intro x member
    rw [whole]
    exact List.mem_append_right _ (List.mem_cons_of_mem _ member)
  obtain ⟨number,number_eq,beyond⟩ := reads.group
  rw [← id]
  by_cases less : t.gid < targetGroup target
  · have shape : items = (before ++ item :: idsFrom t.gid rs) ++ ids gs := by
      rw [whole,ahead]
      simp
    refine imageAdvanceTo_later stands.ascending shape reads.toAhead less (by omega) ?_ ?_ ?_ ?_
    · intro x member
      rcases List.mem_append.mp member with first | rest
      · exact early x (List.mem_append_left _ first)
      · rcases List.mem_cons.mp rest with rfl | here
        · exact above
        · rw [number_eq] at here less
          have bounds := idsFrom_bounds here
          omega
    · intro x member
      rw [id]
      exact Nat.le_of_lt (later x (List.mem_append_right _ member))
    · intro none_
      subst none_
      refine ⟨rs,reads,fun x member => ⟨inside x (List.mem_append_left _ member),?_⟩,Nat.le_refl _,.inl rfl⟩
      rw [id]
      exact Nat.le_of_lt (later x (List.mem_append_left _ member))
    · refine fine.imp_right fun high x member => ?_
      have := high x member
      omega
  · have path : imageAdvanceTo t target = seekInGroup t target := (if_neg (by omega)).trans (if_neg less)
    have shape : items = (before ++ [item]) ++ ahead t rs gs := by rw [whole,List.append_cons]
    rw [path]
    refine seekInGroup_seeks stands.ascending shape reads (by omega) early (fun x member => ?_) fun x member => ?_
    · have bounds := ids_bounds beyond member
      rcases fine with small | high
      · omega
      · have := high x (inside x (List.mem_append_right _ member))
        omega
    · rw [id]
      exact Nat.le_of_lt (later x member)

theorem seek_over (ended : Over items t last) (above : last < target) (all : ∀ x ∈ items, x.1 < target) (ascending : Ascending items) :
    ∃ t', imageAdvanceTo t target = some (false,t') ∧ Over items t' last := by
  obtain ⟨rs,reads,inside,le,from_⟩ := ended
  have below : t.id < target := by
    rcases from_ with same | ⟨x,member,same⟩
    · omega
    · have := all x member
      omega
  by_cases less : t.gid < targetGroup target
  · have path : imageAdvanceTo t target = seekLater t (targetGroup target) target :=
      (if_neg (Nat.not_le.mpr below)).trans (if_pos less)
    refine ⟨t,?_,rs,reads,inside,le,from_⟩
    have empty := reads.toAhead.groups_iff.mpr rfl
    rw [path,seekLater,skipGroups,if_pos less,if_pos empty]
  · have path : imageAdvanceTo t target = seekInGroup t target := (if_neg (by omega)).trans (if_neg less)
    have enough : rs.length < t.left + 1 := by
      rw [reads.left]
      exact Nat.lt_succ_of_le (length_le_records rs)
    rw [path,seekInGroup]
    rcases scanIds_spec reads below enough with
      ⟨t',front,r,rs',scans,split,_,gid,id,reached,_⟩ | ⟨t',scans,reads',gid,less',from',_⟩
    · have member := (inside (r.id + t.gid,r) (by rw [split,idsFrom,List.map_append]; simp)).1
      have := all _ member
      simp only at this
      omega
    · rw [scans,Option.bind_some,if_neg (by omega),nextGroup_none reads'.toAhead]
      refine ⟨t',rfl,[],reads',by simp [idsFrom],?_,?_⟩
      · rcases from' with same | ⟨x,member,same⟩
        · omega
        · have := (inside x member).2
          omega
      · rcases from' with same | ⟨x,member,same⟩
        · rw [same]
          exact from_
        · exact .inr ⟨x,(inside x member).1,same⟩

/-- One call that is fine. -/
theorem call_at {s : Standing} (order : Call) (ascending : Ascending items) (at' : At items t s) (fine : Fine items t s order) :
    ∃ t', call t order = some ((answer items s order).1,t') ∧ (∀ item, (answer items s order).2 = .on item → t'.id = item.1) ∧
      (∀ target, order = .advanceTo target → target ≤ lastId s.last → t' = t) ∧ At items t' (answer items s order).2 := by
  have noSeek : ∀ t', ∀ target, Call.advance = .advanceTo target → target ≤ lastId s.last → t' = t := by
    intro t' target same
    cases same
  have stay : ∀ target, target ≤ t.id → imageAdvanceTo t target = some (true,t) := fun target le => if_pos le
  -- A call that moves the reader is a seek beyond the last id.
  have moves : ∀ target, ¬ target ≤ lastId s.last → ∀ t', ∀ other, Call.advanceTo target = .advanceTo other →
      other ≤ lastId s.last → t' = t := by
    intro target beyond t' other same le
    cases same
    exact absurd le beyond
  cases at' with
  | fresh shape ahead_ gid id left =>
    cases order with
    | advance =>
      obtain ⟨t',returned,shows,at''⟩ := Delivers.at (s := .fresh) (advance_fresh shape ahead_ gid id left)
      exact ⟨t',returned,shows,noSeek t',at''⟩
    | advanceTo target =>
      by_cases zero : target ≤ lastId Standing.fresh.last
      · have answered : answer items .fresh (.advanceTo target) = (true,.fresh) := if_pos zero
        rw [answered]
        exact ⟨t,stay target (Nat.le_trans zero (Nat.zero_le _)),(fun item same => by cases same),fun _ _ _ => rfl,
          .fresh shape ahead_ gid id left⟩
      · have answered : answer items .fresh (.advanceTo target) = deliver .fresh (seek items target) := if_neg zero
        obtain ⟨t',returned,shows,at''⟩ := Delivers.at (s := .fresh)
          (seek_fresh shape ahead_ gid id left (Nat.not_le.mp zero) fine)
        rw [answered]
        exact ⟨t',returned,shows,moves target zero t',at''⟩
  | @on item on =>
    cases order with
    | advance =>
      obtain ⟨t',returned,shows,at''⟩ := Delivers.at (s := .on item) (advance_on on)
      exact ⟨t',returned,shows,noSeek t',at''⟩
    | advanceTo target =>
      by_cases reached : target ≤ item.1
      · have answered : answer items (.on item) (.advanceTo target) = (true,.on item) := if_pos reached
        have id : t.id = item.1 := by
          obtain ⟨_,_,_,_,same,_⟩ := on
          exact same
        rw [answered]
        refine ⟨t,stay target (by omega),fun other same => ?_,fun _ _ _ => rfl,.on on⟩
        cases same
        exact id
      · have answered : answer items (.on item) (.advanceTo target) = deliver (.on item) (seek items target) := if_neg reached
        obtain ⟨t',returned,shows,at''⟩ := Delivers.at (s := .on item) (seek_on on (Nat.not_le.mp reached) fine)
        rw [answered]
        exact ⟨t',returned,shows,moves target reached t',at''⟩
  | @ended last ended =>
    cases order with
    | advance =>
      obtain ⟨rs,reads,_⟩ := id ended
      have left : t.left = 0 := fine
      refine ⟨t,?_,(fun item same => by cases same),noSeek t,.ended ended⟩
      rw [call,imageAdvance,if_pos left,nextGroup_none reads.toAhead]
      rfl
    | advanceTo target =>
      by_cases reached : target ≤ lastId last
      · have answered : answer items (.ended last) (.advanceTo target) = (true,.ended last) := by rw [answer,decide_eq_true reached]
        obtain ⟨_,_,_,le,_⟩ := id ended
        rw [answered]
        exact ⟨t,stay target (Nat.le_trans reached le),(fun item same => by cases same),fun _ _ _ => rfl,.ended ended⟩
      · have answered : answer items (.ended last) (.advanceTo target) = (false,.ended last) := by rw [answer,decide_eq_false reached]
        have all : ∀ x ∈ items, x.1 < target := fine.resolve_left reached
        obtain ⟨t',returned,ended'⟩ := seek_over ended (Nat.not_le.mp reached) all ascending
        rw [answered]
        exact ⟨t',returned,(fun item same => by cases same),moves target reached t',.ended ended'⟩

theorem run_at {s : Standing} (calls : List Call) (ascending : Ascending items) (at' : At items t s)
    (fine : FineRun items t s calls) : Answers items t s calls := by
  induction calls generalizing t s with
  | nil => trivial
  | cons order calls ih =>
    obtain ⟨here,later⟩ := fine
    obtain ⟨t',returned,shows,stays,at''⟩ := call_at order ascending at' here
    exact ⟨t',returned,shows,stays,ih at'' (later _ t' returned)⟩

/-- The reader of a term in a file of terms, with the length of its groups before them. -/
theorem fillTerm_at {termData after : List UInt8} {offs : Nat} (large : 4 ≤ offs) (short : (encodeGroups gs).length < 2 ^ 32)
    (stored : termData.drop (offs - 4) = bytes 4 (encodeGroups gs).length ++ (encodeGroups gs ++ after))
    (ascend : GroupsAscend gs) : At (ids gs) (fillTerm termData offs) .fresh := by
  have gp : termData.drop offs = encodeGroups gs ++ after := by
    have four : offs = (offs - 4) + 4 := by omega
    rw [four,← List.drop_drop,stored,List.drop_left' (bytes_length 4 _)]
  have groups : number ((termData.drop (offs - 4)).take 4) = (encodeGroups gs).length := by
    rw [stored,List.take_left' (bytes_length 4 _),number_bytes]
    exact Nat.mod_eq_of_lt (by omega)
  exact .fresh rfl ⟨⟨after,gp⟩,groups,ascend⟩ rfl rfl rfl

/-- Every run of calls that are fine is answered from the ids of the term. -/
theorem image_reader_fine {termData after : List UInt8} {offs : Nat} (large : 4 ≤ offs) (short : (encodeGroups gs).length < 2 ^ 32)
    (stored : termData.drop (offs - 4) = bytes 4 (encodeGroups gs).length ++ (encodeGroups gs ++ after))
    (ascend : GroupsAscend gs) (calls : List Call) (fine : FineRun (ids gs) (fillTerm termData offs) .fresh calls) :
    Answers (ids gs) (fillTerm termData offs) .fresh calls :=
  run_at calls (ascending_ids ascend) (fillTerm_at large short stored ascend) fine

end

/-- An id with the value 0. -/
def plain (id : Nat) (small : id < 4096) : IdRecord := ⟨id,0,[],small,.direct (by decide)⟩

/-- The ids 1 and 5, and 8192 in a group of its own. -/
def twoGroups : List ImageGroup :=
  [⟨0,[plain 1 (by decide),plain 5 (by decide)],by decide,by decide,by decide,by decide⟩,
    ⟨2,[plain 0 (by decide)],by decide,by decide,by decide,by decide⟩]

theorem twoGroups_ascend : GroupsAscend twoGroups := by
  unfold GroupsAscend
  decide

/-- To the first id, from it into the other group, and to the end. -/
theorem image_reader_fine_two : Answers (ids twoGroups) (fillTerm (bytes 4 (encodeGroups twoGroups).length ++ encodeGroups twoGroups) 4)
    .fresh [.advance,.advanceTo 4100,.advance] := by
  have stored : (bytes 4 (encodeGroups twoGroups).length ++ encodeGroups twoGroups).drop (4 - 4) =
      bytes 4 (encodeGroups twoGroups).length ++ (encodeGroups twoGroups ++ []) := by
    rw [List.append_nil]
    rfl
  refine image_reader_fine (by decide) (by decide) stored twoGroups_ascend _ ?_
  exact ⟨trivial,fun _ _ _ => ⟨.inl (by decide),fun _ _ _ => ⟨trivial,fun _ _ _ => trivial⟩⟩⟩

/-- A first seek to 5 delivers the id 1. -/
theorem first_seek_below :
    ¬ ∀ (gs : List ImageGroup) (termData after : List UInt8) (offs : Nat) (calls : List Call), 4 ≤ offs →
      (encodeGroups gs).length < 2 ^ 32 →
      termData.drop (offs - 4) = bytes 4 (encodeGroups gs).length ++ (encodeGroups gs ++ after) → GroupsAscend gs →
      Answers (ids gs) (fillTerm termData offs) .fresh calls := by
  intro all
  have answers := all twoGroups (bytes 4 (encodeGroups twoGroups).length ++ encodeGroups twoGroups) [] 4 [.advanceTo 5]
    (by decide) (by decide) (by rw [List.append_nil]; rfl) twoGroups_ascend
  obtain ⟨t',returned,shows,_⟩ := answers
  have delivered : ((call (fillTerm (bytes 4 (encodeGroups twoGroups).length ++ encodeGroups twoGroups) 4) (.advanceTo 5)).map
      fun result => result.2.id) = some 1 := by decide +kernel
  rw [returned,Option.map_some,Option.some.injEq] at delivered
  have one : t'.id = 1 := delivered
  rw [shows (5,plain 5 (by decide)) rfl] at one
  cases one

end AnotherC.ImageReader
