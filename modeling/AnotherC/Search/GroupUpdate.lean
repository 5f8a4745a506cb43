import AnotherC.Search.Groups

/-!
# Updating a posting: `update_group_with_data`

`update_iff` says for which groups and payloads the update leaves the group with the
new record in its place and all others as they were. The type bit stays when a block
shrinks into its slot, the `memmove` within a block has its arguments exchanged, a slot
that grows into a block writes its record through a pointer that was never set, and a
record that goes before the one in the slot leaves a pointer into the middle of the block.
-/
namespace AnotherC.GroupUpdate
open AnotherC.Lib.Bytes AnotherC.Lib.Splice AnotherC.Groups
set_option linter.unusedVariables false

/-! ## The update -/

/-- The end of the block's part: the block gets another size, in place or in another
    size class. The new record goes to `mp`, and the others go on at `next`. -/
def spliceBlock (m : Machine) (t : Counts) (g : Slot) (mem : List UInt8) (base mp next blockSize subId : Nat)
    (data : List UInt8) : Option (Counts × Slot) :=
  let len := data.length
  let ep := base + blockSize
  let block := base + 4
  let len2 := next - mp
  let newSize := (blockSize + len + 1 - len2) % 2 ^ 32
  match getBlockId blockSize, getBlockId newSize with
  | some oldBlockId, some newBlockId =>
    if oldBlockId = newBlockId then
      (move mem next (mp + (len + 1)) (ep - next)).bind fun mem =>
        (store mem mp (copyData subId data)).bind fun mem =>
          (store mem base (bytes 4 (newSize - 4))).map fun mem => (t,{ g with cell := .block mem base })
    else
      (store (m.alloc newBlockId) 0 (bytes 4 (newSize - 4))).bind fun newBlock =>
        (store newBlock 4 ((mem.drop block).take (mp - block))).bind fun newBlock =>
          (store newBlock (4 + (mp - block)) (copyData subId data)).bind fun newBlock =>
            (store newBlock (4 + (mp - block) + (len + 1)) ((mem.drop next).take (ep - next))).map fun newBlock =>
              (t,{ g with cell := .block newBlock 0 })
  | _, _ => none

/-- The part of `update_group_with_data` for a block at `base` of `mem`; `none` where
    it aborts or leaves a block. -/
def updateBlock (m : Machine) (t : Counts) (g : Slot) (mem : List UInt8) (base subId : Nat) (data : List UInt8) :
    Option (Counts × Slot) :=
  let len := data.length
  match readNumber mem base with
  | none => none
  | some header =>
    let blockSize := (header + 4) % 2 ^ 32
    let ep := base + blockSize
    let block := base + 4
    match findIdInBlock (mem.length + 1) mem block ep subId with
    | none => none
    | some (mp,nextp) =>
      if len < 7 ∧ block = mp ∧ nextp = some ep then
        (store m.pointer 0 (copyData subId data)).map fun bytes =>
          (t.replace (blockSize - 4) (len + 1),{ g with cell := .inline bytes })
      else
        match nextp with
        | some next =>
          if next - mp = len + 1 then
            (store mem mp (copyData subId data)).map fun mem => (t,{ g with cell := .block mem base })
          else spliceBlock m (t.replace (next - mp) (len + 1)) g mem base mp next blockSize subId data
        | none => spliceBlock m (t.insert (len + 1)) g mem base mp mp blockSize subId data

/-- The part for a record in the slot. -/
def updateInline (m : Machine) (t : Counts) (g : Slot) (slot : List UInt8) (subId : Nat) (data : List UInt8) :
    Option (Counts × Slot) :=
  let len := data.length
  match advanceId slot with
  | none => none
  | some (len2,_id) =>
    if _id = subId then
      if len < 7 then
        (store slot 0 (copyData subId data)).map fun slot => (t.replace len2 (len + 1),{ g with cell := .inline slot })
      else
        -- `bp` is declared again for the new block, and `copy_data` gets the outer one
        none
    else
      match getBlockId ((len2 + len + 1 + 4) % 2 ^ 32) with
      | none => none
      | some blockId =>
        (store (m.alloc blockId) 0 (bytes 4 (len2 + len + 1))).bind fun newBlock =>
          if _id < subId then
            (store newBlock 4 (slot.take len2)).bind fun newBlock =>
              (store newBlock (4 + len2) (copyData subId data)).map fun newBlock =>
                (t.insert (len + 1),{ g with type := 1, cell := .block newBlock 0 })
          else
            (store newBlock 4 (copyData subId data)).bind fun newBlock =>
              (store newBlock (4 + (len + 1)) (slot.take len2)).map fun newBlock =>
                (t.insert (len + 1),{ g with type := 1, cell := .block newBlock (len + 1) })

def updateGroupWithData (m : Machine) (t : Counts) (g : Slot) (subId : Nat) (data : List UInt8) : Option (Counts × Slot) :=
  if g.type ≠ 0 then
    match g.cell with
    | .inline _ => none
    | .block mem base => updateBlock m t g mem base subId data
  else
    match g.cell with
    | .inline slot => updateInline m t g slot subId data
    | .block _ _ => none

/-! ## Where it is right -/

/-- What the exchanged `memmove` leaves from `at'` on is what stood from `next` on. -/
def Shifted (mem : List UInt8) (next at' n : Nat) : Prop :=
  ∀ i < n, mem[next + i]? = if next ≤ at' + i ∧ at' + i < next + n then mem[at' + (at' + i - next)]? else mem[at' + i]?

/-- The size of the block with the new record. -/
def newSize (rs : List Record) (id : Nat) (data : List UInt8) : Nat :=
  4 + (lower rs id).length + (data.length + 1) + (upper rs id).length

def BlockFine (mem : List UInt8) (rs : List Record) (id : Nat) (data : List UInt8) : Prop :=
  ¬ (data.length < 7 ∧ lower rs id = [] ∧ upper rs id = [] ∧ present rs id ≠ []) ∧
    ((present rs id).length = data.length + 1 ∨
      newSize rs id data ≤ maxSize ∧
        (getBlockId (newSize rs id data) ≠ getBlockId (4 + (encodeAll rs).length) ∨
          Shifted mem (4 + (lower rs id).length + (present rs id).length) (4 + (lower rs id).length + (data.length + 1))
            (upper rs id).length))

def InlineFine (rs : List Record) (id : Nat) (data : List UInt8) : Prop :=
  ∀ r ∈ rs, (r.1 = id → data.length < 7) ∧
    (r.1 ≠ id → r.1 < id ∧ 4 + (encode r).length + (data.length + 1) ≤ maxSize)

def UpdateFine (g : Slot) (rs : List Record) (id : Nat) (data : List UInt8) : Prop :=
  match g.cell with
  | .inline _ => InlineFine rs id data
  | .block mem _ => BlockFine mem rs id data

/-- The update leaves the group with the new record, and its number. -/
def Exact (result : Option (Counts × Slot)) (g : Slot) (rs : List Record) : Prop :=
  ∃ t' g', result = some (t',g') ∧ Holds g' rs ∧ g'.group = g.group

section
variable {m : Machine} {t : Counts} {g : Slot} {rs before after : List Record} {id : Nat} {data : List UInt8}
  {d : Option (List UInt8)}

/-! ## Blocks -/

/-- A store of more bytes than there are. -/
theorem store_long {mem xs : List UInt8} {at' : Nat} (long : mem.length < xs.length) : store mem at' xs = none :=
  store_outside (by omega)

/-- The new block of another size class. -/
theorem splice_other {H B O A slack rec : List UInt8} {oldBlockId newBlockId : Nat} (four : H.length = 4)
    (rec_eq : rec = copyData id data) (length : rec.length = data.length + 1)
    (fits : 4 + B.length + rec.length + A.length ≤ maxSize)
    (old : getBlockId (4 + (B ++ O ++ A).length) = some oldBlockId)
    (new : getBlockId (4 + B.length + rec.length + A.length) = some newBlockId) (differ : oldBlockId ≠ newBlockId) :
    ∃ slack', spliceBlock m t g (H ++ (B ++ O ++ A) ++ slack) 0 (4 + B.length) (4 + B.length + O.length)
        (4 + (B ++ O ++ A).length) id data =
        some (t,{ g with cell := .block (bytes 4 (B.length + rec.length + A.length) ++ (B ++ rec ++ A) ++ slack') 0 }) ∧
      (bytes 4 (B.length + rec.length + A.length) ++ (B ++ rec ++ A) ++ slack').length = blockSize newBlockId := by
  have small : maxSize < 2 ^ 32 := by decide
  have size : (4 + (B ++ O ++ A).length + data.length + 1 - O.length) % 2 ^ 32 = 4 + B.length + rec.length + A.length := by
    rw [List.length_append,List.length_append,length]
    rw [length] at fits
    rw [Nat.mod_eq_of_lt] <;> omega
  have room := (getBlockId_fits new).2
  have header : 4 + B.length + rec.length + A.length - 4 = B.length + rec.length + A.length := by omega
  have whole := m.alloc_length newBlockId
  obtain ⟨front,back⟩ := parts_spec four (rfl : H ++ (B ++ O ++ A) ++ slack = _)
  have rest : 4 + (B ++ O ++ A).length - (4 + B.length + O.length) = A.length := by
    rw [List.length_append,List.length_append]
    omega
  obtain ⟨n,n_eq⟩ : ∃ n, n = B.length + rec.length + A.length := ⟨_,rfl⟩
  rw [← n_eq] at header ⊢
  obtain ⟨f0,s0,l0⟩ := store_first (by rw [bytes_length,whole]; omega : (bytes 4 n).length ≤ (m.alloc newBlockId).length)
  rw [bytes_length,whole] at l0
  obtain ⟨f1,s1,l1⟩ := store_next (bytes 4 n) (by omega : B.length ≤ f0.length)
  obtain ⟨f2,s2,l2⟩ := store_next (bytes 4 n ++ B) (by omega : rec.length ≤ f1.length)
  obtain ⟨f3,s3,l3⟩ := store_next (bytes 4 n ++ B ++ rec) (by omega : A.length ≤ f2.length)
  rw [bytes_length] at s1
  rw [List.length_append,bytes_length] at s2
  rw [List.length_append,List.length_append,bytes_length,length] at s3
  refine ⟨f3,?_,?_⟩
  · rw [spliceBlock]
    simp only [Nat.add_sub_cancel_left,Nat.zero_add,size,old,new,if_neg differ,header,s0,Option.bind_some,front,s1,← rec_eq,s2,
      rest,back,s3,Option.map_some]
    rw [← List.append_assoc,← List.append_assoc]
  · rw [List.length_append,List.length_append,List.length_append,List.length_append,bytes_length]
    omega

/-- In the same size class the bytes after the new record are those that the exchanged
    `memmove` leaves there. -/
theorem splice_same {H B O A slack rec : List UInt8} {blockId : Nat} (four : H.length = 4)
    (rec_eq : rec = copyData id data) (length : rec.length = data.length + 1)
    (fits : 4 + B.length + rec.length + A.length ≤ maxSize)
    (old : getBlockId (4 + (B ++ O ++ A).length) = some blockId)
    (new : getBlockId (4 + B.length + rec.length + A.length) = some blockId)
    (room : (H ++ (B ++ O ++ A) ++ slack).length = blockSize blockId) :
    ∃ X, spliceBlock m t g (H ++ (B ++ O ++ A) ++ slack) 0 (4 + B.length) (4 + B.length + O.length)
        (4 + (B ++ O ++ A).length) id data =
        some (t,{ g with cell := .block (bytes 4 (B.length + rec.length + A.length) ++ (B ++ rec ++ X)) 0 }) ∧
      4 + B.length + rec.length + X.length = blockSize blockId ∧
      ∀ i : Nat, X[i]? =
        if 4 + B.length + O.length ≤ 4 + B.length + rec.length + i ∧
            4 + B.length + rec.length + i < 4 + B.length + O.length + A.length then
          (H ++ (B ++ O ++ A) ++ slack)[4 + B.length + rec.length + (4 + B.length + rec.length + i - (4 + B.length + O.length))]?
        else (H ++ (B ++ O ++ A) ++ slack)[4 + B.length + rec.length + i]? := by
  obtain ⟨mem,mem_eq⟩ : ∃ mem, mem = H ++ (B ++ O ++ A) ++ slack := ⟨_,rfl⟩
  have small : maxSize < 2 ^ 32 := by decide
  have size : (4 + (B ++ O ++ A).length + data.length + 1 - O.length) % 2 ^ 32 = 4 + B.length + rec.length + A.length := by
    rw [List.length_append,List.length_append,length]
    rw [length] at fits
    rw [Nat.mod_eq_of_lt] <;> omega
  have header : 4 + B.length + rec.length + A.length - 4 = B.length + rec.length + A.length := by omega
  have rest : 4 + (B ++ O ++ A).length - (4 + B.length + O.length) = A.length := by
    rw [List.length_append,List.length_append]
    omega
  have inside := (getBlockId_fits new).2
  have inside' := (getBlockId_fits old).2
  rw [List.length_append,List.length_append] at inside'
  rw [← mem_eq] at room ⊢
  obtain ⟨mem1,moved,length1,front1,at1⟩ := move_spec (m := mem) (n := A.length) (by omega : 4 + B.length + rec.length + A.length ≤ mem.length)
    (by omega : 4 + B.length + O.length + A.length ≤ mem.length)
  have front : mem1.take (4 + B.length) = H ++ B := by
    have both := congrArg (List.take (4 + B.length)) front1
    rw [List.take_take,List.take_take,Nat.min_eq_left (by omega)] at both
    have place : 4 + B.length = (H ++ B).length := by rw [List.length_append,four]
    have shape : mem = (H ++ B) ++ (O ++ A ++ slack) := by rw [mem_eq]; simp
    rw [both,shape,place,List.take_left]
  have stored : store mem1 (4 + B.length) rec = some (H ++ (B ++ rec ++ mem1.drop (4 + B.length + rec.length))) := by
    rw [store,if_pos (by omega),front]
    simp
  have headed : store (H ++ (B ++ rec ++ mem1.drop (4 + B.length + rec.length))) 0 (bytes 4 (B.length + rec.length + A.length)) =
      some (bytes 4 (B.length + rec.length + A.length) ++ (B ++ rec ++ mem1.drop (4 + B.length + rec.length))) :=
    store_append (a := []) (b := H) (by simp [four])
  refine ⟨mem1.drop (4 + B.length + rec.length),?_,?_,fun i => ?_⟩
  · have place : 4 + B.length + (data.length + 1) = 4 + B.length + rec.length := by rw [length]
    rw [spliceBlock]
    simp only [Nat.add_sub_cancel_left,Nat.zero_add,size,old,new,if_true,place,rest,moved,Option.bind_some,← rec_eq,stored,
      header,headed,Option.map_some]
  · rw [List.length_drop]
    omega
  · rw [List.getElem?_drop,at1]

/-- A new size that no class has, or that does not fit 32 bits. -/
theorem splice_none {mem B O A rec : List UInt8} (rec_eq : rec = copyData id data)
    (length : rec.length = data.length + 1) (big : maxSize < 4 + B.length + rec.length + A.length)
    (old : 4 + (B ++ O ++ A).length ≤ maxSize) (room : mem.length ≤ maxSize) :
    spliceBlock m t g mem 0 (4 + B.length) (4 + B.length + O.length) (4 + (B ++ O ++ A).length) id data = none := by
  have sum : (B ++ O ++ A).length = B.length + O.length + A.length := by rw [List.length_append,List.length_append]
  obtain ⟨s,s_eq⟩ : ∃ s, s = (4 + (B ++ O ++ A).length + data.length + 1 - O.length) % 2 ^ 32 := ⟨_,rfl⟩
  have small : maxSize * 3 < 2 ^ 32 := by decide
  obtain ⟨oldBlockId,oldClass⟩ := getBlockId_some old
  rw [spliceBlock]
  simp only [Nat.add_sub_cancel_left,← s_eq,oldClass]
  cases newClass : getBlockId s with
  | none => rfl
  | some newBlockId =>
    have fits : s ≤ maxSize := by
      by_contra above
      rw [getBlockId_none.mpr (Nat.not_le.mp above)] at newClass
      cases newClass
    have long : maxSize < rec.length := by omega
    simp only [← rec_eq]
    by_cases same : oldBlockId = newBlockId
    · rw [if_pos same,Option.bind_eq_none_iff]
      intro mem1 moved
      rw [store_long (by rw [move_length moved]; omega)]
      rfl
    · rw [if_neg same,Option.bind_eq_none_iff]
      intro m1 stored1
      rw [Option.bind_eq_none_iff]
      intro m2 stored2
      have class_ := blockSize_le newBlockId
      have whole := m.alloc_length newBlockId
      rw [store_long (by rw [store_length stored2,store_length stored1]; omega)]
      rfl

/-- The block after a change of its size. -/
theorem splice_iff {mem slack : List UInt8} {O rec : List UInt8} (type : g.type = 1)
    (sound : Sound (before ++ (id,data) :: after)) (small : data.length < 2 ^ 32)
    (shape : mem = bytes 4 (encodeAll before ++ O ++ encodeAll after).length ++ (encodeAll before ++ O ++ encodeAll after) ++ slack)
    (rec_eq : rec = copyData id data) (length : rec.length = data.length + 1)
    (old : 4 + (encodeAll before ++ O ++ encodeAll after).length ≤ maxSize)
    (class_ : ∃ blockId, getBlockId (4 + (encodeAll before ++ O ++ encodeAll after).length) = some blockId ∧
      mem.length = blockSize blockId) :
    Exact (spliceBlock m t g mem 0 (4 + (encodeAll before).length) (4 + (encodeAll before).length + O.length)
        (4 + (encodeAll before ++ O ++ encodeAll after).length) id data) g (before ++ (id,data) :: after) ↔
      4 + (encodeAll before).length + rec.length + (encodeAll after).length ≤ maxSize ∧
        (getBlockId (4 + (encodeAll before).length + rec.length + (encodeAll after).length) ≠
            getBlockId (4 + (encodeAll before ++ O ++ encodeAll after).length) ∨
          Shifted mem (4 + (encodeAll before).length + O.length) (4 + (encodeAll before).length + rec.length)
            (encodeAll after).length) := by
  obtain ⟨B,B_eq⟩ : ∃ B, B = encodeAll before := ⟨_,rfl⟩
  obtain ⟨A,A_eq⟩ : ∃ A, A = encodeAll after := ⟨_,rfl⟩
  obtain ⟨blockId,oldClass,room⟩ := class_
  have content : encodeAll (before ++ (id,data) :: after) = B ++ rec ++ A := by
    rw [encodeAll_append,encodeAll_cons,B_eq,A_eq,rec_eq,List.append_assoc]
    rfl
  have contentLength : (B ++ rec ++ A).length = B.length + rec.length + A.length := by
    rw [List.length_append,List.length_append]
  have sum : 4 + (B.length + rec.length + A.length) = 4 + B.length + rec.length + A.length := by omega
  rw [← B_eq,← A_eq] at shape old oldClass ⊢
  have four : (bytes 4 (B ++ O ++ A).length).length = 4 := bytes_length 4 _
  have some_ : before ++ (id,data) :: after ≠ [] := by simp
  by_cases fits : 4 + B.length + rec.length + A.length ≤ maxSize
  · obtain ⟨newBlockId,newClass⟩ := getBlockId_some fits
    by_cases same : blockId = newBlockId
    · subst same
      obtain ⟨X,result,total,at'⟩ := splice_same (m := m) (t := t) (g := g) four rec_eq length fits oldClass newClass
        (by rw [← shape]; exact room)
      rw [← shape] at result at'
      have places : Shifted mem (4 + B.length + O.length) (4 + B.length + rec.length) A.length ↔ ∀ i < A.length, X[i]? = A[i]? := by
        have next : ∀ i < A.length, mem[4 + B.length + O.length + i]? = A[i]? := by
          intro i inside
          have shape' : mem = (bytes 4 (B ++ O ++ A).length ++ B ++ O) ++ (A ++ slack) := by rw [shape]; simp
          have place : 4 + B.length + O.length = (bytes 4 (B ++ O ++ A).length ++ B ++ O).length := by
            rw [List.length_append,List.length_append,four]
          rw [shape',place,List.getElem?_append_right (Nat.le_add_right _ _),Nat.add_sub_cancel_left,List.getElem?_append_left inside]
        constructor
        · intro shifted i inside
          rw [at',← next i inside]
          exact (shifted i inside).symm
        · intro equal i inside
          rw [next i inside,← equal i inside]
          exact at' i
      rw [result]
      constructor
      · rintro ⟨t',g',returned,holds,_⟩
        cases returned
        refine ⟨fits,.inr (places.mpr ?_)⟩
        rcases holds.stored with ⟨zero,_⟩ | ⟨_,mem',cell,block⟩
        · rw [type] at zero
          cases zero
        · cases cell
          obtain ⟨slack',equal⟩ := block.content
          rw [content,contentLength,List.append_assoc (bytes 4 _)] at equal
          have tail := List.append_cancel_left equal
          rw [List.append_assoc (B ++ rec)] at tail
          have tail' := List.append_cancel_left tail
          intro i inside
          rw [tail',List.getElem?_append_left inside]
      · rintro ⟨_,differ | shifted⟩
        · exact absurd (newClass.trans oldClass.symm) differ
        · refine ⟨t,_,rfl,⟨sound,some_,.inr ⟨type,_,rfl,?_⟩⟩,rfl⟩
          have head : X = A ++ X.drop A.length := by
            have front : X.take A.length = A := by
              apply List.ext_getElem?
              intro i
              rw [List.getElem?_take]
              by_cases inside : i < A.length
              · rw [if_pos inside]
                exact places.mp shifted i inside
              · rw [if_neg inside,List.getElem?_eq_none (by omega)]
            conv_lhs => rw [← List.take_append_drop A.length X,front]
          refine ⟨by rw [content,contentLength]; omega,⟨blockId,?_,?_⟩,X.drop A.length,?_⟩
          · rw [content,contentLength,sum]
            exact newClass
          · rw [List.length_append,List.length_append,List.length_append,bytes_length]
            omega
          · rw [content,contentLength]
            conv_lhs => rw [head]
            simp
    · obtain ⟨slack',result,total⟩ := 
        splice_other (m := m) (t := t) (g := g) four rec_eq length fits oldClass newClass same
      rw [← shape] at result
      rw [result]
      refine iff_of_true ⟨t,_,rfl,⟨sound,some_,.inr ⟨type,_,rfl,?_⟩⟩,rfl⟩ ⟨fits,.inl ?_⟩
      · refine ⟨by rw [content,contentLength]; omega,⟨newBlockId,?_,total⟩,slack',?_⟩
        · rw [content,contentLength,sum]
          exact newClass
        · rw [content,contentLength]
      · rw [newClass,oldClass]
        exact fun equal => same (Option.some.inj equal).symm
  · have most := blockSize_le blockId
    rw [splice_none rec_eq length (Nat.not_le.mp fits) old (by omega)]
    refine iff_of_false ?_ fun both => fits both.1
    rintro ⟨t',g',returned,_⟩
    cases returned

/-- A record of the same size is written over the old one. -/
theorem overwrite {mem slack O rec : List UInt8} (type : g.type = 1) (sound : Sound (before ++ (id,data) :: after))
    (shape : mem = bytes 4 (encodeAll before ++ O ++ encodeAll after).length ++ (encodeAll before ++ O ++ encodeAll after) ++ slack)
    (rec_eq : rec = copyData id data) (same : O.length = rec.length)
    (old : 4 + (encodeAll before ++ O ++ encodeAll after).length ≤ maxSize)
    (class_ : ∃ blockId, getBlockId (4 + (encodeAll before ++ O ++ encodeAll after).length) = some blockId ∧
      mem.length = blockSize blockId) :
    Exact ((store mem (4 + (encodeAll before).length) rec).map fun mem => (t,{ g with cell := .block mem 0 })) g
      (before ++ (id,data) :: after) := by
  obtain ⟨B,B_eq⟩ : ∃ B, B = encodeAll before := ⟨_,rfl⟩
  obtain ⟨A,A_eq⟩ : ∃ A, A = encodeAll after := ⟨_,rfl⟩
  obtain ⟨blockId,oldClass,room⟩ := class_
  have content : encodeAll (before ++ (id,data) :: after) = B ++ rec ++ A := by
    rw [encodeAll_append,encodeAll_cons,B_eq,A_eq,rec_eq,List.append_assoc]
    rfl
  rw [← B_eq,← A_eq] at shape old oldClass
  rw [← B_eq]
  have length : (B ++ rec ++ A).length = (B ++ O ++ A).length := by
    rw [List.length_append,List.length_append,List.length_append,List.length_append,same]
  have stored : store mem (4 + B.length) rec = some (bytes 4 (B ++ O ++ A).length ++ (B ++ rec ++ A) ++ slack) := by
    have shape' : mem = (bytes 4 (B ++ O ++ A).length ++ B) ++ O ++ (A ++ slack) := by rw [shape]; simp
    have place : 4 + B.length = (bytes 4 (B ++ O ++ A).length ++ B).length := by
      rw [List.length_append,bytes_length]
    rw [shape',place,store_append same]
    simp
  rw [stored]
  refine ⟨t,_,rfl,⟨sound,by simp,.inr ⟨type,_,rfl,?_⟩⟩,rfl⟩
  refine ⟨?_,⟨blockId,?_,?_⟩,slack,?_⟩
  · rw [content,length]
    exact old
  · rw [content,length]
    exact oldClass
  · rw [← room]
    exact store_length stored
  · rw [content,length]

/-- A block of one record that becomes a record in the slot keeps its type. -/
theorem shrink_wrong {g : Slot} (type : g.type = 1) (result : Option (List UInt8)) (t : Counts) :
    ¬ Exact (result.map fun bytes => (t,{ g with cell := .inline bytes })) g rs := by
  rintro ⟨t',g',returned,holds,_⟩
  obtain ⟨bytes,_,pair⟩ := Option.map_eq_some_iff.mp returned
  cases pair
  rcases holds.stored with ⟨zero,_⟩ | ⟨_,mem,cell,_⟩
  · rw [type] at zero
    cases zero
  · cases cell

theorem updateBlock_iff {mem : List UInt8} (type : g.type = 1) (sound : Sound rs) (block : HoldsBlock mem rs) (small : id < 4096)
    (payload : Payload data) (len : data.length < 2 ^ 32) :
    Exact (updateBlock m t g mem 0 id data) g (putRecord rs id data) ↔ BlockFine mem rs id data := by
  obtain ⟨before,d,after,split⟩ := exists_split sound.ascending id
  obtain ⟨low,high,mid,whole⟩ := split.parts
  have sound' := split.sound_put sound small payload
  obtain ⟨slack,shape⟩ := block.content
  obtain ⟨blockId,class_,room⟩ := block.size
  have fits := block.fits
  have largest : maxSize < 2 ^ 32 := by decide
  obtain ⟨n,n_eq⟩ : ∃ n, n = (encodeAll rs).length := ⟨_,rfl⟩
  obtain ⟨header,found⟩ := block.find sound split
  rw [← n_eq] at header found
  have size : (n + 4) % 2 ^ 32 = 4 + n := by
    rw [Nat.mod_eq_of_lt (by omega)]
    omega
  obtain ⟨rec,rec_eq⟩ : ∃ rec, rec = copyData id data := ⟨_,rfl⟩
  have recLength : rec.length = data.length + 1 := by
    rw [rec_eq]
    exact encode_length (r := (id,data)) payload
  have sum : (encodeAll rs).length = (encodeAll before).length + (present rs id).length + (encodeAll after).length := by
    rw [whole,List.length_append,List.length_append]
  have classes : ∃ blockId, getBlockId (4 + (encodeAll before ++ present rs id ++ encodeAll after).length) = some blockId ∧
      mem.length = blockSize blockId := ⟨blockId,by rw [← whole]; exact class_,room⟩
  have shape' : mem = bytes 4 (encodeAll before ++ present rs id ++ encodeAll after).length ++
      (encodeAll before ++ present rs id ++ encodeAll after) ++ slack := by rw [← whole]; exact shape
  have fits' : 4 + (encodeAll before ++ present rs id ++ encodeAll after).length ≤ maxSize := by rw [← whole]; exact fits
  have spliced := fun t' => splice_iff (m := m) (t := t') type sound' len shape' rec_eq recLength fits' classes
  rw [← whole,← n_eq] at spliced
  rw [updateBlock,header,split.put,BlockFine,newSize,low,high,← n_eq,← recLength]
  simp only [Nat.zero_add,size,found]
  cases d with
  | none =>
    have absent : present rs id = [] := mid
    rw [absent] at spliced ⊢
    simp only [Option.map_none,reduceCtorEq,and_false,if_false]
    refine (spliced _).trans ?_
    have apart : ¬ ([] : List UInt8).length = rec.length := by
      rw [recLength]
      exact (Nat.succ_ne_zero _).symm
    simp only [ne_eq,not_true_eq_false,and_false,not_false_eq_true,true_and,apart,false_or]
  | some d₀ =>
    have held : encode (id,d₀) = present rs id := mid.symm
    have two : 2 ≤ (present rs id).length := by
      rw [← held]
      cases split with
      | held above below beyond => exact encode_two (sound.payloads (id,d₀) (by rw [above]; simp))
    have nonempty : present rs id ≠ [] := by
      intro empty
      rw [empty] at two
      exact absurd two (by decide)
    simp only [Option.map_some,held]
    by_cases single : data.length < 7 ∧ encodeAll before = [] ∧ encodeAll after = []
    · obtain ⟨short,first,last⟩ := single
      have alone : data.length < 7 ∧ 4 = 4 + (encodeAll before).length ∧
          some (4 + (encodeAll before).length + (present rs id).length) = some (4 + n) := by
        refine ⟨short,by rw [first]; rfl,?_⟩
        rw [n_eq,sum,first,last]
        simp
      rw [if_pos alone]
      exact iff_of_false (shrink_wrong type _ _) fun fine => fine.1 ⟨short,first,last,nonempty⟩
    · have several : ¬ (data.length < 7 ∧ 4 = 4 + (encodeAll before).length ∧
          some (4 + (encodeAll before).length + (present rs id).length) = some (4 + n)) := by
        rintro ⟨short,first,last⟩
        have last' := Option.some.inj last
        exact single ⟨short,List.length_eq_zero_iff.mp (by omega),List.length_eq_zero_iff.mp (by omega)⟩
      rw [if_neg several]
      have fine : ¬ (data.length < 7 ∧ encodeAll before = [] ∧ encodeAll after = [] ∧ present rs id ≠ []) :=
        fun all => single ⟨all.1,all.2.1,all.2.2.1⟩
      simp only [Nat.add_sub_cancel_left,fine,not_false_eq_true,true_and,← rec_eq]
      by_cases same : (present rs id).length = rec.length
      · rw [if_pos same]
        refine iff_of_true ?_ (.inl same)
        exact overwrite type sound' shape' rec_eq same fits' classes
      · rw [if_neg same]
        simp only [same,false_or]
        exact spliced _

/-! ## Records in the slot -/

/-- The block of the record in the slot and the new one after it. -/
theorem two_records {R rec : List UInt8} {r : Record} {blockId : Nat} (R_eq : R = encode r) (rec_eq : rec = copyData id data)
    (length : rec.length = data.length + 1) (sound : Sound [r,(id,data)]) (fits : 4 + R.length + rec.length ≤ maxSize)
    (class_ : getBlockId (4 + R.length + rec.length) = some blockId) :
    ∃ block, ((store (m.alloc blockId) 0 (bytes 4 (R.length + data.length + 1))).bind fun newBlock =>
        (store newBlock 4 R).bind fun newBlock => store newBlock (4 + R.length) rec) = some block ∧ HoldsBlock block [r,(id,data)] := by
  have content : encodeAll [r,(id,data)] = R ++ rec := by
    rw [encodeAll_cons,encodeAll_cons,R_eq,rec_eq]
    exact congrArg _ (List.append_nil _)
  have header : R.length + data.length + 1 = (R ++ rec).length := by
    rw [List.length_append,length]
    rfl
  have room := (getBlockId_fits class_).2
  have whole := m.alloc_length blockId
  obtain ⟨n,n_eq⟩ : ∃ n, n = (R ++ rec).length := ⟨_,rfl⟩
  obtain ⟨f0,s0,l0⟩ := store_first (by rw [bytes_length,whole]; omega : (bytes 4 n).length ≤ (m.alloc blockId).length)
  rw [bytes_length,whole] at l0
  obtain ⟨f1,s1,l1⟩ := store_next (bytes 4 n) (by omega : R.length ≤ f0.length)
  obtain ⟨f2,s2,l2⟩ := store_next (bytes 4 n ++ R) (by omega : rec.length ≤ f1.length)
  rw [bytes_length] at s1
  rw [List.length_append,bytes_length] at s2
  refine ⟨bytes 4 n ++ (R ++ rec) ++ f2,?_,?_,⟨blockId,?_,?_⟩,f2,?_⟩
  · rw [header,← n_eq,s0,Option.bind_some,s1,Option.bind_some,s2,List.append_assoc (bytes 4 _)]
  · rw [content,List.length_append,← Nat.add_assoc]
    exact fits
  · rw [content,List.length_append,← Nat.add_assoc]
    exact class_
  · rw [List.length_append,List.length_append,List.length_append,bytes_length]
    omega
  · rw [content,n_eq]

theorem updateInline_iff {r : Record} {slot slack : List UInt8} (type : g.type = 0) (sound : Sound [r])
    (shape : slot = encode r ++ slack) (eight : slot.length = 8) (small : id < 4096) (payload : Payload data)
    (len : data.length < 2 ^ 32) :
    Exact (updateInline m t g slot id data) g (putRecord [r] id data) ↔ InlineFine [r] id data := by
  have payload' := sound.payloads r (by simp)
  have read : advanceId slot = some ((encode r).length,r.1) := by
    rw [shape]
    exact advanceId_encode payload' (sound.ids r (by simp)) slack
  have short : (encode r).length ≤ 8 := by
    rw [shape,List.length_append] at eight
    omega
  obtain ⟨rec,rec_eq⟩ : ∃ rec, rec = copyData id data := ⟨_,rfl⟩
  have recLength : rec.length = data.length + 1 := by
    rw [rec_eq]
    exact encode_length (r := (id,data)) payload
  obtain ⟨before,d,after,split⟩ := exists_split sound.ascending id
  have sound' := split.sound_put sound small payload
  rw [← split.put data] at sound'
  have fine : InlineFine [r] id data ↔ (r.1 = id → data.length < 7) ∧
      (r.1 ≠ id → r.1 < id ∧ 4 + (encode r).length + (data.length + 1) ≤ maxSize) := by
    rw [InlineFine]
    exact ⟨fun all => all r (by simp),fun one s member => List.mem_singleton.mp member ▸ one⟩
  rw [updateInline,read,fine]
  simp only [← rec_eq]
  by_cases same : r.1 = id
  · have alone : putRecord [r] id data = [(id,data)] := by simp [putRecord,same]
    rw [if_pos same,alone]
    rw [alone] at sound'
    by_cases fits : data.length < 7
    · rw [if_pos fits]
      refine iff_of_true ?_ ⟨fun _ => fits,fun other => absurd same other⟩
      obtain ⟨old,rest,parts,length⟩ := cut slot (n := rec.length) (by omega)
      have stored : store slot 0 rec = some (rec ++ rest) := by
        rw [parts]
        exact store_append (a := []) length
      rw [stored]
      refine ⟨_,_,rfl,⟨sound',by simp,.inl ⟨type,(id,data),rest,rfl,?_,?_⟩⟩,rfl⟩
      · rw [rec_eq]
        rfl
      · rw [parts,List.length_append] at eight
        have encoded : encode (id,data) = rec := rec_eq.symm
        rw [encoded,List.length_append]
        omega
    · rw [if_neg fits]
      refine iff_of_false ?_ fun both => fits (both.1 same)
      rintro ⟨t',g',returned,_⟩
      cases returned
  · rw [if_neg same]
    obtain ⟨s,s_eq⟩ : ∃ s, s = ((encode r).length + data.length + 1 + 4) % 2 ^ 32 := ⟨_,rfl⟩
    have fine' : (r.1 = id → data.length < 7) ∧ (r.1 ≠ id → r.1 < id ∧ 4 + (encode r).length + (data.length + 1) ≤ maxSize) ↔
        r.1 < id ∧ 4 + (encode r).length + rec.length ≤ maxSize := by
      rw [recLength]
      exact ⟨fun both => both.2 same,fun both => ⟨fun equal => absurd equal same,fun _ => both⟩⟩
    have largest : maxSize * 2 < 2 ^ 32 := by decide
    rw [fine',← s_eq]
    cases class_ : getBlockId s with
    | none =>
      have above := getBlockId_none.mp class_
      have most : s ≤ (encode r).length + data.length + 1 + 4 := s_eq ▸ Nat.mod_le _ _
      refine iff_of_false ?_ fun both => by omega
      rintro ⟨t',g',returned,_⟩
      cases returned
    | some blockId =>
      have inside : s ≤ maxSize := by
        by_contra above
        rw [getBlockId_none.mpr (Nat.not_le.mp above)] at class_
        cases class_
      have room := blockSize_le blockId
      have whole := m.alloc_length blockId
      by_cases less : r.1 < id
      · simp only [if_pos less]
        by_cases fits : 4 + (encode r).length + rec.length ≤ maxSize
        · have pair : putRecord [r] id data = [r,(id,data)] := by simp [putRecord,less,Nat.not_lt.mpr (Nat.le_of_lt less)]
          have size : s = 4 + (encode r).length + rec.length := by
            rw [s_eq,Nat.mod_eq_of_lt (by omega),recLength]
            omega
          rw [pair] at sound' ⊢
          rw [size] at class_
          obtain ⟨block,result,holds⟩ := two_records (m := m) rfl rec_eq recLength sound' fits class_
          refine iff_of_true ?_ ⟨less,fits⟩
          have front : slot.take (encode r).length = encode r := by rw [shape,List.take_left]
          obtain ⟨m1,first,result⟩ := Option.bind_eq_some_iff.mp result
          obtain ⟨m2,second,third⟩ := Option.bind_eq_some_iff.mp result
          rw [first,Option.bind_some,front,second,Option.bind_some,third]
          exact ⟨_,_,rfl,⟨sound',by simp,.inr ⟨rfl,_,rfl,holds⟩⟩,rfl⟩
        · refine iff_of_false ?_ fun both => fits both.2
          rintro ⟨t',g',returned,_⟩
          obtain ⟨m1,first,returned⟩ := Option.bind_eq_some_iff.mp returned
          obtain ⟨m2,second,returned⟩ := Option.bind_eq_some_iff.mp returned
          rw [store_long] at returned
          · cases returned
          · rw [store_length second,store_length first]
            omega
      · simp only [if_neg less]
        refine iff_of_false ?_ fun both => less both.1
        rintro ⟨t',g',returned,holds,_⟩
        obtain ⟨m1,first,returned⟩ := Option.bind_eq_some_iff.mp returned
        obtain ⟨m2,second,returned⟩ := Option.bind_eq_some_iff.mp returned
        obtain ⟨m3,third,pair⟩ := Option.map_eq_some_iff.mp returned
        cases pair
        -- the pointer goes to the second record, not to the block
        rcases holds.stored with ⟨zero,_⟩ | ⟨_,mem,cell,_⟩
        · cases zero
        · cases cell

/-- The update leaves the group with the new record exactly when its path is right. -/
theorem update_iff (holds : Holds g rs) (small : id < 4096) (payload : Payload data) (len : data.length < 2 ^ 32) :
    Exact (updateGroupWithData m t g id data) g (putRecord rs id data) ↔ UpdateFine g rs id data := by
  rcases holds.stored with ⟨type,r,slack,shape,cell,eight⟩ | ⟨type,mem,cell,block⟩
  · have sound := holds.sound
    rw [shape] at sound ⊢
    have inline := updateInline_iff (m := m) (t := t) type sound rfl eight small payload len
    rw [updateGroupWithData,if_neg (by rw [type]; decide),UpdateFine,cell]
    exact inline
  · have whole := updateBlock_iff (m := m) (t := t) type holds.sound block small payload len
    rw [updateGroupWithData,if_pos (by rw [type]; decide),UpdateFine,cell]
    exact whole

/-! ## The counters -/

/-- How the counters go on when a record of this id is written. -/
structure CountsPut (t : Counts) (rs : List Record) (id : Nat) (data : List UInt8) (t' : Counts) : Prop where
  replaced : ∀ d, (id,d) ∈ rs → t' = t.replace (d.length + 1) (data.length + 1) ∨ d.length = data.length ∧ t' = t
  inserted : (∀ d, (id,d) ∉ rs) → t' = t.insert (data.length + 1)

theorem spliceBlock_counts {mem : List UInt8} {base mp next size : Nat} {t' : Counts} {g' : Slot}
    (returned : spliceBlock m t g mem base mp next size id data = some (t',g')) : t' = t := by
  rw [spliceBlock] at returned
  cases old : getBlockId size with
  | none =>
    rw [old] at returned
    cases returned
  | some oldBlockId =>
    rw [old] at returned
    cases new : getBlockId ((size + data.length + 1 - (next - mp)) % 2 ^ 32) with
    | none =>
      rw [new] at returned
      cases returned
    | some newBlockId =>
      rw [new] at returned
      simp only at returned
      by_cases same : oldBlockId = newBlockId
      · rw [if_pos same] at returned
        obtain ⟨_,_,returned⟩ := Option.bind_eq_some_iff.mp returned
        obtain ⟨_,_,returned⟩ := Option.bind_eq_some_iff.mp returned
        obtain ⟨_,_,pair⟩ := Option.map_eq_some_iff.mp returned
        exact (congrArg Prod.fst pair).symm
      · rw [if_neg same] at returned
        obtain ⟨_,_,returned⟩ := Option.bind_eq_some_iff.mp returned
        obtain ⟨_,_,returned⟩ := Option.bind_eq_some_iff.mp returned
        obtain ⟨_,_,returned⟩ := Option.bind_eq_some_iff.mp returned
        obtain ⟨_,_,pair⟩ := Option.map_eq_some_iff.mp returned
        exact (congrArg Prod.fst pair).symm

theorem updateInline_counts {r : Record} {slot slack : List UInt8} {t' : Counts} {g' : Slot} (sound : Sound [r])
    (shape : slot = encode r ++ slack) (returned : updateInline m t g slot id data = some (t',g')) : CountsPut t [r] id data t' := by
  have payload := sound.payloads r (by simp)
  have read : advanceId slot = some ((encode r).length,r.1) := by
    rw [shape]
    exact advanceId_encode payload (sound.ids r (by simp)) slack
  rw [updateInline,read] at returned
  simp only at returned
  by_cases same : r.1 = id
  · refine ⟨fun d member => .inl ?_,fun absent => absurd (List.mem_singleton.mpr (by rw [← same])) (absent r.2)⟩
    rw [if_pos same] at returned
    by_cases short : data.length < 7
    · rw [if_pos short,encode_length payload] at returned
      obtain ⟨_,_,pair⟩ := Option.map_eq_some_iff.mp returned
      have mine := congrArg Prod.snd (List.mem_singleton.mp member)
      rw [show d = r.2 from mine]
      exact (congrArg Prod.fst pair).symm
    · rw [if_neg short] at returned
      cases returned
  · refine ⟨fun d member => absurd (congrArg Prod.fst (List.mem_singleton.mp member)).symm same,fun _ => ?_⟩
    rw [if_neg same] at returned
    cases class_ : getBlockId (((encode r).length + data.length + 1 + 4) % 2 ^ 32) with
    | none =>
      rw [class_] at returned
      cases returned
    | some blockId =>
      rw [class_] at returned
      obtain ⟨_,_,returned⟩ := Option.bind_eq_some_iff.mp returned
      by_cases less : r.1 < id
      · rw [if_pos less] at returned
        obtain ⟨_,_,returned⟩ := Option.bind_eq_some_iff.mp returned
        obtain ⟨_,_,pair⟩ := Option.map_eq_some_iff.mp returned
        exact (congrArg Prod.fst pair).symm
      · rw [if_neg less] at returned
        obtain ⟨_,_,returned⟩ := Option.bind_eq_some_iff.mp returned
        obtain ⟨_,_,pair⟩ := Option.map_eq_some_iff.mp returned
        exact (congrArg Prod.fst pair).symm

theorem updateBlock_counts {mem : List UInt8} {t' : Counts} {g' : Slot} (sound : Sound rs) (block : HoldsBlock mem rs)
    (returned : updateBlock m t g mem 0 id data = some (t',g')) : CountsPut t rs id data t' := by
  obtain ⟨before,d,after,split⟩ := exists_split sound.ascending id
  obtain ⟨_,_,mid,whole⟩ := split.parts
  obtain ⟨header,found⟩ := block.find sound split
  have fits := block.fits
  have largest : maxSize < 2 ^ 32 := by decide
  have size : ((encodeAll rs).length + 4) % 2 ^ 32 = 4 + (encodeAll rs).length := by
    rw [Nat.mod_eq_of_lt (by omega)]
    omega
  rw [updateBlock,header] at returned
  simp only [Nat.zero_add,size,found] at returned
  cases d with
  | none =>
    refine ⟨fun d member => ?_,fun _ => ?_⟩
    · cases split.mem.mp member
    · simp only [Option.map_none,reduceCtorEq,and_false,if_false] at returned
      exact spliceBlock_counts returned
  | some d₀ =>
    have there : (id,d₀) ∈ rs := split.mem.mpr rfl
    have length : (encode (id,d₀)).length = d₀.length + 1 := encode_length (r := (id,d₀)) (sound.payloads _ there)
    refine ⟨fun d member => ?_,fun absent => absurd there (absent d₀)⟩
    have same : d = d₀ := (Option.some.inj (split.mem.mp member)).symm
    subst same
    simp only [Option.map_some,Nat.add_sub_cancel_left] at returned
    by_cases alone : data.length < 7 ∧ 4 = 4 + (encodeAll before).length ∧
        some (4 + (encodeAll before).length + (encode (id,d)).length) = some (4 + (encodeAll rs).length)
    · rw [if_pos alone] at returned
      obtain ⟨_,first,last⟩ := alone
      have last' := Option.some.inj last
      obtain ⟨_,_,pair⟩ := Option.map_eq_some_iff.mp returned
      have all : (encodeAll rs).length = d.length + 1 := by omega
      rw [all] at pair
      exact .inl (congrArg Prod.fst pair).symm
    · rw [if_neg alone,length] at returned
      by_cases equal : d.length + 1 = data.length + 1
      · rw [if_pos equal] at returned
        obtain ⟨_,_,pair⟩ := Option.map_eq_some_iff.mp returned
        exact .inr ⟨Nat.succ.inj equal,(congrArg Prod.fst pair).symm⟩
      · rw [if_neg equal] at returned
        exact .inl (spliceBlock_counts returned)

/-- On every path the counters change by the record that goes and the one that comes. -/
theorem update_counts {t' : Counts} {g' : Slot} (holds : Holds g rs) (returned : updateGroupWithData m t g id data = some (t',g')) :
    CountsPut t rs id data t' := by
  rw [updateGroupWithData] at returned
  rcases holds.stored with ⟨type,r,slack,shape,cell,eight⟩ | ⟨type,mem,cell,block⟩
  · rw [if_neg (by rw [type]; decide),cell] at returned
    have sound := holds.sound
    rw [shape] at sound ⊢
    exact updateInline_counts sound rfl returned
  · rw [if_pos (by rw [type]; decide),cell] at returned
    exact updateBlock_counts holds.sound block returned

end

/-- The block of two records without bytes of their own. -/
def pair : Slot := { type := 1, group := 0, cell := .block (bytes 4 4 ++ encodeAll [(1,[0]),(9,[0])] ++ [0,0]) 0 }

theorem pair_holds : Holds pair [(1,[0]),(9,[0])] := by
  have empty : Payload [0] := ⟨0,[],rfl,by decide,rfl⟩
  refine ⟨⟨by decide,?_,by decide⟩,by decide,.inr ⟨rfl,_,rfl,by decide +kernel,⟨1,by decide +kernel,by decide +kernel⟩,[0,0],rfl⟩⟩
  intro r member
  rcases List.mem_cons.mp member with rfl | other
  · exact empty
  · cases List.mem_singleton.mp other
    exact empty

/-- A third record after the two. -/
theorem update_iff_last : Exact (updateGroupWithData zeros ⟨2,4,4⟩ pair 11 [0]) pair [(1,[0]),(9,[0]),(11,[0])] ↔
    UpdateFine pair [(1,[0]),(9,[0])] 11 [0] :=
  update_iff (m := zeros) (t := ⟨2,4,4⟩) pair_holds (by decide) ⟨0,[],rfl,by decide,rfl⟩ (by decide)

/-- A third record between the two is followed by what stood after the last. -/
theorem update_between : Holds pair [(1,[0]),(9,[0])] ∧ Payload [0] ∧
    updateGroupWithData zeros ⟨2,4,4⟩ pair 5 [0] =
      some (⟨3,6,6⟩,{ pair with cell := .block (bytes 4 6 ++ encodeAll [(1,[0]),(5,[0])] ++ [0,0]) 0 }) ∧
    ¬ Exact (updateGroupWithData zeros ⟨2,4,4⟩ pair 5 [0]) pair (putRecord [(1,[0]),(9,[0])] 5 [0]) := by
  have result : updateGroupWithData zeros ⟨2,4,4⟩ pair 5 [0] =
      some (⟨3,6,6⟩,{ pair with cell := .block (bytes 4 6 ++ encodeAll [(1,[0]),(5,[0])] ++ [0,0]) 0 }) := by decide +kernel
  refine ⟨pair_holds,⟨0,[],rfl,by decide,rfl⟩,result,?_⟩
  rw [result]
  rintro ⟨t',g',returned,holds,_⟩
  cases returned
  rcases holds.stored with ⟨zero,_⟩ | ⟨_,mem,cell,block⟩
  · cases zero
  · cases cell
    obtain ⟨slack,equal⟩ := block.content
    have last : some (0 : UInt8) = some 144 := congrArg (fun l => l[8]?) equal
    cases last

end AnotherC.GroupUpdate
