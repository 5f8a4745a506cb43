import AnotherC.Search.Groups

/-!
# Removing a posting and a group: `remove_id_from_group` and `remove_group`

What is left of a block goes into the slot when it has at most eight bytes, whether
it is one record or several, unless the removed record stood in the middle
(`removeId_iff`). `remove_group` copies or moves the groups up to the end of the
array without its last group (`removeGroup_iff`).
-/
namespace AnotherC.GroupRemove
open AnotherC.Lib.Bytes AnotherC.Lib.Splice AnotherC.Groups
set_option linter.unusedVariables false

/-! ## Removing a record -/

/-- A record of `old` bytes goes. -/
def remove (t : Counts) (old : Nat) : Counts :=
  { numIds := sub32 t.numIds 1, bytes := sub32 t.bytes old, totalBytes := sub32 t.totalBytes old }

/-- The end of `remove_id_from_group`: what is left stays in a block, in place or in
    another size class. -/
def closeBlock (m : Machine) (t : Counts) (g : Slot) (mem : List UInt8) (base mp next ep blockSize : Nat) :
    Option (Bool × Counts × Slot) :=
  let block := base + 4
  let newSize := sub32 blockSize (next - mp)
  match getBlockId blockSize, getBlockId newSize with
  | some oldBlockId, some newBlockId =>
    if oldBlockId = newBlockId then
      (move mem mp next (ep - next)).bind fun mem =>
        (store mem base (bytes 4 (newSize - 4))).map fun mem => (false,t,{ g with cell := .block mem base })
    else
      (store (m.alloc newBlockId) 0 (bytes 4 (newSize - 4))).bind fun newBlock =>
        (store newBlock 4 ((mem.drop block).take (mp - block))).bind fun newBlock =>
          (store newBlock (4 + (mp - block)) ((mem.drop next).take (ep - next))).map fun newBlock =>
            (false,t,{ g with cell := .block newBlock 0 })
  | _, _ => none

/-- `remove_id_from_group`: whether the group is empty now, the counters and the slot. -/
def removeIdFromGroup (m : Machine) (t : Counts) (g : Slot) (subId : Nat) : Option (Bool × Counts × Slot) :=
  match g.cell with
  | .inline _ => none
  | .block mem base =>
    match readNumber mem base with
    | none => none
    | some header =>
      let ep := base + header + 4
      let blockSize := (ep - base) % 2 ^ 32
      let block := base + 4
      match findIdInBlock (mem.length + 1) mem block ep subId with
      | none => none
      | some (_,none) => some (false,t,g)
      | some (mp,some next) =>
        let t := remove t (next - mp)
        if ep - block - (next - mp) < 9 ∧ (block = mp ∨ ep = next) then
          if block = mp ∧ ep = next then some (true,t,g)
          else
            (store m.pointer 0 ((mem.drop block).take (mp - block) ++ (mem.drop next).take (ep - next))).map fun bytes =>
              (false,t,{ g with type := 0, cell := .inline bytes })
        else closeBlock m t g mem base mp next ep blockSize

/-- The group without the record, and whether it is empty; nothing changes when the
    record is not there. -/
structure Removed (t : Counts) (g : Slot) (rs : List Record) (id : Nat) (empty : Bool) (t' : Counts) (g' : Slot) : Prop where
  empty_iff : empty = true ↔ removeRecord rs id = []
  holds : empty = false → Holds g' (removeRecord rs id) ∧ g'.group = g.group
  absent : (∀ r ∈ rs, r.1 ≠ id) → t' = t ∧ g' = g

def RemovedExactly (result : Option (Bool × Counts × Slot)) (t : Counts) (g : Slot) (rs : List Record) (id : Nat) : Prop :=
  ∃ empty t' g', result = some (empty,t',g') ∧ Removed t g rs id empty t' g'

/-- Several records are left, with at most eight bytes, and the removed one was the
    first or the last. -/
def LeftSeveral (rs : List Record) (id : Nat) : Prop :=
  (∃ r ∈ rs, r.1 = id) ∧ ((∀ r ∈ rs, id ≤ r.1) ∨ ∀ r ∈ rs, r.1 ≤ id) ∧ 2 ≤ (removeRecord rs id).length ∧
    (encodeAll (removeRecord rs id)).length < 9

section
variable {m : Machine} {t : Counts} {g : Slot} {rs before after : List Record} {id : Nat} {data : List UInt8}

theorem sub32_sub {a b : Nat} (less : b ≤ a) (small : a < 2 ^ 32) : sub32 a b = a - b := by
  rw [sub32,Nat.mod_eq_of_lt (by omega : b < 2 ^ 32)]
  omega

theorem sound_remove (sound : Sound rs) (id : Nat) : Sound (removeRecord rs id) := by
  have sub : (removeRecord rs id).Sublist rs := List.filter_sublist
  exact ⟨fun r member => sound.ids r (sub.subset member),fun r member => sound.payloads r (sub.subset member),
    sound.ascending.sublist sub⟩

theorem encodeAll_eq_nil (payloads : ∀ r ∈ rs, Payload r.2) : encodeAll rs = [] ↔ rs = [] := by
  constructor
  · intro empty
    have most := length_le_bytes payloads
    rw [empty] at most
    exact List.length_eq_zero_iff.mp (Nat.le_zero.mp most)
  · rintro rfl
    rfl

/-- What is left in a block. -/
theorem close_holds {H B O A slack mem : List UInt8} {blockId : Nat} (type : g.type = 1) (sound : Sound rs) (some_ : rs ≠ [])
    (content : encodeAll rs = B ++ A) (four : H.length = 4) (shape : mem = H ++ (B ++ O ++ A) ++ slack) (fits : 4 + (B ++ O ++ A).length ≤ maxSize)
    (old : getBlockId (4 + (B ++ O ++ A).length) = some blockId) (room : mem.length = blockSize blockId) :
    ∃ g', closeBlock m t g mem 0 (4 + B.length) (4 + B.length + O.length) (4 + (B ++ O ++ A).length) (4 + (B ++ O ++ A).length) =
      some (false,t,g') ∧ Holds g' rs ∧ g'.group = g.group := by
  obtain ⟨total,total_eq⟩ : ∃ total, total = (B ++ O ++ A).length := ⟨_,rfl⟩
  have sum : total = B.length + O.length + A.length := by rw [total_eq,List.length_append,List.length_append]
  have content' : (encodeAll rs).length = B.length + A.length := by rw [content,List.length_append]
  have largest : maxSize < 2 ^ 32 := by decide
  rw [← total_eq] at fits old ⊢
  obtain ⟨n,n_eq⟩ : ∃ n, n = B.length + A.length := ⟨_,rfl⟩
  have size : sub32 (4 + total) O.length = 4 + n := by
    rw [sub32_sub (by omega) (by omega)]
    omega
  have rest : 4 + total - (4 + B.length + O.length) = A.length := by omega
  have gap : 4 + B.length + O.length - (4 + B.length) = O.length := Nat.add_sub_cancel_left _ _
  obtain ⟨newBlockId,new⟩ := getBlockId_some (by omega : 4 + n ≤ maxSize)
  have inside := (getBlockId_fits new).2
  have header : 4 + n - 4 = n := Nat.add_sub_cancel_left 4 n
  have whole : mem = (H ++ B) ++ O ++ A ++ slack := by
    rw [shape]
    simp only [List.append_assoc]
  by_cases same : blockId = newBlockId
  · subst same
    obtain ⟨left,moved,length⟩ := move_closes (H ++ B) O A slack
    rw [← whole,List.length_append,List.length_append,List.length_append,four] at moved
    have headed : store (H ++ B ++ A ++ left) 0 (bytes 4 n) = some (bytes 4 n ++ (B ++ A ++ left)) := by
      rw [List.append_assoc,List.append_assoc,← List.append_assoc B]
      exact store_append (a := []) (by rw [four,bytes_length])
    refine ⟨{ g with cell := .block (bytes 4 n ++ (B ++ A ++ left)) 0 },?_,⟨sound,some_,.inr ⟨type,_,rfl,?_⟩⟩,rfl⟩
    · rw [closeBlock]
      simp only [gap,size,old,new,if_true,rest,moved,Option.bind_some,header,headed,Option.map_some]
    · have lengths := congrArg List.length whole
      rw [List.length_append,List.length_append,List.length_append,List.length_append,four] at lengths
      refine ⟨by omega,⟨blockId,by rw [content',← n_eq]; exact new,?_⟩,left,?_⟩
      · rw [List.length_append,List.length_append,List.length_append,bytes_length]
        omega
      · rw [content',← n_eq,content,List.append_assoc (bytes 4 n)]
  · obtain ⟨front,back⟩ := parts_spec four shape
    have allocated := m.alloc_length newBlockId
    obtain ⟨f0,s0,l0⟩ := store_first (by rw [bytes_length,allocated]; omega : (bytes 4 n).length ≤ (m.alloc newBlockId).length)
    rw [bytes_length,allocated] at l0
    obtain ⟨f1,s1,l1⟩ := store_next (bytes 4 n) (by omega : B.length ≤ f0.length)
    obtain ⟨f2,s2,l2⟩ := store_next (bytes 4 n ++ B) (by omega : A.length ≤ f1.length)
    rw [bytes_length] at s1
    rw [List.length_append,bytes_length] at s2
    refine ⟨{ g with cell := .block (bytes 4 n ++ B ++ A ++ f2) 0 },?_,⟨sound,some_,.inr ⟨type,_,rfl,?_⟩⟩,rfl⟩
    · rw [closeBlock]
      simp only [gap,size,old,new,if_neg same,Nat.zero_add,Nat.add_sub_cancel_left,rest,header,s0,Option.bind_some,front,s1,back,s2,
        Option.map_some]
    · refine ⟨by omega,⟨newBlockId,by rw [content',← n_eq]; exact new,?_⟩,f2,?_⟩
      · rw [List.length_append,List.length_append,List.length_append,bytes_length]
        omega
      · rw [content',← n_eq,content,List.append_assoc (bytes 4 n)]

theorem leftSeveral_iff {d : List UInt8} (shape : rs = before ++ (id,d) :: after) (below : ∀ r ∈ before, r.1 < id)
    (above : ∀ r ∈ after, id < r.1) (left : removeRecord rs id = before ++ after) :
    LeftSeveral rs id ↔ (before = [] ∨ after = []) ∧ 2 ≤ (before ++ after).length ∧ (encodeAll (before ++ after)).length < 9 := by
  have first : (∀ r ∈ rs, id ≤ r.1) ↔ before = [] := by
    constructor
    · intro least
      refine List.eq_nil_iff_forall_not_mem.mpr fun r member => ?_
      exact Nat.not_lt.mpr (least r (by rw [shape]; simp [member])) (below r member)
    · intro empty r member
      rw [shape,empty,List.nil_append,List.mem_cons] at member
      rcases member with rfl | later
      · exact Nat.le_refl _
      · exact Nat.le_of_lt (above r later)
  have last : (∀ r ∈ rs, r.1 ≤ id) ↔ after = [] := by
    constructor
    · intro most
      refine List.eq_nil_iff_forall_not_mem.mpr fun r member => ?_
      exact Nat.not_lt.mpr (most r (by rw [shape]; simp [member])) (above r member)
    · intro empty r member
      rw [shape,empty,List.mem_append,List.mem_singleton] at member
      rcases member with earlier | rfl
      · exact Nat.le_of_lt (below r earlier)
      · exact Nat.le_refl _
  rw [LeftSeveral,first,last,left]
  exact ⟨fun all => all.2,fun all => ⟨⟨(id,d),by rw [shape]; simp,rfl⟩,all⟩⟩

/-- What is left goes into the slot: one record is a group, several are not. -/
theorem slot_iff {B A : List UInt8} (sound : Sound rs) (some_ : rs ≠ []) (content : encodeAll rs = B ++ A) (short : (B ++ A).length < 9) :
    (∃ g', ((store m.pointer 0 (B ++ A)).map fun bytes => (false,t,{ g with type := 0, cell := .inline bytes })) = some (false,t,g') ∧
      Holds g' rs ∧ g'.group = g.group) ↔ rs.length < 2 := by
  have pointer := m.pointer_length
  obtain ⟨rest,stored,length⟩ := store_first (by omega : (B ++ A).length ≤ m.pointer.length)
  rw [stored,Option.map_some]
  constructor
  · rintro ⟨g',returned,holds,_⟩
    cases returned
    rcases holds.stored with ⟨_,r,slack,one,_⟩ | ⟨zero,_⟩
    · rw [one]
      exact Nat.lt_succ_self 1
    · cases zero
  · intro few
    obtain ⟨r,one⟩ : ∃ r, rs = [r] := by
      cases rs with
      | nil => exact absurd rfl some_
      | cons r rs =>
        cases rs with
        | nil => exact ⟨r,rfl⟩
        | cons s rs => exact absurd few (by simp)
    have record : B ++ A = encode r := by
      rw [← content,one]
      exact List.append_nil _
    refine ⟨_,rfl,⟨sound,some_,.inl ⟨rfl,r,rest,one,by rw [record],?_⟩⟩,rfl⟩
    rw [← record,List.length_append,length,pointer]

/-- The removal is exact unless it leaves several records that fit the slot. -/
theorem removeId_iff (holds : Holds g rs) (type : g.type ≠ 0) :
    RemovedExactly (removeIdFromGroup m t g id) t g rs id ↔ ¬ LeftSeveral rs id := by
  rcases holds.stored with ⟨zero,_⟩ | ⟨one,mem,cell,block⟩
  · exact absurd zero type
  have sound := holds.sound
  have sound' := sound_remove sound id
  obtain ⟨before,d,after,split⟩ := exists_split sound.ascending id
  obtain ⟨_,_,mid,whole⟩ := split.parts
  have left := split.remove
  obtain ⟨slack,shape⟩ := block.content
  obtain ⟨blockId,class_,room⟩ := block.size
  have fits := block.fits
  have largest : maxSize < 2 ^ 32 := by decide
  obtain ⟨n,n_eq⟩ : ∃ n, n = (encodeAll rs).length := ⟨_,rfl⟩
  obtain ⟨header,found⟩ := block.find sound split
  rw [← n_eq] at header found
  have end_ : n + 4 = 4 + n := Nat.add_comm n 4
  have size : (4 + n) % 2 ^ 32 = 4 + n := Nat.mod_eq_of_lt (by omega)
  rw [removeIdFromGroup,cell]
  simp only [header,end_,Nat.zero_add,Nat.sub_zero,size,found]
  cases split with
  | missing above below beyond =>
    have away : ∀ r ∈ rs, r.1 ≠ id := by
      intro r member
      rw [above,List.mem_append] at member
      rcases member with earlier | later
      · exact Nat.ne_of_lt (below r earlier)
      · exact Nat.ne_of_gt (beyond r later)
    have same : removeRecord rs id = rs := left.trans above.symm
    refine iff_of_true ?_ fun several => ?_
    · refine ⟨false,t,g,rfl,⟨?_,fun _ => ⟨by rw [same]; exact holds,rfl⟩,fun _ => ⟨rfl,rfl⟩⟩⟩
      rw [same]
      exact ⟨fun no => absurd no (by decide),fun empty => absurd empty holds.some_⟩
    · obtain ⟨⟨r,member,equal⟩,_⟩ := several
      exact away r member equal
  | held above below beyond =>
    rename_i d₀
    have held : encode (id,d₀) = present rs id := mid.symm
    have there : ¬ ∀ r ∈ rs, r.1 ≠ id := fun away => away (id,d₀) (by rw [above]; simp) rfl
    have several := leftSeveral_iff above below beyond left
    have content : encodeAll (before ++ after) = encodeAll before ++ encodeAll after := encodeAll_append _ _
    have sum : n = (encodeAll before).length + (present rs id).length + (encodeAll after).length := by
      rw [n_eq,whole,List.length_append,List.length_append]
    have payloads : ∀ r ∈ before ++ after, Payload r.2 := by
      rw [← left]
      exact sound'.payloads
    have noBefore := encodeAll_eq_nil fun r member => payloads r (List.mem_append_left _ member)
    have noAfter := encodeAll_eq_nil fun r member => payloads r (List.mem_append_right _ member)
    simp only [Option.map_some,held,Nat.add_sub_cancel_left]
    have rest : n - (present rs id).length = (encodeAll (before ++ after)).length := by
      rw [content,List.length_append]
      omega
    have tail : 4 + n - (4 + (encodeAll before).length + (present rs id).length) = (encodeAll after).length := by omega
    have first : 4 = 4 + (encodeAll before).length ↔ before = [] := by
      rw [← noBefore,← List.length_eq_zero_iff]
      omega
    have last : 4 + n = 4 + (encodeAll before).length + (present rs id).length ↔ after = [] := by
      rw [← noAfter,← List.length_eq_zero_iff]
      omega
    rw [several]
    simp only [rest,tail,first,last]
    rw [left] at sound'
    by_cases slot : (encodeAll (before ++ after)).length < 9 ∧ (before = [] ∨ after = [])
    · rw [if_pos slot]
      by_cases alone : before = [] ∧ after = []
      · rw [if_pos alone]
        have empty : removeRecord rs id = [] := by rw [left,alone.1,alone.2]; rfl
        refine iff_of_true ⟨true,_,g,rfl,⟨⟨fun _ => empty,fun _ => rfl⟩,fun no => absurd no (by decide),fun away => absurd away there⟩⟩ ?_
        rintro ⟨_,two,_⟩
        rw [alone.1,alone.2] at two
        exact absurd two (by decide)
      · rw [if_neg alone]
        have some_ : before ++ after ≠ [] := fun empty => alone (List.append_eq_nil_iff.mp empty)
        rw [whole] at shape
        obtain ⟨front,back⟩ := parts_spec (bytes_length 4 _) shape
        have one_ := slot_iff (m := m) (t := remove t (present rs id).length) (g := g) sound' some_ content (by rw [← content]; exact slot.1)
        rw [front,back]
        constructor
        · rintro ⟨empty,t',g',returned,removed⟩ ⟨_,two,_⟩
          obtain ⟨bytes,stored,triple⟩ := Option.map_eq_some_iff.mp returned
          obtain ⟨no,pair⟩ := Prod.mk.inj triple
          obtain ⟨counted,_⟩ := Prod.mk.inj pair
          subst no counted
          obtain ⟨holds',group⟩ := removed.holds rfl
          rw [left] at holds'
          have few := one_.mp ⟨_,returned,holds',group⟩
          exact Nat.not_lt.mpr two few
        · intro few
          obtain ⟨g',returned,holds',group⟩ := one_.mpr (Nat.not_le.mp fun two => few ⟨slot.2,two,slot.1⟩)
          refine ⟨false,_,g',returned,⟨?_,fun _ => ⟨by rw [left]; exact holds',group⟩,fun away => absurd away there⟩⟩
          rw [left]
          exact ⟨fun no => absurd no (by decide),fun empty => absurd empty some_⟩
    · rw [if_neg slot]
      have some_ : before ++ after ≠ [] := by
        intro empty
        refine slot ⟨by rw [empty]; decide,.inl (List.append_eq_nil_iff.mp empty).1⟩
      rw [whole] at shape class_ fits n_eq
      obtain ⟨g',returned,holds',group⟩ := close_holds (m := m) (t := remove t (present rs id).length) one sound' some_ content
        (bytes_length 4 _) shape fits class_ room
      rw [← n_eq] at returned
      refine iff_of_true ⟨false,_,g',returned,⟨?_,fun _ => ⟨by rw [left]; exact holds',group⟩,fun away => absurd away there⟩⟩ ?_
      · rw [left]
        exact ⟨fun no => absurd no (by decide),fun empty => absurd empty some_⟩
      · rintro ⟨ends,_,short⟩
        exact slot ⟨short,ends⟩

/-- How the counters go on when the record of this id goes; an empty group keeps its slot. -/
structure CountsRemoved (t : Counts) (g : Slot) (rs : List Record) (id : Nat) (empty : Bool) (t' : Counts) (g' : Slot) : Prop where
  removed : ∀ d, (id,d) ∈ rs → t' = remove t (d.length + 1)
  absent : (∀ d, (id,d) ∉ rs) → t' = t
  slot : empty = true → g' = g

theorem closeBlock_counts {mem : List UInt8} {base mp next ep size : Nat} {empty : Bool} {t' : Counts} {g' : Slot}
    (returned : closeBlock m t g mem base mp next ep size = some (empty,t',g')) : t' = t ∧ empty = false := by
  have parts : ∀ {g : Slot}, (false,t,g) = (empty,t',g') → t' = t ∧ empty = false := by
    intro g triple
    cases triple
    exact ⟨rfl,rfl⟩
  rw [closeBlock] at returned
  cases old : getBlockId size with
  | none =>
    rw [old] at returned
    cases returned
  | some oldBlockId =>
    rw [old] at returned
    cases new : getBlockId (sub32 size (next - mp)) with
    | none =>
      rw [new] at returned
      cases returned
    | some newBlockId =>
      rw [new] at returned
      simp only at returned
      by_cases same : oldBlockId = newBlockId
      · rw [if_pos same] at returned
        obtain ⟨_,_,returned⟩ := Option.bind_eq_some_iff.mp returned
        obtain ⟨_,_,triple⟩ := Option.map_eq_some_iff.mp returned
        exact parts triple
      · rw [if_neg same] at returned
        obtain ⟨_,_,returned⟩ := Option.bind_eq_some_iff.mp returned
        obtain ⟨_,_,returned⟩ := Option.bind_eq_some_iff.mp returned
        obtain ⟨_,_,triple⟩ := Option.map_eq_some_iff.mp returned
        exact parts triple

theorem removeId_counts (holds : Holds g rs) (type : g.type ≠ 0) {empty : Bool} {t' : Counts} {g' : Slot}
    (returned : removeIdFromGroup m t g id = some (empty,t',g')) : CountsRemoved t g rs id empty t' g' := by
  rcases holds.stored with ⟨zero,_⟩ | ⟨_,mem,cell,block⟩
  · exact absurd zero type
  have sound := holds.sound
  obtain ⟨before,d,after,split⟩ := exists_split sound.ascending id
  obtain ⟨header,found⟩ := block.find sound split
  have end_ : (encodeAll rs).length + 4 = 4 + (encodeAll rs).length := Nat.add_comm _ 4
  rw [removeIdFromGroup,cell] at returned
  simp only [header,end_,Nat.zero_add,Nat.sub_zero,found] at returned
  cases d with
  | none =>
    cases returned
    refine ⟨fun d member => ?_,fun _ => rfl,fun no => by cases no⟩
    cases split.mem.mp member
  | some d₀ =>
    have there : (id,d₀) ∈ rs := split.mem.mpr rfl
    have length : (encode (id,d₀)).length = d₀.length + 1 := encode_length (r := (id,d₀)) (sound.payloads _ there)
    have only : ∀ d, (id,d) ∈ rs → d = d₀ := fun d member => (Option.some.inj (split.mem.mp member)).symm
    have done : ∀ {t' : Counts} {g' : Slot} {empty : Bool}, t' = remove t (encode (id,d₀)).length → (empty = true → g' = g) →
        CountsRemoved t g rs id empty t' g' := by
      intro t' g' empty counts slot
      refine ⟨fun d member => ?_,fun absent => absurd there (absent d₀),slot⟩
      rw [counts,length,only d member]
    simp only [Option.map_some,Nat.add_sub_cancel_left] at returned
    by_cases slot : (encodeAll rs).length - (encode (id,d₀)).length < 9 ∧
        (4 = 4 + (encodeAll before).length ∨ 4 + (encodeAll rs).length = 4 + (encodeAll before).length + (encode (id,d₀)).length)
    · rw [if_pos slot] at returned
      by_cases alone : 4 = 4 + (encodeAll before).length ∧
          4 + (encodeAll rs).length = 4 + (encodeAll before).length + (encode (id,d₀)).length
      · rw [if_pos alone] at returned
        have triple := Option.some.inj returned
        exact done (congrArg (fun r => r.2.1) triple).symm fun _ => (congrArg (fun r => r.2.2) triple).symm
      · rw [if_neg alone] at returned
        obtain ⟨_,_,triple⟩ := Option.map_eq_some_iff.mp returned
        have full : false = empty := congrArg Prod.fst triple
        exact done (congrArg (fun r => r.2.1) triple).symm fun empty => by rw [← full] at empty; cases empty
    · rw [if_neg slot] at returned
      obtain ⟨counts,full⟩ := closeBlock_counts returned
      exact done counts fun empty => by rw [full] at empty; cases empty

end

/-- The block of three records without bytes of their own. -/
def three : Slot := { type := 1, group := 0, cell := .block (bytes 4 6 ++ encodeAll [(1,[0]),(2,[0]),(3,[0])]) 0 }

theorem three_holds : Holds three [(1,[0]),(2,[0]),(3,[0])] := by
  have empty : Payload [0] := ⟨0,[],rfl,by decide,rfl⟩
  refine ⟨⟨by decide,?_,by decide⟩,by decide,.inr ⟨rfl,_,rfl,by decide +kernel,⟨1,by decide +kernel,by decide +kernel⟩,[],rfl⟩⟩
  intro r member
  simp only [List.mem_cons,List.not_mem_nil,or_false] at member
  rcases member with rfl | rfl | rfl <;> exact empty

/-- The record in the middle. -/
theorem removeId_iff_middle : RemovedExactly (removeIdFromGroup zeros ⟨3,6,6⟩ three 2) ⟨3,6,6⟩ three [(1,[0]),(2,[0]),(3,[0])] 2 ↔
    ¬ LeftSeveral [(1,[0]),(2,[0]),(3,[0])] 2 :=
  removeId_iff three_holds (by decide)

/-- Without the first record the other two are in the slot, where only one of them counts. -/
theorem remove_first : Holds three [(1,[0]),(2,[0]),(3,[0])] ∧
    removeIdFromGroup zeros ⟨3,6,6⟩ three 1 =
      some (false,⟨2,4,4⟩,{ three with type := 0, cell := .inline (encodeAll [(2,[0]),(3,[0])] ++ [0,0,0,0]) }) ∧
    ¬ RemovedExactly (removeIdFromGroup zeros ⟨3,6,6⟩ three 1) ⟨3,6,6⟩ three [(1,[0]),(2,[0]),(3,[0])] 1 := by
  have result : removeIdFromGroup zeros ⟨3,6,6⟩ three 1 =
      some (false,⟨2,4,4⟩,{ three with type := 0, cell := .inline (encodeAll [(2,[0]),(3,[0])] ++ [0,0,0,0]) }) := by decide +kernel
  refine ⟨three_holds,result,?_⟩
  rw [result]
  rintro ⟨empty,t',g',returned,removed⟩
  cases returned
  rcases (removed.holds rfl).1.stored with ⟨_,r,slack,one,_⟩ | ⟨zero,_⟩
  · have lengths : 2 = 1 := congrArg List.length one
    exact absurd lengths (by decide)
  · cases zero

/-! ## Removing a group -/

/-- What `ac_s_alloc` returns for a size class, as an array of groups. -/
structure Blocks where
  alloc : Nat → List Slot
  alloc_length : ∀ blockId, (alloc blockId).length * slotSize = blockSize blockId

/-- `get_remove_block`: an array of the next smaller size class, if one less than
    `oldSize` groups fit it. -/
def getRemoveBlock (h : Blocks) (oldSize : Nat) : Option (Option (List Slot)) :=
  match getBlockId (oldSize * slotSize) with
  | none => none
  | some blockId =>
    if oldSize * slotSize - slotSize > blockSize (blockId - 1) then some none else some (some (h.alloc (blockId - 1)))

/-- `remove_group`: the array, if there is one, and how many groups it holds. -/
def removeGroup (h : Blocks) (groups : List Slot) (match_ numGroups : Nat) : Option (Option (List Slot) × Nat) :=
  if numGroups = 1 then some (none,0)
  else
    match getRemoveBlock h numGroups with
    | none => none
    | some newBlock =>
      -- `ep` comes from the number that is one less already
      let ep := numGroups - 1
      match newBlock with
      | some newBlock =>
        (store newBlock 0 (groups.take match_)).bind fun newBlock =>
          (store newBlock match_ ((groups.drop (match_ + 1)).take (ep - (match_ + 1)))).map fun newBlock => (some newBlock,ep)
      | none =>
        if match_ + 1 < ep then (move groups match_ (match_ + 1) (ep - (match_ + 1))).map fun groups => (some groups,ep)
        else some (some groups,ep)

/-- The array begins with the groups without the one at `i`. -/
def OthersKept (result : Option (Option (List Slot) × Nat)) (groups : List Slot) (i : Nat) : Prop :=
  ∃ array, result = some (array,groups.length - 1) ∧ (array.getD []).take (groups.length - 1) = groups.eraseIdx i

/-- The last group is removed, or the new array holds it already, whatever its memory
    was before. -/
def LastKept (h : Blocks) (groups : List Slot) (i : Nat) : Prop :=
  i + 1 = groups.length ∨
    ∃ newBlock, getRemoveBlock h groups.length = some (some newBlock) ∧ newBlock[groups.length - 2]? = groups.getLast?

section
variable {h : Blocks} {groups spare : List Slot} {i : Nat}

/-- A smaller array has room for one group less. -/
theorem getRemoveBlock_fits (fits : groups.length * slotSize ≤ maxSize) :
    ∃ newBlock, getRemoveBlock h groups.length = some newBlock ∧ ∀ array, newBlock = some array → groups.length - 1 ≤ array.length := by
  obtain ⟨blockId,class_⟩ := getBlockId_some fits
  rw [getRemoveBlock,class_]
  simp only
  by_cases beyond : groups.length * slotSize - slotSize > blockSize (blockId - 1)
  · rw [if_pos beyond]
    exact ⟨none,rfl,fun array equal => by cases equal⟩
  · rw [if_neg beyond]
    refine ⟨_,rfl,fun array equal => ?_⟩
    cases equal
    have length := h.alloc_length (blockId - 1)
    rw [slotSize] at beyond length
    omega

/-- The groups around the one at `i`, when it is not the last. -/
theorem around (before_last : i + 1 < groups.length) : ∃ front gone run last,
    groups = front ++ gone :: run ++ [last] ∧ front.length = i ∧ groups.length = i + run.length + 2 := by
  obtain ⟨front,rest,shape,length⟩ := cut groups (by omega : i ≤ groups.length)
  cases rest with
  | nil =>
    rw [shape,List.append_nil] at before_last
    omega
  | cons gone rest =>
    rcases List.eq_nil_or_concat rest with rfl | ⟨run,last,rfl⟩
    · rw [shape,List.length_append,List.length_singleton] at before_last
      omega
    · refine ⟨front,gone,run,last,by rw [shape]; simp,length,?_⟩
      rw [shape,List.length_append,List.length_cons,List.concat_eq_append,List.length_append,List.length_singleton]
      omega

/-- Without the last group nothing is missing. -/
theorem remove_last (several : groups.length ≠ 1) (last : i + 1 = groups.length) (fits : groups.length * slotSize ≤ maxSize) :
    OthersKept (removeGroup h (groups ++ spare) i groups.length) groups i := by
  obtain ⟨newBlock,allocated,room⟩ := getRemoveBlock_fits (h := h) fits
  have before : groups.length - 1 = i := by omega
  have others : groups.eraseIdx i = groups.take i := by
    rw [List.eraseIdx_eq_take_drop_succ,List.drop_eq_nil_of_le (Nat.le_of_eq last.symm),List.append_nil]
  have front : (groups ++ spare).take i = groups.take i := List.take_append_of_le_length (by omega)
  have length : (groups.take i).length = i := by
    rw [List.length_take]
    omega
  have none_left : groups.length - 1 - (i + 1) = 0 := by omega
  rw [OthersKept,others,removeGroup,if_neg several,allocated]
  cases newBlock with
  | none =>
    simp only [if_neg (by omega : ¬ i + 1 < groups.length - 1)]
    refine ⟨_,rfl,?_⟩
    rw [Option.getD_some,before,front]
  | some newBlock =>
    have wide := room newBlock rfl
    obtain ⟨rest,stored,_⟩ := store_first (by omega : (groups.take i).length ≤ newBlock.length)
    obtain ⟨rest',stored',_⟩ := store_next (groups.take i) (show ([] : List Slot).length ≤ rest.length from Nat.zero_le _)
    rw [List.append_nil,length] at stored'
    simp only [front,none_left,List.take_zero,stored,Option.bind_some,stored',Option.map_some]
    refine ⟨_,rfl,?_⟩
    rw [Option.getD_some,before]
    exact List.take_left' length

/-- In place, the entry before the last stays where it is. -/
theorem stays_in_place {groups array : List Slot} {i ep : Nat} (there : i + 1 ≤ ep) (inside : ep ≤ groups.length)
    (moved : (if i + 1 < ep then (move groups i (i + 1) (ep - (i + 1))).map fun groups => (some groups,ep) else some (some groups,ep)) =
      some (some array,ep)) : array[ep - 1]? = groups[ep - 1]? := by
  by_cases more : i + 1 < ep
  · rw [if_pos more] at moved
    obtain ⟨array',moved',_,_,at'⟩ := move_spec (m := groups) (n := ep - (i + 1)) (by omega : i + 1 + (ep - (i + 1)) ≤ groups.length)
      (by omega : i + (ep - (i + 1)) ≤ groups.length)
    rw [moved'] at moved
    cases moved
    rw [at',if_neg (by omega)]
  · rw [if_neg more] at moved
    cases moved
    rfl

/-- The others are kept exactly when the last one is. -/
theorem removeGroup_iff (ascending : groups.Pairwise fun a b => a.group < b.group) (there : i < groups.length)
    (fits : groups.length * slotSize ≤ maxSize) :
    OthersKept (removeGroup h (groups ++ spare) i groups.length) groups i ↔ LastKept h groups i := by
  by_cases one : groups.length = 1
  · refine iff_of_true ?_ (.inl (by omega))
    obtain ⟨g,shape⟩ := List.length_eq_one_iff.mp one
    have first : i = 0 := by omega
    rw [OthersKept,removeGroup,if_pos one,one,shape,first]
    exact ⟨none,rfl,rfl⟩
  by_cases last : i + 1 = groups.length
  · exact iff_of_true (remove_last one last fits) (.inl last)
  obtain ⟨newBlock,allocated,room⟩ := getRemoveBlock_fits (h := h) fits
  obtain ⟨front,gone,run,final,shape,length,total⟩ := around (by omega : i + 1 < groups.length)
  have ep : groups.length - 1 = i + run.length + 1 := by omega
  have others : groups.eraseIdx i = front ++ run ++ [final] := by
    rw [shape,← length,List.append_assoc front,List.cons_append,List.eraseIdx_append_of_length_le (Nat.le_refl _),Nat.sub_self,
      List.eraseIdx_cons_zero,List.append_assoc]
  have ends : groups.getLast? = some final := by rw [shape,List.getLast?_concat]
  rw [OthersKept,LastKept,removeGroup,if_neg one,allocated,others,ep,ends]
  simp only [last,false_or,Option.some.injEq]
  cases newBlock with
  | none =>
    refine iff_of_false ?_ fun ⟨_,equal,_⟩ => by cases equal
    rintro ⟨array,returned,kept⟩
    cases array with
    | none =>
      have lengths := congrArg List.length kept
      simp at lengths
    | some array =>
      have stays := stays_in_place (by omega) (by rw [List.length_append]; omega) returned
      have final_at : array[i + run.length]? = some final := by
        have entry := congrArg (fun l => l[i + run.length]?) kept
        simp only [Option.getD_some] at entry
        rw [List.getElem?_take,if_pos (Nat.lt_succ_self _)] at entry
        rw [entry,← length,← List.length_append,List.getElem?_concat_length]
      have old_at : (groups ++ spare)[i + run.length]? = (front ++ gone :: run)[i + run.length]? := by
        rw [shape,List.append_assoc (front ++ gone :: run),List.getElem?_append_left]
        rw [List.length_append,List.length_cons,length]
        omega
      have same : i + run.length + 1 - 1 = i + run.length := Nat.add_sub_cancel _ 1
      rw [same,final_at,old_at] at stays
      rw [shape] at ascending
      have less := (List.pairwise_append.mp ascending).2.2 final (List.mem_of_getElem? stays.symm) final (List.mem_singleton_self _)
      exact Nat.lt_irrefl _ less
  | some newBlock =>
    have wide := room newBlock rfl
    obtain ⟨a,rest,parts,lengthA⟩ := cut newBlock (by omega : i ≤ newBlock.length)
    have widths := congrArg List.length parts
    rw [List.length_append] at widths
    obtain ⟨b,rest',parts',lengthB⟩ := cut rest (by omega : run.length ≤ rest.length)
    have widths' := congrArg List.length parts'
    rw [List.length_append] at widths'
    cases rest' with
    | nil =>
      rw [List.length_nil] at widths'
      omega
    | cons x c =>
      have first : (groups ++ spare).take i = front := by
        rw [shape,List.append_assoc,List.append_assoc,← length,List.take_left]
      have second : ((groups ++ spare).drop (i + 1)).take (i + run.length + 1 - (i + 1)) = run := by
        have skip : groups ++ spare = (front ++ [gone]) ++ (run ++ ([final] ++ spare)) := by
          rw [shape]
          simp
        have place : i + 1 = (front ++ [gone]).length := by rw [List.length_append,length,List.length_singleton]
        have many : i + run.length + 1 - (i + 1) = run.length := by omega
        rw [many,skip,place,List.drop_left,List.take_left]
      have stored : store newBlock 0 front = some (front ++ b ++ (x :: c)) := by
        rw [parts,parts',List.append_assoc front]
        exact store_append (a := []) (by rw [lengthA,length])
      have stored' : store (front ++ b ++ (x :: c)) i run = some (front ++ run ++ (x :: c)) := by
        rw [← length]
        exact store_append lengthB
      have entry : newBlock[groups.length - 2]? = some x := by
        have place : groups.length - 2 = (a ++ b).length := by
          rw [List.length_append,lengthA,lengthB]
          omega
        rw [place,parts,parts',← List.append_assoc,List.getElem?_append_right (Nat.le_refl _),Nat.sub_self]
        rfl
      have kept : (front ++ run ++ (x :: c)).take (i + run.length + 1) = front ++ run ++ [x] := by
        have place : i + run.length + 1 = (front ++ run ++ [x]).length := by
          rw [List.length_append,List.length_append,length,List.length_singleton]
        have whole : front ++ run ++ (x :: c) = (front ++ run ++ [x]) ++ c := by simp
        rw [whole,place,List.take_left]
      simp only [first,second,stored,Option.bind_some,stored',Option.map_some]
      constructor
      · rintro ⟨array,returned,equal⟩
        cases returned
        rw [Option.getD_some,kept] at equal
        refine ⟨newBlock,rfl,?_⟩
        rw [entry,(List.cons.inj (List.append_cancel_left equal)).1]
      · rintro ⟨newBlock',same,equal⟩
        cases same
        rw [entry] at equal
        refine ⟨_,rfl,?_⟩
        rw [Option.getD_some,kept,Option.some.inj equal]

end

/-- A group whose slot is zeros. -/
def noGroup : Slot := { type := 0, group := 0, cell := .inline (List.replicate 8 0) }

/-- Memory of zeros, as arrays of groups. -/
def zeroBlocks : Blocks where
  alloc := fun blockId => List.replicate (blockSize blockId / slotSize) noGroup
  alloc_length := by
    intro blockId
    have all : ∀ n ∈ sizeTbl, n / slotSize * slotSize = n := by decide
    rw [List.length_replicate,blockSize,List.getD_eq_getElem?_getD]
    cases found : sizeTbl[blockId]? with
    | none => rfl
    | some n => exact all n (List.mem_of_getElem? found)

/-- Two groups of one record. -/
def twoGroups : List Slot :=
  [{ noGroup with group := 1, cell := .inline [16,0,0,0,0,0,0,0] },{ noGroup with group := 2, cell := .inline [32,0,0,0,0,0,0,0] }]

theorem removeGroup_iff_second : OthersKept (removeGroup zeroBlocks (twoGroups ++ []) 1 2) twoGroups 1 ↔ LastKept zeroBlocks twoGroups 1 :=
  removeGroup_iff (h := zeroBlocks) (i := 1) (by decide : twoGroups.Pairwise fun a b => a.group < b.group) (by decide) (by decide)

/-- Without the first of the two groups the array holds none of them. -/
theorem remove_first_group : twoGroups.Pairwise (fun a b => a.group < b.group) ∧
    removeGroup zeroBlocks twoGroups 0 2 = some (some [noGroup],1) ∧
    ¬ OthersKept (removeGroup zeroBlocks twoGroups 0 2) twoGroups 0 := by
  have result : removeGroup zeroBlocks twoGroups 0 2 = some (some [noGroup],1) := by decide +kernel
  refine ⟨by decide,result,?_⟩
  rw [result]
  rintro ⟨array,returned,kept⟩
  cases returned
  exact absurd kept (by decide)

end AnotherC.GroupRemove
