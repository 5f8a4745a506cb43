import AnotherC.Search.TermGroups
import Mathlib.Data.List.Perm.Subperm

/-!
# Adding and removing the posting of a term: `_ac_s_add` and `_ac_s_remove`

Where the update or the removal within the group is right, the groups of the term change
at this id only (`acSAdd_spec`, `acSRemove_spec`). The counters change by the length of the
record, but for a record in a slot `_ac_s_remove` takes its length from the control bits.
-/
namespace AnotherC.TermUpdates
open AnotherC.Lib.Bytes AnotherC.Lib.Splice AnotherC.Lib.Rows AnotherC.Groups AnotherC.GroupUpdate AnotherC.GroupRemove
open AnotherC.TermGroups
set_option linter.unusedVariables false

/-- What adding a posting needs: that the update of its group is right, or room for a new one. -/
structure AddFine (t : Term) (id : Nat) (data : List UInt8) : Prop where
  update : ∀ g ∈ t.groups.take t.numGroups, ∀ rs, HoldsRow g (groupId id,rs) → UpdateFine g rs (subId id) data
  insert : (∀ g ∈ t.groups.take t.numGroups, g.group ≠ groupId id) → data.length < 7 ∨ data.length + 5 ≤ maxSize

/-- How the counters go on when a posting of this id is written. -/
structure CountsAdd (t : Counts) (rows : List Row) (id : Nat) (data : List UInt8) (t' : Counts) : Prop where
  replaced : ∀ d, Live rows id d → t' = t.replace (d.length + 1) (data.length + 1) ∨ d.length = data.length ∧ t' = t
  inserted : (∀ d, ¬ Live rows id d) → t' = t.insert (data.length + 1)

/-- What `_ac_s_remove` takes off the counters for a record in a slot. -/
def slotLength (data : List UInt8) : Nat := ((data.headD 0).toNat &&& 7) + 1

/-- The group with this number is a record in its slot. -/
def InSlot (t : Term) (gid : Nat) : Prop := ∃ g ∈ t.groups.take t.numGroups, g.group = gid ∧ g.type = 0

/-- What removing a posting needs: that the removal from its group is right, and that of
    the group when nothing else is in it. -/
structure EraseFine (h : Blocks) (t : Term) (id : Nat) : Prop where
  record : ∀ g ∈ t.groups.take t.numGroups, ∀ rs, HoldsRow g (groupId id,rs) → g.type ≠ 0 → ¬ LeftSeveral rs (subId id)
  group : ∀ (i : Nat) g, (t.groups.take t.numGroups)[i]? = some g → ∀ d, HoldsRow g (groupId id,[(subId id,d)]) →
    LastKept h (t.groups.take t.numGroups) i

/-- How the counters go on when the posting of this id goes. -/
structure CountsErase (t : Term) (total : Nat) (rows : List Row) (id : Nat) (t' : Counts) : Prop where
  slot : ∀ d, Live rows id d → InSlot t (groupId id) → t' = remove (t.counts total) (slotLength d)
  block : ∀ d, Live rows id d → ¬ InSlot t (groupId id) → t' = remove (t.counts total) (d.length + 1)
  absent : (∀ d, ¬ Live rows id d) → t' = t.counts total

section
variable {m : Machine} {h : Blocks} {t : Term} {rows before after : List Row} {here : Option Row} {gid id total : Nat}
  {data : List UInt8} {groups gs spare front back : List Slot} {mine : Option Slot}

/-! ## What changes -/

/-- What a step changes: only this id, to a payload or to none. -/
def Changes (rows rows' : List Row) (id : Nat) (new : Option (List UInt8)) : Prop :=
  ∀ id' data', Live rows' id' data' ↔
    if groupId id' = groupId id ∧ subId id' = subId id then new = some data' else Live rows id' data'

/-- The groups with another one, or another content, at a number. -/
theorem apart_replace (apart : Apart rows gid before here after) (ascending : rows.Pairwise fun a b => a.1 < b.1)
    (new : Option Row) (number : ∀ row ∈ new, row.1 = gid) :
    Apart (before ++ new.toList ++ after) gid before new after ∧
      (before ++ new.toList ++ after).Pairwise fun a b => a.1 < b.1 := by
  refine ⟨⟨rfl,apart.below,number,apart.above⟩,?_⟩
  have around : (before ++ after).Pairwise fun a b => a.1 < b.1 := by
    refine ascending.sublist ?_
    rw [apart.shape]
    exact (List.sublist_append_left before _).append (List.Sublist.refl after)
  obtain ⟨left,right,across⟩ := List.pairwise_append.mp around
  cases new with
  | none =>
    rw [Option.toList,List.append_nil]
    exact around
  | some row =>
    have here_ := number row rfl
    rw [Option.toList,List.append_assoc,List.singleton_append]
    refine List.pairwise_append.mpr ⟨left,List.pairwise_cons.mpr ⟨fun b later => ?_,right⟩,fun a first b member => ?_⟩
    · rw [here_]
      exact apart.above b later
    · rcases List.mem_cons.mp member with rfl | later
      · rw [here_]
        exact apart.below a first
      · exact across a first b later

theorem small_replace (apart : Apart rows gid before here after) (small : ∀ row ∈ rows, row.1 < 2 ^ 15) (gid_ : gid < 2 ^ 15)
    {new : Option Row} (number : ∀ row ∈ new, row.1 = gid) : ∀ row ∈ before ++ new.toList ++ after, row.1 < 2 ^ 15 := by
  intro row member
  rw [List.mem_append,List.mem_append] at member
  rcases member with (first | mine) | last
  · exact small row (by rw [apart.shape]; simp [first])
  · rw [number row (by simpa using mine)]
    exact gid_
  · exact small row (by rw [apart.shape]; simp [last])

/-- An id of another group stays as it was. -/
theorem live_other (apart : Apart rows gid before here after) {new : Option Row} (apart' : Apart (before ++ new.toList ++ after) gid before new after)
    {id' : Nat} (other : groupId id' ≠ gid) : Live (before ++ new.toList ++ after) id' data ↔ Live rows id' data := by
  have away : ∀ {row : Option Row} {rs}, (∀ row' ∈ row, row'.1 = gid) → (groupId id',rs) ∉ row.toList := by
    intro row rs number member
    exact other (number _ (by simpa using member))
  rw [Live,Live,apart.shape]
  simp only [List.mem_append,away apart.same,away apart'.same,or_false]

theorem mem_putRecord {rs : List Record} {sub sub' : Nat} {data' : List UInt8} :
    (sub',data') ∈ putRecord rs sub data ↔ if sub' = sub then data' = data else (sub',data') ∈ rs := by
  rw [putRecord,List.mem_append,List.mem_cons,List.mem_filter,List.mem_filter]
  by_cases same : sub' = sub
  · subst same
    simp
  · rw [if_neg same]
    simp only [Prod.mk.injEq,same,false_and,false_or,decide_eq_true_eq]
    constructor
    · rintro (⟨held,_⟩ | ⟨held,_⟩) <;> exact held
    · intro held
      rcases Nat.lt_or_gt_of_ne same with less | more
      · exact .inl ⟨held,less⟩
      · exact .inr ⟨held,more⟩


theorem changes_of (apart : Apart rows (groupId id) before here after) {new : Option Row}
    (apart' : Apart (before ++ new.toList ++ after) (groupId id) before new after) {payload : Option (List UInt8)}
    (mine : ∀ sub data, (∃ row ∈ new, (sub,data) ∈ row.2) ↔
      if sub = subId id then payload = some data else ∃ row ∈ here, (sub,data) ∈ row.2) :
    Changes rows (before ++ new.toList ++ after) id payload := by
  intro id' data'
  by_cases group : groupId id' = groupId id
  · have after_ : Live (before ++ new.toList ++ after) id' data' ↔ ∃ row ∈ new, (subId id',data') ∈ row.2 := by
      rw [← group] at apart'
      exact apart'.live
    have before_ : Live rows id' data' ↔ ∃ row ∈ here, (subId id',data') ∈ row.2 := by
      rw [← group] at apart
      exact apart.live
    rw [after_,before_,mine]
    simp only [group,true_and]
  · rw [if_neg fun both => group both.1]
    exact live_other apart apart' group

/-- The term with another group, or none, at the number. -/
theorem holds_replace {t' : Term} {spare' : List Slot} (located : Located t rows gid front mine back spare before here after)
    (holds : HoldsTerm t rows) (gid_ : gid < 2 ^ 15) {mine' : Option Slot} {new : Option Row} (number : ∀ row ∈ new, row.1 = gid)
    (middle : List.Forall₂ HoldsRow mine'.toList new.toList) (array : t'.groups = front ++ mine'.toList ++ back ++ spare')
    (many : t'.numGroups = (front ++ mine'.toList ++ back).length)
    (room : t'.numGroups ≠ 0 → ∃ blockId, getBlockId (t'.numGroups * slotSize) = some blockId ∧
      t'.groups.length * slotSize = blockSize blockId) :
    HoldsTerm t' (before ++ new.toList ++ after) ∧ Apart (before ++ new.toList ++ after) gid before new after := by
  obtain ⟨apart',ascending⟩ := apart_replace located.apart holds.ascending new number
  have stored := List.rel_append (List.rel_append located.first middle) located.last
  refine ⟨⟨⟨_,spare',array,many,stored⟩,ascending,small_replace located.apart holds.small gid_ number,fun some_ => ?_⟩,apart'⟩
  have lengths : t'.numGroups = (before ++ new.toList ++ after).length := many.trans stored.length_eq
  rw [← lengths]
  exact room fun zero => some_ (List.length_eq_zero_iff.mp (lengths.symm.trans zero))

/-! ## Adding -/


/-- An array with a slot to spare, or one of the next size class. -/
theorem getAddBlock_spec {n : Nat} (few : n < 2 ^ 15) :
    ∃ blockId newBlock, getBlockId (n * slotSize) = some blockId ∧ getAddBlock h n = some newBlock ∧
      match newBlock with
      | none => n * slotSize + slotSize ≤ blockSize blockId ∧ getBlockId ((n + 1) * slotSize) = some blockId
      | some array => n + 1 ≤ array.length ∧
        ∃ next, getBlockId ((n + 1) * slotSize) = some next ∧ array.length * slotSize = blockSize next := by
  have most : 2 ^ 15 * slotSize ≤ maxSize := by decide
  have less : n * slotSize + slotSize ≤ 2 ^ 15 * slotSize := by
    rw [slotSize]
    omega
  have sum : (n + 1) * slotSize = n * slotSize + slotSize := Nat.succ_mul n slotSize
  obtain ⟨blockId,class_⟩ := getBlockId_some (by omega : n * slotSize ≤ maxSize)
  obtain ⟨inside,fits,least⟩ := getBlockId_iff.mp class_
  rw [getAddBlock,class_]
  simp only
  by_cases room : n * slotSize + slotSize ≤ blockSize blockId
  · rw [if_pos room]
    refine ⟨blockId,none,rfl,rfl,room,getBlockId_iff.mpr ⟨inside,by omega,?_⟩⟩
    rcases least with zero | above
    · exact .inl zero
    · exact .inr (by omega)
  · rw [if_neg room]
    have below : blockId < 42 := by
      have top : blockSize 42 = maxSize := by decide
      rcases Nat.lt_or_eq_of_le inside with small | equal
      · exact small
      · rw [equal] at room
        omega
    have step := blockSize_step below
    have length := h.alloc_length (blockId + 1)
    refine ⟨blockId,_,rfl,rfl,?_,blockId + 1,getBlockId_iff.mpr ⟨below,by omega,.inr ?_⟩,length⟩
    · rw [slotSize] at fits step length
      omega
    · rw [Nat.add_sub_cancel]
      omega

theorem insertGroup_spec {front back : List Slot} {match_ : Option Nat} (nb : Slot) (shape : gs = front ++ back)
    (place : match_.getD gs.length = front.length) (few : gs.length < 2 ^ 15)
    (room : gs ≠ [] → ∃ blockId, getBlockId (gs.length * slotSize) = some blockId ∧ (gs ++ spare).length * slotSize = blockSize blockId) :
    ∃ spare', insertGroup h (gs ++ spare) gs.length match_ nb =
        some (front ++ nb :: back ++ spare') ∧
      ∃ blockId, getBlockId ((gs.length + 1) * slotSize) = some blockId ∧
        (front ++ nb :: back ++ spare').length * slotSize = blockSize blockId := by
  obtain ⟨blockId,newBlock,class_,allocated,spec⟩ := getAddBlock_spec (h := h) few
  have total : gs.length = front.length + back.length := by rw [shape,List.length_append]
  have rest : gs.length - front.length = back.length := by omega
  have first : (gs ++ spare).take front.length = front := by rw [shape,List.append_assoc,List.take_left]
  have second : ((gs ++ spare).drop front.length).take back.length = back := by
    rw [shape,List.append_assoc,List.drop_left,List.take_left]
  rw [insertGroup,allocated]
  simp only [place,rest]
  cases newBlock with
  | some array =>
    obtain ⟨wide,next,class',length⟩ := spec
    obtain ⟨r1,s1,l1⟩ := store_first (by omega : front.length ≤ array.length)
    obtain ⟨r2,s2,l2⟩ := store_next front (by rw [List.length_singleton]; omega : [nb].length ≤ r1.length)
    rw [List.length_singleton] at l2
    obtain ⟨r3,s3,l3⟩ := store_next (front ++ [nb]) (by omega : back.length ≤ r2.length)
    rw [List.length_append,List.length_singleton] at s3
    have all : front ++ [nb] ++ back ++ r3 = front ++ nb :: back ++ r3 := by simp
    refine ⟨r3,?_,next,class',?_⟩
    · simp only [first,second,s1,Option.bind_some,s2,s3,all]
    · rw [← length]
      congr 1
      rw [List.length_append,List.length_append,List.length_cons]
      omega
  | none =>
    obtain ⟨wide,class'⟩ := spec
    have some_ : gs ≠ [] := by
      intro empty
      rw [empty] at wide class_
      have zero : blockId = 0 := Option.some.inj (class_.symm.trans (by decide +kernel))
      rw [zero] at wide
      exact absurd wide (by decide)
    obtain ⟨blockId',class'',length⟩ := room some_
    rw [class_] at class''
    cases class''
    obtain ⟨x,spare',shape'⟩ : ∃ x spare', spare = x :: spare' := by
      cases spare with
      | nil =>
        rw [List.append_nil] at length
        rw [slotSize] at wide length
        omega
      | cons x spare' => exact ⟨x,spare',rfl⟩
    have result : (if front.length < gs.length then move (gs ++ spare) (front.length + 1) front.length back.length else some (gs ++ spare)).bind
        (fun groups => store groups front.length [nb]) = some (front ++ nb :: back ++ spare') := by
      by_cases more : front.length < gs.length
      · obtain ⟨y,moved⟩ := move_opens front back spare' x
        have put : store (front ++ [y] ++ (back ++ spare')) front.length [nb] = some (front ++ [nb] ++ (back ++ spare')) :=
          store_append rfl
        have moved' : move (gs ++ spare) (front.length + 1) front.length back.length = some (front ++ [y] ++ (back ++ spare')) := by
          rw [shape,shape',moved]
          simp
        rw [if_pos more,moved',Option.bind_some,put]
        simp
      · have none_ : back = [] := List.length_eq_zero_iff.mp (by omega)
        have put : store (front ++ [x] ++ spare') front.length [nb] = some (front ++ [nb] ++ spare') := store_append rfl
        have whole : gs ++ spare = front ++ [x] ++ spare' := by
          rw [shape,shape',none_]
          simp
        rw [if_neg more,Option.bind_some,whole,put,none_]
    refine ⟨spare',result,blockId,class',?_⟩
    rw [← length,shape,shape']
    congr 1
    simp only [List.length_append,List.length_cons]
    omega

theorem newGroup_spec (payload : Payload data) (fits : data.length < 7 ∨ data.length + 5 ≤ maxSize) :
    ∃ nb, newGroupWithData m id data = some nb ∧ HoldsRow nb (groupId id,[(subId id,data)]) := by
  obtain ⟨rec,rec_eq⟩ : ∃ rec, rec = copyData (subId id) data := ⟨_,rfl⟩
  have encoded : encode (subId id,data) = rec := rec_eq.symm
  have length : rec.length = data.length + 1 := by
    rw [← encoded]
    exact encode_length (r := (subId id,data)) payload
  have small : subId id < 4096 := Nat.lt_succ_of_le Nat.and_le_right
  have sound : Sound [(subId id,data)] := by
    refine ⟨fun r member => ?_,fun r member => ?_,List.pairwise_singleton _ _⟩
    · rw [List.mem_singleton.mp member]
      exact small
    · rw [List.mem_singleton.mp member]
      exact payload
  rw [newGroupWithData]
  simp only [← rec_eq]
  by_cases short : data.length < 7
  · obtain ⟨rest,stored,lengths⟩ := store_first (by rw [List.length_replicate]; omega : rec.length ≤ (List.replicate 8 (0 : UInt8)).length)
    rw [List.length_replicate] at lengths
    rw [if_pos short,stored]
    refine ⟨_,rfl,rfl,sound,by simp,.inl ⟨rfl,_,rest,rfl,by rw [encoded],?_⟩⟩
    rw [encoded,List.length_append,lengths]
  · have room : data.length + 5 ≤ maxSize := fits.resolve_left short
    have largest : maxSize < 2 ^ 32 := by decide
    have size : (data.length + 1 + 4) % 2 ^ 32 = data.length + 5 := Nat.mod_eq_of_lt (by omega)
    obtain ⟨blockId,class_⟩ := getBlockId_some room
    have inside := (getBlockId_fits class_).2
    have whole := m.alloc_length blockId
    obtain ⟨f0,s0,l0⟩ := store_first (by rw [bytes_length,whole]; omega : (bytes 4 rec.length).length ≤ (m.alloc blockId).length)
    rw [bytes_length,whole] at l0
    obtain ⟨f1,s1,l1⟩ := store_next (bytes 4 rec.length) (by omega : rec.length ≤ f0.length)
    rw [bytes_length] at s1
    have content : encodeAll [(subId id,data)] = rec := by
      rw [encodeAll_cons,encoded]
      exact List.append_nil rec
    rw [if_neg short,size,class_]
    simp only [← length,s0,Option.bind_some,s1,Option.map_some]
    refine ⟨_,rfl,rfl,sound,by simp,.inr ⟨rfl,_,rfl,?_⟩⟩
    refine ⟨by rw [content]; omega,⟨blockId,?_,?_⟩,f1,by rw [content]⟩
    · rw [content,length,Nat.add_comm]
      exact class_
    · rw [List.length_append,List.length_append,bytes_length]
      omega

theorem groupId_lt (id : Nat) : groupId id < 2 ^ 15 := by
  have most : id &&& 0x7fff000 ≤ 0x7fff000 := Nat.and_le_right
  rw [groupId,Nat.shiftRight_eq_div_pow]
  omega

theorem subId_lt (id : Nat) : subId id < 4096 := Nat.lt_succ_of_le Nat.and_le_right

/-- Ascending numbers below a bound are few. -/
theorem rows_few (ascending : rows.Pairwise fun a b => a.1 < b.1) {bound : Nat} (small : ∀ row ∈ rows, row.1 < bound) :
    rows.length ≤ bound := by
  have nodup : (rows.map Prod.fst).Nodup := by
    rw [List.Nodup,List.pairwise_map]
    exact ascending.imp fun less => Nat.ne_of_lt less
  have within : rows.map Prod.fst ⊆ List.range bound := by
    intro n member
    obtain ⟨row,held,rfl⟩ := List.mem_map.mp member
    exact List.mem_range.mpr (small row held)
  have few := (List.Nodup.subperm nodup within).length_le
  rwa [List.length_map,List.length_range] at few

theorem update_spec (t : Term) (c : Counts) (groups : List Slot) (n : Nat) :
    (t.update c groups n).1.groups = groups ∧ (t.update c groups n).1.numGroups = n ∧
      (t.update c groups n).1.counts (t.update c groups n).2 = c := by
  cases c
  exact ⟨rfl,rfl,rfl⟩

/-- Another `max_bytes` leaves the rest alone. -/
theorem grow_eq (t : Term) (len : Nat) : ∃ n, t.grow len = { t with maxBytes := n } := by
  unfold Term.grow
  by_cases more : t.maxBytes < sub32 len 1
  · exact ⟨_,if_pos more⟩
  · exact ⟨t.maxBytes,if_neg more⟩

theorem counts_max (t : Term) (n total : Nat) : ({ t with maxBytes := n } : Term).counts total = t.counts total := by
  cases t
  rfl

theorem holds_count (holds : HoldsTerm t rows) : rows.length = t.numGroups := by
  obtain ⟨gs,spare,_,number,stored⟩ := holds.stored
  exact stored.length_eq.symm.trans number.symm

/-- No group of the term has a number that is not among the rows. -/
theorem absent_group (located : Located t rows gid front none back spare before none after) :
    ∀ g ∈ t.groups.take t.numGroups, g.group ≠ gid := by
  have away : ∀ {gs rows}, List.Forall₂ HoldsRow gs rows → (∀ row ∈ rows, row.1 ≠ gid) → ∀ g ∈ gs, g.group ≠ gid := by
    intro gs rows stored differ g member
    obtain ⟨i,at'⟩ := List.mem_iff_getElem?.mp member
    rcases forall₂_getElem? stored i with ⟨none_,_⟩ | ⟨g',row,held,held',equal,_⟩
    · rw [none_] at at'
      cases at'
    · rw [held] at at'
      cases at'
      rw [equal]
      exact differ row (List.mem_of_getElem? held')
  intro g member
  rw [located.used,Option.toList,List.append_nil,List.mem_append] at member
  rcases member with before_ | after_
  · exact away located.first (fun row inside => Nat.ne_of_lt (located.apart.below row inside)) g before_
  · exact away located.last (fun row inside => Nat.ne_of_gt (located.apart.above row inside)) g after_

/-- A term without the group gets it. -/
theorem add_group (holds : HoldsTerm t rows) (located : Located t rows (groupId id) front none back spare before none after)
    {match_ : Option Nat} (place : match_.getD t.numGroups = front.length) (payload : Payload data)
    (fits : data.length < 7 ∨ data.length + 5 ≤ maxSize) :
    ∃ nb groups, newGroupWithData m id data = some nb ∧ insertGroup h t.groups t.numGroups match_ nb = some groups ∧
      ∀ t' : Term, t'.groups = groups → t'.numGroups = t.numGroups + 1 →
        ∃ rows', HoldsTerm t' rows' ∧ Changes rows rows' id (some data) := by
  obtain ⟨nb,made,row_⟩ := @newGroup_spec m id _ payload fits
  obtain ⟨new,new_eq⟩ : ∃ new, new = some (groupId id,[(subId id,data)]) := ⟨_,rfl⟩
  have number : ∀ row ∈ new, row.1 = groupId id := by
    rw [new_eq]
    intro row member
    cases member
    rfl
  have middle : List.Forall₂ HoldsRow (some nb).toList new.toList := by
    rw [new_eq]
    exact .cons row_ .nil
  have shape : front ++ (none : Option Slot).toList ++ back = front ++ back := by rw [Option.toList,List.append_nil]
  have many := located.number
  have array := located.array
  rw [shape] at many array
  have few : (front ++ back).length < 2 ^ 15 := by
    obtain ⟨apart',ascending⟩ := apart_replace located.apart holds.ascending new number
    have most := rows_few ascending (small_replace located.apart holds.small (groupId_lt id) number)
    have before_ := located.first.length_eq
    have after_ := located.last.length_eq
    rw [new_eq] at most
    simp only [List.length_append,Option.toList,List.length_cons,List.length_nil] at most ⊢
    omega
  obtain ⟨spare',inserted,blockId,class_,size⟩ := @insertGroup_spec h _ spare _ _ match_ nb rfl (by rw [← many]; exact place) few
    fun some_ => by
      have room := holds.room fun none_ => some_ (by
        have count := holds_count holds
        rw [none_,many] at count
        exact List.length_eq_zero_iff.mp count.symm)
      rw [holds_count holds,many,array] at room
      exact room
  rw [← array,← many] at inserted
  refine ⟨nb,_,made,inserted,fun t' groups_ number_ => ?_⟩
  have whole : front ++ nb :: back = front ++ (some nb).toList ++ back := by simp
  have count : t'.numGroups = (front ++ (some nb).toList ++ back).length := by
    rw [number_,many]
    simp only [List.length_append,Option.toList,List.length_cons,List.length_nil]
    omega
  obtain ⟨holds',apart'⟩ := holds_replace located holds (groupId_lt id) number middle (by rw [groups_,whole]) count fun _ => by
    rw [number_,many,groups_]
    exact ⟨blockId,class_,size⟩
  refine ⟨_,holds',changes_of located.apart apart' fun sub d => ?_⟩
  rw [new_eq]
  by_cases same : sub = subId id
  · rw [if_pos same,same]
    simp [eq_comm]
  · rw [if_neg same]
    simp [same]

/-- A term with the group gets another one in its place. -/
theorem set_group {g g' : Slot} {rs rs' : List Record} {payload : Option (List UInt8)} (holds : HoldsTerm t rows)
    (located : Located t rows (groupId id) front (some g) back spare before (some (groupId id,rs)) after)
    (held : HoldsRow g' (groupId id,rs')) (mine : ∀ sub d, (sub,d) ∈ rs' ↔ if sub = subId id then payload = some d else (sub,d) ∈ rs)
    {t' : Term} (groups_ : t'.groups = t.groups.set front.length g') (number_ : t'.numGroups = t.numGroups) :
    ∃ rows', HoldsTerm t' rows' ∧ Changes rows rows' id payload := by
  have array : t'.groups = front ++ (some g').toList ++ back ++ spare := by
    rw [groups_,located.array]
    simp
  have count : t'.numGroups = (front ++ (some g').toList ++ back).length := by
    rw [number_,located.number]
    simp
  obtain ⟨new,new_eq⟩ : ∃ new, new = some (groupId id,rs') := ⟨_,rfl⟩
  have number : ∀ row ∈ new, row.1 = groupId id := by
    rw [new_eq]
    intro row member
    cases member
    rfl
  have middle : List.Forall₂ HoldsRow (some g').toList new.toList := by
    rw [new_eq]
    exact .cons held .nil
  obtain ⟨holds',apart'⟩ := holds_replace located holds (groupId_lt id) number middle array count fun some_ => by
    have room := holds.room fun none_ => some_ (by
      rw [number_,← holds_count holds,none_]
      rfl)
    rw [holds_count holds] at room
    rw [groups_,List.length_set,number_]
    exact room
  refine ⟨_,holds',changes_of located.apart apart' fun sub d => ?_⟩
  rw [new_eq]
  simpa using mine sub d

theorem acSAdd_spec (holds : HoldsTerm t rows) (payload : Payload data) (len : data.length < 2 ^ 32) (fine : AddFine t id data) :
    ∃ t' total' rows', acSAdd m h t total id data = some (t',total') ∧ HoldsTerm t' rows' ∧ Changes rows rows' id (some data) ∧
      CountsAdd (t.counts total) rows id data (t'.counts total') := by
  obtain ⟨front,mine,back,spare,before,here,after,located⟩ := exists_located holds (groupId id)
  obtain ⟨match_,found,place,same⟩ := located.found
  have middle := located.middle
  obtain ⟨n,grown⟩ := grow_eq t data.length
  rw [acSAdd,grown,addToGroups]
  simp only [counts_max,found,same]
  cases mine with
  | none =>
    cases here with
    | some row => cases middle
    | none =>
      obtain ⟨nb,groups,made,inserted,after_⟩ := @add_group m h _ _ _ _ _ _ _ _ _ holds located _ place payload
        (fine.insert (absent_group located))
      have dead : ∀ d, ¬ Live rows id d := fun d live => by simpa using located.apart.live.mp live
      generalize counts_ : (t.counts total).insert (data.length + 1) = counts
      simp only [Option.map_none,made,inserted,Option.map_some]
      obtain ⟨groups_,number_,counts'⟩ := update_spec { t with maxBytes := n } counts groups (t.numGroups + 1)
      obtain ⟨rows',holds',changes⟩ := after_ _ groups_ number_
      generalize ({ t with maxBytes := n } : Term).update counts groups (t.numGroups + 1) = r at holds' counts' ⊢
      refine ⟨r.1,r.2,rows',rfl,holds',changes,fun d live => absurd live (dead d),fun _ => ?_⟩
      rw [counts',counts_]
  | some g =>
    cases here with
    | none => cases middle
    | some row =>
      have held := (List.forall₂_cons.mp middle).1
      obtain ⟨gid,rs⟩ := row
      have group : gid = groupId id := located.apart.same (gid,rs) rfl
      subst group
      have member : g ∈ t.groups.take t.numGroups := by
        rw [located.used]
        simp
      obtain ⟨counts,g',updated,holds',number⟩ := (@update_iff m (t.counts total) _ _ _ _ held.2 (subId_lt id) payload len).mpr
        (fine.update g member rs held)
      have live : ∀ d, Live rows id d ↔ (subId id,d) ∈ rs := fun d => by simpa using located.apart.live
      obtain ⟨replaced,inserted⟩ := update_counts held.2 updated
      have held' : HoldsRow g' (groupId id,putRecord rs (subId id) data) := ⟨number.trans held.1,holds'⟩
      have mine : ∀ sub d, (sub,d) ∈ putRecord rs (subId id) data ↔ if sub = subId id then some data = some d else (sub,d) ∈ rs := by
        intro sub d
        rw [mem_putRecord,Option.some.injEq,eq_comm (a := d)]
      simp only [Option.map_some,updated]
      obtain ⟨groups_,number_,counts'⟩ := update_spec { t with maxBytes := n } counts (t.groups.set front.length g') t.numGroups
      obtain ⟨rows',holds'',changes⟩ := set_group holds located held' mine groups_ number_
      generalize ({ t with maxBytes := n } : Term).update counts (t.groups.set front.length g') t.numGroups = r at holds'' counts' ⊢
      refine ⟨r.1,r.2,rows',rfl,holds'',changes,fun d alive => ?_,fun dead => ?_⟩
      · rw [counts']
        exact replaced d ((live d).mp alive)
      · rw [counts']
        exact inserted fun d member => dead d ((live d).mpr member)

/-! ## Removing -/

theorem getRemoveBlock_spec {n blockId : Nat} {newBlock : Option (List Slot)} (several : 2 ≤ n)
    (class_ : getBlockId (n * slotSize) = some blockId) (allocated : getRemoveBlock h n = some newBlock) :
    ∃ next, getBlockId ((n - 1) * slotSize) = some next ∧
      match newBlock with
      | none => next = blockId
      | some array => array.length * slotSize = blockSize next := by
  obtain ⟨inside,fits,least⟩ := getBlockId_iff.mp class_
  have less : (n - 1) * slotSize = n * slotSize - slotSize := by rw [Nat.sub_mul,Nat.one_mul]
  have wide : 2 * slotSize ≤ n * slotSize := Nat.mul_le_mul_right _ several
  have positive : blockId ≠ 0 := by
    intro zero
    rw [zero] at fits
    have none_ : blockSize 0 = 0 := by decide
    rw [none_,slotSize] at fits
    omega
  rw [getRemoveBlock,class_] at allocated
  simp only at allocated
  by_cases room : n * slotSize - slotSize > blockSize (blockId - 1)
  · rw [if_pos room] at allocated
    cases allocated
    refine ⟨blockId,getBlockId_iff.mpr ⟨inside,by omega,.inr ?_⟩,rfl⟩
    rw [less]
    exact room
  · rw [if_neg room] at allocated
    cases allocated
    have above := least.resolve_left positive
    refine ⟨blockId - 1,getBlockId_iff.mpr ⟨by omega,by omega,?_⟩,h.alloc_length _⟩
    by_cases one : blockId = 1
    · exact .inl (by omega)
    · have step := blockSize_step (by omega : blockId - 1 - 1 < 42)
      have same : blockId - 1 - 1 + 1 = blockId - 1 := by omega
      rw [same] at step
      rw [slotSize] at step above less wide ⊢
      exact .inr (by omega)

/-- The array without a group has the size class of one group less. -/
theorem removeGroup_room {array : Option (List Slot)} {i n k blockId : Nat} (several : 2 ≤ n)
    (class_ : getBlockId (n * slotSize) = some blockId) (room : groups.length * slotSize = blockSize blockId)
    (removed : removeGroup h groups i n = some (array,k)) :
    ∃ next, getBlockId ((n - 1) * slotSize) = some next ∧ (array.getD []).length * slotSize = blockSize next := by
  rw [removeGroup,if_neg (by omega)] at removed
  cases allocated : getRemoveBlock h n with
  | none =>
    rw [allocated] at removed
    cases removed
  | some newBlock =>
    rw [allocated] at removed
    obtain ⟨next,class',size⟩ := getRemoveBlock_spec several class_ allocated
    refine ⟨next,class',?_⟩
    cases newBlock with
    | some newBlock =>
      obtain ⟨b1,first,removed⟩ := Option.bind_eq_some_iff.mp removed
      obtain ⟨b2,second,pair⟩ := Option.map_eq_some_iff.mp removed
      cases pair
      rw [Option.getD_some,store_length second,store_length first]
      exact size
    | none =>
      have same : next = blockId := size
      subst same
      simp only at removed
      by_cases more : i + 1 < n - 1
      · rw [if_pos more] at removed
        obtain ⟨b1,moved,pair⟩ := Option.map_eq_some_iff.mp removed
        cases pair
        rw [Option.getD_some,move_length moved]
        exact room
      · rw [if_neg more] at removed
        cases removed
        exact room

theorem groups_ascending (stored : List.Forall₂ HoldsRow gs rows) (ascending : rows.Pairwise fun a b => a.1 < b.1) :
    gs.Pairwise fun a b => a.group < b.group := by
  induction stored with
  | nil => exact List.Pairwise.nil
  | @cons g row gs rows head tail ih =>
    obtain ⟨first,rest⟩ := List.pairwise_cons.mp ascending
    refine List.pairwise_cons.mpr ⟨fun g' member => ?_,ih rest⟩
    obtain ⟨i,at'⟩ := List.mem_iff_getElem?.mp member
    rcases forall₂_getElem? tail i with ⟨none_,_⟩ | ⟨g'',row',held,held',number,_⟩
    · rw [none_] at at'
      cases at'
    · rw [held] at at'
      cases at'
      rw [head.1,number]
      exact first row' (List.mem_of_getElem? held')

/-- The term without a group of one record. -/
theorem drop_group {g : Slot} {d : List UInt8} (holds : HoldsTerm t rows)
    (located : Located t rows (groupId id) front (some g) back spare before (some (groupId id,[(subId id,d)])) after)
    (last : LastKept h (t.groups.take t.numGroups) front.length) (counts : Counts) :
    ∃ t' total' rows', dropGroup h t counts t.groups front.length = some (t',total') ∧ t'.counts total' = counts ∧
      HoldsTerm t' rows' ∧ Changes rows rows' id none := by
  obtain ⟨gs,gs_eq⟩ : ∃ gs, gs = front ++ (some g).toList ++ back := ⟨_,rfl⟩
  have array := located.array
  have many := located.number
  have used := located.used
  rw [← gs_eq] at array many used
  rw [used] at last
  have length : gs.length = front.length + back.length + 1 := by
    rw [gs_eq]
    simp only [List.length_append,Option.toList,List.length_cons,List.length_nil]
    omega
  have few := rows_few holds.ascending holds.small
  rw [holds_count holds,many] at few
  have fits : gs.length * slotSize ≤ maxSize := by
    have most : 2 ^ 15 * slotSize ≤ maxSize := by decide
    exact Nat.le_trans (Nat.mul_le_mul_right _ few) most
  have stored : List.Forall₂ HoldsRow gs rows := by
    rw [gs_eq,located.apart.shape]
    exact List.rel_append (List.rel_append located.first located.middle) located.last
  obtain ⟨result,removed,kept⟩ := (@removeGroup_iff h gs spare front.length (groups_ascending stored holds.ascending)
    (by omega) fits).mpr last
  rw [← array,← many] at removed
  have others : gs.eraseIdx front.length = front ++ (none : Option Slot).toList ++ back := by
    rw [gs_eq,List.append_assoc,List.eraseIdx_append_of_length_le (Nat.le_refl _),Nat.sub_self]
    simp
  rw [others] at kept
  have whole : result.getD [] = front ++ (none : Option Slot).toList ++ back ++ (result.getD []).drop (gs.length - 1) := by
    rw [← kept,List.take_append_drop]
  obtain ⟨groups_,number_,counts_⟩ := update_spec t counts (result.getD []) (t.numGroups - 1)
  obtain ⟨holds',apart'⟩ := @holds_replace _ _ _ _ _ _ _ _ _ _ (t.update counts (result.getD []) (t.numGroups - 1)).1 _ located holds
    (groupId_lt id) none none (by simp) .nil (groups_.trans whole)
    (by rw [number_,many,length]; simp) fun some_ => by
      rw [number_] at some_ ⊢
      rw [groups_]
      obtain ⟨blockId,class_,room⟩ := holds.room fun none_ => some_ (by
        rw [← holds_count holds,none_]
        rfl)
      rw [holds_count holds] at class_
      exact removeGroup_room (by omega) class_ room removed
  refine ⟨_,_,_,?_,counts_,holds',changes_of located.apart apart' fun sub data => ?_⟩
  · rw [dropGroup,removed]
    rfl
  · by_cases same : sub = subId id
    · rw [if_pos same]
      simp
    · rw [if_neg same]
      simp [same]

/-- What `_ac_s_remove` reads in a slot. -/
theorem slot_head {r : Record} (payload : Payload r.2) (small : r.1 < 4096) :
    ∃ b0 b1 rest, encode r = b0 :: b1 :: rest ∧ number [b0,b1] >>> 4 = r.1 ∧ (number [b0,b1] &&& 7) + 1 = slotLength r.2 := by
  obtain ⟨control,rest,shape,nibble,_⟩ := payload.control
  obtain ⟨stored,high⟩ := head_bits small nibble
  obtain ⟨low,_⟩ := control_bits nibble r.1
  obtain ⟨v,v_eq⟩ : ∃ v, v = r.1 <<< 4 ||| control.toNat := ⟨_,rfl⟩
  rw [← v_eq] at stored high low
  have two : number [UInt8.ofNat v,UInt8.ofNat (v / 256)] = v := stored
  refine ⟨UInt8.ofNat v,UInt8.ofNat (v / 256),rest,?_,?_,?_⟩
  · rw [encode,shape,copyData,← v_eq]
    rfl
  · rw [two]
    exact high
  · rw [two,low,slotLength,shape]
    rfl

theorem inSlot_iff {g : Slot} (holds : HoldsTerm t rows) (located : Located t rows gid front (some g) back spare before here after)
    (number : g.group = gid) : InSlot t gid ↔ g.type = 0 := by
  have inside : g ∈ t.groups.take t.numGroups := by
    rw [located.used]
    simp
  constructor
  · rintro ⟨g',member,group,type⟩
    have stored : List.Forall₂ HoldsRow (t.groups.take t.numGroups) rows := by
      rw [located.used,located.apart.shape]
      exact List.rel_append (List.rel_append located.first located.middle) located.last
    have ascending := groups_ascending stored holds.ascending
    have same : g' = g := by
      by_contra differ
      rcases List.pairwise_iff_getElem.mp ascending with order
      obtain ⟨i,inside_i,at_i⟩ := List.getElem_of_mem member
      obtain ⟨j,inside_j,at_j⟩ := List.getElem_of_mem inside
      rcases Nat.lt_trichotomy i j with less | equal | more
      · have lt := order i j inside_i inside_j less
        rw [at_i,at_j] at lt
        omega
      · subst equal
        exact differ (at_i.symm.trans at_j)
      · have lt := order j i inside_j inside_i more
        rw [at_i,at_j] at lt
        omega
    rw [← same]
    exact type
  · exact fun type => ⟨g,inside,number,type⟩

theorem removeRecord_nil {rs : List Record} {sub : Nat} (ascending : rs.Pairwise fun r s => r.1 < s.1) (some_ : rs ≠ [])
    (empty : removeRecord rs sub = []) : ∃ d, rs = [(sub,d)] := by
  have all : ∀ r ∈ rs, r.1 = sub := by
    intro r member
    by_contra other
    have kept : r ∈ removeRecord rs sub := List.mem_filter.mpr ⟨member,by simpa using other⟩
    rw [empty] at kept
    cases kept
  cases rs with
  | nil => exact absurd rfl some_
  | cons r rs =>
    have first := all r (by simp)
    cases rs with
    | nil => exact ⟨r.2,by rw [← first]⟩
    | cons s rs =>
      have less := (List.pairwise_cons.mp ascending).1 s (by simp)
      have second := all s (by simp)
      omega

theorem mem_removeRecord {rs : List Record} {sub sub' : Nat} {d : List UInt8} :
    (sub',d) ∈ removeRecord rs sub ↔ if sub' = sub then (none : Option (List UInt8)) = some d else (sub',d) ∈ rs := by
  rw [removeRecord,List.mem_filter]
  by_cases same : sub' = sub
  · simp [same]
  · simp [same]

/-- Nothing changes when the id is not there. -/
theorem changes_absent (dead : ∀ d, ¬ Live rows id d) : Changes rows rows id none := by
  intro id' d
  by_cases same : groupId id' = groupId id ∧ subId id' = subId id
  · rw [if_pos same]
    refine iff_of_false (fun live => dead d ?_) (by simp)
    rw [Live,same.1,same.2] at live
    exact live
  · rw [if_neg same]

theorem acSRemove_spec (holds : HoldsTerm t rows) (fine : EraseFine h t id) :
    ∃ t' total' rows', acSRemove m h t total id = some (t',total') ∧ HoldsTerm t' rows' ∧ Changes rows rows' id none ∧
      CountsErase t total rows id (t'.counts total') := by
  obtain ⟨front,mine,back,spare,before,here,after,located⟩ := exists_located holds (groupId id)
  obtain ⟨match_,found,place,same⟩ := located.found
  have middle := located.middle
  rw [acSRemove]
  simp only [found,same]
  cases mine with
  | none =>
    cases here with
    | some row => cases middle
    | none =>
      have dead : ∀ d, ¬ Live rows id d := fun d live => by simpa using located.apart.live.mp live
      refine ⟨t,total,rows,rfl,holds,changes_absent dead,?_,?_,fun _ => rfl⟩
      · exact fun d live => absurd live (dead d)
      · exact fun d live => absurd live (dead d)
  | some g =>
    cases here with
    | none => cases middle
    | some row =>
      have held := (List.forall₂_cons.mp middle).1
      obtain ⟨gid,rs⟩ := row
      have group : gid = groupId id := located.apart.same (gid,rs) rfl
      subst group
      have member : g ∈ t.groups.take t.numGroups := by
        rw [located.used]
        simp
      have place' : (t.groups.take t.numGroups)[front.length]? = some g := by
        rw [located.used]
        simp
      have live : ∀ d, Live rows id d ↔ (subId id,d) ∈ rs := fun d => by simpa using located.apart.live
      have slot_iff := inSlot_iff holds located held.1
      have sound := held.2.sound
      simp only [Option.map_some]
      by_cases type : g.type ≠ 0
      · rw [if_pos type]
        obtain ⟨empty,counts,g',returned,removed⟩ := (@removeId_iff m (t.counts total) _ _ (subId id) held.2 type).mpr
          (fine.record g member rs held type)
        obtain ⟨taken,absent,slot⟩ := removeId_counts held.2 type returned
        rw [returned]
        have block : ∀ {c : Counts}, c = counts → CountsErase t total rows id c := by
          rintro c rfl
          refine ⟨fun d alive inSlot => absurd (slot_iff.mp inSlot) type,fun d alive _ => taken d ((live d).mp alive),fun dead => ?_⟩
          exact absent fun d inside => dead d ((live d).mpr inside)
        cases empty with
        | true =>
          have gone := removed.empty_iff.mp rfl
          obtain ⟨d,one⟩ := removeRecord_nil sound.ascending held.2.some_ gone
          subst one
          have set : t.groups.set front.length g' = t.groups := by
            rw [slot rfl,located.array]
            simp
          obtain ⟨t',total',rows',dropped,counts',holds',changes⟩ := drop_group holds located (fine.group _ g place' d held) counts
          simp only [if_true,set]
          exact ⟨t',total',rows',dropped,holds',changes,block counts'⟩
        | false =>
          obtain ⟨holds',number⟩ := removed.holds rfl
          obtain ⟨groups_,number_,counts'⟩ := update_spec t counts (t.groups.set front.length g') t.numGroups
          have held' : HoldsRow g' (groupId id,removeRecord rs (subId id)) := ⟨number.trans held.1,holds'⟩
          obtain ⟨rows',holds'',changes⟩ := set_group holds located held' (fun sub d => mem_removeRecord) groups_ number_
          refine ⟨_,_,rows',rfl,holds'',changes,block counts'⟩
      · have zero : g.type = 0 := Decidable.not_not.mp type
        rw [if_neg type]
        rcases held.2.stored with ⟨_,r,slack,one,cell,_⟩ | ⟨other,_⟩
        · subst one
          obtain ⟨b0,b1,rest,bytes_,high,low⟩ := slot_head (sound.payloads r (by simp)) (sound.ids r (by simp))
          rw [cell,bytes_]
          simp only [List.cons_append,high,low]
          by_cases mine : r.1 = subId id
          · obtain ⟨sub,d⟩ := r
            have sub_ : sub = subId id := mine
            subst sub_
            obtain ⟨t',total',rows',dropped,counts',holds',changes⟩ := drop_group holds located (fine.group _ g place' d held)
              (remove (t.counts total) (slotLength d))
            have only : ∀ d', Live rows id d' → d' = d := by
              intro d' alive
              have same := List.mem_singleton.mp ((live d').mp alive)
              exact congrArg Prod.snd same
            rw [if_neg (fun no => no rfl)]
            refine ⟨t',total',rows',dropped,holds',changes,fun d' alive _ => ?_,fun d' alive no => ?_,fun dead => ?_⟩
            · rw [counts',only d' alive]
            · exact absurd (slot_iff.mpr zero) no
            · exact absurd ((live d).mpr (List.mem_singleton_self _)) (dead d)
          · rw [if_pos mine]
            have dead : ∀ d, ¬ Live rows id d := by
              intro d alive
              have same := List.mem_singleton.mp ((live d).mp alive)
              exact mine (congrArg Prod.fst same).symm
            refine ⟨t,total,rows,rfl,holds,changes_absent dead,?_,?_,fun _ => rfl⟩
            · exact fun d alive => absurd alive (dead d)
            · exact fun d alive => absurd alive (dead d)
        · rw [zero] at other
          cases other

end

end AnotherC.TermUpdates
