import AnotherC.Lib.Rows
import AnotherC.Search.GroupRemove
import AnotherC.Search.GroupUpdate

/-!
# The groups of a term: `_ac_s_add`, `_ac_s_remove` and `_ac_s_find`

A term has an array of groups in ascending order of their numbers, with some unused
slots at its end. Adding a posting updates its group or inserts a new one, removing
one may remove its group, and both find the group by bisection.
-/
namespace AnotherC.TermGroups
open AnotherC.Lib.Bytes AnotherC.Lib.Splice AnotherC.Lib.Rows AnotherC.Groups AnotherC.GroupUpdate AnotherC.GroupRemove
set_option linter.unusedVariables false

/-! ## The operations -/

/-- `ac_s_get_group_id`. -/
def groupId (id : Nat) : Nat := (id &&& 0x7fff000) >>> 12

/-- `ac_s_get_sub_id`. -/
def subId (id : Nat) : Nat := id &&& 0xfff

/-- `ac_s_term_t`: the array of groups with its unused slots, and the counters. -/
structure Term where
  groups : List Slot
  numGroups : Nat
  numIds : Nat
  bytes : Nat
  maxBytes : Nat
  deriving DecidableEq

/-- The loop of `find_block`. -/
def bisect (groups : List Slot) (groupId : Nat) : Nat → Nat → Nat → Option Nat
  | 0, _, _ => none
  | fuel + 1, low, high =>
    if low < high then
      let mid := low + (high - low) >>> 1
      match groups[mid]? with
      | none => none
      | some g => if groupId > g.group then bisect groups groupId fuel (mid + 1) high else bisect groups groupId fuel low mid
    else some low

/-- `find_block`: the place of the first group that is not before `groupId`, if there is
    one. -/
def findBlock (groups : List Slot) (numGroups groupId : Nat) : Option (Option Nat) :=
  (bisect groups groupId (numGroups + 1) 0 numGroups).map fun low => if low = numGroups then none else some low

/-- What the callers of `find_block` do next: the group at the place, if it has this number. -/
def sameGroup (groups : List Slot) (match_ : Option Nat) (groupId : Nat) : Option (Nat × Slot) :=
  match match_ with
  | none => none
  | some i =>
    match groups[i]? with
    | none => none
    | some g => if g.group = groupId then some (i,g) else none

/-- `new_group_with_data`; the pointer in the slot is null. -/
def newGroupWithData (m : Machine) (id : Nat) (data : List UInt8) : Option Slot :=
  let len := data.length
  if len < 7 then
    (store (List.replicate 8 0) 0 (copyData (subId id) data)).map fun bytes =>
      { type := 0, group := groupId id, cell := .inline bytes }
  else
    match getBlockId ((len + 1 + 4) % 2 ^ 32) with
    | none => none
    | some blockId =>
      (store (m.alloc blockId) 0 (bytes 4 (len + 1))).bind fun bp =>
        (store bp 4 (copyData (subId id) data)).map fun bp => { type := 1, group := groupId id, cell := .block bp 0 }

/-- `get_add_block`: an array of the next size class, if the old one has no slot left. -/
def getAddBlock (h : Blocks) (oldSize : Nat) : Option (Option (List Slot)) :=
  match getBlockId (oldSize * slotSize) with
  | none => none
  | some blockId =>
    if oldSize * slotSize + slotSize ≤ blockSize blockId then some none else some (some (h.alloc (blockId + 1)))

/-- What `insert_new_group_with_data` does with the array. -/
def insertGroup (h : Blocks) (groups : List Slot) (numGroups : Nat) (match_ : Option Nat) (nb : Slot) : Option (List Slot) :=
  let ep := numGroups
  let at' := match_.getD ep
  match getAddBlock h numGroups with
  | none => none
  | some (some newBlock) =>
    (store newBlock 0 (groups.take at')).bind fun newBlock =>
      (store newBlock at' [nb]).bind fun newBlock => store newBlock (at' + 1) ((groups.drop at').take (ep - at'))
  | some none =>
    (if at' < ep then move groups (at' + 1) at' (ep - at') else some groups).bind fun groups => store groups at' [nb]

def Term.counts (t : Term) (totalBytes : Nat) : Counts := ⟨t.numIds,t.bytes,totalBytes⟩

/-- The term with these counters and groups, and the total of all bytes. -/
def Term.update (t : Term) (counts : Counts) (groups : List Slot) (numGroups : Nat) : Term × Nat :=
  ({ t with groups := groups, numGroups := numGroups, numIds := counts.numIds, bytes := counts.bytes },counts.totalBytes)

/-- The first lines of `_ac_s_add`. -/
def Term.grow (t : Term) (len : Nat) : Term := if t.maxBytes < sub32 len 1 then { t with maxBytes := sub32 len 1 } else t

/-- The rest of `_ac_s_add`. -/
def addToGroups (m : Machine) (h : Blocks) (t : Term) (totalBytes id : Nat) (data : List UInt8) : Option (Term × Nat) :=
  match findBlock t.groups t.numGroups (groupId id) with
  | none => none
  | some match_ =>
    match sameGroup t.groups match_ (groupId id) with
    | none =>
      match newGroupWithData m id data with
      | none => none
      | some nb =>
        (insertGroup h t.groups t.numGroups match_ nb).map fun groups =>
          t.update ((t.counts totalBytes).insert (data.length + 1)) groups (t.numGroups + 1)
    | some (i,g) =>
      (updateGroupWithData m (t.counts totalBytes) g (subId id) data).map fun (counts,g) =>
        t.update counts (t.groups.set i g) t.numGroups

/-- `_ac_s_add`, and the total of all bytes. -/
def acSAdd (m : Machine) (h : Blocks) (t : Term) (totalBytes id : Nat) (data : List UInt8) : Option (Term × Nat) :=
  addToGroups m h (t.grow data.length) totalBytes id data

/-- `remove_group` on an array of the term. -/
def dropGroup (h : Blocks) (t : Term) (counts : Counts) (groups : List Slot) (i : Nat) : Option (Term × Nat) :=
  (removeGroup h groups i t.numGroups).map fun (groups,numGroups) => t.update counts (groups.getD []) numGroups

/-- `_ac_s_remove`. -/
def acSRemove (m : Machine) (h : Blocks) (t : Term) (totalBytes id : Nat) : Option (Term × Nat) :=
  match findBlock t.groups t.numGroups (groupId id) with
  | none => none
  | some match_ =>
    match sameGroup t.groups match_ (groupId id) with
    | none => some (t,totalBytes)
    | some (i,g) =>
      if g.type ≠ 0 then
        match removeIdFromGroup m (t.counts totalBytes) g (subId id) with
        | none => none
        | some (empty,counts,g) =>
          if empty then dropGroup h t counts (t.groups.set i g) i else some (t.update counts (t.groups.set i g) t.numGroups)
      else
        match g.cell with
        | .inline (b0 :: b1 :: _) =>
          if number [b0,b1] >>> 4 ≠ subId id then some (t,totalBytes)
          else dropGroup h t (remove (t.counts totalBytes) ((number [b0,b1] &&& 7) + 1)) t.groups i
        | _ => none

/-- `_ac_s_find`: the bytes of the record. -/
def acSFind (t : Term) (id : Nat) : Option (Option (List UInt8)) :=
  match findBlock t.groups t.numGroups (groupId id) with
  | none => none
  | some match_ =>
    match sameGroup t.groups match_ (groupId id) with
    | none => some none
    | some (i,g) =>
      match g.type,g.cell with
      | 0,.inline slot =>
        match advanceId slot with
        | none => none
        | some (n,_id) => some (if _id = subId id then some (slot.take n) else none)
      | _ + 1,.block mem base =>
        match readNumber mem base with
        | none => none
        | some header =>
          let ep := base + header + 4
          match findIdInBlock (mem.length + 1) mem (base + 4) ep (subId id) with
          | none => none
          | some (_,none) => some none
          | some (mp,some next) => some (some ((mem.drop mp).take (next - mp)))
      | _,_ => none

/-! ## Well-formed terms -/

/-- A group of records, by its number. -/
abbrev Row := Nat × List Record

def HoldsRow (g : Slot) (row : Row) : Prop := g.group = row.1 ∧ Holds g row.2

/-- The array holds the groups, and it has the size of their number. -/
structure HoldsTerm (t : Term) (rows : List Row) : Prop where
  stored : ∃ gs spare, t.groups = gs ++ spare ∧ t.numGroups = gs.length ∧ List.Forall₂ HoldsRow gs rows
  ascending : rows.Pairwise fun a b => a.1 < b.1
  small : ∀ row ∈ rows, row.1 < 2 ^ 15
  room : rows ≠ [] → ∃ blockId, getBlockId (rows.length * slotSize) = some blockId ∧ t.groups.length * slotSize = blockSize blockId

/-- An id and its payload are in the groups. -/
def Live (rows : List Row) (id : Nat) (data : List UInt8) : Prop :=
  ∃ rs, (groupId id,rs) ∈ rows ∧ (subId id,data) ∈ rs

/-- The groups before a number, the one that has it and those after. -/
structure Apart (rows : List Row) (gid : Nat) (before : List Row) (here : Option Row) (after : List Row) : Prop where
  shape : rows = before ++ here.toList ++ after
  below : ∀ row ∈ before, row.1 < gid
  same : ∀ row ∈ here, row.1 = gid
  above : ∀ row ∈ after, gid < row.1

section
variable {m : Machine} {h : Blocks} {t : Term} {rows before after : List Row} {here : Option Row} {gid id total : Nat}
  {data : List UInt8} {groups gs spare : List Slot}

theorem exists_apart (ascending : rows.Pairwise fun a b => a.1 < b.1) (gid : Nat) :
    ∃ before here after, Apart rows gid before here after := by
  induction rows with
  | nil => exact ⟨[],none,[],rfl,by simp,by simp,by simp⟩
  | cons row rows ih =>
    obtain ⟨first,rest⟩ := List.pairwise_cons.mp ascending
    rcases Nat.lt_trichotomy row.1 gid with less | same | more
    · obtain ⟨before,here,after,apart⟩ := ih rest
      refine ⟨row :: before,here,after,by rw [apart.shape]; rfl,?_,apart.same,apart.above⟩
      intro other member
      rcases List.mem_cons.mp member with rfl | old
      · exact less
      · exact apart.below other old
    · refine ⟨[],some row,rows,rfl,by simp,?_,fun other member => same ▸ first other member⟩
      intro other member
      cases member
      exact same
    · refine ⟨[],none,row :: rows,rfl,by simp,by simp,?_⟩
      intro other member
      rcases List.mem_cons.mp member with rfl | old
      · exact more
      · exact Nat.lt_trans more (first other old)

/-- The bisection ends at the first group that is not before the number. -/
theorem bisect_spec {cut num low high fuel : Nat} (within : num ≤ groups.length)
    (sorted : ∀ (j : Nat) g, j < num → groups[j]? = some g → (g.group < gid ↔ j < cut)) (from_ : low ≤ cut) (upto : cut ≤ high)
    (inside : high ≤ num) (enough : high - low < fuel) : bisect groups gid fuel low high = some cut := by
  induction fuel generalizing low high with
  | zero => exact absurd enough (Nat.not_lt_zero _)
  | succ fuel ih =>
    rw [bisect]
    by_cases more : low < high
    · have half : (high - low) >>> 1 = (high - low) / 2 := Nat.shiftRight_eq_div_pow _ 1
      have middle : low + (high - low) / 2 < num := by omega
      have found := List.getElem?_eq_getElem (l := groups) (i := low + (high - low) / 2) (by omega)
      have side := sorted _ _ middle found
      rw [if_pos more]
      simp only [half,found]
      by_cases less : gid > groups[low + (high - low) / 2].group
      · rw [if_pos less]
        exact ih (by have := side.mp less; omega) upto inside (by omega)
      · rw [if_neg less]
        exact ih from_ (by have := fun more => less (side.mpr more); omega) (by omega) (by omega)
    · rw [if_neg more]
      congr 1
      omega

theorem findBlock_spec (stored : List.Forall₂ HoldsRow gs rows) (apart : Apart rows gid before here after) :
    findBlock (gs ++ spare) gs.length gid =
      some (if before.length = gs.length then none else some before.length) := by
  have lengths := stored.length_eq
  have total := congrArg List.length apart.shape
  rw [List.length_append,List.length_append] at total
  have sorted : ∀ (j : Nat) g, j < gs.length → (gs ++ spare)[j]? = some g → (g.group < gid ↔ j < before.length) := by
    intro j g inside found
    rw [List.getElem?_append_left inside] at found
    obtain ⟨g',row,held,at',number,_⟩ := forall₂_inside stored inside
    rw [held] at found
    cases found
    rw [number]
    rw [apart.shape,List.append_assoc] at at'
    by_cases first : j < before.length
    · rw [List.getElem?_append_left first] at at'
      exact iff_of_true (apart.below row (List.mem_of_getElem? at')) first
    · rw [List.getElem?_append_right (Nat.not_lt.mp first)] at at'
      refine iff_of_false ?_ first
      rcases List.mem_append.mp (List.mem_of_getElem? at') with same | later
      · have equal := apart.same row (by simpa using same)
        omega
      · have more := apart.above row later
        omega
  have found : bisect (gs ++ spare) gid (gs.length + 1) 0 gs.length = some before.length :=
    bisect_spec (by simp) sorted (Nat.zero_le _) (by omega) (Nat.le_refl _) (by omega)
  rw [findBlock,found]
  rfl

/-- The array around the place of a number. -/
theorem stored_apart (stored : List.Forall₂ HoldsRow gs rows) (apart : Apart rows gid before here after) :
    ∃ front mine back, gs = front ++ Option.toList mine ++ back ∧ front.length = before.length ∧
      List.Forall₂ HoldsRow front before ∧ List.Forall₂ HoldsRow mine.toList here.toList ∧ List.Forall₂ HoldsRow back after := by
  have stored' := stored
  rw [apart.shape,List.append_assoc] at stored'
  have first := List.forall₂_take_append _ _ _ stored'
  have rest := List.forall₂_drop_append _ _ _ stored'
  have middle := List.forall₂_take_append _ _ _ rest
  have last := List.forall₂_drop_append _ _ _ rest
  obtain ⟨mine,shape⟩ : ∃ mine : Option Slot, (gs.drop before.length).take here.toList.length = mine.toList := by
    cases here with
    | none => exact ⟨none,rfl⟩
    | some row =>
      have length := middle.length_eq
      obtain ⟨g,one⟩ := List.length_eq_one_iff.mp length
      exact ⟨some g,one⟩
  refine ⟨gs.take before.length,mine,(gs.drop before.length).drop here.toList.length,?_,first.length_eq,first,shape ▸ middle,last⟩
  rw [← shape,List.append_assoc,List.take_append_drop,List.take_append_drop]

/-- The group that has the number, if there is one. -/
theorem sameGroup_spec {front back : List Slot} {mine : Option Slot} (stored : List.Forall₂ HoldsRow gs rows)
    (apart : Apart rows gid before here after) (shape : gs = front ++ mine.toList ++ back) (length : front.length = before.length)
    (mine_ : List.Forall₂ HoldsRow mine.toList here.toList) (back_ : List.Forall₂ HoldsRow back after) :
    sameGroup (gs ++ spare) (if before.length = gs.length then none else some before.length) gid =
      mine.map fun g => (before.length,g) := by
  by_cases none_ : before.length = gs.length
  · rw [if_pos none_]
    cases mine with
    | none => rfl
    | some g =>
      have total := congrArg List.length shape
      simp only [List.length_append,Option.toList,List.length_cons] at total
      omega
  · rw [if_neg none_,sameGroup]
    have place : (gs ++ spare)[before.length]? = (mine.toList ++ back ++ spare)[0]? := by
      rw [shape,List.append_assoc,List.append_assoc,← length,List.getElem?_append_right (Nat.le_refl _),Nat.sub_self,
        ← List.append_assoc]
    rw [place]
    cases mine with
    | some g =>
      cases here with
      | none => cases mine_
      | some row =>
        have number := (List.forall₂_cons.mp mine_).1.1
        simp only [Option.toList,List.cons_append,List.getElem?_cons_zero,Option.map_some]
        rw [if_pos (number.trans (apart.same row rfl))]
    | none =>
      cases back_ with
      | nil =>
        have total := congrArg List.length shape
        simp only [List.length_append,Option.toList,List.length_nil] at total
        omega
      | @cons g row back after first rest =>
        have more := apart.above row (by simp)
        have number := first.1
        simp only [Option.toList,List.nil_append,List.cons_append,List.getElem?_cons_zero,Option.map_none]
        rw [if_neg (by omega)]

/-- Where a number is in the array of a term, or where it belongs. -/
structure Located (t : Term) (rows : List Row) (gid : Nat) (front : List Slot) (mine : Option Slot) (back spare : List Slot)
    (before : List Row) (here : Option Row) (after : List Row) : Prop where
  array : t.groups = front ++ mine.toList ++ back ++ spare
  number : t.numGroups = (front ++ mine.toList ++ back).length
  apart : Apart rows gid before here after
  first : List.Forall₂ HoldsRow front before
  middle : List.Forall₂ HoldsRow mine.toList here.toList
  last : List.Forall₂ HoldsRow back after
  found : ∃ match_, findBlock t.groups t.numGroups gid = some match_ ∧ match_.getD t.numGroups = front.length ∧
    sameGroup t.groups match_ gid = mine.map fun g => (front.length,g)

theorem exists_located (holds : HoldsTerm t rows) (gid : Nat) :
    ∃ front mine back spare before here after, Located t rows gid front mine back spare before here after := by
  obtain ⟨gs,spare,array,number,stored⟩ := holds.stored
  obtain ⟨before,here,after,apart⟩ := exists_apart holds.ascending gid
  obtain ⟨front,mine,back,shape,length,first,middle,last⟩ := stored_apart stored apart
  have found := @findBlock_spec _ _ _ _ _ _ spare stored apart
  have same := @sameGroup_spec _ _ _ _ _ _ spare _ _ _ stored apart shape length middle last
  rw [← length,← array,← number] at found same
  refine ⟨front,mine,back,spare,before,here,after,?_,?_,apart,first,middle,last,_,found,?_,same⟩
  · rw [array,shape]
  · rw [number,shape]
  · by_cases end_ : front.length = t.numGroups
    · rw [if_pos end_]
      exact end_.symm
    · rw [if_neg end_]
      rfl

theorem Located.used {front back : List Slot} {mine : Option Slot} (located : Located t rows gid front mine back spare before here after) :
    t.groups.take t.numGroups = front ++ mine.toList ++ back := by
  rw [located.array,located.number,List.take_left]

/-! ## Finding -/

theorem Apart.live (apart : Apart rows (groupId id) before here after) :
    Live rows id data ↔ ∃ row ∈ here, (subId id,data) ∈ row.2 := by
  constructor
  · rintro ⟨rs,member,held⟩
    rw [apart.shape,List.mem_append,List.mem_append] at member
    rcases member with (first | mine) | last
    · exact absurd (apart.below _ first) (Nat.lt_irrefl _)
    · exact ⟨(groupId id,rs),by simpa using mine,held⟩
    · exact absurd (apart.above _ last) (Nat.lt_irrefl _)
  · rintro ⟨row,mine,held⟩
    refine ⟨row.2,?_,held⟩
    have number := apart.same row mine
    rw [apart.shape,← number,List.mem_append,List.mem_append]
    exact .inl (.inr (by rw [mine]; exact List.mem_singleton_self _))

/-- What the two readers of `_ac_s_find` return for a well-formed group. -/
theorem find_in_group {g : Slot} {rs : List Record} (held : Holds g rs) {match_ : Option Nat} {i : Nat}
    (found : findBlock t.groups t.numGroups (groupId id) = some match_)
    (same : sameGroup t.groups match_ (groupId id) = some (i,g)) :
    ∃ r, acSFind t id = some r ∧ (∀ data, (subId id,data) ∈ rs → r = some (encode (subId id,data))) ∧
      ((∀ data, (subId id,data) ∉ rs) → r = none) := by
  rw [acSFind]
  simp only [found,same]
  rcases held.stored with ⟨type,r,slack,shape,cell,eight⟩ | ⟨type,mem,cell,block⟩
  · have sound := held.sound
    rw [shape] at sound ⊢
    have read := advanceId_encode (sound.payloads r (by simp)) (sound.ids r (by simp)) slack
    simp only [type,cell,read]
    by_cases mine : r.1 = subId id
    · rw [if_pos mine,List.take_left]
      refine ⟨_,rfl,fun data member => ?_,fun none_ => ?_⟩
      · rw [List.mem_singleton.mp member]
      · exact absurd (List.mem_singleton.mpr (by rw [← mine])) (none_ r.2)
    · rw [if_neg mine]
      refine ⟨_,rfl,fun data member => ?_,fun _ => rfl⟩
      exact absurd (by rw [← List.mem_singleton.mp member]) mine
  · obtain ⟨low,d,high,split⟩ := exists_split held.sound.ascending (subId id)
    obtain ⟨header,at'⟩ := block.find held.sound split
    have end_ : (encodeAll rs).length + 4 = 4 + (encodeAll rs).length := Nat.add_comm _ _
    simp only [type,cell,header,Nat.zero_add,end_,at']
    cases d with
    | none =>
      refine ⟨none,rfl,fun data member => ?_,fun _ => rfl⟩
      cases split.mem.mp member
    | some d =>
      obtain ⟨_,_,mid,whole⟩ := split.parts
      obtain ⟨slack,shape⟩ := block.content
      rw [whole,mid] at shape
      have bytes_ := stretch_spec (bytes_length 4 _) shape
      refine ⟨some (encode (subId id,d)),?_,fun data member => ?_,fun none_ => ?_⟩
      · simp only [Option.map_some,Nat.add_sub_cancel_left]
        congr 2
      · cases split.mem.mp member
        rfl
      · exact absurd (split.mem.mpr rfl) (none_ d)

theorem acSFind_spec (holds : HoldsTerm t rows) (id : Nat) :
    ∃ r, acSFind t id = some r ∧ (∀ data, Live rows id data → r = some (encode (subId id,data))) ∧
      ((∀ data, ¬ Live rows id data) → r = none) := by
  obtain ⟨front,mine,back,spare,before,here,after,located⟩ := exists_located holds (groupId id)
  obtain ⟨match_,found,_,same⟩ := located.found
  have apart := located.apart
  have middle := located.middle
  cases mine with
  | none =>
    cases here with
    | some row => cases middle
    | none =>
      have dead : ∀ data, ¬ Live rows id data := fun data live => by simpa using apart.live.mp live
      refine ⟨none,?_,fun data live => absurd live (dead data),fun _ => rfl⟩
      rw [acSFind]
      simp only [found,same,Option.map_none]
  | some g =>
    cases here with
    | none => cases middle
    | some row =>
      have held := (List.forall₂_cons.mp middle).1.2
      have live : ∀ data, Live rows id data ↔ (subId id,data) ∈ row.2 := fun data => by simpa using apart.live
      obtain ⟨r,returned,some_,none_⟩ := find_in_group held found same
      exact ⟨r,returned,fun data alive => some_ data ((live data).mp alive),
        fun dead => none_ fun data member => dead data ((live data).mpr member)⟩

end

end AnotherC.TermGroups
