import AnotherC.Lib.FreeList
import AnotherC.Lib.SizeClass
import AnotherC.Search.Groups

/-!
# The size classes of the live store

The blocks of a store come from its pool and, when they are released, go on the free list of a
size class. No block has its class written down: it is computed again from what the block holds,
and the array of a term that grows or shrinks takes the class beside it.

Several terms share the free lists, and so do the blocks of postings, which are left to what
takes and gives them here: of those it is said only that they are released with a size of the
class they were taken from.
-/
namespace AnotherC.SizeClasses
open AnotherC.Groups (slotSize blockSize maxSize getBlockId getBlockId_iff getBlockId_some blockSize_le blockSize_mono blockSize_step)
open AnotherC.Lib.FreeList
open AnotherC.Lib.SizeClass
set_option linter.unusedVariables false

/-! ## The code -/

/-- What was handed out and released, and for which class; the code keeps no record of it. -/
inductive Entry where
  | took (block blockId : Nat)
  | gave (block blockId : Nat)
deriving Repr, DecidableEq

/-- `ac_s_t`: the blocks that the pool made, with the bytes it gave for each, the `next` of the
    blocks as free nodes, and `free_tbl`. -/
structure Store where
  made : Nat
  cap : Nat → Nat
  next : Nat → Option Nat
  freeTbl : Nat → Option Nat
  log : List Entry

/-- `ac_s_alloc`; `size_tbl` has 43 entries. -/
def acSAlloc (h : Store) (blockId : Nat) : Option (Store × Nat) :=
  if 42 < blockId then none
  else
    match h.freeTbl blockId with
    | none =>
      some ({ h with made := h.made + 1, cap := Function.update h.cap h.made (blockSize blockId), log := .took h.made blockId :: h.log },h.made)
    | some fn => some ({ h with freeTbl := Function.update h.freeTbl blockId (h.next fn), log := .took fn blockId :: h.log },fn)

/-- `ac_s_release`: the block becomes a free node, for which it needs eight bytes. -/
def acSRelease (h : Store) (data size : Nat) : Option Store :=
  match getBlockId (size % 2 ^ 32) with
  | none => none
  | some blockId =>
    if h.cap data < 8 then none
    else
      some { h with
        next := Function.update h.next data (h.freeTbl blockId)
        freeTbl := Function.update h.freeTbl blockId (some data)
        log := .gave data blockId :: h.log }

/-- `ac_s_release_group`. -/
def acSReleaseGroup (h : Store) (data num : Nat) : Option Store := acSRelease h data (num * slotSize)

/-- `get_add_block`: a new block, or NULL when the old one has room. -/
def getAddBlock (h : Store) (oldSize : Nat) : Option (Store × Option Nat) :=
  match getBlockId (oldSize * slotSize % 2 ^ 32) with
  | none => none
  | some blockId =>
    if oldSize * slotSize + slotSize ≤ blockSize blockId then some (h,none)
    else (acSAlloc h (blockId + 1)).map fun (h,block) => (h,some block)

/-- `get_remove_block`. -/
def getRemoveBlock (h : Store) (oldSize : Nat) : Option (Store × Option Nat) :=
  match getBlockId (oldSize * slotSize % 2 ^ 32) with
  | none => none
  | some blockId =>
    if oldSize * slotSize - slotSize > blockSize (blockId - 1) then some (h,none)
    else (acSAlloc h (blockId - 1)).map fun (h,block) => (h,some block)

/-- `groups` and `num_groups` of a term. -/
structure Groups where
  groups : Option Nat
  numGroups : Nat
deriving Repr, DecidableEq

/-- So many groups are written to a block, or read from it; nothing is read where there are none. -/
def holds (h : Store) (block : Option Nat) (num : Nat) : Bool :=
  num = 0 || block.any fun b => num * slotSize ≤ h.cap b

/-- The array in `insert_new_group_with_data`. -/
def insertGroup (h : Store) (t : Groups) : Option (Store × Groups) := do
  let (h,newBlock) ← getAddBlock h t.numGroups
  let numGroups := t.numGroups + 1
  match newBlock with
  | some block =>
    if holds h newBlock numGroups && holds h t.groups t.numGroups then
      if numGroups > 1 then do
        let old ← t.groups
        let h ← acSReleaseGroup h old (numGroups - 1)
        some (h,⟨some block,numGroups⟩)
      else some (h,⟨some block,numGroups⟩)
    else none
  | none => if holds h t.groups numGroups then some (h,⟨t.groups,numGroups⟩) else none

/-- `remove_group`. -/
def removeGroup (h : Store) (t : Groups) : Option (Store × Groups) :=
  if t.numGroups = 1 then do
    let old ← t.groups
    let h ← acSReleaseGroup h old 1
    some (h,⟨none,0⟩)
  else do
    let (h,newBlock) ← getRemoveBlock h t.numGroups
    let numGroups := t.numGroups - 1
    match newBlock with
    | some block =>
      if holds h newBlock numGroups && holds h t.groups t.numGroups then do
        let old ← t.groups
        let h ← acSReleaseGroup h old (numGroups + 1)
        some (h,⟨some block,numGroups⟩)
      else none
    | none => if holds h t.groups t.numGroups then some (h,⟨t.groups,numGroups⟩) else none

/-! ## Histories -/

/-- The store, the arrays of its terms, and the blocks that are taken for postings. -/
structure State where
  store : Store
  terms : Nat → Groups
  others : List Nat

inductive Event where
  | insert (term : Nat)
  | remove (term : Nat)
  | take (blockId : Nat)
  | give (block size : Nat)
deriving Repr, DecidableEq

def start : State := ⟨⟨0,fun _ => 0,fun _ => none,fun _ => none,[]⟩,fun _ => ⟨none,0⟩,[]⟩

def State.put (s : State) (term : Nat) (result : Store × Groups) : State :=
  { s with store := result.1, terms := Function.update s.terms term result.2 }

def step (s : State) : Event → Option State
  | .insert term => (insertGroup s.store (s.terms term)).map (s.put term)
  | .remove term => (removeGroup s.store (s.terms term)).map (s.put term)
  | .take blockId => (acSAlloc s.store blockId).map fun (h,block) => { s with store := h, others := block :: s.others }
  | .give block size => (acSRelease s.store block size).map fun h => { s with store := h, others := s.others.erase block }

/-- What may happen: a group is inserted where a block can hold one more, a group is removed
    where there is one, and a block of postings is released with a size of its class. -/
def Legal (s : State) : Event → Prop
  | .insert term => ((s.terms term).numGroups + 1) * slotSize ≤ maxSize
  | .remove term => (s.terms term).numGroups ≠ 0
  | .take blockId => 1 ≤ blockId ∧ blockId ≤ 42
  | .give block size => block ∈ s.others ∧ ∃ blockId, getBlockId (size % 2 ^ 32) = some blockId ∧ s.store.cap block = blockSize blockId

inductive Reached : State → Prop
  | start : Reached start
  | step {s s' : State} {e : Event} (reached : Reached s) (legal : Legal s e) (stepped : step s e = some s') : Reached s'

/-! ## Classes of so many groups -/

/-- How many groups a class holds. -/
def slots (blockId : Nat) : Nat := blockSize blockId / slotSize

theorem slots_exact {blockId : Nat} (inside : blockId ≤ 42) : slots blockId * slotSize = blockSize blockId := by
  have all : ∀ c ≤ 42, slots c * slotSize = blockSize c := by decide +kernel
  exact all blockId inside

theorem slots_ascends : Ascends slots 42 := by
  intro c less
  have inside : c + 1 ≤ 42 := less
  have step := blockSize_step less
  rw [← slots_exact (Nat.le_of_lt less),← slots_exact inside,slotSize] at step
  omega

theorem class_iff {n blockId : Nat} : getBlockId (n * slotSize) = some blockId ↔ blockId ≤ 42 ∧ IsClass slots n blockId := by
  rw [getBlockId_iff]
  constructor
  · rintro ⟨inside,fits,least⟩
    rw [← slots_exact inside] at fits
    refine ⟨inside,Nat.le_of_mul_le_mul_right fits (by decide),fun b less => ?_⟩
    cases least with
    | inl zero => omega
    | inr above =>
      have mono := blockSize_mono (by omega : b ≤ blockId - 1) (by omega)
      have small : slots b * slotSize < n * slotSize := by
        rw [slots_exact (by omega)]
        exact Nat.lt_of_le_of_lt mono above
      exact Nat.lt_of_mul_lt_mul_right small
  · rintro ⟨inside,isClass⟩
    refine ⟨inside,?_,?_⟩
    · rw [← slots_exact inside]
      exact Nat.mul_le_mul_right _ isClass.fits
    · by_cases zero : blockId = 0
      · exact .inl zero
      · have least := isClass.least (blockId - 1) (by omega)
        rw [← slots_exact (by omega)]
        exact .inr (Nat.mul_lt_mul_of_pos_right least (by decide))

theorem size_fits {size : Nat} (fits : size ≤ maxSize) : size % 2 ^ 32 = size := by
  apply Nat.mod_eq_of_lt
  have most : maxSize < 2 ^ 32 := by decide
  omega

theorem class_inj {c d : Nat} (insideC : c ≤ 42) (insideD : d ≤ 42) (same : blockSize c = blockSize d) : c = d := by
  rw [← slots_exact insideC,← slots_exact insideD] at same
  exact slots_ascends.inj insideC insideD (Nat.eq_of_mul_eq_mul_right (by decide) same)

/-- A class that holds a group has room for a free node. -/
theorem class_wide {c : Nat} (positive : 1 ≤ c) (inside : c ≤ 42) : ¬ blockSize c < 8 := by
  have mono := blockSize_mono positive inside
  have first : blockSize 1 = 10 := by decide
  omega

section
variable {n c : Nat}

/-- One group more: the class stays where the block has room, and is the next one otherwise. -/
theorem class_grows (class_ : getBlockId (n * slotSize) = some c) (fits : (n + 1) * slotSize ≤ maxSize) :
    if n * slotSize + slotSize ≤ blockSize c then getBlockId ((n + 1) * slotSize) = some c
    else c + 1 ≤ 42 ∧ getBlockId ((n + 1) * slotSize) = some (c + 1) := by
  obtain ⟨inside,isClass⟩ := class_iff.mp class_
  rw [← slots_exact inside,← Nat.succ_mul]
  split
  case isTrue room => exact class_iff.mpr ⟨inside,isClass.stays (Nat.le_of_mul_le_mul_right room (by decide))⟩
  case isFalse full =>
    have full' : ¬ n + 1 ≤ slots c := fun room => full (Nat.mul_le_mul_right _ room)
    have below : c < 42 := by
      rcases Nat.lt_or_eq_of_le inside with less | last
      · exact less
      · rw [last] at full
        have top : slots 42 * slotSize = maxSize := by decide
        exact absurd (top.symm ▸ fits) full
    exact ⟨below,class_iff.mpr ⟨below,isClass.grows slots_ascends below full'⟩⟩

/-- One group less: the class stays where the one before is too small, and is that one otherwise. -/
theorem class_shrinks (class_ : getBlockId ((n + 1) * slotSize) = some c) (several : 1 ≤ n) :
    2 ≤ c ∧ if (n + 1) * slotSize - slotSize > blockSize (c - 1) then getBlockId (n * slotSize) = some c
    else getBlockId (n * slotSize) = some (c - 1) := by
  obtain ⟨inside,isClass⟩ := class_iff.mp class_
  have wide : 2 ≤ c := by
    by_contra small
    have fits := isClass.fits
    have few : slots c ≤ 1 := by
      have cases_ : c = 0 ∨ c = 1 := by omega
      rcases cases_ with rfl | rfl <;> decide
    omega
  obtain ⟨d,rfl⟩ : ∃ d, c = d + 1 := ⟨c - 1,by omega⟩
  have less : (n + 1) * slotSize - slotSize = n * slotSize := by rw [Nat.succ_mul,Nat.add_sub_cancel]
  refine ⟨wide,?_⟩
  rw [less,Nat.add_sub_cancel,← slots_exact (Nat.le_of_succ_le inside)]
  split
  case isTrue above =>
    exact class_iff.mpr ⟨inside,isClass.remains slots_ascends (Nat.le_of_succ_le inside) (Nat.lt_of_mul_lt_mul_right above)⟩
  case isFalse room =>
    have room' : n ≤ slots d := Nat.le_of_mul_le_mul_right (Nat.not_lt.mp room) (by decide)
    exact class_iff.mpr ⟨Nat.le_of_succ_le inside,isClass.shrinks slots_ascends (Nat.le_of_succ_le inside) room'⟩

end

/-! ## The store -/

/-- Every block has the capacity of a class; those that are not used are on the list of that
    class, and what was released had been taken for the same class. -/
structure Sound (h : Store) (used : Nat → Prop) : Prop where
  made : ∀ b, used b → b < h.made
  class_ : ∀ b, b < h.made → ∃ c, 1 ≤ c ∧ c ≤ 42 ∧ h.cap b = blockSize c
  free : ∀ c, c ≤ 42 → ∃ free, Chain h.next (h.freeTbl c) free ∧ free.Nodup ∧
    ∀ b, b ∈ free ↔ b < h.made ∧ h.cap b = blockSize c ∧ ¬ used b
  taken : ∀ b, used b → ∃ c, .took b c ∈ h.log
  took : ∀ b c, .took b c ∈ h.log → b < h.made ∧ c ≤ 42 ∧ h.cap b = blockSize c
  gave : ∀ b c back, .gave b c :: back <:+ h.log → .took b c ∈ back

section
variable {h : Store} {used used' : Nat → Prop}

theorem Sound.congr (sound : Sound h used) (same : ∀ b, used' b ↔ used b) : Sound h used' := by
  have equal : used' = used := funext fun b => propext (same b)
  rw [equal]
  exact sound

theorem gave_took {entry : Entry} {log : List Entry} (kept : ∀ b c back, .gave b c :: back <:+ log → .took b c ∈ back)
    (fine : ∀ b c, entry = .gave b c → .took b c ∈ log) (b c : Nat) (back : List Entry) (suffix : .gave b c :: back <:+ entry :: log) :
    .took b c ∈ back := by
  rcases List.suffix_cons_iff.mp suffix with whole | inside
  · obtain ⟨first,rest⟩ := List.cons.inj whole
    rw [rest]
    exact fine b c first.symm
  · exact kept b c back inside

/-- A block is handed out for the capacity that the pool gave for it, and was not in use. -/
theorem alloc_spec (sound : Sound h used) {c : Nat} (positive : 1 ≤ c) (inside : c ≤ 42) :
    ∃ h' b, acSAlloc h c = some (h',b) ∧ ¬ used b ∧ h'.cap b = blockSize c ∧ (∀ x, used x → h'.cap x = h.cap x) ∧
      Sound h' fun x => x = b ∨ used x := by
  rw [acSAlloc,if_neg (Nat.not_lt.mpr inside)]
  obtain ⟨free,chain,nodup,listed⟩ := sound.free c inside
  cases first : h.freeTbl c with
  | none =>
    have fresh : ¬ used h.made := fun old => Nat.lt_irrefl _ (sound.made _ old)
    have kept : ∀ x, x < h.made → Function.update h.cap h.made (blockSize c) x = h.cap x :=
      fun x less => Function.update_of_ne (Nat.ne_of_lt less) _ _
    have own : Function.update h.cap h.made (blockSize c) h.made = blockSize c := Function.update_self ..
    have nothing : free = [] := by
      rw [first] at chain
      cases free with
      | nil => rfl
      | cons b free => exact absurd chain.1.symm (Option.some_ne_none b)
    refine ⟨_,_,rfl,fresh,own,fun x old => kept x (sound.made x old),?_⟩
    refine ⟨?_,?_,?_,?_,?_,?_⟩
    · rintro x (rfl | old)
      · exact Nat.lt_succ_self _
      · exact Nat.lt_succ_of_lt (sound.made x old)
    · intro x less
      rcases Nat.lt_or_eq_of_le (Nat.le_of_lt_succ less) with before | rfl
      · simp only [kept x before]
        exact sound.class_ x before
      · exact ⟨c,positive,inside,own⟩
    · intro d insideD
      obtain ⟨list,chain',nodup',listed'⟩ := sound.free d insideD
      refine ⟨list,chain',nodup',fun x => ?_⟩
      rw [listed' x]
      constructor
      · rintro ⟨less,size,idle⟩
        refine ⟨Nat.lt_succ_of_lt less,(kept x less).trans size,?_⟩
        rintro (rfl | old)
        · exact Nat.lt_irrefl _ less
        · exact idle old
      · rintro ⟨less,size,idle⟩
        rw [not_or] at idle
        have before : x < h.made := by
          have other := idle.1
          simp only at less
          omega
        exact ⟨before,(kept x before).symm.trans size,idle.2⟩
    · rintro x (rfl | old)
      · exact ⟨c,List.mem_cons_self⟩
      · obtain ⟨d,took⟩ := sound.taken x old
        exact ⟨d,List.mem_cons_of_mem _ took⟩
    · intro x d took
      rcases List.mem_cons.mp took with same | old
      · cases same
        exact ⟨Nat.lt_succ_self _,inside,own⟩
      · obtain ⟨less,insideD,size⟩ := sound.took x d old
        exact ⟨Nat.lt_succ_of_lt less,insideD,(kept x less).trans size⟩
    · exact gave_took sound.gave fun x d same => Entry.noConfusion same
  | some fn =>
    rw [first] at chain
    obtain ⟨rest,whole,later⟩ := chain.pop
    subst whole
    obtain ⟨less,size,idle⟩ := (listed fn).mp List.mem_cons_self
    have split := List.nodup_cons.mp nodup
    refine ⟨_,_,rfl,idle,size,fun _ _ => rfl,?_⟩
    refine ⟨?_,sound.class_,?_,?_,?_,?_⟩
    · rintro x (rfl | old)
      · exact less
      · exact sound.made x old
    · intro d insideD
      by_cases same : d = c
      · subst same
        refine ⟨rest,?_,split.2,fun x => ?_⟩
        · simp only [Function.update_self]
          exact later
        · constructor
          · intro member
            obtain ⟨lessX,sizeX,idleX⟩ := (listed x).mp (List.mem_cons_of_mem _ member)
            refine ⟨lessX,sizeX,?_⟩
            rintro (rfl | old)
            · exact split.1 member
            · exact idleX old
          · rintro ⟨lessX,sizeX,idleX⟩
            rw [not_or] at idleX
            exact (List.mem_cons.mp ((listed x).mpr ⟨lessX,sizeX,idleX.2⟩)).resolve_left idleX.1
      · obtain ⟨list,chain',nodup',listed'⟩ := sound.free d insideD
        refine ⟨list,?_,nodup',fun x => ?_⟩
        · simp only [Function.update_of_ne same]
          exact chain'
        · rw [listed' x]
          refine and_congr_right fun lessX => and_congr_right fun sizeX => not_congr ?_
          constructor
          · exact .inr
          · rintro (rfl | old)
            · exact absurd (class_inj insideD inside (sizeX.symm.trans size)) same
            · exact old
    · rintro x (rfl | old)
      · exact ⟨c,List.mem_cons_self⟩
      · obtain ⟨d,took⟩ := sound.taken x old
        exact ⟨d,List.mem_cons_of_mem _ took⟩
    · intro x d took
      rcases List.mem_cons.mp took with same | old
      · cases same
        exact ⟨less,inside,size⟩
      · exact sound.took x d old
    · exact gave_took sound.gave fun x d same => Entry.noConfusion same

/-- A block that is released with a size of its class goes on the list it was taken for. -/
theorem release_spec (sound : Sound h used) {b c size : Nat} (use : used b) (class_ : getBlockId (size % 2 ^ 32) = some c)
    (cap : h.cap b = blockSize c) :
    ∃ h', acSRelease h b size = some h' ∧ h'.cap = h.cap ∧ Sound h' fun x => x ≠ b ∧ used x := by
  have inside : c ≤ 42 := (getBlockId_iff.mp class_).1
  have less := sound.made b use
  have wide : ¬ h.cap b < 8 := by
    obtain ⟨d,positive,insideD,size'⟩ := sound.class_ b less
    rw [size']
    exact class_wide positive insideD
  have taken : .took b c ∈ h.log := by
    obtain ⟨d,took⟩ := sound.taken b use
    obtain ⟨-,insideD,size'⟩ := sound.took b d took
    rw [← class_inj insideD inside (size'.symm.trans cap)]
    exact took
  rw [acSRelease,class_]
  simp only [if_neg wide]
  refine ⟨_,rfl,rfl,?_⟩
  refine ⟨fun x old => sound.made x old.2,sound.class_,?_,?_,?_,?_⟩
  · intro d insideD
    obtain ⟨list,chain,nodup,listed⟩ := sound.free d insideD
    have outside : b ∉ list := fun member => ((listed b).mp member).2.2 use
    by_cases same : d = c
    · subst same
      refine ⟨b :: list,?_,List.nodup_cons.mpr ⟨outside,nodup⟩,fun x => ?_⟩
      · simp only [Function.update_self]
        exact chain.push outside
      · rw [List.mem_cons,listed x]
        constructor
        · rintro (rfl | ⟨lessX,sizeX,idle⟩)
          · exact ⟨less,cap,fun both => both.1 rfl⟩
          · exact ⟨lessX,sizeX,fun both => idle both.2⟩
        · rintro ⟨lessX,sizeX,idle⟩
          by_cases own : x = b
          · exact .inl own
          · exact .inr ⟨lessX,sizeX,fun old => idle ⟨own,old⟩⟩
    · refine ⟨list,?_,nodup,fun x => ?_⟩
      · simp only [Function.update_of_ne same]
        refine chain.frame fun x member => Function.update_of_ne ?_ _ _
        rintro rfl
        exact outside member
      · rw [listed x]
        refine and_congr_right fun lessX => and_congr_right fun sizeX => not_congr ?_
        refine ⟨fun old => ⟨?_,old⟩,fun both => both.2⟩
        rintro rfl
        exact same (class_inj insideD inside (sizeX.symm.trans cap))
  · intro x old
    obtain ⟨d,took⟩ := sound.taken x old.2
    exact ⟨d,List.mem_cons_of_mem _ took⟩
  · intro x d took
    rcases List.mem_cons.mp took with same | old
    · exact Entry.noConfusion same
    · exact sound.took x d old
  · refine gave_took sound.gave fun x d same => ?_
    cases same
    exact taken

/-! ## The array of a term -/

/-- The array stands in a block of the class of its groups; without groups there is none. -/
def Occupies (h : Store) (t : Groups) : Prop :=
  t.numGroups = 0 ∧ t.groups = none ∨
    0 < t.numGroups ∧ ∃ b c, t.groups = some b ∧ getBlockId (t.numGroups * slotSize) = some c ∧ h.cap b = blockSize c

theorem Occupies.frame {h' : Store} {t : Groups} (occupies : Occupies h t) (same : ∀ b, t.groups = some b → h'.cap b = h.cap b) : Occupies h' t := by
  rcases occupies with none_ | ⟨some_,b,c,groups,class_,cap⟩
  · exact .inl none_
  · exact .inr ⟨some_,b,c,groups,class_,(same b groups).trans cap⟩

/-- The blocks that are used when one array takes the place of another. -/
def swap (used : Nat → Prop) (old new : Option Nat) (b : Nat) : Prop := new = some b ∨ used b ∧ old ≠ some b

theorem holds_of_class {block num c : Nat} (class_ : getBlockId (num * slotSize) = some c) (cap : h.cap block = blockSize c) :
    holds h (some block) num = true := by
  have fits := (getBlockId_iff.mp class_).2.1
  rw [← cap] at fits
  simp [holds,fits]

/-- `get_add_block` hands out a block of the next class when the class changes, and none when it
    does not. -/
theorem getAddBlock_spec (sound : Sound h used) {n c : Nat} (class_ : getBlockId (n * slotSize) = some c) (fits : (n + 1) * slotSize ≤ maxSize) :
    (getAddBlock h n = some (h,none) ∧ getBlockId ((n + 1) * slotSize) = some c ∧ n * slotSize + slotSize ≤ blockSize c) ∨
      getBlockId ((n + 1) * slotSize) = some (c + 1) ∧ ∃ h' b, getAddBlock h n = some (h',some b) ∧ ¬ used b ∧
        h'.cap b = blockSize (c + 1) ∧ (∀ x, used x → h'.cap x = h.cap x) ∧ Sound h' fun x => x = b ∨ used x := by
  have grown := class_grows class_ fits
  have small : n * slotSize ≤ maxSize := Nat.le_trans (Nat.mul_le_mul_right _ (Nat.le_succ n)) fits
  rw [getAddBlock,size_fits small,class_]
  by_cases room : n * slotSize + slotSize ≤ blockSize c
  · rw [if_pos room] at grown
    exact .inl ⟨if_pos room,grown,room⟩
  · rw [if_neg room] at grown
    obtain ⟨h',b,allocated,idle,cap,same,sound'⟩ := alloc_spec sound (Nat.succ_le_succ (Nat.zero_le c)) grown.1
    refine .inr ⟨grown.2,h',b,?_,idle,cap,same,sound'⟩
    simp only [if_neg room,allocated,Option.map_some]

theorem getRemoveBlock_spec (sound : Sound h used) {n c : Nat} (class_ : getBlockId ((n + 1) * slotSize) = some c) (several : 1 ≤ n) :
    (getRemoveBlock h (n + 1) = some (h,none) ∧ getBlockId (n * slotSize) = some c) ∨
      getBlockId (n * slotSize) = some (c - 1) ∧ c - 1 ≠ c ∧ ∃ h' b, getRemoveBlock h (n + 1) = some (h',some b) ∧ ¬ used b ∧
        h'.cap b = blockSize (c - 1) ∧ (∀ x, used x → h'.cap x = h.cap x) ∧ Sound h' fun x => x = b ∨ used x := by
  obtain ⟨wide,shrunk⟩ := class_shrinks class_ several
  obtain ⟨inside,fits,-⟩ := getBlockId_iff.mp class_
  have small := Nat.le_trans fits (blockSize_le c)
  rw [getRemoveBlock,size_fits small,class_]
  by_cases above : (n + 1) * slotSize - slotSize > blockSize (c - 1)
  · rw [if_pos above] at shrunk
    exact .inl ⟨if_pos above,shrunk⟩
  · rw [if_neg above] at shrunk
    obtain ⟨h',b,allocated,idle,cap,same,sound'⟩ := alloc_spec sound (by omega : 1 ≤ c - 1) (by omega)
    refine .inr ⟨shrunk,by omega,h',b,?_,idle,cap,same,sound'⟩
    simp only [if_neg above,allocated,Option.map_some]

/-- What an insertion or a removal leaves: an array of so many groups in a block of their class,
    which is the old one or was not in use. -/
structure Replaced (h : Store) (used : Nat → Prop) (t : Groups) (num : Nat) (h' : Store) (t' : Groups) : Prop where
  number : t'.numGroups = num
  occupies : Occupies h' t'
  sound : Sound h' (swap used t.groups t'.groups)
  kept : ∀ x, used x → h'.cap x = h.cap x
  fresh : ∀ b, t'.groups = some b → t.groups ≠ some b → ¬ used b

variable {t : Groups}

/-- The array stays in its block. -/
theorem replaced_same (sound : Sound h used) (use : ∀ b, t.groups = some b → used b) {num : Nat} (occupies : Occupies h ⟨t.groups,num⟩) :
    Replaced h used t num h ⟨t.groups,num⟩ := by
  refine ⟨rfl,occupies,sound.congr fun x => ?_,fun _ _ => rfl,fun b new old => absurd new old⟩
  constructor
  · rintro (new | old)
    · exact use x new
    · exact old.1
  · intro old
    by_cases own : t.groups = some x
    · exact .inl own
    · exact .inr ⟨old,own⟩

/-- The array moves to a block that was handed out, and its old block is released. -/
theorem replaced_moved {h₁ h₂ : Store} {b old : Nat} (idle : ¬ used b) (same : ∀ x, used x → h₁.cap x = h.cap x) (own : t.groups = some old)
    (sound : Sound h₂ fun x => x ≠ old ∧ (x = b ∨ used x)) (cap : h₂.cap = h₁.cap) (use : used old) {num : Nat}
    (occupies : Occupies h₂ ⟨some b,num⟩) : Replaced h used t num h₂ ⟨some b,num⟩ := by
  refine ⟨rfl,occupies,sound.congr fun x => ?_,fun x old => (congrFun cap x).trans (same x old),fun x new _ => ?_⟩
  · simp only [swap,own,Option.some.injEq,ne_eq]
    constructor
    · rintro (rfl | ⟨inUse,other⟩)
      · refine ⟨?_,.inl rfl⟩
        rintro rfl
        exact idle use
      · exact ⟨fun same => other same.symm,.inr inUse⟩
    · rintro ⟨other,rfl | inUse⟩
      · exact .inl rfl
      · exact .inr ⟨inUse,fun same => other same.symm⟩
  · cases new
    exact idle

theorem insertGroup_spec (sound : Sound h used) (use : ∀ b, t.groups = some b → used b) (occupies : Occupies h t)
    (fits : (t.numGroups + 1) * slotSize ≤ maxSize) :
    ∃ h' t', insertGroup h t = some (h',t') ∧ Replaced h used t (t.numGroups + 1) h' t' := by
  rcases occupies with ⟨zero,none_⟩ | ⟨some_,old,c,own,class_,cap⟩
  · have class_ : getBlockId (t.numGroups * slotSize) = some 0 := by
      rw [zero]
      rfl
    rcases getAddBlock_spec sound class_ fits with ⟨-,-,room⟩ | ⟨class',h',b,added,idle,cap,same,sound'⟩
    · rw [zero] at room
      exact absurd room (by decide)
    · have whole : holds h' (some b) (t.numGroups + 1) = true := holds_of_class class' cap
      have nothing : holds h' t.groups t.numGroups = true := by simp [holds,zero]
      have single : ¬ t.numGroups + 1 > 1 := by omega
      refine ⟨h',⟨some b,t.numGroups + 1⟩,?_,rfl,.inr ⟨Nat.succ_pos _,b,_,rfl,class',cap⟩,?_,same,?_⟩
      · simp only [insertGroup,added,Option.bind_eq_bind,Option.bind_some,whole,nothing,Bool.and_self,if_true,if_neg single]
      · refine sound'.congr fun x => ?_
        simp only [swap,none_,Option.some.injEq,eq_comm,ne_eq,reduceCtorEq,not_false_eq_true,and_true]
      · intro x new _
        cases new
        exact idle
  · have inUse := use old own
    rcases getAddBlock_spec sound class_ fits with ⟨added,class',-⟩ | ⟨class',h',b,added,idle,cap',same,sound'⟩
    · have whole : holds h t.groups (t.numGroups + 1) = true := by
        rw [own]
        exact holds_of_class class' cap
      refine ⟨h,⟨t.groups,t.numGroups + 1⟩,?_,replaced_same sound use (.inr ⟨Nat.succ_pos _,old,c,own,class',cap⟩)⟩
      simp only [insertGroup,added,Option.bind_eq_bind,Option.bind_some,whole,if_true]
    · have whole : holds h' (some b) (t.numGroups + 1) = true := holds_of_class class' cap'
      have cap'' : h'.cap old = blockSize c := (same old inUse).trans cap
      have read : holds h' (some old) t.numGroups = true := holds_of_class class_ cap''
      have several : t.numGroups + 1 > 1 := Nat.succ_lt_succ some_
      have small := Nat.le_trans (Nat.mul_le_mul_right slotSize (Nat.le_succ t.numGroups)) fits
      have class'' : getBlockId (t.numGroups * slotSize % 2 ^ 32) = some c := by rw [size_fits small,class_]
      obtain ⟨h₂,released,caps,sound₂⟩ := release_spec sound' (.inr inUse) class'' cap''
      have moved : Occupies h₂ ⟨some b,t.numGroups + 1⟩ := .inr ⟨Nat.succ_pos _,b,_,rfl,class',(congrFun caps b).trans cap'⟩
      refine ⟨h₂,⟨some b,t.numGroups + 1⟩,?_,replaced_moved idle same own sound₂ caps inUse moved⟩
      simp only [insertGroup,added,Option.bind_eq_bind,Option.bind_some,whole,read,Bool.and_self,if_true,if_pos several,own,
        Nat.add_sub_cancel,acSReleaseGroup,released]

theorem removeGroup_spec (sound : Sound h used) (use : ∀ b, t.groups = some b → used b) (occupies : Occupies h t) (some_ : t.numGroups ≠ 0) :
    ∃ h' t', removeGroup h t = some (h',t') ∧ Replaced h used t (t.numGroups - 1) h' t' := by
  rcases occupies with ⟨zero,none_⟩ | ⟨-,old,c,own,class_,cap⟩
  · exact absurd zero some_
  have inUse := use old own
  obtain ⟨n,number⟩ : ∃ n, t.numGroups = n + 1 := ⟨t.numGroups - 1,by omega⟩
  obtain ⟨inside,fits,-⟩ := getBlockId_iff.mp class_
  have small := Nat.le_trans fits (blockSize_le c)
  rw [number] at class_ small ⊢
  rw [Nat.add_sub_cancel]
  by_cases one : n = 0
  · subst one
    have class' : getBlockId (1 * slotSize % 2 ^ 32) = some c := by
      rw [size_fits small]
      exact class_
    obtain ⟨h',released,caps,sound'⟩ := release_spec sound inUse class' cap
    refine ⟨h',⟨none,0⟩,?_,rfl,.inl ⟨rfl,rfl⟩,?_,fun x _ => congrFun caps x,fun b new => absurd new (Option.some_ne_none b).symm⟩
    · simp only [removeGroup,number,if_true,own,acSReleaseGroup,released,Option.bind_eq_bind,Option.bind_some]
    · refine sound'.congr fun x => ?_
      simp only [swap,own,reduceCtorEq,false_or,ne_eq,Option.some.injEq,eq_comm,and_comm]
  · have several : 1 ≤ n := Nat.one_le_iff_ne_zero.mpr one
    have other : ¬ n + 1 = 1 := by omega
    rcases getRemoveBlock_spec sound class_ several with ⟨removed,class'⟩ | ⟨class',-,h',b,removed,idle,cap',same,sound'⟩
    · have read : holds h t.groups (n + 1) = true := by
        rw [own]
        exact holds_of_class class_ cap
      refine ⟨h,⟨t.groups,n⟩,?_,replaced_same sound use (.inr ⟨several,old,c,own,class',cap⟩)⟩
      simp only [removeGroup,number,if_neg other,removed,Option.bind_eq_bind,Option.bind_some,read,if_true,Nat.add_sub_cancel]
    · have whole : holds h' (some b) n = true := holds_of_class class' cap'
      have cap'' : h'.cap old = blockSize c := (same old inUse).trans cap
      have read : holds h' (some old) (n + 1) = true := holds_of_class class_ cap''
      have class'' : getBlockId ((n + 1) * slotSize % 2 ^ 32) = some c := by rw [size_fits small,class_]
      obtain ⟨h₂,released,caps,sound₂⟩ := release_spec sound' (.inr inUse) class'' cap''
      have moved : Occupies h₂ ⟨some b,n⟩ := .inr ⟨several,b,_,rfl,class',(congrFun caps b).trans cap'⟩
      refine ⟨h₂,⟨some b,n⟩,?_,replaced_moved idle same own sound₂ caps inUse moved⟩
      simp only [removeGroup,number,if_neg other,removed,Option.bind_eq_bind,Option.bind_some,whole,read,Bool.and_self,if_true,own,
        Nat.add_sub_cancel,acSReleaseGroup,released]

end

/-! ## Every history -/

def State.uses (s : State) (b : Nat) : Prop := (∃ i, (s.terms i).groups = some b) ∨ b ∈ s.others

/-- What holds of a state: each array has a block of its class for itself, and the blocks that
    nothing uses are on the lists of their classes. -/
structure Inv (s : State) : Prop where
  sound : Sound s.store s.uses
  occupies : ∀ i, Occupies s.store (s.terms i)
  apart : ∀ i j b, (s.terms i).groups = some b → (s.terms j).groups = some b → i = j
  alone : ∀ i b, (s.terms i).groups = some b → b ∉ s.others
  nodup : s.others.Nodup

theorem start_inv : Inv start := by
  have unused : ∀ b, ¬ start.uses b := by
    rintro b (⟨i,own⟩ | member)
    · exact absurd own.symm (Option.some_ne_none b)
    · exact List.not_mem_nil member
  refine ⟨⟨fun b use => absurd use (unused b),fun b less => absurd less (Nat.not_lt_zero b),?_,fun b use => absurd use (unused b),?_,?_⟩,
    fun i => .inl ⟨rfl,rfl⟩,?_,?_,List.nodup_nil⟩
  · intro c inside
    exact ⟨[],rfl,List.nodup_nil,fun b => ⟨fun member => absurd member List.not_mem_nil,fun both => absurd both.1 (Nat.not_lt_zero b)⟩⟩
  · exact fun b c took => absurd took List.not_mem_nil
  · exact fun b c back suffix => absurd (List.suffix_nil.mp suffix) (List.cons_ne_nil _ _)
  · exact fun i j b own => absurd own.symm (Option.some_ne_none b)
  · exact fun i b own => absurd own.symm (Option.some_ne_none b)

section
variable {s s' : State}

/-- An array takes the place of another. -/
theorem put_inv (inv : Inv s) {i num : Nat} {h' : Store} {t' : Groups} (replaced : Replaced s.store s.uses (s.terms i) num h' t') :
    Inv (s.put i (h',t')) := by
  have mine : (s.put i (h',t')).terms i = t' := Function.update_self ..
  have other : ∀ j, j ≠ i → (s.put i (h',t')).terms j = s.terms j := fun j differ => Function.update_of_ne differ _ _
  have used : ∀ j b, (s.terms j).groups = some b → s.uses b := fun j b own => .inl ⟨j,own⟩
  -- a block of the new array that another user has would be the old block, which is the term's own
  have private_ : ∀ b, t'.groups = some b → (∀ j, j ≠ i → (s.terms j).groups ≠ some b) ∧ b ∉ s.others := by
    intro b new
    by_cases old : (s.terms i).groups = some b
    · exact ⟨fun j differ own => differ (inv.apart j i b own old),inv.alone i b old⟩
    · have idle := replaced.fresh b new old
      exact ⟨fun j differ own => idle (used j b own),fun member => idle (.inr member)⟩
  refine ⟨replaced.sound.congr fun b => ?_,fun j => ?_,?_,?_,inv.nodup⟩
  · constructor
    · rintro (⟨j,own⟩ | member)
      · by_cases same : j = i
        · rw [same,mine] at own
          exact .inl own
        · rw [other j same] at own
          exact .inr ⟨used j b own,fun old => same (inv.apart j i b own old)⟩
      · exact .inr ⟨.inr member,fun old => inv.alone i b old member⟩
    · rintro (new | ⟨⟨j,own⟩ | member,differ⟩)
      · exact .inl ⟨i,by rw [mine]; exact new⟩
      · have apart : j ≠ i := by
          rintro rfl
          exact differ own
        exact .inl ⟨j,by rw [other j apart]; exact own⟩
      · exact .inr member
  · by_cases same : j = i
    · rw [same,mine]
      exact replaced.occupies
    · rw [other j same]
      exact (inv.occupies j).frame fun b own => replaced.kept b (used j b own)
  · intro j k b first second
    by_cases sameJ : j = i
    · by_cases sameK : k = i
      · exact sameJ.trans sameK.symm
      · rw [sameJ,mine] at first
        rw [other k sameK] at second
        exact absurd second ((private_ b first).1 k sameK)
    · rw [other j sameJ] at first
      by_cases sameK : k = i
      · rw [sameK,mine] at second
        exact absurd first ((private_ b second).1 j sameJ)
      · rw [other k sameK] at second
        exact inv.apart j k b first second
  · intro j b own
    by_cases same : j = i
    · rw [same,mine] at own
      exact (private_ b own).2
    · rw [other j same] at own
      exact inv.alone j b own

/-- What one event does to the number of groups of a term. -/
def counted (s : State) (i : Nat) : Event → Nat
  | .insert j => if j = i then (s.terms i).numGroups + 1 else (s.terms i).numGroups
  | .remove j => if j = i then (s.terms i).numGroups - 1 else (s.terms i).numGroups
  | _ => (s.terms i).numGroups

theorem put_number {i num : Nat} {h' : Store} {t' : Groups} (number : t'.numGroups = num) (j : Nat) :
    ((s.put i (h',t')).terms j).numGroups = if i = j then num else (s.terms j).numGroups := by
  by_cases same : i = j
  · subst same
    rw [if_pos rfl,← number]
    exact congrArg Groups.numGroups (Function.update_self ..)
  · rw [if_neg same]
    exact congrArg Groups.numGroups (Function.update_of_ne (fun equal => same equal.symm) _ _)

/-- Every event that may happen does, and keeps the invariant. -/
theorem step_inv (inv : Inv s) {e : Event} (legal : Legal s e) :
    ∃ s', step s e = some s' ∧ Inv s' ∧ ∀ i, (s'.terms i).numGroups = counted s i e := by
  cases e with
  | insert i =>
    obtain ⟨h',t',inserted,replaced⟩ := insertGroup_spec inv.sound (fun b own => .inl ⟨i,own⟩) (inv.occupies i) legal
    refine ⟨s.put i (h',t'),by rw [step,inserted]; rfl,put_inv inv replaced,fun j => ?_⟩
    rw [put_number replaced.number j,counted]
    by_cases same : i = j
    · rw [if_pos same,if_pos same,same]
    · rw [if_neg same,if_neg same]
  | remove i =>
    obtain ⟨h',t',removed,replaced⟩ := removeGroup_spec inv.sound (fun b own => .inl ⟨i,own⟩) (inv.occupies i) legal
    refine ⟨s.put i (h',t'),by rw [step,removed]; rfl,put_inv inv replaced,fun j => ?_⟩
    rw [put_number replaced.number j,counted]
    by_cases same : i = j
    · rw [if_pos same,if_pos same,same]
    · rw [if_neg same,if_neg same]
  | take c =>
    obtain ⟨h',b,allocated,idle,cap,same,sound'⟩ := alloc_spec inv.sound legal.1 legal.2
    have used : ∀ j x, (s.terms j).groups = some x → s.uses x := fun j x own => .inl ⟨j,own⟩
    refine ⟨{ s with store := h', others := b :: s.others },by rw [step,allocated]; rfl,?_,fun j => rfl⟩
    refine ⟨sound'.congr fun x => ?_,fun j => (inv.occupies j).frame fun x own => same x (used j x own),inv.apart,?_,?_⟩
    · constructor
      · rintro (own | member)
        · exact .inr (.inl own)
        · exact (List.mem_cons.mp member).imp_right .inr
      · rintro (rfl | own | member)
        · exact .inr List.mem_cons_self
        · exact .inl own
        · exact .inr (List.mem_cons_of_mem _ member)
    · intro j x own member
      rcases List.mem_cons.mp member with rfl | old
      · exact idle (used j x own)
      · exact inv.alone j x own old
    · exact List.nodup_cons.mpr ⟨fun member => idle (.inr member),inv.nodup⟩
  | give b size =>
    obtain ⟨member,c,class_,cap⟩ := legal
    obtain ⟨h',released,caps,sound'⟩ := release_spec inv.sound (.inr member) class_ cap
    refine ⟨{ s with store := h', others := s.others.erase b },by rw [step,released]; rfl,?_,fun j => rfl⟩
    refine ⟨sound'.congr fun x => ?_,fun j => (inv.occupies j).frame fun x _ => congrFun caps x,inv.apart,?_,inv.nodup.erase b⟩
    · constructor
      · rintro (⟨j,own⟩ | kept)
        · refine ⟨?_,.inl ⟨j,own⟩⟩
          rintro rfl
          exact inv.alone j x own member
        · have both := inv.nodup.mem_erase_iff.mp kept
          exact ⟨both.1,.inr both.2⟩
      · rintro ⟨differ,own | old⟩
        · exact .inl own
        · exact .inr (inv.nodup.mem_erase_iff.mpr ⟨differ,old⟩)
    · exact fun j x own kept => inv.alone j x own (List.mem_of_mem_erase kept)

theorem Reached.inv (reached : Reached s) : Inv s := by
  induction reached with
  | start => exact start_inv
  | step reached legal stepped ih =>
    obtain ⟨s₂,stepped',inv,-⟩ := step_inv ih legal
    rw [stepped] at stepped'
    cases stepped'
    exact inv

end

/-- The blocks are handed out and released as their classes have it. -/
structure Consistent (s : State) : Prop where
  /-- An array occupies a block of the class of its groups, which holds them. -/
  occupied : ∀ i, (s.terms i).numGroups ≠ 0 → ∃ b c, (s.terms i).groups = some b ∧
    getBlockId ((s.terms i).numGroups * slotSize) = some c ∧ s.store.cap b = blockSize c ∧ (s.terms i).numGroups * slotSize ≤ s.store.cap b
  none_ : ∀ i, (s.terms i).numGroups = 0 → (s.terms i).groups = none
  /-- No block is used twice. -/
  apart : ∀ i j b, (s.terms i).groups = some b → (s.terms j).groups = some b → i = j
  /-- A block is handed out for the capacity it was made with. -/
  took : ∀ b c, .took b c ∈ s.store.log → s.store.cap b = blockSize c
  /-- A release goes to the class for which the block was handed out before. -/
  gave : ∀ b c back, .gave b c :: back <:+ s.store.log → .took b c ∈ back ∧ s.store.cap b = blockSize c

/-- A new block is handed out for one more and one less group exactly when the class changes. -/
structure HandsOut (h : Store) (n : Nat) : Prop where
  add : (n + 1) * slotSize ≤ maxSize → ∃ h' newBlock, getAddBlock h n = some (h',newBlock) ∧
    (newBlock ≠ none ↔ getBlockId ((n + 1) * slotSize) ≠ getBlockId (n * slotSize))
  remove : 2 ≤ n → n * slotSize ≤ maxSize → ∃ h' newBlock, getRemoveBlock h n = some (h',newBlock) ∧
    (newBlock ≠ none ↔ getBlockId ((n - 1) * slotSize) ≠ getBlockId (n * slotSize))

theorem Inv.consistent {s : State} (inv : Inv s) : Consistent s := by
  refine ⟨fun i some_ => ?_,fun i zero => ?_,inv.apart,fun b c took => (inv.sound.took b c took).2.2,fun b c back suffix => ?_⟩
  · rcases inv.occupies i with ⟨zero,-⟩ | ⟨-,b,c,own,class_,cap⟩
    · exact absurd zero some_
    · refine ⟨b,c,own,class_,cap,?_⟩
      rw [cap]
      exact (getBlockId_iff.mp class_).2.1
  · rcases inv.occupies i with ⟨-,none_⟩ | ⟨some_,-⟩
    · exact none_
    · omega
  · have taken := inv.sound.gave b c back suffix
    exact ⟨taken,(inv.sound.took b c (suffix.subset (List.mem_cons_of_mem _ taken))).2.2⟩

theorem Inv.handsOut {s : State} (inv : Inv s) (n : Nat) : HandsOut s.store n := by
  constructor
  · intro fits
    obtain ⟨c,class_⟩ := getBlockId_some (Nat.le_trans (Nat.mul_le_mul_right slotSize (Nat.le_succ n)) fits)
    rcases getAddBlock_spec inv.sound class_ fits with ⟨added,class',-⟩ | ⟨class',h',b,added,-⟩
    · exact ⟨_,_,added,iff_of_false (fun absent => absent rfl) (by rw [class',class_]; exact fun differ => differ rfl)⟩
    · refine ⟨_,_,added,iff_of_true (Option.some_ne_none b) ?_⟩
      rw [class',class_]
      exact fun same => Nat.succ_ne_self c (Option.some.inj same)
  · intro several fits
    obtain ⟨n,rfl⟩ : ∃ m, n = m + 1 := ⟨n - 1,by omega⟩
    obtain ⟨c,class_⟩ := getBlockId_some fits
    rw [Nat.add_sub_cancel]
    rcases getRemoveBlock_spec inv.sound class_ (by omega) with ⟨removed,class'⟩ | ⟨class',differ,h',b,removed,-⟩
    · exact ⟨_,_,removed,iff_of_false (fun absent => absent rfl) (by rw [class',class_]; exact fun differ => differ rfl)⟩
    · refine ⟨_,_,removed,iff_of_true (Option.some_ne_none b) ?_⟩
      rw [class',class_]
      exact fun same => differ (Option.some.inj same)

/-- `get_block_id` is the least class that is large enough, and in every history of the arrays of
    terms the classes that are computed again are the ones that the blocks were made with. -/
theorem classes_consistent :
    (∀ size, size ≤ maxSize → ∃ c, getBlockId size = some c ∧ IsClass blockSize size c) ∧
      ∀ s, Reached s → Consistent s ∧ (∀ n, HandsOut s.store n) ∧
        ∀ e, Legal s e → ∃ s', step s e = some s' ∧ ∀ i, (s'.terms i).numGroups = counted s i e := by
  refine ⟨fun size fits => ?_,fun s reached => ?_⟩
  · obtain ⟨c,class_⟩ := getBlockId_some fits
    obtain ⟨inside,room,least⟩ := getBlockId_iff.mp class_
    refine ⟨c,class_,room,fun b less => ?_⟩
    rcases least with zero | above
    · exact absurd less (zero ▸ Nat.not_lt_zero b)
    · exact Nat.lt_of_le_of_lt (blockSize_mono (Nat.le_sub_one_of_lt less) (by omega)) above
  · have inv := reached.inv
    refine ⟨inv.consistent,inv.handsOut,fun e legal => ?_⟩
    obtain ⟨s',stepped,-,numbers⟩ := step_inv inv legal
    exact ⟨s',stepped,numbers⟩

/-- An insertion into a new term. -/
theorem classes_consistent_first : ∃ s, step start (.insert 0) = some s ∧ Consistent s ∧ (s.terms 0).numGroups = 1 := by
  have legal : Legal start (.insert 0) := by
    change (0 + 1) * slotSize ≤ maxSize
    decide
  obtain ⟨s,stepped,numbers⟩ := (classes_consistent.2 start .start).2.2 (.insert 0) legal
  exact ⟨s,stepped,(classes_consistent.2 s (.step .start legal stepped)).1,numbers 0⟩

end AnotherC.SizeClasses
