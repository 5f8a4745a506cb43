import AnotherC.Lib.Bytes
import AnotherC.Lib.Stream
import AnotherC.Io.InExt

/-!
# Groups of records: `ac_in_advance_group` and `ac_in_reset`

A group is copied into a buffer until `advance` answers a record that differs from the
first one, and `ac_in_reset` pushes that record back. What is pushed back stands behind
the function pointer `advance`, so there is room for one record only. The groups are a
partition of what `ac_in_advance` delivers (`grouping_partitions`) unless a reducer has
pushed a record of its own back, or the input goes on after its end.
-/
namespace AnotherC.Group
open AnotherC.Lib.Bytes
open AnotherC.Lib.Order (spanRun spanRun_same_cons spanRun_differs spanRun_length firstRuns firstRuns_cons Partitions)
open AnotherC.Lib.Stream (Drains)
open AnotherC.InExt (Reducer)
set_option linter.unusedVariables false

/-- `ac_io_record_t`; the length is a `uint32_t`. -/
@[ext] structure Record where
  tag : Int32
  record : List UInt8
  small : record.length < 2 ^ 32

instance : DecidableEq Record := fun _ _ => decidable_of_iff _ Record.ext_iff.symm

theorem empty_small : ([] : List UInt8).length < 2 ^ 32 := by decide

/-- The pointers `current` and `current_tmp`. -/
inductive Current
  | null
  | slot
deriving Repr, DecidableEq

/-- What the function pointers `advance`, `advance_tmp` and `count_advance` are. -/
inductive AdvanceCb
  /-- The advance of the kind of input: prefix, fixed, delimited, list, merge, ... -/
  | source
  | advanceReduced
  | reset
  | emptyRecord
  | countAndAdvance
deriving Repr, DecidableEq

/-- What a call of the advance of a kind answers. -/
inductive Answer
  | record (r : Record)
  /-- `NULL`. -/
  | ended
  /-- `NULL` after `_ac_in_empty`. -/
  | emptied
deriving DecidableEq

/-- `ac_in_t`. `slot` is the record that `current` leads to, and the next call of the
    kind's advance overwrites it. `answers` are what these calls will answer, after which
    they answer `NULL`. -/
structure In (ς : Type) where
  slot : Record
  current : Current
  numCurrent : Nat
  currentTmp : Current
  numCurrentTmp : Nat
  advance : AdvanceCb
  advanceTmp : AdvanceCb
  countAdvance : AdvanceCb
  limit : Nat
  recordNum : Nat
  answers : List Answer
  reducerArg : ς
deriving DecidableEq

/-- The compare and the reducer in the options of the input. -/
structure Options (ς : Type) where
  compare : Record → Record → Int
  reducer : Reducer Record ς

section
variable {ς : Type}

/-- An input that nothing was read from, opened with a reducer or without one. -/
def acInInit (reduced : Bool) (answers : List Answer) (arg : ς) : In ς where
  slot := ⟨0,[],empty_small⟩
  current := .null
  numCurrent := 0
  currentTmp := .null
  numCurrentTmp := 0
  advance := if reduced then .advanceReduced else .source
  advanceTmp := if reduced then .advanceReduced else .source
  countAdvance := .emptyRecord
  limit := 0
  recordNum := 0
  answers := answers
  reducerArg := arg

/-- `_ac_in_empty`. -/
def acInEmpty (h : In ς) : In ς :=
  { h with
    current := .null
    currentTmp := .null
    numCurrent := 0
    numCurrentTmp := 0
    advance := .emptyRecord
    advanceTmp := .emptyRecord }

/-- `ac_in_reset`. -/
def acInReset (h : In ς) : In ς :=
  match h.current with
  | .null => h
  | .slot =>
    { h with
      advance := .reset
      currentTmp := h.current
      current := .null
      numCurrentTmp := h.numCurrent
      numCurrent := 0 }

def postReset (h : In ς) : In ς :=
  { h with
    current := h.currentTmp
    numCurrent := h.numCurrentTmp
    currentTmp := .null
    numCurrentTmp := 0
    advance := h.advanceTmp }

/-- The record that a pointer leads to. -/
def deref (h : In ς) : Current → Option Record
  | .null => none
  | .slot => some h.slot

/-- `ac_in_limit`. -/
def acInLimit (h : In ς) (limit : Nat) : In ς :=
  { h with
    limit := limit
    countAdvance := h.advance
    advance := .countAndAdvance
    advanceTmp := .countAndAdvance }

/-- The advance of the kind of input, `sub_advance` under a reducer. -/
def subAdvance (h : In ς) : Option Record × In ς :=
  match h.answers with
  | [] => (none,{ h with current := .null, numCurrent := 0 })
  | .ended :: answers => (none,{ h with current := .null, numCurrent := 0, answers := answers })
  | .emptied :: answers => (none,acInEmpty { h with answers := answers })
  | .record r :: answers => (some r,{ h with slot := r, current := .slot, numCurrent := 1, answers := answers })

/-! ### The copy of a group -/

/-- A record in the buffer: length, tag, bytes and a zero. -/
def pack (r : Record) : List UInt8 := bytes 4 r.record.length ++ bytes 4 r.tag.toUInt32.toNat ++ r.record ++ [0]

/-- The records in the buffer. -/
def unpack (ptr : List UInt8) : List Record :=
  if more : ptr = [] then []
  else
    ⟨(UInt32.ofNat (number ((ptr.drop 4).take 4))).toInt32,(ptr.drop 8).take (number (ptr.take 4)),by
      have below := number_lt (ptr.take 4)
      have width : 256 ^ (ptr.take 4).length ≤ 256 ^ 4 :=
        Nat.pow_le_pow_right (by decide) (List.length_take_le 4 ptr)
      rw [List.length_take]
      omega⟩ :: unpack (ptr.drop (8 + number (ptr.take 4) + 1))
termination_by ptr.length
decreasing_by
  have := List.length_pos_iff.mpr more
  rw [List.length_drop]
  omega

/-- `r1`: a copy of the first record, whose bytes are those in the buffer. -/
def firstIn (first : Record) (bh : List UInt8) : Record :=
  ⟨first.tag,(bh.drop 8).take first.record.length,Nat.lt_of_le_of_lt (List.length_take_le _ _) first.small⟩

/-- What the calls can still deliver. -/
def weight (h : In ς) : Nat := 2 * h.answers.length + if h.currentTmp = .slot then 1 else 0

/-- A call that delivers a record leaves less. -/
def Shrinks (next : In ς → Option Record × In ς) : Prop := ∀ h r h', next h = (some r,h') → weight h' < weight h

/-- The loop of `ac_in_advance_group`, and of `advance_reduced`: records equal to `first`
    are appended to the buffer, and the first other one is pushed back. -/
def gather (next : In ς → Option Record × In ς) (shrinks : Shrinks next) (compare : Record → Record → Int)
    (first : Record) (bh : List UInt8) (numRecords : Nat) (h : In ς) : (List UInt8 × Nat) × In ς :=
  match read : next h with
  | (none,h) => ((bh,numRecords),h)
  | (some r,h') =>
    if compare (firstIn first bh) r ≠ 0 then ((bh,numRecords),acInReset h')
    else gather next shrinks compare first (bh ++ pack r) (numRecords + 1) h'
termination_by weight h
decreasing_by exact shrinks h r h' read

theorem subAdvance_record {h h' : In ς} {r : Record} (read : subAdvance h = (some r,h')) :
    ∃ answers, h.answers = .record r :: answers ∧
      h' = { h with slot := r, current := .slot, numCurrent := 1, answers := answers } := by
  unfold subAdvance at read
  split at read
  case h_1 => cases read
  case h_2 => cases read
  case h_3 => cases read
  case h_4 r answers same => cases read; exact ⟨answers,same,rfl⟩

theorem subAdvance_shrinks : Shrinks (subAdvance (ς := ς)) := by
  intro h r h' read
  obtain ⟨answers,same,rfl⟩ := subAdvance_record read
  simp only [weight,same,List.length_cons]
  omega

theorem subAdvance_answers (h : In ς) : (subAdvance h).2.answers.length ≤ h.answers.length := by
  unfold subAdvance
  split <;> simp_all [acInEmpty]

theorem acInReset_answers (h : In ς) : (acInReset h).answers = h.answers := by
  unfold acInReset
  split <;> rfl

section
variable {next : In ς → Option Record × In ς} (shrinks : Shrinks next) (compare : Record → Record → Int) (first : Record)
  (bh : List UInt8) (numRecords : Nat) {h h' : In ς}

theorem gather_ended (read : next h = (none,h')) :
    gather next shrinks compare first bh numRecords h = ((bh,numRecords),h') := by
  rw [gather]
  split <;> rename_i read' <;> rw [read] at read' <;> cases read'
  rfl

theorem gather_record {r : Record} (read : next h = (some r,h')) :
    gather next shrinks compare first bh numRecords h =
      if compare (firstIn first bh) r ≠ 0 then ((bh,numRecords),acInReset h')
      else gather next shrinks compare first (bh ++ pack r) (numRecords + 1) h' := by
  rw [gather]
  split <;> rename_i read' <;> rw [read] at read' <;> cases read'
  rfl

/-- What the calls and a push-back keep is kept by the loop. -/
theorem gather_keeps {P : In ς → Prop} (calls : ∀ h, P h → P (next h).2) (resets : ∀ h, P h → P (acInReset h))
    (holds : P h) : P (gather next shrinks compare first bh numRecords h).2 := by
  induction bh, numRecords, h using gather.induct next shrinks compare first with
  | case1 bh numRecords h h' read =>
    rw [gather_ended shrinks compare first bh numRecords read]
    simpa only [read] using calls h holds
  | case2 bh numRecords h r h' read differs =>
    rw [gather_record shrinks compare first bh numRecords read,if_pos differs]
    exact resets h' (by simpa only [read] using calls h holds)
  | case3 bh numRecords h r h' read same ih =>
    rw [gather_record shrinks compare first bh numRecords read,if_neg same]
    exact ih (by simpa only [read] using calls h holds)

end

theorem gather_answers (compare : Record → Record → Int) (first : Record) (bh : List UInt8) (numRecords : Nat) (h : In ς) :
    (gather subAdvance subAdvance_shrinks compare first bh numRecords h).2.answers.length ≤ h.answers.length := by
  refine gather_keeps (P := fun left => left.answers.length ≤ h.answers.length) _ _ _ _ _ (fun left fewer => ?_)
    (fun left fewer => ?_) (Nat.le_refl _)
  · exact Nat.le_trans (subAdvance_answers left) fewer
  · rwa [acInReset_answers]

/-! ### The advances -/

/-- `advance_reduced`. -/
def advanceReduced (options : Options ς) (h : In ς) : Option Record × In ς :=
  match read : subAdvance h with
  | (none,h) => (none,acInEmpty h)
  | (some r,h') =>
    let group := gather subAdvance subAdvance_shrinks options.compare r (pack r) 1 h'
    match options.reducer group.2.reducerArg (unpack group.1.1) with
    | (some res,arg) => (some res,{ group.2 with slot := res, numCurrent := 1, current := .slot, reducerArg := arg })
    | (none,arg) => advanceReduced options { group.2 with reducerArg := arg }
termination_by h.answers.length
decreasing_by
  obtain ⟨answers,same,rfl⟩ := subAdvance_record read
  have := gather_answers options.compare r (pack r) 1
    { h with slot := r, current := .slot, numCurrent := 1, answers := answers }
  rw [same,List.length_cons]
  exact Nat.lt_succ_of_le this

/-- The call through one of the function pointers. -/
def callAdvance (options : Options ς) (cb : AdvanceCb) (h : In ς) : Option Record × In ς :=
  match cb with
  | .source => subAdvance h
  | .advanceReduced => advanceReduced options h
  | .reset => (deref (postReset h) (postReset h).current,postReset h)
  | .emptyRecord => (none,h)
  | .countAndAdvance =>
    if h.recordNum + 1 ≤ h.limit then callAdvance options h.countAdvance { h with recordNum := h.recordNum + 1 }
    else (none,acInEmpty { h with recordNum := h.recordNum + 1 })
termination_by h.limit - h.recordNum

def acInAdvance (options : Options ς) (h : In ς) : Option Record × In ς := callAdvance options h.advance h

theorem advanceReduced_ended (options : Options ς) {h h' : In ς} (read : subAdvance h = (none,h')) :
    advanceReduced options h = (none,acInEmpty h') := by
  rw [advanceReduced]
  split <;> rename_i read' <;> rw [read] at read' <;> cases read'
  rfl

/-- One turn of the do loop. -/
theorem advanceReduced_record (options : Options ς) {h h' : In ς} {r : Record} (read : subAdvance h = (some r,h')) :
    advanceReduced options h =
      let group := gather subAdvance subAdvance_shrinks options.compare r (pack r) 1 h'
      match options.reducer group.2.reducerArg (unpack group.1.1) with
      | (some res,arg) => (some res,{ group.2 with slot := res, numCurrent := 1, current := .slot, reducerArg := arg })
      | (none,arg) => advanceReduced options { group.2 with reducerArg := arg } := by
  rw [advanceReduced]
  split <;> rename_i read' <;> rw [read] at read' <;> cases read'
  rfl

/-- What `advance_reduced` delivers stands in the slot, and answers were used up for it. -/
theorem advanceReduced_delivers (options : Options ς) (h : In ς) {h' : In ς} {r : Record}
    (moves : advanceReduced options h = (some r,h')) :
    h'.answers.length < h.answers.length ∧ h'.current = .slot ∧ h'.slot = r := by
  induction size : h.answers.length using Nat.strongRecOn generalizing h with
  | ind size ih =>
    match read : subAdvance h with
    | (none,left) =>
      rw [advanceReduced_ended options read] at moves
      cases moves
    | (some first,left) =>
      obtain ⟨answers,same,rfl⟩ := subAdvance_record read
      rw [advanceReduced_record options read] at moves
      have fewer : (gather subAdvance subAdvance_shrinks options.compare first (pack first) 1
          { h with slot := first, current := .slot, numCurrent := 1, answers := answers }).2.answers.length ≤
          answers.length := gather_answers _ _ _ _ _
      rw [same,List.length_cons] at size
      dsimp only at moves
      split at moves
      case h_1 =>
        cases moves
        exact ⟨Nat.lt_of_le_of_lt fewer (by omega),rfl,rfl⟩
      case h_2 =>
        obtain ⟨less,slot⟩ := ih _ (Nat.lt_of_le_of_lt fewer (by omega)) _ moves rfl
        exact ⟨by have := Nat.lt_of_lt_of_le less fewer; omega,slot⟩

theorem callAdvance_delivers (options : Options ς) (cb : AdvanceCb) (h : In ς) {h' : In ς} {r : Record}
    (moves : callAdvance options cb h = (some r,h')) : weight h' < weight h ∧ h'.current = .slot ∧ h'.slot = r := by
  induction cb, h using callAdvance.induct with
  | case1 h =>
    rw [callAdvance] at moves
    refine ⟨subAdvance_shrinks h r h' moves,?_⟩
    obtain ⟨answers,_,rfl⟩ := subAdvance_record moves
    exact ⟨rfl,rfl⟩
  | case2 h =>
    rw [callAdvance] at moves
    obtain ⟨fewer,slot⟩ := advanceReduced_delivers options h moves
    refine ⟨?_,slot⟩
    simp only [weight]
    split <;> split <;> omega
  | case3 h =>
    rw [callAdvance] at moves
    cases tmp : h.currentTmp with
    | null =>
      simp only [postReset,tmp,deref] at moves
      cases moves
    | slot =>
      simp only [postReset,tmp,deref] at moves
      cases moves
      exact ⟨by simp [weight,tmp],rfl,rfl⟩
  | case4 h =>
    rw [callAdvance] at moves
    cases moves
  | case5 h below ih =>
    rw [callAdvance,if_pos below] at moves
    exact ih moves
  | case6 h beyond =>
    rw [callAdvance,if_neg beyond] at moves
    cases moves

theorem acInAdvance_shrinks (options : Options ς) : Shrinks (acInAdvance options) :=
  fun h r h' moves => (callAdvance_delivers options h.advance h moves).1

/-! ### Groups -/

/-- What `ac_in_advance_group` answers through `num_r`, `more_records` and its result. -/
structure GroupAnswer where
  numR : Nat
  moreRecords : Bool
  res : Option (List Record)
deriving DecidableEq

def acInAdvanceGroup (options : Options ς) (compare : Record → Record → Int) (h : In ς) : GroupAnswer × In ς :=
  match acInAdvance options h with
  | (none,h) => (⟨0,false,none⟩,h)
  | (some r,h) =>
    let group := gather (acInAdvance options) (acInAdvance_shrinks options) compare r (pack r) 1 h
    (⟨group.1.2,false,some (unpack group.1.1)⟩,group.2)

/-- A call in a loop over the groups: the number of records and the records. -/
def groupStep (options : Options ς) (compare : Record → Record → Int) (h : In ς) : Option (Option (Nat × List Record) × In ς) :=
  let answer := acInAdvanceGroup options compare h
  some (answer.1.res.map fun group => (answer.1.numR,group),answer.2)

/-- What `ac_in_advance` delivers up to its first `NULL`, each record with whether it left
    a record pushed back, and the input then. -/
inductive Delivers (options : Options ς) : In ς → List (Record × Bool) → In ς → Prop
  | ended {h last : In ς} (moves : acInAdvance options h = (none,last)) : Delivers options h [] last
  | record {h h' last : In ς} {r : Record} {records : List (Record × Bool)} (moves : acInAdvance options h = (some r,h'))
      (rest : Delivers options h' records last) :
      Delivers options h ((r,decide (h'.advance = .reset)) :: records) last

/-! ### The copy is the record -/

theorem pack_length (r : Record) : (pack r).length = 8 + r.record.length + 1 := by
  simp only [pack,List.length_append,bytes_length,List.length_cons,List.length_nil]

theorem firstIn_pack (first : Record) (more : List UInt8) : firstIn first (pack first ++ more) = first := by
  have skipped : (pack first ++ more).drop 8 = first.record ++ ([0] ++ more) := by
    rw [pack,List.append_assoc,List.append_assoc,List.drop_left' (by simp)]
  simp only [firstIn,skipped,List.take_left']

theorem unpack_pack (r : Record) (more : List UInt8) : unpack (pack r ++ more) = r :: unpack more := by
  have length : number ((pack r ++ more).take 4) = r.record.length := by
    simp only [pack,List.append_assoc]
    rw [List.take_left' (bytes_length 4 _),number_bytes]
    exact Nat.mod_eq_of_lt r.small
  have tag : number (((pack r ++ more).drop 4).take 4) = r.tag.toUInt32.toNat := by
    simp only [pack,List.append_assoc]
    rw [List.drop_left' (bytes_length 4 _),List.take_left' (bytes_length 4 _),number_bytes]
    exact Nat.mod_eq_of_lt r.tag.toUInt32.toNat_lt
  have record : ((pack r ++ more).drop 8).take r.record.length = r.record := congrArg Record.record (firstIn_pack r more)
  have rest : (pack r ++ more).drop (8 + r.record.length + 1) = more := List.drop_left' (pack_length r)
  have some : pack r ++ more ≠ [] := by
    intro none
    have := congrArg List.length none
    simp only [List.length_append,pack_length,List.length_nil] at this
    omega
  rw [unpack,dif_neg some]
  simp only [length,tag,record,rest,UInt32.ofNat_toNat,Int32.toInt32_toUInt32]

theorem unpack_packs (records : List Record) : unpack (records.flatMap pack) = records := by
  induction records with
  | nil => rw [List.flatMap_nil,unpack,dif_pos rfl]
  | cons r records ih => rw [List.flatMap_cons,unpack_pack,ih]

/-! ### What is pushed back -/

/-- The function pointers of an input whose advance is `fresh`: nothing is pushed back,
    or the record in the slot is. -/
structure Settled (fresh : AdvanceCb) (h : In ς) : Prop where
  tmp : h.advanceTmp = fresh ∨ h.advanceTmp = .emptyRecord
  back : (h.advance = h.advanceTmp ∧ h.currentTmp = .null ∧ h.numCurrentTmp = 0) ∨
    (h.advance = .reset ∧ h.currentTmp = .slot)

theorem Settled.empty {fresh : AdvanceCb} (h : In ς) : Settled fresh (acInEmpty h) := ⟨.inr rfl,.inl ⟨rfl,rfl,rfl⟩⟩

theorem Settled.subAdvance {fresh : AdvanceCb} (h : In ς) (settled : Settled fresh h) : Settled fresh (subAdvance h).2 := by
  unfold Group.subAdvance
  split
  · exact ⟨settled.tmp,settled.back⟩
  · exact ⟨settled.tmp,settled.back⟩
  · exact Settled.empty _
  · exact ⟨settled.tmp,settled.back⟩

theorem Settled.reset {fresh : AdvanceCb} (h : In ς) (settled : Settled fresh h) : Settled fresh (acInReset h) := by
  unfold acInReset
  split
  case h_1 => exact settled
  case h_2 isSlot => exact ⟨settled.tmp,.inr ⟨rfl,isSlot⟩⟩

theorem Settled.advanceReduced {fresh : AdvanceCb} (options : Options ς) (h : In ς) (settled : Settled fresh h) :
    Settled fresh (advanceReduced options h).2 := by
  induction size : h.answers.length using Nat.strongRecOn generalizing h with
  | ind size ih =>
    have called := settled.subAdvance
    match read : Group.subAdvance h with
    | (none,left) =>
      rw [advanceReduced_ended options read]
      exact Settled.empty _
    | (some first,left) =>
      rw [read] at called
      obtain ⟨answers,same,rfl⟩ := subAdvance_record read
      have fewer : (gather Group.subAdvance subAdvance_shrinks options.compare first (pack first) 1
          { h with slot := first, current := .slot, numCurrent := 1, answers := answers }).2.answers.length ≤
          answers.length := gather_answers _ _ _ _ _
      have gathered := gather_keeps subAdvance_shrinks options.compare first (pack first) 1
        Settled.subAdvance Settled.reset called
      rw [same,List.length_cons] at size
      rw [advanceReduced_record options read]
      dsimp only
      split
      · exact ⟨gathered.tmp,gathered.back⟩
      · exact ih _ (Nat.lt_of_le_of_lt fewer (by omega)) _ ⟨gathered.tmp,gathered.back⟩ rfl

theorem Settled.postReset {fresh : AdvanceCb} (h : In ς) (settled : Settled fresh h) : Settled fresh (postReset h) :=
  ⟨settled.tmp,.inl ⟨rfl,rfl,rfl⟩⟩

theorem Settled.callAdvance {fresh : AdvanceCb} (options : Options ς) (cb : AdvanceCb) (h : In ς)
    (settled : Settled fresh h) : Settled fresh (callAdvance options cb h).2 := by
  induction cb, h using callAdvance.induct with
  | case1 h => rw [Group.callAdvance]; exact settled.subAdvance
  | case2 h => rw [Group.callAdvance]; exact settled.advanceReduced options
  | case3 h => rw [Group.callAdvance]; exact settled.postReset
  | case4 h => rw [Group.callAdvance]; exact settled
  | case5 h below ih =>
    rw [Group.callAdvance,if_pos below]
    exact ih ⟨settled.tmp,settled.back⟩
  | case6 h beyond =>
    rw [Group.callAdvance,if_neg beyond]
    exact Settled.empty _

/-- Where nothing is pushed back yet, `ac_in_reset` makes the next call answer the same
    record and leave the input as it is. -/
theorem reset_again (options : Options ς) {fresh : AdvanceCb} {h : In ς} (settled : Settled fresh h)
    (free : h.advance ≠ .reset) (delivered : h.current = .slot) :
    acInAdvance options (acInReset h) = (some h.slot,h) := by
  obtain ⟨same,tmp,num⟩ : h.advance = h.advanceTmp ∧ h.currentTmp = .null ∧ h.numCurrentTmp = 0 := by
    rcases settled.back with idle | ⟨pushed,_⟩
    · exact idle
    · exact absurd pushed free
  cases h
  simp only at same tmp num delivered
  subst same tmp num delivered
  simp only [acInAdvance,acInReset,callAdvance,postReset,deref]

/-! ### The groups of a run -/

variable (options : Options ς) (compare : Record → Record → Int)

/-- How records with a mark are compared. -/
def marked (a b : Record × Bool) : Int := compare a.1 b.1

theorem span_marked (first : Record × Bool) (records : List (Record × Bool)) :
    spanRun compare first.1 (records.map Prod.fst) =
      ((spanRun (marked compare) first records).1.map Prod.fst,(spanRun (marked compare) first records).2.map Prod.fst) := by
  induction records with
  | nil => rfl
  | cons r records ih =>
    simp only [List.map_cons,spanRun,marked] at ih ⊢
    split <;> simp_all

/-- The loop takes the run of the first record. What it leaves is the end of the input, or
    the first other record pushed back. -/
theorem gather_run {fresh : AdvanceCb} {h last : In ς} {records : List (Record × Bool)}
    (delivers : Delivers options h records last) (settled : Settled fresh h) (first : Record × Bool)
    (taken : List Record) (numRecords : Nat) :
    ∃ left, gather (acInAdvance options) (acInAdvance_shrinks options) compare first.1
        (pack first.1 ++ taken.flatMap pack) numRecords h =
      ((pack first.1 ++ (taken ++ (spanRun (marked compare) first records).1.map Prod.fst).flatMap pack,
        numRecords + (spanRun (marked compare) first records).1.length),left) ∧
      match (spanRun (marked compare) first records).2 with
      | [] => left = last
      | r :: rest => ∃ h', left = acInReset h' ∧ Settled fresh h' ∧ h'.current = .slot ∧ h'.slot = r.1 ∧
          r.2 = decide (h'.advance = .reset) ∧ Delivers options h' rest last := by
  induction delivers generalizing taken numRecords with
  | ended moves =>
    refine ⟨_,?_,rfl⟩
    rw [gather_ended _ _ _ _ _ moves]
    simp only [spanRun,List.map_nil,List.append_nil,List.length_nil,Nat.add_zero]
  | @record h h' last r records moves rest ih =>
    have delivered := callAdvance_delivers options h.advance h moves
    have settled' : Settled fresh h' := by
      have called := settled.callAdvance options h.advance
      rwa [show callAdvance options h.advance h = (some r,h') from moves] at called
    rw [gather_record _ _ _ _ _ moves,firstIn_pack]
    by_cases same : compare first.1 r = 0
    · obtain ⟨left,run,ends⟩ := ih settled' (taken ++ [r]) (numRecords + 1)
      rw [if_neg (not_not.mpr same),
        spanRun_same_cons (show marked compare first (r,decide (h'.advance = .reset)) = 0 from same)]
      refine ⟨left,?_,ends⟩
      have copied : pack first.1 ++ taken.flatMap pack ++ pack r = pack first.1 ++ (taken ++ [r]).flatMap pack := by
        simp only [List.append_assoc,List.flatMap_append,List.flatMap_cons,List.flatMap_nil,List.append_nil]
      rw [copied,run]
      simp only [List.append_assoc,List.map_cons,List.cons_append,List.nil_append,List.length_cons,Nat.add_assoc,
        Nat.add_comm]
    · rw [if_pos same,spanRun_differs (show marked compare first (r,decide (h'.advance = .reset)) ≠ 0 from same)]
      refine ⟨acInReset h',?_,h',rfl,settled',delivered.2.1,delivered.2.2,rfl,rest⟩
      simp only [List.map_nil,List.append_nil,List.length_nil,Nat.add_zero]

/-- No run but the first begins with a record that left another one pushed back. -/
def Alone (records : List (Record × Bool)) : Prop :=
  ∀ run ∈ (firstRuns (marked compare) records).tail, ∀ r ∈ run.head?, r.2 = false

theorem groups_marked (records : List (Record × Bool)) :
    firstRuns compare (records.map Prod.fst) = (firstRuns (marked compare) records).map (List.map Prod.fst) := by
  induction size : records.length using Nat.strongRecOn generalizing records with
  | ind size ih =>
    cases records with
    | nil => simp only [List.map_nil,firstRuns]
    | cons r records =>
      have fewer := spanRun_length (marked compare) r records
      rw [List.length_cons] at size
      have rest := ih _ (by omega) (spanRun (marked compare) r records).2 rfl
      rw [List.map_cons,firstRuns_cons,firstRuns_cons,span_marked compare r,rest]
      rfl

/-- The groups from a call on that delivers `r`. -/
theorem groups_run {fresh : AdvanceCb} {s h last : In ς} {r : Record × Bool} {records : List (Record × Bool)}
    (moves : acInAdvance options s = (some r.1,h)) (settled : Settled fresh h)
    (delivers : Delivers options h records last) (alone : Alone compare (r :: records))
    (again : (acInAdvance options last).1 = none) :
    Drains (groupStep options compare) s
      ((firstRuns compare ((r :: records).map Prod.fst)).map fun group => (group.length,group)) := by
  induction size : records.length using Nat.strongRecOn generalizing s h r records with
  | ind size ih =>
    obtain ⟨left,run,ends⟩ := gather_run options compare delivers settled r [] 1
    have fewer := spanRun_length (marked compare) r records
    rw [List.flatMap_nil,List.append_nil,List.nil_append] at run
    have step : groupStep options compare s =
        some (some (1 + ((spanRun (marked compare) r records).1).length,
          r.1 :: (spanRun (marked compare) r records).1.map Prod.fst),left) := by
      simp only [groupStep,acInAdvanceGroup,moves,run,Option.map_some]
      rw [← List.flatMap_cons (f := pack),unpack_packs]
    rw [groups_marked,firstRuns_cons,List.map_cons,List.map_cons]
    refine Drains.element ?_ (?_ : Drains (groupStep options compare) left _)
    · rw [step]
      simp only [List.map_cons,List.length_cons,List.length_map,Nat.add_comm]
    · rw [Alone,firstRuns_cons,List.tail_cons] at alone
      cases more : (spanRun (marked compare) r records).2 with
      | nil =>
        rw [more] at ends
        subst ends
        have stop : groupStep options compare left = some (none,(acInAdvance options left).2) := by
          match done : acInAdvance options left with
          | (none,_) => simp only [groupStep,acInAdvanceGroup,done,Option.map_none]
          | (some _,_) => rw [done] at again; cases again
        simp only [firstRuns,List.map_nil]
        exact .ended stop
      | cons next rest =>
        rw [more] at ends alone fewer
        obtain ⟨h',rfl,settled',delivered,slot,mark,rest'⟩ := ends
        rw [List.length_cons] at fewer
        rw [firstRuns_cons] at alone
        have free : h'.advance ≠ .reset := by
          have isFalse := alone _ (List.mem_cons_self) next rfl
          rw [mark] at isFalse
          exact of_decide_eq_false isFalse
        have back := reset_again options settled' free delivered
        rw [slot] at back
        have further : Alone compare (next :: rest) := by
          intro later member
          rw [firstRuns_cons,List.tail_cons] at member
          exact alone later (List.mem_cons_of_mem _ member)
        rw [← groups_marked]
        exact ih rest.length (by omega) back settled' rest' further rfl

/-! ### The limit -/

/-- What a function pointer of the input is under a limit. -/
def wrapped : AdvanceCb → AdvanceCb
  | .reset => .reset
  | .emptyRecord => .emptyRecord
  | _ => .countAndAdvance

/-- The input under a limit of `n`, when `k` records are counted. -/
def under (n k : Nat) (cb : AdvanceCb) (h : In ς) : In ς :=
  { h with advance := wrapped h.advance, advanceTmp := wrapped h.advanceTmp, countAdvance := cb, limit := n, recordNum := k }

section
variable (n k : Nat) (cb : AdvanceCb)

theorem subAdvance_under (h : In ς) : subAdvance (under n k cb h) = ((subAdvance h).1,under n k cb (subAdvance h).2) := by
  have same : (under n k cb h).answers = h.answers := rfl
  unfold subAdvance
  rw [same]
  split <;> rfl

theorem acInReset_under (h : In ς) : acInReset (under n k cb h) = under n k cb (acInReset h) := by
  have same : (under n k cb h).current = h.current := rfl
  unfold acInReset
  rw [same]
  split <;> rfl

theorem gather_under (compare : Record → Record → Int) (first : Record) (bh : List UInt8) (numRecords : Nat) (h : In ς) :
    gather subAdvance subAdvance_shrinks compare first bh numRecords (under n k cb h) =
      ((gather subAdvance subAdvance_shrinks compare first bh numRecords h).1,
        under n k cb (gather subAdvance subAdvance_shrinks compare first bh numRecords h).2) := by
  induction bh, numRecords, h using gather.induct subAdvance subAdvance_shrinks compare first with
  | case1 bh numRecords h h' read =>
    have limited := subAdvance_under n k cb h
    rw [read] at limited
    rw [gather_ended _ _ _ _ _ read,gather_ended _ _ _ _ _ limited]
  | case2 bh numRecords h r h' read differs =>
    have limited := subAdvance_under n k cb h
    rw [read] at limited
    rw [gather_record _ _ _ _ _ read,gather_record _ _ _ _ _ limited,if_pos differs,if_pos differs,acInReset_under]
  | case3 bh numRecords h r h' read same ih =>
    have limited := subAdvance_under n k cb h
    rw [read] at limited
    rw [gather_record _ _ _ _ _ read,gather_record _ _ _ _ _ limited,if_neg same,if_neg same,ih]

theorem advanceReduced_under (options : Options ς) (h : In ς) :
    advanceReduced options (under n k cb h) =
      ((advanceReduced options h).1,under n k cb (advanceReduced options h).2) := by
  induction size : h.answers.length using Nat.strongRecOn generalizing h with
  | ind size ih =>
    have limited := subAdvance_under n k cb h
    match read : subAdvance h with
    | (none,left) =>
      rw [read] at limited
      rw [advanceReduced_ended options read,advanceReduced_ended options limited]
      rfl
    | (some first,left) =>
      rw [read] at limited
      obtain ⟨answers,same,rfl⟩ := subAdvance_record read
      have fewer : (gather subAdvance subAdvance_shrinks options.compare first (pack first) 1
          { h with slot := first, current := .slot, numCurrent := 1, answers := answers }).2.answers.length ≤
          answers.length := gather_answers _ _ _ _ _
      rw [same,List.length_cons] at size
      rw [advanceReduced_record options read,advanceReduced_record options limited]
      dsimp only
      rw [gather_under n k cb options.compare first (pack first) 1]
      dsimp only [under]
      split
      case h_1 res arg reduced => rfl
      case h_2 arg reduced =>
        exact ih _ (Nat.lt_of_le_of_lt fewer (by omega)) { (gather subAdvance subAdvance_shrinks options.compare first
          (pack first) 1 { h with slot := first, current := .slot, numCurrent := 1, answers := answers }).2 with
            reducerArg := arg } rfl

theorem callAdvance_under (options : Options ς) {call : AdvanceCb} (kind : call = .source ∨ call = .advanceReduced) (h : In ς) :
    callAdvance options call (under n k cb h) =
      ((callAdvance options call h).1,under n k cb (callAdvance options call h).2) := by
  rcases kind with rfl | rfl
  · simp only [callAdvance]
    exact subAdvance_under n k cb h
  · simp only [callAdvance]
    exact advanceReduced_under n k cb options h

end

/-- Under the limit the input delivers its first `n` records, if all of them are counted. -/
theorem limit_delivers {fresh : AdvanceCb} (kind : fresh = .source ∨ fresh = .advanceReduced) {n k : Nat} {h last : In ς}
    {records : List (Record × Bool)} (delivers : Delivers options h records last) (settled : Settled fresh h)
    (counted : records.length + k ≤ n ∨ h.advance ≠ .reset ∧ ∀ r ∈ records.take (n - k), r.2 = false) :
    ∃ last', Delivers options (under n k fresh h) (records.take (n - k)) last' := by
  have notReset : fresh ≠ .reset := by rcases kind with rfl | rfl <;> exact nofun
  have notEmpty : fresh ≠ .emptyRecord := by rcases kind with rfl | rfl <;> exact nofun
  have wrap : wrapped fresh = .countAndAdvance := by rcases kind with rfl | rfl <;> rfl
  -- what a counted call does, and one that is over the limit
  have inside : ∀ k h, h.advance = fresh → k + 1 ≤ n → acInAdvance options (under n k fresh h) =
      ((acInAdvance options h).1,under n (k + 1) fresh (acInAdvance options h).2) := by
    intro k h isFresh below
    have pointer : (under n k fresh h).advance = .countAndAdvance := by rw [← wrap,← isFresh]; rfl
    rw [acInAdvance,pointer,callAdvance,if_pos (show (under n k fresh h).recordNum + 1 ≤ (under n k fresh h).limit from below),
      acInAdvance,isFresh]
    exact callAdvance_under n (k + 1) fresh options kind h
  have outside : ∀ k h, h.advance = fresh → ¬ k + 1 ≤ n → (acInAdvance options (under n k fresh h)).1 = none := by
    intro k h isFresh beyond
    have pointer : (under n k fresh h).advance = .countAndAdvance := by rw [← wrap,← isFresh]; rfl
    rw [acInAdvance,pointer,callAdvance,if_neg (show ¬ (under n k fresh h).recordNum + 1 ≤ (under n k fresh h).limit from beyond)]
  have stops : ∀ k h, (acInAdvance options (under n k fresh h)).1 = none →
      ∃ last', Delivers options (under n k fresh h) [] last' := fun k h none =>
    ⟨(acInAdvance options (under n k fresh h)).2,.ended (by rw [← none])⟩
  induction delivers generalizing k with
  | @ended h last moves =>
    rw [List.take_nil]
    apply stops
    rcases settled.back with ⟨idle,_,_⟩ | ⟨pushed,tmp⟩
    · rcases settled.tmp with isFresh | isEmpty
      · by_cases below : k + 1 ≤ n
        · rw [inside k h (idle.trans isFresh) below,moves]
        · exact outside k h (idle.trans isFresh) below
      · have pointer : (under n k fresh h).advance = .emptyRecord := by
          rw [show (under n k fresh h).advance = wrapped h.advance from rfl,idle,isEmpty]
          rfl
        rw [acInAdvance,pointer,callAdvance]
    · simp only [acInAdvance,pushed,callAdvance,postReset,tmp,deref] at moves
      cases moves
  | @record h h' last r records moves rest ih =>
    have settled' : Settled fresh h' := by
      have called := settled.callAdvance options h.advance
      rwa [show callAdvance options h.advance h = (some r,h') from moves] at called
    have mark : ∀ k, decide ((under n k fresh h').advance = .reset) = decide (h'.advance = .reset) := by
      intro k
      rw [show (under n k fresh h').advance = wrapped h'.advance from rfl]
      cases h'.advance <;> rfl
    rcases settled.back with ⟨idle,_,_⟩ | ⟨pushed,tmp⟩
    · have isFresh : h.advance = fresh := by
        rcases settled.tmp with isFresh | isEmpty
        · exact idle.trans isFresh
        · rw [acInAdvance,idle,isEmpty,callAdvance] at moves
          cases moves
      by_cases below : k + 1 ≤ n
      · have split : n - k = n - (k + 1) + 1 := by omega
        rw [split,List.take_succ_cons] at counted ⊢
        have counted' : records.length + (k + 1) ≤ n ∨
            h'.advance ≠ .reset ∧ ∀ r ∈ records.take (n - (k + 1)), r.2 = false := by
          rcases counted with few | ⟨_,marks⟩
          · rw [List.length_cons] at few
            exact .inl (by omega)
          · exact .inr ⟨of_decide_eq_false (marks _ List.mem_cons_self),
              fun r member => marks r (List.mem_cons_of_mem _ member)⟩
        obtain ⟨last',rest'⟩ := ih settled' counted'
        refine ⟨last',?_⟩
        rw [← mark (k + 1)]
        exact .record (by rw [inside k h isFresh below,moves]) rest'
      · rw [show n - k = 0 by omega,List.take_zero]
        exact stops k h (outside k h isFresh below)
    · -- the record that was pushed back is not counted
      have few : records.length + 1 + k ≤ n := by
        rcases counted with few | ⟨free,_⟩
        · exact few
        · exact absurd pushed free
      obtain ⟨last',rest'⟩ := ih settled' (k := k) (.inl (by omega))
      refine ⟨last',?_⟩
      rw [List.take_of_length_le (by omega)] at rest'
      rw [List.take_of_length_le (by rw [List.length_cons]; omega),← mark k]
      refine .record ?_ rest'
      have pointer : (under n k fresh h).advance = .reset := by
        rw [show (under n k fresh h).advance = wrapped h.advance from rfl,pushed]
        rfl
      rw [acInAdvance,pushed] at moves
      rw [acInAdvance,pointer]
      simp only [callAdvance,postReset,tmp,deref] at moves
      cases moves
      simp only [callAdvance,postReset,under,tmp,deref]

/-- An input with the limit that it is given. -/
def limited (limit : Option Nat) (h : In ς) : In ς := limit.elim h (acInLimit h)

/-- The records that a limit lets through. -/
def upTo {α : Type} (limit : Option Nat) (records : List α) : List α := limit.elim records records.take

/-- What is required of a run of `ac_in_advance`: the limit counts every record of it, no
    record that is pushed back leaves another one pushed back, and the input does not go on
    after its end. -/
structure Undisturbed (h : In ς) (limit : Option Nat) (records : List (Record × Bool)) : Prop where
  counted : ∀ n ∈ limit, records.length ≤ n ∨ ∀ r ∈ records.take n, r.2 = false
  alone : Alone compare (upTo limit records)
  ends : ∀ last, Delivers options (limited limit h) (upTo limit records) last →
    upTo limit records = [] ∨ (acInAdvance options last).1 = none

/-- In an undisturbed run the groups are the runs of the records, each with their number,
    and then comes `NULL`. -/
theorem grouping_partitions (reduced : Bool) (answers : List Answer) (arg : ς) (limit : Option Nat)
    {records : List (Record × Bool)} {last : In ς} (delivers : Delivers options (acInInit reduced answers arg) records last)
    (undisturbed : Undisturbed options compare (acInInit reduced answers arg) limit records) :
    ∃ groups, Drains (groupStep options compare) (limited limit (acInInit reduced answers arg))
        (groups.map fun group => (group.length,group)) ∧
      Partitions compare (upTo limit (records.map Prod.fst)) groups := by
  refine ⟨_,?_,AnotherC.Lib.Order.firstRuns_partition _⟩
  obtain ⟨fresh,kind,settled,whole⟩ : ∃ fresh, (fresh = .source ∨ fresh = .advanceReduced) ∧
      Settled fresh (acInInit reduced answers arg) ∧
      ∀ n, acInLimit (acInInit reduced answers arg) n = under n 0 fresh (acInInit reduced answers arg) := by
    cases reduced with
    | false => exact ⟨.source,.inl rfl,⟨.inl rfl,.inl ⟨rfl,rfl,rfl⟩⟩,fun _ => rfl⟩
    | true => exact ⟨.advanceReduced,.inr rfl,⟨.inl rfl,.inl ⟨rfl,rfl,rfl⟩⟩,fun _ => rfl⟩
  have notReset : (acInInit reduced answers arg).advance ≠ .reset := by cases reduced <;> exact nofun
  obtain ⟨last',delivers',fresh',settled'⟩ : ∃ last', Delivers options (limited limit (acInInit reduced answers arg))
      (upTo limit records) last' ∧ ∃ fresh', Settled fresh' (limited limit (acInInit reduced answers arg)) := by
    cases limit with
    | none => exact ⟨last,delivers,fresh,settled⟩
    | some n =>
      obtain ⟨last',limited'⟩ := limit_delivers options kind delivers settled
        (by rw [Nat.add_zero,Nat.sub_zero]; exact (undisturbed.counted n rfl).imp id fun marks => ⟨notReset,marks⟩)
      rw [← whole n] at limited'
      exact ⟨last',limited',.countAndAdvance,.inl rfl,.inl ⟨rfl,by cases reduced <;> rfl,by cases reduced <;> rfl⟩⟩
  have same : upTo limit (records.map Prod.fst) = (upTo limit records).map Prod.fst := by
    cases limit with
    | none => rfl
    | some n => exact List.map_take.symm
  have alone := undisturbed.alone
  have ends := undisturbed.ends last' delivers'
  rw [same]
  generalize upTo limit records = through at *
  cases delivers' with
  | ended moves =>
    simp only [List.map_nil,firstRuns]
    have stop : groupStep options compare (limited limit (acInInit reduced answers arg)) = some (none,last') := by
      simp only [groupStep,acInAdvanceGroup,moves,Option.map_none]
    exact .ended stop
  | @record _ h' _ r records' moves rest =>
    have settled'' : Settled fresh' h' := by
      have called := settled'.callAdvance options (limited limit (acInInit reduced answers arg)).advance
      rwa [show callAdvance options _ (limited limit (acInInit reduced answers arg)) = (some r,h') from moves] at called
    exact groups_run options compare moves settled'' rest alone (ends.resolve_left (List.cons_ne_nil _ _))

theorem alone_unmarked {records : List (Record × Bool)} (unmarked : ∀ r ∈ records, r.2 = false) : Alone compare records := by
  intro run member r isHead
  refine unmarked r ?_
  have whole : (firstRuns (marked compare) records).flatten = records :=
    (AnotherC.Lib.Order.firstRuns_partition records).whole
  rw [← whole]
  exact List.mem_flatten.mpr ⟨run,List.mem_of_mem_tail member,List.mem_of_mem_head? isHead⟩

theorem Delivers.unique {h last last' : In ς} {records records' : List (Record × Bool)}
    (one : Delivers options h records last) (other : Delivers options h records' last') :
    records = records' ∧ last = last' := by
  induction one generalizing records' last' with
  | ended moves =>
    cases other with
    | ended moves' =>
      rw [moves] at moves'
      cases moves'
      exact ⟨rfl,rfl⟩
    | record moves' _ =>
      rw [moves] at moves'
      cases moves'
  | record moves _ ih =>
    cases other with
    | ended moves' =>
      rw [moves] at moves'
      cases moves'
    | record moves' rest =>
      rw [moves] at moves'
      cases moves'
      obtain ⟨rfl,rfl⟩ := ih rest
      exact ⟨rfl,rfl⟩

theorem source_call {h : In ς} (source : h.advance = .source) : acInAdvance options h = subAdvance h := by
  rw [acInAdvance,source,callAdvance]

theorem counted_call {h : In ς} (counted : h.advance = .countAndAdvance) (source : h.countAdvance = .source) :
    acInAdvance options h =
      if h.recordNum + 1 ≤ h.limit then subAdvance { h with recordNum := h.recordNum + 1 }
      else (none,acInEmpty { h with recordNum := h.recordNum + 1 }) := by
  rw [acInAdvance,counted,callAdvance]
  split
  case isTrue below =>
    rw [source,callAdvance]
    cases h
    simp_all
  case isFalse => rfl

/-- An input of records without a reducer delivers them and ends for good. -/
theorem source_delivers {h : In ς} (source : h.advance = .source) {records : List Record}
    (answers : h.answers = records.map .record) :
    ∃ last, Delivers options h (records.map fun r => (r,false)) last ∧ (acInAdvance options last).1 = none := by
  induction records generalizing h with
  | nil =>
    have moves : acInAdvance options h = (none,{ h with current := .null, numCurrent := 0 }) := by
      rw [source_call options source,subAdvance,answers]
      rfl
    refine ⟨_,.ended moves,?_⟩
    rw [source_call options (h := { h with current := .null, numCurrent := 0 }) source,subAdvance]
    simp only [answers,List.map_nil]
  | cons r records ih =>
    have moves : acInAdvance options h =
        (some r,{ h with slot := r, current := .slot, numCurrent := 1, answers := records.map .record }) := by
      rw [source_call options source,subAdvance,answers]
      rfl
    obtain ⟨last,rest,ends⟩ := ih (h := { h with
      slot := r, current := .slot, numCurrent := 1, answers := records.map .record }) source rfl
    have delivers := Delivers.record moves rest
    simp only [source,reduceCtorEq,decide_false] at delivers
    exact ⟨last,delivers,ends⟩

theorem counted_delivers {h : In ς} (counted : h.advance = .countAndAdvance) (source : h.countAdvance = .source)
    {records : List Record} (answers : h.answers = records.map .record) :
    ∃ last, Delivers options h ((records.map fun r => (r,false)).take (h.limit - h.recordNum)) last ∧
      (acInAdvance options last).1 = none := by
  induction records generalizing h with
  | nil =>
    have nothing : ∀ h : In ς, h.advance = .countAndAdvance → h.countAdvance = .source → h.answers = [] →
        (acInAdvance options h).1 = none := by
      intro h counted source answers
      rw [counted_call options counted source]
      split
      · simp only [subAdvance,answers]
      · rfl
    rw [List.map_nil,List.take_nil]
    refine ⟨(acInAdvance options h).2,.ended (by rw [← nothing h counted source answers]),?_⟩
    rw [counted_call options counted source]
    split
    · simp only [subAdvance,answers,List.map_nil]
      exact nothing _ counted source rfl
    · rw [acInAdvance,acInEmpty,callAdvance]
  | cons r records ih =>
    have moves := counted_call options counted source
    by_cases below : h.recordNum + 1 ≤ h.limit
    · rw [if_pos below,subAdvance] at moves
      simp only [answers,List.map_cons] at moves
      obtain ⟨last,rest,ends⟩ := ih (h := { h with
        slot := r, current := .slot, numCurrent := 1, recordNum := h.recordNum + 1, answers := records.map .record })
        counted source rfl
      have delivers := Delivers.record moves rest
      simp only [counted,reduceCtorEq,decide_false] at delivers
      refine ⟨last,?_,ends⟩
      rw [show h.limit - h.recordNum = h.limit - (h.recordNum + 1) + 1 by omega,List.map_cons,List.take_succ_cons]
      exact delivers
    · rw [if_neg below] at moves
      refine ⟨acInEmpty { h with recordNum := h.recordNum + 1 },?_,?_⟩
      · rw [show h.limit - h.recordNum = 0 by omega,List.take_zero]
        exact .ended moves
      · rw [acInAdvance,acInEmpty,callAdvance]

/-- Without a reducer, and without an end in between, every run is undisturbed. -/
theorem source_undisturbed (records : List Record) (arg : ς) (limit : Option Nat) :
    Undisturbed options compare (acInInit false (records.map .record) arg) limit (records.map fun r => (r,false)) where
  counted n _ := .inr fun r member => by
    obtain ⟨_,_,rfl⟩ := List.mem_map.mp (List.mem_of_mem_take member)
    rfl
  alone := by
    refine alone_unmarked compare fun r member => ?_
    have inside : r ∈ records.map fun r => (r,false) := by
      cases limit with
      | none => exact member
      | some n => exact List.mem_of_mem_take member
    obtain ⟨_,_,rfl⟩ := List.mem_map.mp inside
    rfl
  ends last delivers := by
    obtain ⟨last',delivers',ends⟩ : ∃ last', Delivers options (limited limit (acInInit false (records.map .record) arg))
        (upTo limit (records.map fun r => (r,false))) last' ∧ (acInAdvance options last').1 = none := by
      cases limit with
      | none => exact source_delivers options rfl rfl
      | some n =>
        exact counted_delivers options (h := acInLimit (acInInit false (records.map .record) arg) n) rfl rfl rfl
    obtain ⟨_,rfl⟩ := delivers.unique options delivers'
    exact .inr ends

/-- Records are equal if their bytes are. -/
def byRecord (a b : Record) : Int := if a.record = b.record then 0 else 1

/-- A record of one byte. -/
def byte (tag : Int32) (b : UInt8) : Record := ⟨tag,[b],by simp⟩

def keepFirst : Options Unit := ⟨byRecord,AnotherC.InExt.acIoKeepFirst⟩

theorem grouping_partitions_limit :
    ∃ groups, Drains (groupStep keepFirst byRecord)
        (acInLimit (acInInit false ([byte 7 1,byte 8 1,byte 7 2,byte 7 3].map .record) ()) 3)
        (groups.map fun group => (group.length,group)) ∧
      Partitions byRecord [byte 7 1,byte 8 1,byte 7 2] groups := by
  obtain ⟨last,delivers,_⟩ := source_delivers keepFirst
    (h := acInInit false ([byte 7 1,byte 8 1,byte 7 2,byte 7 3].map .record) ()) rfl rfl
  exact grouping_partitions keepFirst byRecord false _ () (some 3) delivers (source_undisturbed _ _ _ _ _)

/-- A run of one record: it is delivered, and the record behind it pushed back. -/
theorem keepFirst_pushes {h : In Unit} {a b : Record} {answers : List Answer} (reduced : h.advance = .advanceReduced)
    (unread : h.answers = .record a :: .record b :: answers) (differs : keepFirst.compare a b ≠ 0) :
    acInAdvance keepFirst h = (some a,{ h with
      slot := a, current := .slot, numCurrent := 1, currentTmp := .slot, numCurrentTmp := 1, advance := .reset,
      answers := answers }) := by
  have first : subAdvance h =
      (some a,{ h with slot := a, current := .slot, numCurrent := 1, answers := .record b :: answers }) := by
    rw [subAdvance,unread]
  rw [acInAdvance,reduced,callAdvance,advanceReduced_record keepFirst first]
  dsimp only
  have read : subAdvance { h with slot := a, current := .slot, numCurrent := 1, answers := .record b :: answers } =
      (some b,{ h with slot := b, current := .slot, numCurrent := 1, answers := answers }) := rfl
  have same := firstIn_pack a []
  have one := unpack_packs [a]
  rw [List.append_nil] at same
  rw [List.flatMap_cons,List.flatMap_nil,List.append_nil] at one
  rw [gather_record subAdvance_shrinks keepFirst.compare a (pack a) 1 read,same,if_pos differs]
  simp only [one,keepFirst,AnotherC.InExt.acIoKeepFirst,List.head?_cons,acInReset]

theorem pushed_call (options : Options ς) {h : In ς} (pushed : h.advance = .reset) (tmp : h.currentTmp = .slot) :
    acInAdvance options h = (some h.slot,postReset h) := by
  rw [acInAdvance,pushed,callAdvance]
  simp only [postReset,tmp,deref]

/-- The reducing input after `a`, while the record behind its run is pushed back. -/
def pushed (a : Record) (answers : List Answer) : In Unit :=
  { acInInit true answers () with
    slot := a
    current := .slot
    numCurrent := 1
    currentTmp := .slot
    numCurrentTmp := 1
    advance := .reset }

/-- The same once `a` is handed out again. -/
def handed (a : Record) (answers : List Answer) : In Unit :=
  { acInInit true answers () with slot := a, current := .slot, numCurrent := 1 }

/-- Four different records under a reducer that keeps the first of equal ones: 1, 1, 3, 3 is
    delivered, and the second 3 is in no group. -/
theorem second_push_lost :
    ∃ records last, Delivers keepFirst (acInInit true ([byte 0 1,byte 0 2,byte 0 3,byte 0 4].map .record) ()) records last ∧
      ¬ ∃ groups, Drains (groupStep keepFirst byRecord)
          (acInInit true ([byte 0 1,byte 0 2,byte 0 3,byte 0 4].map .record) ())
          (groups.map fun group => (group.length,group)) ∧
        Partitions byRecord (records.map Prod.fst) groups := by
  have one : acInAdvance keepFirst (acInInit true ([byte 0 1,byte 0 2,byte 0 3,byte 0 4].map .record) ()) =
      (some (byte 0 1),pushed (byte 0 1) ([byte 0 3,byte 0 4].map .record)) := keepFirst_pushes rfl rfl (by decide)
  have again := pushed_call keepFirst (h := pushed (byte 0 1) ([byte 0 3,byte 0 4].map .record)) rfl rfl
  have three : acInAdvance keepFirst (postReset (pushed (byte 0 1) ([byte 0 3,byte 0 4].map .record))) =
      (some (byte 0 3),pushed (byte 0 3) []) := keepFirst_pushes rfl rfl (by decide)
  have back := pushed_call keepFirst (h := acInReset (pushed (byte 0 3) [])) rfl rfl
  have ends : acInAdvance keepFirst (postReset (pushed (byte 0 3) [])) =
      (none,acInEmpty { postReset (pushed (byte 0 3) []) with current := .null, numCurrent := 0 }) := by
    show callAdvance keepFirst .advanceReduced _ = _
    rw [callAdvance]
    exact advanceReduced_ended keepFirst rfl
  refine ⟨_,_,.record one (.record again (.record three (.record (pushed_call _ rfl rfl) (.ended ends)))),?_⟩
  rintro ⟨groups,drains,partitions⟩
  -- the groups that come out are 1, 1 and 3
  have first : groupStep keepFirst byRecord (acInInit true ([byte 0 1,byte 0 2,byte 0 3,byte 0 4].map .record) ()) =
      some (some (2,[byte 0 1,byte 0 1]),acInReset (pushed (byte 0 3) [])) := by
    have copied : pack (byte 0 1) ++ pack (byte 0 1) = [byte 0 1,byte 0 1].flatMap pack := by
      rw [List.flatMap_cons,List.flatMap_cons,List.flatMap_nil,List.append_nil]
    have same := firstIn_pack (byte 0 1) []
    rw [List.append_nil] at same
    simp only [groupStep,acInAdvanceGroup,one]
    rw [gather_record _ _ _ _ _ again,same,if_neg (by decide),gather_record _ _ _ _ _ three,firstIn_pack,if_pos (by decide)]
    dsimp only
    rw [show pack (byte 0 1) ++ pack (pushed (byte 0 1) ([byte 0 3,byte 0 4].map .record)).slot =
      [byte 0 1,byte 0 1].flatMap pack from copied,unpack_packs]
    rfl
  have second : groupStep keepFirst byRecord (acInReset (pushed (byte 0 3) [])) =
      some (some (1,[byte 0 3]),acInEmpty { postReset (pushed (byte 0 3) []) with current := .null, numCurrent := 0 }) := by
    have copied := unpack_packs [byte 0 3]
    rw [List.flatMap_cons,List.flatMap_nil,List.append_nil] at copied
    simp only [groupStep,acInAdvanceGroup,back]
    rw [gather_ended _ _ _ _ _ (show acInAdvance keepFirst (postReset (acInReset (pushed (byte 0 3) []))) = _ from ends)]
    dsimp only
    rw [show unpack (pack (acInReset (pushed (byte 0 3) [])).slot) = [byte 0 3] from copied]
    rfl
  have stop : groupStep keepFirst byRecord
      (acInEmpty { postReset (pushed (byte 0 3) []) with current := .null, numCurrent := 0 }) =
        some (none,acInEmpty { postReset (pushed (byte 0 3) []) with current := .null, numCurrent := 0 }) := by
    generalize { postReset (pushed (byte 0 3) []) with current := .null, numCurrent := 0 } = h
    have empty : acInAdvance keepFirst (acInEmpty h) = (none,acInEmpty h) := by
      show callAdvance keepFirst .emptyRecord _ = _
      rw [callAdvance]
    simp only [groupStep,acInAdvanceGroup,empty,Option.map_none]
  have known := drains.unique (.element first (.element second (.ended stop)))
  have whole := congrArg List.length partitions.whole
  have groupsAre : groups = [[byte 0 1,byte 0 1],[byte 0 3]] := by
    have snds := congrArg (List.map Prod.snd) known
    rw [List.map_map] at snds
    exact (List.map_id _).symm.trans snds
  rw [groupsAre] at whole
  exact absurd whole (by decide)

end
end AnotherC.Group
