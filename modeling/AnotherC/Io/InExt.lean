import Mathlib.Data.List.Flatten
import AnotherC.Lib.Order
import AnotherC.Lib.Stream

/-!
# Sets of inputs: `ac_in_ext`

A heap holds the inputs by their current record, and the `active` array holds
the inputs whose record was handed out but that were not advanced since. What
the two still hold is `undelivered`. An advance takes one least record away, a
unique advance one whole key. From this come the k-way merge of sorted inputs
and its grouping by key (`merge_yields`, `unique_yields`, `reduce_yields`).
-/
namespace AnotherC.InExt
open AnotherC.Lib
open AnotherC.Lib.Order (Total Sorted Strict Groups)
open AnotherC.Lib.Stream (Yields Finally)
set_option linter.unusedVariables false

/-- An input that stands on a record. An input past its last record is
    destroyed, so no such value is kept. -/
structure In (ρ : Type) where
  current : ρ
  rest : List ρ
deriving Repr, DecidableEq

/-- `ac_in_advance` on an input that was not advanced before. -/
def In.start {ρ : Type} : List ρ → Option (In ρ)
  | [] => none
  | r :: rest => some ⟨r,rest⟩

/-- `ac_in_advance` on an input; `none` when there is no further record. -/
def In.advance {ρ : Type} (input : In ρ) : Option (In ρ) := In.start input.rest

/-- The current record and the ones after it. -/
def In.records {ρ : Type} (input : In ρ) : List ρ := input.current :: input.rest

/-- What the function pointer `advance` of the set is. -/
inductive AdvanceCb
  | emptyRecord
  | extAdvance
  | extAdvanceReduce
deriving Repr, DecidableEq

/-- What the function pointer `advance_unique` of the set is. -/
inductive AdvanceUniqueCb
  | emptyRecordUnique
  | extAdvanceUnique
deriving Repr, DecidableEq

/-- A reducer with its state: `none` rejects the group. -/
abbrev Reducer (ρ ς : Type) := ς → List ρ → Option ρ × ς

/-- The set of inputs. `activeSize` entries are allocated for `active` and for
    the records of a group, `maxSize` entries for the heap. -/
structure Ext (ρ ς : Type) where
  active : List (In ρ)
  activeSize : Nat
  heap : List (In ρ)
  maxSize : Nat
  advance : AdvanceCb
  advanceUnique : AdvanceUniqueCb
  reducer : Option (Reducer ρ ς)
  reducerArg : ς

section
variable {ρ ς : Type} (compare : ρ → ρ → Int)

/-- The heap compares the inputs by their current record. -/
def inHeapCompare (a b : In ρ) : Bool := decide (compare a.current b.current < 0)

def inHeapPush (h : Ext ρ ς) (input : In ρ) : Ext ρ ς :=
  { h with
    maxSize := if h.maxSize ≤ h.heap.length then h.heap.length * 2 else h.maxSize
    heap := Heap.push (inHeapCompare compare) h.heap input }

def acInExtInit (arg : ς) : Ext ρ ς where
  active := []
  activeSize := 0
  heap := []
  maxSize := 2
  advance := .emptyRecord
  advanceUnique := .emptyRecordUnique
  reducer := none
  reducerArg := arg

/-- `_ac_in_empty`. -/
def acInEmpty (h : Ext ρ ς) : Ext ρ ς := { h with advance := .emptyRecord, advanceUnique := .emptyRecordUnique }

/-- One turn of the loop in `move_active_to_heap`. -/
def moveToHeap (advance : Bool) (h : Ext ρ ς) (input : In ρ) : Ext ρ ς :=
  if advance then
    match input.advance with
    | none => h
    | some next => inHeapPush compare h next
  else inHeapPush compare h input

def moveActiveToHeap (h : Ext ρ ς) (advance : Bool) : Ext ρ ς :=
  { h.active.foldl (moveToHeap compare advance) h with active := [] }

def acInExtAdvance (h : Ext ρ ς) : Option ρ × Ext ρ ς :=
  let h := moveActiveToHeap compare h true
  match Heap.pop (inHeapCompare compare) h.heap with
  | some (input,heap) => (some input.current,{ h with heap := heap, active := [input] })
  | none => (none,acInEmpty h)

/-- The loop of `ac_in_ext_advance_unique`: pops the inputs that stand on the
    key of `first`. The first other input is pushed back. -/
def gather (first : ρ) : Nat → List (In ρ) → List (In ρ) × List (In ρ)
  | 0, heap => ([],heap)
  | size + 1, heap =>
    match Heap.pop (inHeapCompare compare) heap with
    | none => ([],heap)
    | some (input,rest) =>
      if compare first input.current = 0 then
        let (taken,left) := gather first size rest
        (input :: taken,left)
      else ([],Heap.push (inHeapCompare compare) rest input)

def acInExtAdvanceUnique (h : Ext ρ ς) : Option (List ρ) × Ext ρ ς :=
  match acInExtAdvance compare h with
  | (none,h) => (none,h)
  | (some first,h) =>
    let (taken,heap) := gather compare first h.heap.length h.heap
    (some (first :: taken.map In.current),{ h with active := h.active ++ taken, heap := heap })

/-- The records that were not handed out yet. -/
def undelivered (h : Ext ρ ς) : List ρ := h.active.flatMap In.rest ++ h.heap.flatMap In.records

/-- `ac_io_keep_first`. -/
def acIoKeepFirst : Reducer ρ ς := fun arg group => (group.head?,arg)

variable {compare}

variable (compare) in
theorem inHeapPush_records (h : Ext ρ ς) (input : In ρ) :
    ((inHeapPush compare h input).heap.flatMap In.records).Perm (input.records ++ h.heap.flatMap In.records) :=
  (Heap.push_perm (inHeapCompare compare) h.heap input).flatMap_right In.records

theorem moveToHeap_records (h : Ext ρ ς) (input : In ρ) :
    ((moveToHeap compare true h input).heap.flatMap In.records).Perm (input.rest ++ h.heap.flatMap In.records) := by
  obtain ⟨current,rest⟩ := input
  cases rest with
  | nil => exact List.Perm.refl _
  | cons r rest => exact inHeapPush_records compare h ⟨r,rest⟩

theorem move_fold_records (inputs : List (In ρ)) (h : Ext ρ ς) :
    ((inputs.foldl (moveToHeap compare true) h).heap.flatMap In.records).Perm
      (inputs.flatMap In.rest ++ h.heap.flatMap In.records) := by
  induction inputs generalizing h with
  | nil => exact List.Perm.refl _
  | cons input inputs ih =>
    refine (ih _).trans ?_
    rw [List.flatMap_cons,List.append_assoc]
    refine (List.Perm.append_left _ (moveToHeap_records h input)).trans ?_
    exact List.perm_append_comm_assoc _ _ _

variable (compare) in
/-- Moving the active inputs keeps what is undelivered. -/
theorem moveActive_undelivered (h : Ext ρ ς) :
    (undelivered (moveActiveToHeap compare h true)).Perm (undelivered h) :=
  move_fold_records h.active h

@[simp] theorem moveActive_active (h : Ext ρ ς) (advance : Bool) : (moveActiveToHeap compare h advance).active = [] := rfl

theorem pop_records {heap rest : List (In ρ)} {input : In ρ}
    (popped : Heap.pop (inHeapCompare compare) heap = some (input,rest)) :
    (heap.flatMap In.records).Perm (input.records ++ rest.flatMap In.records) :=
  (Heap.pop_perm popped).flatMap_right In.records

/-- An advance hands out one undelivered record. -/
theorem advance_takes {h h' : Ext ρ ς} {r : ρ} (advanced : acInExtAdvance compare h = (some r,h')) :
    (undelivered h).Perm (r :: undelivered h') := by
  simp only [acInExtAdvance] at advanced
  split at advanced
  case h_1 input heap popped =>
    cases advanced
    refine (moveActive_undelivered compare h).symm.trans ?_
    simpa [undelivered,In.records] using pop_records popped
  case h_2 => cases advanced

theorem advance_ends {h h' : Ext ρ ς} (advanced : acInExtAdvance compare h = (none,h')) :
    undelivered h = [] ∧ h' = acInEmpty (moveActiveToHeap compare h true) ∧ h'.heap = [] := by
  simp only [acInExtAdvance] at advanced
  split at advanced
  case h_1 => cases advanced
  case h_2 popped =>
    cases advanced
    have empty := Heap.pop_none.mp popped
    have perm := moveActive_undelivered compare h
    refine ⟨?_,rfl,empty⟩
    simpa [undelivered,empty] using perm.symm

variable (compare) in
theorem gather_records (first : ρ) (size : Nat) (heap : List (In ρ)) :
    (heap.flatMap In.records).Perm
      ((gather compare first size heap).1.map In.current ++
        ((gather compare first size heap).1.flatMap In.rest ++
          (gather compare first size heap).2.flatMap In.records)) := by
  induction size generalizing heap with
  | zero => exact List.Perm.refl _
  | succ size ih =>
    rw [gather]
    cases popped : Heap.pop (inHeapCompare compare) heap with
    | none => exact List.Perm.refl _
    | some pair =>
      obtain ⟨input,rest⟩ := pair
      simp only
      split
      · refine (pop_records popped).trans ?_
        refine List.Perm.cons input.current ?_
        refine (List.Perm.append_left _ (ih rest)).trans ?_
        simp only [List.flatMap_cons,List.append_assoc]
        exact List.perm_append_comm_assoc _ _ _
      · refine (pop_records popped).trans ?_
        exact ((Heap.push_perm (inHeapCompare compare) rest input).flatMap_right In.records).symm

/-- A unique advance hands out the records of its group. -/
theorem unique_takes {h h' : Ext ρ ς} {group : List ρ} (advanced : acInExtAdvanceUnique compare h = (some group,h')) :
    (undelivered h).Perm (group ++ undelivered h') := by
  simp only [acInExtAdvanceUnique] at advanced
  split at advanced
  case h_1 => cases advanced
  case h_2 first h₁ moved =>
    cases advanced
    refine (advance_takes moved).trans (List.Perm.cons first ?_)
    simp only [undelivered,List.flatMap_append]
    refine (List.Perm.append_left _ (gather_records compare first h₁.heap.length h₁.heap)).trans ?_
    rw [List.append_assoc]
    exact List.perm_append_comm_assoc _ _ _

theorem unique_nonempty {h h' : Ext ρ ς} {group : List ρ}
    (advanced : acInExtAdvanceUnique compare h = (some group,h')) : group ≠ [] := by
  simp only [acInExtAdvanceUnique] at advanced
  split at advanced
  case h_1 => cases advanced
  case h_2 => cases advanced; simp

variable (compare)

/-- Groups are handed to the reducer until it accepts one. -/
def acInExtAdvanceReduce (reducer : Reducer ρ ς) (h : Ext ρ ς) : Option ρ × Ext ρ ς :=
  match taken : acInExtAdvanceUnique compare h with
  | (none,h) => (none,h)
  | (some group,h') =>
    match reducer h'.reducerArg group with
    | (some record,arg) => (some record,{ h' with reducerArg := arg })
    | (none,arg) => acInExtAdvanceReduce reducer { h' with reducerArg := arg }
termination_by (undelivered h).length
decreasing_by
  have perm := (unique_takes taken).length_eq
  have := List.length_pos_of_ne_nil (unique_nonempty taken)
  rw [List.length_append] at perm
  simp only [undelivered] at perm ⊢
  omega

/-- `ac_in_advance`: the call through the function pointer. A missing reducer
    is a call through NULL. -/
def acInAdvance (h : Ext ρ ς) : Option (Option ρ × Ext ρ ς) :=
  match h.advance with
  | .emptyRecord => some (none,h)
  | .extAdvance => some (acInExtAdvance compare h)
  | .extAdvanceReduce =>
    match h.reducer with
    | some reducer => some (acInExtAdvanceReduce compare reducer h)
    | none => none

/-- `ac_in_advance_unique`: the call through the function pointer. -/
def acInAdvanceUnique (h : Ext ρ ς) : Option (Option (List ρ) × Ext ρ ς) :=
  match h.advanceUnique with
  | .emptyRecordUnique => some (none,h)
  | .extAdvanceUnique => some (acInExtAdvanceUnique compare h)

/-- Adds an input that delivers the given records. -/
def acInExtAdd (h : Ext ρ ς) (records : List ρ) : Ext ρ ς :=
  match In.start records with
  | none => h
  | some input =>
    let h := inHeapPush compare (moveActiveToHeap compare h false) input
    { h with
      activeSize := if h.activeSize < h.heap.length then h.maxSize else h.activeSize
      active := []
      advance :=
        if h.advance = .emptyRecord then if h.reducer.isSome then .extAdvanceReduce else .extAdvance
        else h.advance
      advanceUnique := if h.advance = .emptyRecord then .extAdvanceUnique else h.advanceUnique }

def acInExtReducer (h : Ext ρ ς) (reducer : Reducer ρ ς) : Ext ρ ς :=
  { h with
    advance := if h.advance = .extAdvance then .extAdvanceReduce else h.advance
    reducer := some reducer }

/-- The inputs, added one after the other. -/
def addAll (h : Ext ρ ς) (inputs : List (List ρ)) : Ext ρ ς := inputs.foldl (acInExtAdd compare) h

variable {compare}

/-! ### What the arrays hold -/

/-- The heap is ordered, fits its array, and every input in it is sorted. -/
structure HeapReady (compare : ρ → ρ → Int) (h : Ext ρ ς) : Prop where
  ordered : Heap.Ordered (inHeapCompare compare) h.heap
  sorted : ∀ input ∈ h.heap, Sorted compare input.records
  fits : h.heap.length ≤ h.maxSize
  grows : 2 ≤ h.maxSize

/-- Between two calls: also the active inputs are sorted, and `active` has
    room for every input. -/
structure Ready (compare : ρ → ρ → Int) (h : Ext ρ ς) : Prop extends HeapReady compare h where
  activeSorted : ∀ input ∈ h.active, Sorted compare input.records
  room : h.active.length + h.heap.length ≤ h.activeSize

theorem inHeapPush_ready (total : Total compare) {h : Ext ρ ς} (ready : HeapReady compare h) {input : In ρ}
    (sorted : Sorted compare input.records) : HeapReady compare (inHeapPush compare h input) where
  ordered := Heap.push_ordered (total.weak In.current) ready.ordered input
  sorted other member := by
    rcases List.mem_cons.mp ((Heap.push_perm _ _ _).mem_iff.mp member) with rfl | old
    · exact sorted
    · exact ready.sorted other old
  fits := by
    have := ready.fits
    have := ready.grows
    simp only [inHeapPush,Heap.push_length]
    split <;> omega
  grows := by
    have := ready.grows
    simp only [inHeapPush]
    split <;> omega

theorem inHeapPush_length (h : Ext ρ ς) (input : In ρ) :
    (inHeapPush compare h input).heap.length = h.heap.length + 1 := Heap.push_length _ _

theorem rest_sorted {input : In ρ} (sorted : Sorted compare input.records) : Sorted compare input.rest :=
  (List.pairwise_cons.mp sorted).2

theorem moveToHeap_ready (total : Total compare) {h : Ext ρ ς} (ready : HeapReady compare h) {input : In ρ}
    (sorted : Sorted compare input.records) :
    HeapReady compare (moveToHeap compare true h input) ∧
      (moveToHeap compare true h input).heap.length ≤ h.heap.length + 1 ∧
      (moveToHeap compare true h input).activeSize = h.activeSize := by
  obtain ⟨current,rest⟩ := input
  cases rest with
  | nil => exact ⟨ready,by simp [moveToHeap,In.advance,In.start],rfl⟩
  | cons r rest =>
    refine ⟨inHeapPush_ready total ready (rest_sorted sorted),?_,rfl⟩
    exact Nat.le_of_eq (inHeapPush_length h ⟨r,rest⟩)

theorem move_fold_ready (total : Total compare) (inputs : List (In ρ)) {h : Ext ρ ς} (ready : HeapReady compare h)
    (sorted : ∀ input ∈ inputs, Sorted compare input.records) :
    HeapReady compare (inputs.foldl (moveToHeap compare true) h) ∧
      (inputs.foldl (moveToHeap compare true) h).heap.length ≤ inputs.length + h.heap.length ∧
      (inputs.foldl (moveToHeap compare true) h).activeSize = h.activeSize := by
  induction inputs generalizing h with
  | nil => exact ⟨ready,by simp,rfl⟩
  | cons input inputs ih =>
    obtain ⟨moved,length,size⟩ := moveToHeap_ready total ready (sorted input (by simp))
    obtain ⟨folded,lengths,sizes⟩ := ih moved (fun other member => sorted other (List.mem_cons_of_mem _ member))
    refine ⟨folded,?_,sizes.trans size⟩
    simp only [List.foldl_cons,List.length_cons]
    omega

theorem moveActive_ready (total : Total compare) {h : Ext ρ ς} (ready : Ready compare h) :
    HeapReady compare (moveActiveToHeap compare h true) ∧
      (moveActiveToHeap compare h true).heap.length ≤ h.activeSize ∧
      (moveActiveToHeap compare h true).activeSize = h.activeSize := by
  obtain ⟨folded,length,size⟩ := move_fold_ready total h.active ready.toHeapReady ready.activeSorted
  exact ⟨⟨folded.ordered,folded.sorted,folded.fits,folded.grows⟩,Nat.le_trans length ready.room,size⟩

/-- An advance leaves both arrays in order and within their bounds. -/
theorem advance_ready (total : Total compare) {h h' : Ext ρ ς} {answer : Option ρ} (ready : Ready compare h)
    (advanced : acInExtAdvance compare h = (answer,h')) : Ready compare h' := by
  obtain ⟨moved,length,size⟩ := moveActive_ready total ready
  simp only [acInExtAdvance] at advanced
  split at advanced
  case h_1 input heap popped =>
    cases advanced
    have perm := Heap.pop_perm popped
    have lengthIs := Heap.pop_length popped
    have member := fun other => (perm.mem_iff (a := other)).mpr
    refine ⟨⟨Heap.pop_ordered (total.weak In.current) popped moved.ordered,?_,?_,moved.grows⟩,?_,?_⟩
    · intro other inRest
      exact moved.sorted other (member other (List.mem_cons_of_mem _ inRest))
    · have := moved.fits
      simp only
      omega
    · intro other only
      rw [List.mem_singleton] at only
      subst only
      exact moved.sorted other (member other (by simp))
    · simp only [List.length_singleton,size]
      omega
  case h_2 =>
    cases advanced
    refine ⟨⟨moved.ordered,moved.sorted,moved.fits,moved.grows⟩,by simp [acInEmpty],?_⟩
    simp only [acInEmpty,moveActive_active,List.length_nil,size]
    omega

theorem current_least (total : Total compare) {input : In ρ} (sorted : Sorted compare input.records) :
    ∀ r ∈ input.records, compare input.current r ≤ 0 := by
  intro r member
  rcases List.mem_cons.mp member with rfl | later
  · have := total.refl input.current
    omega
  · exact (List.pairwise_cons.mp sorted).1 r later

/-- What stands at the root is least among all records of the heap. -/
theorem pop_least (total : Total compare) {heap rest : List (In ρ)} {input : In ρ}
    (popped : Heap.pop (inHeapCompare compare) heap = some (input,rest))
    (ordered : Heap.Ordered (inHeapCompare compare) heap) (sorted : ∀ other ∈ heap, Sorted compare other.records) :
    ∀ r ∈ heap.flatMap In.records, compare input.current r ≤ 0 := by
  intro r member
  obtain ⟨other,inHeap,inOther⟩ := List.mem_flatMap.mp member
  have first := Heap.pop_least (total.weak In.current) popped ordered other inHeap
  simp only [decide_eq_false_iff_not,Int.not_lt] at first
  exact total.trans _ _ _ ((total.le_iff _ _).mpr first) (current_least total (sorted other inHeap) r inOther)

/-- The record an advance hands out is least among the undelivered ones. -/
theorem advance_least (total : Total compare) {h h' : Ext ρ ς} {r : ρ} (ready : Ready compare h)
    (advanced : acInExtAdvance compare h = (some r,h')) : ∀ x ∈ undelivered h, compare r x ≤ 0 := by
  obtain ⟨moved,_,_⟩ := moveActive_ready total ready
  simp only [acInExtAdvance] at advanced
  split at advanced
  case h_1 input heap popped =>
    cases advanced
    intro x member
    have inHeap := (moveActive_undelivered compare h).mem_iff.mpr member
    simp only [undelivered,moveActive_active,List.flatMap_nil,List.nil_append] at inHeap
    exact pop_least total popped moved.ordered moved.sorted x inHeap
  case h_2 => cases advanced

/-! ### Groups of one key -/

/-- `gather` takes the inputs on the key of `first` off a heap whose records do
    not come before `first`, and leaves those with a later key. -/
theorem gather_splits (total : Total compare) (first : ρ) (size : Nat) {heap : List (In ρ)} (whole : heap.length = size)
    (ordered : Heap.Ordered (inHeapCompare compare) heap)
    (above : ∀ input ∈ heap, compare first input.current ≤ 0) :
    (∀ input ∈ (gather compare first size heap).1, input ∈ heap ∧ compare first input.current = 0) ∧
      (∀ input ∈ (gather compare first size heap).2, input ∈ heap ∧ compare first input.current < 0) ∧
      Heap.Ordered (inHeapCompare compare) (gather compare first size heap).2 ∧
      (gather compare first size heap).1.length + (gather compare first size heap).2.length = heap.length := by
  induction size generalizing heap with
  | zero =>
    rw [List.length_eq_zero_iff] at whole
    subst whole
    simp [gather,Heap.ordered_nil]
  | succ size ih =>
    have weak := total.weak (α := In ρ) In.current
    rw [gather]
    cases popped : Heap.pop (inHeapCompare compare) heap with
    | none =>
      rw [Heap.pop_none.mp popped] at whole
      simp at whole
    | some pair =>
      obtain ⟨input,rest⟩ := pair
      have perm := Heap.pop_perm popped
      have lengthIs := Heap.pop_length popped
      have inHeap : ∀ other ∈ input :: rest, other ∈ heap := fun other => perm.mem_iff.mpr
      have restOrdered := Heap.pop_ordered weak popped ordered
      simp only
      split
      case isTrue same =>
        obtain ⟨taken,left,leftOrdered,count⟩ :=
          ih (by omega) restOrdered (fun other member => above other (inHeap other (List.mem_cons_of_mem _ member)))
        refine ⟨?_,fun other member => ⟨inHeap other (List.mem_cons_of_mem _ (left other member).1),
          (left other member).2⟩,leftOrdered,by simp only [List.length_cons]; omega⟩
        intro other member
        rcases List.mem_cons.mp member with rfl | later
        · exact ⟨inHeap other (by simp),same⟩
        · exact ⟨inHeap other (List.mem_cons_of_mem _ (taken other later).1),(taken other later).2⟩
      case isFalse other =>
        have less : compare first input.current < 0 := by
          have := above input (inHeap input (by simp))
          omega
        refine ⟨by simp,?_,Heap.push_ordered weak restOrdered input,by simp [Heap.push_length,lengthIs]⟩
        intro another member
        have inside := perm.mem_iff.mpr ((Heap.push_perm _ _ _).mem_iff.mp member)
        have least := Heap.pop_least weak popped ordered another inside
        simp only [decide_eq_false_iff_not,Int.not_lt] at least
        exact ⟨inside,total.lt_of_lt_of_le less ((total.le_iff _ _).mpr least)⟩

/-- Every input holds at most one record of a key. -/
structure Distinct (compare : ρ → ρ → Int) (h : Ext ρ ς) : Prop extends Ready compare h where
  heapStrict : ∀ input ∈ h.heap, Strict compare input.records
  activeStrict : ∀ input ∈ h.active, Strict compare input.records

theorem move_fold_mem (inputs : List (In ρ)) (h : Ext ρ ς) (moved : In ρ)
    (member : moved ∈ (inputs.foldl (moveToHeap compare true) h).heap) :
    moved ∈ h.heap ∨ ∃ input ∈ inputs, input.rest = moved.records := by
  induction inputs generalizing h with
  | nil => exact .inl member
  | cons input inputs ih =>
    rcases ih _ member with old | ⟨other,inside,same⟩
    · obtain ⟨current,rest⟩ := input
      cases rest with
      | nil => exact .inl old
      | cons r rest =>
        rcases List.mem_cons.mp ((Heap.push_perm _ _ _).mem_iff.mp old) with rfl | older
        · exact .inr ⟨⟨current,r :: rest⟩,by simp,rfl⟩
        · exact .inl older
    · exact .inr ⟨other,List.mem_cons_of_mem _ inside,same⟩

theorem advance_distinct (total : Total compare) {h h' : Ext ρ ς} {answer : Option ρ} (distinct : Distinct compare h)
    (advanced : acInExtAdvance compare h = (answer,h')) : Distinct compare h' := by
  have ready := advance_ready total distinct.toReady advanced
  have movedStrict : ∀ input ∈ (moveActiveToHeap compare h true).heap, Strict compare input.records := by
    intro input member
    rcases move_fold_mem h.active h input member with old | ⟨other,inside,same⟩
    · exact distinct.heapStrict input old
    · rw [← same]
      exact (List.pairwise_cons.mp (distinct.activeStrict other inside)).2
  simp only [acInExtAdvance] at advanced
  split at advanced
  case h_1 input heap popped =>
    cases advanced
    have member := fun other => ((Heap.pop_perm popped).mem_iff (a := other)).mpr
    refine ⟨ready,?_,?_⟩
    · intro other inRest
      exact movedStrict other (member other (List.mem_cons_of_mem _ inRest))
    · intro other only
      rw [List.mem_singleton] at only
      subst only
      exact movedStrict other (member other (by simp))
  case h_2 =>
    cases advanced
    exact ⟨ready,movedStrict,by simp [acInEmpty]⟩

/-- After the first record of a group: its input is active and holds only later
    keys behind the record, and no record in the heap comes before it. -/
theorem advance_first (total : Total compare) {h h' : Ext ρ ς} {first : ρ} (distinct : Distinct compare h)
    (advanced : acInExtAdvance compare h = (some first,h')) :
    (∀ input ∈ h'.active, input.current = first) ∧ h'.active.length = 1 ∧
      ∀ input ∈ h'.heap, compare first input.current ≤ 0 := by
  have least := advance_least total distinct.toReady advanced
  have perm := advance_takes advanced
  simp only [acInExtAdvance] at advanced
  split at advanced
  case h_1 input heap popped =>
    cases advanced
    refine ⟨by simp,by simp,fun other member => least _ (perm.mem_iff.mpr ?_)⟩
    simp only [undelivered,List.mem_cons,List.mem_append,List.mem_flatMap]
    exact .inr (.inr ⟨other,member,by simp [In.records]⟩)
  case h_2 => cases advanced

theorem later_keys (total : Total compare) {input : In ρ} (strict : Strict compare input.records) {first : ρ}
    (same : compare first input.current = 0) : ∀ x ∈ input.rest, compare first x < 0 := by
  intro x member
  exact total.lt_of_zero_of_lt same ((List.pairwise_cons.mp strict).1 x member)

/-- A unique advance keeps the invariant, hands out records of one key and
    leaves only later keys. -/
theorem unique_group (total : Total compare) {h h' : Ext ρ ς} {group : List ρ} (distinct : Distinct compare h)
    (advanced : acInExtAdvanceUnique compare h = (some group,h')) :
    Distinct compare h' ∧ ∃ first ∈ group, (∀ x ∈ group, compare first x = 0) ∧
      ∀ x ∈ undelivered h', compare first x < 0 := by
  simp only [acInExtAdvanceUnique] at advanced
  split at advanced
  case h_1 => cases advanced
  case h_2 first h₁ moved =>
    cases advanced
    have after := advance_distinct total distinct moved
    obtain ⟨activeIs,one,above⟩ := advance_first total distinct moved
    obtain ⟨taken,left,ordered,count⟩ := gather_splits total first _ rfl after.ordered above
    have room := after.room
    have fits := after.fits
    refine ⟨⟨⟨⟨ordered,fun input member => after.sorted input (left input member).1,?_,after.grows⟩,?_,?_⟩,
      fun input member => after.heapStrict input (left input member).1,?_⟩,first,by simp,?_,?_⟩
    · simp only
      omega
    · intro input member
      rcases List.mem_append.mp member with old | new
      · exact after.activeSorted input old
      · exact after.sorted input (taken input new).1
    · simp only [List.length_append]
      omega
    · intro input member
      rcases List.mem_append.mp member with old | new
      · exact after.activeStrict input old
      · exact after.heapStrict input (taken input new).1
    · intro x member
      rcases List.mem_cons.mp member with rfl | later
      · exact total.refl x
      · obtain ⟨input,inside,rfl⟩ := List.mem_map.mp later
        exact (taken input inside).2
    · intro x member
      simp only [undelivered,List.mem_append,List.mem_flatMap] at member
      rcases member with ⟨input,old | new,inRest⟩ | ⟨input,inLeft,inRecords⟩
      · exact later_keys total (after.activeStrict input old) (by rw [activeIs input old]; exact total.refl first) x inRest
      · exact later_keys total (after.heapStrict input (taken input new).1) (taken input new).2 x inRest
      · obtain ⟨inHeap,less⟩ := left input inLeft
        exact total.lt_of_lt_of_le less (current_least total (after.sorted input inHeap) x inRecords)

theorem unique_ends {h h' : Ext ρ ς} (advanced : acInExtAdvanceUnique compare h = (none,h')) :
    acInExtAdvance compare h = (none,h') := by
  simp only [acInExtAdvanceUnique] at advanced
  split at advanced
  case h_1 moved => cases advanced; exact moved
  case h_2 => cases advanced

/-! ### Whole runs -/

/-- Two sets with the same inputs; their callbacks may differ. -/
def SameInputs (h k : Ext ρ ς) : Prop := h.active = k.active ∧ h.heap = k.heap

theorem move_fold_same (advance : Bool) (inputs : List (In ρ)) {h k : Ext ρ ς} (same : h.heap = k.heap) :
    (inputs.foldl (moveToHeap compare advance) h).heap = (inputs.foldl (moveToHeap compare advance) k).heap := by
  induction inputs generalizing h k with
  | nil => exact same
  | cons input inputs ih =>
    refine ih ?_
    simp only [moveToHeap,inHeapPush]
    split <;> (try split) <;> simp [same]

variable (compare) in
/-- Moving and pushing touch nothing but the two arrays. -/
theorem move_fold_fields (advance : Bool) (inputs : List (In ρ)) (h : Ext ρ ς) :
    ∃ heap size, inputs.foldl (moveToHeap compare advance) h = { h with heap := heap, maxSize := size } := by
  induction inputs generalizing h with
  | nil => exact ⟨_,_,rfl⟩
  | cons input inputs ih =>
    obtain ⟨heap,size,same⟩ := ih (moveToHeap compare advance h input)
    refine ⟨heap,size,same.trans ?_⟩
    simp only [moveToHeap]
    split <;> (try split) <;> rfl

theorem advance_fields {h h' : Ext ρ ς} {r : ρ} (advanced : acInExtAdvance compare h = (some r,h')) :
    ∃ active heap size, h' = { h with active := active, heap := heap, maxSize := size } := by
  obtain ⟨heap,size,same⟩ := move_fold_fields compare true h.active h
  simp only [acInExtAdvance,moveActiveToHeap,same] at advanced
  split at advanced
  case h_1 => cases advanced; exact ⟨_,_,_,rfl⟩
  case h_2 => cases advanced

theorem advance_ends_fields {h h' : Ext ρ ς} (advanced : acInExtAdvance compare h = (none,h')) :
    ∃ active heap size, h' = acInEmpty { h with active := active, heap := heap, maxSize := size } := by
  obtain ⟨heap,size,same⟩ := move_fold_fields compare true h.active h
  simp only [acInExtAdvance,moveActiveToHeap,same] at advanced
  split at advanced
  case h_1 => cases advanced
  case h_2 => cases advanced; exact ⟨_,_,_,rfl⟩

theorem unique_fields {h h' : Ext ρ ς} {group : List ρ} (advanced : acInExtAdvanceUnique compare h = (some group,h')) :
    ∃ active heap size, h' = { h with active := active, heap := heap, maxSize := size } := by
  simp only [acInExtAdvanceUnique] at advanced
  split at advanced
  case h_1 => cases advanced
  case h_2 moved =>
    cases advanced
    obtain ⟨active,heap,size,rfl⟩ := advance_fields moved
    exact ⟨_,_,_,rfl⟩

variable (compare) in
theorem advance_same {h k : Ext ρ ς} (same : SameInputs h k) :
    (acInExtAdvance compare h).1 = (acInExtAdvance compare k).1 ∧
      SameInputs (acInExtAdvance compare h).2 (acInExtAdvance compare k).2 := by
  have moved : (moveActiveToHeap compare h true).heap = (moveActiveToHeap compare k true).heap := by
    simp only [moveActiveToHeap,same.1]
    exact move_fold_same true k.active same.2
  simp only [acInExtAdvance,← moved]
  cases popped : Heap.pop (inHeapCompare compare) (moveActiveToHeap compare h true).heap with
  | none => exact ⟨rfl,rfl,moved⟩
  | some pair => exact ⟨rfl,rfl,rfl⟩

variable (compare) in
theorem unique_same {h k : Ext ρ ς} (same : SameInputs h k) :
    (acInExtAdvanceUnique compare h).1 = (acInExtAdvanceUnique compare k).1 ∧
      SameInputs (acInExtAdvanceUnique compare h).2 (acInExtAdvanceUnique compare k).2 := by
  obtain ⟨answer,after⟩ := advance_same compare same
  simp only [acInExtAdvanceUnique]
  rcases first : acInExtAdvance compare h with ⟨answer₁,h₁⟩
  rcases second : acInExtAdvance compare k with ⟨answer₂,k₁⟩
  rw [first,second] at answer after
  simp only at answer
  subst answer
  cases answer₁ with
  | none => exact ⟨rfl,after⟩
  | some r =>
    obtain ⟨activeIs,heapIs⟩ := after
    simp only at activeIs heapIs
    simp [SameInputs,activeIs,heapIs]

/-- The unique advances from `h` hand out the groups and then end. -/
inductive Run (compare : ρ → ρ → Int) : Ext ρ ς → List (List ρ) → Prop
  | done {h h' : Ext ρ ς} : acInExtAdvanceUnique compare h = (none,h') → Run compare h []
  | group {h h' : Ext ρ ς} {group : List ρ} {groups : List (List ρ)} :
      acInExtAdvanceUnique compare h = (some group,h') → Run compare h' groups → Run compare h (group :: groups)

theorem Run.nothing {h : Ext ρ ς} {groups : List (List ρ)} (run : Run compare h groups) (idle : h.active = [])
    (empty : h.heap = []) : groups = [] := by
  cases run with
  | done _ => rfl
  | group taken _ =>
    have perm := unique_takes taken
    simp only [undelivered,idle,empty,List.flatMap_nil,List.append_nil,List.nil_perm,List.append_eq_nil_iff] at perm
    exact absurd perm.1 (unique_nonempty taken)

/-- Unique advances group what is undelivered by key. -/
theorem run_groups (total : Total compare) {h : Ext ρ ς} (distinct : Distinct compare h) :
    ∃ groups, Run compare h groups ∧ Groups compare (undelivered h) groups := by
  induction size : (undelivered h).length using Nat.strongRecOn generalizing h with
  | ind size ih =>
    rcases advanced : acInExtAdvanceUnique compare h with ⟨_ | group,h'⟩
    · rw [(advance_ends (unique_ends advanced)).1]
      exact ⟨[],.done advanced,Groups.nil⟩
    · obtain ⟨kept,first,member,same,later⟩ := unique_group total distinct advanced
      have perm := unique_takes advanced
      have fewer := perm.length_eq
      have := List.length_pos_of_ne_nil (unique_nonempty advanced)
      rw [List.length_append] at fewer
      obtain ⟨groups,run,grouped⟩ := ih _ (by omega) kept rfl
      exact ⟨group :: groups,.group advanced run,Groups.cons total perm member same later grouped⟩

theorem run_unique {h : Ext ρ ς} {groups : List (List ρ)} (run : Run compare h groups)
    (callback : h.advanceUnique = .extAdvanceUnique) : Yields (acInAdvanceUnique compare) h groups := by
  induction run with
  | done ended =>
    refine Yields.nil (by rw [acInAdvanceUnique,callback]; exact congrArg some ended) ?_
    obtain ⟨active,heap,size,rfl⟩ := advance_ends_fields (unique_ends ended)
    exact Yields.stop rfl
  | group advanced run ih =>
    refine Yields.cons (by rw [acInAdvanceUnique,callback]; exact congrArg some advanced) (ih ?_)
    obtain ⟨active,heap,size,rfl⟩ := unique_fields advanced
    exact callback

/-- What a reducer makes of groups, one call for each group. -/
def collect (reducer : Reducer ρ ς) : ς → List (List ρ) → List ρ
  | _, [] => []
  | arg, group :: groups =>
    match reducer arg group with
    | (some record,arg) => record :: collect reducer arg groups
    | (none,arg) => collect reducer arg groups

theorem collect_keepFirst (arg : ς) (groups : List (List ρ)) :
    collect acIoKeepFirst arg groups = groups.filterMap List.head? := by
  induction groups with
  | nil => rfl
  | cons group groups ih =>
    cases group with
    | nil => exact ih
    | cons x xs => exact congrArg (List.cons x) ih

/-- The state of a reducer after one call for each group. -/
def calls (reducer : Reducer ρ ς) (arg : ς) (groups : List (List ρ)) : ς :=
  groups.foldl (fun arg group => (reducer arg group).2) arg

variable (compare) in
theorem reduce_step (reducer : Reducer ρ ς) (h : Ext ρ ς) : acInExtAdvanceReduce compare reducer h =
    match acInExtAdvanceUnique compare h with
    | (none,h) => (none,h)
    | (some group,h') =>
      match reducer h'.reducerArg group with
      | (some record,arg) => (some record,{ h' with reducerArg := arg })
      | (none,arg) => acInExtAdvanceReduce compare reducer { h' with reducerArg := arg } := by
  rw [acInExtAdvanceReduce]
  split <;> rename_i taken <;> simp only [taken]

/-- With a reducer the same inputs deliver what the reducer makes of the same
    groups, and the reducer was called once for each group at the end. -/
theorem run_reduce {h k : Ext ρ ς} {groups : List (List ρ)} {reducer : Reducer ρ ς} (run : Run compare h groups)
    (same : SameInputs h k) (callback : k.advance = .extAdvanceReduce) (set : k.reducer = some reducer) :
    Yields (acInAdvance compare) k (collect reducer k.reducerArg groups) ∧
      Finally (acInAdvance compare) k fun last => last.reducerArg = calls reducer k.reducerArg groups := by
  have call : ∀ k : Ext ρ ς, k.advance = .extAdvanceReduce → k.reducer = some reducer →
      acInAdvance compare k = some (acInExtAdvanceReduce compare reducer k) := by
    intro k callback set
    simp only [acInAdvance,callback,set]
  induction run generalizing k with
  | done ended =>
    obtain ⟨answer,after⟩ := unique_same compare same
    rcases advanced : acInExtAdvanceUnique compare k with ⟨answer',k'⟩
    rw [ended,advanced] at answer
    simp only at answer
    subst answer
    have moves : acInAdvance compare k = some (none,k') := by
      rw [call k callback set,reduce_step,advanced]
    obtain ⟨active,heap,size,rfl⟩ := advance_ends_fields (unique_ends advanced)
    exact ⟨Yields.nil moves (Yields.stop rfl),Finally.cons moves (Finally.stop rfl rfl)⟩
  | @group h h' group groups taken run ih =>
    obtain ⟨answer,after⟩ := unique_same compare same
    rcases advanced : acInExtAdvanceUnique compare k with ⟨answer',k'⟩
    rw [taken,advanced] at answer after
    simp only at answer
    subst answer
    obtain ⟨active,heap,size,rfl⟩ := unique_fields advanced
    rcases reduced : reducer k.reducerArg group with ⟨_ | record,arg⟩
    · -- a rejected group: the loop goes on within the same call
      have moves : acInAdvance compare k = acInAdvance compare
          { k with active := active, heap := heap, maxSize := size, reducerArg := arg } := by
        rw [call k callback set,call { k with active := active, heap := heap, maxSize := size, reducerArg := arg }
          callback set,reduce_step,advanced]
        simp only [reduced]
      obtain ⟨yields,called⟩ :=
        ih (k := { k with active := active, heap := heap, maxSize := size, reducerArg := arg }) after callback set
      simp only [collect,calls,List.foldl_cons,reduced]
      exact ⟨Yields.congr moves.symm yields,Finally.congr moves.symm called⟩
    · have moves : acInAdvance compare k = some (some record,
          { k with active := active, heap := heap, maxSize := size, reducerArg := arg }) := by
        rw [call k callback set,reduce_step,advanced]
        simp only [reduced]
      obtain ⟨yields,called⟩ :=
        ih (k := { k with active := active, heap := heap, maxSize := size, reducerArg := arg }) after callback set
      simp only [collect,calls,List.foldl_cons,reduced]
      exact ⟨Yields.cons moves yields,Finally.cons moves called⟩

/-- Plain advances merge what is undelivered. -/
theorem run_merge (total : Total compare) {h : Ext ρ ς} (ready : Ready compare h) (callback : h.advance = .extAdvance) :
    ∃ records, Yields (acInAdvance compare) h records ∧ records.Perm (undelivered h) ∧ Sorted compare records := by
  induction size : (undelivered h).length using Nat.strongRecOn generalizing h with
  | ind size ih =>
    have moves : acInAdvance compare h = some (acInExtAdvance compare h) := by
      simp only [acInAdvance,callback]
    rcases advanced : acInExtAdvance compare h with ⟨_ | r,h'⟩ <;> rw [advanced] at moves
    · rw [(advance_ends advanced).1]
      obtain ⟨active,heap,size,rfl⟩ := advance_ends_fields advanced
      exact ⟨[],Yields.nil moves (Yields.stop rfl),List.Perm.refl _,List.Pairwise.nil⟩
    · have perm := advance_takes advanced
      have fewer := perm.length_eq
      rw [List.length_cons] at fewer
      have kept : h'.advance = .extAdvance := by
        obtain ⟨active,heap,size,rfl⟩ := advance_fields advanced
        exact callback
      obtain ⟨records,yields,whole,sorted⟩ := ih _ (by omega) (advance_ready total ready advanced) kept rfl
      refine ⟨r :: records,Yields.cons moves yields,(whole.cons r).trans perm.symm,List.pairwise_cons.mpr ⟨?_,sorted⟩⟩
      intro x member
      exact advance_least total ready advanced x (perm.mem_iff.mpr (List.mem_cons_of_mem _ (whole.mem_iff.mp member)))

/-! ### Adding inputs -/

/-- The callbacks of a set that was not advanced yet: the empty ones until an
    input with a record was added. -/
def Waiting (h : Ext ρ ς) : Prop :=
  h.advance = .emptyRecord ∧ h.advanceUnique = .emptyRecordUnique ∧ h.heap = [] ∨
    h.advance = (if h.reducer.isSome then .extAdvanceReduce else .extAdvance) ∧ h.advanceUnique = .extAdvanceUnique

/-- A set that was not advanced yet, with the records of the inputs added. -/
structure Added (compare : ρ → ρ → Int) (h : Ext ρ ς) (inputs : List (List ρ)) : Prop where
  ready : Ready compare h
  idle : h.active = []
  holds : (undelivered h).Perm inputs.flatten
  origin : ∀ input ∈ h.heap, input.records ∈ inputs
  waiting : Waiting h

theorem init_added (arg : ς) : Added compare (acInExtInit (ρ := ρ) arg) [] where
  ready := ⟨⟨Heap.ordered_nil _,by simp [acInExtInit],by simp [acInExtInit],by simp [acInExtInit]⟩,
    by simp [acInExtInit],by simp [acInExtInit]⟩
  idle := rfl
  holds := List.Perm.refl _
  origin := by simp [acInExtInit]
  waiting := .inl ⟨rfl,rfl,rfl⟩

theorem add_added (total : Total compare) {h : Ext ρ ς} {inputs : List (List ρ)} (added : Added compare h inputs)
    {records : List ρ} (sorted : Sorted compare records) :
    Added compare (acInExtAdd compare h records) (inputs ++ [records]) := by
  obtain ⟨ready,idle,holds,origin,waiting⟩ := added
  cases records with
  | nil =>
    have nothing : acInExtAdd compare h [] = h := rfl
    rw [nothing]
    exact ⟨ready,idle,by simpa using holds,fun input member => List.mem_append_left _ (origin input member),waiting⟩
  | cons r rest =>
    have same : moveActiveToHeap compare h false = h := by
      simp only [moveActiveToHeap,idle,List.foldl_nil]
      rw [← idle]
    have pushed : HeapReady compare (inHeapPush compare h ⟨r,rest⟩) := inHeapPush_ready total ready.toHeapReady sorted
    have perm := inHeapPush_records compare h ⟨r,rest⟩
    have fits := pushed.fits
    simp only [acInExtAdd,In.start,same]
    refine ⟨⟨⟨pushed.ordered,pushed.sorted,pushed.fits,pushed.grows⟩,by simp,?_⟩,rfl,?_,?_,?_⟩
    · simp only [List.length_nil]
      split <;> omega
    · simp only [undelivered,idle,List.flatMap_nil,List.nil_append] at holds ⊢
      rw [List.flatten_append,List.flatten_singleton]
      exact perm.trans ((holds.append_left _).trans List.perm_append_comm)
    · intro input member
      rcases List.mem_cons.mp ((Heap.push_perm _ _ _).mem_iff.mp member) with rfl | old
      · exact List.mem_append_right _ (by simp [In.records])
      · exact List.mem_append_left _ (origin input old)
    · refine .inr ?_
      simp only [inHeapPush]
      rcases waiting with ⟨first,second,_⟩ | ⟨first,second⟩ <;> simp only [first,second] <;> split <;> simp_all

theorem reducer_added {h : Ext ρ ς} {inputs : List (List ρ)} (added : Added compare h inputs) (reducer : Reducer ρ ς) :
    Added compare (acInExtReducer h reducer) inputs := by
  obtain ⟨ready,idle,holds,origin,waiting⟩ := added
  refine ⟨⟨⟨ready.ordered,ready.sorted,ready.fits,ready.grows⟩,ready.activeSorted,ready.room⟩,idle,holds,origin,?_⟩
  rcases waiting with ⟨first,second,none⟩ | ⟨first,second⟩
  · exact .inl ⟨by simp [acInExtReducer,first],second,none⟩
  · refine .inr ⟨?_,second⟩
    simp only [acInExtReducer,first,Option.isSome_some]
    split <;> simp_all

theorem addAll_added (total : Total compare) {h : Ext ρ ς} {inputs : List (List ρ)} (added : Added compare h inputs)
    (more : List (List ρ)) (sorted : ∀ records ∈ more, Sorted compare records) :
    Added compare (addAll compare h more) (inputs ++ more) := by
  induction more generalizing h inputs with
  | nil => simpa [addAll] using added
  | cons records more ih =>
    have := ih (add_added total added (sorted records (by simp)))
      (fun other member => sorted other (List.mem_cons_of_mem _ member))
    simpa [addAll] using this

theorem Added.distinct {h : Ext ρ ς} {inputs : List (List ρ)} (added : Added compare h inputs)
    (strict : ∀ records ∈ inputs, Strict compare records) : Distinct compare h where
  toReady := added.ready
  heapStrict input member := strict _ (added.origin input member)
  activeStrict := by simp [added.idle]

/-- `ac_in_advance` merges the inputs added. -/
theorem merge_yields (total : Total compare) {h : Ext ρ ς} {inputs : List (List ρ)} (added : Added compare h inputs)
    (plain : h.reducer = none) :
    ∃ records, Yields (acInAdvance compare) h records ∧ records.Perm inputs.flatten ∧ Sorted compare records := by
  rcases added.waiting with ⟨callback,_,none⟩ | ⟨callback,_⟩
  · have empty := added.holds.symm
    simp only [undelivered,added.idle,none,List.flatMap_nil,List.append_nil,List.perm_nil] at empty
    refine ⟨[],Yields.stop ?_,by rw [empty],List.Pairwise.nil⟩
    simp only [acInAdvance,callback]
  · simp only [plain,Option.isSome_none,Bool.false_eq_true,if_false] at callback
    obtain ⟨records,yields,perm,sorted⟩ := run_merge total added.ready callback
    exact ⟨records,yields,perm.trans added.holds,sorted⟩

theorem add_same {h k : Ext ρ ς} (same : SameInputs h k) (records : List ρ) :
    SameInputs (acInExtAdd compare h records) (acInExtAdd compare k records) := by
  cases records with
  | nil => exact same
  | cons r rest =>
    refine ⟨rfl,?_⟩
    simp only [acInExtAdd,In.start,inHeapPush,moveActiveToHeap,same.1]
    rw [move_fold_same false k.active same.2]

theorem addAll_same {h k : Ext ρ ς} (same : SameInputs h k) (inputs : List (List ρ)) :
    SameInputs (addAll compare h inputs) (addAll compare k inputs) := by
  induction inputs generalizing h k with
  | nil => exact same
  | cons records inputs ih => exact ih (add_same same records)

variable (compare) in
theorem addAll_fields (h : Ext ρ ς) (inputs : List (List ρ)) :
    (addAll compare h inputs).reducer = h.reducer ∧ (addAll compare h inputs).reducerArg = h.reducerArg := by
  induction inputs generalizing h with
  | nil => exact ⟨rfl,rfl⟩
  | cons records inputs ih =>
    have one : (acInExtAdd compare h records).reducer = h.reducer ∧
        (acInExtAdd compare h records).reducerArg = h.reducerArg := by
      cases records with
      | nil => exact ⟨rfl,rfl⟩
      | cons r rest =>
        obtain ⟨heap,size,same⟩ := move_fold_fields compare false h.active h
        simp only [acInExtAdd,In.start,inHeapPush,moveActiveToHeap,same]
        exact ⟨trivial,trivial⟩
    exact ⟨(ih _).1.trans one.1,(ih _).2.trans one.2⟩

variable (compare) in
/-- A set with a reducer: the reducer is set when some of the inputs are added. -/
def reducing (arg : ς) (before : List (List ρ)) (reducer : Reducer ρ ς) (later : List (List ρ)) : Ext ρ ς :=
  addAll compare (acInExtReducer (addAll compare (acInExtInit arg) before) reducer) later

variable (compare) in
theorem reducing_fields (arg : ς) (before : List (List ρ)) (reducer : Reducer ρ ς) (later : List (List ρ)) :
    (reducing compare arg before reducer later).reducer = some reducer ∧
      (reducing compare arg before reducer later).reducerArg = arg := by
  obtain ⟨set,argIs⟩ := addAll_fields compare (acInExtReducer (addAll compare (acInExtInit arg) before) reducer) later
  exact ⟨set,argIs.trans (addAll_fields compare _ before).2⟩

variable (compare) in
theorem reducing_same (arg : ς) (before : List (List ρ)) (reducer : Reducer ρ ς) (later : List (List ρ)) :
    SameInputs (addAll compare (acInExtInit arg) (before ++ later)) (reducing compare arg before reducer later) := by
  rw [reducing,addAll,List.foldl_append]
  exact addAll_same (h := addAll compare (acInExtInit arg) before) (k := acInExtReducer (addAll compare (acInExtInit arg) before) reducer) ⟨rfl,rfl⟩ later

theorem added (total : Total compare) (arg : ς) {inputs : List (List ρ)}
    (sorted : ∀ records ∈ inputs, Sorted compare records) :
    Added compare (addAll compare (acInExtInit arg) inputs) inputs :=
  addAll_added total (init_added arg) inputs sorted

theorem reducing_added (total : Total compare) (arg : ς) {before later : List (List ρ)} (reducer : Reducer ρ ς)
    (sorted : ∀ records ∈ before ++ later, Sorted compare records) :
    Added compare (reducing compare arg before reducer later) (before ++ later) := by
  refine addAll_added total (reducer_added (added total arg fun records member => ?_) reducer) later fun records member => ?_
  · exact sorted records (List.mem_append_left _ member)
  · exact sorted records (List.mem_append_right _ member)

/-- A set with a reducer delivers what the reducer makes of the groups. -/
theorem reducing_yields (total : Total compare) (arg : ς) (before later : List (List ρ)) (reducer : Reducer ρ ς)
    (strict : ∀ records ∈ before ++ later, Strict compare records) {groups : List (List ρ)}
    (run : Run compare (addAll compare (acInExtInit arg) (before ++ later)) groups) :
    Yields (acInAdvance compare) (reducing compare arg before reducer later) (collect reducer arg groups) ∧
      Finally (acInAdvance compare) (reducing compare arg before reducer later) fun last =>
        last.reducerArg = calls reducer arg groups := by
  have ready := reducing_added total arg reducer (fun records member => (strict records member).sorted)
  obtain ⟨set,argIs⟩ := reducing_fields compare arg before reducer later
  have same := reducing_same compare arg before reducer later
  rcases ready.waiting with ⟨callback,_,none⟩ | ⟨callback,_⟩
  · -- nothing was added, so the callback is still the empty one
    have ends : acInAdvance compare (reducing compare arg before reducer later) =
        some (Option.none,reducing compare arg before reducer later) := by
      simp only [acInAdvance,callback]
    obtain rfl := run.nothing (same.1.trans ready.idle) (same.2.trans none)
    exact ⟨Yields.stop ends,Finally.stop ends argIs⟩
  · rw [set] at callback
    have delivered := run_reduce run same callback set
    rwa [argIs] at delivered

/-- The set of inputs is a k-way merge. A plain advance delivers the records of
    all inputs in order. Where no input holds a key twice, a unique advance
    delivers them in groups by key, and a reducer is called once for each of
    these groups. -/
theorem set_merges (total : Total compare) (arg : ς) (inputs : List (List ρ))
    (sorted : ∀ records ∈ inputs, Sorted compare records) :
    (∃ merged, Yields (acInAdvance compare) (addAll compare (acInExtInit arg) inputs) merged ∧
        merged.Perm inputs.flatten ∧ Sorted compare merged) ∧
      ((∀ records ∈ inputs, Strict compare records) →
        ∃ groups, Groups compare inputs.flatten groups ∧
          Yields (acInAdvanceUnique compare) (addAll compare (acInExtInit arg) inputs) groups ∧
          ∀ (reducer : Reducer ρ ς) (before later : List (List ρ)), before ++ later = inputs →
            Yields (acInAdvance compare) (reducing compare arg before reducer later) (collect reducer arg groups) ∧
            Finally (acInAdvance compare) (reducing compare arg before reducer later) fun last =>
              last.reducerArg = calls reducer arg groups) := by
  have ready := added total arg sorted
  refine ⟨merge_yields total ready (addAll_fields compare _ inputs).1,fun strict => ?_⟩
  obtain ⟨groups,run,grouped⟩ := run_groups total (ready.distinct strict)
  refine ⟨groups,Groups.perm ready.holds grouped,?_,?_⟩
  · rcases ready.waiting with ⟨_,callback,none⟩ | ⟨_,callback⟩
    · obtain rfl := run.nothing ready.idle none
      exact Yields.stop (by simp only [acInAdvanceUnique,callback])
    · exact run_unique run callback
  · rintro reducer before later rfl
    exact reducing_yields total arg before later reducer strict run

/-- Numbers, compared by their difference. -/
def byValue (a b : Int) : Int := a - b

theorem byValue_total : Total byValue where
  swap a b := by simp only [byValue]; omega
  trans a b c := by simp only [byValue]; omega

theorem set_merges_numbers :
    (∃ merged, Yields (acInAdvance byValue) (addAll byValue (acInExtInit ()) [[1,3],[],[1,2,4]]) merged ∧
        merged.Perm [1,3,1,2,4] ∧ Sorted byValue merged) ∧
      ∃ groups, Groups byValue [1,3,1,2,4] groups ∧
        Yields (acInAdvanceUnique byValue) (addAll byValue (acInExtInit ()) [[1,3],[],[1,2,4]]) groups ∧
        Yields (acInAdvance byValue) (reducing byValue () [[1,3]] acIoKeepFirst [[],[1,2,4]])
          (collect acIoKeepFirst () groups) := by
  obtain ⟨merged,unique⟩ := set_merges byValue_total () [[1,3],[],[1,2,4]] (by simp [Sorted,byValue])
  obtain ⟨groups,grouped,handed,reduced⟩ := unique (by simp [Strict,byValue])
  exact ⟨merged,groups,grouped,handed,(reduced acIoKeepFirst [[1,3]] [[],[1,2,4]] rfl).1⟩

end
end AnotherC.InExt
