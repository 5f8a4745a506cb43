import AnotherC.Io.Records

/-!
# A reducer on one input: `advance_reduced`

The sub advance reads every record into the one slot `rec` of the input. To see
the end of a run, `advance_reduced` reads one record too many and calls
`ac_in_reset`, which is to hand that record out again. But the reducer writes
its result into the same slot, and the next advance hands the result out a
second time. So the head of every further run is lost, and a stream is reduced
as it should be only if it is a single run (`stream_reduces`). The array version
`ac_in_records_advance_and_reduce` has no such slot (`records_reduce`).
-/
namespace AnotherC.Reduce
open AnotherC.Lib
open AnotherC.Lib.Order (EquivalenceOn runs spanRun)
open AnotherC.Lib.Stream (Yields Finally)
open AnotherC.InExt (Reducer collect calls acIoKeepFirst)
open AnotherC.Records (acInRecordsInit records_reduce)
set_option linter.unusedVariables false

/-- `ac_io_record_t`. -/
structure Record where
  tag : Int
  record : List UInt8
deriving Repr, DecidableEq

/-- The pointers `current` and `current_tmp`: NULL, or at the slot `rec`. -/
inductive Current
  | null
  | slot
deriving Repr, DecidableEq

/-- What the function pointer `advance` of the input is. -/
inductive AdvanceCb
  | advanceReduced
  | reset
  | emptyRecord
deriving Repr, DecidableEq

/-- The input. `slot` is its `rec`, and `base` holds what the sub advance has
    not read yet. -/
structure In (ς : Type) where
  slot : Record
  current : Current
  numCurrent : Nat
  currentTmp : Current
  numCurrentTmp : Nat
  advance : AdvanceCb
  advanceTmp : AdvanceCb
  base : List (List UInt8)
  reducerArg : ς
deriving Repr, DecidableEq

section
variable {ς : Type}

/-- An input opened with a reducer. -/
def acInInit (tag : Int) (stream : List (List UInt8)) (arg : ς) : In ς where
  slot := ⟨tag,[]⟩
  current := .null
  numCurrent := 0
  currentTmp := .null
  numCurrentTmp := 0
  advance := .advanceReduced
  advanceTmp := .advanceReduced
  base := stream
  reducerArg := arg

/-- `sub_advance`: the next record into the slot, which keeps its tag. -/
def subAdvance (h : In ς) : Option Record × In ς :=
  match h.base with
  | [] => (none,{ h with current := .null, numCurrent := 0 })
  | record :: base =>
    let r : Record := ⟨h.slot.tag,record⟩
    (some r,{ h with slot := r, current := .slot, numCurrent := 1, base := base })

/-- `_ac_in_empty`. -/
def acInEmpty (h : In ς) : In ς :=
  { h with
    current := .null
    currentTmp := .null
    numCurrent := 0
    numCurrentTmp := 0
    advance := .emptyRecord
    advanceTmp := .emptyRecord }

def acInReset (h : In ς) : In ς :=
  match h.current with
  | .null => h
  | .slot =>
    { h with
      advance := .reset
      currentTmp := h.current
      current := .null
      numCurrentTmp := h.numCurrent
      numCurrent := 0 }

def postReset (h : In ς) : In ς :=
  { h with
    current := h.currentTmp
    numCurrent := h.numCurrentTmp
    currentTmp := .null
    numCurrentTmp := 0
    advance := h.advanceTmp }

/-- The record a pointer leads to. -/
def deref (h : In ς) : Current → Option Record
  | .null => none
  | .slot => some h.slot

variable (compare : Record → Record → Int)

theorem subAdvance_base {h h' : In ς} {r : Record} (read : subAdvance h = (some r,h')) :
    h'.base.length < h.base.length := by
  simp only [subAdvance] at read
  split at read
  case h_1 => cases read
  case h_2 same => cases read; simp [same]

/-- The inner loop of `advance_reduced`: records equal to `first` are taken, and
    the first other one is kept for the next call. -/
def readRun (first : Record) (h : In ς) : List Record × In ς :=
  match read : subAdvance h with
  | (none,h) => ([],h)
  | (some r,h) =>
    if compare first r ≠ 0 then ([],acInReset h)
    else
      let more := readRun first h
      (r :: more.1,more.2)
termination_by h.base.length
decreasing_by exact subAdvance_base read

theorem subAdvance_none {h h' : In ς} (read : subAdvance h = (none,h')) :
    h.base = [] ∧ h' = { h with current := .null, numCurrent := 0 } := by
  simp only [subAdvance] at read
  split at read
  case h_1 empty => cases read; exact ⟨empty,rfl⟩
  case h_2 => cases read

theorem acInReset_base (h : In ς) : (acInReset h).base = h.base := by
  simp only [acInReset]
  split <;> rfl

theorem readRun_base (first : Record) (h : In ς) : (readRun compare first h).2.base.length ≤ h.base.length := by
  induction size : h.base.length using Nat.strongRecOn generalizing h with
  | ind size ih =>
    rw [readRun]
    split
    case h_1 h' read =>
      obtain ⟨empty,rfl⟩ := subAdvance_none read
      exact Nat.le_of_eq size
    case h_2 r h' read =>
      have fewer := subAdvance_base read
      split
      · rw [acInReset_base]
        omega
      · exact Nat.le_trans (ih _ (by omega) h' rfl) (by omega)

/-- The do loop of `advance_reduced`: one run after the other is handed to the
    reducer until it accepts one. -/
def advanceReduced (reducer : Reducer Record ς) (h : In ς) : Option Record × In ς :=
  match read : subAdvance h with
  | (none,h) => (none,acInEmpty h)
  | (some first,h') =>
    let group := readRun compare first h'
    match reducer group.2.reducerArg (first :: group.1) with
    | (some res,arg) => (some res,{ group.2 with slot := res, numCurrent := 1, current := .slot, reducerArg := arg })
    | (none,arg) => advanceReduced reducer { group.2 with reducerArg := arg }
termination_by h.base.length
decreasing_by
  have := subAdvance_base read
  have := readRun_base compare first h'
  omega

/-- `ac_in_advance`: the call through the function pointer. -/
def acInAdvance (reducer : Reducer Record ς) (h : In ς) : Option (Option Record × In ς) :=
  match h.advance with
  | .advanceReduced => some (advanceReduced compare reducer h)
  | .reset => some (deref (postReset h) (postReset h).current,postReset h)
  | .emptyRecord => some (none,h)

variable {compare}

/-- The records that the sub advance delivers from now on. -/
def upcoming (h : In ς) : List Record := h.base.map (Record.mk h.slot.tag)

/-- The inner loop that ends with the stream. -/
def atEnd (h : In ς) (slot : Record) : In ς := { h with slot := slot, current := .null, numCurrent := 0, base := [] }

/-- The inner loop that read a record of the next run: it stands in the slot,
    and the next advance is to hand it out again. -/
def replaying (h : In ς) (slot : Record) (base : List (List UInt8)) : In ς :=
  { h with
    slot := slot
    current := .null
    numCurrent := 0
    currentTmp := .slot
    numCurrentTmp := 1
    advance := .reset
    base := base }

theorem subAdvance_cons {h : In ς} {record : List UInt8} {base : List (List UInt8)} (unread : h.base = record :: base) :
    subAdvance h = (some ⟨h.slot.tag,record⟩,
      { h with slot := ⟨h.slot.tag,record⟩, current := .slot, numCurrent := 1, base := base }) := by
  simp only [subAdvance,unread]

theorem subAdvance_nil {h : In ς} (unread : h.base = []) :
    subAdvance h = (none,{ h with current := .null, numCurrent := 0 }) := by
  simp only [subAdvance,unread]

/-- The input once `record` is read into its slot. -/
def reading (h : In ς) (record : List UInt8) (base : List (List UInt8)) : In ς :=
  { h with slot := ⟨h.slot.tag,record⟩, current := .slot, numCurrent := 1, base := base }

variable (compare)

theorem readRun_nil (first : Record) {h : In ς} (unread : h.base = []) :
    readRun compare first h = ([],{ h with current := .null, numCurrent := 0 }) := by
  rw [readRun]
  split <;> rename_i read <;> rw [subAdvance_nil unread] at read <;> cases read
  rfl

theorem readRun_cons (first : Record) {h : In ς} {record : List UInt8} {base : List (List UInt8)}
    (unread : h.base = record :: base) :
    readRun compare first h =
      if compare first ⟨h.slot.tag,record⟩ = 0 then
        (⟨h.slot.tag,record⟩ :: (readRun compare first (reading h record base)).1,
          (readRun compare first (reading h record base)).2)
      else ([],acInReset (reading h record base)) := by
  rw [readRun]
  split <;> rename_i read <;> rw [subAdvance_cons unread] at read <;> cases read
  simp only [ne_eq,ite_not]
  rfl

/-- What the inner loop takes and where it leaves the input. -/
theorem readRun_spec (first : Record) (h : In ς) :
    (readRun compare first h).1 = (spanRun compare first (upcoming h)).1 ∧
      match (spanRun compare first (upcoming h)).2 with
      | [] => ∃ slot, (readRun compare first h).2 = atEnd h slot ∧ slot.tag = h.slot.tag
      | r :: rest => ∃ base, (readRun compare first h).2 = replaying h r base ∧ r.tag = h.slot.tag ∧
          rest = base.map (Record.mk h.slot.tag) := by
  induction unread : h.base generalizing h with
  | nil =>
    rw [readRun_nil compare first unread]
    simp only [upcoming,unread,List.map_nil,spanRun]
    exact ⟨trivial,h.slot,by simp [atEnd,← unread],rfl⟩
  | cons record base ih =>
    rw [readRun_cons compare first unread]
    simp only [upcoming,unread,List.map_cons,spanRun]
    split
    case isTrue same =>
      obtain ⟨taken,left⟩ := ih (reading h record base) rfl
      refine ⟨congrArg _ taken,?_⟩
      exact left
    case isFalse => exact ⟨rfl,base,rfl,rfl,rfl⟩

theorem advanceReduced_nil (reducer : Reducer Record ς) {h : In ς} (unread : h.base = []) :
    advanceReduced compare reducer h = (none,acInEmpty h) := by
  rw [advanceReduced]
  split <;> rename_i read <;> rw [subAdvance_nil unread] at read <;> cases read
  rfl

/-- One turn of the do loop. -/
theorem advanceReduced_cons (reducer : Reducer Record ς) {h : In ς} {record : List UInt8} {base : List (List UInt8)}
    (unread : h.base = record :: base) :
    advanceReduced compare reducer h =
      let first : Record := ⟨h.slot.tag,record⟩
      let group := readRun compare first (reading h record base)
      match reducer group.2.reducerArg (first :: group.1) with
      | (some res,arg) => (some res,{ group.2 with slot := res, numCurrent := 1, current := .slot, reducerArg := arg })
      | (none,arg) => advanceReduced compare reducer { group.2 with reducerArg := arg } := by
  rw [advanceReduced]
  split <;> rename_i read <;> rw [subAdvance_cons unread] at read <;> cases read
  rfl

/-! ### The stream -/

theorem advance_calls (reducer : Reducer Record ς) {h : In ς} (callback : h.advance = .advanceReduced) :
    acInAdvance compare reducer h = some (advanceReduced compare reducer h) := by
  simp only [acInAdvance,callback]

theorem stream_ends (reducer : Reducer Record ς) {h : In ς} (callback : h.advance = .advanceReduced)
    (unread : h.base = []) :
    Yields (acInAdvance compare reducer) h [] ∧
      Finally (acInAdvance compare reducer) h fun last => last.reducerArg = h.reducerArg := by
  have moves := advance_calls compare reducer callback
  rw [advanceReduced_nil compare reducer unread] at moves
  exact ⟨Yields.nil moves (Yields.stop rfl),Finally.cons moves (Finally.stop rfl rfl)⟩

/-- A stream of one run is reduced as it should be. -/
theorem stream_single (reducer : Reducer Record ς) {h : In ς} (callback : h.advance = .advanceReduced)
    {first : Record} {more : List Record} (delivers : upcoming h = first :: more)
    (single : (spanRun compare first more).2 = []) :
    Yields (acInAdvance compare reducer) h (collect reducer h.reducerArg [first :: more]) ∧
      Finally (acInAdvance compare reducer) h fun last => last.reducerArg = calls reducer h.reducerArg [first :: more] := by
  have moves := advance_calls compare reducer callback
  simp only [upcoming] at delivers
  cases unread : h.base with
  | nil => simp [unread] at delivers
  | cons record base =>
    rw [unread,List.map_cons,List.cons.injEq] at delivers
    obtain ⟨firstIs,moreIs⟩ := delivers
    have spec := readRun_spec compare first (reading h record base)
    have upcomingIs : upcoming (reading h record base) = more := moreIs
    have taken := Order.spanRun_append compare first more
    rw [single,List.append_nil] at taken
    rw [upcomingIs,single,taken] at spec
    obtain ⟨group,slot,left,tagIs⟩ := spec
    rw [advanceReduced_cons compare reducer unread] at moves
    simp only [firstIs,group,left] at moves
    rcases reduced : reducer h.reducerArg (first :: more) with ⟨_ | res,arg⟩
    all_goals simp only [atEnd,reading,reduced] at moves
    all_goals simp only [collect,calls,List.foldl_cons,List.foldl_nil,reduced]
    · rw [advanceReduced_nil compare reducer rfl] at moves
      exact ⟨Yields.nil moves (Yields.stop rfl),Finally.cons moves (Finally.stop rfl rfl)⟩
    · obtain ⟨yields,called⟩ := stream_ends compare reducer (h := { h with
        slot := res, numCurrent := 1, current := .slot, base := [], reducerArg := arg }) callback rfl
      exact ⟨Yields.cons moves yields,Finally.cons moves called⟩

/-! ### What the reducer is called with -/

/-- A reducer that also keeps the groups it was called with. -/
def traced (reducer : Reducer Record ς) : Reducer Record (ς × List (List Record)) := fun arg group =>
  ((reducer arg.1 group).1,(reducer arg.1 group).2,arg.2 ++ [group])

theorem collect_traced (reducer : Reducer Record ς) (arg : ς) (log groups : List (List Record)) :
    collect (traced reducer) (arg,log) groups = collect reducer arg groups := by
  induction groups generalizing arg log with
  | nil => rfl
  | cons group groups ih =>
    simp only [collect,traced]
    rcases reducer arg group with ⟨_ | res,arg'⟩
    · exact ih arg' _
    · exact congrArg _ (ih arg' _)

theorem calls_traced (reducer : Reducer Record ς) (arg : ς) (log groups : List (List Record)) :
    (calls (traced reducer) (arg,log) groups).2 = log ++ groups := by
  induction groups generalizing arg log with
  | nil => simp [calls]
  | cons group groups ih =>
    have rest := ih (reducer arg group).2 (log ++ [group])
    simpa [calls,traced] using rest

/-- The advances from `s` deliver what the reducer makes of the maximal runs of
    `records`, and at the end it was called once with each run and nothing else. -/
structure Collapses {σ : Type} (step : σ → Option (Option Record × σ)) (log : σ → List (List Record)) (s : σ)
    (reducer : Reducer Record ς) (arg : ς) (records : List Record) : Prop where
  yields : Yields step s (collect reducer arg (runs compare records))
  called : Finally step s fun last => log last = runs compare records

/-- The group that is handed to the reducer next. -/
def nextGroup (h : In ς) : Option (List Record) :=
  match upcoming h with
  | [] => none
  | first :: more => some (first :: (spanRun compare first more).1)

/-- The second call of the reducer is not, or will not be, the one for `run`. -/
def Misses (run : List Record) (h : In (ς × List (List Record))) : Prop :=
  (∃ before, h.reducerArg.2 = [before]) ∧ nextGroup compare h ≠ some run ∨
    ∃ before group more, h.reducerArg.2 = before :: group :: more ∧ group ≠ run

theorem readRun_arg (first : Record) (h : In ς) : (readRun compare first h).2.reducerArg = h.reducerArg := by
  obtain ⟨_,left⟩ := readRun_spec compare first h
  split at left
  · obtain ⟨slot,left,_⟩ := left
    rw [left]
    rfl
  · obtain ⟨base,left,_⟩ := left
    rw [left]
    rfl

theorem misses_loop (reducer : Reducer Record ς) {run : List Record} {h : In (ς × List (List Record))}
    (misses : Misses compare run h) : Misses compare run (advanceReduced compare (traced reducer) h).2 := by
  induction size : h.base.length using Nat.strongRecOn generalizing h with
  | ind size ih =>
    cases unread : h.base with
    | nil =>
      rw [advanceReduced_nil compare _ unread]
      rcases misses with ⟨once,_⟩ | twice
      · exact .inl ⟨once,by simp [nextGroup,upcoming,acInEmpty,unread]⟩
      · exact .inr twice
    | cons record base =>
      have group := (readRun_spec compare ⟨h.slot.tag,record⟩ (reading h record base)).1
      have argIs := readRun_arg compare ⟨h.slot.tag,record⟩ (reading h record base)
      have fewer : (readRun compare ⟨h.slot.tag,record⟩ (reading h record base)).2.base.length ≤ base.length :=
        readRun_base compare ⟨h.slot.tag,record⟩ (reading h record base)
      rw [unread,List.length_cons] at size
      have twice : ∃ before group' more, h.reducerArg.2 ++
          [(⟨h.slot.tag,record⟩ : Record) :: (readRun compare ⟨h.slot.tag,record⟩ (reading h record base)).1] =
            before :: group' :: more ∧ group' ≠ run := by
        rcases misses with ⟨⟨before,once⟩,next⟩ | ⟨before,group',more,same,differs⟩
        · refine ⟨before,_,[],by rw [once]; rfl,fun equal => next ?_⟩
          rw [← equal,group]
          simp only [nextGroup,upcoming,unread,List.map_cons,reading]
        · exact ⟨before,group',more ++ [_],by rw [same]; rfl,differs⟩
      rw [advanceReduced_cons compare _ unread]
      simp only [traced,argIs]
      rcases reducer (reading h record base).reducerArg.1
        (⟨h.slot.tag,record⟩ :: (readRun compare ⟨h.slot.tag,record⟩ (reading h record base)).1) with ⟨_ | res,arg⟩
      · exact ih _ (Nat.lt_of_le_of_lt fewer (by omega)) (.inr twice) rfl
      · exact .inr twice

theorem misses_step (reducer : Reducer Record ς) {run : List Record} (h : In (ς × List (List Record)))
    (misses : Misses compare run h) (answer : Option Record) (h' : In (ς × List (List Record)))
    (moves : acInAdvance compare (traced reducer) h = some (answer,h')) : Misses compare run h' := by
  simp only [acInAdvance] at moves
  split at moves
  case h_1 =>
    have loop := misses_loop compare reducer misses
    rw [Option.some.inj moves] at loop
    exact loop
  case h_2 => cases moves; exact misses
  case h_3 => cases moves; exact misses

/-- The head of the second run was read into the slot and is gone, so the next
    group is not that run. -/
theorem head_lost {h : In ς} {second : Record} (same : compare second second = 0) :
    nextGroup compare h ≠ some (second :: (spanRun compare second (h.base.map (Record.mk second.tag))).1) := by
  intro equal
  simp only [nextGroup,upcoming] at equal
  cases unread : h.base with
  | nil => simp [unread] at equal
  | cons record base =>
    simp only [unread,List.map_cons,Option.some.injEq,List.cons.injEq] at equal
    obtain ⟨rfl,equal⟩ := equal
    simp only [spanRun,same,if_true] at equal
    have := congrArg List.length equal
    simp at this

/-- A stream of two or more runs is not reduced as it should be: the second run
    is never handed to the reducer. -/
theorem stream_loses (reducer : Reducer Record ς) {h : In (ς × List (List Record))}
    (callback : h.advance = .advanceReduced) (unlogged : h.reducerArg.2 = []) {first second : Record}
    {more rest : List Record} (delivers : upcoming h = first :: more) (next : (spanRun compare first more).2 = second :: rest)
    (same : compare second second = 0) :
    ∃ h' answer, acInAdvance compare (traced reducer) h = some (answer,h') ∧
      Misses compare (second :: (spanRun compare second rest).1) h' := by
  have moves := advance_calls compare (traced reducer) callback
  simp only [upcoming] at delivers
  cases unread : h.base with
  | nil => simp [unread] at delivers
  | cons record base =>
    rw [unread,List.map_cons,List.cons.injEq] at delivers
    obtain ⟨firstIs,moreIs⟩ := delivers
    have spec := readRun_spec compare first (reading h record base)
    have upcomingIs : upcoming (reading h record base) = more := moreIs
    rw [upcomingIs,next] at spec
    obtain ⟨group,left,leftIs,tagIs,restIs⟩ := spec
    have tagSame : (reading h record base).slot.tag = second.tag := tagIs.symm
    rw [tagSame] at restIs
    rw [advanceReduced_cons compare _ unread] at moves
    simp only [firstIs,group,leftIs] at moves
    simp only [replaying,reading,traced,unlogged,List.nil_append] at moves
    have misses : ∀ k : In (ς × List (List Record)), k.base = left → (∃ before, k.reducerArg.2 = [before]) →
        Misses compare (second :: (spanRun compare second rest).1) k := by
      intro k baseIs once
      refine .inl ⟨once,?_⟩
      have lost := head_lost compare (h := k) same
      rwa [baseIs,← restIs] at lost
    rcases reduced : reducer h.reducerArg.1 (first :: (spanRun compare first more).1) with ⟨_ | res,arg⟩
    all_goals simp only [reduced] at moves
    · exact ⟨_,_,moves,misses_loop compare reducer (misses _ rfl ⟨_,rfl⟩)⟩
    · exact ⟨_,_,moves,misses _ rfl ⟨_,rfl⟩⟩

/-- A reducer on a stream collapses the runs exactly where there is at most one
    run; on an array of records it always does. -/
theorem stream_reduces (reducer : Reducer Record ς) (arg : ς) (tag : Int) (stream : List (List UInt8))
    (same : EquivalenceOn compare (stream.map (Record.mk tag))) :
    (Collapses compare (acInAdvance compare (traced reducer)) (fun h => h.reducerArg.2) (acInInit tag stream (arg,[]))
        reducer arg (stream.map (Record.mk tag)) ↔
      (runs compare (stream.map (Record.mk tag))).length ≤ 1) ∧
    Collapses compare (Records.acInAdvance compare) (fun h => h.reducerArg.2)
      (acInRecordsInit (stream.map (Record.mk tag)) (some (traced reducer)) (arg,[])) reducer arg (stream.map (Record.mk tag)) := by
  refine ⟨⟨fun collapses => ?_,fun single => ?_⟩,?_⟩
  · by_contra many
    cases delivers : stream.map (Record.mk tag) with
    | nil => simp [delivers] at many
    | cons first more =>
      rw [delivers] at same
      have rest : EquivalenceOn compare (spanRun compare first more).2 := same.mono fun a member => by
        rw [← Order.spanRun_append compare first more]
        exact List.mem_cons_of_mem _ (List.mem_append_right _ member)
      cases next : (spanRun compare first more).2 with
      | nil => simp [delivers,Order.runs_cons same,next] at many
      | cons second later =>
        rw [next] at rest
        obtain ⟨h',answer,moves,misses⟩ := stream_loses compare reducer (h := acInInit tag stream (arg,[])) rfl rfl
          delivers next (rest.refl second (by simp))
        obtain ⟨last,misses,called⟩ :=
          Finally.invariant (misses_step compare reducer) misses (collapses.called.tail moves)
        rw [delivers,Order.runs_cons same,next,Order.runs_cons rest] at called
        rcases misses with ⟨⟨before,once⟩,_⟩ | ⟨before,group,more,twice,differs⟩
        · simp [once] at called
        · rw [twice] at called
          simp only [List.cons.injEq] at called
          exact differs called.2.1
  · cases delivers : stream.map (Record.mk tag) with
    | nil =>
      obtain ⟨yields,called⟩ := stream_ends compare (traced reducer) (h := acInInit tag stream (arg,[])) rfl
        (List.map_eq_nil_iff.mp delivers)
      exact ⟨yields,called.imp (fun last same => by rw [same]; rfl)⟩
    | cons first more =>
      rw [delivers] at same single
      rw [Order.runs_cons same,List.length_cons] at single
      have next : (spanRun compare first more).2 = [] :=
        List.splitBy_eq_nil.mp (List.length_eq_zero_iff.mp (Nat.le_zero.mp (Nat.le_of_succ_le_succ single)))
      have taken := Order.spanRun_append compare first more
      rw [next,List.append_nil] at taken
      obtain ⟨yields,called⟩ := stream_single compare (traced reducer) (h := acInInit tag stream (arg,[])) rfl
        delivers next
      have once : runs compare (first :: more) = [first :: more] := by
        rw [Order.runs_cons same,next,taken]
        rfl
      refine ⟨?_,called.imp fun last same => ?_⟩
      · rw [once]
        simpa only [acInInit,collect_traced] using yields
      · rw [once,same]
        exact calls_traced reducer arg [] [first :: more]
  · obtain ⟨yields,called⟩ := records_reduce compare (traced reducer) (arg,([] : List (List Record))) same
    rw [collect_traced] at yields
    refine ⟨yields,called.imp fun last same => ?_⟩
    rw [same,calls_traced,List.nil_append]

/-- Records are equal if their bytes are. -/
def byRecord (a b : Record) : Int := if a.record = b.record then 0 else 1

theorem byRecord_equivalence (records : List Record) : EquivalenceOn byRecord records where
  refl a _ := by simp [byRecord]
  symm a _ b _ same := by simp_all [byRecord]
  trans a _ b _ c _ ab bc := by simp_all [byRecord]

/-- The first of two different records is kept twice and the second one is lost. -/
theorem keepFirst_repeats :
    ¬ Collapses byRecord (acInAdvance byRecord (traced acIoKeepFirst)) (fun h => h.reducerArg.2)
      (acInInit 0 [[1],[2]] ((),[])) acIoKeepFirst () ([[1],[2]].map (Record.mk 0)) := by
  intro collapses
  have second := collapses.yields 1
  have group : readRun byRecord ⟨0,[1]⟩ (reading (acInInit 0 [[1],[2]] ((),([] : List (List Record)))) [1] [[2]]) =
      ([],acInReset (reading (reading (acInInit 0 [[1],[2]] ((),[])) [1] [[2]]) [2] [])) :=
    (readRun_cons byRecord _ rfl).trans (if_neg (by decide))
  have moves := advance_calls byRecord (traced acIoKeepFirst) (h := acInInit 0 [[1],[2]] ((),[])) rfl
  rw [advanceReduced_cons byRecord _ (h := acInInit 0 [[1],[2]] ((),[])) rfl] at moves
  simp only [show (acInInit 0 [[1],[2]] ((),([] : List (List Record)))).slot.tag = 0 from rfl,group] at moves
  have given : Stream.call (acInAdvance byRecord (traced acIoKeepFirst)) 1 (acInInit 0 [[1],[2]] ((),[])) =
      some (some ⟨0,[1]⟩) := by
    rw [Stream.call,moves]
    rfl
  rw [given] at second
  exact absurd second (by decide)

theorem stream_reduces_bytes :
    (Collapses byRecord (acInAdvance byRecord (traced acIoKeepFirst)) (fun h => h.reducerArg.2)
        (acInInit 0 [[1],[1]] ((),[])) acIoKeepFirst () ([[1],[1]].map (Record.mk 0)) ↔
      (runs byRecord ([[1],[1]].map (Record.mk 0))).length ≤ 1) ∧
    Collapses byRecord (Records.acInAdvance byRecord) (fun h => h.reducerArg.2)
      (acInRecordsInit ([[1],[1]].map (Record.mk 0)) (some (traced acIoKeepFirst)) ((),[])) acIoKeepFirst () ([[1],[1]].map (Record.mk 0)) :=
  stream_reduces byRecord acIoKeepFirst () 0 [[1],[1]] (byRecord_equivalence _)

end
end AnotherC.Reduce
