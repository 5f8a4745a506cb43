import Mathlib.Algebra.Order.Ring.Int
import Mathlib.Algebra.BigOperators.Group.List.Basic
import AnotherC.Io.Records

/-!
# Sorted outputs: `ac_out_sorted`

Records gather in a buffer, which is filled from both ends. A full buffer is
sorted and written out as a run, and a record that does not fit into an empty
buffer is a run of its own. With `num_per_group` the runs are group runs first
and are merged into one run when there are enough of them. At the end what is
left is merged. Group runs that are left while the buffer is empty are not, and
the sort counts the records of a buffer in 32 bits; apart from the records that
are lost by this (`lost`) the output is sorted and complete (`sorted_delivers`).
-/
namespace AnotherC.Sorted
open AnotherC.Lib
open AnotherC.Lib.Order (Total Sorted Strict Groups SameKeys runs)
open AnotherC.Lib.Stream (Yields)
open AnotherC.InExt (Ext Reducer acIoKeepFirst)
open AnotherC.Records (InRecords)
set_option linter.unusedVariables false

abbrev Record := List UInt8

/-- `ac_out_buffer_t`: `bp` and `ep` are offsets, and `records` are the ones
    stored, whose descriptors lie below `bp` and whose bytes lie above `ep`. -/
structure Buffer where
  size : Nat
  bp : Nat
  ep : Nat
  records : List Record
deriving Repr, DecidableEq

def clearBuffer (b : Buffer) : Buffer := { b with bp := 0, ep := b.size, records := [] }

def initBuffer (size : Nat) : Buffer := clearBuffer ⟨size,0,0,[]⟩

/-- `ac_out_ext_options_t`. -/
structure ExtOptions where
  compare : Record → Record → Int
  intCompare : Option (Record → Record → Int)
  reducer : Option (Reducer Record Unit)
  intReducer : Option (Reducer Record Unit)
  numPerGroup : Nat

/-- The output: the temporary runs and the group runs are the files written so
    far. `cut` records what the 32 bit count left behind; the program keeps no
    such list. -/
structure OutSorted where
  b : Buffer
  written : List (List Record)
  groupWritten : List (List Record)
  outInCalled : Bool
  extOptions : ExtOptions
  cut : List Record

/-- The compare function for the records of one buffer. -/
def intCompare (options : ExtOptions) : Record → Record → Int := options.intCompare.getD options.compare

/-- `ac_out_ext_init` without partitions: what is not set for the runs is taken
    over, and then the buffer is allocated. -/
def acOutExtInit (bufferSize : Nat) (extOptions : ExtOptions) : OutSorted where
  b := initBuffer bufferSize
  written := []
  groupWritten := []
  outInCalled := false
  extOptions :=
    { extOptions with
      intCompare := some (intCompare extOptions)
      intReducer := if extOptions.intReducer.isSome then extOptions.intReducer else extOptions.reducer }
  cut := []

section
variable (sort : (Record → Record → Int) → List Record → List Record)

/-- `_in_from_buffer`; `sort` is `ac_io_sort_records`, and the number of records
    is passed on as `uint32_t`. -/
def inFromBuffer (h : OutSorted) : Option (InRecords Record Unit) × OutSorted :=
  if h.b.records = [] then (none,h)
  else
    let numR := h.b.records.length % 2 ^ 32
    let r := sort (intCompare h.extOptions) (h.b.records.take numR)
    (some (Records.acInRecordsInit r h.extOptions.intReducer ()),
      { h with b := clearBuffer h.b, cut := h.cut ++ h.b.records.drop numR })

/-- `get_next_tmp` and the records written to the file. -/
def writeTmp (h : OutSorted) (tmpOnly : Bool) (records : List Record) : OutSorted :=
  if !tmpOnly && h.extOptions.numPerGroup != 0 then { h with groupWritten := h.groupWritten ++ [records] }
  else { h with written := h.written ++ [records] }

/-- The set of inputs over files. -/
def inFiles (options : ExtOptions) (files : List (List Record)) : Ext Record Unit :=
  let h := InExt.acInExtInit ()
  let h := match options.reducer with
    | some reducer => InExt.acInExtReducer h reducer
    | none => h
  InExt.addAll options.compare h files

/-- The loop that writes what an input delivers. -/
def copyFiles (options : ExtOptions) (files : List (List Record)) : List Record :=
  Stream.drain (InExt.acInAdvance options.compare) files.flatten.length (inFiles options files)

def copyRecords (options : ExtOptions) (h : InRecords Record Unit) : List Record :=
  Stream.drain (Records.acInAdvance (intCompare options)) h.rp.length h

def checkForMerge (h : OutSorted) : OutSorted :=
  if h.extOptions.numPerGroup = 0 ∨ h.groupWritten.length < h.extOptions.numPerGroup then h
  else { writeTmp h true (copyFiles h.extOptions h.groupWritten) with groupWritten := [] }

def writeSortedThread (h : OutSorted) : OutSorted :=
  let (input,h) := inFromBuffer sort h
  let h := writeTmp h false ((input.map (copyRecords h.extOptions)).getD [])
  if h.extOptions.numPerGroup ≠ 0 then checkForMerge h else h

def writeSorted (h : OutSorted) : OutSorted := if h.b.bp = 0 then h else writeSortedThread sort h

def writeOneRecord (h : OutSorted) (d : Record) : Bool × OutSorted :=
  let h := writeTmp h false [d]
  (true,if h.extOptions.numPerGroup ≠ 0 then checkForMerge h else h)

/-- The end of `write_sorted_record`: the bytes go to the end of the buffer and
    the descriptor of 16 bytes to its beginning. -/
def storeRecord (h : OutSorted) (d : Record) : Bool × OutSorted :=
  (true,{ h with b := { h.b with bp := h.b.bp + 16, ep := h.b.ep - 1 - d.length, records := h.b.records ++ [d] } })

def writeSortedRecord (h : OutSorted) (d : Record) : Bool × OutSorted :=
  if d.length > 0xffffffff then (false,h)
  else
    let length := d.length + 16 + 5
    if h.b.bp + length > h.b.ep then
      let h := writeSorted sort h
      if h.b.bp + length > h.b.ep then writeOneRecord h d else storeRecord h d
    else storeRecord h d

/-- What `ac_out_in` returns. -/
inductive In
  | null
  | records (compare : Record → Record → Int) (h : InRecords Record Unit)
  | ext (compare : Record → Record → Int) (h : Ext Record Unit)

/-- `ac_in_advance`. -/
def In.advance : In → Option (Option Record × In)
  | .null => some (none,.null)
  | .records compare h => (Records.acInAdvance compare h).map fun answer => (answer.1,.records compare answer.2)
  | .ext compare h => (InExt.acInAdvance compare h).map fun answer => (answer.1,.ext compare answer.2)

/-- `_ac_out_sorted_in`. -/
def acOutSortedIn (h : OutSorted) : In × OutSorted :=
  if h.outInCalled then (.null,h)
  else
    let h := { h with outInCalled := true }
    if h.written = [] ∧ h.groupWritten = [] then
      match inFromBuffer sort h with
      | (some input,h) => (.records (intCompare h.extOptions) input,h)
      | (none,h) => (.null,h)
    else
      let h :=
        if h.b.records ≠ [] then
          let numPerGroup :=
            if h.extOptions.numPerGroup = 0 then 0
            else if h.groupWritten = [] then 1 else h.groupWritten.length
          writeSortedThread sort { h with extOptions := { h.extOptions with numPerGroup := numPerGroup } }
        else h
      (.ext h.extOptions.compare (inFiles h.extOptions h.written),h)

/-- The records written one after the other. -/
def writeAll (h : OutSorted) (records : List Record) : OutSorted :=
  records.foldl (fun h d => (writeSortedRecord sort h d).2) h

/-- The records that `write_sorted_record` does not refuse. -/
def accepted (records : List Record) : List Record := records.filter fun d => d.length ≤ 0xffffffff

/-- What is lost when the records are read back: what the 32 bit count leaves
    behind, and the group runs if the buffer is empty. -/
def lost (h : OutSorted) : List Record :=
  h.cut ++ if h.b.records = [] then h.groupWritten.flatten else h.b.records.drop (h.b.records.length % 2 ^ 32)

/-- What is read back. -/
def kept (h : OutSorted) : List Record :=
  h.written.flatten ++
    if h.b.records = [] then [] else h.groupWritten.flatten ++ h.b.records.take (h.b.records.length % 2 ^ 32)

/-- What a choice of reducers keeps: `Holds xs ys` says that `xs` is what `ys`
    comes to, and `Run` what every temporary run satisfies. -/
structure Mode (options : ExtOptions) (Holds : List Record → List Record → Prop) (Run : List Record → Prop) : Prop where
  perm : ∀ {xs ys}, xs.Perm ys → Holds xs ys
  trans : ∀ {xs ys zs}, Holds xs ys → Holds ys zs → Holds xs zs
  append : ∀ {xs ys xs' ys'}, Holds xs ys → Holds xs' ys' → Holds (xs ++ xs') (ys ++ ys')
  nonempty : ∀ {xs ys}, Holds xs ys → ys ≠ [] → xs ≠ []
  empty : Run []
  single : ∀ d, Run [d]
  batch : ∀ records, ∃ xs, Yields (Records.acInAdvance (intCompare options))
      (Records.acInRecordsInit (sort (intCompare options) records) options.intReducer ()) xs ∧
    xs.length ≤ (sort (intCompare options) records).length ∧ Holds xs records ∧ Run xs
  merge : ∀ files : List (List Record), (∀ file ∈ files, Run file) →
    ∃ xs, Yields (InExt.acInAdvance options.compare) (inFiles options files) xs ∧ xs.length ≤ files.flatten.length ∧
      Holds xs files.flatten ∧ Run xs

/-- The number per group plays no part in what is kept. -/
def numbered (options : ExtOptions) (numPerGroup : Nat) : ExtOptions := { options with numPerGroup := numPerGroup }

variable {sort} {options : ExtOptions} {Holds : List Record → List Record → Prop} {Run : List Record → Prop}

/-- All records in the output, also those that will be lost. -/
def stored (h : OutSorted) : List Record :=
  h.b.records ++ (h.groupWritten.flatten ++ (h.written.flatten ++ h.cut))

/-- Every file is a run, and what is stored is what the records come to. -/
structure Keeps (options : ExtOptions) (Holds : List Record → List Record → Prop) (Run : List Record → Prop)
    (h : OutSorted) (records : List Record) : Prop where
  files : ∀ file ∈ h.groupWritten ++ h.written, Run file
  groups : h.cut = [] → ∀ file ∈ h.groupWritten, file ≠ []
  ungrouped : h.extOptions.numPerGroup = 0 → h.groupWritten = []
  holds : Holds (stored h) records
  setup : h.outInCalled = false ∧ ∃ numPerGroup, h.extOptions = numbered options numPerGroup

/-- The two ends of the buffer do not meet. -/
structure BufferReady (b : Buffer) : Prop where
  below : b.bp = 16 * b.records.length
  above : b.ep + (b.records.map fun d => d.length + 1).sum = b.size
  apart : b.bp ≤ b.ep

theorem clearBuffer_ready (b : Buffer) : BufferReady (clearBuffer b) := ⟨rfl,by simp [clearBuffer],by simp [clearBuffer]⟩

theorem storeRecord_ready {h : OutSorted} {d : Record} (ready : BufferReady h.b) (fits : h.b.bp + (d.length + 16 + 5) ≤ h.b.ep) :
    BufferReady (storeRecord h d).2.b := by
  obtain ⟨below,above,apart⟩ := ready
  refine ⟨?_,?_,?_⟩ <;> simp only [storeRecord,List.length_append,List.length_singleton,List.map_append,List.map_cons,
    List.map_nil,List.sum_append,List.sum_cons,List.sum_nil] <;> omega

/-- What a choice of functions keeps where the records that are written satisfy `P`:
    `Holds xs ys` says that `xs` is what `ys` comes to, `Run` what every temporary run
    satisfies, and `Full` what those satisfy that no record was cut off from. -/
structure Reduces (sort : (Record → Record → Int) → List Record → List Record) (options : ExtOptions) (P : Record → Prop)
    (Full : List Record → Prop) (Holds : List Record → List Record → Prop) (Run : List Record → Prop) : Prop where
  perm : ∀ {xs ys}, xs.Perm ys → Holds xs ys
  trans : ∀ {xs ys zs}, Holds xs ys → Holds ys zs → Holds xs zs
  append : ∀ {xs ys xs' ys'}, Holds xs ys → Holds xs' ys' → Holds (xs ++ xs') (ys ++ ys')
  single : ∀ d, P d → Run [d] ∧ Full [d]
  batch : ∀ records, (∀ d ∈ records, P d) → ∀ xs,
    copyRecords options (Records.acInRecordsInit (sort (intCompare options) records) options.intReducer ()) = xs →
      Holds xs records ∧ Run xs ∧ (records ≠ [] → Full xs)
  merge : options.numPerGroup ≠ 0 → ∀ files : List (List Record), (∀ file ∈ files, Run file) →
    Holds (copyFiles options files) files.flatten ∧ Run (copyFiles options files)

/-- Every file is a run, and what is stored is what the records come to. -/
structure Holding (options : ExtOptions) (P : Record → Prop) (Full : List Record → Prop) (Holds : List Record → List Record → Prop)
    (Run : List Record → Prop) (h : OutSorted) (records : List Record) : Prop where
  files : ∀ file ∈ h.groupWritten ++ h.written, Run file
  groups : h.cut = [] → ∀ file ∈ h.groupWritten, Full file
  ungrouped : options.numPerGroup = 0 → h.groupWritten = []
  holds : Holds (stored h) records
  setup : h.outInCalled = false ∧ h.extOptions = options
  buffer : ∀ d ∈ h.b.records, P d

section
variable {P : Record → Prop} {Full : List Record → Prop} (reduces : Reduces sort options P Full Holds Run)
include reduces

theorem writeTmp_holding {h : OutSorted} {records xs ys : List Record} (tmpOnly : Bool)
    (holding : Holding options P Full Holds Run h records) (run : Run xs) (holds : Holds (xs ++ stored h) ys)
    (full : h.cut = [] → Full xs) : Holding options P Full Holds Run (writeTmp h tmpOnly xs) ys := by
  obtain ⟨files,groups,ungrouped,_,setup,inBuffer⟩ := holding
  simp only [writeTmp]
  split
  case isTrue grouped =>
    refine ⟨fun file member => ?_,fun uncut file member => ?_,fun none => absurd none ?_,?_,setup,inBuffer⟩
    · simp only [List.mem_append,List.mem_singleton] at member
      rcases member with (old | rfl) | old
      · exact files file (List.mem_append_left _ old)
      · exact run
      · exact files file (List.mem_append_right _ old)
    · rcases List.mem_append.mp member with old | new
      · exact groups uncut file old
      · rw [List.mem_singleton.mp new]
        exact full uncut
    · simp only [Bool.and_eq_true,bne_iff_ne,setup.2] at grouped
      exact grouped.2
    · refine reduces.trans (reduces.perm ?_) holds
      refine List.perm_iff_count.mpr fun d => ?_
      simp only [stored,List.flatten_append,List.flatten_singleton,List.count_append]
      omega
  case isFalse =>
    refine ⟨fun file member => ?_,groups,ungrouped,?_,setup,inBuffer⟩
    · simp only [List.mem_append,List.mem_singleton] at member
      rcases member with old | old | rfl
      · exact files file (List.mem_append_left _ old)
      · exact files file (List.mem_append_right _ old)
      · exact run
    · refine reduces.trans (reduces.perm ?_) holds
      refine List.perm_iff_count.mpr fun d => ?_
      simp only [stored,List.flatten_append,List.flatten_singleton,List.count_append]
      omega

theorem checkForMerge_holding {h : OutSorted} {records : List Record} (holding : Holding options P Full Holds Run h records)
    (grouping : options.numPerGroup ≠ 0) : Holding options P Full Holds Run (checkForMerge h) records := by
  simp only [checkForMerge]
  split
  case isTrue => exact holding
  case isFalse =>
    obtain ⟨files,groups,ungrouped,holds,⟨unread,setup⟩,inBuffer⟩ := holding
    have merged := reduces.merge grouping h.groupWritten (fun file member => files file (List.mem_append_left _ member))
    rw [setup]
    refine ⟨fun file member => ?_,fun _ => by simp,fun _ => rfl,?_,⟨unread,setup⟩,inBuffer⟩
    · simp only [writeTmp,Bool.not_true,Bool.false_and,Bool.false_eq_true,if_false,List.nil_append,List.mem_append,
        List.mem_singleton] at member
      rcases member with old | rfl
      · exact files file (List.mem_append_right _ old)
      · exact merged.2
    · refine reduces.trans ?_ (reduces.trans (reduces.append merged.1 (reduces.perm
        (List.Perm.refl (h.b.records ++ (h.written.flatten ++ h.cut))))) (reduces.trans (reduces.perm ?_) holds))
      · refine reduces.perm (List.perm_iff_count.mpr fun d => ?_)
        simp only [stored,writeTmp,Bool.not_true,Bool.false_and,Bool.false_eq_true,if_false,List.flatten_nil,
          List.flatten_append,List.flatten_singleton,List.count_append,List.count_nil]
        omega
      · refine List.perm_iff_count.mpr fun d => ?_
        simp only [stored,List.count_append]
        omega

theorem checked_holding {h : OutSorted} {records : List Record} (holding : Holding options P Full Holds Run h records) :
    Holding options P Full Holds Run (if h.extOptions.numPerGroup ≠ 0 then checkForMerge h else h) records := by
  split
  case isTrue grouping => exact checkForMerge_holding reduces holding (by rw [← holding.setup.2]; exact grouping)
  case isFalse => exact holding

omit reduces in
theorem writeTmp_buffer (h : OutSorted) (tmpOnly : Bool) (records : List Record) : (writeTmp h tmpOnly records).b = h.b := by
  simp only [writeTmp]
  split <;> rfl

omit reduces in
theorem checkForMerge_buffer (h : OutSorted) : (checkForMerge h).b = h.b := by
  simp only [checkForMerge]
  split
  · rfl
  · exact writeTmp_buffer h true (copyFiles h.extOptions h.groupWritten)

omit reduces in
theorem checked_buffer (h : OutSorted) : (if h.extOptions.numPerGroup ≠ 0 then checkForMerge h else h).b = h.b := by
  split
  · exact checkForMerge_buffer h
  · rfl

omit reduces in
theorem inFromBuffer_some (h : OutSorted) (filled : h.b.records ≠ []) :
    inFromBuffer sort h =
      (some (Records.acInRecordsInit (sort (intCompare h.extOptions) (h.b.records.take (h.b.records.length % 2 ^ 32)))
        h.extOptions.intReducer ()),
        { h with b := clearBuffer h.b, cut := h.cut ++ h.b.records.drop (h.b.records.length % 2 ^ 32) }) := by
  simp only [inFromBuffer,filled,if_false]

/-- A sorted run of the buffer loses at most what the count cuts off. -/
theorem writeSortedThread_holding {h : OutSorted} {records : List Record}
    (holding : Holding options P Full Holds Run h records) (filled : h.b.records ≠ []) :
    Holding options P Full Holds Run (writeSortedThread sort h) records ∧ (writeSortedThread sort h).b = clearBuffer h.b := by
  obtain ⟨files,groups,ungrouped,holds,⟨unread,setup⟩,inBuffer⟩ := holding
  have numR : h.b.records.take (h.b.records.length % 2 ^ 32) ++ h.b.records.drop (h.b.records.length % 2 ^ 32) =
      h.b.records := List.take_append_drop _ _
  obtain ⟨isWhat,run,full⟩ := reduces.batch (h.b.records.take (h.b.records.length % 2 ^ 32))
    (fun d member => inBuffer d (List.mem_of_mem_take member)) _ rfl
  rw [← setup] at isWhat run full
  simp only [writeSortedThread,inFromBuffer_some h filled,Option.map_some,Option.getD_some]
  refine ⟨checked_holding reduces ?_,(checked_buffer _).trans (writeTmp_buffer _ _ _)⟩
  have before : Holding options P Full Holds Run
      { h with b := clearBuffer h.b, cut := h.cut ++ h.b.records.drop (h.b.records.length % 2 ^ 32) } _ :=
    ⟨files,fun uncut => groups (List.append_eq_nil_iff.mp uncut).1,ungrouped,reduces.perm (List.Perm.refl _),
      ⟨unread,setup⟩,fun d member => by cases member⟩
  refine writeTmp_holding reduces false before run ?_ ?_
  · refine reduces.trans (reduces.append isWhat (reduces.perm (List.Perm.refl _))) (reduces.trans (reduces.perm ?_) holds)
    refine List.perm_iff_count.mpr fun d => ?_
    have whole := congrArg (List.count d) numR
    simp only [stored,clearBuffer,List.nil_append,List.count_append] at whole ⊢
    omega
  · intro uncut
    refine full fun none => filled ?_
    rw [← numR,none,(List.append_eq_nil_iff.mp uncut).2]
    rfl

theorem writeOneRecord_holding {h : OutSorted} {records : List Record} (d : Record) (occurs : P d)
    (holding : Holding options P Full Holds Run h records) :
    Holding options P Full Holds Run (writeOneRecord h d).2 (records ++ [d]) := by
  obtain ⟨run,full⟩ := reduces.single d occurs
  refine checked_holding reduces (writeTmp_holding reduces false holding run ?_ (fun _ => full))
  refine reduces.trans (reduces.append (reduces.perm (List.Perm.refl [d])) holding.holds) (reduces.perm ?_)
  exact List.perm_append_comm

theorem storeRecord_holding {h : OutSorted} {records : List Record} (d : Record) (occurs : P d)
    (holding : Holding options P Full Holds Run h records) :
    Holding options P Full Holds Run (storeRecord h d).2 (records ++ [d]) := by
  obtain ⟨files,groups,ungrouped,holds,setup,inBuffer⟩ := holding
  refine ⟨files,groups,ungrouped,?_,setup,fun e member => ?_⟩
  rotate_left
  · rcases List.mem_append.mp member with old | new
    · exact inBuffer e old
    · rw [List.mem_singleton.mp new]
      exact occurs
  refine reduces.trans (reduces.perm ?_) (reduces.append holds (reduces.perm (List.Perm.refl [d])))
  refine List.perm_iff_count.mpr fun e => ?_
  simp only [stored,storeRecord,List.count_append]
  omega

/-- One record written. -/
theorem writeSortedRecord_holding {h : OutSorted} {records : List Record} (d : Record)
    (holding : Holding options P Full Holds Run h records) (occurs : ∀ e ∈ accepted [d], P e)
    (ready : BufferReady h.b) :
    Holding options P Full Holds Run (writeSortedRecord sort h d).2 (records ++ accepted [d]) ∧
      BufferReady (writeSortedRecord sort h d).2.b := by
  have one : (writeOneRecord h d).2.b = h.b := (checked_buffer _).trans (writeTmp_buffer h false [d])
  simp only [writeSortedRecord]
  by_cases long : d.length > 0xffffffff
  · have none : accepted [d] = [] := by simp [accepted,Nat.not_le.mpr long]
    rw [if_pos long,none,List.append_nil]
    exact ⟨holding,ready⟩
  · have all : accepted [d] = [d] := by simp [accepted,Nat.not_lt.mp long]
    rw [if_neg long]
    rw [all] at occurs ⊢
    by_cases full : h.b.bp + (d.length + 16 + 5) > h.b.ep
    · rw [if_pos full]
      have flushed : Holding options P Full Holds Run (writeSorted sort h) records ∧ BufferReady (writeSorted sort h).b := by
        simp only [writeSorted]
        split
        case isTrue => exact ⟨holding,ready⟩
        case isFalse some =>
          have filled : h.b.records ≠ [] := fun none => some (by rw [ready.below,none]; rfl)
          obtain ⟨kept,cleared⟩ := writeSortedThread_holding reduces holding filled
          exact ⟨kept,cleared ▸ clearBuffer_ready h.b⟩
      split
      case isTrue =>
        refine ⟨writeOneRecord_holding reduces d (occurs d List.mem_cons_self) flushed.1,?_⟩
        rw [show (writeOneRecord (writeSorted sort h) d).2.b = (writeSorted sort h).b from
          (checked_buffer _).trans (writeTmp_buffer _ false [d])]
        exact flushed.2
      case isFalse fits =>
        exact ⟨storeRecord_holding reduces d (occurs d List.mem_cons_self) flushed.1,storeRecord_ready flushed.2 (Nat.not_lt.mp fits)⟩
    · rw [if_neg full]
      exact ⟨storeRecord_holding reduces d (occurs d List.mem_cons_self) holding,storeRecord_ready ready (Nat.not_lt.mp full)⟩

/-- All records written. -/
theorem writeAll_holding (more : List Record) {h : OutSorted} {records : List Record}
    (holding : Holding options P Full Holds Run h records) (occur : ∀ d ∈ accepted more, P d)
    (ready : BufferReady h.b) :
    Holding options P Full Holds Run (writeAll sort h more) (records ++ accepted more) := by
  induction more generalizing h records with
  | nil => simpa [writeAll,accepted] using holding
  | cons d more ih =>
    have whole : records ++ accepted (d :: more) = records ++ accepted [d] ++ accepted more := by
      rw [accepted,← List.singleton_append,List.filter_append,← List.append_assoc]
      rfl
    have apart : accepted (d :: more) = accepted [d] ++ accepted more := by
      rw [accepted,← List.singleton_append,List.filter_append]
      rfl
    rw [apart] at occur
    rw [whole]
    obtain ⟨holding,ready⟩ := writeSortedRecord_holding reduces d holding
      (fun e member => occur e (List.mem_append_left _ member)) ready
    exact ih holding (fun e member => occur e (List.mem_append_right _ member)) ready

/-- The records of an output that has just been opened. -/
theorem written_holding (bufferSize : Nat) (records : List Record) (occur : ∀ d ∈ accepted records, P d) :
    Holding options P Full Holds Run (writeAll sort ⟨initBuffer bufferSize,[],[],false,options,[]⟩ records)
      (accepted records) := by
  have empty : Holding options P Full Holds Run ⟨initBuffer bufferSize,[],[],false,options,[]⟩ [] :=
    ⟨by simp,by simp,fun _ => rfl,reduces.perm (List.Perm.refl []),⟨rfl,rfl⟩,fun d member => by cases member⟩
  exact writeAll_holding reduces records empty occur (clearBuffer_ready _)

/-- The files of the last step: the rest of the buffer becomes one more run,
    merged with the group runs. -/
theorem lastRun {h : OutSorted} (isRun : ∀ file ∈ h.groupWritten, Run file)
    (ungrouped : options.numPerGroup = 0 → h.groupWritten = []) (inBuffer : ∀ d ∈ h.b.records, P d)
    (filled : h.b.records ≠ []) {numPerGroup : Nat}
    (all : numPerGroup = if options.numPerGroup = 0 then 0 else if h.groupWritten = [] then 1 else h.groupWritten.length) :
    ∃ xs, writeSortedThread sort { h with extOptions := numbered options numPerGroup } =
        { h with
          b := clearBuffer h.b
          extOptions := numbered options numPerGroup
          cut := h.cut ++ h.b.records.drop (h.b.records.length % 2 ^ 32)
          groupWritten := []
          written := h.written ++ [xs] } ∧
      Run xs ∧ Holds xs (h.groupWritten.flatten ++ h.b.records.take (h.b.records.length % 2 ^ 32)) := by
  obtain ⟨xs,copied⟩ : ∃ xs, copyRecords options (Records.acInRecordsInit (sort (intCompare options)
      (h.b.records.take (h.b.records.length % 2 ^ 32))) options.intReducer ()) = xs := ⟨_,rfl⟩
  obtain ⟨isWhat,run,_⟩ := reduces.batch (h.b.records.take (h.b.records.length % 2 ^ 32))
    (fun d member => inBuffer d (List.mem_of_mem_take member)) xs copied
  have renumbered : copyRecords (numbered options numPerGroup) (Records.acInRecordsInit
      (sort (intCompare (numbered options numPerGroup)) (h.b.records.take (h.b.records.length % 2 ^ 32)))
      (numbered options numPerGroup).intReducer ()) = xs := copied
  simp only [writeSortedThread,inFromBuffer_some { h with extOptions := numbered options numPerGroup } filled,
    Option.map_some,Option.getD_some,renumbered]
  by_cases plain : options.numPerGroup = 0
  · rw [if_pos plain] at all
    subst all
    refine ⟨xs,?_,run,?_⟩
    · simp [writeTmp,numbered,ungrouped plain]
    · simpa [ungrouped plain] using isWhat
  · rw [if_neg plain] at all
    have some : numPerGroup ≠ 0 := by
      rw [all]
      split
      · exact Nat.one_ne_zero
      case isFalse full => exact fun none => full (List.length_eq_zero_iff.mp none)
    have enough : ¬ (h.groupWritten ++ [xs]).length < numPerGroup := by
      rw [List.length_append,List.length_singleton,all]
      split
      · omega
      · have := List.length_pos_of_ne_nil (l := h.groupWritten) (by assumption)
        omega
    have merged := reduces.merge plain (h.groupWritten ++ [xs]) (fun file member => by
      rcases List.mem_append.mp member with old | new
      · exact isRun file old
      · rw [List.mem_singleton.mp new]
        exact run)
    refine ⟨copyFiles options (h.groupWritten ++ [xs]),?_,merged.2,?_⟩
    · have files : copyFiles (numbered options numPerGroup) (h.groupWritten ++ [xs]) =
          copyFiles options (h.groupWritten ++ [xs]) := rfl
      simp only [writeTmp,Bool.not_false,Bool.true_and,bne_iff_ne,ne_eq,some,not_false_eq_true,if_true,
        checkForMerge,enough,or_self,if_false,Bool.not_true,Bool.false_and,Bool.false_eq_true,files,
        show (numbered options numPerGroup).numPerGroup = numPerGroup from rfl]
    · refine reduces.trans merged.1 ?_
      rw [List.flatten_append,List.flatten_singleton]
      exact reduces.append (reduces.perm (List.Perm.refl _)) isWhat

/-- Where something was written out, reading back merges files that hold what is kept. -/
theorem spilled_files {h : OutSorted} {records : List Record} (holding : Holding options P Full Holds Run h records)
    (spilled : ¬ (h.written = [] ∧ h.groupWritten = [])) :
    ∃ files, (acOutSortedIn sort h).1 = .ext options.compare (inFiles options files) ∧ (∀ file ∈ files, Run file) ∧
      Holds files.flatten (kept h) := by
  obtain ⟨unread,setup⟩ := holding.setup
  simp only [acOutSortedIn,unread,Bool.false_eq_true,if_false,spilled]
  by_cases empty : h.b.records = []
  · refine ⟨h.written,?_,fun file member => holding.files file (List.mem_append_right _ member),?_⟩
    · simp only [empty,ne_eq,not_true_eq_false,if_false,setup]
    · refine reduces.perm ?_
      rw [kept,if_pos empty,List.append_nil]
  · have inBuffer := holding.buffer
    obtain ⟨last,files,run,isLast⟩ := lastRun reduces (h := { h with outInCalled := true })
      (fun file member => holding.files file (List.mem_append_left _ member)) holding.ungrouped inBuffer empty rfl
    refine ⟨h.written ++ [last],?_,fun file member => ?_,?_⟩
    · simp only [numbered] at files
      simp only [ne_eq,empty,not_false_eq_true,if_true,setup,files]
      rfl
    · rcases List.mem_append.mp member with old | new
      · exact holding.files file (List.mem_append_right _ old)
      · rw [List.mem_singleton.mp new]
        exact run
    · rw [List.flatten_append,List.flatten_singleton,kept,if_neg empty]
      exact reduces.append (reduces.perm (List.Perm.refl _)) isLast

omit reduces in
/-- Where nothing was written out, reading back delivers the records of the buffer. -/
theorem unspilled_records {h : OutSorted} (unread : h.outInCalled = false) (unspilled : h.written = [] ∧ h.groupWritten = [])
    (filled : h.b.records ≠ []) :
    (acOutSortedIn sort h).1 = .records (intCompare h.extOptions) (Records.acInRecordsInit
      (sort (intCompare h.extOptions) (h.b.records.take (h.b.records.length % 2 ^ 32))) h.extOptions.intReducer ()) := by
  simp only [acOutSortedIn,unread,Bool.false_eq_true,if_false,unspilled,and_self,if_true]
  rw [inFromBuffer_some { h with outInCalled := true, written := [], groupWritten := [] } filled]

end

/-! ### Where no reducer drops a record -/

theorem Mode.copied (mode : Mode sort options Holds Run) (records : List Record) :
    ∃ xs, copyRecords options (Records.acInRecordsInit (sort (intCompare options) records) options.intReducer ()) = xs ∧
      Holds xs records ∧ Run xs := by
  obtain ⟨xs,yields,short,holds,run⟩ := mode.batch records
  exact ⟨xs,Stream.drain_yields yields short,holds,run⟩

theorem Mode.reduces (mode : Mode sort options Holds Run) :
    Reduces sort options (fun _ => True) (fun file => file ≠ []) Holds Run where
  perm := mode.perm
  trans := mode.trans
  append := mode.append
  single d _ := ⟨mode.single d,List.cons_ne_nil d []⟩
  batch records _ xs copied := by
    obtain ⟨ys,copied',holds,run⟩ := mode.copied records
    obtain rfl : xs = ys := copied.symm.trans copied'
    exact ⟨holds,run,mode.nonempty holds⟩
  merge _ files run := by
    obtain ⟨xs,yields,short,holds,isRun⟩ := mode.merge files run
    rw [copyFiles,Stream.drain_yields yields short]
    exact ⟨holds,isRun⟩

/-- All records written. -/
theorem writeAll_keeps (mode : Mode sort options Holds Run) (bufferSize : Nat) (records : List Record) :
    Keeps options Holds Run (writeAll sort ⟨initBuffer bufferSize,[],[],false,options,[]⟩ records) (accepted records) := by
  obtain ⟨files,groups,ungrouped,holds,⟨unread,setup⟩,_⟩ :=
    written_holding mode.reduces bufferSize records fun _ _ => trivial
  exact ⟨files,groups,fun none => ungrouped (by rwa [setup] at none),holds,unread,options.numPerGroup,setup⟩

/-- Reading back delivers what is kept. -/
theorem acOutSortedIn_delivers (mode : Mode sort options Holds Run) (bufferSize : Nat) (records : List Record)
    {h : OutSorted} (written : h = writeAll sort ⟨initBuffer bufferSize,[],[],false,options,[]⟩ records) :
    ∃ xs, Yields In.advance (acOutSortedIn sort h).1 xs ∧ Holds xs (kept h) ∧ Run xs := by
  have holding := written_holding mode.reduces bufferSize records fun _ _ => trivial
  rw [← written] at holding
  obtain ⟨unread,setup⟩ := holding.setup
  by_cases spilled : h.written = [] ∧ h.groupWritten = []
  · by_cases empty : h.b.records = []
    · have nothing : kept h = [] := by simp [kept,empty,spilled.1]
      refine ⟨[],?_,?_,mode.empty⟩
      · simp only [acOutSortedIn,unread,Bool.false_eq_true,if_false,spilled,and_self,if_true,inFromBuffer,empty]
        exact Yields.stop rfl
      · rw [nothing]
        exact mode.perm (List.Perm.refl [])
    · obtain ⟨xs,yields,_,isWhat,run⟩ := mode.batch (h.b.records.take (h.b.records.length % 2 ^ 32))
      rw [unspilled_records unread spilled empty,setup]
      refine ⟨xs,Yields.lift (In.records _) (fun _ => rfl) yields,?_,run⟩
      simpa [kept,empty,spilled.1,spilled.2] using isWhat
  · obtain ⟨files,merges,run,holds⟩ := spilled_files mode.reduces holding spilled
    obtain ⟨xs,yields,_,isWhat,isRun⟩ := mode.merge files run
    rw [merges]
    exact ⟨xs,Yields.lift (In.ext options.compare) (fun _ => rfl) yields,mode.trans isWhat holds,isRun⟩

/-! ### Without a reducer, and with the keep-first reducer -/

/-- The sort is correct for every total preorder. -/
def Sorts (sort : (Record → Record → Int) → List Record → List Record) : Prop :=
  ∀ compare : Record → Record → Int, Order.Total compare → ∀ records, (sort compare records).Perm records ∧ Sorted compare (sort compare records)

def plainOptions (compare : Record → Record → Int) (numPerGroup : Nat) : ExtOptions where
  compare := compare
  intCompare := some compare
  reducer := none
  intReducer := none
  numPerGroup := numPerGroup

def keepFirstOptions (compare : Record → Record → Int) (numPerGroup : Nat) : ExtOptions where
  compare := compare
  intCompare := some compare
  reducer := some acIoKeepFirst
  intReducer := some acIoKeepFirst
  numPerGroup := numPerGroup

theorem plain_mode {compare : Record → Record → Int} (total : Total compare) (sorts : Sorts sort) (numPerGroup : Nat) :
    Mode sort (plainOptions compare numPerGroup) List.Perm (Sorted compare) where
  perm := id
  trans := List.Perm.trans
  append := List.Perm.append
  nonempty perm some none := some (by simpa [none] using perm)
  empty := List.Pairwise.nil
  single d := List.pairwise_singleton _ d
  batch records := by
    obtain ⟨perm,sorted⟩ := sorts compare total records
    exact ⟨_,Records.records_all compare _ (),Nat.le_refl _,perm,sorted⟩
  merge files sorted := by
    obtain ⟨xs,yields,perm,isSorted⟩ := InExt.merge_yields total (InExt.added total () sorted)
      (InExt.addAll_fields compare (InExt.acInExtInit ()) files).1
    exact ⟨xs,yields,Nat.le_of_eq perm.length_eq,perm,isSorted⟩

theorem keepFirst_mode {compare : Record → Record → Int} (total : Total compare) (sorts : Sorts sort)
    (numPerGroup : Nat) : Mode sort (keepFirstOptions compare numPerGroup) (SameKeys compare) (Strict compare) where
  perm := SameKeys.of_perm total
  trans := SameKeys.trans total
  append := SameKeys.append
  nonempty same some none := by
    obtain ⟨y,ys,rfl⟩ := List.exists_cons_of_ne_nil some
    obtain ⟨x,member,_⟩ := same.cover y (by simp)
    simp [none] at member
  empty := List.Pairwise.nil
  single d := List.pairwise_singleton _ d
  batch records := by
    obtain ⟨perm,sorted⟩ := sorts compare total records
    have grouped := Order.runs_groups total sorted
    obtain ⟨strict,same⟩ := grouped.heads total
    obtain ⟨yields,_⟩ := Records.records_reduce compare (acIoKeepFirst (ς := Unit)) () (total.equivalenceOn (sort compare records))
    rw [InExt.collect_keepFirst] at yields
    refine ⟨_,yields,?_,same.trans total (SameKeys.of_perm total perm),strict⟩
    exact Nat.le_trans (Order.heads_length _) (Nat.le_of_eq grouped.whole.length_eq)
  merge files strict := by
    have added := InExt.added total () (fun file member => (strict file member).sorted)
    obtain ⟨groups,run,grouped⟩ := InExt.run_groups total (added.distinct strict)
    obtain ⟨yields,_⟩ := InExt.reducing_yields total () [] files (acIoKeepFirst (ς := Unit)) strict run
    rw [InExt.collect_keepFirst] at yields
    have whole := Order.Groups.perm added.holds grouped
    obtain ⟨isStrict,same⟩ := whole.heads total
    refine ⟨_,yields,?_,same,isStrict⟩
    exact Nat.le_trans (Order.heads_length _) (Nat.le_of_eq whole.whole.length_eq)

/-- What is stored is what is kept and what is lost. -/
theorem stored_perm (h : OutSorted) : (stored h).Perm (kept h ++ lost h) := by
  have whole : h.b.records.take (h.b.records.length % 2 ^ 32) ++ h.b.records.drop (h.b.records.length % 2 ^ 32) =
      h.b.records := List.take_append_drop _ _
  refine List.perm_iff_count.mpr fun d => ?_
  have count := congrArg (List.count d) whole
  simp only [stored,kept,lost]
  split
  case isTrue empty => simp only [empty,List.nil_append,List.append_nil,List.count_append]; omega
  case isFalse => simp only [List.count_append] at count ⊢; omega

/-- Before the records are read back: no buffer was cut off by the 32 bit count,
    and no group run waits for a merge while the buffer is empty. -/
def Whole (h : OutSorted) : Prop :=
  h.cut = [] ∧ h.b.records.length < 2 ^ 32 ∧ (h.b.records = [] → h.groupWritten = [])

/-- A buffer is cut off where it holds 2^32 records or more. -/
theorem cut_iff (h : OutSorted) : (inFromBuffer sort h).2.cut = [] ↔ h.cut = [] ∧ h.b.records.length < 2 ^ 32 := by
  simp only [inFromBuffer]
  split
  case isTrue empty => simp [empty]
  case isFalse =>
    rw [List.append_eq_nil_iff,List.drop_eq_nil_iff]
    refine and_congr_right fun _ => ⟨fun all => ?_,fun small => by rw [Nat.mod_eq_of_lt small]⟩
    exact Nat.lt_of_le_of_lt all (Nat.mod_lt _ (by decide))

theorem whole_iff {h : OutSorted} {records : List Record} (keeps : Keeps options Holds Run h records) :
    Whole h ↔ lost h = [] := by
  constructor
  · rintro ⟨uncut,small,merged⟩
    simp only [lost,uncut,List.nil_append]
    split
    case isTrue empty => simp [merged empty]
    case isFalse => rw [Nat.mod_eq_of_lt small,List.drop_length]
  · intro nothing
    obtain ⟨uncut,nothing⟩ := List.append_eq_nil_iff.mp nothing
    refine ⟨uncut,?_,fun empty => ?_⟩
    · split at nothing
      case isTrue empty => simp [empty]
      case isFalse =>
        exact Nat.lt_of_le_of_lt (List.drop_eq_nil_iff.mp nothing) (Nat.mod_lt _ (by decide))
    · rw [if_pos empty,List.flatten_eq_nil_iff] at nothing
      refine List.eq_nil_iff_forall_not_mem.mpr fun file member => ?_
      exact keeps.groups uncut file member (nothing file member)

/-- Reading back a sorted output delivers the records written, in order, exactly
    if nothing is cut off or left waiting; with the keep-first reducer it delivers
    one record for each key exactly if every lost record has its key among the
    kept ones. -/
theorem sorted_delivers (sorts : Sorts sort) {compare : Record → Record → Int} (total : Total compare)
    (bufferSize numPerGroup : Nat) (records : List Record) :
    ((∃ xs, Yields In.advance
          (acOutSortedIn sort (writeAll sort (acOutExtInit bufferSize (plainOptions compare numPerGroup)) records)).1 xs ∧
        xs.Perm (accepted records) ∧ Sorted compare xs) ↔
      Whole (writeAll sort (acOutExtInit bufferSize (plainOptions compare numPerGroup)) records)) ∧
    ((∃ xs, Yields In.advance
          (acOutSortedIn sort (writeAll sort (acOutExtInit bufferSize (keepFirstOptions compare numPerGroup)) records)).1
          xs ∧
        Strict compare xs ∧ SameKeys compare xs (accepted records)) ↔
      ∀ d ∈ lost (writeAll sort (acOutExtInit bufferSize (keepFirstOptions compare numPerGroup)) records),
        ∃ e ∈ kept (writeAll sort (acOutExtInit bufferSize (keepFirstOptions compare numPerGroup)) records),
          compare e d = 0) := by
  constructor
  · have mode := plain_mode total sorts numPerGroup
    have keeps := writeAll_keeps mode bufferSize records
    obtain ⟨xs,yields,perm,sorted⟩ := acOutSortedIn_delivers mode bufferSize records rfl
    have whole := (stored_perm _).symm.trans keeps.holds
    rw [show acOutExtInit bufferSize (plainOptions compare numPerGroup) =
      ⟨initBuffer bufferSize,[],[],false,plainOptions compare numPerGroup,[]⟩ from rfl,whole_iff keeps]
    refine ⟨?_,fun nothing => ⟨xs,yields,?_,sorted⟩⟩
    · rintro ⟨ys,delivered,all,_⟩
      rw [delivered.unique yields] at all
      have lengths := (whole.trans (all.symm.trans perm)).length_eq
      rw [List.length_append] at lengths
      exact List.length_eq_zero_iff.mp (by omega)
    · rw [nothing,List.append_nil] at whole
      exact perm.trans whole
  · have mode := keepFirst_mode total sorts numPerGroup
    have keeps := writeAll_keeps mode bufferSize records
    obtain ⟨xs,yields,same,strict⟩ := acOutSortedIn_delivers mode bufferSize records rfl
    have whole := (SameKeys.of_perm total (stored_perm _).symm).trans total keeps.holds
    rw [show acOutExtInit bufferSize (keepFirstOptions compare numPerGroup) =
      ⟨initBuffer bufferSize,[],[],false,keepFirstOptions compare numPerGroup,[]⟩ from rfl]
    refine ⟨?_,fun covered => ⟨xs,yields,strict,?_⟩⟩
    · rintro ⟨ys,delivered,_,all⟩ d member
      rw [delivered.unique yields] at all
      obtain ⟨x,inXs,equal⟩ := all.cover d (whole.sub d (List.mem_append_right _ member))
      exact ⟨x,same.sub x inXs,equal⟩
    · refine same.trans total ⟨fun d member => whole.sub d (List.mem_append_left _ member),fun d member => ?_⟩
      obtain ⟨e,inAll,equal⟩ := whole.cover d member
      rcases List.mem_append.mp inAll with isKept | isLost
      · exact ⟨e,isKept,equal⟩
      · obtain ⟨k,isKept,same⟩ := covered e isLost
        exact ⟨k,isKept,total.zero_trans same equal⟩

/-- A sort that is correct. -/
def mergeSort (compare : Record → Record → Int) (records : List Record) : List Record :=
  records.mergeSort fun a b => decide (compare a b ≤ 0)

theorem mergeSort_sorts : Sorts mergeSort := by
  intro compare total records
  refine ⟨List.mergeSort_perm _ _,?_⟩
  refine List.Pairwise.imp (fun less => by simpa using less) (List.pairwise_mergeSort ?_ ?_ records)
  · intro a b c ab bc
    simp only [decide_eq_true_eq] at ab bc ⊢
    exact total.trans a b c ab bc
  · intro a b
    have := total.le_iff b a
    simp only [Bool.or_eq_true,decide_eq_true_eq]
    omega

/-- Records compared by their lengths. -/
def byLength (a b : Record) : Int := (a.length : Int) - b.length

theorem byLength_total : Total byLength where
  swap a b := by simp only [byLength]; omega
  trans a b c := by simp only [byLength]; omega

/-- A record that fits into no buffer is a group run, and it is never merged. -/
theorem groupRun_lost :
    ¬ ∃ xs, Yields In.advance
        (acOutSortedIn mergeSort (writeAll mergeSort (acOutExtInit 0 (plainOptions byLength 2)) [[1]])).1 xs ∧
      xs.Perm (accepted [[1]]) ∧ Sorted byLength xs := by
  rintro ⟨xs,yields,perm,_⟩
  have ended : some none = some xs[0]? := yields 0
  have nothing := List.getElem?_eq_none_iff.mp (Option.some.inj ended).symm
  have one : xs.length = 1 := perm.length_eq
  omega

theorem sorted_delivers_short :
    (∃ xs, Yields In.advance
        (acOutSortedIn mergeSort (writeAll mergeSort (acOutExtInit 100 (plainOptions byLength 2)) [[1,2],[1]])).1 xs ∧
      xs.Perm [[1,2],[1]] ∧ Sorted byLength xs) ∧
    ∃ xs, Yields In.advance
        (acOutSortedIn mergeSort (writeAll mergeSort (acOutExtInit 100 (keepFirstOptions byLength 2)) [[1,2],[1]])).1 xs ∧
      Strict byLength xs ∧ SameKeys byLength xs [[1,2],[1]] := by
  obtain ⟨plain,keepFirst⟩ := sorted_delivers mergeSort_sorts byLength_total 100 2 [[1,2],[1]]
  exact ⟨plain.mpr ⟨rfl,by decide,by decide⟩,keepFirst.mpr (by decide)⟩

end
end AnotherC.Sorted
