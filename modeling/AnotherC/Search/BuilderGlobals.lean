import Mathlib.Data.List.Induction
import Mathlib.Data.List.Infix
import AnotherC.Lib.Bytes

/-!
# The global records of an index

`ac_search_builder_t` collects records by id and writes them, sorted, to two
files: the data, each preceded by its length, and a dense array of offsets into
the data, with 0 for the ids in the gaps. The image reads both back. A record that
is too long for the sorted output is not stored, and its id is a gap
(`globals_round_trip`).
-/
namespace AnotherC.BuilderGlobals
open AnotherC.Lib.Bytes (bytes number number_bytes bytes_length)
set_option linter.unusedVariables false

/-! ## Building -/

/-- What `ac_search_builder_global` is given: a `uint32_t` id and as many bytes as a
    `uint32_t` can say. -/
structure Global where
  id : Nat
  data : List UInt8
  idSmall : id < 2 ^ 32
  dataSmall : data.length < 2 ^ 32
deriving DecidableEq

/-- The part of `ac_search_builder_t` that globals use: what was written to
    `global_data`, and the greatest id. -/
structure Builder where
  globalData : List (List UInt8)
  maxId : Nat
deriving Repr, DecidableEq

def acSearchBuilderInit : Builder := ⟨[],0⟩

/-- `write_sorted_record` of the sorted output, which refuses long records. -/
def writeSortedRecord (records : List (List UInt8)) (d : List UInt8) : List (List UInt8) × Bool :=
  if d.length > 0xffffffff then (records,false) else (records ++ [d],true)

/-- The record of a global: the id, then its bytes. -/
def record (g : Global) : List UInt8 := bytes 4 g.id ++ g.data

/-- The result of `ac_out_write_record` is not looked at. -/
def acSearchBuilderGlobal (h : Builder) (g : Global) : Builder where
  globalData := (writeSortedRecord h.globalData (record g)).1
  maxId := if g.id > h.maxId then g.id else h.maxId

def recordId (r : List UInt8) : Nat := number (r.take 4)

def compareGlobalData (r1 r2 : List UInt8) : Int :=
  if recordId r1 ≠ recordId r2 then
    if recordId r1 < recordId r2 then -1 else 1
  else 0

/-- The variables and the two files of the loop in `ac_search_builder_destroy`. -/
structure Output where
  lastId : Nat
  offs : Nat
  outIdx : List UInt8
  outData : List UInt8
deriving Repr, DecidableEq

/-- `while(last_id < id)`. -/
def fillGap (out : Output) (id : Nat) : Output :=
  if out.lastId < id then
    fillGap { out with outIdx := out.outIdx ++ bytes 8 0, lastId := out.lastId + 1 } id
  else out
termination_by id - out.lastId

/-- One record of the sorted input; `none` is `abort()`. The length that is written is
    `r->length - 4` as a `uint32_t`. -/
def writeGlobal (out : Output) (r : List UInt8) : Option Output :=
  let out := fillGap out (recordId r)
  if out.lastId ≠ recordId r then none
  else
    let len := (r.length + (2 ^ 32 - 4)) % 2 ^ 32
    some {
      lastId := (out.lastId + 1) % 2 ^ 32
      offs := (out.offs + r.length) % 2 ^ 64
      outIdx := out.outIdx ++ bytes 8 out.offs
      outData := out.outData ++ (bytes 4 len ++ (r.drop 4).take len) }

def writeGlobals : Output → List (List UInt8) → Option Output
  | out, [] => some out
  | out, r :: rest => (writeGlobal out r).bind fun out => writeGlobals out rest

/-- The two files that `ac_search_builder_destroy` writes for the globals, when the sorted
    output delivers `delivered`. -/
def acSearchBuilderDestroy (delivered : List (List UInt8)) : Option Output :=
  writeGlobals ⟨0,4,[],[]⟩ delivered

/-! ## Reading -/

/-- The part of `ac_search_builder_image_t` that globals use; a pointer into
    `gbl_data` is its offset there. -/
structure Image where
  gbls : List (Option Nat)
  gblData : List UInt8
deriving Repr, DecidableEq

/-- A `size_t` of the offset file. -/
def gblIdx (file : List UInt8) (i : Nat) : Nat := number ((file.drop (8 * i)).take 8)

def acSearchBuilderImageInit (files : Output) : Image where
  gbls := (List.range (files.outIdx.length / 8)).map fun i =>
    if gblIdx files.outIdx i > 0 then some (gblIdx files.outIdx i) else none
  gblData := files.outData

/-- The pointer that is returned, `some none` for `NULL`; `none` where `gbls` is read
    beyond its end. -/
def acSearchBuilderImageGlobal (h : Image) (gid : Nat) : Option (Option Nat) := h.gbls[gid]?

/-- A pointer to `data` that follows the length of `data`. -/
def PointsAt (h : Image) (p : Nat) (data : List UInt8) : Prop :=
  4 ≤ p ∧ bytes 4 data.length ++ data <+: h.gblData.drop (p - 4)

/-! ## What the loop keeps -/

/-- The index and the data after the records `done`: `slots` are the offsets in the
    index, one for each id below `slots.length`. -/
structure Laid (done : List (List UInt8)) (slots : List Nat) (out : Output) : Prop where
  index : out.outIdx = slots.flatMap (bytes 8)
  last : out.lastId = slots.length % 2 ^ 32
  tight : slots.length = 0 ∨ ∃ r ∈ done, slots.length = recordId r + 1
  inside : ∀ r ∈ done, recordId r < slots.length
  few : slots.length ≤ 2 ^ 32
  offs : out.offs = 4 + out.outData.length
  short : out.offs ≤ 4 + slots.length * 0xffffffff
  gap : ∀ id, id < slots.length → (∀ r ∈ done, recordId r ≠ id) → slots[id]? = some 0
  kept : ∀ r ∈ done, ∃ p, slots[recordId r]? = some p ∧ 4 ≤ p ∧ p < 2 ^ 64 ∧
    bytes 4 (r.length - 4) ++ r.drop 4 <+: out.outData.drop (p - 4)

theorem fillGap_spec (out : Output) (id : Nat) (below : out.lastId ≤ id) :
    fillGap out id = { out with lastId := id,
                                outIdx := out.outIdx ++ (List.replicate (id - out.lastId) 0).flatMap (bytes 8) } := by
  fun_induction fillGap out id with
  | case1 out less ih =>
    rw [ih less]
    have count : id - out.lastId = (id - (out.lastId + 1)) + 1 := by omega
    simp only [count,List.replicate_succ,List.flatMap_cons,List.append_assoc]
  | case2 out notLess =>
    have same : out.lastId = id := by omega
    simp [← same]

theorem Laid.nil : Laid [] [] ⟨0,4,[],[]⟩ :=
  ⟨rfl,rfl,.inl rfl,by simp,by simp,rfl,by simp,by simp,by simp⟩

/-- The index has not come to the id of a later record. -/
theorem Laid.before {done : List (List UInt8)} {slots : List Nat} {out : Output} (laid : Laid done slots out)
    {r : List UInt8} (sorted : ∀ earlier ∈ done, recordId earlier < recordId r) : slots.length ≤ recordId r := by
  rcases laid.tight with empty | ⟨earlier,member,next⟩
  · omega
  · have := sorted earlier member
    omega

/-- What one record adds. -/
theorem Laid.write {done : List (List UInt8)} {slots : List Nat} {out : Output} (laid : Laid done slots out)
    {r : List UInt8} (sorted : ∀ earlier ∈ done, recordId earlier < recordId r) (idSmall : recordId r < 2 ^ 32)
    (filled : 4 ≤ r.length) (short : r.length ≤ 0xffffffff) :
    writeGlobal out r = some {
      lastId := (recordId r + 1) % 2 ^ 32
      offs := out.offs + r.length
      outIdx := (slots ++ List.replicate (recordId r - slots.length) 0 ++ [out.offs]).flatMap (bytes 8)
      outData := out.outData ++ (bytes 4 (r.length - 4) ++ r.drop 4) } := by
  have before := laid.before sorted
  have last := laid.last
  rw [Nat.mod_eq_of_lt (by omega)] at last
  have offs := laid.short
  have len : (r.length + (2 ^ 32 - 4)) % 2 ^ 32 = r.length - 4 := by omega
  have whole : (r.drop 4).take (r.length - 4) = r.drop 4 := List.take_of_length_le (by rw [List.length_drop])
  rw [writeGlobal,fillGap_spec out _ (by omega)]
  simp only [ne_eq,not_true,if_false,len,whole,Option.some.injEq,Output.mk.injEq,true_and,and_true]
  refine ⟨Nat.mod_eq_of_lt (by omega),?_⟩
  rw [laid.index,last,List.flatMap_append,List.flatMap_append,List.flatMap_singleton]

theorem Laid.step {done : List (List UInt8)} {slots : List Nat} {out : Output} (laid : Laid done slots out)
    {r : List UInt8} (sorted : ∀ earlier ∈ done, recordId earlier < recordId r) (idSmall : recordId r < 2 ^ 32)
    (filled : 4 ≤ r.length) (short : r.length ≤ 0xffffffff) :
    ∃ slots' out', writeGlobal out r = some out' ∧ Laid (done ++ [r]) slots' out' := by
  have before := laid.before sorted
  have offs := laid.short
  refine ⟨slots ++ List.replicate (recordId r - slots.length) 0 ++ [out.offs],_,laid.write sorted idSmall filled short,?_⟩
  have length : (slots ++ List.replicate (recordId r - slots.length) 0 ++ [out.offs]).length = recordId r + 1 := by
    simp only [List.length_append,List.length_replicate,List.length_singleton]
    omega
  have start : (slots ++ List.replicate (recordId r - slots.length) 0).length = recordId r := by
    rw [List.length_append,List.length_replicate]
    omega
  have old : ∀ id, id < slots.length →
      (slots ++ List.replicate (recordId r - slots.length) 0 ++ [out.offs])[id]? = slots[id]? := by
    intro id inside
    rw [List.append_assoc,List.getElem?_append_left inside]
  constructor
  case index => rfl
  case last => rw [length]
  case tight => exact .inr ⟨r,by simp,length⟩
  case inside =>
    intro q member
    rcases List.mem_append.mp member with earlier | last
    · have := sorted q earlier
      omega
    · rw [List.mem_singleton.mp last]
      omega
  case few => omega
  case offs =>
    have counted := laid.offs
    simp only [List.length_append,bytes_length,List.length_drop]
    omega
  case short =>
    simp only [length]
    omega
  case gap =>
    intro id inside other
    rw [length] at inside
    have notLast : recordId r ≠ id := other r (by simp)
    by_cases earlier : id < slots.length
    · rw [old id earlier]
      exact laid.gap id earlier fun q member => other q (List.mem_append_left _ member)
    · rw [List.getElem?_append_left (by omega),List.getElem?_append_right (by omega),List.getElem?_replicate,
        if_pos (by omega)]
  case kept =>
    intro q member
    rcases List.mem_append.mp member with earlier | last
    · obtain ⟨p,slot,large,small,here⟩ := laid.kept q earlier
      refine ⟨p,?_,large,small,here.trans (List.IsPrefix.drop (List.prefix_append _ _) _)⟩
      rw [old _ (laid.inside q earlier)]
      exact slot
    · rw [List.mem_singleton.mp last]
      have counted := laid.offs
      refine ⟨out.offs,?_,by omega,by omega,?_⟩
      · rw [List.getElem?_append_right (by omega),start,Nat.sub_self]
        rfl
      · have past : out.offs - 4 = out.outData.length := by omega
        rw [past,List.drop_left]

/-- Sorted records, of which each is a stored global, are written without an abort. -/
theorem Laid.run {done rest : List (List UInt8)} {slots : List Nat} {out : Output} (laid : Laid done slots out)
    (sorted : (done ++ rest).Pairwise (fun r1 r2 => recordId r1 < recordId r2))
    (fit : ∀ r ∈ rest, recordId r < 2 ^ 32 ∧ 4 ≤ r.length ∧ r.length ≤ 0xffffffff) :
    ∃ slots' out', writeGlobals out rest = some out' ∧ Laid (done ++ rest) slots' out' := by
  induction rest generalizing done slots out with
  | nil => exact ⟨slots,out,rfl,by rwa [List.append_nil]⟩
  | cons r rest ih =>
    obtain ⟨idSmall,filled,short⟩ := fit r List.mem_cons_self
    have first : ∀ earlier ∈ done, recordId earlier < recordId r := fun earlier member =>
      (List.pairwise_append.mp sorted).2.2 earlier member r List.mem_cons_self
    obtain ⟨slots',out',wrote,laid'⟩ := laid.step first idSmall filled short
    rw [← List.singleton_append,← List.append_assoc] at sorted ⊢
    obtain ⟨slots'',out'',rests,laid''⟩ := ih laid' sorted fun q member => fit q (List.mem_cons_of_mem r member)
    refine ⟨slots'',out'',?_,laid''⟩
    rw [List.singleton_append,writeGlobals,wrote]
    exact rests

/-! ## Round trip -/

theorem index_length (slots : List Nat) : (slots.flatMap (bytes 8)).length = 8 * slots.length := by
  induction slots with
  | nil => rfl
  | cons slot slots ih =>
    rw [List.flatMap_cons,List.length_append,bytes_length,ih,List.length_cons]
    omega

theorem gblIdx_at {slots : List Nat} {i p : Nat} (slot : slots[i]? = some p) (small : p < 2 ^ 64) :
    gblIdx (slots.flatMap (bytes 8)) i = p := by
  obtain ⟨inside,rfl⟩ := List.getElem?_eq_some_iff.mp slot
  have split : slots = slots.take i ++ slots[i] :: slots.drop (i + 1) := by simp
  have front : 8 * i = ((slots.take i).flatMap (bytes 8)).length := by
    rw [index_length,List.length_take]
    omega
  have drops : (slots.flatMap (bytes 8)).drop (8 * i) = bytes 8 slots[i] ++ (slots.drop (i + 1)).flatMap (bytes 8) := by
    conv => lhs; rw [split,List.flatMap_append,List.flatMap_cons,front,List.drop_left]
  rw [gblIdx,drops,List.take_append_of_le_length (by simp),List.take_of_length_le (by simp),number_bytes]
  exact Nat.mod_eq_of_lt small

theorem Laid.image {done : List (List UInt8)} {slots : List Nat} {out : Output} (laid : Laid done slots out)
    {id p : Nat} (slot : slots[id]? = some p) (small : p < 2 ^ 64) :
    acSearchBuilderImageGlobal (acSearchBuilderImageInit out) id = some (if p > 0 then some p else none) := by
  have inside := (List.getElem?_eq_some_iff.mp slot).1
  have words : out.outIdx.length / 8 = slots.length := by
    rw [laid.index,index_length]
    omega
  rw [acSearchBuilderImageGlobal,acSearchBuilderImageInit,words,List.getElem?_map,List.getElem?_range inside,
    Option.map_some,laid.index,gblIdx_at slot small]

/-- A builder after some globals. -/
def added (adds : List Global) : Builder := adds.foldl acSearchBuilderGlobal acSearchBuilderInit

/-- The globals whose record the sorted output takes. -/
def stored (adds : List Global) : List Global := adds.filter (fun g => g.data.length + 4 ≤ 0xffffffff)

theorem recordId_record (g : Global) : recordId (record g) = g.id := by
  rw [recordId,record,List.take_append_of_le_length (by simp),List.take_of_length_le (by simp),number_bytes]
  exact Nat.mod_eq_of_lt g.idSmall

theorem record_length (g : Global) : (record g).length = g.data.length + 4 := by
  rw [record,List.length_append,bytes_length]
  omega

theorem added_records (adds : List Global) : (added adds).globalData = (stored adds).map record := by
  induction adds using List.reverseRecOn with
  | nil => rfl
  | append_singleton adds g ih =>
    rw [added,List.foldl_append,stored,List.filter_append,List.map_append]
    show (writeSortedRecord (added adds).globalData (record g)).1 = _
    rw [ih,writeSortedRecord,record_length]
    by_cases long : g.data.length + 4 > 0xffffffff
    · rw [if_pos long,List.filter_cons_of_neg (by rw [decide_eq_true_eq]; omega)]
      simp [stored]
    · rw [if_neg long,List.filter_cons_of_pos (by rw [decide_eq_true_eq]; omega)]
      simp [stored]

/-- `image_global` after the round trip: every id up to the greatest of `kept` gives `NULL`
    or points at the bytes that `kept` has for it. -/
def RoundTrips (kept : List Global) (files : Output) : Prop :=
  ∀ id, (∃ g ∈ kept, id ≤ g.id) →
    ((∀ g ∈ kept, g.id ≠ id) → acSearchBuilderImageGlobal (acSearchBuilderImageInit files) id = some none) ∧
    ∀ g ∈ kept, g.id = id → ∃ p, acSearchBuilderImageGlobal (acSearchBuilderImageInit files) id = some (some p) ∧
      PointsAt (acSearchBuilderImageInit files) p g.data

/-- Globals of distinct ids, when the sorted output delivers its records once each in the
    order of their ids. -/
theorem globals_round_trip (adds : List Global) (distinct : (adds.map Global.id).Nodup)
    (delivered : List (List UInt8)) (once : delivered.Perm (added adds).globalData)
    (sorted : delivered.Pairwise (fun r1 r2 => compareGlobalData r1 r2 ≤ 0)) :
    ∃ files, acSearchBuilderDestroy delivered = some files ∧ RoundTrips (stored adds) files := by
  rw [added_records] at once
  have isRecord : ∀ r, r ∈ delivered ↔ ∃ g ∈ stored adds, record g = r := fun r =>
    once.mem_iff.trans List.mem_map
  have ascending : delivered.Pairwise (fun r1 r2 => recordId r1 < recordId r2) := by
    have ids : (delivered.map recordId).Nodup := by
      rw [(once.map recordId).nodup_iff,List.map_map]
      have same : (stored adds).map (recordId ∘ record) = (stored adds).map Global.id :=
        List.map_congr_left fun g _ => recordId_record g
      rw [same]
      exact distinct.sublist (List.filter_sublist.map _)
    refine (sorted.and (List.pairwise_map.mp ids)).imp fun {r1 r2} both => ?_
    obtain ⟨upTo,apart⟩ := both
    rw [compareGlobalData,if_pos apart] at upTo
    split at upTo
    · assumption
    · omega
  have fit : ∀ r ∈ delivered, recordId r < 2 ^ 32 ∧ 4 ≤ r.length ∧ r.length ≤ 0xffffffff := by
    intro r member
    obtain ⟨g,kept,rfl⟩ := (isRecord r).mp member
    have short := of_decide_eq_true (List.mem_filter.mp kept).2
    rw [recordId_record,record_length]
    exact ⟨g.idSmall,by omega,short⟩
  obtain ⟨slots,files,wrote,laid⟩ := Laid.nil.run ascending fit
  rw [List.nil_append] at laid
  refine ⟨files,wrote,?_⟩
  rintro id ⟨last,lastKept,upTo⟩
  have lastInside := laid.inside (record last) ((isRecord _).mpr ⟨last,lastKept,rfl⟩)
  rw [recordId_record] at lastInside
  constructor
  · intro noGlobal
    have slot : slots[id]? = some 0 := by
      refine laid.gap id (by omega) fun r member => ?_
      obtain ⟨g,kept,rfl⟩ := (isRecord r).mp member
      rw [recordId_record]
      exact noGlobal g kept
    exact laid.image slot (by decide)
  · rintro g kept rfl
    obtain ⟨p,slot,large,small,here⟩ := laid.kept (record g) ((isRecord _).mpr ⟨g,kept,rfl⟩)
    rw [recordId_record] at slot
    refine ⟨p,?_,large,?_⟩
    · rw [laid.image slot small,if_pos (by omega)]
    · rw [record_length,Nat.add_sub_cancel,record,List.drop_append_of_le_length (by simp),
        List.drop_eq_nil_of_le (by simp),List.nil_append] at here
      exact here

/-- Two ids with a gap between them, added in the other order. -/
theorem globals_round_trip_gap :
    ∃ files, acSearchBuilderDestroy [[1,0,0,0,7,8],[3,0,0,0]] = some files ∧
      RoundTrips (stored [⟨3,[],by decide,by decide⟩,⟨1,[7,8],by decide,by decide⟩]) files :=
  globals_round_trip [⟨3,[],by decide,by decide⟩,⟨1,[7,8],by decide,by decide⟩] (by decide) _
    (by decide) (by decide)

/-- Data of 2^32 - 4 bytes, whose record does not fit: its id is not in the index at all. -/
theorem long_global_lost :
    ¬ ∀ (adds : List Global) (delivered : List (List UInt8)), (adds.map Global.id).Nodup →
      delivered.Perm (added adds).globalData →
      delivered.Pairwise (fun r1 r2 => compareGlobalData r1 r2 ≤ 0) →
      ∃ files, acSearchBuilderDestroy delivered = some files ∧ RoundTrips adds files := by
  intro all
  have length : (List.replicate (2 ^ 32 - 4) (0 : UInt8)).length = 2 ^ 32 - 4 := List.length_replicate
  let long : Global := ⟨7,List.replicate (2 ^ 32 - 4) 0,by decide,by rw [length]; decide⟩
  have none : (added [long]).globalData = [] := by
    rw [added_records,stored,List.filter_cons_of_neg]
    · rfl
    · simp only [long,length]
      decide
  obtain ⟨files,wrote,trips⟩ := all [long] [] (by simp) (by rw [none]) List.Pairwise.nil
  obtain ⟨p,points,-⟩ := (trips 7 ⟨long,List.mem_singleton_self _,Nat.le_refl _⟩).2 long (List.mem_singleton_self _) rfl
  cases wrote
  simp [acSearchBuilderImageGlobal,acSearchBuilderImageInit] at points

end AnotherC.BuilderGlobals
