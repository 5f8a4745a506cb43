import AnotherC.Lib.Bytes
import AnotherC.Lib.Splice
import AnotherC.Lib.Text

/-!
# Buffers that grow: `ac_buffer`

A buffer from the heap or from a pool, with an allocation of `size + 1` bytes. One from the
heap with no size has its byte in the field `size` of its header. A pool buffer grows by
`ac_pool_dup`, which copies as many bytes as the new allocation has.
-/
namespace AnotherC.Buffer
open AnotherC.Lib
open AnotherC.Lib.Bytes (toSize toSize_small)
open AnotherC.Lib.Splice (store store_spec store_outside)
open AnotherC.Lib.Text (Text)
set_option linter.unusedVariables false

/-! ## The functions -/

/-- Where `data` points to: the field `size`, or an allocation. -/
inductive Data where
  | header
  | block (bytes : List UInt8)
deriving Repr, DecidableEq

/-- `ac_buffer_t` -/
structure AcBuffer where
  data : Data
  length : Nat
  size : Nat
  pool : Bool
deriving Repr, DecidableEq

/-- What `ac_malloc` or `ac_pool_alloc` returns for a size: nothing, or bytes that hold anything. -/
abbrev Alloc := Nat → Option (List UInt8)

/-- The process goes on with the buffer, or is aborted. -/
inductive Outcome where
  | returned (h : AcBuffer)
  | aborted
deriving Repr, DecidableEq

def Outcome.andThen : Outcome → (AcBuffer → Option Outcome) → Option Outcome
  | .returned h, next => next h
  | .aborted, _ => some .aborted

/-- The bytes of the allocation; of the field `size`, its first one. -/
def cells (h : AcBuffer) : List UInt8 :=
  match h.data with
  | .header => [UInt8.ofNat h.size]
  | .block bytes => bytes

/-- Bytes are read from the front of the allocation. -/
def get (h : AcBuffer) (n : Nat) : Option (List UInt8) := if n ≤ (cells h).length then some ((cells h).take n) else none

/-- Bytes are written into the allocation. -/
def put (h : AcBuffer) (at' : Nat) (xs : List UInt8) : Option AcBuffer := do
  let bytes ← store (cells h) at' xs
  match h.data with
  | .header => some { h with size := h.size / 256 * 256 + (bytes.headD 0).toNat }
  | .block _ => some { h with data := .block bytes }

/-- `_ac_buffer_init`; `header` says whether there is memory for the structure. -/
def acBufferInit (initialSize : Nat) (header : Bool) (malloc : Alloc) : Option Outcome :=
  if !header then none
  else do
    let data ← (if initialSize ≠ 0 then (malloc (toSize (initialSize + 1))).map .block else some .header)
    let h ← put ⟨data,0,initialSize,false⟩ 0 [0]
    some (.returned { h with length := 0, size := initialSize })

/-- `ac_buffer_pool_init`; a pool that gets no memory aborts. -/
def acBufferPoolInit (initialSize : Nat) (header : Bool) (alloc : Alloc) : Option Outcome :=
  if !header then some .aborted
  else match alloc (toSize (initialSize + 1)) with
    | none => some .aborted
    | some bytes => do
      let h ← put ⟨.block bytes,0,0,true⟩ 0 [0]
      some (.returned { h with size := initialSize })

/-- `(length + 50) + (h->size >> 3)` -/
def grownSize (size length : Nat) : Nat := toSize (length + 50 + size / 8)

/-- `_ac_buffer_grow`: on the heap the bytes up to the terminator are copied, and in a pool as many
    as there are in the new allocation. -/
def acBufferGrow (h : AcBuffer) (length : Nat) (alloc : Alloc) : Option Outcome :=
  let len := grownSize h.size length
  match alloc (toSize (len + 1)) with
  | none => if h.pool then some .aborted else none
  | some memory => do
    let bytes ← get h (if h.pool then toSize (len + 1) else toSize (h.length + 1))
    let data ← store memory 0 bytes
    some (.returned { h with data := .block data, size := len })

/-- `_ac_buffer_alloc`, for a caller that then writes to the new bytes. -/
def acBufferAlloc (h : AcBuffer) (length : Nat) (alloc : Alloc) : Option Outcome :=
  let len := grownSize h.size length
  match alloc (toSize (len + 1)) with
  | none => if h.pool then some .aborted else none
  | some memory => some (.returned { h with data := .block memory, size := len })

/-- The buffer grows if it is too short for a length. -/
def ensure (h : AcBuffer) (length : Nat) (alloc : Alloc) : Option Outcome :=
  if length > h.size then acBufferGrow h length alloc else some (.returned h)

def acBufferClear (h : AcBuffer) : Option Outcome := do
  let h ← put { h with length := 0 } 0 [0]
  some (.returned h)

def acBufferShrinkBy (h : AcBuffer) (length : Nat) : Option Outcome := do
  let h := { h with length := if h.length > length then h.length - length else 0 }
  let h ← put h h.length [0]
  some (.returned h)

def acBufferResize (h : AcBuffer) (length : Nat) (alloc : Alloc) : Option Outcome := do
  let out ← ensure h length alloc
  out.andThen fun h => do
    let h ← put { h with length := length } length [0]
    some (.returned h)

/-- `ac_buffer_append_ualloc`, and the caller fills the bytes at the pointer it returns. -/
def acBufferAppendUalloc (h : AcBuffer) (filled : List UInt8) (alloc : Alloc) : Option Outcome := do
  let out ← ensure h (toSize (filled.length + h.length)) alloc
  out.andThen fun h => do
    let r := h.length
    let h ← put { h with length := toSize (h.length + filled.length) } (r + filled.length) [0]
    let h ← put h r filled
    some (.returned h)

/-- The length is a multiple of 8 first. -/
def pad (h : AcBuffer) (alloc : Alloc) : Option Outcome :=
  let m := h.length % 8
  if m > 0 then do
    let out ← ensure h (toSize (8 - m + h.length)) alloc
    out.andThen fun h => do
      let h := { h with length := toSize (h.length + (8 - m)) }
      let h ← put h h.length [0]
      some (.returned h)
  else some (.returned h)

/-- `ac_buffer_append_alloc`, which may grow twice, and the caller fills the bytes. -/
def acBufferAppendAlloc (h : AcBuffer) (filled : List UInt8) (alloc alloc' : Alloc) : Option Outcome := do
  let out ← pad h alloc
  out.andThen fun h => acBufferAppendUalloc h filled alloc'

def acBufferAppend (h : AcBuffer) (data : List UInt8) (alloc : Alloc) : Option Outcome := do
  let out ← ensure h (toSize (h.length + data.length)) alloc
  out.andThen fun h => do
    let h ← put h h.length data
    let h := { h with length := toSize (h.length + data.length) }
    let h ← put h h.length [0]
    some (.returned h)

def strlen (s : Text) : Nat := (s.takeWhile (· ≠ 0)).length

def acBufferAppends (h : AcBuffer) (s : Text) (alloc : Alloc) : Option Outcome := acBufferAppend h (s.take (strlen s)) alloc

def acBufferAppendc (h : AcBuffer) (ch : UInt8) (alloc : Alloc) : Option Outcome := do
  let out ← ensure h (toSize (h.length + 1)) alloc
  out.andThen fun h => do
    let d := h.length
    let h ← put h d [ch]
    let h ← put h (d + 1) [0]
    some (.returned { h with length := toSize (h.length + 1) })

def acBufferAppendn (h : AcBuffer) (ch : UInt8) (n : Int) (alloc : Alloc) : Option Outcome :=
  if n ≤ 0 then some (.returned h)
  else do
    let out ← ensure h (toSize (h.length + n)) alloc
    out.andThen fun h => do
      let d := h.length
      let h ← put h d (List.replicate n.toNat ch)
      let h ← put h (d + n.toNat) [0]
      some (.returned { h with length := toSize (h.length + n) })

/-- `_ac_buffer_set` -/
def acBufferSet (h : AcBuffer) (data : List UInt8) (alloc : Alloc) : Option Outcome := do
  let out ← (if data.length > h.size then acBufferAlloc h data.length alloc else some (.returned h))
  out.andThen fun h => do
    let h ← put h 0 data
    let h ← put { h with length := data.length } data.length [0]
    some (.returned h)

def acBufferSetn (h : AcBuffer) (ch : UInt8) (n : Int) (alloc : Alloc) : Option Outcome :=
  acBufferAppendn { h with length := 0 } ch n alloc

/-! ## Runs -/

inductive Op where
  | append (data : List UInt8) (alloc : Alloc)
  | appends (s : Text) (alloc : Alloc)
  | appendc (ch : UInt8) (alloc : Alloc)
  | appendn (ch : UInt8) (n : Int) (alloc : Alloc)
  | appendAlloc (filled : List UInt8) (alloc alloc' : Alloc)
  | appendUalloc (filled : List UInt8) (alloc : Alloc)
  | set (data : List UInt8) (alloc : Alloc)
  | setn (ch : UInt8) (n : Int) (alloc : Alloc)
  | resize (length : Nat) (alloc : Alloc)
  | shrinkBy (length : Nat)
  | clear

def step (h : AcBuffer) : Op → Option Outcome
  | .append data alloc => acBufferAppend h data alloc
  | .appends s alloc => acBufferAppends h s alloc
  | .appendc ch alloc => acBufferAppendc h ch alloc
  | .appendn ch n alloc => acBufferAppendn h ch n alloc
  | .appendAlloc filled alloc alloc' => acBufferAppendAlloc h filled alloc alloc'
  | .appendUalloc filled alloc => acBufferAppendUalloc h filled alloc
  | .set data alloc => acBufferSet h data alloc
  | .setn ch n alloc => acBufferSetn h ch n alloc
  | .resize length alloc => acBufferResize h length alloc
  | .shrinkBy length => acBufferShrinkBy h length
  | .clear => acBufferClear h

/-- The bytes that are to be in a buffer; one that was not given has no value. -/
abbrev Reference := List (Option UInt8)

/-- The first bytes, and more without a value up to a length. -/
def cutTo (ref : Reference) (length : Nat) : Reference := ref.take length ++ List.replicate (length - ref.length) none

def padded (n : Nat) : Nat := (n + 7) / 8 * 8

def after (ref : Reference) : Op → Reference
  | .append data _ => ref ++ data.map some
  | .appends s _ => ref ++ (s.takeWhile (· ≠ 0)).map some
  | .appendc ch _ => ref ++ [some ch]
  | .appendn ch n _ => ref ++ List.replicate n.toNat (some ch)
  | .appendAlloc filled _ _ => cutTo ref (padded ref.length) ++ filled.map some
  | .appendUalloc filled _ => ref ++ filled.map some
  | .set data _ => data.map some
  | .setn ch n _ => List.replicate n.toNat (some ch)
  | .resize length _ => cutTo ref length
  | .shrinkBy length => ref.take (ref.length - length)
  | .clear => []

/-- The buffer holds the bytes and their terminator in its allocation of `size + 1` bytes. -/
structure Shows (h : AcBuffer) (ref : Reference) : Prop where
  length : h.length = ref.length
  bytes : ∀ (i : Nat) (c : UInt8), ref[i]? = some (some c) → (cells h)[i]? = some c
  terminated : (cells h)[h.length]? = some 0
  room : h.length ≤ h.size
  allocation : (cells h).length = h.size + 1

/-- Every state shows the bytes and no step goes outside of an allocation, up to one that
    aborts. -/
def Keeps : AcBuffer → Reference → List Op → Prop
  | h, ref, [] => Shows h ref
  | h, ref, op :: ops => Shows h ref ∧
    (step h op = some .aborted ∨ ∃ h', step h op = some (.returned h') ∧ Keeps h' (after ref op) ops)

/-! ## The condition -/

/-- An allocation has the bytes that were asked for, fewer than 2^63. -/
def Provides (alloc : Alloc) : Prop := ∀ size bytes, alloc size = some bytes → bytes.length = size ∧ (size : Int) < 2 ^ 63

/-- Arguments that a caller can have: lengths are of type `size_t`, and `n` of type `ssize_t`. -/
def Legal : Op → Prop
  | .append data alloc => (data.length : Int) < 2 ^ 64 ∧ Provides alloc
  | .appends s alloc => (s.length : Int) < 2 ^ 64 ∧ Provides alloc
  | .appendc _ alloc => Provides alloc
  | .appendn _ n alloc => n < 2 ^ 63 ∧ Provides alloc
  | .appendAlloc filled alloc alloc' => (filled.length : Int) < 2 ^ 64 ∧ Provides alloc ∧ Provides alloc'
  | .appendUalloc filled alloc => (filled.length : Int) < 2 ^ 64 ∧ Provides alloc
  | .set data alloc => (data.length : Int) < 2 ^ 64 ∧ Provides alloc
  | .setn _ n alloc => n < 2 ^ 63 ∧ Provides alloc
  | .resize length alloc => (length : Int) < 2 ^ 64 ∧ Provides alloc
  | .shrinkBy length => True
  | .clear => True

/-- The new allocation is too large for a `size_t`. -/
def Fits (size length : Nat) : Prop := (length : Int) + 50 + size / 8 + 1 < 2 ^ 64

/-- The pool has no memory for a longer buffer, and the process ends. -/
def Aborts (pool : Bool) (size length : Nat) (alloc : Alloc) : Prop :=
  size < length ∧ pool = true ∧ alloc (toSize (grownSize size length + 1)) = none

/-- A length that a buffer of this size has room for, or that it can grow to: not in a pool, and on
    the heap only with the memory for it. -/
def Room (pool : Bool) (size length : Nat) (alloc : Alloc) : Prop :=
  (length : Int) < 2 ^ 64 ∧ (length ≤ size ∨ Aborts pool size length alloc ∨
    pool = false ∧ Fits size length ∧ alloc (toSize (grownSize size length + 1)) ≠ none)

/-- The same for the bytes of `_ac_buffer_alloc`, which a pool has as well. -/
def RoomToSet (pool : Bool) (size length : Nat) (alloc : Alloc) : Prop :=
  length ≤ size ∨ Aborts pool size length alloc ∨ Fits size length ∧ alloc (toSize (grownSize size length + 1)) ≠ none

/-- What a step needs of the buffer before it. -/
def Clean (h : AcBuffer) : Op → Prop
  | .append data alloc => Room h.pool h.size (h.length + data.length) alloc
  | .appends s alloc => Room h.pool h.size (h.length + strlen s) alloc
  | .appendc _ alloc => Room h.pool h.size (h.length + 1) alloc
  | .appendn _ n alloc => n ≤ 0 ∨ Room h.pool h.size (h.length + n.toNat) alloc
  | .appendAlloc filled alloc alloc' => Room h.pool h.size (padded h.length) alloc ∧
    (Aborts h.pool h.size (padded h.length) alloc ∨
      Room h.pool (if padded h.length ≤ h.size then h.size else grownSize h.size (padded h.length)) (padded h.length + filled.length) alloc')
  | .appendUalloc filled alloc => Room h.pool h.size (h.length + filled.length) alloc
  | .set data alloc => RoomToSet h.pool h.size data.length alloc
  | .setn _ n alloc => if n ≤ 0 then (cells h)[0]? = some 0 else Room h.pool h.size n.toNat alloc
  | .resize length alloc => Room h.pool h.size length alloc
  | .shrinkBy length => True
  | .clear => True

def AllClean : AcBuffer → List Op → Prop
  | _, [] => True
  | h, op :: ops => Clean h op ∧ ∀ h', step h op = some (.returned h') → AllClean h' ops

/-! ## Reading and writing -/

section
variable {h h' : AcBuffer} {ref : Reference} {alloc : Alloc} {at' total : Nat} {xs : List UInt8}

/-- What a write within the allocation leaves. -/
structure Put (h h' : AcBuffer) (at' : Nat) (xs : List UInt8) : Prop where
  length : h'.length = h.length
  size : h'.size = h.size
  pool : h'.pool = h.pool
  header : h'.data = .header → h.data = .header
  cells : (cells h').length = (cells h).length
  get : ∀ i : Nat, (Buffer.cells h')[i]? = if at' ≤ i ∧ i < at' + xs.length then xs[i - at']? else (Buffer.cells h)[i]?

/-- Only zeros are written into the field `size`, which is 0 then. -/
theorem put_spec (inside : at' + xs.length ≤ (cells h).length) (zero : h.data = .header → h.size = 0 ∧ ∀ x ∈ xs, x = 0) :
    ∃ h', put h at' xs = some h' ∧ Put h h' at' xs := by
  obtain ⟨bytes,stored,length,get⟩ := store_spec inside
  cases data : h.data with
  | header =>
    obtain ⟨size,zeros⟩ := zero data
    have isCells : cells h = [0] := by rw [cells,data,size]; rfl
    have isBytes : bytes = [0] := by
      rw [isCells] at length get
      refine List.ext_getElem? fun i => ?_
      rw [get i]
      split
      case isTrue within =>
        rw [isCells,List.length_singleton] at inside
        have first : i = 0 := by omega
        subst first
        have some_ : xs[0 - at']? = some xs[0 - at'] := List.getElem?_eq_getElem (by omega)
        rw [some_,zeros _ (List.getElem_mem _)]
        rfl
      case isFalse => rfl
    refine ⟨{ h with size := h.size / 256 * 256 + 0 },?_,?_⟩
    · rw [put,stored]
      simp only [Option.bind_eq_bind,Option.bind_some]
      rw [data,isBytes]
      rfl
    · have same : { h with size := h.size / 256 * 256 + 0 } = h := by rw [size]; cases h; cases size; rfl
      rw [same]
      refine ⟨rfl,rfl,rfl,id,rfl,fun i => ?_⟩
      rw [← get i,isCells,isBytes]
  | block old =>
    refine ⟨{ h with data := .block bytes },?_,⟨rfl,rfl,rfl,nofun,length,get⟩⟩
    rw [put,stored]
    simp only [Option.bind_eq_bind,Option.bind_some]
    rw [data]

theorem put_outside (outside : (cells h).length < at' + xs.length) : put h at' xs = none := by
  rw [put,store_outside outside]
  rfl

theorem put_cells (made : put h at' xs = some h') : (cells h').length = (cells h).length ∧ h'.length = h.length := by
  unfold put at made
  obtain ⟨bytes,stored,made⟩ := Option.bind_eq_some_iff.mp made
  have length := Splice.store_length stored
  cases data : h.data with
  | header =>
    rw [data] at made
    cases made
    refine ⟨?_,rfl⟩
    rw [cells,cells]
    simp only [data]
    rfl
  | block old =>
    rw [data] at made
    cases made
    exact ⟨length,rfl⟩

/-- The length plays no part in a write. -/
theorem put_length (h : AcBuffer) (length at' : Nat) (xs : List UInt8) :
    put { h with length := length } at' xs = (put h at' xs).map fun h' => { h' with length := length } := by
  have same : cells { h with length := length } = cells h := rfl
  rw [put,put,same]
  cases store (cells h) at' xs with
  | none => rfl
  | some bytes =>
    simp only [Option.bind_eq_bind,Option.bind_some]
    cases h.data <;> rfl

/-! ## The invariant -/

/-- All that is shown but the terminator. -/
structure Base (h : AcBuffer) (ref : Reference) : Prop where
  length : h.length = ref.length
  bytes : ∀ (i : Nat) (c : UInt8), ref[i]? = some (some c) → (cells h)[i]? = some c
  room : h.length ≤ h.size
  allocation : (cells h).length = h.size + 1
  header : h.data = .header → h.size = 0 ∧ h.pool = false
  small : ((cells h).length : Int) < 2 ^ 63

structure Inv (h : AcBuffer) (ref : Reference) : Prop extends Base h ref where
  terminated : (cells h)[h.length]? = some 0

theorem Inv.shows (inv : Inv h ref) : Shows h ref := ⟨inv.length,inv.bytes,inv.terminated,inv.room,inv.allocation⟩

theorem cutTo_length (ref : Reference) (total : Nat) : (cutTo ref total).length = total := by
  rw [cutTo,List.length_append,List.length_take,List.length_replicate]
  omega

theorem cutTo_get {ref : Reference} {total i : Nat} {c : UInt8} (here : (cutTo ref total)[i]? = some (some c)) :
    ref[i]? = some (some c) ∧ i < total := by
  have below := (List.getElem?_eq_some_iff.mp here).1
  rw [cutTo_length] at below
  rw [cutTo,List.getElem?_append] at here
  split at here
  case isTrue =>
    rw [List.getElem?_take_of_lt below] at here
    exact ⟨here,below⟩
  case isFalse =>
    rw [List.getElem?_replicate] at here
    split at here
    · cases here
    · cases here

theorem cutTo_self (ref : Reference) : cutTo ref ref.length = ref := by
  rw [cutTo,List.take_length,Nat.sub_self,List.replicate_zero,List.append_nil]

/-- A buffer gets a length that it has room for, and the terminator behind it. -/
theorem settle (base : Base h ref) (room : total ≤ h.size) :
    ∃ h', put { h with length := total } total [0] = some h' ∧ Inv h' (cutTo ref total) ∧ h'.size = h.size ∧ h'.pool = h.pool := by
  have inside : total + [(0 : UInt8)].length ≤ (cells h).length := by
    rw [base.allocation,List.length_singleton]
    omega
  obtain ⟨h',made,put⟩ := put_spec (h := { h with length := total }) inside
    fun header => ⟨(base.header header).1,fun x inside => List.mem_singleton.mp inside⟩
  have same : cells { h with length := total } = cells h := rfl
  have cells' := put.cells
  have get := put.get
  rw [same] at cells' get
  refine ⟨h',made,⟨⟨?_,?_,?_,?_,?_,?_⟩,?_⟩,put.size,put.pool⟩
  · rw [put.length,cutTo_length]
  · intro i c here
    obtain ⟨old,below⟩ := cutTo_get here
    rw [get,if_neg (by omega)]
    exact base.bytes i c old
  · rw [put.length,put.size]
    exact room
  · rw [cells',put.size]
    exact base.allocation
  · intro header
    rw [put.size,put.pool]
    exact base.header (put.header header)
  · rw [cells']
    exact base.small
  · rw [put.length,get,if_pos ⟨Nat.le_refl _,Nat.lt_succ_self _⟩,Nat.sub_self]
    rfl

/-- Bytes behind a place of the buffer up to its end are given. -/
theorem fill (inv : Inv h ref) (ends : at' + xs.length = h.length) :
    ∃ h', put h at' xs = some h' ∧ Inv h' (ref.take at' ++ xs.map some) := by
  have inside : at' + xs.length ≤ (cells h).length := by
    have room := inv.room
    rw [inv.allocation]
    omega
  obtain ⟨h',made,put⟩ := put_spec inside fun header => by
    have room := inv.room
    rw [(inv.header header).1] at room
    have none_ : xs = [] := List.eq_nil_of_length_eq_zero (by omega)
    exact ⟨(inv.header header).1,by rw [none_]; nofun⟩
  have front : (ref.take at').length = at' := by
    have length := inv.length
    rw [List.length_take]
    omega
  refine ⟨h',made,⟨⟨?_,?_,?_,?_,?_,?_⟩,?_⟩⟩
  · rw [put.length,List.length_append,List.length_map,front,ends]
  · intro i c here
    rw [put.get]
    by_cases before : i < at'
    · rw [List.getElem?_append_left (by omega),List.getElem?_take_of_lt before] at here
      rw [if_neg (by omega)]
      exact inv.bytes i c here
    · rw [List.getElem?_append_right (by omega),front,List.getElem?_map] at here
      obtain ⟨x,isByte,same⟩ := Option.map_eq_some_iff.mp here
      have below := (List.getElem?_eq_some_iff.mp isByte).1
      rw [if_pos (by omega),isByte,← Option.some.inj same]
  · rw [put.length,put.size]
    exact inv.room
  · rw [put.cells,put.size]
    exact inv.allocation
  · intro header
    rw [put.size,put.pool]
    exact inv.header (put.header header)
  · rw [put.cells]
    exact inv.small
  · rw [put.length,put.get,if_neg (by omega)]
    exact inv.terminated

/-- Bytes are given behind the others, before their terminator. -/
theorem behind (base : Base h ref) (room : h.length + xs.length ≤ h.size) :
    ∃ h', put h h.length xs = some h' ∧ h'.length = h.length ∧
      Base { h' with length := h.length + xs.length } (ref ++ xs.map some) ∧ h'.size = h.size ∧ h'.pool = h.pool := by
  have inside : h.length + xs.length ≤ (cells h).length := by
    rw [base.allocation]
    omega
  obtain ⟨h',made,put⟩ := put_spec inside fun header => by
    rw [(base.header header).1] at room
    have none_ : xs = [] := List.eq_nil_of_length_eq_zero (by omega)
    exact ⟨(base.header header).1,by rw [none_]; nofun⟩
  refine ⟨h',made,put.length,⟨?_,?_,?_,?_,?_,?_⟩,put.size,put.pool⟩
  · rw [List.length_append,List.length_map,← base.length]
  · intro i c here
    show (cells h')[i]? = some c
    rw [put.get]
    by_cases before : i < ref.length
    · rw [List.getElem?_append_left before] at here
      rw [if_neg (by rw [base.length]; omega)]
      exact base.bytes i c here
    · rw [List.getElem?_append_right (by omega),List.getElem?_map] at here
      obtain ⟨x,isByte,same⟩ := Option.map_eq_some_iff.mp here
      have below := (List.getElem?_eq_some_iff.mp isByte).1
      rw [if_pos (by rw [base.length]; omega),base.length,isByte,← Option.some.inj same]
  · show h.length + xs.length ≤ h'.size
    rw [put.size]
    exact room
  · show (cells h').length = h'.size + 1
    rw [put.cells,put.size]
    exact base.allocation
  · intro header
    show h'.size = 0 ∧ h'.pool = false
    rw [put.size,put.pool]
    exact base.header (put.header header)
  · show ((cells h').length : Int) < 2 ^ 63
    rw [put.cells]
    exact base.small

/-- The bytes and then the terminator. -/
theorem behind_terminated (base : Base h ref) (room : h.length + xs.length ≤ h.size) :
    ∃ h₁ h₂ h₃, put h h.length xs = some h₁ ∧ h₁.length = h.length ∧ put h₁ (h.length + xs.length) [0] = some h₂ ∧ h₂.length = h.length ∧
      put { h₁ with length := h.length + xs.length } (h.length + xs.length) [0] = some h₃ ∧
      h₃ = { h₂ with length := h.length + xs.length } ∧ Inv h₃ (ref ++ xs.map some) := by
  obtain ⟨h₁,made₁,length₁,base₁,size₁,-⟩ := behind base room
  have fits : h.length + xs.length ≤ h₁.size := by omega
  obtain ⟨h₃,made₃,inv,-,-⟩ := settle base₁ fits
  have whole : cutTo (ref ++ xs.map some) (h.length + xs.length) = ref ++ xs.map some := by
    have length : h.length + xs.length = (ref ++ xs.map some).length := by rw [List.length_append,List.length_map,base.length]
    rw [length,cutTo_self]
  rw [whole] at inv
  have made₃' := made₃
  rw [put_length h₁] at made₃'
  obtain ⟨h₂,made₂,same⟩ := Option.map_eq_some_iff.mp made₃'
  have length₂ : h₂.length = h.length := (put_cells made₂).2.trans length₁
  exact ⟨h₁,h₂,h₃,made₁,length₁,made₂,length₂,made₃,same.symm,inv⟩

/-! ## Growing -/

theorem grown_fits {size : Nat} (fits : Fits size total) : grownSize size total = total + 50 + size / 8 := by
  have small := toSize_small (n := total + 50 + size / 8) (by unfold Fits at fits; omega)
  rw [← small]
  rfl

theorem request_fits {size : Nat} (fits : Fits size total) : toSize (grownSize size total + 1) = total + 50 + size / 8 + 1 := by
  have small := toSize_small (n := total + 50 + size / 8 + 1) (by unfold Fits at fits; omega)
  rw [grown_fits fits,← small]
  rfl

/-- Where the size wraps around, the new bytes are fewer than the length. -/
theorem request_wraps {size : Nat} (bound : (total : Int) < 2 ^ 64) (half : (size : Int) < 2 ^ 63) (wraps : ¬ Fits size total) :
    toSize (grownSize size total + 1) ≤ total := by
  unfold Fits at wraps
  unfold grownSize toSize
  omega

theorem get_all {n : Nat} (inside : n ≤ (cells h).length) : get h n = some ((cells h).take n) := if_pos inside

/-- What a growth leaves: the same bytes in a longer allocation. -/
theorem grow_heap (base : Base h ref) (heap : h.pool = false) (more : h.size < total) (fits : Fits h.size total)
    (provides : Provides alloc) {memory : List UInt8} (got : alloc (toSize (grownSize h.size total + 1)) = some memory) :
    ∃ h', acBufferGrow h total alloc = some (.returned h') ∧ Base h' ref ∧ h'.length = h.length ∧ h'.size = grownSize h.size total ∧
      h'.pool = h.pool := by
  obtain ⟨asked,half⟩ := provides _ _ got
  rw [request_fits fits] at asked half
  have small := base.small
  have room := base.room
  have allocation := base.allocation
  have copy : toSize ((h.length : Int) + 1) = h.length + 1 := toSize_small (n := h.length + 1) (by omega)
  have read := get_all (h := h) (n := h.length + 1) (by omega)
  have length : ((cells h).take (h.length + 1)).length = h.length + 1 := by rw [List.length_take]; omega
  have inside : 0 + ((cells h).take (h.length + 1)).length ≤ memory.length := by rw [length]; omega
  obtain ⟨data,stored,size,place⟩ := store_spec inside
  refine ⟨{ h with data := .block data, size := grownSize h.size total },?_,⟨base.length,?_,?_,?_,nofun,?_⟩,rfl,rfl,rfl⟩
  · rw [acBufferGrow,got]
    simp only [heap,Bool.false_eq_true,if_false,copy,read,Option.bind_eq_bind,Option.bind_some,stored]
  · intro i c here
    have below := (List.getElem?_eq_some_iff.mp here).1
    have lengths := base.length
    show data[i]? = some c
    rw [place,length,if_pos (by omega),Nat.sub_zero,List.getElem?_take_of_lt (by omega)]
    exact base.bytes i c here
  · show h.length ≤ grownSize h.size total
    rw [grown_fits fits]
    omega
  · show data.length = grownSize h.size total + 1
    rw [grown_fits fits,size,asked]
  · show (data.length : Int) < 2 ^ 63
    rw [size,asked]
    exact half

/-- A growth that has no room leaves a buffer that is too short, if anything. -/
theorem grow_short (base : Base h ref) (bound : (total : Int) < 2 ^ 64) (more : h.size < total) (noRoom : ¬ Room h.pool h.size total alloc)
    (provides : Provides alloc) :
    acBufferGrow h total alloc = none ∨ ∃ h', acBufferGrow h total alloc = some (.returned h') ∧ (cells h').length ≤ total ∧
      ((cells h').length : Int) < 2 ^ 63 ∧ h'.length = h.length := by
  have half : (h.size : Int) < 2 ^ 63 := by
    have small := base.small
    rw [base.allocation] at small
    omega
  unfold acBufferGrow
  cases got : alloc (toSize (grownSize h.size total + 1)) with
  | none =>
    cases pool : h.pool with
    | true => exact absurd ⟨bound,.inr (.inl ⟨more,pool,got⟩)⟩ noRoom
    | false =>
      dsimp only
      exact .inl (by rw [got]; rfl)
  | some memory =>
    obtain ⟨asked,few⟩ := provides _ _ got
    simp only [got]
    cases read : get h (if h.pool then toSize (grownSize h.size total + 1) else toSize (h.length + 1)) with
    | none => exact .inl rfl
    | some bytes =>
      cases stored : store memory 0 bytes with
      | none => exact .inl (by rw [Option.bind_eq_bind,Option.bind_some,stored]; rfl)
      | some data =>
        refine .inr ⟨{ h with data := .block data, size := grownSize h.size total },by rw [Option.bind_eq_bind,Option.bind_some,stored]; rfl,?_,?_,rfl⟩
        case refine_2 =>
          show (data.length : Int) < 2 ^ 63
          rw [Splice.store_length stored,asked]
          exact few
        show data.length ≤ total
        rw [Splice.store_length stored,asked]
        by_cases fits : Fits h.size total
        · cases pool : h.pool with
          | false =>
            refine absurd ⟨bound,.inr (.inr ⟨pool,fits,?_⟩)⟩ noRoom
            rw [got]
            exact Option.some_ne_none _
          | true =>
            -- the copy leaves the old allocation
            rw [pool] at read
            simp only [if_true,request_fits fits] at read
            unfold get at read
            rw [base.allocation,if_neg (by omega)] at read
            cases read
        · exact request_wraps bound half fits

theorem ensure_aborts (aborts : Aborts h.pool h.size total alloc) : ensure h total alloc = some .aborted := by
  obtain ⟨more,pool,failed⟩ := aborts
  rw [ensure,if_pos more,acBufferGrow,failed]
  exact if_pos pool

theorem ensure_room (base : Base h ref) (room : Room h.pool h.size total alloc) (goes : ¬ Aborts h.pool h.size total alloc)
    (provides : Provides alloc) :
    ∃ h', ensure h total alloc = some (.returned h') ∧ Base h' ref ∧ h'.length = h.length ∧ total ≤ h'.size ∧ h'.pool = h.pool ∧
      h'.size = if total ≤ h.size then h.size else grownSize h.size total := by
  by_cases enough : total ≤ h.size
  · exact ⟨h,if_neg (Nat.not_lt.mpr enough),base,rfl,enough,rfl,(if_pos enough).symm⟩
  · have more := Nat.not_le.mp enough
    obtain ⟨heap,fits,succeeds⟩ := (room.2.resolve_left enough).resolve_left goes
    obtain ⟨memory,got⟩ := Option.ne_none_iff_exists'.mp succeeds
    obtain ⟨h',made,base',length,size,pool⟩ := grow_heap base heap more fits provides got
    refine ⟨h',(if_pos more).trans made,base',length,?_,pool,size.trans (if_neg enough).symm⟩
    rw [size,grown_fits fits]
    omega

theorem ensure_short (base : Base h ref) (bound : (total : Int) < 2 ^ 64 + h.size) (noRoom : ¬ Room h.pool h.size total alloc)
    (provides : Provides alloc) :
    ensure h (toSize total) alloc = none ∨ ∃ h', ensure h (toSize total) alloc = some (.returned h') ∧ (cells h').length ≤ total ∧
      ((cells h').length : Int) < 2 ^ 63 ∧ h'.length = h.length := by
  have small := base.small
  have allocation := base.allocation
  by_cases word : (total : Int) < 2 ^ 64
  · rw [toSize_small word]
    by_cases enough : total ≤ h.size
    · exact absurd ⟨word,.inl enough⟩ noRoom
    · have more := Nat.not_le.mp enough
      rw [ensure,if_pos more]
      exact grow_short base word more noRoom provides
  · have wrapped : toSize total ≤ h.size := by
      unfold toSize
      omega
    exact .inr ⟨h,if_neg (Nat.not_lt.mpr wrapped),by omega,small,rfl⟩

/-! ## Steps -/

/-- A step that ends the process or leaves the bytes. -/
def Good (out : Option Outcome) (ref : Reference) : Prop := out = some .aborted ∨ ∃ h', out = some (.returned h') ∧ Inv h' ref

theorem with_room {need : Nat} {ref' : Reference} {next : AcBuffer → Option Outcome} (base : Base h ref) (isNeed : need = toSize total)
    (room : Room h.pool h.size total alloc) (provides : Provides alloc)
    (goes : ¬ Aborts h.pool h.size total alloc → ∀ h₁, Base h₁ ref → h₁.length = h.length → total ≤ h₁.size → h₁.pool = h.pool →
      (h₁.size = if total ≤ h.size then h.size else grownSize h.size total) → Good (next h₁) ref') :
    Good ((ensure h need alloc).bind fun out => out.andThen next) ref' := by
  rw [isNeed,toSize_small room.1]
  by_cases aborts : Aborts h.pool h.size total alloc
  · rw [ensure_aborts aborts]
    exact .inl rfl
  · obtain ⟨h₁,made,base₁,length,enough,pool,size⟩ := ensure_room base room aborts provides
    rw [made]
    exact goes aborts h₁ base₁ length enough pool size

theorem without_room {need : Nat} {next : AcBuffer → Option Outcome} (base : Base h ref) (isNeed : need = toSize total)
    (bound : (total : Int) < 2 ^ 64 + h.size) (noRoom : ¬ Room h.pool h.size total alloc) (provides : Provides alloc)
    (stuck : ∀ h₁, (cells h₁).length ≤ total → ((cells h₁).length : Int) < 2 ^ 63 → h₁.length = h.length → next h₁ = none) :
    ((ensure h need alloc).bind fun out => out.andThen next) = none := by
  rw [isNeed]
  obtain fails | ⟨h₁,made,short,small,length⟩ := ensure_short base bound noRoom provides
  · rw [fails]
    rfl
  · rw [made]
    exact stuck h₁ short small length

theorem Base.half (base : Base h ref) : (h.length : Int) < 2 ^ 63 ∧ (h.size : Int) < 2 ^ 63 := by
  have small := base.small
  have room := base.room
  rw [base.allocation] at small
  omega

/-! ### Resizing -/

theorem resize_good (base : Base h ref) {length : Nat} (room : Room h.pool h.size length alloc) (provides : Provides alloc) :
    Good (acBufferResize h length alloc) (cutTo ref length) := by
  refine with_room base (toSize_small room.1).symm room provides fun _ h₁ base₁ _ enough _ _ => ?_
  obtain ⟨h₂,made,inv,-,-⟩ := settle base₁ enough
  exact .inr ⟨h₂,by rw [made]; rfl,inv⟩

theorem resize_bad (base : Base h ref) {length : Nat} (bound : (length : Int) < 2 ^ 64) (noRoom : ¬ Room h.pool h.size length alloc)
    (provides : Provides alloc) : acBufferResize h length alloc = none := by
  refine without_room base (toSize_small bound).symm (by omega) noRoom provides fun h₁ short _ _ => ?_
  rw [put_outside (h := { h₁ with length := length }) (Nat.lt_succ_of_le short)]
  rfl

/-! ### Bytes that the caller fills -/

theorem cutTo_front {ref : Reference} {total : Nat} (longer : ref.length ≤ total) : (cutTo ref total).take ref.length = ref := by
  rw [cutTo,List.take_of_length_le longer,List.take_left]

theorem ualloc_good (base : Base h ref) {filled : List UInt8} (room : Room h.pool h.size (h.length + filled.length) alloc)
    (provides : Provides alloc) : Good (acBufferAppendUalloc h filled alloc) (ref ++ filled.map some) := by
  have need : toSize ((filled.length : Int) + h.length) = toSize ((h.length + filled.length : Nat) : Int) := by
    rw [Int.add_comm]
    rfl
  refine with_room base need room provides fun _ h₁ base₁ length enough _ _ => ?_
  have whole : toSize ((h₁.length : Int) + filled.length) = h₁.length + filled.length :=
    toSize_small (n := h₁.length + filled.length) (by have half := base₁.half; omega)
  obtain ⟨h₂,made,inv,-,-⟩ := settle base₁ (by rwa [length] : h₁.length + filled.length ≤ h₁.size)
  have ends : h₁.length + filled.length = h₂.length := by rw [inv.length,cutTo_length]
  obtain ⟨h₃,made',inv'⟩ := fill inv ends
  rw [base₁.length,cutTo_front (Nat.le_add_right _ _)] at inv'
  refine .inr ⟨h₃,?_,inv'⟩
  simp only [whole,made,made',Option.bind_eq_bind,Option.bind_some]

theorem ualloc_bad (base : Base h ref) {filled : List UInt8} (bound : (filled.length : Int) < 2 ^ 64)
    (noRoom : ¬ Room h.pool h.size (h.length + filled.length) alloc) (provides : Provides alloc) :
    acBufferAppendUalloc h filled alloc = none := by
  have need : toSize ((filled.length : Int) + h.length) = toSize ((h.length + filled.length : Nat) : Int) := by
    rw [Int.add_comm]
    rfl
  refine without_room base need (by have room := base.room; omega) noRoom provides fun h₁ short _ length => ?_
  have outside : put { h₁ with length := toSize ((h₁.length : Int) + filled.length) } (h₁.length + filled.length) [0] = none :=
    put_outside (by rw [length]; exact Nat.lt_succ_of_le short)
  dsimp only
  rw [outside]
  rfl

/-! ### Padding -/

theorem pad_total {n : Nat} (some_ : 0 < n % 8) : n + (8 - n % 8) = padded n := by
  unfold padded
  omega

theorem padded_none {n : Nat} (none_ : ¬ 0 < n % 8) : padded n = n := by
  unfold padded
  omega

theorem pad_bound (n : Nat) : n ≤ padded n ∧ padded n < n + 8 := by
  unfold padded
  omega

/-- What the padding leaves, with its size. -/
theorem pad_good (inv : Inv h ref) (room : Room h.pool h.size (padded h.length) alloc) (provides : Provides alloc) :
    (Aborts h.pool h.size (padded h.length) alloc ∧ pad h alloc = some .aborted) ∨
      ¬ Aborts h.pool h.size (padded h.length) alloc ∧ ∃ h', pad h alloc = some (.returned h') ∧ Inv h' (cutTo ref (padded ref.length)) ∧
        h'.pool = h.pool ∧ (h'.size = if padded h.length ≤ h.size then h.size else grownSize h.size (padded h.length)) := by
  unfold pad
  by_cases some_ : 0 < h.length % 8
  · have total := pad_total some_
    have few : h.length % 8 < 8 := Nat.mod_lt _ (by decide)
    have need : toSize ((8 : Int) - (h.length % 8 : Nat) + h.length) = padded h.length := by
      rw [← toSize_small room.1,← total]
      congr 1
      omega
    rw [if_pos some_]
    by_cases aborts : Aborts h.pool h.size (padded h.length) alloc
    · refine .inl ⟨aborts,?_⟩
      dsimp only
      rw [need,ensure_aborts aborts]
      rfl
    · obtain ⟨h₁,made,base₁,length,enough,pool,size⟩ := ensure_room inv.toBase room aborts provides
      obtain ⟨h₂,made',inv',size',pool'⟩ := settle base₁ enough
      have whole : toSize ((h₁.length : Int) + (8 - (h.length % 8 : Nat))) = padded h.length := by
        rw [length,← toSize_small room.1,← total]
        congr 1
        omega
      rw [← inv.length]
      refine .inr ⟨aborts,h₂,?_,inv',pool'.trans pool,size'.trans size⟩
      dsimp only
      rw [need,made]
      simp only [Option.bind_eq_bind,Option.bind_some,Outcome.andThen,whole,made']
  · rw [if_neg some_,padded_none some_]
    refine .inr ⟨fun aborts => Nat.not_lt.mpr inv.room aborts.1,h,rfl,?_,rfl,(if_pos inv.room).symm⟩
    rw [← inv.length,padded_none some_,inv.length,cutTo_self]
    exact inv

theorem pad_bad (base : Base h ref) (noRoom : ¬ Room h.pool h.size (padded h.length) alloc) (provides : Provides alloc) : pad h alloc = none := by
  have half := base.half
  have bound := pad_bound h.length
  have some_ : 0 < h.length % 8 := by
    by_contra none_
    rw [padded_none none_] at noRoom
    exact noRoom ⟨by omega,.inl base.room⟩
  have total := pad_total some_
  have need : toSize ((8 : Int) - (h.length % 8 : Nat) + h.length) = toSize (padded h.length) := by
    rw [← total]
    congr 1
    omega
  unfold pad
  rw [if_pos some_]
  refine without_room base need (by omega) noRoom provides fun h₁ short _ length => ?_
  have whole : toSize ((h₁.length : Int) + (8 - (h.length % 8 : Nat))) = padded h.length := by
    rw [length,← toSize_small (n := padded h.length) (by omega),← total]
    congr 1
    omega
  have outside : put { h₁ with length := toSize ((h₁.length : Int) + (8 - (h.length % 8 : Nat))) }
      (toSize ((h₁.length : Int) + (8 - (h.length % 8 : Nat)))) [0] = none :=
    put_outside (by rw [whole]; exact Nat.lt_succ_of_le short)
  dsimp only
  rw [outside]
  rfl

theorem appendAlloc_good (inv : Inv h ref) {filled : List UInt8} {alloc' : Alloc}
    (clean : Clean h (.appendAlloc filled alloc alloc')) (provides : Provides alloc) (provides' : Provides alloc') :
    Good (acBufferAppendAlloc h filled alloc alloc') (cutTo ref (padded ref.length) ++ filled.map some) := by
  unfold acBufferAppendAlloc
  rcases pad_good inv clean.1 provides with ⟨-,stops⟩ | ⟨goes,h₁,made,inv₁,pool,size⟩
  · rw [stops]
    exact .inl rfl
  · have length : h₁.length = padded h.length := by rw [inv₁.length,cutTo_length,inv.length]
    have room := clean.2.resolve_left goes
    rw [← pool,← size,← length] at room
    rw [made]
    exact ualloc_good inv₁.toBase room provides'

theorem appendAlloc_bad (inv : Inv h ref) {filled : List UInt8} {alloc' : Alloc} (bound : (filled.length : Int) < 2 ^ 64)
    (unclean : ¬ Clean h (.appendAlloc filled alloc alloc')) (provides : Provides alloc) (provides' : Provides alloc') :
    acBufferAppendAlloc h filled alloc alloc' = none := by
  unfold acBufferAppendAlloc
  by_cases room : Room h.pool h.size (padded h.length) alloc
  · rcases pad_good inv room provides with ⟨aborts,-⟩ | ⟨-,h₁,made,inv₁,pool,size⟩
    · exact absurd ⟨room,.inl aborts⟩ unclean
    · have length : h₁.length = padded h.length := by rw [inv₁.length,cutTo_length,inv.length]
      rw [made]
      refine ualloc_bad inv₁.toBase bound (fun room' => unclean ⟨room,.inr ?_⟩) provides'
      rw [length,pool,size] at room'
      exact room'
  · rw [pad_bad inv.toBase room provides]
    rfl

/-! ### Bytes behind the others -/

theorem append_good (base : Base h ref) {data : List UInt8} (room : Room h.pool h.size (h.length + data.length) alloc)
    (provides : Provides alloc) : Good (acBufferAppend h data alloc) (ref ++ data.map some) := by
  refine with_room base rfl room provides fun _ h₁ base₁ length enough _ _ => ?_
  have whole : toSize ((h₁.length : Int) + data.length) = h₁.length + data.length :=
    toSize_small (n := h₁.length + data.length) (by have half := base₁.half; omega)
  obtain ⟨h₂,h₃,h₄,put₂,length₂,-,-,put₄,-,inv⟩ := behind_terminated base₁ (by rwa [length] : h₁.length + data.length ≤ h₁.size)
  refine .inr ⟨h₄,?_,inv⟩
  simp only [put₂,length₂,whole,put₄,Option.bind_eq_bind,Option.bind_some]

/-- Where the allocation is too short, the bytes or their terminator go outside. -/
theorem behind_outside (short : (cells h).length ≤ h.length + xs.length) {h₁ : AcBuffer} (made : put h h.length xs = some h₁) (length : Nat) :
    put { h₁ with length := length } (h.length + xs.length) [0] = none := by
  have same : cells { h₁ with length := length } = cells h₁ := rfl
  refine put_outside ?_
  rw [same,(put_cells made).1]
  exact Nat.lt_succ_of_le short

theorem append_bad (base : Base h ref) {data : List UInt8} (bound : (data.length : Int) < 2 ^ 64)
    (noRoom : ¬ Room h.pool h.size (h.length + data.length) alloc) (provides : Provides alloc) : acBufferAppend h data alloc = none := by
  refine without_room base rfl (by have room := base.room; omega) noRoom provides fun h₁ short small length => ?_
  cases made : put h₁ h₁.length data with
  | none => rfl
  | some h₂ =>
    have inside : h₁.length + data.length ≤ (cells h₁).length := by
      by_contra outside
      rw [put_outside (Nat.not_le.mp outside)] at made
      cases made
    have length₂ := (put_cells made).2
    have whole : toSize ((h₂.length : Int) + data.length) = h₁.length + data.length := by
      rw [length₂]
      exact toSize_small (n := h₁.length + data.length) (by omega)
    have outside := behind_outside (by rw [length]; exact short) made (h₁.length + data.length)
    simp only [Option.bind_eq_bind,Option.bind_some,whole,outside]
    rfl

theorem appendc_good (base : Base h ref) {ch : UInt8} (room : Room h.pool h.size (h.length + 1) alloc) (provides : Provides alloc) :
    Good (acBufferAppendc h ch alloc) (ref ++ [some ch]) := by
  have need : toSize ((h.length : Int) + 1) = toSize ((h.length + 1 : Nat) : Int) := rfl
  refine with_room base need room provides fun _ h₁ base₁ length enough _ _ => ?_
  have whole : toSize ((h₁.length : Int) + 1) = h₁.length + 1 := toSize_small (n := h₁.length + 1) (by have half := base₁.half; omega)
  obtain ⟨h₂,h₃,h₄,put₂,length₂,put₃,length₃,-,isLast,inv⟩ :=
    behind_terminated base₁ (by rw [length]; exact enough : h₁.length + [ch].length ≤ h₁.size)
  refine .inr ⟨h₄,?_,inv⟩
  simp only [List.length_singleton] at put₃ isLast
  simp only [put₂,put₃,length₃,whole,Option.bind_eq_bind,Option.bind_some,isLast]

theorem appendc_bad (base : Base h ref) {ch : UInt8} (noRoom : ¬ Room h.pool h.size (h.length + 1) alloc) (provides : Provides alloc) :
    acBufferAppendc h ch alloc = none := by
  have need : toSize ((h.length : Int) + 1) = toSize ((h.length + 1 : Nat) : Int) := rfl
  refine without_room base need (by have half := base.half; omega) noRoom provides fun h₁ short small length => ?_
  cases made : put h₁ h₁.length [ch] with
  | none =>
    simp only [made]
    rfl
  | some h₂ =>
    have outside : put h₂ (h₁.length + 1) [0] = none := behind_outside (by rw [length]; exact short) made h₂.length
    simp only [made,Option.bind_eq_bind,Option.bind_some,outside]
    rfl

theorem appendn_good (base : Base h ref) {ch : UInt8} {n : Int} (positive : 0 < n) (room : Room h.pool h.size (h.length + n.toNat) alloc)
    (provides : Provides alloc) : Good (acBufferAppendn h ch n alloc) (ref ++ List.replicate n.toNat (some ch)) := by
  have need : toSize ((h.length : Int) + n) = toSize ((h.length + n.toNat : Nat) : Int) := by
    congr 1
    omega
  unfold acBufferAppendn
  rw [if_neg (by omega)]
  refine with_room base need room provides fun _ h₁ base₁ length enough _ _ => ?_
  have whole : toSize ((h₁.length : Int) + n) = h₁.length + n.toNat := by
    rw [← toSize_small (n := h₁.length + n.toNat) (by have half := base₁.half; omega)]
    congr 1
    omega
  have size : (List.replicate n.toNat ch).length = n.toNat := List.length_replicate
  obtain ⟨h₂,h₃,h₄,put₂,length₂,put₃,length₃,-,isLast,inv⟩ :=
    behind_terminated base₁ (by rw [size,length]; exact enough : h₁.length + (List.replicate n.toNat ch).length ≤ h₁.size)
  rw [List.map_replicate] at inv
  rw [size] at put₃ isLast
  refine .inr ⟨h₄,?_,inv⟩
  simp only [put₂,put₃,length₃,whole,Option.bind_eq_bind,Option.bind_some,isLast]

theorem appendn_bad (base : Base h ref) {ch : UInt8} {n : Int} (positive : 0 < n) (bound : n < 2 ^ 63)
    (noRoom : ¬ Room h.pool h.size (h.length + n.toNat) alloc) (provides : Provides alloc) : acBufferAppendn h ch n alloc = none := by
  have need : toSize ((h.length : Int) + n) = toSize ((h.length + n.toNat : Nat) : Int) := by
    congr 1
    omega
  have size : (List.replicate n.toNat ch).length = n.toNat := List.length_replicate
  unfold acBufferAppendn
  rw [if_neg (by omega)]
  refine without_room base need (by have half := base.half; omega) noRoom provides fun h₁ short small length => ?_
  cases made : put h₁ h₁.length (List.replicate n.toNat ch) with
  | none =>
    simp only [made]
    rfl
  | some h₂ =>
    have outside : put h₂ (h₁.length + (List.replicate n.toNat ch).length) [0] = none :=
      behind_outside (by rw [length,size]; exact short) made h₂.length
    rw [size] at outside
    simp only [made,Option.bind_eq_bind,Option.bind_some,outside]
    rfl

/-! ### Setting -/

theorem Base.emptied (base : Base h ref) : Base { h with length := 0 } [] :=
  ⟨rfl,nofun,Nat.zero_le _,base.allocation,base.header,base.small⟩

/-- Bytes are written over the old ones, from a buffer with room for them. -/
theorem set_written (base : Base { h with length := 0 } []) {data : List UInt8} (room : data.length ≤ h.size) :
    ∃ h₁ h₂, put h 0 data = some h₁ ∧ put { h₁ with length := data.length } data.length [0] = some h₂ ∧ Inv h₂ (data.map some) := by
  obtain ⟨h₁,h₂,h₃,put₁,length₁,-,-,put₃,-,inv⟩ := behind_terminated base (by omega : 0 + data.length ≤ h.size)
  dsimp only at put₁ put₃
  rw [put_length h] at put₁
  obtain ⟨g,made,rfl⟩ := Option.map_eq_some_iff.mp put₁
  rw [Nat.zero_add] at put₃
  exact ⟨g,h₃,made,put₃,inv⟩

theorem set_good (base : Base h ref) {data : List UInt8} (room : RoomToSet h.pool h.size data.length alloc) (provides : Provides alloc) :
    Good (acBufferSet h data alloc) (data.map some) := by
  unfold acBufferSet
  by_cases enough : data.length ≤ h.size
  · obtain ⟨h₁,h₂,put₁,put₂,inv⟩ := set_written base.emptied enough
    rw [if_neg (Nat.not_lt.mpr enough)]
    refine .inr ⟨h₂,?_,inv⟩
    simp only [Option.bind_eq_bind,Option.bind_some,Outcome.andThen,put₁,put₂]
  · rw [if_pos (Nat.not_le.mp enough),acBufferAlloc]
    rcases room.resolve_left enough with ⟨-,pool,failed⟩ | ⟨fits,succeeds⟩
    · simp only [failed,pool,if_true]
      exact .inl rfl
    · obtain ⟨memory,got⟩ := Option.ne_none_iff_exists'.mp succeeds
      obtain ⟨asked,few⟩ := provides _ _ got
      rw [request_fits fits] at asked few
      have size := grown_fits fits
      have base' : Base ⟨.block memory,0,grownSize h.size data.length,h.pool⟩ [] :=
        ⟨rfl,nofun,Nat.zero_le _,by rw [size]; exact asked,nofun,by rw [← asked] at few; exact few⟩
      have larger : data.length ≤ grownSize h.size data.length := by omega
      obtain ⟨h₁,h₂,put₁,put₂,inv⟩ := set_written (h := ⟨.block memory,h.length,grownSize h.size data.length,h.pool⟩) base' larger
      refine .inr ⟨h₂,?_,inv⟩
      simp only [got,Option.bind_eq_bind,Option.bind_some,Outcome.andThen,put₁,put₂]

theorem set_bad (base : Base h ref) {data : List UInt8} (bound : (data.length : Int) < 2 ^ 64)
    (noRoom : ¬ RoomToSet h.pool h.size data.length alloc) (provides : Provides alloc) : acBufferSet h data alloc = none := by
  have enough : ¬ data.length ≤ h.size := fun enough => noRoom (.inl enough)
  unfold acBufferSet
  rw [if_pos (Nat.not_le.mp enough),acBufferAlloc]
  cases got : alloc (toSize (grownSize h.size data.length + 1)) with
  | none =>
    cases pool : h.pool with
    | true => exact absurd (.inr (.inl ⟨Nat.not_le.mp enough,pool,got⟩)) noRoom
    | false => rfl
  | some memory =>
    have wraps : ¬ Fits h.size data.length := by
      intro fits
      refine noRoom (.inr (.inr ⟨fits,?_⟩))
      rw [got]
      exact Option.some_ne_none _
    have few := request_wraps bound base.half.2 wraps
    rw [← (provides _ _ got).1] at few
    simp only [Option.bind_eq_bind,Option.bind_some,Outcome.andThen]
    cases made : put { h with data := .block memory, size := grownSize h.size data.length } 0 data with
    | none => rfl
    | some h₁ =>
      have same : cells { h₁ with length := data.length } = cells h₁ := rfl
      have outside : put { h₁ with length := data.length } data.length [0] = none := by
        refine put_outside ?_
        rw [same,(put_cells made).1]
        exact Nat.lt_succ_of_le few
      simp only [Option.bind_some,outside]
      rfl

/-! ### Shortening -/

theorem clear_good (base : Base h ref) : Good (acBufferClear h) [] := by
  obtain ⟨h₁,made,inv,-,-⟩ := settle base (Nat.zero_le h.size)
  have nothing : cutTo ref 0 = [] := by
    rw [cutTo,List.take_zero,Nat.zero_sub,List.replicate_zero]
    rfl
  rw [nothing] at inv
  refine .inr ⟨h₁,?_,inv⟩
  rw [acBufferClear,made]
  rfl

theorem shrinkBy_good (base : Base h ref) (length : Nat) : Good (acBufferShrinkBy h length) (ref.take (ref.length - length)) := by
  have shorter : (if h.length > length then h.length - length else 0) = ref.length - length := by
    rw [base.length]
    split <;> omega
  have fits : ref.length - length ≤ h.size := by have room := base.room; rw [base.length] at room; omega
  obtain ⟨h₁,made,inv,-,-⟩ := settle base fits
  have kept : cutTo ref (ref.length - length) = ref.take (ref.length - length) := by
    rw [cutTo,Nat.sub_eq_zero_of_le (Nat.sub_le _ _),List.replicate_zero,List.append_nil]
  rw [kept] at inv
  refine .inr ⟨h₁,?_,inv⟩
  unfold acBufferShrinkBy
  simp only [shorter,made,Option.bind_eq_bind,Option.bind_some]

/-! ## Runs -/

theorem take_strlen (s : Text) : s.take (strlen s) = s.takeWhile (· ≠ 0) := (List.prefix_iff_eq_take.mp (List.takeWhile_prefix _)).symm

theorem strlen_take (s : Text) : (s.take (strlen s)).length = strlen s := by
  rw [take_strlen]
  rfl

/-- A clean step leaves the bytes. -/
theorem step_good (inv : Inv h ref) {op : Op} (legal : Legal op) (clean : Clean h op) : Good (step h op) (after ref op) := by
  have base := inv.toBase
  cases op with
  | append data alloc => exact append_good base clean legal.2
  | appends s alloc =>
    show Good (acBufferAppend h (s.take (strlen s)) alloc) (ref ++ (s.takeWhile (· ≠ 0)).map some)
    rw [← take_strlen]
    refine append_good base ?_ legal.2
    rw [strlen_take]
    exact clean
  | appendc ch alloc => exact appendc_good base clean legal
  | appendn ch n alloc =>
    by_cases none_ : n ≤ 0
    · have nothing : List.replicate n.toNat (some ch) = [] := by rw [Int.toNat_of_nonpos none_,List.replicate_zero]
      refine .inr ⟨h,if_pos none_,?_⟩
      show Inv h (ref ++ List.replicate n.toNat (some ch))
      rw [nothing,List.append_nil]
      exact inv
    · exact appendn_good base (Int.not_le.mp none_) (clean.resolve_left none_) legal.2
  | appendAlloc filled alloc alloc' => exact appendAlloc_good inv clean legal.2.1 legal.2.2
  | appendUalloc filled alloc => exact ualloc_good base clean legal.2
  | set data alloc => exact set_good base clean legal.2
  | setn ch n alloc =>
    have cleared := clean
    simp only [Clean] at cleared
    by_cases none_ : n ≤ 0
    · rw [if_pos none_] at cleared
      have nothing : List.replicate n.toNat (some ch) = [] := by rw [Int.toNat_of_nonpos none_,List.replicate_zero]
      refine .inr ⟨{ h with length := 0 },if_pos none_,?_⟩
      show Inv { h with length := 0 } (List.replicate n.toNat (some ch))
      rw [nothing]
      exact ⟨base.emptied,cleared⟩
    · rw [if_neg none_] at cleared
      refine appendn_good base.emptied (Int.not_le.mp none_) ?_ legal.2
      rw [Nat.zero_add]
      exact cleared
  | resize length alloc => exact resize_good base clean legal.2
  | shrinkBy length => exact shrinkBy_good base length
  | clear => exact clear_good base

/-- Any other step is undefined, or a `setn` of no bytes that leaves a byte where the terminator
    is to be. -/
theorem step_bad (inv : Inv h ref) {op : Op} (legal : Legal op) (unclean : ¬ Clean h op) :
    step h op = none ∨ ∃ h', step h op = some (.returned h') ∧ ¬ Shows h' (after ref op) := by
  have base := inv.toBase
  cases op with
  | append data alloc => exact .inl (append_bad base legal.1 unclean legal.2)
  | appends s alloc =>
    have bound : ((s.take (strlen s)).length : Int) < 2 ^ 64 := by
      have whole := legal.1
      have shorter := List.length_take_le' (strlen s) s
      omega
    refine .inl (append_bad base bound ?_ legal.2)
    rw [strlen_take]
    exact unclean
  | appendc ch alloc => exact .inl (appendc_bad base unclean legal)
  | appendn ch n alloc =>
    have positive : 0 < n := Int.not_le.mp fun none_ => unclean (.inl none_)
    exact .inl (appendn_bad base positive legal.1 (fun room => unclean (.inr room)) legal.2)
  | appendAlloc filled alloc alloc' => exact .inl (appendAlloc_bad inv legal.1 unclean legal.2.1 legal.2.2)
  | appendUalloc filled alloc => exact .inl (ualloc_bad base legal.1 unclean legal.2)
  | set data alloc => exact .inl (set_bad base legal.1 unclean legal.2)
  | setn ch n alloc =>
    simp only [Clean] at unclean
    by_cases none_ : n ≤ 0
    · rw [if_pos none_] at unclean
      refine .inr ⟨{ h with length := 0 },if_pos none_,fun shows => unclean ?_⟩
      exact shows.terminated
    · rw [if_neg none_] at unclean
      refine .inl (appendn_bad base.emptied (Int.not_le.mp none_) legal.1 (fun room => unclean ?_) legal.2)
      rw [Nat.zero_add] at room
      exact room
  | resize length alloc => exact .inl (resize_bad base legal.1 unclean legal.2)
  | shrinkBy length => exact absurd trivial unclean
  | clear => exact absurd trivial unclean

theorem Keeps.shows {ops : List Op} (keeps : Keeps h ref ops) : Shows h ref := by
  cases ops with
  | nil => exact keeps
  | cons op ops => exact keeps.1

theorem keeps_iff {ops : List Op} (inv : Inv h ref) (legal : ∀ op ∈ ops, Legal op) : Keeps h ref ops ↔ AllClean h ops := by
  induction ops generalizing h ref with
  | nil => exact iff_of_true inv.shows trivial
  | cons op ops ih =>
    have first := legal op List.mem_cons_self
    have rest : ∀ op ∈ ops, Legal op := fun o inside => legal o (List.mem_cons_of_mem _ inside)
    by_cases clean : Clean h op
    · rcases step_good inv first clean with stops | ⟨h',made,inv'⟩
      · refine iff_of_true ⟨inv.shows,.inl stops⟩ ⟨clean,fun h' made => ?_⟩
        rw [stops] at made
        cases made
      · have later := ih inv' rest
        constructor
        · rintro ⟨-,stops | ⟨h'',made',keeps⟩⟩
          · rw [made] at stops
            cases stops
          · cases made.symm.trans made'
            refine ⟨clean,fun h'' made' => ?_⟩
            cases made.symm.trans made'
            exact later.mp keeps
        · rintro ⟨-,all⟩
          exact ⟨inv.shows,.inr ⟨h',made,later.mpr (all h' made)⟩⟩
    · refine iff_of_false ?_ fun all => clean all.1
      rintro ⟨-,stops | ⟨h',made,keeps⟩⟩
      · rcases step_bad inv first clean with stuck | ⟨h',made,-⟩
        · rw [stuck] at stops
          cases stops
        · rw [made] at stops
          cases stops
      · rcases step_bad inv first clean with stuck | ⟨h'',made',lost⟩
        · rw [stuck] at made
          cases made
        · cases made.symm.trans made'
          exact lost keeps.shows

end
/-! ## From the start -/

/-- A new buffer of the heap or of a pool. -/
def start (pool : Bool) (initialSize : Nat) (header : Bool) (alloc : Alloc) : Option Outcome :=
  if pool then acBufferPoolInit initialSize header alloc else acBufferInit initialSize header alloc

/-- There is memory for a new buffer and a byte more than its size, or its pool aborts. -/
def CleanStart (pool : Bool) (initialSize : Nat) (header : Bool) (alloc : Alloc) : Prop :=
  if pool then header = false ∨ alloc (toSize (initialSize + 1)) = none ∨ (initialSize : Int) + 1 < 2 ^ 64
  else header = true ∧ (initialSize = 0 ∨ (initialSize : Int) + 1 < 2 ^ 64 ∧ alloc (toSize (initialSize + 1)) ≠ none)

/-- What a buffer is from its start through all steps. -/
def KeepsFrom (made : Option Outcome) (ops : List Op) : Prop := made = some .aborted ∨ ∃ h, made = some (.returned h) ∧ Keeps h [] ops

section
variable {initialSize : Nat} {header : Bool} {alloc : Alloc}

theorem started (pool : Bool) {bytes : List UInt8} (length : bytes.length = initialSize + 1) (half : (bytes.length : Int) < 2 ^ 63) :
    ∃ data, store bytes 0 [0] = some data ∧ Inv ⟨.block data,0,initialSize,pool⟩ [] := by
  have inside : 0 + [(0 : UInt8)].length ≤ bytes.length := by rw [List.length_singleton]; omega
  obtain ⟨data,stored,size,get⟩ := store_spec inside
  refine ⟨data,stored,⟨rfl,nofun,Nat.zero_le _,size.trans length,nofun,?_⟩,?_⟩
  · show (data.length : Int) < 2 ^ 63
    rw [size]
    exact half
  · show data[0]? = some 0
    rw [get]
    rfl

theorem start_good {pool : Bool} (clean : CleanStart pool initialSize header alloc) (provides : Provides alloc) :
    Good (start pool initialSize header alloc) [] := by
  cases pool with
  | true =>
    show Good (acBufferPoolInit initialSize header alloc) []
    cases header with
    | false => exact .inl rfl
    | true =>
      cases got : alloc (toSize (initialSize + 1)) with
      | none => exact .inl (by simp only [acBufferPoolInit,got]; rfl)
      | some bytes =>
        have small : (initialSize : Int) + 1 < 2 ^ 64 := by
          rcases clean with no | failed | small
          · cases no
          · rw [got] at failed
            cases failed
          · exact small
        obtain ⟨length,half⟩ := provides _ _ got
        have whole : toSize ((initialSize : Int) + 1) = initialSize + 1 := toSize_small (n := initialSize + 1) (by omega)
        rw [← length] at half
        rw [whole] at length
        obtain ⟨data,stored,inv⟩ := started true length half
        refine .inr ⟨_,?_,inv⟩
        have wrote : put ⟨.block bytes,0,0,true⟩ 0 [0] = some ⟨.block data,0,0,true⟩ := by
          rw [put,show cells ⟨.block bytes,0,0,true⟩ = bytes from rfl,stored]
          rfl
        simp only [acBufferPoolInit,got,wrote,Option.bind_eq_bind,Option.bind_some]
        rfl
  | false =>
    show Good (acBufferInit initialSize header alloc) []
    obtain ⟨rfl,room⟩ := clean
    by_cases zero : initialSize = 0
    · subst zero
      exact .inr ⟨⟨.header,0,0,false⟩,rfl,⟨⟨rfl,nofun,Nat.le_refl _,rfl,fun _ => ⟨rfl,rfl⟩,by decide⟩,rfl⟩⟩
    · obtain ⟨small,succeeds⟩ := room.resolve_left zero
      obtain ⟨bytes,got⟩ := Option.ne_none_iff_exists'.mp succeeds
      obtain ⟨length,half⟩ := provides _ _ got
      have whole : toSize ((initialSize : Int) + 1) = initialSize + 1 := toSize_small (n := initialSize + 1) (by omega)
      rw [← length] at half
      rw [whole] at length
      obtain ⟨data,stored,inv⟩ := started false length half
      refine .inr ⟨_,?_,inv⟩
      have wrote : put ⟨.block bytes,0,initialSize,false⟩ 0 [0] = some ⟨.block data,0,initialSize,false⟩ := by
        rw [put,show cells ⟨.block bytes,0,initialSize,false⟩ = bytes from rfl,stored]
        rfl
      unfold acBufferInit
      rw [if_neg (by decide),if_pos zero,got]
      simp only [Option.map_some,Option.bind_eq_bind,Option.bind_some,wrote]

/-- For the largest size the allocation of one byte more has no bytes. -/
theorem start_bad {pool : Bool} (int : (initialSize : Int) < 2 ^ 64) (unclean : ¬ CleanStart pool initialSize header alloc)
    (provides : Provides alloc) : start pool initialSize header alloc = none := by
  have empty {bytes : List UInt8} (large : ¬ (initialSize : Int) + 1 < 2 ^ 64) (got : alloc (toSize (initialSize + 1)) = some bytes) :
      bytes = [] := by
    have length := (provides _ _ got).1
    refine List.eq_nil_of_length_eq_zero ?_
    rw [length]
    unfold toSize
    omega
  cases pool with
  | true =>
    have unclean' : ¬ (header = false ∨ alloc (toSize (initialSize + 1)) = none ∨ (initialSize : Int) + 1 < 2 ^ 64) := unclean
    simp only [not_or] at unclean'
    obtain ⟨some_,succeeds,large⟩ := unclean'
    obtain ⟨bytes,got⟩ := Option.ne_none_iff_exists'.mp succeeds
    have isHeader : header = true := by simpa using some_
    show acBufferPoolInit initialSize header alloc = none
    simp only [acBufferPoolInit,isHeader,got,empty large got]
    rfl
  | false =>
    have unclean' : ¬ (header = true ∧ (initialSize = 0 ∨ (initialSize : Int) + 1 < 2 ^ 64 ∧ alloc (toSize (initialSize + 1)) ≠ none)) := unclean
    show acBufferInit initialSize header alloc = none
    cases header with
    | false => rfl
    | true =>
      have positive : initialSize ≠ 0 := fun zero => unclean' ⟨rfl,.inl zero⟩
      unfold acBufferInit
      rw [if_neg (by decide),if_pos positive]
      cases got : alloc (toSize (initialSize + 1)) with
      | none => rfl
      | some bytes =>
        have large : ¬ (initialSize : Int) + 1 < 2 ^ 64 := by
          intro small
          refine unclean' ⟨rfl,.inr ⟨small,?_⟩⟩
          rw [got]
          exact Option.some_ne_none _
        rw [empty large got]
        rfl

/-- A buffer holds what was put in it, with its terminator and in its allocation, through a whole
    run if and only if it starts and grows within memory, no length wraps around, it does not
    grow in a pool, and no `setn` of no bytes finds a first byte that is not NUL. -/
theorem buffer_keeps_iff (pool : Bool) (header : Bool) (ops : List Op) (int : (initialSize : Int) < 2 ^ 64) (provides : Provides alloc)
    (legal : ∀ op ∈ ops, Legal op) :
    KeepsFrom (start pool initialSize header alloc) ops ↔ CleanStart pool initialSize header alloc ∧
      ∀ h, start pool initialSize header alloc = some (.returned h) → AllClean h ops := by
  by_cases clean : CleanStart pool initialSize header alloc
  · rw [and_iff_right clean]
    rcases start_good clean provides with stops | ⟨h,made,inv⟩
    · refine iff_of_true (.inl stops) fun h made => ?_
      rw [stops] at made
      cases made
    · have whole := keeps_iff inv legal
      constructor
      · rintro (stops | ⟨h',made',keeps⟩) h'' made''
        · rw [made] at stops
          cases stops
        · cases made.symm.trans made'
          cases made.symm.trans made''
          exact whole.mp keeps
      · intro all
        exact .inr ⟨h,made,whole.mpr (all h made)⟩
  · have stuck := start_bad int clean provides
    refine iff_of_false ?_ fun both => clean both.1
    rintro (stops | ⟨h,made,-⟩)
    · rw [stuck] at stops
      cases stops
    · rw [stuck] at made
      cases made

end

/-! ### Examples -/

/-- Memory of ones for one size. -/
def supply (n : Nat) : Alloc := fun size => if size = n then some (List.replicate n 1) else none

theorem supply_provides {n : Nat} (small : (n : Int) < 2 ^ 63) : Provides (supply n) := by
  intro size bytes got
  unfold supply at got
  split at got
  case isTrue same =>
    cases got
    subst same
    exact ⟨List.length_replicate,small⟩
  case isFalse => cases got

/-- A buffer of the heap with no size gets two bytes and grows. -/
theorem buffer_keeps_two : KeepsFrom (start false 0 true (supply 1)) [.appendc 97 (supply 52),.resize 2 (supply 1),.clear] := by
  refine (buffer_keeps_iff false true [.appendc 97 (supply 52),.resize 2 (supply 1),.clear] (by decide)
    (supply_provides (by decide)) ?_).mpr ⟨⟨rfl,.inl rfl⟩,?_⟩
  · intro op inside
    rcases List.mem_cons.mp inside with rfl | inside
    · exact supply_provides (by decide)
    · rcases List.mem_cons.mp inside with rfl | inside
      · exact ⟨by decide,supply_provides (by decide)⟩
      · obtain rfl := List.mem_singleton.mp inside
        trivial
  · intro h made
    cases made
    refine ⟨⟨by decide,.inr (.inr ⟨rfl,by unfold Fits; decide,by decide⟩)⟩,fun h' made => ?_⟩
    have isNext : step ⟨.header,0,0,false⟩ (.appendc 97 (supply 52)) =
        some (.returned ⟨.block (97 :: 0 :: List.replicate 50 1),1,51,false⟩) := by decide
    cases isNext.symm.trans made
    exact ⟨⟨by decide,.inl (by decide)⟩,fun _ _ => ⟨trivial,fun _ _ => trivial⟩⟩

/-- A pool buffer of one byte grows, for which 53 bytes are copied from two. -/
theorem pool_overread : ¬ ∀ ops, (∀ op ∈ ops, Legal op) → KeepsFrom (start true 1 true (supply 2)) ops := by
  intro all
  have legal : ∀ op ∈ [Op.append [97,98] (supply 53)], Legal op := by
    intro op inside
    obtain rfl := List.mem_singleton.mp inside
    exact ⟨by decide,supply_provides (by decide)⟩
  have keeps := all [Op.append [97,98] (supply 53)] legal
  have isStart : start true 1 true (supply 2) = some (.returned ⟨.block [0,1],0,1,true⟩) := by decide
  have stuck : step ⟨.block [0,1],0,1,true⟩ (.append [97,98] (supply 53)) = none := by decide
  rcases keeps with stops | ⟨h,made,run⟩
  · rw [isStart] at stops
    cases stops
  · cases isStart.symm.trans made
    obtain ⟨-,stops | ⟨h',made',-⟩⟩ := run
    · rw [stuck] at stops
      cases stops
    · rw [stuck] at made'
      cases made'

end AnotherC.Buffer
