import AnotherC.Lib.Memory
import Mathlib.Data.List.Forall2

/-!
# Assembling an HTTP message: the callbacks of `ac_http_parser`

The parser hands out a header name, a header value or the body in fragments. A
name or a value that comes in one fragment is referenced where it lies, a longer
one is gathered in the pool (`set_buf`); `on_headers_complete` ends every name
and value with a NUL, in place. Two things go wrong: the last header is only kept
if its value is not empty, and the fragment of an empty value points at what
follows the header line, so that the NUL lands on the next name. Without them the
message is what was sent, however it is cut (`message_assembled`).
-/
namespace AnotherC.HttpParser
open AnotherC.Lib
open AnotherC.Lib.Memory (Memory read write)
set_option linter.unusedVariables false

/-- `uv_buf_t`. -/
structure Buf where
  base : Nat
  len : Nat
deriving Repr, DecidableEq

/-- The memory, and where the pool takes its next block. -/
structure Store where
  byte : Memory
  next : Nat

/-- The fields of `llhttp_t` that the callbacks read, and what
    `llhttp_should_keep_alive` says. -/
structure Parser where
  contentLength : Nat
  httpMajor : Nat
  httpMinor : Nat
  method : Nat
  statusCode : Nat
  flags : Nat
  keepAlive : Nat
deriving Repr, DecidableEq

/-- `ac_llhttp_ext_t` with its `ac_http_parser_t`. The headers are the list from
    `headers` to `tail`. -/
structure LlhttpExt where
  store : Store
  headers : List (Buf × Buf)
  body : Buf
  contentLength : Nat
  httpMajor : Nat
  httpMinor : Nat
  method : Nat
  statusCode : Nat
  keepAlive : Nat
  chunked : Bool
  headerKey : Buf
  headerValue : Buf
  lastWasValue : Bool
  bodyPtr : Nat
  bodyLen : Nat
  bodyTerminated : Bool
  checkpoint : Option Nat

/-- `F_CHUNKED`. -/
def fChunked : Nat := 8

/-! ## The callbacks -/

/-- `ac_pool_ualloc`. -/
def ualloc (st : Store) (n : Nat) : Nat × Store := (st.next,{ st with next := st.next + n })

def memcpy (st : Store) (dst source len : Nat) : Store := { st with byte := write st.byte dst (read st.byte source len) }

def poke (st : Store) (a : Nat) (b : UInt8) : Store := { st with byte := Function.update st.byte a b }

def saveCurrentHeader (lh : LlhttpExt) : LlhttpExt :=
  { lh with headers := lh.headers ++ [(lh.headerKey,lh.headerValue)] }

def setBuf (st : Store) (b : Buf) (source length : Nat) : Buf × Store :=
  if b.len > 0 then
    let (d,st) := ualloc st (b.len + length + 1)
    let st := memcpy st d b.base b.len
    let p := d + b.len
    let st := memcpy st p source length
    let st := poke st (p + length) 0
    (⟨d,b.len + length⟩,st)
  else (⟨source,length⟩,st)

/-- What `on_header_key` does before it takes the fragment. -/
def commit (lh : LlhttpExt) : LlhttpExt :=
  if lh.lastWasValue ∧ lh.headerKey.len > 0 then
    let lh := saveCurrentHeader lh
    { lh with headerKey := { lh.headerKey with len := 0 }, headerValue := { lh.headerValue with len := 0 } }
  else lh

def onHeaderKey (lh : LlhttpExt) (source length : Nat) : LlhttpExt :=
  let lh := commit lh
  let (key,store) := setBuf lh.store lh.headerKey source length
  { lh with
    store := store
    headerKey := key
    lastWasValue := false
    headerValue := { lh.headerValue with len := 0 } }

def onHeaderValue (lh : LlhttpExt) (source length : Nat) : LlhttpExt :=
  let (value,store) := setBuf lh.store lh.headerValue source length
  { lh with store := store, headerValue := value, lastWasValue := true }

/-- The loop of `on_headers_complete`. -/
def terminate (st : Store) : List (Buf × Buf) → Store
  | [] => st
  | head :: rest =>
    let st := poke st (head.1.base + head.1.len) 0
    let st := poke st (head.2.base + head.2.len) 0
    terminate st rest

def onHeadersComplete (lh : LlhttpExt) (parser : Parser) : LlhttpExt :=
  let lh := if lh.headerKey.len > 0 ∧ lh.headerValue.len > 0 then saveCurrentHeader lh else lh
  let store := terminate lh.store lh.headers
  let chunked := (parser.flags &&& fChunked) == 1
  { lh with
    store := store
    headerKey := { lh.headerKey with len := 0 }
    headerValue := { lh.headerValue with len := 0 }
    body := { lh.body with len := 0 }
    bodyLen := 0
    contentLength := parser.contentLength
    httpMajor := parser.httpMajor
    httpMinor := parser.httpMinor
    method := parser.method
    statusCode := parser.statusCode
    keepAlive := parser.keepAlive
    chunked := chunked
    checkpoint := if chunked then some store.next else lh.checkpoint }

def onBody (lh : LlhttpExt) (source length : Nat) : LlhttpExt :=
  if lh.body.len = 0 then
    if lh.contentLength > length then
      let (base,st) := ualloc lh.store (lh.contentLength + 1)
      let st := poke st (base + lh.contentLength) 0
      let st := memcpy st base source length
      { lh with
        store := st
        body := ⟨base,lh.contentLength⟩
        bodyPtr := base + length
        bodyLen := lh.contentLength - length
        bodyTerminated := true }
    else
      { lh with
        body := ⟨source,lh.contentLength⟩
        bodyTerminated := false
        bodyLen := 0 }
  else if length < lh.bodyLen then
    { lh with
      store := memcpy lh.store lh.bodyPtr source length
      bodyLen := lh.bodyLen - length
      bodyPtr := lh.bodyPtr + length }
  else
    { lh with
      store := if lh.bodyLen ≠ 0 then memcpy lh.store lh.bodyPtr source lh.bodyLen else lh.store
      bodyLen := 0 }

/-! ## Messages -/

/-- What one callback is handed: bytes, and where they are. -/
structure Fragment where
  addr : Nat
  bytes : List UInt8
deriving Repr, DecidableEq

structure Header where
  name : List Fragment
  value : List Fragment
deriving Repr, DecidableEq

structure Message where
  headers : List Header
  body : List Fragment
deriving Repr, DecidableEq

/-- The bytes sent. -/
def text (fragments : List Fragment) : List UInt8 := fragments.flatMap Fragment.bytes

def keys (lh : LlhttpExt) (fragments : List Fragment) : LlhttpExt :=
  fragments.foldl (fun lh f => onHeaderKey lh f.addr f.bytes.length) lh
def values (lh : LlhttpExt) (fragments : List Fragment) : LlhttpExt :=
  fragments.foldl (fun lh f => onHeaderValue lh f.addr f.bytes.length) lh
def bodies (lh : LlhttpExt) (fragments : List Fragment) : LlhttpExt :=
  fragments.foldl (fun lh f => onBody lh f.addr f.bytes.length) lh

/-- The callbacks of one header. -/
def header (lh : LlhttpExt) (h : Header) : LlhttpExt := values (keys lh h.name) h.value

/-- The callbacks up to `on_headers_complete`. -/
def head (lh : LlhttpExt) (parser : Parser) (msg : Message) : LlhttpExt :=
  onHeadersComplete (msg.headers.foldl header lh) parser

/-- What a buffer holds. -/
def contents (lh : LlhttpExt) (b : Buf) : List UInt8 := read lh.store.byte b.base b.len

/-- The headers are those sent once they are complete, and the body is the one
    sent after its last fragment. -/
def Assembled (lh : LlhttpExt) (parser : Parser) (msg : Message) : Prop :=
  let complete := head lh parser msg
  let done := bodies complete msg.body
  (complete.headers.map fun h => (contents complete h.1,contents complete h.2)) =
      (msg.headers.map fun h => (text h.name,text h.value)) ∧
    contents done done.body = text msg.body

/-- A name or a body has no empty fragment, and an empty value is one empty
    fragment. -/
structure WellFormed (msg : Message) : Prop where
  headers : msg.headers ≠ []
  name : ∀ h ∈ msg.headers, h.name ≠ [] ∧ ∀ f ∈ h.name, f.bytes ≠ []
  value : ∀ h ∈ msg.headers, (∃ f, h.value = [f] ∧ f.bytes = []) ∨ (h.value ≠ [] ∧ ∀ f ∈ h.value, f.bytes ≠ [])
  body : ∀ f ∈ msg.body, f.bytes ≠ []

/-- All fragments. -/
def fragments (msg : Message) : List Fragment := (msg.headers.flatMap fun h => h.name ++ h.value) ++ msg.body

/-- The fragments are in memory that the pool does not use, with a byte after
    each. The byte after a whole name or a whole value, a colon or the end of the
    line in the message, is in no fragment. -/
structure InMemory (st : Store) (msg : Message) : Prop where
  holds : ∀ f ∈ fragments msg, read st.byte f.addr f.bytes.length = f.bytes
  outside : ∀ f ∈ fragments msg, f.addr + f.bytes.length < st.next
  separated : ∀ h ∈ msg.headers, ∀ f, h.name = [f] ∨ (h.value = [f] ∧ f.bytes ≠ []) →
    ∀ g ∈ fragments msg, ∀ i < g.bytes.length, f.addr + f.bytes.length ≠ g.addr + i

/-- The fragments that are read where they lie once the headers are complete. -/
def InPlace (msg : Message) (g : Fragment) : Prop :=
  (∃ h ∈ msg.headers, h.name = [g] ∨ h.value = [g]) ∨ g ∈ msg.body

/-- The last value is not empty, and no empty value points at a byte of what is
    read in place. -/
structure Clear (msg : Message) : Prop where
  last : ∀ h ∈ msg.headers.getLast?, text h.value ≠ []
  apart : ∀ h ∈ msg.headers, ∀ f, h.value = [f] → f.bytes = [] →
    ∀ g, InPlace msg g → ∀ i b, g.bytes[i]? = some b → f.addr = g.addr + i → b = 0

/-! ## Buffers -/

/-- The pool has grown, and what was in memory is still there. -/
structure Grows (st st' : Store) : Prop where
  next : st.next ≤ st'.next
  kept : ∀ a, a < st.next → st'.byte a = st.byte a

theorem Grows.refl (st : Store) : Grows st st := ⟨Nat.le_refl _,fun _ _ => rfl⟩

theorem Grows.trans {st₁ st₂ st₃ : Store} (one : Grows st₁ st₂) (two : Grows st₂ st₃) : Grows st₁ st₃ :=
  ⟨Nat.le_trans one.next two.next,fun a low =>
    (two.kept a (Nat.lt_of_lt_of_le low one.next)).trans (one.kept a low)⟩

/-- A range of memory reads the same after growth. -/
theorem Grows.read {st st' : Store} (grows : Grows st st') {base len : Nat} (inside : base + len ≤ st.next) :
    read st'.byte base len = read st.byte base len :=
  Memory.read_congr fun a _ high => grows.kept a (Nat.lt_of_lt_of_le high inside)

theorem setBuf_first (st : Store) {b : Buf} (empty : b.len = 0) (source length : Nat) :
    setBuf st b source length = (⟨source,length⟩,st) := by
  simp [setBuf,empty]

/-- A further fragment: both parts are copied to a fresh block that ends with a
    NUL. -/
theorem setBuf_more {st : Store} {b : Buf} (some_ : 0 < b.len) {source length : Nat}
    (first : b.base + b.len ≤ st.next) (second : source + length ≤ st.next) :
    let r := setBuf st b source length
    r.1 = ⟨st.next,b.len + length⟩ ∧ Grows st r.2 ∧ r.1.base + r.1.len < r.2.next ∧
      read r.2.byte r.1.base r.1.len = read st.byte b.base b.len ++ read st.byte source length ∧
      r.2.byte (r.1.base + r.1.len) = 0 := by
  simp only [setBuf,if_pos some_,ualloc,memcpy,poke]
  have left : read (write st.byte st.next (read st.byte b.base b.len)) source length = read st.byte source length :=
    Memory.read_write_outside st.byte (.inl second)
  rw [left]
  refine ⟨trivial,⟨Nat.le_add_right _ _,?_⟩,by omega,?_,?_⟩
  · intro a low
    simp only
    rw [Function.update_of_ne (by omega),Memory.write_outside _ (.inl (by omega)),
      Memory.write_outside _ (.inl low)]
  · rw [Memory.read_add]
    congr 1
    · have front := Memory.read_write st.byte st.next (read st.byte b.base b.len)
      rw [Memory.read_length] at front
      refine Eq.trans (Memory.read_congr fun a low high => ?_) front
      rw [Function.update_of_ne (by omega),Memory.write_outside _ (.inl high)]
    · have back := Memory.read_write (write st.byte st.next (read st.byte b.base b.len)) (st.next + b.len)
        (read st.byte source length)
      rw [Memory.read_length] at back
      refine Eq.trans (Memory.read_congr fun a low high => ?_) back
      rw [Function.update_of_ne (by omega)]
  · rw [Nat.add_assoc,Function.update_self]

@[simp] theorem text_nil : text [] = [] := rfl
@[simp] theorem text_cons (f : Fragment) (fs : List Fragment) : text (f :: fs) = f.bytes ++ text fs := rfl
@[simp] theorem text_append (fs gs : List Fragment) : text (fs ++ gs) = text fs ++ text gs := by
  simp [text]

/-- A buffer stands for the fragments: it is the only one, in place, or a block
    of the pool that ends with a NUL. `limit` is where the pool began. -/
structure Stands (limit : Nat) (st : Store) (b : Buf) (fs : List Fragment) : Prop where
  len : b.len = (text fs).length
  bytes : read st.byte b.base b.len = text fs
  inside : b.base + b.len < st.next
  place : (∃ f, fs = [f] ∧ b.base = f.addr) ∨
    ((∀ f, fs ≠ [f]) ∧ limit ≤ b.base ∧ st.byte (b.base + b.len) = 0)

theorem Stands.grows {limit : Nat} {st st' : Store} {b : Buf} {fs : List Fragment} (stands : Stands limit st b fs)
    (grows : Grows st st') : Stands limit st' b fs where
  len := stands.len
  bytes := (grows.read (Nat.le_of_lt stands.inside)).trans stands.bytes
  inside := Nat.lt_of_lt_of_le stands.inside grows.next
  place := stands.place.imp id fun ⟨many,low,zero⟩ => ⟨many,low,(grows.kept _ stands.inside).trans zero⟩

/-- A fragment is in memory, below where the pool began. -/
structure Lies (limit : Nat) (st : Store) (f : Fragment) : Prop where
  holds : read st.byte f.addr f.bytes.length = f.bytes
  outside : f.addr + f.bytes.length < limit

theorem Lies.grows {limit : Nat} {st st' : Store} {f : Fragment} (lies : Lies limit st f) (low : limit ≤ st.next)
    (grows : Grows st st') : Lies limit st' f :=
  ⟨(grows.read (by have := lies.outside; omega)).trans lies.holds,lies.outside⟩

theorem Stands.first {limit : Nat} {st : Store} {f : Fragment} (lies : Lies limit st f) (low : limit ≤ st.next) :
    Stands limit st ⟨f.addr,f.bytes.length⟩ [f] where
  len := by simp
  bytes := by simpa using lies.holds
  inside := Nat.lt_of_lt_of_le lies.outside low
  place := .inl ⟨f,rfl,rfl⟩

theorem Stands.more {limit : Nat} {st : Store} {b : Buf} {fs : List Fragment} {f : Fragment}
    (stands : Stands limit st b fs) (some_ : text fs ≠ []) (lies : Lies limit st f) (low : limit ≤ st.next) :
    Stands limit (setBuf st b f.addr f.bytes.length).2 (setBuf st b f.addr f.bytes.length).1 (fs ++ [f]) ∧
      Grows st (setBuf st b f.addr f.bytes.length).2 := by
  have positive : 0 < b.len := by
    rw [stands.len]
    exact List.length_pos_iff.mpr some_
  have outside := lies.outside
  obtain ⟨buffer,grows,inside,bytes,zero⟩ :=
    setBuf_more positive (Nat.le_of_lt stands.inside) (show f.addr + f.bytes.length ≤ st.next by omega)
  refine ⟨⟨?_,?_,inside,.inr ⟨?_,?_,zero⟩⟩,grows⟩
  · rw [buffer]
    simp [stands.len]
  · rw [bytes,stands.bytes,lies.holds]
    simp
  · intro g single
    cases fs with
    | nil => exact some_ rfl
    | cons h rest => simp at single
  · rw [buffer]
    exact low

/-! ## One header -/

/-- Further fragments of a name. -/
theorem keys_more {limit : Nat} {lh : LlhttpExt} {done : List Fragment} (more : List Fragment)
    (stands : Stands limit lh.store lh.headerKey done) (some_ : text done ≠ []) (name : lh.lastWasValue = false)
    (zero : lh.headerValue.len = 0) (lies : ∀ f ∈ more, Lies limit lh.store f) (low : limit ≤ lh.store.next) :
    let last := keys lh more
    Stands limit last.store last.headerKey (done ++ more) ∧ Grows lh.store last.store ∧
      last.headers = lh.headers ∧ last.headerValue.len = 0 := by
  induction more generalizing lh done with
  | nil => simpa [keys] using ⟨stands,Grows.refl _,zero⟩
  | cons f more ih =>
    have storeIs : (onHeaderKey lh f.addr f.bytes.length).store = (setBuf lh.store lh.headerKey f.addr f.bytes.length).2 := by
      simp [onHeaderKey,commit,name]
    have keyIs : (onHeaderKey lh f.addr f.bytes.length).headerKey =
        (setBuf lh.store lh.headerKey f.addr f.bytes.length).1 := by
      simp [onHeaderKey,commit,name]
    have headersIs : (onHeaderKey lh f.addr f.bytes.length).headers = lh.headers := by
      simp [onHeaderKey,commit,name]
    obtain ⟨longer,grows⟩ := stands.more some_ (lies f List.mem_cons_self) low
    rw [← storeIs] at longer grows
    rw [← keyIs] at longer
    have later := ih longer (by simp [some_]) rfl rfl
      (fun g member => (lies g (List.mem_cons_of_mem f member)).grows low grows) (Nat.le_trans low grows.next)
    rw [keys,List.foldl_cons,← keys]
    obtain ⟨result,grown,headers,empty⟩ := later
    exact ⟨by simpa using result,grows.trans grown,headers.trans headersIs,empty⟩

/-- Further fragments of a value. -/
theorem values_more {limit : Nat} (lh : LlhttpExt) (done more : List Fragment)
    (stands : Stands limit lh.store lh.headerValue done) (some_ : text done ≠ []) (value : lh.lastWasValue = true)
    (lies : ∀ f ∈ more, Lies limit lh.store f) (low : limit ≤ lh.store.next) :
    let last := values lh more
    Stands limit last.store last.headerValue (done ++ more) ∧ Grows lh.store last.store ∧
      last.headers = lh.headers ∧ last.headerKey = lh.headerKey ∧ last.lastWasValue = true := by
  induction more generalizing lh done with
  | nil => simpa [values] using ⟨stands,Grows.refl _,value⟩
  | cons f more ih =>
    obtain ⟨longer,grows⟩ := stands.more some_ (lies f List.mem_cons_self) low
    have later := ih (onHeaderValue lh f.addr f.bytes.length) (done ++ [f]) longer (by simp [some_]) rfl
      (fun g member => (lies g (List.mem_cons_of_mem f member)).grows low grows) (Nat.le_trans low grows.next)
    rw [values,List.foldl_cons,← values]
    obtain ⟨result,grown,headers,key,last⟩ := later
    exact ⟨by simpa using result,grows.trans grown,headers,key,last⟩

/-- The headers of the list are the headers given. -/
def Saved (limit : Nat) (lh : LlhttpExt) (hs : List Header) : Prop :=
  List.Forall₂ (fun saved h => Stands limit lh.store saved.1 h.name ∧ Stands limit lh.store saved.2 h.value) lh.headers hs

theorem Saved.grows {limit : Nat} {lh lh' : LlhttpExt} {hs : List Header} (saved : Saved limit lh hs)
    (grows : Grows lh.store lh'.store) (same : lh'.headers = lh.headers) : Saved limit lh' hs := by
  rw [Saved,same]
  exact List.Forall₂.imp (fun _ _ both => ⟨both.1.grows grows,both.2.grows grows⟩) saved

/-- A header is complete but not yet saved. -/
structure Holding (limit : Nat) (lh : LlhttpExt) (hs : List Header) (h : Header) : Prop where
  saved : Saved limit lh hs
  key : Stands limit lh.store lh.headerKey h.name
  value : Stands limit lh.store lh.headerValue h.value
  last : lh.lastWasValue = true

/-- The headers so far are saved, or the next key will save the last of them. -/
structure Ready (limit : Nat) (lh : LlhttpExt) (hs : List Header) : Prop where
  saved : Saved limit (commit lh) hs
  empty : (commit lh).headerKey.len = 0
  low : limit ≤ lh.store.next

theorem commit_store (lh : LlhttpExt) : (commit lh).store = lh.store := by
  simp only [commit]
  split <;> rfl

theorem Holding.ready {limit : Nat} {lh : LlhttpExt} {hs : List Header} {h : Header} (holding : Holding limit lh hs h)
    (some_ : text h.name ≠ []) (low : limit ≤ lh.store.next) : Ready limit lh (hs ++ [h]) := by
  have positive : lh.headerKey.len > 0 := by
    rw [holding.key.len]
    exact List.length_pos_iff.mpr some_
  have committed : lh.lastWasValue = true ∧ lh.headerKey.len > 0 := ⟨holding.last,positive⟩
  refine ⟨?_,by rw [commit,if_pos committed],low⟩
  rw [Saved,commit_store,commit,if_pos committed]
  exact List.rel_append holding.saved (.cons ⟨holding.key,holding.value⟩ .nil)

theorem text_ne_nil {fs : List Fragment} (some_ : fs ≠ []) (parts : ∀ f ∈ fs, f.bytes ≠ []) : text fs ≠ [] := by
  cases fs with
  | nil => exact absurd rfl some_
  | cons f fs => simp [parts f List.mem_cons_self]

/-- The name of a header. -/
theorem keys_run {limit : Nat} {lh : LlhttpExt} {hs : List Header} {name : List Fragment} (ready : Ready limit lh hs)
    (some_ : name ≠ []) (parts : ∀ f ∈ name, f.bytes ≠ []) (lies : ∀ f ∈ name, Lies limit lh.store f) :
    let last := keys lh name
    Saved limit last hs ∧ Stands limit last.store last.headerKey name ∧ Grows lh.store last.store ∧
      last.headerValue.len = 0 := by
  cases name with
  | nil => exact absurd rfl some_
  | cons f more =>
    have first : setBuf (commit lh).store (commit lh).headerKey f.addr f.bytes.length =
        (⟨f.addr,f.bytes.length⟩,lh.store) := by
      rw [setBuf_first _ ready.empty,commit_store]
    have storeIs : (onHeaderKey lh f.addr f.bytes.length).store = lh.store := by simp only [onHeaderKey,first]
    have keyIs : (onHeaderKey lh f.addr f.bytes.length).headerKey = ⟨f.addr,f.bytes.length⟩ := by
      simp only [onHeaderKey,first]
    have headersIs : (onHeaderKey lh f.addr f.bytes.length).headers = (commit lh).headers := rfl
    have stands := Stands.first (lies f List.mem_cons_self) ready.low
    rw [← keyIs,← storeIs] at stands
    have text_ : text [f] ≠ [] := by simp [parts f List.mem_cons_self]
    obtain ⟨result,grown,headers,zero⟩ := keys_more more stands text_ rfl rfl
      (fun g member => by rw [storeIs]; exact lies g (List.mem_cons_of_mem f member)) (by rw [storeIs]; exact ready.low)
    rw [storeIs] at grown
    refine ⟨?_,result,grown,zero⟩
    exact ready.saved.grows (by rw [commit_store]; exact grown) (headers.trans headersIs)

/-- The value of a header. -/
theorem values_run {limit : Nat} {lh : LlhttpExt} {value : List Fragment} (zero : lh.headerValue.len = 0)
    (shape : (∃ f, value = [f] ∧ f.bytes = []) ∨ (value ≠ [] ∧ ∀ f ∈ value, f.bytes ≠ []))
    (lies : ∀ f ∈ value, Lies limit lh.store f) (low : limit ≤ lh.store.next) :
    let last := values lh value
    Stands limit last.store last.headerValue value ∧ Grows lh.store last.store ∧
      last.headers = lh.headers ∧ last.headerKey = lh.headerKey ∧ last.lastWasValue = true := by
  have first (f : Fragment) : onHeaderValue lh f.addr f.bytes.length =
      { lh with headerValue := ⟨f.addr,f.bytes.length⟩, lastWasValue := true } := by
    simp only [onHeaderValue,setBuf_first lh.store zero]
  rcases shape with ⟨f,only,_⟩ | ⟨some_,parts⟩
  · subst only
    simp only [values,List.foldl_cons,List.foldl_nil,first]
    exact ⟨Stands.first (lies f List.mem_cons_self) low,Grows.refl _,trivial,trivial,trivial⟩
  · cases value with
    | nil => exact absurd rfl some_
    | cons f more =>
      have stands := Stands.first (lies f List.mem_cons_self) low
      have later := values_more (onHeaderValue lh f.addr f.bytes.length) [f] more
        (by rw [first]; exact stands) (by simp [parts f List.mem_cons_self]) rfl
        (fun g member => by rw [first]; exact lies g (List.mem_cons_of_mem f member)) (by rw [first]; exact low)
      rw [values,List.foldl_cons,← values]
      rw [first] at later ⊢
      exact later

theorem header_run {limit : Nat} {lh : LlhttpExt} {hs : List Header} {h : Header} (ready : Ready limit lh hs)
    (name : h.name ≠ [] ∧ ∀ f ∈ h.name, f.bytes ≠ [])
    (value : (∃ f, h.value = [f] ∧ f.bytes = []) ∨ (h.value ≠ [] ∧ ∀ f ∈ h.value, f.bytes ≠ []))
    (lies : ∀ f ∈ h.name ++ h.value, Lies limit lh.store f) :
    Holding limit (header lh h) hs h ∧ Grows lh.store (header lh h).store := by
  obtain ⟨saved,key,grown,zero⟩ :=
    keys_run ready name.1 name.2 fun f member => lies f (List.mem_append_left h.value member)
  have low := Nat.le_trans ready.low grown.next
  obtain ⟨stands,grows,headers,same,last⟩ := values_run zero value
    (fun f member => (lies f (List.mem_append_right h.name member)).grows ready.low grown) low
  refine ⟨⟨saved.grows grows headers,?_,stands,last⟩,grown.trans grows⟩
  rw [header,same]
  exact key.grows grows

/-- All headers but the last. -/
theorem headers_run {limit : Nat} {lh : LlhttpExt} {done : List Header} (hs : List Header) (ready : Ready limit lh done)
    (name : ∀ h ∈ hs, h.name ≠ [] ∧ ∀ f ∈ h.name, f.bytes ≠ [])
    (value : ∀ h ∈ hs, (∃ f, h.value = [f] ∧ f.bytes = []) ∨ (h.value ≠ [] ∧ ∀ f ∈ h.value, f.bytes ≠ []))
    (lies : ∀ h ∈ hs, ∀ f ∈ h.name ++ h.value, Lies limit lh.store f) :
    Ready limit (hs.foldl header lh) (done ++ hs) ∧ Grows lh.store (hs.foldl header lh).store := by
  induction hs generalizing lh done with
  | nil => simpa using ⟨ready,Grows.refl _⟩
  | cons h hs ih =>
    have named := name h List.mem_cons_self
    obtain ⟨holding,grows⟩ := header_run ready named (value h List.mem_cons_self) (lies h List.mem_cons_self)
    have next := holding.ready (text_ne_nil named.1 named.2) (Nat.le_trans ready.low grows.next)
    obtain ⟨result,grown⟩ := ih next (fun g member => name g (List.mem_cons_of_mem h member))
      (fun g member => value g (List.mem_cons_of_mem h member))
      (fun g member f inside => (lies g (List.mem_cons_of_mem h member) f inside).grows ready.low grows)
    exact ⟨by simpa using result,grows.trans grown⟩

/-! ## The end of the headers -/

/-- Where the NULs go. -/
def ends (headers : List (Buf × Buf)) : List Nat :=
  headers.flatMap fun h => [h.1.base + h.1.len,h.2.base + h.2.len]

theorem terminate_next (st : Store) (headers : List (Buf × Buf)) : (terminate st headers).next = st.next := by
  induction headers generalizing st with
  | nil => rfl
  | cons h rest ih => exact ih _

theorem terminate_byte (st : Store) (headers : List (Buf × Buf)) (a : Nat) :
    (terminate st headers).byte a = if a ∈ ends headers then 0 else st.byte a := by
  induction headers generalizing st with
  | nil => simp [terminate,ends]
  | cons h rest ih =>
    rw [terminate,ih]
    have parts : a ∈ ends (h :: rest) ↔ a = h.1.base + h.1.len ∨ a = h.2.base + h.2.len ∨ a ∈ ends rest := by
      simp [ends]
    by_cases later : a ∈ ends rest
    · rw [if_pos later,if_pos (parts.mpr (.inr (.inr later)))]
    · rw [if_neg later]
      simp only [poke]
      by_cases value : a = h.2.base + h.2.len
      · rw [if_pos (parts.mpr (.inr (.inl value))),value,Function.update_self]
      · rw [Function.update_of_ne value]
        by_cases key : a = h.1.base + h.1.len
        · rw [if_pos (parts.mpr (.inl key)),key,Function.update_self]
        · rw [Function.update_of_ne key,if_neg]
          intro member
          rcases parts.mp member with here | here | here
          · exact key here
          · exact value here
          · exact later here

/-- The headers as they are when the NULs are written. -/
def Standing (limit : Nat) (st : Store) (saved : List (Buf × Buf)) (hs : List Header) : Prop :=
  List.Forall₂ (fun b h => Stands limit st b.1 h.name ∧ Stands limit st b.2 h.value) saved hs

/-- A buffer in place ends below the pool, one of the pool ends with a NUL
    already. -/
theorem Stands.end_cases {limit : Nat} {st : Store} {b : Buf} {fs : List Fragment} (stands : Stands limit st b fs) :
    (∃ f, fs = [f] ∧ b.base + b.len = f.addr + f.bytes.length) ∨
      ((∀ f, fs ≠ [f]) ∧ limit ≤ b.base + b.len ∧ st.byte (b.base + b.len) = 0) := by
  rcases stands.place with ⟨f,only,base⟩ | ⟨many,low,zero⟩
  · refine .inl ⟨f,only,?_⟩
    rw [base,stands.len,only]
    simp
  · exact .inr ⟨many,Nat.le_trans low (Nat.le_add_right _ _),zero⟩

theorem ends_cases {limit : Nat} {st : Store} {saved : List (Buf × Buf)} {hs : List Header}
    (standing : Standing limit st saved hs) {a : Nat} (member : a ∈ ends saved) :
    (∃ h ∈ hs, ∃ f, (h.name = [f] ∨ h.value = [f]) ∧ a = f.addr + f.bytes.length) ∨ (limit ≤ a ∧ st.byte a = 0) := by
  induction standing with
  | nil => simp [ends] at member
  | @cons b h saved hs both _ ih =>
    simp only [ends,List.flatMap_cons,List.cons_append,List.nil_append,List.mem_cons] at member
    rcases member with here | here | later
    · rcases both.1.end_cases with ⟨f,only,stop⟩ | ⟨_,low,zero⟩
      · exact .inl ⟨h,List.mem_cons_self,f,.inl only,here.trans stop⟩
      · exact .inr ⟨by rw [here]; exact low,by rw [here]; exact zero⟩
    · rcases both.2.end_cases with ⟨f,only,stop⟩ | ⟨_,low,zero⟩
      · exact .inl ⟨h,List.mem_cons_self,f,.inr only,here.trans stop⟩
      · exact .inr ⟨by rw [here]; exact low,by rw [here]; exact zero⟩
    · rcases ih later with ⟨g,inside,found⟩ | above
      · exact .inl ⟨g,List.mem_cons_of_mem h inside,found⟩
      · exact .inr above

theorem value_end {limit : Nat} {st : Store} {saved : List (Buf × Buf)} {hs : List Header}
    (standing : Standing limit st saved hs) {h : Header} (member : h ∈ hs) {f : Fragment} (only : h.value = [f]) :
    f.addr + f.bytes.length ∈ ends saved := by
  induction standing with
  | nil => simp at member
  | @cons b g saved hs both _ ih =>
    simp only [ends,List.flatMap_cons,List.cons_append,List.nil_append,List.mem_cons]
    rcases List.mem_cons.mp member with here | later
    · subst here
      rcases both.2.end_cases with ⟨f',only',stop⟩ | ⟨many,_⟩
      · rw [only] at only'
        cases only'
        exact .inr (.inl stop.symm)
      · exact absurd only (many f)
    · exact .inr (.inr (ih later))

/-- The NULs change nothing in the pool. -/
theorem terminate_above {limit : Nat} {st : Store} {saved : List (Buf × Buf)} {hs : List Header}
    (standing : Standing limit st saved hs) (lies : ∀ h ∈ hs, ∀ f ∈ h.name ++ h.value, f.addr + f.bytes.length < limit)
    {a : Nat} (above : limit ≤ a) : (terminate st saved).byte a = st.byte a := by
  rw [terminate_byte]
  split
  case isFalse => rfl
  case isTrue member =>
    rcases ends_cases standing member with ⟨h,inside,f,single,stop⟩ | ⟨_,zero⟩
    · have below := lies h inside f (by rcases single with only | only <;> simp [only])
      omega
    · exact zero.symm

/-- The fragment reads as it came. -/
def Spared (st : Store) (g : Fragment) : Prop := read st.byte g.addr g.bytes.length = g.bytes

theorem Stands.contents_iff {limit : Nat} {st st' : Store} {b : Buf} {fs : List Fragment} (stands : Stands limit st b fs)
    (above : ∀ a, limit ≤ a → st'.byte a = st.byte a) :
    read st'.byte b.base b.len = text fs ↔ ∀ g, fs = [g] → Spared st' g := by
  rcases stands.place with ⟨f,only,base⟩ | ⟨many,low,_⟩
  · have length := stands.len
    rw [only,text_cons,text_nil,List.append_nil] at length
    rw [base,length,only,text_cons,text_nil,List.append_nil]
    constructor
    · intro same g isG
      cases isG
      exact same
    · intro spared
      exact spared f rfl
  · constructor
    · intro _ g only
      exact absurd only (many g)
    · intro _
      rw [← stands.bytes]
      exact Memory.read_congr fun a start _ => above a (Nat.le_trans low start)

theorem forall₂_iff {α β : Type} {P Q : α → β → Prop} {C : β → Prop} {xs : List α} {ys : List β}
    (pairs : List.Forall₂ P xs ys) (each : ∀ x y, P x y → (Q x y ↔ C y)) :
    List.Forall₂ Q xs ys ↔ ∀ y ∈ ys, C y := by
  induction pairs with
  | nil => simp
  | cons first _ ih => rw [List.forall₂_cons,List.forall_mem_cons,each _ _ first,ih]

/-- The headers are those sent exactly if every fragment read in place is
    spared. -/
theorem headers_iff {limit : Nat} {st : Store} {saved : List (Buf × Buf)} {hs : List Header}
    (standing : Standing limit st saved hs) (lies : ∀ h ∈ hs, ∀ f ∈ h.name ++ h.value, f.addr + f.bytes.length < limit) :
    let st' := terminate st saved
    (saved.map fun b => (read st'.byte b.1.base b.1.len,read st'.byte b.2.base b.2.len)) =
        (hs.map fun h => (text h.name,text h.value)) ↔
      ∀ h ∈ hs, ∀ g, h.name = [g] ∨ h.value = [g] → Spared st' g := by
  intro st'
  have above (a : Nat) (high : limit ≤ a) : st'.byte a = st.byte a := terminate_above standing lies high
  rw [← List.forall₂_eq_eq_eq,List.forall₂_map_left_iff,List.forall₂_map_right_iff]
  refine forall₂_iff standing fun b h both => ?_
  rw [Prod.mk.injEq,both.1.contents_iff above,both.2.contents_iff above]
  constructor
  · rintro ⟨name,value⟩ g (only | only)
    · exact name g only
    · exact value g only
  · exact fun all => ⟨fun g only => all g (.inl only),fun g only => all g (.inr only)⟩

/-! ## The body -/

/-- Part of the body is in its block. -/
structure Filling (limit : Nat) (lh : LlhttpExt) (sofar : List UInt8) (left : Nat) : Prop where
  low : limit ≤ lh.body.base
  ptr : lh.bodyPtr = lh.body.base + sofar.length
  remains : lh.bodyLen = left
  len : lh.body.len = sofar.length + left
  some_ : 0 < sofar.length
  bytes : read lh.store.byte lh.body.base sofar.length = sofar

/-- A fragment that is not the last one. -/
theorem Filling.step {limit : Nat} {lh : LlhttpExt} {sofar : List UInt8} {left : Nat} {f : Fragment}
    (filling : Filling limit lh sofar (f.bytes.length + left)) (more : 0 < left)
    (outside : f.addr + f.bytes.length < limit) :
    let lh' := onBody lh f.addr f.bytes.length
    Filling limit lh' (sofar ++ read lh.store.byte f.addr f.bytes.length) left ∧
      ∀ a, a < limit → lh'.store.byte a = lh.store.byte a := by
  have nonzero : lh.body.len ≠ 0 := by have := filling.len; have := filling.some_; omega
  have short : f.bytes.length < lh.bodyLen := by have := filling.remains; omega
  have length := filling.remains
  have len := filling.len
  have low := filling.low
  simp only [onBody,if_neg nonzero,if_pos short]
  refine ⟨⟨low,?_,?_,?_,?_,?_⟩,?_⟩
  · rw [filling.ptr,List.length_append,Memory.read_length,Nat.add_assoc]
  · simp only [length]
    omega
  · rw [List.length_append,Memory.read_length,len,Nat.add_assoc]
  · have := filling.some_
    rw [List.length_append]
    omega
  · simp only [memcpy]
    rw [List.length_append,Memory.read_length,Memory.read_add]
    congr 1
    · rw [Memory.read_write_outside _ (.inl (Nat.le_of_eq filling.ptr.symm)),filling.bytes]
    · rw [← filling.ptr]
      simpa using Memory.read_write lh.store.byte lh.bodyPtr (read lh.store.byte f.addr f.bytes.length)
  · intro a below
    exact Memory.write_outside _ (.inl (by rw [filling.ptr]; omega))

/-- The last fragment. -/
theorem Filling.last {limit : Nat} {lh : LlhttpExt} {sofar : List UInt8} {f : Fragment}
    (filling : Filling limit lh sofar f.bytes.length) (some_ : f.bytes ≠ []) :
    let lh' := onBody lh f.addr f.bytes.length
    contents lh' lh'.body = sofar ++ read lh.store.byte f.addr f.bytes.length := by
  have nonzero : lh.body.len ≠ 0 := by have := filling.len; have := filling.some_; omega
  have whole : ¬ f.bytes.length < lh.bodyLen := by rw [filling.remains]; exact Nat.lt_irrefl _
  have left : lh.bodyLen ≠ 0 := by
    rw [filling.remains]
    exact fun zero => some_ (List.eq_nil_of_length_eq_zero zero)
  simp only [onBody,if_neg nonzero,if_neg whole,if_pos left,contents,memcpy]
  rw [filling.len,Memory.read_add]
  congr 1
  · rw [Memory.read_write_outside _ (.inl (Nat.le_of_eq filling.ptr.symm)),filling.bytes]
  · rw [← filling.ptr,filling.remains]
    simpa using Memory.read_write lh.store.byte lh.bodyPtr (read lh.store.byte f.addr f.bytes.length)

/-- The bytes of the fragments as the memory has them. -/
def lying (m : Memory) (fs : List Fragment) : List UInt8 := fs.flatMap fun f => read m f.addr f.bytes.length

theorem lying_congr {m m' : Memory} {limit : Nat} {fs : List Fragment}
    (outside : ∀ f ∈ fs, f.addr + f.bytes.length < limit) (same : ∀ a, a < limit → m a = m' a) :
    lying m fs = lying m' fs := by
  induction fs with
  | nil => rfl
  | cons f fs ih =>
    have below := outside f List.mem_cons_self
    rw [lying,lying,List.flatMap_cons,List.flatMap_cons,← lying,← lying,
      ih fun g member => outside g (List.mem_cons_of_mem f member),
      Memory.read_congr fun a _ high => same a (by omega)]

theorem lying_iff (m : Memory) (fs : List Fragment) :
    lying m fs = text fs ↔ ∀ f ∈ fs, read m f.addr f.bytes.length = f.bytes := by
  induction fs with
  | nil => simp [lying]
  | cons f fs ih =>
    rw [List.forall_mem_cons,← ih,lying,List.flatMap_cons,← lying,text_cons]
    constructor
    · intro same
      exact List.append_inj same (Memory.read_length m f.addr f.bytes.length)
    · rintro ⟨first,rest⟩
      rw [first,rest]

theorem text_pos {f : Fragment} {fs : List Fragment} (parts : ∀ g ∈ f :: fs, g.bytes ≠ []) : 0 < (text (f :: fs)).length :=
  List.length_pos_iff.mpr (text_ne_nil (List.cons_ne_nil f fs) parts)

theorem bodies_more {limit : Nat} {lh : LlhttpExt} {sofar : List UInt8} (f : Fragment) (more : List Fragment)
    (filling : Filling limit lh sofar (text (f :: more)).length) (parts : ∀ g ∈ f :: more, g.bytes ≠ [])
    (outside : ∀ g ∈ f :: more, g.addr + g.bytes.length < limit) :
    let last := bodies lh (f :: more)
    contents last last.body = sofar ++ lying lh.store.byte (f :: more) := by
  induction more generalizing lh sofar f with
  | nil =>
    rw [text_cons,text_nil,List.append_nil] at filling
    simpa [bodies,lying] using filling.last (parts f List.mem_cons_self)
  | cons g more ih =>
    rw [text_cons,List.length_append] at filling
    have tail (h : Fragment) (member : h ∈ g :: more) := List.mem_cons_of_mem f member
    obtain ⟨further,same⟩ := filling.step (text_pos fun h member => parts h (tail h member)) (outside f List.mem_cons_self)
    have later := ih g further (fun h member => parts h (tail h member)) fun h member => outside h (tail h member)
    have kept : lying (onBody lh f.addr f.bytes.length).store.byte (g :: more) = lying lh.store.byte (g :: more) :=
      lying_congr (fun h member => outside h (tail h member)) same
    rw [kept,List.append_assoc] at later
    exact later

/-- The body is what its fragments hold when they come. -/
theorem bodies_run (limit : Nat) (lh : LlhttpExt) (body : List Fragment) (empty : lh.body.len = 0)
    (announced : lh.contentLength = (text body).length) (parts : ∀ f ∈ body, f.bytes ≠ [])
    (outside : ∀ f ∈ body, f.addr + f.bytes.length < limit) (low : limit ≤ lh.store.next) :
    let last := bodies lh body
    contents last last.body = lying lh.store.byte body := by
  match body with
  | [] => simp [bodies,contents,empty,lying,Memory.read]
  | [f] =>
    have whole : ¬ lh.contentLength > f.bytes.length := by rw [announced]; simp
    have length : lh.contentLength = f.bytes.length := by rw [announced]; simp
    simp [bodies,onBody,empty,length,contents,lying]
  | f :: g :: more =>
    have below := outside f List.mem_cons_self
    have tail (h : Fragment) (member : h ∈ g :: more) := List.mem_cons_of_mem f member
    have positive := text_pos fun h member => parts h (tail h member)
    have first : 0 < f.bytes.length := List.length_pos_iff.mpr (parts f List.mem_cons_self)
    rw [text_cons,List.length_append] at announced
    have longer : lh.contentLength > f.bytes.length := by omega
    have frame : read (Function.update lh.store.byte (lh.store.next + lh.contentLength) 0) f.addr f.bytes.length =
        read lh.store.byte f.addr f.bytes.length :=
      Memory.read_congr fun a _ high => Function.update_of_ne (by omega) _ _
    have filling : Filling limit (onBody lh f.addr f.bytes.length) (read lh.store.byte f.addr f.bytes.length)
        (text (g :: more)).length := by
      simp only [onBody,empty,if_true,if_pos longer,ualloc,poke,memcpy]
      refine ⟨low,by simp,?_,?_,by simpa using first,?_⟩
      · simp only [announced]
        omega
      · simp only [announced,Memory.read_length]
      · simp only [frame]
        exact Memory.read_write _ _ _
    have same (a : Nat) (under : a < limit) : (onBody lh f.addr f.bytes.length).store.byte a = lh.store.byte a := by
      simp only [onBody,empty,if_true,if_pos longer,ualloc,poke,memcpy]
      rw [Memory.write_outside _ (.inl (by omega)),Function.update_of_ne (by omega)]
    have later := bodies_more g more filling (fun h member => parts h (tail h member))
      fun h member => outside h (tail h member)
    have kept : lying (onBody lh f.addr f.bytes.length).store.byte (g :: more) = lying lh.store.byte (g :: more) :=
      lying_congr (fun h member => outside h (tail h member)) same
    rw [kept] at later
    exact later

/-! ## Messages as a whole -/

/-- No header is begun, and none is there. -/
structure Fresh (lh : LlhttpExt) : Prop where
  headers : lh.headers = []
  key : lh.headerKey.len = 0

theorem Fresh.ready {lh : LlhttpExt} (fresh : Fresh lh) : Ready lh.store.next lh [] := by
  have nothing : commit lh = lh := by simp [commit,fresh.key]
  refine ⟨?_,by rw [nothing]; exact fresh.key,Nat.le_refl _⟩
  rw [Saved,nothing,fresh.headers]
  exact .nil

/-- The byte the NULs take from a fragment is where an empty value points. -/
theorem spared_iff {limit : Nat} {st st₀ : Store} {saved : List (Buf × Buf)} {msg : Message}
    (standing : Standing limit st saved msg.headers) (memory : InMemory st₀ msg) (limit_ : limit = st₀.next)
    (same : ∀ a, a < limit → st.byte a = st₀.byte a) (wellFormed : WellFormed msg) {g : Fragment}
    (member : g ∈ fragments msg) :
    Spared (terminate st saved) g ↔ ∀ h ∈ msg.headers, ∀ f, h.value = [f] → f.bytes = [] →
      ∀ i b, g.bytes[i]? = some b → f.addr = g.addr + i → b = 0 := by
  have below := memory.outside g member
  have before (i : Nat) (b : UInt8) (there : g.bytes[i]? = some b) : st.byte (g.addr + i) = b := by
    have inside : i < g.bytes.length := (List.getElem?_eq_some_iff.mp there).1
    have held := memory.holds g member
    rw [← held,Memory.read_getElem st₀.byte g.addr inside] at there
    rw [same _ (by omega)]
    exact Option.some.inj there
  constructor
  · intro spared h inside f only empty i b there points
    have hit : g.addr + i ∈ ends saved := by
      have stop := value_end standing inside only
      rw [empty] at stop
      rwa [← points]
    have inside_ : i < g.bytes.length := (List.getElem?_eq_some_iff.mp there).1
    rw [Spared] at spared
    rw [← spared,Memory.read_getElem _ _ inside_,terminate_byte,if_pos hit] at there
    exact (Option.some.inj there).symm
  · intro apart
    refine List.ext_getElem? fun i => ?_
    by_cases inside : i < g.bytes.length
    · rw [Memory.read_getElem _ _ inside,terminate_byte]
      have there : g.bytes[i]? = some g.bytes[i] := List.getElem?_eq_getElem inside
      rw [there,before i _ there]
      split
      case isFalse => rfl
      case isTrue hit =>
        rcases ends_cases standing hit with ⟨h,at_,f,single,stop⟩ | ⟨above,_⟩
        · by_cases empty : h.value = [f] ∧ f.bytes = []
          · have zero := apart h at_ f empty.1 empty.2 i _ there (by rw [stop,empty.2]; rfl)
            rw [zero]
          · have whole : h.name = [f] ∨ (h.value = [f] ∧ f.bytes ≠ []) :=
              single.imp id fun only => ⟨only,fun none_ => empty ⟨only,none_⟩⟩
            exact absurd stop.symm (memory.separated h at_ f whole g member i inside)
        · omega
    · rw [List.getElem?_eq_none (by simp only [Memory.read_length]; omega),List.getElem?_eq_none (by omega)]

/-- What is left of the callbacks once the last header is complete. -/
theorem complete_run {lh : LlhttpExt} (parser : Parser) {msg : Message} (fresh : Fresh lh) (wellFormed : WellFormed msg)
    (memory : InMemory lh.store msg) :
    let before := msg.headers.foldl header lh
    Grows lh.store before.store ∧
      ((∀ h ∈ msg.headers.getLast?, text h.value ≠ []) →
        ∃ saved, Standing lh.store.next before.store saved msg.headers ∧
          (head lh parser msg).headers = saved ∧ (head lh parser msg).store = terminate before.store saved) ∧
      ((∃ h ∈ msg.headers.getLast?, text h.value = []) → (head lh parser msg).headers.length < msg.headers.length) := by
  intro before
  have lies (h : Header) (member : h ∈ msg.headers) (f : Fragment) (inside : f ∈ h.name ++ h.value) :
      Lies lh.store.next lh.store f := by
    have part : f ∈ fragments msg :=
      List.mem_append_left msg.body (List.mem_flatMap.mpr ⟨h,member,inside⟩)
    exact ⟨memory.holds f part,memory.outside f part⟩
  obtain ⟨init,last,whole⟩ := (List.eq_nil_or_concat' msg.headers).resolve_left wellFormed.headers
  have of_init (h : Header) (member : h ∈ init) : h ∈ msg.headers := by
    rw [whole]
    exact List.mem_append_left _ member
  have of_last : last ∈ msg.headers := by
    rw [whole]
    exact List.mem_append_right _ List.mem_cons_self
  obtain ⟨ready,grown⟩ := headers_run init fresh.ready (fun h member => wellFormed.name h (of_init h member))
    (fun h member => wellFormed.value h (of_init h member)) fun h member => lies h (of_init h member)
  obtain ⟨holding,grows⟩ := header_run ready (wellFormed.name last of_last) (wellFormed.value last of_last)
    fun f inside => (lies last of_last f inside).grows (Nat.le_refl _) grown
  have beforeIs : before = header (init.foldl header lh) last := by
    simp only [before,whole,List.foldl_append,List.foldl_cons,List.foldl_nil]
  rw [List.nil_append] at holding
  rw [← beforeIs] at holding grows
  have lastIs : msg.headers.getLast? = some last := by rw [whole,List.getLast?_concat]
  have key : before.headerKey.len > 0 := by
    rw [holding.key.len]
    exact List.length_pos_iff.mpr (text_ne_nil (wellFormed.name last of_last).1 (wellFormed.name last of_last).2)
  refine ⟨grown.trans grows,?_,?_⟩
  · intro nonempty
    have value : before.headerValue.len > 0 := by
      rw [holding.value.len]
      exact List.length_pos_iff.mpr (nonempty last lastIs)
    refine ⟨before.headers ++ [(before.headerKey,before.headerValue)],?_,?_,?_⟩
    · rw [whole]
      exact List.rel_append holding.saved (.cons ⟨holding.key,holding.value⟩ .nil)
    · simp only [head,onHeadersComplete]
      rw [if_pos ⟨key,value⟩]
      rfl
    · simp only [head,onHeadersComplete]
      rw [if_pos ⟨key,value⟩]
      rfl
  · rintro ⟨h,isLast,empty⟩
    rw [lastIs] at isLast
    cases isLast
    have value : ¬ before.headerValue.len > 0 := by
      rw [holding.value.len,empty]
      exact Nat.lt_irrefl 0
    have length := holding.saved.length_eq
    simp only [head,onHeadersComplete]
    rw [if_neg fun both => value both.2,length,whole,List.length_append]
    exact Nat.lt_succ_self _

/-- However a message is cut into fragments, it is assembled as it was sent
    exactly if its last value is not empty and no empty value points into what is
    read in place. -/
theorem message_assembled (lh : LlhttpExt) (parser : Parser) (msg : Message) (fresh : Fresh lh)
    (wellFormed : WellFormed msg) (memory : InMemory lh.store msg)
    (announced : parser.contentLength = (text msg.body).length) : Assembled lh parser msg ↔ Clear msg := by
  have headersBelow (h : Header) (member : h ∈ msg.headers) (f : Fragment) (inside : f ∈ h.name ++ h.value) :
      f ∈ fragments msg := List.mem_append_left msg.body (List.mem_flatMap.mpr ⟨h,member,inside⟩)
  have bodyBelow (f : Fragment) (inside : f ∈ msg.body) : f ∈ fragments msg := List.mem_append_right _ inside
  obtain ⟨grown,nonempty,dropped⟩ := complete_run parser fresh wellFormed memory
  by_cases last : ∀ h ∈ msg.headers.getLast?, text h.value ≠ []
  · obtain ⟨saved,standing,headersAre,storeIs⟩ := nonempty last
    have lies (h : Header) (member : h ∈ msg.headers) (f : Fragment) (inside : f ∈ h.name ++ h.value) :=
      memory.outside f (headersBelow h member f inside)
    have low : lh.store.next ≤ (head lh parser msg).store.next := by
      rw [storeIs,terminate_next]
      exact grown.next
    have body := bodies_run lh.store.next (head lh parser msg) msg.body rfl announced wellFormed.body
      (fun f inside => memory.outside f (bodyBelow f inside)) low
    have spared (g : Fragment) (member : g ∈ fragments msg) :=
      spared_iff standing memory rfl (fun a under => grown.kept a under) wellFormed member
    have heads := headers_iff standing lies
    simp only at heads
    rw [Assembled]
    simp only [contents] at body ⊢
    rw [body,headersAre,storeIs,heads,lying_iff]
    constructor
    · rintro ⟨inHeaders,inBody⟩
      refine ⟨last,fun h member f only empty g place => ?_⟩
      rcases place with ⟨h',member',single⟩ | inside
      · exact (spared g (headersBelow h' member' g (by rcases single with e | e <;> simp [e]))).mp
          (inHeaders h' member' g single) h member f only empty
      · exact (spared g (bodyBelow g inside)).mp (inBody g inside) h member f only empty
    · rintro ⟨_,apart⟩
      constructor
      · intro h' member' g single
        exact (spared g (headersBelow h' member' g (by rcases single with e | e <;> simp [e]))).mpr
          fun h member f only empty => apart h member f only empty g (.inl ⟨h',member',single⟩)
      · intro g inside
        exact (spared g (bodyBelow g inside)).mpr
          fun h member f only empty => apart h member f only empty g (.inr inside)
  · refine ⟨fun assembled => ?_,fun clear => absurd clear.last last⟩
    have short := dropped (by simpa using last)
    have length := congrArg List.length assembled.1
    simp only [List.length_map] at length
    omega

/-! ## Messages in one buffer -/

/-- A parser that has read nothing, with a buffer at 0 and the pool at 100. -/
def opened (buffer : List UInt8) : LlhttpExt where
  store := ⟨fun a => buffer.getD a 0,100⟩
  headers := []
  body := ⟨0,0⟩
  contentLength := 0
  httpMajor := 0
  httpMinor := 0
  method := 0
  statusCode := 0
  keepAlive := 0
  chunked := false
  headerKey := ⟨0,0⟩
  headerValue := ⟨0,0⟩
  lastWasValue := false
  bodyPtr := 0
  bodyLen := 0
  bodyTerminated := false
  checkpoint := none

/-- A request whose body has `n` bytes. -/
def request (n : Nat) : Parser := ⟨n,1,1,1,0,0,1⟩

/-- The buffer `A:x`, `B:yz` and the body `hi`, with the value `yz` and the body
    in two fragments each. -/
def twoHeaders : Message where
  headers := [⟨[⟨0,[65]⟩],[⟨2,[120]⟩]⟩,⟨[⟨5,[66]⟩],[⟨7,[121]⟩,⟨8,[122]⟩]⟩]
  body := [⟨13,[104]⟩,⟨14,[105]⟩]

theorem message_assembled_two :
    Assembled (opened [65,58,120,13,10,66,58,121,122,13,10,13,10,104,105]) (request 2) twoHeaders := by
  refine (message_assembled _ (request 2) twoHeaders ⟨rfl,rfl⟩ ⟨by decide,by decide,?_,by decide⟩
    ⟨by decide,by decide,?_⟩ rfl).mpr ⟨by decide,?_⟩
  · intro h member
    refine .inr ?_
    revert h
    decide
  · intro h member f single
    simp only [twoHeaders,List.mem_cons,List.not_mem_nil,or_false] at member
    rcases member with here | here
    · subst here
      rcases single with only | ⟨only,_⟩
      · cases only
        decide
      · cases only
        decide
    · subst here
      rcases single with only | ⟨only,_⟩
      · cases only
        decide
      · cases only
  · intro h member f only empty
    simp only [twoHeaders,List.mem_cons,List.not_mem_nil,or_false] at member
    rcases member with here | here
    · subst here
      cases only
      cases empty
    · subst here
      cases only

/-- The buffer `A:` followed by the end of the headers. -/
def lastEmpty : Message := ⟨[⟨[⟨0,[65]⟩],[⟨4,[]⟩]⟩],[]⟩
/-- The buffer `A:` and `B:x`; the fragment of the empty value is where the
    next name begins. -/
def middleEmpty : Message := ⟨[⟨[⟨0,[65]⟩],[⟨4,[]⟩]⟩,⟨[⟨4,[66]⟩],[⟨6,[120]⟩]⟩],[]⟩

/-- A last header with an empty value is lost, and after an empty value the next
    name loses its first byte. -/
theorem empty_value_lost :
    ¬ (∀ (lh : LlhttpExt) (parser : Parser) (msg : Message), Fresh lh → WellFormed msg → InMemory lh.store msg →
      parser.contentLength = (text msg.body).length → Assembled lh parser msg) ∧
    (head (opened [65,58,13,10,13,10]) (request 0) lastEmpty).headers = [] ∧
    let complete := head (opened [65,58,13,10,66,58,120,13,10,13,10]) (request 0) middleEmpty
    complete.headers.map (fun h => (contents complete h.1,contents complete h.2)) = [([65],[]),([0],[120])] := by
  refine ⟨fun claim => ?_,by decide,by decide⟩
  have assembled := claim (opened [65,58,13,10,13,10]) (request 0) lastEmpty ⟨rfl,rfl⟩
    ⟨by decide,by decide,fun h member => .inl ?_,by decide⟩ ⟨by decide,by decide,?_⟩ rfl
  · exact absurd assembled.1 (by decide)
  · rw [lastEmpty,List.mem_singleton] at member
    subst member
    exact ⟨_,rfl,rfl⟩
  · intro h member f single
    rw [lastEmpty,List.mem_singleton] at member
    subst member
    rcases single with only | ⟨only,some_⟩
    · cases only
      decide
    · cases only
      exact absurd rfl some_

end AnotherC.HttpParser
