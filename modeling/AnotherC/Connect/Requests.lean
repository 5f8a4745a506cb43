import AnotherC.Connect.Chunks

/-!
# A request object of `ac_serve` on its connection

What comes from the socket goes to the read buffer of the object, and llhttp calls back with
pieces of it. `on_alloc` clears what is left of the former message, but only if the response to it
was written by then. `on_url` of the user is handed a view of the message.
-/
namespace AnotherC.Requests
open AnotherC.Lib
open AnotherC.Lib.Memory (Memory read write)
open AnotherC.HttpParser
open AnotherC.Chunks (poolReset)
set_option linter.unusedVariables false

/-- Where the read buffer is, where the pool begins, and what an `ac_malloc`ed checkpoint holds that
    was never taken. -/
structure Layout where
  readBuf : Nat
  poolStart : Nat
  garbage : Nat
  apart : readBuf + 8192 < poolStart

/-- The read buffer, and the pool behind it. -/
def behind : Layout := ⟨0,10000,0,by decide⟩

/-- `serve_request_t` with its parser. -/
structure Request where
  lh : LlhttpExt
  url : Buf
  requestCompleted : Bool

/-- What llhttp calls back with; a piece is given by its offset in what was read. -/
inductive Callback where
  | messageBegin
  | url (offset length : Nat)
  | headerField (offset length : Nat)
  | headerValue (offset length : Nat)
  | headersComplete (parser : Parser)
  | body (offset length : Nat)
  | chunkHeader (contentLength : Nat)
  | chunkComplete
  | messageComplete
deriving Repr, DecidableEq

/-- The pieces handed out lie in what was read. -/
def Inside (n : Nat) : Callback → Prop
  | .url offset length => offset + length ≤ n
  | .headerField offset length => offset + length ≤ n
  | .headerValue offset length => offset + length ≤ n
  | .body offset length => offset + length ≤ n
  | _ => True

/-- A message as a callback of the user sees it. -/
structure View where
  url : List UInt8
  headers : List (List UInt8 × List UInt8)
  body : List UInt8
  contentLength : Nat
  httpMajor : Nat
  httpMinor : Nat
  method : Nat
  keepAlive : Nat
deriving Repr, DecidableEq

instance (n : Nat) : (c : Callback) → Decidable (Inside n c)
  | .url _ _ => inferInstanceAs (Decidable (_ ≤ _))
  | .headerField _ _ => inferInstanceAs (Decidable (_ ≤ _))
  | .headerValue _ _ => inferInstanceAs (Decidable (_ ≤ _))
  | .body _ _ => inferInstanceAs (Decidable (_ ≤ _))
  | .messageBegin => .isTrue trivial
  | .headersComplete _ => .isTrue trivial
  | .chunkHeader _ => .isTrue trivial
  | .chunkComplete => .isTrue trivial
  | .messageComplete => .isTrue trivial

/-- A user who answers nothing. -/
def silent : View → List UInt8 := fun _ => []

/-- The calls of the user's callbacks. -/
inductive Out where
  | url (view : View)
  | chunk (view : View)
  | chunksComplete
deriving Repr, DecidableEq

/-! ## The callbacks -/

def view (r : Request) : View where
  url := contents r.lh r.url
  headers := r.lh.headers.map fun h => (contents r.lh h.1,contents r.lh h.2)
  body := contents r.lh r.lh.body
  contentLength := r.lh.contentLength
  httpMajor := r.lh.httpMajor
  httpMinor := r.lh.httpMinor
  method := r.lh.method
  keepAlive := r.lh.keepAlive

def copyBuf (st : Store) (source length : Nat) : Buf × Store :=
  let (base,st) := ualloc st (length + 1)
  let st := memcpy st base source length
  (⟨base,length⟩,poke st (base + length) 0)

def onUrl (r : Request) (source length : Nat) : Request :=
  let (url,store) := if r.url.len = 0 then copyBuf r.lh.store source length else setBuf r.lh.store r.url source length
  { r with lh := { r.lh with store := store }, url := url }

/-- The NUL behind a body that lies in the read buffer, for as long as a callback runs. -/
def terminateBody (r : Request) : Request :=
  if r.lh.body.len > 0 ∧ r.lh.bodyTerminated = false then
    { r with lh := { r.lh with store := poke r.lh.store (r.lh.body.base + r.lh.body.len) 0 } }
  else r

/-- `serve_request_on_url`; `respond` is what the user puts into the pool. -/
def serveRequestOnUrl (respond : View → List UInt8) (r : Request) : Request × List Out :=
  let seen := view (terminateBody r)
  let (p,store) := ualloc r.lh.store (respond seen).length
  ({ r with lh := { r.lh with store := { store with byte := write store.byte p (respond seen) } } },[.url seen])

/-- `serve_request_on_chunks_complete`. -/
def serveRequestOnChunksComplete (r : Request) : Request × List Out :=
  ({ r with requestCompleted := true },[.chunksComplete])

def onChunkHeader (layout : Layout) (r : Request) (contentLength : Nat) : Request × List Out :=
  let r := { r with lh := { r.lh with
    chunked := true
    contentLength := contentLength
    bodyLen := 0
    bodyPtr := 0
    bodyTerminated := false
    body := ⟨0,0⟩
    store := poolReset layout.garbage r.lh.store r.lh.checkpoint } }
  if contentLength = 0 then serveRequestOnChunksComplete r else (r,[])

def onChunkComplete (r : Request) : Request × List Out :=
  let out := if r.lh.body.len > 0 ∧ r.lh.chunked then [.chunk (view (terminateBody r))] else []
  ({ r with lh := { r.lh with body := { r.lh.body with len := 0 } } },out)

def onMessageComplete (respond : View → List UInt8) (r : Request) : Request × List Out :=
  if r.lh.chunked then serveRequestOnChunksComplete r else serveRequestOnUrl respond r

def callback (layout : Layout) (respond : View → List UInt8) (r : Request) : Callback → Request × List Out
  | .messageBegin => (r,[])
  | .url offset length => (onUrl r (layout.readBuf + offset) length,[])
  | .headerField offset length => ({ r with lh := onHeaderKey r.lh (layout.readBuf + offset) length },[])
  | .headerValue offset length => ({ r with lh := onHeaderValue r.lh (layout.readBuf + offset) length },[])
  | .headersComplete parser => ({ r with lh := onHeadersComplete r.lh parser },[])
  | .body offset length => ({ r with lh := onBody r.lh (layout.readBuf + offset) length },[])
  | .chunkHeader contentLength => onChunkHeader layout r contentLength
  | .chunkComplete => onChunkComplete r
  | .messageComplete => onMessageComplete respond r

/-- The callbacks of one `llhttp_execute`. -/
def callbacks (layout : Layout) (respond : View → List UInt8) (r : Request) : List Callback → Request × List Out
  | [] => (r,[])
  | c :: rest =>
    let (r,out) := callback layout respond r c
    let (r,more) := callbacks layout respond r rest
    (r,out ++ more)

/-! ## The connection -/

/-- The request of a new object, `ac_serve_request_init` with an empty free list; `byte` is what the
    memory holds. -/
def acServeRequestInit (layout : Layout) (byte : Memory) : Request where
  lh :=
    { store := ⟨byte,layout.poolStart⟩
      headers := []
      body := ⟨0,0⟩
      contentLength := 0
      httpMajor := 0
      httpMinor := 0
      method := 0
      statusCode := 0
      keepAlive := 0
      chunked := false
      headerKey := ⟨0,0⟩
      headerValue := ⟨0,0⟩
      lastWasValue := false
      bodyPtr := 0
      bodyLen := 0
      bodyTerminated := false
      checkpoint := none }
  url := ⟨0,0⟩
  requestCompleted := true

/-- `ac_http_parser_clear`; the checkpoint and the state of llhttp stay. -/
def acHttpParserClear (layout : Layout) (r : Request) : Request :=
  { r with
    url := ⟨0,0⟩
    lh := { r.lh with
      store := { r.lh.store with next := layout.poolStart }
      headers := []
      body := ⟨0,0⟩
      contentLength := 0
      httpMajor := 0
      httpMinor := 0
      method := 0
      statusCode := 0
      keepAlive := 0
      chunked := false
      headerKey := ⟨0,0⟩
      headerValue := ⟨0,0⟩
      lastWasValue := false
      bodyPtr := 0
      bodyLen := 0
      bodyTerminated := false } }

def serveRequestClear (layout : Layout) (r : Request) : Request :=
  acHttpParserClear layout { r with requestCompleted := false }

def onAlloc (layout : Layout) (r : Request) : Request :=
  if r.requestCompleted then serveRequestClear layout r else r

/-- What is read, into the read buffer. -/
def receive (layout : Layout) (r : Request) (bytes : List UInt8) : Request :=
  { r with lh := { r.lh with store := { r.lh.store with byte := write r.lh.store.byte layout.readBuf bytes } } }

/-- `after_last_write`, but for what it does to the connection. -/
def afterLastWrite (r : Request) : Request := { r with requestCompleted := true }

/-! ## What `on_body` does -/

section
variable {lh : LlhttpExt} {source length : Nat}

theorem onBody_changes (lh : LlhttpExt) (source length : Nat) : ∃ store body ptr len terminated,
    onBody lh source length =
      { lh with store := store, body := body, bodyPtr := ptr, bodyLen := len, bodyTerminated := terminated } := by
  unfold onBody
  split
  · split
    · exact ⟨_,_,_,_,_,rfl⟩
    · exact ⟨_,_,_,_,_,rfl⟩
  · split
    · exact ⟨_,_,_,_,_,rfl⟩
    · exact ⟨_,_,_,_,_,rfl⟩

/-- The first part of a longer body. -/
theorem onBody_begin (first : lh.body.len = 0) (longer : lh.contentLength > length) :
    onBody lh source length = { lh with
      store := ⟨write (Function.update lh.store.byte (lh.store.next + lh.contentLength) 0) lh.store.next
          (read (Function.update lh.store.byte (lh.store.next + lh.contentLength) 0) source length),
        lh.store.next + (lh.contentLength + 1)⟩
      body := ⟨lh.store.next,lh.contentLength⟩
      bodyPtr := lh.store.next + length
      bodyLen := lh.contentLength - length
      bodyTerminated := true } := by
  rw [onBody,if_pos first,if_pos longer]
  rfl

theorem onBody_whole (first : lh.body.len = 0) (whole : ¬ lh.contentLength > length) :
    onBody lh source length =
      { lh with body := ⟨source,lh.contentLength⟩, bodyTerminated := false, bodyLen := 0 } := by
  rw [onBody,if_pos first,if_neg whole]

theorem onBody_more (begun : lh.body.len ≠ 0) (more : length < lh.bodyLen) :
    onBody lh source length = { lh with
      store := { lh.store with byte := write lh.store.byte lh.bodyPtr (read lh.store.byte source length) }
      bodyLen := lh.bodyLen - length
      bodyPtr := lh.bodyPtr + length } := by
  rw [onBody,if_neg begun,if_pos more]
  rfl

theorem onBody_last (begun : lh.body.len ≠ 0) (last : ¬ length < lh.bodyLen) (left : lh.bodyLen ≠ 0) :
    onBody lh source length = { lh with
      store := { lh.store with byte := write lh.store.byte lh.bodyPtr (read lh.store.byte source lh.bodyLen) }
      bodyLen := 0 } := by
  rw [onBody,if_neg begun,if_neg last,if_pos left]
  rfl

theorem onBody_over (begun : lh.body.len ≠ 0) (none_ : lh.bodyLen = 0) : onBody lh source length = lh := by
  rw [onBody,if_neg begun,if_neg (by omega),if_neg (not_not_intro none_),← none_]

end

end AnotherC.Requests
