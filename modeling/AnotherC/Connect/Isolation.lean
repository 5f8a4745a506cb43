import AnotherC.Connect.Requests
import AnotherC.Lib.Transducer

/-!
# The requests of one connection

What an `on_url` should see is put together by `Phase.step`, of what llhttp hands out; the object of
the connection does the same with buffers (`Sim`), as long as five things go well (`Meets`): nothing
is cleared in the middle of a message, a message begins with nothing of the former one left, a read
leaves the names and values that lie in the read buffer, and so do the NULs behind names, values and
body. Then every `on_url` sees its own request (`requests_own`). When two requests come in one read
the second sees the URL of both (`pipelined_mixed`).
-/
namespace AnotherC.Isolation
open AnotherC.Lib
open AnotherC.Lib.Memory (Memory read write)
open AnotherC.HttpParser (Buf Store Parser LlhttpExt contents setBuf commit onHeaderKey onHeaderValue terminate
  onHeadersComplete onBody Grows setBuf_first setBuf_more ends terminate_byte)
open AnotherC.Requests
set_option linter.unusedVariables false

/-! ## Requests as they are sent -/

/-- What llhttp hands out. -/
inductive Call where
  | messageBegin
  | url (bytes : List UInt8)
  | headerField (bytes : List UInt8)
  | headerValue (bytes : List UInt8)
  | headersComplete (parser : Parser)
  | body (bytes : List UInt8)
  | chunkHeader (contentLength : Nat)
  | chunkComplete
  | messageComplete
deriving Repr, DecidableEq

/-- What comes behind the headers. -/
inductive Content where
  | plain (body : List (List UInt8))
  | chunked (contentLength : Nat) (rest : List Call)
deriving Repr, DecidableEq

/-- A request, in the pieces in which llhttp hands it out. -/
structure Sent where
  url : List (List UInt8)
  headers : List (List (List UInt8) × List (List UInt8))
  parser : Parser
  content : Content
deriving Repr, DecidableEq

def Content.calls : Content → List Call
  | .plain body => body.map .body
  | .chunked contentLength rest => .chunkHeader contentLength :: rest

def headerCalls (h : List (List UInt8) × List (List UInt8)) : List Call :=
  h.1.map .headerField ++ h.2.map .headerValue

/-- All but the last call. -/
def Sent.front (s : Sent) : List Call :=
  .messageBegin :: (s.url.map .url ++ (s.headers.flatMap headerCalls ++ .headersComplete s.parser :: s.content.calls))

def Sent.calls (s : Sent) : List Call := s.front ++ [.messageComplete]

def shown (url : List UInt8) (headers : List (List UInt8 × List UInt8)) (parser : Parser) (body : List UInt8) : View where
  url := url
  headers := headers
  body := body
  contentLength := parser.contentLength
  httpMajor := parser.httpMajor
  httpMinor := parser.httpMinor
  method := parser.method
  keepAlive := parser.keepAlive

/-- What `on_url` should see of the request; there is no `on_url` for a chunked one. -/
def Sent.seen (s : Sent) : List View :=
  match s.content with
  | .plain body => [shown s.url.flatten (s.headers.map fun h => (h.1.flatten,h.2.flatten)) s.parser body.flatten]
  | .chunked _ _ => []

/-- The calls while chunks come, and the header lines behind them. -/
def InChunks : Call → Prop
  | .body _ => True
  | .chunkHeader _ => True
  | .chunkComplete => True
  | .headerField _ => True
  | .headerValue _ => True
  | _ => False

def Content.Whole (contentLength : Nat) : Content → Prop
  | .plain body => body.flatten.length = contentLength
  | .chunked _ rest => ∀ c ∈ rest, InChunks c

/-- There is a URL, every header has a name and a call for its value, and the body is as long as was
    said. -/
structure WellFormed (s : Sent) : Prop where
  url : s.url.flatten ≠ []
  headers : ∀ h ∈ s.headers, h.1.flatten ≠ [] ∧ h.2 ≠ []
  content : s.content.Whole s.parser.contentLength

/-! ## The connection -/

/-- What happens on a connection; `callbacks` are those of `llhttp_execute` for what was read. -/
inductive Event where
  | read (bytes : List UInt8) (callbacks : List Callback)
  | nothing
  | written
deriving Repr, DecidableEq

def piece (bytes : List UInt8) (offset length : Nat) : List UInt8 := (bytes.drop offset).take length

/-- A callback with the bytes that came. -/
def handed (bytes : List UInt8) : Callback → Call
  | .messageBegin => .messageBegin
  | .url offset length => .url (piece bytes offset length)
  | .headerField offset length => .headerField (piece bytes offset length)
  | .headerValue offset length => .headerValue (piece bytes offset length)
  | .headersComplete parser => .headersComplete parser
  | .body offset length => .body (piece bytes offset length)
  | .chunkHeader contentLength => .chunkHeader contentLength
  | .chunkComplete => .chunkComplete
  | .messageComplete => .messageComplete

def Event.calls : Event → List Call
  | .read bytes callbacks => callbacks.map (handed bytes)
  | .nothing => []
  | .written => []

/-- A read fills the read buffer at most, and the pieces lie in what was read. -/
def Event.Fits : Event → Prop
  | .read bytes callbacks => bytes.length ≤ 8192 ∧ ∀ c ∈ callbacks, Inside bytes.length c
  | .nothing => True
  | .written => True

instance : (event : Event) → Decidable event.Fits
  | .read _ _ => inferInstanceAs (Decidable (_ ∧ _))
  | .nothing => .isTrue trivial
  | .written => .isTrue trivial

variable (layout : Layout) (respond : View → List UInt8)

def step (r : Request) : Event → Request × List Out
  | .read bytes cs => callbacks layout respond (receive layout (onAlloc layout r) bytes) cs
  | .nothing => (onAlloc layout r,[])
  | .written => (afterLastWrite r,[])

def run (r : Request) : List Event → Request × List Out
  | [] => (r,[])
  | event :: events =>
    let stepped := step layout respond r event
    let rest := run stepped.1 events
    (rest.1,stepped.2 ++ rest.2)

def urlOf : Out → Option View
  | .url view => some view
  | .chunk _ => none
  | .chunksComplete => none

/-- What the calls of `on_url` saw. -/
def urls (out : List Out) : List View := out.filterMap urlOf

def closes (c : Call) : Bool := c == .messageComplete

/-- The requests that are complete in a run. -/
def completed (events : List Event) : Nat := (events.flatMap Event.calls).countP closes

/-! ## What should be seen -/

/-- A message of which the headers are not complete. -/
structure Part where
  url : List UInt8
  headers : List (List UInt8 × List UInt8)
  name : List UInt8
  value : List UInt8
  valued : Bool
deriving Repr, DecidableEq

def Part.empty : Part := ⟨[],[],[],[],false⟩

/-- With the header that is open. -/
def Part.saved (part : Part) : List (List UInt8 × List UInt8) :=
  if part.valued then part.headers ++ [(part.name,part.value)] else part.headers

inductive Phase where
  | idle
  | head (part : Part)
  | content (url : List UInt8) (headers : List (List UInt8 × List UInt8)) (parser : Parser) (came : List UInt8)
  | chunks
deriving Repr, DecidableEq

/-- The order of the calls, and what they make of a message. -/
def Phase.step : Phase → Call → Option (Phase × List View)
  | .idle,.messageBegin => some (.head Part.empty,[])
  | .head part,.url bytes => some (.head { part with url := part.url ++ bytes },[])
  | .head part,.headerField bytes =>
    if part.valued = false then some (.head { part with name := part.name ++ bytes, value := [] },[])
    else if part.name = [] then none
    else some (.head { part with headers := part.saved, name := bytes, value := [], valued := false },[])
  | .head part,.headerValue bytes => some (.head { part with value := part.value ++ bytes, valued := true },[])
  | .head part,.headersComplete parser =>
    if part.url = [] ∨ (part.valued = true ∧ part.name = []) then none
    else some (.content part.url part.saved parser [],[])
  | .content url headers parser came,.body bytes =>
    if came.length + bytes.length ≤ parser.contentLength then some (.content url headers parser (came ++ bytes),[]) else none
  | .content url headers parser came,.chunkHeader _ => some (.chunks,[])
  | .content url headers parser came,.messageComplete =>
    if came.length = parser.contentLength then some (.idle,[shown url headers parser came]) else none
  | .chunks,.body _ => some (.chunks,[])
  | .chunks,.chunkHeader _ => some (.chunks,[])
  | .chunks,.chunkComplete => some (.chunks,[])
  | .chunks,.headerField _ => some (.chunks,[])
  | .chunks,.headerValue _ => some (.chunks,[])
  | .chunks,.messageComplete => some (.idle,[])
  | _,_ => none

/-! ## When it goes well -/

/-- A NUL at `a` is in none of the buffers, or nothing new. -/
def Harmless (byte : Memory) (bufs : List Buf) (a : Nat) : Prop :=
  byte a = 0 ∨ ∀ b ∈ bufs, a < b.base ∨ b.base + b.len ≤ a

/-- The headers when the last one is saved. -/
def saved (lh : LlhttpExt) : List (Buf × Buf) :=
  if lh.headerKey.len > 0 ∧ lh.headerValue.len > 0 then lh.headers ++ [(lh.headerKey,lh.headerValue)] else lh.headers

def parts (url : Buf) (headers : List (Buf × Buf)) : List Buf := url :: headers.flatMap fun h => [h.1,h.2]

/-- What is there of a message. -/
def inUse (r : Request) : List Buf :=
  r.lh.headerKey :: r.lh.headerValue :: ⟨r.lh.body.base,r.lh.body.len - r.lh.bodyLen⟩ :: parts r.url r.lh.headers

/-- Where the piece lies that is handed out. -/
def pieceOf : Callback → Option Buf
  | .url offset length => some ⟨layout.readBuf + offset,length⟩
  | .headerField offset length => some ⟨layout.readBuf + offset,length⟩
  | .headerValue offset length => some ⟨layout.readBuf + offset,length⟩
  | .body offset length => some ⟨layout.readBuf + offset,length⟩
  | _ => none

/-- A message begins with no URL of the former one; the last header has a value, and the NULs behind the
    headers hurt neither them nor what is still to come of this read, and the NUL behind a body in the
    read buffer does not hurt the headers. -/
def Allows (r : Request) (rest : List Callback) : Callback → Prop
  | .messageBegin => r.url.len = 0
  | .headersComplete _ =>
    (r.lh.lastWasValue = true → r.lh.headerValue.len ≠ 0) ∧
      ∀ a ∈ ends (saved r.lh), Harmless r.lh.store.byte (parts r.url (saved r.lh) ++ rest.filterMap (pieceOf layout)) a
  | .messageComplete =>
    r.lh.chunked = false → r.lh.body.len > 0 ∧ r.lh.bodyTerminated = false →
      Harmless r.lh.store.byte (parts r.url r.lh.headers) (r.lh.body.base + r.lh.body.len)
  | _ => True

def AllAllow (r : Request) : List Callback → Prop
  | [] => True
  | c :: rest => Allows layout r rest c ∧ AllAllow (callback layout respond r c).1 rest

def UnderWay : Phase → Bool
  | .idle => false
  | .head _ => true
  | .content _ _ _ _ => true
  | .chunks => false

/-- `on_alloc` does not clear what came of a message. -/
def Clears (r : Request) (phase : Phase) : Prop :=
  r.requestCompleted = true → phase = .idle ∨ phase = .head Part.empty

/-- A read leaves what is there of a message. -/
def Leaves (r : Request) (bytes : List UInt8) : Prop :=
  ∀ b ∈ inUse r, read (write r.lh.store.byte layout.readBuf bytes) b.base b.len = read r.lh.store.byte b.base b.len

def Goes (r : Request) (phase : Phase) : Event → Prop
  | .read bytes cs => Clears r phase ∧ (UnderWay phase = true → Leaves layout (onAlloc layout r) bytes) ∧
      AllAllow layout respond (receive layout (onAlloc layout r) bytes) cs
  | .nothing => Clears r phase
  | .written => True

def after (phase : Phase) (calls : List Call) : Phase :=
  ((Transducer.run Phase.step phase calls).map Prod.fst).getD phase

/-- It goes well in every step of a run. -/
def Meets (r : Request) (phase : Phase) : List Event → Prop
  | [] => True
  | event :: events => Goes layout respond r phase event ∧ Meets (step layout respond r event).1 (after phase event.calls) events

instance (byte : Memory) (bufs : List Buf) (a : Nat) : Decidable (Harmless byte bufs a) :=
  inferInstanceAs (Decidable (_ ∨ _))

instance (r : Request) (rest : List Callback) : (c : Callback) → Decidable (Allows layout r rest c)
  | .messageBegin => inferInstanceAs (Decidable (r.url.len = 0))
  | .headersComplete _ => inferInstanceAs (Decidable (_ ∧ _))
  | .messageComplete => inferInstanceAs (Decidable (_ → _))
  | .url _ _ => .isTrue trivial
  | .headerField _ _ => .isTrue trivial
  | .headerValue _ _ => .isTrue trivial
  | .body _ _ => .isTrue trivial
  | .chunkHeader _ => .isTrue trivial
  | .chunkComplete => .isTrue trivial

instance decideAllAllow (r : Request) : (cs : List Callback) → Decidable (AllAllow layout respond r cs)
  | [] => .isTrue trivial
  | c :: rest =>
    have := decideAllAllow (callback layout respond r c).1 rest
    inferInstanceAs (Decidable (_ ∧ _))

instance (r : Request) (phase : Phase) : (event : Event) → Decidable (Goes layout respond r phase event)
  | .read _ _ => inferInstanceAs (Decidable ((_ → _) ∧ (_ → ∀ b ∈ inUse _, _) ∧ _))
  | .nothing => inferInstanceAs (Decidable (_ → _))
  | .written => .isTrue trivial

instance decideMeets (r : Request) (phase : Phase) : (events : List Event) → Decidable (Meets layout respond r phase events)
  | [] => .isTrue trivial
  | event :: events =>
    have := decideMeets (step layout respond r event).1 (after phase event.calls) events
    inferInstanceAs (Decidable (_ ∧ _))

/-! ## Messages as the calls put them together -/

theorem run_urls (part : Part) (url : List (List UInt8)) :
    Transducer.run Phase.step (.head part) (url.map .url) = some (.head { part with url := part.url ++ url.flatten },[]) := by
  induction url generalizing part with
  | nil =>
    rw [List.flatten_nil,List.append_nil]
    rfl
  | cons bytes url ih =>
    have rest := ih { part with url := part.url ++ bytes }
    rw [List.append_assoc] at rest
    have first : Phase.step (.head part) (.url bytes) = some (.head { part with url := part.url ++ bytes },[]) := rfl
    exact Transducer.run_cons first rest

theorem run_name (part : Part) (name : List (List UInt8)) (valued : part.valued = false) (value : part.value = []) :
    Transducer.run Phase.step (.head part) (name.map .headerField) =
      some (.head { part with name := part.name ++ name.flatten },[]) := by
  induction name generalizing part with
  | nil =>
    rw [List.flatten_nil,List.append_nil]
    rfl
  | cons bytes name ih =>
    have rest := ih { part with name := part.name ++ bytes } valued value
    rw [List.append_assoc] at rest
    have first : Phase.step (.head part) (.headerField bytes) = some (.head { part with name := part.name ++ bytes },[]) := by
      rw [Phase.step,if_pos valued,← value]
    exact Transducer.run_cons first rest

theorem run_value (part : Part) (value : List (List UInt8)) (some_ : value ≠ []) :
    Transducer.run Phase.step (.head part) (value.map .headerValue) =
      some (.head { part with value := part.value ++ value.flatten, valued := true },[]) := by
  induction value generalizing part with
  | nil => exact absurd rfl some_
  | cons bytes value ih =>
    have first : Phase.step (.head part) (.headerValue bytes) =
        some (.head { part with value := part.value ++ bytes, valued := true },[]) := rfl
    by_cases last : value = []
    · rw [last,List.flatten_cons,List.flatten_nil,List.append_nil]
      exact Transducer.run_cons first (Transducer.run_nil _)
    · have rest := ih { part with value := part.value ++ bytes, valued := true } last
      rw [List.append_assoc] at rest
      exact Transducer.run_cons first rest

/-- The headers so far, with the open one; none has an empty name. -/
structure Ready (part : Part) (headers : List (List UInt8 × List UInt8)) : Prop where
  saved : part.saved = headers
  name : part.valued = true → part.name ≠ []
  none_ : part.valued = false → part.name = [] ∧ part.value = []

theorem run_header {part : Part} {headers : List (List UInt8 × List UInt8)} (ready : Ready part headers)
    (h : List (List UInt8) × List (List UInt8)) (name : h.1.flatten ≠ []) (value : h.2 ≠ []) :
    ∃ part', Transducer.run Phase.step (.head part) (headerCalls h) = some (.head part',[]) ∧ part'.url = part.url ∧
      Ready part' (headers ++ [(h.1.flatten,h.2.flatten)]) := by
  obtain ⟨names,values⟩ := h
  cases names with
  | nil => exact absurd rfl name
  | cons first names =>
    have begun : Phase.step (.head part) (.headerField first) =
        some (.head { part with headers := headers, name := first, value := [], valued := false },[]) := by
      rw [Phase.step]
      by_cases valued : part.valued = true
      · rw [if_neg (by rw [valued]; exact Bool.noConfusion),if_neg (ready.name valued),ready.saved]
      · have none_ := Bool.eq_false_iff.mpr valued
        have saved : part.headers = headers := by
          rw [← ready.saved,Part.saved,if_neg valued]
        rw [if_pos none_,(ready.none_ none_).1,saved,none_]
        rfl
    have rest := run_name { part with headers := headers, name := first, value := [], valued := false } names rfl rfl
    have ended := run_value { part with headers := headers, name := first ++ names.flatten, value := [], valued := false }
      values value
    refine ⟨_,Transducer.run_append (Transducer.run_cons begun rest) ended,rfl,rfl,fun _ => name,fun off => ?_⟩
    cases off

theorem run_headers {part : Part} {before : List (List UInt8 × List UInt8)} (ready : Ready part before)
    (headers : List (List (List UInt8) × List (List UInt8))) (whole : ∀ h ∈ headers, h.1.flatten ≠ [] ∧ h.2 ≠ []) :
    ∃ part', Transducer.run Phase.step (.head part) (headers.flatMap headerCalls) = some (.head part',[]) ∧
      part'.url = part.url ∧ Ready part' (before ++ headers.map fun h => (h.1.flatten,h.2.flatten)) := by
  induction headers generalizing part before with
  | nil =>
    refine ⟨part,rfl,rfl,?_⟩
    rw [List.map_nil,List.append_nil]
    exact ready
  | cons h headers ih =>
    obtain ⟨name,value⟩ := whole h (List.mem_cons_self ..)
    obtain ⟨one,first,url,next⟩ := run_header ready h name value
    obtain ⟨all,rest,url',last⟩ := ih next fun k member => whole k (List.mem_cons_of_mem h member)
    refine ⟨all,Transducer.run_append first rest,url'.trans url,?_⟩
    rw [List.append_assoc] at last
    exact last

theorem run_body (url : List UInt8) (headers : List (List UInt8 × List UInt8)) (parser : Parser) (came : List UInt8)
    (body : List (List UInt8)) (fits : came.length + body.flatten.length ≤ parser.contentLength) :
    Transducer.run Phase.step (.content url headers parser came) (body.map .body) =
      some (.content url headers parser (came ++ body.flatten),[]) := by
  induction body generalizing came with
  | nil =>
    rw [List.flatten_nil,List.append_nil]
    rfl
  | cons bytes body ih =>
    rw [List.flatten_cons,List.length_append] at fits
    have rest := ih (came ++ bytes) (by rw [List.length_append]; omega)
    rw [List.append_assoc] at rest
    have first : Phase.step (.content url headers parser came) (.body bytes) =
        some (.content url headers parser (came ++ bytes),[]) := if_pos (by omega)
    exact Transducer.run_cons first rest

theorem run_chunks (rest : List Call) (chunks : ∀ c ∈ rest, InChunks c) :
    Transducer.run Phase.step .chunks rest = some (.chunks,[]) := by
  induction rest with
  | nil => rfl
  | cons c rest ih =>
    have first : Phase.step .chunks c = some (.chunks,[]) := by
      have one := chunks c (List.mem_cons_self ..)
      cases c with
      | body _ => rfl
      | chunkHeader _ => rfl
      | chunkComplete => rfl
      | headerField _ => rfl
      | headerValue _ => rfl
      | messageBegin => exact absurd one id
      | url _ => exact absurd one id
      | headersComplete _ => exact absurd one id
      | messageComplete => exact absurd one id
    exact Transducer.run_cons first (ih fun d member => chunks d (List.mem_cons_of_mem c member))

theorem front_open {s : Sent} (wellFormed : WellFormed s) : ∀ c ∈ s.front, closes c = false := by
  intro c member
  simp only [Sent.front,headerCalls,List.mem_cons,List.mem_append,List.mem_map,List.mem_flatMap] at member
  rcases member with rfl | ⟨_,_,rfl⟩ | ⟨_,_,⟨_,_,rfl⟩ | ⟨_,_,rfl⟩⟩ | rfl | inside
  · rfl
  · rfl
  · rfl
  · rfl
  · rfl
  · have content := wellFormed.content
    cases same : s.content with
    | plain body =>
      rw [same] at inside
      obtain ⟨_,_,rfl⟩ := List.mem_map.mp inside
      rfl
    | chunked contentLength rest =>
      rw [same] at inside content
      rcases List.mem_cons.mp inside with rfl | later
      · rfl
      · have one := content c later
        cases c with
        | messageComplete => exact absurd one id
        | _ => rfl

/-- A request gives what its `on_url` should see. -/
theorem sent_block {s : Sent} (wellFormed : WellFormed s) : Transducer.Block Phase.step .idle closes s.calls s.seen := by
  have begun : Phase.step .idle .messageBegin = some (.head Part.empty,[]) := rfl
  have url := run_urls Part.empty s.url
  have ready : Ready { Part.empty with url := Part.empty.url ++ s.url.flatten } [] := ⟨rfl,Bool.noConfusion,fun _ => ⟨rfl,rfl⟩⟩
  obtain ⟨part,headers,same,complete⟩ := run_headers ready s.headers wellFormed.headers
  have closed : Phase.step (.head part) (.headersComplete s.parser) =
      some (.content s.url.flatten (s.headers.map fun h => (h.1.flatten,h.2.flatten)) s.parser [],[]) := by
    rw [Phase.step,if_neg,same,complete.saved]
    · rfl
    · rintro (none_ | ⟨valued,none_⟩)
      · rw [same] at none_
        exact wellFormed.url none_
      · exact complete.name valued none_
  have content := wellFormed.content
  cases kind : s.content with
  | plain body =>
    rw [kind] at content
    have bodies := run_body s.url.flatten (s.headers.map fun h => (h.1.flatten,h.2.flatten)) s.parser [] body
      (by rw [List.length_nil,Nat.zero_add]; exact Nat.le_of_eq content)
    refine ⟨s.front,.messageComplete,.content s.url.flatten (s.headers.map fun h => (h.1.flatten,h.2.flatten)) s.parser
      body.flatten,rfl,front_open wellFormed,rfl,?_,?_⟩
    · rw [Sent.front,kind]
      exact Transducer.run_cons begun (Transducer.run_append url (Transducer.run_append headers (Transducer.run_cons closed bodies)))
    · rw [Sent.seen,kind]
      exact if_pos content
  | chunked contentLength rest =>
    rw [kind] at content
    refine ⟨s.front,.messageComplete,.chunks,rfl,front_open wellFormed,rfl,?_,?_⟩
    · have chunk : Phase.step (.content s.url.flatten (s.headers.map fun h => (h.1.flatten,h.2.flatten)) s.parser [])
          (.chunkHeader contentLength) = some (.chunks,[]) := rfl
      have chunks := Transducer.run_cons chunk (run_chunks rest content)
      rw [Sent.front,kind]
      exact Transducer.run_cons begun (Transducer.run_append url (Transducer.run_append headers (Transducer.run_cons closed chunks)))
    · rw [Sent.seen,kind]
      rfl

/-! ## Buffers -/

/-- The bytes are in the buffer, below `limit`. -/
structure Holds (byte : Memory) (limit : Nat) (b : Buf) (bytes : List UInt8) : Prop where
  bytes : read byte b.base b.len = bytes
  inside : b.len ≠ 0 → b.base + b.len ≤ limit

section
variable {byte byte' : Memory} {limit : Nat} {b : Buf} {bytes : List UInt8}

theorem Holds.len (holds : Holds byte limit b bytes) : b.len = bytes.length := by
  rw [← holds.bytes,Memory.read_length]

theorem Holds.nil (byte : Memory) (limit : Nat) {b : Buf} (empty : b.len = 0) : Holds byte limit b [] := by
  refine ⟨?_,fun some_ => absurd empty some_⟩
  rw [empty]
  rfl

/-- What is below `limit` stays. -/
theorem Holds.kept {limit' : Nat} (holds : Holds byte limit b bytes) (kept : ∀ a, a < limit → byte' a = byte a)
    (up : limit ≤ limit') : Holds byte' limit' b bytes := by
  by_cases empty : b.len = 0
  · have nothing := holds.bytes
    rw [empty] at nothing
    rw [← nothing]
    exact Holds.nil byte' limit' empty
  · have inside := holds.inside empty
    refine ⟨?_,fun _ => by omega⟩
    rw [← holds.bytes]
    exact Memory.read_congr fun a _ high => kept a (by omega)

theorem Holds.left (holds : Holds byte limit b bytes) (same : read byte' b.base b.len = read byte b.base b.len) :
    Holds byte' limit b bytes := ⟨same.trans holds.bytes,holds.inside⟩

end

theorem setBuf_holds {st : Store} {b : Buf} {bytes : List UInt8} (holds : Holds st.byte st.next b bytes)
    {source length : Nat} (inside : source + length ≤ st.next) :
    Grows st (setBuf st b source length).2 ∧ Holds (setBuf st b source length).2.byte (setBuf st b source length).2.next
      (setBuf st b source length).1 (bytes ++ read st.byte source length) := by
  by_cases some_ : 0 < b.len
  · obtain ⟨_,grows,below,read_,_⟩ := setBuf_more some_ (holds.inside (by omega)) inside
    refine ⟨grows,?_,fun _ => Nat.le_of_lt below⟩
    rw [read_,holds.bytes]
  · have empty : b.len = 0 := by omega
    have nothing : bytes = [] := List.eq_nil_of_length_eq_zero (holds.len.symm.trans empty)
    rw [setBuf_first st empty,nothing]
    exact ⟨Grows.refl st,rfl,fun _ => inside⟩

theorem copyBuf_holds {st : Store} {source length : Nat} (inside : source + length ≤ st.next) :
    Grows st (copyBuf st source length).2 ∧ Holds (copyBuf st source length).2.byte (copyBuf st source length).2.next
      (copyBuf st source length).1 (read st.byte source length) := by
  unfold copyBuf
  simp only [HttpParser.ualloc,HttpParser.memcpy,HttpParser.poke]
  refine ⟨⟨Nat.le_add_right _ _,fun a low => ?_⟩,?_,fun _ => ?_⟩
  · simp only
    rw [Function.update_of_ne (by omega),Memory.write_outside _ (.inl low)]
  · have written := Memory.read_write st.byte st.next (read st.byte source length)
    rw [Memory.read_length] at written
    refine Eq.trans (Memory.read_congr fun a _ high => ?_) written
    simp only at high
    rw [Function.update_of_ne (by omega)]
  · simp only
    omega

/-- The URL and the headers that are saved. -/
structure Head (lh : LlhttpExt) (url : Buf) (limit : Nat) (bytes : List UInt8) (headers : List (List UInt8 × List UInt8)) :
    Prop where
  url : Holds lh.store.byte limit url bytes
  headers : List.Forall₂ (fun (h : Buf × Buf) (hs : List UInt8 × List UInt8) =>
    Holds lh.store.byte limit h.1 hs.1 ∧ Holds lh.store.byte limit h.2 hs.2) lh.headers headers
  low : layout.poolStart ≤ limit
  next : limit ≤ lh.store.next

/-- The object holds what came of a message of which the headers are not complete. -/
structure Open (lh : LlhttpExt) (url : Buf) (part : Part) : Prop where
  head : Head layout lh url lh.store.next part.url part.headers
  name : Holds lh.store.byte lh.store.next lh.headerKey part.name
  value : Holds lh.store.byte lh.store.next lh.headerValue part.value
  valued : lh.lastWasValue = part.valued
  none_ : part.valued = false → part.value = []

/-- The buffer of a piece that is handed out, in the read buffer. -/
structure Lies (lh : LlhttpExt) (source length : Nat) (bytes : List UInt8) : Prop where
  bytes : read lh.store.byte source length = bytes
  low : source + length < layout.poolStart

/-- The body is in its buffer as far as it came; what is missing goes behind it, in its block. -/
structure Begun (lh : LlhttpExt) (limit : Nat) (came : List UInt8) : Prop where
  some_ : lh.body.len ≠ 0
  bytes : read lh.store.byte lh.body.base came.length = came
  left : lh.bodyLen + came.length = lh.body.len
  block : lh.bodyLen ≠ 0 → lh.bodyPtr = lh.body.base + came.length ∧ limit ≤ lh.body.base ∧
    lh.body.base + lh.body.len ≤ lh.store.next

/-- The object holds the headers, and the body as far as it came. -/
structure Filling (lh : LlhttpExt) (url : Buf) (bytes : List UInt8) (headers : List (List UInt8 × List UInt8))
    (parser : Parser) (came : List UInt8) : Prop where
  limit : ∃ limit, Head layout lh url limit bytes headers ∧
    (lh.body.len = 0 ∧ came = [] ∨ lh.body.len = parser.contentLength ∧ Begun lh limit came)
  contentLength : lh.contentLength = parser.contentLength
  fields : (lh.httpMajor,lh.httpMinor,lh.method,lh.keepAlive) = (parser.httpMajor,parser.httpMinor,parser.method,parser.keepAlive)
  chunked : lh.chunked = false
  some_ : bytes ≠ []

/-- Nothing of a message is left. -/
structure Cleared (lh : LlhttpExt) : Prop where
  headers : lh.headers = []
  key : lh.headerKey.len = 0
  value : lh.headerValue.len = 0
  valued : lh.lastWasValue = false
  next : layout.poolStart ≤ lh.store.next

/-- What the object holds in a phase. -/
def Sim (lh : LlhttpExt) (url : Buf) : Phase → Prop
  | .idle => url.len = 0 → Cleared layout lh
  | .head part => Open layout lh url part
  | .content bytes headers parser came => Filling layout lh url bytes headers parser came
  | .chunks => lh.chunked = true ∧ url.len ≠ 0

section
variable {layout respond}

theorem Head.kept {lh lh' : LlhttpExt} {url : Buf} {limit limit' : Nat} {bytes : List UInt8}
    {headers : List (List UInt8 × List UInt8)} (head : Head layout lh url limit bytes headers)
    (same : lh'.headers = lh.headers) (kept : ∀ a, a < limit → lh'.store.byte a = lh.store.byte a) (up : limit ≤ limit')
    (next : limit' ≤ lh'.store.next) : Head layout lh' url limit' bytes headers where
  url := head.url.kept kept up
  headers := by
    rw [same]
    exact head.headers.imp fun h hs both => ⟨both.1.kept kept up,both.2.kept kept up⟩
  low := Nat.le_trans head.low up
  next := next

/-- The same buffers read the same. -/
theorem Head.left {lh lh' : LlhttpExt} {url : Buf} {limit : Nat} {bytes : List UInt8}
    {headers : List (List UInt8 × List UInt8)} (head : Head layout lh url limit bytes headers)
    (same : lh'.headers = lh.headers)
    (left : ∀ b ∈ parts url lh.headers, read lh'.store.byte b.base b.len = read lh.store.byte b.base b.len)
    (next : limit ≤ lh'.store.next) : Head layout lh' url limit bytes headers where
  url := head.url.left (left url (List.mem_cons_self ..))
  headers := by
    have each : ∀ h ∈ lh.headers, read lh'.store.byte h.1.base h.1.len = read lh.store.byte h.1.base h.1.len ∧
        read lh'.store.byte h.2.base h.2.len = read lh.store.byte h.2.base h.2.len := by
      intro h member
      have one (b : Buf) (part : b ∈ [h.1,h.2]) : b ∈ parts url lh.headers :=
        List.mem_cons_of_mem url (List.mem_flatMap.mpr ⟨h,member,part⟩)
      exact ⟨left h.1 (one h.1 (List.mem_cons_self ..)),left h.2 (one h.2 (List.mem_cons_of_mem _ (List.mem_cons_self ..)))⟩
    rw [same]
    exact ((List.forall₂_and_left _ _).mpr ⟨each,head.headers⟩).imp fun h hs both =>
      ⟨both.2.1.left both.1.1,both.2.2.left both.1.2⟩
  low := head.low
  next := next

/-! ## The headers come -/

theorem open_url {r : Request} {part : Part} {source length : Nat} {bytes : List UInt8}
    (opened : Open layout r.lh r.url part) (lies : Lies layout r.lh source length bytes) :
    Grows r.lh.store (onUrl r source length).lh.store ∧
      Open layout (onUrl r source length).lh (onUrl r source length).url { part with url := part.url ++ bytes } := by
  have inside : source + length ≤ r.lh.store.next := by
    have low := lies.low
    have pool := opened.head.low
    omega
  have put : ∃ url store, onUrl r source length = { r with lh := { r.lh with store := store }, url := url } ∧
      Grows r.lh.store store ∧ Holds store.byte store.next url (part.url ++ bytes) := by
    unfold onUrl
    by_cases first : r.url.len = 0
    · have nothing : part.url = [] := List.eq_nil_of_length_eq_zero (opened.head.url.len.symm.trans first)
      obtain ⟨grows,holds⟩ := copyBuf_holds inside
      rw [lies.bytes] at holds
      simp only [if_pos first]
      exact ⟨_,_,rfl,grows,by rw [nothing]; exact holds⟩
    · obtain ⟨grows,holds⟩ := setBuf_holds opened.head.url inside
      rw [lies.bytes] at holds
      simp only [if_neg first]
      exact ⟨_,_,rfl,grows,holds⟩
  obtain ⟨url,store,same,grows,holds⟩ := put
  rw [same]
  have head : Head layout { r.lh with store := store } r.url store.next part.url part.headers :=
    opened.head.kept rfl grows.kept grows.next (Nat.le_refl _)
  exact ⟨grows,⟨holds,head.headers,head.low,head.next⟩,opened.name.kept grows.kept grows.next,
    opened.value.kept grows.kept grows.next,opened.valued,opened.none_⟩

theorem open_value {lh : LlhttpExt} {url : Buf} {part : Part} {source length : Nat} {bytes : List UInt8}
    (opened : Open layout lh url part) (lies : Lies layout lh source length bytes) :
    Grows lh.store (onHeaderValue lh source length).store ∧
      Open layout (onHeaderValue lh source length) url { part with value := part.value ++ bytes, valued := true } := by
  have inside : source + length ≤ lh.store.next := by
    have low := lies.low
    have pool := opened.head.low
    omega
  obtain ⟨grows,holds⟩ := setBuf_holds opened.value inside
  rw [lies.bytes] at holds
  refine ⟨grows,?_,?_,holds,rfl,Bool.noConfusion⟩
  · exact opened.head.kept rfl grows.kept grows.next (Nat.le_refl _)
  · exact opened.name.kept grows.kept grows.next

/-- A further piece of the name. -/
theorem open_name {lh : LlhttpExt} {url : Buf} {part : Part} {source length : Nat} {bytes : List UInt8}
    (opened : Open layout lh url part) (lies : Lies layout lh source length bytes) (more : part.valued = false) :
    Grows lh.store (onHeaderKey lh source length).store ∧
      Open layout (onHeaderKey lh source length) url { part with name := part.name ++ bytes, value := [] } := by
  have inside : source + length ≤ lh.store.next := by
    have low := lies.low
    have pool := opened.head.low
    omega
  have stays : commit lh = lh := by
    unfold commit
    rw [if_neg]
    rintro ⟨valued,_⟩
    rw [opened.valued,more] at valued
    cases valued
  obtain ⟨grows,holds⟩ := setBuf_holds opened.name inside
  rw [lies.bytes] at holds
  unfold onHeaderKey
  rw [stays]
  refine ⟨grows,?_,holds,Holds.nil _ _ rfl,more.symm,fun _ => rfl⟩
  exact opened.head.kept rfl grows.kept grows.next (Nat.le_refl _)

/-- The first piece of the next name. -/
theorem open_next {lh : LlhttpExt} {url : Buf} {part : Part} {source length : Nat} {bytes : List UInt8}
    (opened : Open layout lh url part) (lies : Lies layout lh source length bytes) (valued : part.valued = true)
    (name : part.name ≠ []) :
    Grows lh.store (onHeaderKey lh source length).store ∧
      Open layout (onHeaderKey lh source length) url
        { part with headers := part.saved, name := bytes, value := [], valued := false } := by
  have inside : source + length ≤ lh.store.next := by
    have low := lies.low
    have pool := opened.head.low
    omega
  have some_ : lh.headerKey.len > 0 := by
    rw [opened.name.len]
    exact List.length_pos_iff.mpr name
  have saves : lh.lastWasValue = true ∧ lh.headerKey.len > 0 := ⟨opened.valued.trans valued,some_⟩
  unfold onHeaderKey commit
  rw [if_pos saves]
  have first : setBuf lh.store { lh.headerKey with len := 0 } source length = _ := setBuf_first lh.store rfl source length
  dsimp only [HttpParser.saveCurrentHeader]
  rw [first]
  refine ⟨Grows.refl _,⟨opened.head.url,?_,opened.head.low,opened.head.next⟩,⟨lies.bytes,fun _ => inside⟩,Holds.nil _ _ rfl,rfl,
    fun _ => rfl⟩
  rw [Part.saved,if_pos valued]
  exact List.rel_append opened.head.headers (.cons ⟨opened.name,opened.value⟩ .nil)

/-! ## The headers are complete -/

theorem onHeadersComplete_saved (lh : LlhttpExt) (parser : Parser) :
    (onHeadersComplete lh parser).headers = saved lh ∧ (onHeadersComplete lh parser).store = terminate lh.store (saved lh) := by
  unfold onHeadersComplete saved
  split
  · exact ⟨rfl,rfl⟩
  · exact ⟨rfl,rfl⟩

/-- The NULs change nothing that matters. -/
theorem terminate_left {st : Store} {headers : List (Buf × Buf)} {bufs : List Buf}
    (harmless : ∀ a ∈ ends headers, Harmless st.byte bufs a) :
    ∀ b ∈ bufs, read (terminate st headers).byte b.base b.len = read st.byte b.base b.len := by
  intro b member
  refine Memory.read_congr fun a low high => ?_
  rw [terminate_byte]
  by_cases at_ : a ∈ ends headers
  · rw [if_pos at_]
    rcases harmless a at_ with zero | outside
    · exact zero.symm
    · have apart := outside b member
      omega
  · rw [if_neg at_]

/-- The last header is saved when it has a value. -/
theorem Open.saved {lh : LlhttpExt} {url : Buf} {part : Part} (opened : Open layout lh url part)
    (last : lh.lastWasValue = true → lh.headerValue.len ≠ 0) (name : part.valued = true → part.name ≠ []) :
    Head layout { lh with headers := Isolation.saved lh } url lh.store.next part.url part.saved := by
  refine ⟨opened.head.url,?_,opened.head.low,opened.head.next⟩
  unfold Isolation.saved Part.saved
  by_cases valued : part.valued = true
  · have key : lh.headerKey.len > 0 := by
      rw [opened.name.len]
      exact List.length_pos_iff.mpr (name valued)
    have value := last (opened.valued.trans valued)
    rw [if_pos valued,if_pos ⟨key,Nat.pos_of_ne_zero value⟩]
    exact List.rel_append opened.head.headers (.cons ⟨opened.name,opened.value⟩ .nil)
  · have empty : lh.headerValue.len = 0 := by
      rw [opened.value.len,opened.none_ (Bool.eq_false_iff.mpr valued)]
      rfl
    rw [if_neg valued,if_neg fun both => absurd empty (Nat.ne_of_gt both.2)]
    exact opened.head.headers

theorem open_complete {r : Request} {part : Part} {parser : Parser} {rest : List Callback}
    (opened : Open layout r.lh r.url part) (some_ : part.url ≠ []) (name : part.valued = true → part.name ≠ [])
    (allows : Allows layout r rest (.headersComplete parser)) :
    Filling layout (onHeadersComplete r.lh parser) r.url part.url part.saved parser [] ∧
      ∀ b ∈ rest.filterMap (pieceOf layout),
        read (onHeadersComplete r.lh parser).store.byte b.base b.len = read r.lh.store.byte b.base b.len := by
  obtain ⟨last,harmless⟩ := allows
  obtain ⟨headers,store⟩ := onHeadersComplete_saved r.lh parser
  have left := terminate_left harmless
  rw [← store] at left
  refine ⟨⟨⟨r.lh.store.next,?_,.inl ⟨rfl,rfl⟩⟩,rfl,rfl,(Chunks.chunked_never r.lh parser).1,some_⟩,fun b member =>
    left b (List.mem_append_right _ member)⟩
  refine (opened.saved last name).left headers (fun b member => left b (List.mem_append_left _ member)) ?_
  exact Nat.le_of_eq (by rw [store,HttpParser.terminate_next])

/-! ## The body comes -/

theorem Begun.kept {lh lh' : LlhttpExt} {limit : Nat} {came : List UInt8} (begun : Begun lh limit came)
    (same : lh'.body = lh.body ∧ lh'.bodyLen = lh.bodyLen ∧ lh'.bodyPtr = lh.bodyPtr ∧ lh'.store.next = lh.store.next)
    (left : read lh'.store.byte lh.body.base came.length = read lh.store.byte lh.body.base came.length) :
    Begun lh' limit came := by
  obtain ⟨body,len,ptr,next⟩ := same
  refine ⟨?_,?_,?_,?_⟩
  · rw [body]
    exact begun.some_
  · rw [body,left]
    exact begun.bytes
  · rw [body,len]
    exact begun.left
  · rw [body,len,ptr,next]
    exact begun.block

/-- A further piece goes behind what is there. -/
theorem begun_more {lh : LlhttpExt} {limit source length : Nat} {came bytes : List UInt8} (begun : Begun lh limit came)
    (same : read lh.store.byte source length = bytes) (fits : came.length + bytes.length ≤ lh.body.len) :
    Begun (onBody lh source length) limit (came ++ bytes) ∧ (onBody lh source length).body = lh.body ∧
      (onBody lh source length).store.next = lh.store.next ∧
      ∀ a, a < limit → (onBody lh source length).store.byte a = lh.store.byte a := by
  have count : length = bytes.length := by rw [← same,Memory.read_length]
  have left := begun.left
  by_cases none_ : lh.bodyLen = 0
  · have nothing : bytes = [] := List.eq_nil_of_length_eq_zero (by omega)
    rw [onBody_over begun.some_ none_,nothing,List.append_nil]
    exact ⟨begun,rfl,rfl,fun _ _ => rfl⟩
  · obtain ⟨ptr,low,high⟩ := begun.block none_
    have after : read (write lh.store.byte lh.bodyPtr bytes) lh.body.base (came.length + bytes.length) = came ++ bytes := by
      rw [Memory.read_add,Memory.read_write_outside _ (.inl (Nat.le_of_eq ptr.symm)),begun.bytes,← ptr,Memory.read_write]
    by_cases more : length < lh.bodyLen
    · rw [onBody_more begun.some_ more,same]
      refine ⟨⟨begun.some_,?_,?_,fun _ => ⟨?_,low,high⟩⟩,rfl,rfl,fun a below => ?_⟩
      · rw [List.length_append]
        exact after
      · rw [List.length_append]
        simp only
        omega
      · rw [List.length_append]
        simp only
        omega
      · exact Memory.write_outside _ (.inl (by omega))
    · have all : lh.bodyLen = length := by omega
      rw [onBody_last begun.some_ more none_,all,same]
      refine ⟨⟨begun.some_,?_,?_,fun some_ => absurd rfl some_⟩,rfl,rfl,fun a below => ?_⟩
      · rw [List.length_append]
        exact after
      · rw [List.length_append]
        simp only
        omega
      · exact Memory.write_outside _ (.inl (by omega))

/-- The first piece. -/
theorem begun_first {lh : LlhttpExt} {limit source length : Nat} {bytes : List UInt8} (empty : lh.body.len = 0)
    (same : read lh.store.byte source length = bytes) (inside : source + length ≤ lh.store.next)
    (low : limit ≤ lh.store.next) (fits : bytes.length ≤ lh.contentLength) :
    ((onBody lh source length).body.len = 0 ∧ bytes = [] ∨
        (onBody lh source length).body.len = lh.contentLength ∧ Begun (onBody lh source length) limit bytes) ∧
      lh.store.next ≤ (onBody lh source length).store.next ∧
      ∀ a, a < lh.store.next → (onBody lh source length).store.byte a = lh.store.byte a := by
  have count : length = bytes.length := by rw [← same,Memory.read_length]
  by_cases longer : lh.contentLength > length
  · have copied : read (Function.update lh.store.byte (lh.store.next + lh.contentLength) 0) source length = bytes := by
      rw [← same]
      exact Memory.read_congr fun a _ high => Function.update_of_ne (by omega) _ _
    rw [onBody_begin empty longer,copied]
    refine ⟨.inr ⟨rfl,⟨?_,Memory.read_write _ _ _,?_,fun _ => ⟨?_,low,?_⟩⟩⟩,Nat.le_add_right _ _,fun a below => ?_⟩
    · simp only
      omega
    · simp only
      omega
    · rw [count]
    · simp only
      omega
    · simp only
      rw [Memory.write_outside _ (.inl below),Function.update_of_ne (by omega)]
  · have all : lh.contentLength = length := by omega
    rw [onBody_whole empty longer]
    refine ⟨?_,Nat.le_refl _,fun _ _ => rfl⟩
    by_cases none_ : length = 0
    · exact .inl ⟨all.trans none_,List.eq_nil_of_length_eq_zero (count.symm.trans none_)⟩
    · refine .inr ⟨rfl,⟨?_,?_,?_,fun some_ => absurd rfl some_⟩⟩
      · rw [all]
        exact none_
      · rw [← count]
        exact same
      · simp only
        omega

theorem filling_body {lh : LlhttpExt} {url : Buf} {bytes came more : List UInt8} {headers : List (List UInt8 × List UInt8)}
    {parser : Parser} {source length : Nat} (filling : Filling layout lh url bytes headers parser came)
    (lies : Lies layout lh source length more) (fits : came.length + more.length ≤ parser.contentLength) :
    Filling layout (onBody lh source length) url bytes headers parser (came ++ more) ∧
      ∀ a, a < layout.poolStart → (onBody lh source length).store.byte a = lh.store.byte a := by
  obtain ⟨⟨limit,head,body⟩,contentLength,fields,chunked,some_⟩ := filling
  have same : (onBody lh source length).headers = lh.headers ∧ (onBody lh source length).contentLength = lh.contentLength ∧
      (onBody lh source length).chunked = lh.chunked ∧
      ((onBody lh source length).httpMajor,(onBody lh source length).httpMinor,(onBody lh source length).method,
        (onBody lh source length).keepAlive) = (lh.httpMajor,lh.httpMinor,lh.method,lh.keepAlive) := by
    obtain ⟨store,body,ptr,len,terminated,same⟩ := onBody_changes lh source length
    rw [same]
    exact ⟨rfl,rfl,rfl,rfl⟩
  rcases body with ⟨empty,rfl⟩ | ⟨all,begun⟩
  · have inside : source + length ≤ lh.store.next := by
      have low := lies.low
      have pool := head.low
      have next := head.next
      omega
    obtain ⟨first,next,kept⟩ := begun_first empty lies.bytes inside head.next (by rw [contentLength]; exact Nat.le_of_add_left_le fits)
    rw [contentLength] at first
    have kept' := head.kept same.1 (fun a low => kept a (Nat.lt_of_lt_of_le low head.next)) (Nat.le_refl _)
      (Nat.le_trans head.next next)
    refine ⟨⟨⟨limit,kept',first⟩,same.2.1.trans contentLength,same.2.2.2.trans fields,same.2.2.1.trans chunked,some_⟩,fun a low => ?_⟩
    exact kept a (Nat.lt_of_lt_of_le low (Nat.le_trans head.low head.next))
  · obtain ⟨begun',body,next,kept⟩ := begun_more begun lies.bytes (by rw [all]; exact fits)
    have kept' := head.kept same.1 kept (Nat.le_refl _) (by rw [next]; exact head.next)
    refine ⟨⟨⟨limit,kept',.inr ⟨by rw [body]; exact all,begun'⟩⟩,same.2.1.trans contentLength,same.2.2.2.trans fields,
      same.2.2.1.trans chunked,some_⟩,fun a low => ?_⟩
    exact kept a (Nat.lt_of_lt_of_le low head.low)

/-! ## `on_url` -/

theorem terminateBody_changes (r : Request) : ∃ byte, terminateBody r =
    { r with lh := { r.lh with store := { r.lh.store with byte := byte } } } ∧
      ∀ a, a ≠ r.lh.body.base + r.lh.body.len → byte a = r.lh.store.byte a := by
  unfold terminateBody
  split
  · exact ⟨_,rfl,fun a off => Function.update_of_ne off _ _⟩
  · exact ⟨_,rfl,fun a off => rfl⟩

/-- What `on_url` sees of a message that is complete. -/
theorem filling_view {r : Request} {bytes came : List UInt8} {headers : List (List UInt8 × List UInt8)} {parser : Parser}
    {rest : List Callback} (filling : Filling layout r.lh r.url bytes headers parser came) (all : came.length = parser.contentLength)
    (allows : Allows layout r rest .messageComplete) : view (terminateBody r) = shown bytes headers parser came := by
  obtain ⟨⟨limit,head,body⟩,contentLength,fields,chunked,some_⟩ := filling
  have left : ∀ b ∈ parts r.url r.lh.headers,
      read (terminateBody r).lh.store.byte b.base b.len = read r.lh.store.byte b.base b.len := by
    intro b member
    unfold terminateBody
    by_cases sets : r.lh.body.len > 0 ∧ r.lh.bodyTerminated = false
    · rw [if_pos sets]
      refine Memory.read_congr fun a low high => ?_
      by_cases at_ : a = r.lh.body.base + r.lh.body.len
      · rcases allows chunked sets with zero | outside
        · simp only [HttpParser.poke]
          rw [at_,Function.update_self,zero]
        · have apart := outside b member
          omega
      · exact Function.update_of_ne at_ _ _
    · rw [if_neg sets]
  obtain ⟨byte,same,kept⟩ := terminateBody_changes r
  rw [same] at left ⊢
  have head' : Head layout { r.lh with store := { r.lh.store with byte := byte } } r.url limit bytes headers :=
    head.left rfl left head.next
  have read_headers : (r.lh.headers.map fun h => (read byte h.1.base h.1.len,read byte h.2.base h.2.len)) = headers := by
    rw [← List.forall₂_eq_eq_eq,List.forall₂_map_left_iff]
    exact head'.headers.imp fun h hs both => Prod.ext both.1.bytes both.2.bytes
  have read_body : read byte r.lh.body.base r.lh.body.len = came := by
    rcases body with ⟨empty,nothing⟩ | ⟨full,begun⟩
    · rw [empty,nothing]
      rfl
    · rw [full,← all]
      refine Eq.trans (Memory.read_congr fun a low high => kept a ?_) begun.bytes
      omega
  simp only [Prod.mk.injEq] at fields
  obtain ⟨major,minor,method,keepAlive⟩ := fields
  simp only [view,contents,shown,read_headers,read_body,head'.url.bytes,contentLength,major,minor,method,keepAlive]

end

/-! ## One callback -/

/-- The pieces that are still handed out are what came. -/
def Came (bytes : List UInt8) (byte : Memory) (cs : List Callback) : Prop :=
  ∀ c ∈ cs, ∀ b, pieceOf layout c = some b → read byte b.base b.len = piece bytes (b.base - layout.readBuf) b.len

/-- A message may still come from the read buffer. -/
def Reads (url : Buf) : Phase → Prop
  | .idle => url.len = 0
  | .head _ => True
  | .content _ _ _ _ => True
  | .chunks => False

/-- The object and the phase have gone on together. -/
structure Stepped (bytes : List UInt8) (rest : List Callback) (phase : Phase) (views : List View)
    (result : Request × List Out) : Prop where
  sim : Sim layout result.1.lh result.1.url phase
  urls : urls result.2 = views
  came : Reads result.1.url phase → Came layout bytes result.1.lh.store.byte rest

section
variable {layout respond} {bytes : List UInt8} {c : Callback} {rest : List Callback} {r : Request}

theorem Came.tail {byte : Memory} (came : Came layout bytes byte (c :: rest)) : Came layout bytes byte rest :=
  fun d member => came d (List.mem_cons_of_mem c member)

/-- The pieces lie below the pool. -/
theorem piece_low {b : Buf} (fits : bytes.length ≤ 8192) (inside : Inside bytes.length c)
    (at_ : pieceOf layout c = some b) : b.base + b.len < layout.poolStart := by
  have apart := layout.apart
  have all (offset length : Nat) (inside : offset + length ≤ bytes.length)
      (same : some (Buf.mk (layout.readBuf + offset) length) = some b) : b.base + b.len < layout.poolStart := by
    rw [← Option.some.inj same]
    simp only
    omega
  cases c with
  | url offset length => exact all offset length inside at_
  | headerField offset length => exact all offset length inside at_
  | headerValue offset length => exact all offset length inside at_
  | body offset length => exact all offset length inside at_
  | messageBegin => cases at_
  | headersComplete parser => cases at_
  | chunkHeader contentLength => cases at_
  | chunkComplete => cases at_
  | messageComplete => cases at_

theorem Came.kept {byte byte' : Memory} (came : Came layout bytes byte rest) (fits : bytes.length ≤ 8192)
    (inside : ∀ c ∈ rest, Inside bytes.length c) (kept : ∀ a, a < layout.poolStart → byte' a = byte a) :
    Came layout bytes byte' rest := by
  intro c member b at_
  have low := piece_low fits (inside c member) at_
  refine Eq.trans (Memory.read_congr fun a _ high => kept a ?_) (came c member b at_)
  omega

/-- The piece that is handed out lies in the read buffer. -/
theorem Came.lies {lh : LlhttpExt} {offset length : Nat} (came : Came layout bytes lh.store.byte (c :: rest))
    (fits : bytes.length ≤ 8192) (inside : Inside bytes.length c)
    (at_ : pieceOf layout c = some ⟨layout.readBuf + offset,length⟩) :
    Lies layout lh (layout.readBuf + offset) length (piece bytes offset length) := by
  have same := came c (List.mem_cons_self ..) _ at_
  simp only [Nat.add_sub_cancel_left] at same
  exact ⟨same,piece_low fits inside at_⟩

theorem idle_step {phase : Phase} {views : List View} (sim : Sim layout r.lh r.url .idle)
    (moves : Phase.step .idle (handed bytes c) = some (phase,views)) (allows : Allows layout r rest c)
    (came : Reads r.url .idle → Came layout bytes r.lh.store.byte (c :: rest)) :
    Stepped layout bytes rest phase views (callback layout respond r c) := by
  cases c with
  | messageBegin =>
    obtain ⟨rfl,rfl⟩ := Prod.mk.inj (Option.some.inj moves)
    obtain ⟨headers,key,value,valued,next⟩ := sim allows
    refine ⟨⟨⟨Holds.nil _ _ allows,?_,next,Nat.le_refl _⟩,Holds.nil _ _ key,Holds.nil _ _ value,valued,fun _ => rfl⟩,rfl,
      fun _ => (came allows).tail⟩
    show List.Forall₂ _ r.lh.headers []
    rw [headers]
    exact .nil
  | url offset length => cases moves
  | headerField offset length => cases moves
  | headerValue offset length => cases moves
  | headersComplete parser => cases moves
  | body offset length => cases moves
  | chunkHeader contentLength => cases moves
  | chunkComplete => cases moves
  | messageComplete => cases moves

theorem head_step {part : Part} {phase : Phase} {views : List View} (opened : Open layout r.lh r.url part)
    (moves : Phase.step (.head part) (handed bytes c) = some (phase,views)) (allows : Allows layout r rest c)
    (came : Came layout bytes r.lh.store.byte (c :: rest)) (fits : bytes.length ≤ 8192)
    (inside : ∀ d ∈ c :: rest, Inside bytes.length d) :
    Stepped layout bytes rest phase views (callback layout respond r c) := by
  have here := inside c (List.mem_cons_self ..)
  -- what a piece is put to is in the pool
  have grown {st : Store} (grows : Grows r.lh.store st) : Came layout bytes st.byte rest :=
    came.tail.kept fits (fun d member => inside d (List.mem_cons_of_mem c member))
      fun a low => grows.kept a (Nat.lt_of_lt_of_le low opened.head.low)
  cases c with
  | url offset length =>
    obtain ⟨rfl,rfl⟩ := Prod.mk.inj (Option.some.inj moves)
    obtain ⟨grows,after⟩ := open_url opened (came.lies fits here rfl)
    exact ⟨after,rfl,fun _ => grown grows⟩
  | headerField offset length =>
    have lies := came.lies fits here rfl
    by_cases valued : part.valued = false
    · have moved : Phase.step (.head part) (.headerField (piece bytes offset length)) = _ := if_pos valued
      obtain ⟨rfl,rfl⟩ := Prod.mk.inj (Option.some.inj (moved.symm.trans moves))
      obtain ⟨grows,after⟩ := open_name opened lies valued
      exact ⟨after,rfl,fun _ => grown grows⟩
    · by_cases name : part.name = []
      · have moved : Phase.step (.head part) (.headerField (piece bytes offset length)) = none := by
          rw [Phase.step,if_neg valued,if_pos name]
        cases moved.symm.trans moves
      · have moved : Phase.step (.head part) (.headerField (piece bytes offset length)) =
            some (.head { part with headers := part.saved, name := piece bytes offset length, value := [], valued := false },[]) := by
          rw [Phase.step,if_neg valued,if_neg name]
        obtain ⟨rfl,rfl⟩ := Prod.mk.inj (Option.some.inj (moved.symm.trans moves))
        obtain ⟨grows,after⟩ := open_next opened lies (Bool.not_eq_false _ ▸ valued) name
        exact ⟨after,rfl,fun _ => grown grows⟩
  | headerValue offset length =>
    obtain ⟨rfl,rfl⟩ := Prod.mk.inj (Option.some.inj moves)
    obtain ⟨grows,after⟩ := open_value opened (came.lies fits here rfl)
    exact ⟨after,rfl,fun _ => grown grows⟩
  | headersComplete parser =>
    by_cases refused : part.url = [] ∨ (part.valued = true ∧ part.name = [])
    · have moved : Phase.step (.head part) (.headersComplete parser) = none := if_pos refused
      cases moved.symm.trans moves
    · have moved : Phase.step (.head part) (.headersComplete parser) = _ := if_neg refused
      obtain ⟨rfl,rfl⟩ := Prod.mk.inj (Option.some.inj (moved.symm.trans moves))
      rw [not_or,not_and] at refused
      obtain ⟨after,left⟩ := open_complete opened refused.1 refused.2 allows
      refine ⟨after,rfl,fun _ d member b at_ => ?_⟩
      exact (left b (List.mem_filterMap.mpr ⟨d,member,at_⟩)).trans (came.tail d member b at_)
  | messageBegin => cases moves
  | body offset length => cases moves
  | chunkHeader contentLength => cases moves
  | chunkComplete => cases moves
  | messageComplete => cases moves

theorem content_step {url came : List UInt8} {headers : List (List UInt8 × List UInt8)} {parser : Parser} {phase : Phase}
    {views : List View} (filling : Filling layout r.lh r.url url headers parser came)
    (moves : Phase.step (.content url headers parser came) (handed bytes c) = some (phase,views))
    (allows : Allows layout r rest c) (pieces : Came layout bytes r.lh.store.byte (c :: rest)) (fits : bytes.length ≤ 8192)
    (inside : ∀ d ∈ c :: rest, Inside bytes.length d) :
    Stepped layout bytes rest phase views (callback layout respond r c) := by
  have here := inside c (List.mem_cons_self ..)
  have some_ : r.url.len ≠ 0 := by
    obtain ⟨limit,head,_⟩ := filling.limit
    rw [head.url.len]
    exact fun zero => filling.some_ (List.eq_nil_of_length_eq_zero zero)
  cases c with
  | body offset length =>
    by_cases more : came.length + (piece bytes offset length).length ≤ parser.contentLength
    · have moved : Phase.step (.content url headers parser came) (.body (piece bytes offset length)) = _ := if_pos more
      obtain ⟨rfl,rfl⟩ := Prod.mk.inj (Option.some.inj (moved.symm.trans moves))
      obtain ⟨after,kept⟩ := filling_body filling (pieces.lies fits here rfl) more
      exact ⟨after,rfl,fun _ => pieces.tail.kept fits (fun d member => inside d (List.mem_cons_of_mem _ member)) kept⟩
    · have moved : Phase.step (.content url headers parser came) (.body (piece bytes offset length)) = none := if_neg more
      cases moved.symm.trans moves
  | chunkHeader contentLength =>
    obtain ⟨rfl,rfl⟩ := Prod.mk.inj (Option.some.inj moves)
    refine ⟨?_,?_,fun never => absurd never id⟩
    · unfold callback onChunkHeader
      dsimp only
      split
      · exact ⟨rfl,some_⟩
      · exact ⟨rfl,some_⟩
    · unfold callback onChunkHeader
      dsimp only
      split
      · rfl
      · rfl
  | messageComplete =>
    by_cases all : came.length = parser.contentLength
    · have moved : Phase.step (.content url headers parser came) .messageComplete = _ := if_pos all
      obtain ⟨rfl,rfl⟩ := Prod.mk.inj (Option.some.inj (moved.symm.trans moves))
      have seen := filling_view filling all allows
      unfold callback onMessageComplete
      dsimp only
      rw [if_neg (by rw [filling.chunked]; exact Bool.false_ne_true)]
      refine ⟨fun zero => absurd zero some_,?_,fun zero => absurd zero some_⟩
      unfold serveRequestOnUrl
      dsimp only
      rw [seen]
      rfl
    · have moved : Phase.step (.content url headers parser came) .messageComplete = none := if_neg all
      cases moved.symm.trans moves
  | messageBegin => cases moves
  | url offset length => cases moves
  | headerField offset length => cases moves
  | headerValue offset length => cases moves
  | headersComplete parser => cases moves
  | chunkComplete => cases moves

theorem chunks_step {phase : Phase} {views : List View} (sim : Sim layout r.lh r.url .chunks)
    (moves : Phase.step .chunks (handed bytes c) = some (phase,views)) :
    Stepped layout bytes rest phase views (callback layout respond r c) := by
  obtain ⟨chunked,some_⟩ := sim
  cases c with
  | body offset length =>
    obtain ⟨rfl,rfl⟩ := Prod.mk.inj (Option.some.inj moves)
    obtain ⟨store,body,ptr,len,terminated,same⟩ := onBody_changes r.lh (layout.readBuf + offset) length
    refine ⟨⟨?_,some_⟩,rfl,fun never => absurd never id⟩
    unfold callback
    dsimp only
    rw [same]
    exact chunked
  | chunkHeader contentLength =>
    obtain ⟨rfl,rfl⟩ := Prod.mk.inj (Option.some.inj moves)
    refine ⟨?_,?_,fun never => absurd never id⟩
    · unfold callback onChunkHeader
      dsimp only
      split
      · exact ⟨rfl,some_⟩
      · exact ⟨rfl,some_⟩
    · unfold callback onChunkHeader
      dsimp only
      split
      · rfl
      · rfl
  | chunkComplete =>
    obtain ⟨rfl,rfl⟩ := Prod.mk.inj (Option.some.inj moves)
    refine ⟨⟨chunked,some_⟩,?_,fun never => absurd never id⟩
    unfold callback onChunkComplete
    dsimp only
    split
    · rfl
    · rfl
  | headerField offset length =>
    obtain ⟨rfl,rfl⟩ := Prod.mk.inj (Option.some.inj moves)
    refine ⟨⟨?_,some_⟩,rfl,fun never => absurd never id⟩
    unfold callback onHeaderKey commit
    dsimp only
    split
    · exact chunked
    · exact chunked
  | headerValue offset length =>
    obtain ⟨rfl,rfl⟩ := Prod.mk.inj (Option.some.inj moves)
    exact ⟨⟨chunked,some_⟩,rfl,fun never => absurd never id⟩
  | messageComplete =>
    obtain ⟨rfl,rfl⟩ := Prod.mk.inj (Option.some.inj moves)
    unfold callback onMessageComplete
    dsimp only
    rw [if_pos chunked]
    exact ⟨fun zero => absurd zero some_,rfl,fun zero => absurd zero some_⟩
  | messageBegin => cases moves
  | url offset length => cases moves
  | headersComplete parser => cases moves

theorem callback_step {phase phase' : Phase} {views : List View} (sim : Sim layout r.lh r.url phase)
    (moves : Phase.step phase (handed bytes c) = some (phase',views)) (allows : Allows layout r rest c)
    (came : Reads r.url phase → Came layout bytes r.lh.store.byte (c :: rest)) (fits : bytes.length ≤ 8192)
    (inside : ∀ d ∈ c :: rest, Inside bytes.length d) :
    Stepped layout bytes rest phase' views (callback layout respond r c) := by
  cases phase with
  | idle => exact idle_step sim moves allows came
  | head part => exact head_step sim moves allows (came trivial) fits inside
  | content url headers parser sofar => exact content_step sim moves allows (came trivial) fits inside
  | chunks => exact chunks_step sim moves

/-! ## Runs -/

theorem callbacks_run {cs : List Callback} {phase last : Phase} {views : List View} (sim : Sim layout r.lh r.url phase)
    (moves : Transducer.run Phase.step phase (cs.map (handed bytes)) = some (last,views))
    (allow : AllAllow layout respond r cs) (came : Reads r.url phase → Came layout bytes r.lh.store.byte cs)
    (fits : bytes.length ≤ 8192) (inside : ∀ d ∈ cs, Inside bytes.length d) :
    Sim layout (callbacks layout respond r cs).1.lh (callbacks layout respond r cs).1.url last ∧
      urls (callbacks layout respond r cs).2 = views := by
  induction cs generalizing r phase views with
  | nil =>
    obtain ⟨rfl,rfl⟩ := Prod.mk.inj (Option.some.inj moves)
    exact ⟨sim,rfl⟩
  | cons c cs ih =>
    obtain ⟨next,out,more,first,rest,rfl⟩ := Transducer.run_cons_inv moves
    have one : Stepped layout bytes cs next out (callback layout respond r c) :=
      callback_step sim first allow.1 came fits inside
    obtain ⟨after,seen⟩ := ih one.sim rest allow.2 one.came fun d member => inside d (List.mem_cons_of_mem c member)
    refine ⟨after,?_⟩
    rw [callbacks]
    simp only [urls,List.filterMap_append]
    exact congrArg₂ (· ++ ·) one.urls seen

theorem onAlloc_sim {phase : Phase} (sim : Sim layout r.lh r.url phase) (clears : Clears r phase) :
    Sim layout (onAlloc layout r).lh (onAlloc layout r).url phase := by
  unfold onAlloc
  by_cases completed : r.requestCompleted = true
  · rw [if_pos completed]
    rcases clears completed with rfl | rfl
    · exact fun _ => ⟨rfl,rfl,rfl,rfl,Nat.le_refl _⟩
    · exact ⟨⟨Holds.nil _ _ rfl,.nil,Nat.le_refl _,Nat.le_refl _⟩,Holds.nil _ _ rfl,Holds.nil _ _ rfl,rfl,fun _ => rfl⟩
  · rw [if_neg completed]
    exact sim

theorem receive_sim {phase : Phase} (sim : Sim layout r.lh r.url phase)
    (leaves : UnderWay phase = true → Leaves layout r bytes) :
    Sim layout (receive layout r bytes).lh (receive layout r bytes).url phase := by
  cases phase with
  | idle =>
    intro zero
    obtain ⟨headers,key,value,valued,next⟩ := sim zero
    exact ⟨headers,key,value,valued,next⟩
  | chunks => exact sim
  | head part =>
    have left := leaves rfl
    have opened : Open layout r.lh r.url part := sim
    refine ⟨opened.head.left rfl (fun b member => left b ?_) (Nat.le_refl _),opened.name.left (left _ ?_),
      opened.value.left (left _ ?_),opened.valued,opened.none_⟩
    · exact List.mem_cons_of_mem _ (List.mem_cons_of_mem _ (List.mem_cons_of_mem _ member))
    · exact List.mem_cons_self ..
    · exact List.mem_cons_of_mem _ (List.mem_cons_self ..)
  | content url headers parser came =>
    have left := leaves rfl
    obtain ⟨⟨limit,head,body⟩,contentLength,fields,chunked,some_⟩ := (sim : Filling layout r.lh r.url url headers parser came)
    have head' : Head layout (receive layout r bytes).lh r.url limit url headers := head.left rfl
      (fun b member => left b (List.mem_cons_of_mem _ (List.mem_cons_of_mem _ (List.mem_cons_of_mem _ member)))) head.next
    refine ⟨⟨limit,head',?_⟩,contentLength,fields,chunked,some_⟩
    rcases body with empty | ⟨all,begun⟩
    · exact .inl empty
    · have sofar := left ⟨r.lh.body.base,r.lh.body.len - r.lh.bodyLen⟩
        (List.mem_cons_of_mem _ (List.mem_cons_of_mem _ (List.mem_cons_self ..)))
      rw [← begun.left,Nat.add_sub_cancel_left] at sofar
      exact .inr ⟨all,begun.kept ⟨rfl,rfl,rfl,rfl⟩ sofar⟩

theorem receive_came (r : Request) {cs : List Callback} (inside : ∀ c ∈ cs, Inside bytes.length c) :
    Came layout bytes (receive layout r bytes).lh.store.byte cs := by
  intro c member b at_
  have here := inside c member
  have all (offset length : Nat) (inside : offset + length ≤ bytes.length)
      (same : some (Buf.mk (layout.readBuf + offset) length) = some b) :
      read (receive layout r bytes).lh.store.byte b.base b.len = piece bytes (b.base - layout.readBuf) b.len := by
    rw [← Option.some.inj same]
    simp only [Nat.add_sub_cancel_left]
    exact Memory.read_write_part _ _ inside
  cases c with
  | url offset length => exact all offset length here at_
  | headerField offset length => exact all offset length here at_
  | headerValue offset length => exact all offset length here at_
  | body offset length => exact all offset length here at_
  | messageBegin => cases at_
  | headersComplete parser => cases at_
  | chunkHeader contentLength => cases at_
  | chunkComplete => cases at_
  | messageComplete => cases at_

theorem step_sim {event : Event} {phase last : Phase} {views : List View} (sim : Sim layout r.lh r.url phase)
    (moves : Transducer.run Phase.step phase event.calls = some (last,views)) (fits : event.Fits)
    (goes : Goes layout respond r phase event) :
    Sim layout (step layout respond r event).1.lh (step layout respond r event).1.url last ∧
      urls (step layout respond r event).2 = views := by
  cases event with
  | nothing =>
    obtain ⟨rfl,rfl⟩ := Prod.mk.inj (Option.some.inj moves)
    exact ⟨onAlloc_sim sim goes,rfl⟩
  | written =>
    obtain ⟨rfl,rfl⟩ := Prod.mk.inj (Option.some.inj moves)
    exact ⟨sim,rfl⟩
  | read bytes cs =>
    obtain ⟨clears,leaves,allow⟩ := goes
    have received := receive_sim (onAlloc_sim sim clears) leaves
    exact callbacks_run received moves allow (fun _ => receive_came _ fits.2) fits.1 fits.2

theorem run_sim {events : List Event} {phase last : Phase} {views : List View} (sim : Sim layout r.lh r.url phase)
    (moves : Transducer.run Phase.step phase (events.flatMap Event.calls) = some (last,views))
    (fits : ∀ event ∈ events, event.Fits) (meets : Meets layout respond r phase events) :
    urls (run layout respond r events).2 = views := by
  induction events generalizing r phase views with
  | nil =>
    obtain ⟨rfl,rfl⟩ := Prod.mk.inj (Option.some.inj moves)
    rfl
  | cons event events ih =>
    rw [List.flatMap_cons] at moves
    obtain ⟨next,out,more,first,rest,rfl⟩ := Transducer.run_append_inv moves
    obtain ⟨goes,later⟩ := meets
    obtain ⟨after_,seen⟩ := step_sim sim first (fits event (List.mem_cons_self ..)) goes
    have here : after phase event.calls = next := by
      rw [after,first]
      rfl
    rw [here] at later
    have tail := ih after_ rest (fun e member => fits e (List.mem_cons_of_mem event member)) later
    rw [run]
    simp only [urls,List.filterMap_append]
    exact congrArg₂ (· ++ ·) seen tail

end

def getParser : Parser := ⟨0,1,1,1,0,0,1⟩

/-- A request for `/a` or `/b`, with the header `H: v`. -/
def getting (name : UInt8) : Sent := ⟨[[47,name]],[([[72]],[[118]])],getParser,.plain []⟩

/-- The bytes of such a request. -/
def gettingBytes (name : UInt8) : List UInt8 :=
  [71,69,84,32,47,name,32,72,84,84,80,47,49,46,49,13,10,72,58,32,118,13,10,13,10]

/-- The callbacks when the request is at `offset`. -/
def gettingCallbacks (offset : Nat) : List Callback :=
  [.messageBegin,.url (offset + 4) 2,.headerField (offset + 17) 1,.headerValue (offset + 20) 1,.headersComplete getParser,
    .messageComplete]

theorem getting_wellFormed (name : UInt8) : WellFormed (getting name) := by
  refine ⟨fun none_ => ?_,?_,rfl⟩
  · cases none_
  · intro h member
    rw [List.mem_singleton.mp member]
    exact ⟨by decide,by decide⟩

theorem both_wellFormed : ∀ s ∈ [getting 97,getting 98], WellFormed s := by
  intro s member
  simp only [List.mem_cons,List.not_mem_nil,or_false] at member
  rcases member with rfl | rfl
  · exact getting_wellFormed 97
  · exact getting_wellFormed 98

/-- The second request comes when the response to the first is written. -/
def oneByOne : List Event :=
  [.read (gettingBytes 97) (gettingCallbacks 0),.written,.read (gettingBytes 98) (gettingCallbacks 0)]

/-- Both requests come in one read. -/
def pipelined : List Event := [.read (gettingBytes 97 ++ gettingBytes 98) (gettingCallbacks 0 ++ gettingCallbacks 25)]

end AnotherC.Isolation
