import AnotherC.Connect.Requests

/-!
# A request object that comes from the free list

`on_close` and `ac_serve_request_init` clear the object, and what they leave is not seen: what the
next connection reads it has written before (`Agree`). But they leave the state of llhttp, which only
`ac_http_parser_init` sets. So the next connection goes as on a new object exactly if llhttp goes on
as from its initial state (`recycled_as_fresh_iff`); after a stream that was rejected it never does
(`rejected_spoils`).
-/
namespace AnotherC.Recycle
open AnotherC.Lib
open AnotherC.Lib.Memory (Memory read write Same Keeps write_same update_same)
open AnotherC.HttpParser
open AnotherC.Requests
set_option linter.unusedVariables false

/-- llhttp: its state after `llhttp_init`, and `llhttp_execute`. -/
structure Llhttp (σ : Type) where
  init : σ
  execute : σ → List UInt8 → σ × List Callback × Bool

/-- A request object with its parser. -/
structure Object (σ : Type) where
  request : Request
  parser : σ

/-- What one event shows: the callbacks of llhttp and those of the user, what `ac_http_parser_data`
    returned, and whether `handle_request_error` found headers. -/
structure Seen where
  callbacks : List Callback
  out : List Out
  result : Option Bool
  error : Option Bool
deriving Repr, DecidableEq

/-- What happens to an object on a connection; nothing may come of a read. -/
inductive Event where
  | read (bytes : List UInt8)
  | nothing
  | written
deriving Repr, DecidableEq

variable {σ : Type} (layout : Layout) (respond : View → List UInt8) (llhttp : Llhttp σ)

/-- `handle_request_error`, what it does to the object. -/
def handleRequestError (r : Request) : Request := { r with lh := { r.lh with keepAlive := 0 } }

def step (o : Object σ) : Event → Object σ × Seen
  | .read bytes =>
    let r := receive layout (onAlloc layout o.request) bytes
    let executed := llhttp.execute o.parser bytes
    let called := callbacks layout respond r executed.2.1
    if executed.2.2 then (⟨called.1,executed.1⟩,⟨executed.2.1,called.2,some true,none⟩)
    else
      (⟨handleRequestError called.1,executed.1⟩,
        ⟨executed.2.1,called.2,some false,some (called.1.lh.headers ≠ [])⟩)
  | .nothing => (⟨onAlloc layout o.request,o.parser⟩,⟨[],[],none,none⟩)
  | .written => (⟨afterLastWrite o.request,o.parser⟩,⟨[],[],none,none⟩)

def run (o : Object σ) : List Event → Object σ × List Seen
  | [] => (o,[])
  | event :: events =>
    let stepped := step layout respond llhttp o event
    let rest := run stepped.1 events
    (rest.1,stepped.2 :: rest.2)

/-- A new object. -/
def created (byte : Memory) : Object σ := ⟨acServeRequestInit layout byte,llhttp.init⟩

/-- `on_close`, and then `ac_serve_request_init` with the object on the free list. -/
def recycle (o : Object σ) : Object σ :=
  let closed := serveRequestClear layout o.request
  ⟨acHttpParserClear layout { closed with requestCompleted := true },o.parser⟩

/-- The objects that there are: new ones, and such that served connections. -/
inductive Handled : Object σ → Prop
  | created (byte : Memory) : Handled (created layout llhttp byte)
  | ran {o : Object σ} (handled : Handled o) (events : List Event) : Handled (run layout respond llhttp o events).1
  | recycled {o : Object σ} (handled : Handled o) : Handled (recycle layout o)

/-- What llhttp does with pieces of a stream. -/
def answers : σ → List (List UInt8) → List (List Callback × Bool)
  | _, [] => []
  | s, bytes :: rest =>
    let executed := llhttp.execute s bytes
    (executed.2.1,executed.2.2) :: answers executed.1 rest

/-- llhttp does the same from both states. -/
def Alike (s t : σ) : Prop := ∀ pieces, answers llhttp s pieces = answers llhttp t pieces

/-- How much of a body or chunk is still to come, and whether it has begun. -/
def coming (state : Option (Nat × Bool)) : Callback → Option (Nat × Bool)
  | .headersComplete parser => some (parser.contentLength,false)
  | .chunkHeader contentLength => some (contentLength,false)
  | .body _ length => state.map fun s => (s.1 - length,true)
  | .messageComplete => none
  | .chunkComplete => none
  | _ => state

/-- A body comes behind the headers or a chunk header, and is complete when its end is called. -/
def Whole (state : Option (Nat × Bool)) : Callback → Prop
  | .body _ _ => state ≠ none
  | .messageComplete => ∀ left, state = some (left,true) → left = 0
  | .chunkComplete => ∀ left, state = some (left,true) → left = 0
  | _ => True

def AllWhole (state : Option (Nat × Bool)) : List Callback → Prop
  | [] => True
  | c :: rest => Whole state c ∧ AllWhole (coming state c) rest

/-- What llhttp promises: pieces of what it was given, bodies of the length that it announced, and that
    an error stays. -/
structure Promises : Prop where
  inside : ∀ s bytes, ∀ c ∈ (llhttp.execute s bytes).2.1, Inside bytes.length c
  whole : ∀ pieces, AllWhole none ((answers llhttp llhttp.init pieces).flatMap Prod.fst)
  failed : ∀ s bytes, (llhttp.execute s bytes).2.2 = false →
    ∀ more, (llhttp.execute (llhttp.execute s bytes).1 more).2 = ([],false)

/-- The object that was recycled shows what a new one shows, whatever is in the memory of the new one
    and whatever comes. -/
def AsFresh (o : Object σ) : Prop :=
  ∀ (byte : Memory) (events : List Event),
    (run layout respond llhttp (recycle layout o) events).2 = (run layout respond llhttp (created layout llhttp byte) events).2

/-! ## Two runs of one object -/

section
variable {layout respond}

/-- The request with another memory. -/
def withByte (r : Request) (m : Memory) : Request := { r with lh := { r.lh with store := { r.lh.store with byte := m } } }

/-- The memory `m` has what the request refers to; of a body that is what came of it. -/
structure Agree (r : Request) (m : Memory) : Prop where
  url : Same r.lh.store.byte m r.url.base r.url.len
  key : Same r.lh.store.byte m r.lh.headerKey.base r.lh.headerKey.len
  value : Same r.lh.store.byte m r.lh.headerValue.base r.lh.headerValue.len
  headers : ∀ h ∈ r.lh.headers, Same r.lh.store.byte m h.1.base h.1.len ∧ Same r.lh.store.byte m h.2.base h.2.len
  body : Same r.lh.store.byte m r.lh.body.base (r.lh.body.len - r.lh.bodyLen)
  ptr : r.lh.bodyLen ≠ 0 → r.lh.body.len ≠ 0 →
    r.lh.bodyPtr = r.lh.body.base + (r.lh.body.len - r.lh.bodyLen) ∧ r.lh.bodyLen ≤ r.lh.body.len

/-- What is missing of the body is what is to come; a body that was cleared away stays empty. -/
structure Paced (state : Option (Nat × Bool)) (lh : LlhttpExt) : Prop where
  begun : lh.body.len ≠ 0 → lh.bodyLen ≠ 0 → state = some (lh.bodyLen,true)
  first : ∀ left, state = some (left,false) → lh.contentLength = left ∨ lh.contentLength = 0
  later : ∀ left, state = some (left,true) → lh.body.len = 0 → lh.contentLength = 0

/-- A callback does the same with both memories. -/
def Twin (r : Request) (m : Memory) (pair pair' : Request × List Out) : Prop :=
  ∃ n, pair' = (withByte pair.1 n,pair.2) ∧ Agree pair.1 n ∧ Keeps r.lh.store.byte m pair.1.lh.store.byte n

theorem setBuf_same (st : Store) (m : Memory) {b : Buf} {source length : Nat} (first : Same st.byte m b.base b.len)
    (second : Same st.byte m source length) :
    ∃ n, setBuf { st with byte := m } b source length =
        ((setBuf st b source length).1,{ (setBuf st b source length).2 with byte := n }) ∧
      Keeps st.byte m (setBuf st b source length).2.byte n ∧
      Same (setBuf st b source length).2.byte n (setBuf st b source length).1.base (setBuf st b source length).1.len := by
  by_cases some_ : b.len > 0
  · obtain ⟨keeps₁,same₁⟩ := write_same st.byte m st.next (read st.byte b.base b.len)
    have source_ := second.keeps keeps₁
    obtain ⟨keeps₂,same₂⟩ := write_same (write st.byte st.next (read st.byte b.base b.len))
      (write m st.next (read st.byte b.base b.len)) (st.next + b.len)
      (read (write st.byte st.next (read st.byte b.base b.len)) source length)
    have keeps₃ := update_same
      (write (write st.byte st.next (read st.byte b.base b.len)) (st.next + b.len)
        (read (write st.byte st.next (read st.byte b.base b.len)) source length))
      (write (write m st.next (read st.byte b.base b.len)) (st.next + b.len)
        (read (write st.byte st.next (read st.byte b.base b.len)) source length)) (st.next + b.len + length) 0
    rw [Memory.read_length] at same₁ same₂
    simp only [setBuf,if_pos some_,ualloc,memcpy,poke,← first.read,← source_.read]
    exact ⟨_,rfl,(keeps₁.trans keeps₂).trans keeps₃,((same₁.keeps keeps₂).append same₂).keeps keeps₃⟩
  · simp only [setBuf,if_neg some_]
    exact ⟨m,rfl,Keeps.refl _ _,second⟩

theorem copyBuf_same (st : Store) (m : Memory) {source length : Nat} (same : Same st.byte m source length) :
    ∃ n, copyBuf { st with byte := m } source length =
        ((copyBuf st source length).1,{ (copyBuf st source length).2 with byte := n }) ∧
      Keeps st.byte m (copyBuf st source length).2.byte n ∧
      Same (copyBuf st source length).2.byte n (copyBuf st source length).1.base (copyBuf st source length).1.len := by
  obtain ⟨keeps₁,same₁⟩ := write_same st.byte m st.next (read st.byte source length)
  have keeps₂ := update_same (write st.byte st.next (read st.byte source length))
    (write m st.next (read st.byte source length)) (st.next + length) 0
  rw [Memory.read_length] at same₁
  simp only [copyBuf,ualloc,memcpy,poke,← same.read]
  exact ⟨_,rfl,keeps₁.trans keeps₂,same₁.keeps keeps₂⟩

/-- What is new agrees, and what a callback leaves alone agrees as before. -/
theorem Agree.keeps {r r' : Request} {m n : Memory} (agree : Agree r m) (keeps : Keeps r.lh.store.byte m r'.lh.store.byte n)
    (url : r'.url = r.url ∨ Same r'.lh.store.byte n r'.url.base r'.url.len)
    (key : r'.lh.headerKey = r.lh.headerKey ∨ Same r'.lh.store.byte n r'.lh.headerKey.base r'.lh.headerKey.len)
    (value : r'.lh.headerValue = r.lh.headerValue ∨ Same r'.lh.store.byte n r'.lh.headerValue.base r'.lh.headerValue.len)
    (headers : ∀ h ∈ r'.lh.headers, h ∈ r.lh.headers ∨ h = (r.lh.headerKey,r.lh.headerValue))
    (body : r'.lh.body = r.lh.body ∧ r'.lh.bodyLen = r.lh.bodyLen ∧ r'.lh.bodyPtr = r.lh.bodyPtr ∨ r'.lh.body.len = 0) :
    Agree r' n where
  url := by
    rcases url with same | new
    · rw [same]
      exact agree.url.keeps keeps
    · exact new
  key := by
    rcases key with same | new
    · rw [same]
      exact agree.key.keeps keeps
    · exact new
  value := by
    rcases value with same | new
    · rw [same]
      exact agree.value.keeps keeps
    · exact new
  headers h member := by
    rcases headers h member with old | saved
    · exact ⟨(agree.headers h old).1.keeps keeps,(agree.headers h old).2.keeps keeps⟩
    · rw [saved]
      exact ⟨agree.key.keeps keeps,agree.value.keeps keeps⟩
  body := by
    rcases body with ⟨same,left,_⟩ | none_
    · rw [same,left]
      exact agree.body.keeps keeps
    · rw [none_,Nat.zero_sub]
      exact Same.empty _ _ _
  ptr := by
    rcases body with ⟨same,left,ptr⟩ | none_
    · rw [same,left,ptr]
      exact agree.ptr
    · exact fun _ some_ => absurd none_ some_

theorem onUrl_twin {r : Request} {m : Memory} (agree : Agree r m) {source length : Nat}
    (same : Same r.lh.store.byte m source length) :
    Twin r m (onUrl r source length,[]) (onUrl (withByte r m) source length,[]) := by
  have old : ∀ h ∈ r.lh.headers, h ∈ r.lh.headers ∨ h = (r.lh.headerKey,r.lh.headerValue) := fun h member => .inl member
  by_cases first : r.url.len = 0
  · obtain ⟨n,copied,keeps,url⟩ := copyBuf_same r.lh.store m same
    unfold onUrl
    simp only [Twin,withByte,if_pos first,copied]
    exact ⟨n,rfl,agree.keeps keeps (.inr url) (.inl rfl) (.inl rfl) old (.inl ⟨rfl,rfl,rfl⟩),keeps⟩
  · obtain ⟨n,copied,keeps,url⟩ := setBuf_same r.lh.store m agree.url same
    unfold onUrl
    simp only [Twin,withByte,if_neg first,copied]
    exact ⟨n,rfl,agree.keeps keeps (.inr url) (.inl rfl) (.inl rfl) old (.inl ⟨rfl,rfl,rfl⟩),keeps⟩

/-- What `commit` does; it does not look at the memory. -/
theorem commit_cases (lh : LlhttpExt) (st : Store) :
    commit { lh with store := st } = { commit lh with store := st } ∧
      ((commit lh).headerKey = lh.headerKey ∨ (commit lh).headerKey.len = 0) ∧
      (∀ h ∈ (commit lh).headers, h ∈ lh.headers ∨ h = (lh.headerKey,lh.headerValue)) ∧
      (commit lh).body = lh.body ∧ (commit lh).bodyLen = lh.bodyLen ∧ (commit lh).bodyPtr = lh.bodyPtr ∧
      (commit lh).store = lh.store := by
  unfold commit
  by_cases saves : lh.lastWasValue = true ∧ lh.headerKey.len > 0
  · rw [if_pos saves,if_pos saves]
    refine ⟨rfl,.inr rfl,fun h member => ?_,rfl,rfl,rfl,rfl⟩
    rcases List.mem_append.mp member with old | last
    · exact .inl old
    · exact .inr (List.mem_singleton.mp last)
  · rw [if_neg saves,if_neg saves]
    exact ⟨rfl,.inl rfl,fun h member => .inl member,rfl,rfl,rfl,rfl⟩

theorem onHeaderKey_twin {r : Request} {m : Memory} (agree : Agree r m) {source length : Nat}
    (same : Same r.lh.store.byte m source length) :
    Twin r m ({ r with lh := onHeaderKey r.lh source length },[])
      ({ withByte r m with lh := onHeaderKey (withByte r m).lh source length },[]) := by
  obtain ⟨committed,key,headers,body,left,ptr,store⟩ := commit_cases r.lh { r.lh.store with byte := m }
  have before : Same r.lh.store.byte m (commit r.lh).headerKey.base (commit r.lh).headerKey.len := by
    rcases key with same_ | empty
    · rw [same_]
      exact agree.key
    · rw [empty]
      exact Same.empty _ _ _
  obtain ⟨n,copied,keeps,after⟩ := setBuf_same r.lh.store m before same
  have other : onHeaderKey (withByte r m).lh source length =
      { onHeaderKey r.lh source length with store := { (onHeaderKey r.lh source length).store with byte := n } } := by
    unfold onHeaderKey
    simp only [withByte,committed,copied,store]
  refine ⟨n,by rw [other]; rfl,agree.keeps ?_ (.inl rfl) (.inr ?_) (.inr (Same.empty _ _ _)) headers
    (.inl ⟨body,left,ptr⟩),?_⟩
  · simpa only [onHeaderKey,store] using keeps
  · simpa only [onHeaderKey,store] using after
  · simpa only [onHeaderKey,store] using keeps

theorem onHeaderValue_twin {r : Request} {m : Memory} (agree : Agree r m) {source length : Nat}
    (same : Same r.lh.store.byte m source length) :
    Twin r m ({ r with lh := onHeaderValue r.lh source length },[])
      ({ withByte r m with lh := onHeaderValue (withByte r m).lh source length },[]) := by
  obtain ⟨n,copied,keeps,value⟩ := setBuf_same r.lh.store m agree.value same
  unfold onHeaderValue
  simp only [Twin,withByte,copied]
  exact ⟨n,rfl,agree.keeps keeps (.inl rfl) (.inl rfl) (.inr value) (fun h member => .inl member)
    (.inl ⟨rfl,rfl,rfl⟩),keeps⟩

theorem terminate_same (st : Store) (m : Memory) (headers : List (Buf × Buf)) :
    ∃ n, terminate { st with byte := m } headers = { terminate st headers with byte := n } ∧
      Keeps st.byte m (terminate st headers).byte n := by
  induction headers generalizing st m with
  | nil => exact ⟨m,rfl,Keeps.refl _ _⟩
  | cons h headers ih =>
    have keeps₁ := update_same st.byte m (h.1.base + h.1.len) 0
    have keeps₂ := update_same (Function.update st.byte (h.1.base + h.1.len) 0)
      (Function.update m (h.1.base + h.1.len) 0) (h.2.base + h.2.len) 0
    obtain ⟨n,same,keeps⟩ := ih (poke (poke st (h.1.base + h.1.len) 0) (h.2.base + h.2.len) 0)
      (Function.update (Function.update m (h.1.base + h.1.len) 0) (h.2.base + h.2.len) 0)
    exact ⟨n,same,(keeps₁.trans keeps₂).trans keeps⟩

/-- What `on_headers_complete` does with the list; it does not look at the memory. -/
theorem onHeadersComplete_cases (lh : LlhttpExt) (m : Memory) (parser : Parser) :
    (onHeadersComplete lh parser).store = terminate lh.store (onHeadersComplete lh parser).headers ∧
      onHeadersComplete { lh with store := { lh.store with byte := m } } parser = { onHeadersComplete lh parser with
        store := terminate { lh.store with byte := m } (onHeadersComplete lh parser).headers } ∧
      ∀ h ∈ (onHeadersComplete lh parser).headers, h ∈ lh.headers ∨ h = (lh.headerKey,lh.headerValue) := by
  have never : ((parser.flags &&& fChunked) == 1) = false := by
    rw [beq_eq_false_iff_ne]
    exact Chunks.flag_ne_one parser.flags
  unfold onHeadersComplete
  simp only [never,Bool.false_eq_true,if_false]
  by_cases saves : lh.headerKey.len > 0 ∧ lh.headerValue.len > 0
  · rw [if_pos saves,if_pos saves]
    refine ⟨rfl,rfl,fun h member => ?_⟩
    rcases List.mem_append.mp member with old | last
    · exact .inl old
    · exact .inr (List.mem_singleton.mp last)
  · rw [if_neg saves,if_neg saves]
    exact ⟨rfl,rfl,fun h member => .inl member⟩

theorem onHeadersComplete_twin {r : Request} {m : Memory} (agree : Agree r m) (parser : Parser) :
    Twin r m ({ r with lh := onHeadersComplete r.lh parser },[])
      ({ withByte r m with lh := onHeadersComplete (withByte r m).lh parser },[]) := by
  obtain ⟨store,other,headers⟩ := onHeadersComplete_cases r.lh m parser
  obtain ⟨n,ended,keeps⟩ := terminate_same r.lh.store m (onHeadersComplete r.lh parser).headers
  rw [← store] at ended keeps
  refine ⟨n,?_,agree.keeps keeps (.inl rfl) (.inr (Same.empty _ _ _)) (.inr (Same.empty _ _ _)) headers (.inr rfl),keeps⟩
  rw [show onHeadersComplete (withByte r m).lh parser = _ from other,ended]
  rfl

theorem onBody_twin {r : Request} {m : Memory} (agree : Agree r m) {source length : Nat}
    (same : Same r.lh.store.byte m source length) :
    Twin r m ({ r with lh := onBody r.lh source length },[])
      ({ withByte r m with lh := onBody (withByte r m).lh source length },[]) := by
  by_cases first : r.lh.body.len = 0
  · by_cases longer : r.lh.contentLength > length
    · have keeps₁ := update_same r.lh.store.byte m (r.lh.store.next + r.lh.contentLength) 0
      have source_ := (same.keeps keeps₁).read
      obtain ⟨keeps₂,same₂⟩ := write_same
        (Function.update r.lh.store.byte (r.lh.store.next + r.lh.contentLength) 0)
        (Function.update m (r.lh.store.next + r.lh.contentLength) 0) r.lh.store.next
        (read (Function.update r.lh.store.byte (r.lh.store.next + r.lh.contentLength) 0) source length)
      rw [Memory.read_length] at same₂
      have keeps := keeps₁.trans keeps₂
      have other : onBody (withByte r m).lh source length = _ := onBody_begin first longer
      rw [other,onBody_begin first longer]
      simp only [Twin,withByte,← source_]
      refine ⟨_,rfl,⟨agree.url.keeps keeps,agree.key.keeps keeps,agree.value.keeps keeps,fun h member =>
        ⟨(agree.headers h member).1.keeps keeps,(agree.headers h member).2.keeps keeps⟩,?_,fun _ _ => ⟨?_,?_⟩⟩,keeps⟩
      · exact same₂.part (Nat.le_refl _) (by simp only; omega)
      · simp only
        omega
      · simp only
        omega
    · have other : onBody (withByte r m).lh source length = _ := onBody_whole first longer
      rw [other,onBody_whole first longer]
      refine ⟨m,rfl,⟨agree.url,agree.key,agree.value,agree.headers,?_,fun none_ => absurd rfl none_⟩,Keeps.refl _ _⟩
      exact same.part (Nat.le_refl _) (by simp only; omega)
  · by_cases left : r.lh.bodyLen = 0
    · have other : onBody (withByte r m).lh source length = _ := onBody_over first left
      rw [other,onBody_over first left]
      exact ⟨m,rfl,agree,Keeps.refl _ _⟩
    · obtain ⟨ptr,inside⟩ := agree.ptr left first
      -- what comes is written behind what has come
      have grown (k : Nat) (part : Same r.lh.store.byte m source k) :
          Keeps r.lh.store.byte m (write r.lh.store.byte r.lh.bodyPtr (read r.lh.store.byte source k))
            (write m r.lh.bodyPtr (read r.lh.store.byte source k)) ∧
          Same (write r.lh.store.byte r.lh.bodyPtr (read r.lh.store.byte source k))
            (write m r.lh.bodyPtr (read r.lh.store.byte source k)) r.lh.body.base
            (r.lh.body.len - r.lh.bodyLen + k) := by
        obtain ⟨keeps,written⟩ := write_same r.lh.store.byte m r.lh.bodyPtr (read r.lh.store.byte source k)
        rw [Memory.read_length] at written
        refine ⟨keeps,(agree.body.keeps keeps).append ?_⟩
        rw [← ptr]
        exact written
      by_cases more : length < r.lh.bodyLen
      · obtain ⟨keeps,filled⟩ := grown length same
        have other : onBody (withByte r m).lh source length = _ := onBody_more first more
        rw [other,onBody_more first more]
        simp only [Twin,withByte,← same.read]
        refine ⟨_,rfl,⟨agree.url.keeps keeps,agree.key.keeps keeps,agree.value.keeps keeps,fun h member =>
          ⟨(agree.headers h member).1.keeps keeps,(agree.headers h member).2.keeps keeps⟩,?_,fun _ _ => ⟨?_,?_⟩⟩,keeps⟩
        · exact filled.part (Nat.le_refl _) (by simp only; omega)
        · simp only
          omega
        · simp only
          omega
      · have part := same.part (Nat.le_refl source) (show source + r.lh.bodyLen ≤ source + length by omega)
        obtain ⟨keeps,filled⟩ := grown r.lh.bodyLen part
        have other : onBody (withByte r m).lh source length = _ := onBody_last first more left
        rw [other,onBody_last first more left]
        simp only [Twin,withByte,← part.read]
        refine ⟨_,rfl,⟨agree.url.keeps keeps,agree.key.keeps keeps,agree.value.keeps keeps,fun h member =>
          ⟨(agree.headers h member).1.keeps keeps,(agree.headers h member).2.keeps keeps⟩,?_,
          fun none_ => absurd rfl none_⟩,keeps⟩
        exact filled.part (Nat.le_refl _) (by simp only; omega)

theorem onChunkHeader_twin {r : Request} {m : Memory} (agree : Agree r m) (contentLength : Nat) :
    Twin r m (onChunkHeader layout r contentLength) (onChunkHeader layout (withByte r m) contentLength) := by
  have kept (r' : Request) (url : r'.url = r.url) (byte : r'.lh.store.byte = r.lh.store.byte)
      (key : r'.lh.headerKey = r.lh.headerKey) (value : r'.lh.headerValue = r.lh.headerValue)
      (headers : r'.lh.headers = r.lh.headers) (body : r'.lh.body.len = 0) :
      Agree r' m ∧ Keeps r.lh.store.byte m r'.lh.store.byte m := by
    have keeps : Keeps r.lh.store.byte m r'.lh.store.byte m := by
      rw [byte]
      exact Keeps.refl _ _
    refine ⟨agree.keeps keeps (.inl url) (.inl key) (.inl value) (fun h member => .inl ?_) (.inr body),keeps⟩
    rw [← headers]
    exact member
  unfold onChunkHeader
  by_cases past : contentLength = 0
  · simp only [if_pos past]
    exact ⟨m,rfl,kept _ rfl rfl rfl rfl rfl rfl⟩
  · simp only [if_neg past]
    exact ⟨m,rfl,kept _ rfl rfl rfl rfl rfl rfl⟩

/-- The NUL behind the body is set in both. -/
theorem terminateBody_twin {r : Request} {m : Memory} (agree : Agree r m) :
    Twin r m (terminateBody r,[]) (terminateBody (withByte r m),[]) := by
  unfold terminateBody
  by_cases sets : r.lh.body.len > 0 ∧ r.lh.bodyTerminated = false
  · have keeps := update_same r.lh.store.byte m (r.lh.body.base + r.lh.body.len) 0
    have other : (withByte r m).lh.body.len > 0 ∧ (withByte r m).lh.bodyTerminated = false := sets
    rw [if_pos sets,if_pos other]
    exact ⟨_,rfl,agree.keeps keeps (.inl rfl) (.inl rfl) (.inl rfl) (fun h member => .inl member)
      (.inl ⟨rfl,rfl,rfl⟩),keeps⟩
  · have other : ¬ ((withByte r m).lh.body.len > 0 ∧ (withByte r m).lh.bodyTerminated = false) := sets
    rw [if_neg sets,if_neg other]
    exact ⟨m,rfl,agree,Keeps.refl _ _⟩

/-- The user sees the same. -/
theorem view_same {r : Request} {m : Memory} (agree : Agree r m) (whole : r.lh.body.len ≠ 0 → r.lh.bodyLen = 0) :
    view (terminateBody (withByte r m)) = view (terminateBody r) := by
  obtain ⟨n,other,ended,_⟩ := terminateBody_twin agree
  have fields : (terminateBody r).lh.body = r.lh.body ∧ (terminateBody r).lh.bodyLen = r.lh.bodyLen := by
    unfold terminateBody
    split
    · exact ⟨rfl,rfl⟩
    · exact ⟨rfl,rfl⟩
  have body : read n (terminateBody r).lh.body.base (terminateBody r).lh.body.len =
      read (terminateBody r).lh.store.byte (terminateBody r).lh.body.base (terminateBody r).lh.body.len := by
    by_cases empty : r.lh.body.len = 0
    · rw [fields.1,empty]
      rfl
    · have same := ended.body
      rw [fields.2,whole empty,Nat.sub_zero] at same
      exact same.read.symm
  rw [show terminateBody (withByte r m) = _ from congrArg Prod.fst other]
  simp only [view,contents,withByte,body,← ended.url.read]
  congr 1
  refine List.map_congr_left fun h member => ?_
  rw [← (ended.headers h member).1.read,← (ended.headers h member).2.read]

theorem onChunkComplete_twin {r : Request} {m : Memory} (agree : Agree r m)
    (whole : r.lh.body.len ≠ 0 → r.lh.bodyLen = 0) :
    Twin r m (onChunkComplete r) (onChunkComplete (withByte r m)) := by
  unfold onChunkComplete
  rw [view_same agree whole]
  exact ⟨m,rfl,agree.keeps (Keeps.refl _ _) (.inl rfl) (.inl rfl) (.inl rfl) (fun h member => .inl member) (.inr rfl),
    Keeps.refl _ _⟩

theorem onMessageComplete_twin {r : Request} {m : Memory} (agree : Agree r m)
    (whole : r.lh.body.len ≠ 0 → r.lh.bodyLen = 0) :
    Twin r m (onMessageComplete respond r) (onMessageComplete respond (withByte r m)) := by
  unfold onMessageComplete
  by_cases chunked : r.lh.chunked = true
  · have other : (withByte r m).lh.chunked = true := chunked
    rw [if_pos chunked,if_pos other]
    exact ⟨m,rfl,agree.keeps (Keeps.refl _ _) (.inl rfl) (.inl rfl) (.inl rfl) (fun h member => .inl member)
      (.inl ⟨rfl,rfl,rfl⟩),Keeps.refl _ _⟩
  · have other : ¬ (withByte r m).lh.chunked = true := chunked
    rw [if_neg chunked,if_neg other]
    unfold serveRequestOnUrl
    rw [view_same agree whole]
    have keeps := (write_same r.lh.store.byte m r.lh.store.next (respond (view (terminateBody r)))).1
    exact ⟨_,rfl,agree.keeps keeps (.inl rfl) (.inl rfl) (.inl rfl) (fun h member => .inl member)
      (.inl ⟨rfl,rfl,rfl⟩),keeps⟩

/-- A body is there in full when the end of its message or chunk is called. -/
theorem Paced.whole {state : Option (Nat × Bool)} {lh : LlhttpExt} (paced : Paced state lh)
    (full : ∀ left, state = some (left,true) → left = 0) : lh.body.len ≠ 0 → lh.bodyLen = 0 := by
  intro some_
  by_contra left
  exact left (full lh.bodyLen (paced.begun some_ left))

theorem callback_twin {r : Request} {m : Memory} {n : Nat} {state : Option (Nat × Bool)} {c : Callback}
    (agree : Agree r m) (same : Same r.lh.store.byte m layout.readBuf n) (inside : Inside n c)
    (paced : Paced state r.lh) (whole : Whole state c) :
    Twin r m (callback layout respond r c) (callback layout respond (withByte r m) c) := by
  have piece {offset length : Nat} (inside : offset + length ≤ n) :
      Same r.lh.store.byte m (layout.readBuf + offset) length := same.part (by omega) (by omega)
  cases c with
  | messageBegin => exact ⟨m,rfl,agree,Keeps.refl _ _⟩
  | url offset length => exact onUrl_twin agree (piece inside)
  | headerField offset length => exact onHeaderKey_twin agree (piece inside)
  | headerValue offset length => exact onHeaderValue_twin agree (piece inside)
  | headersComplete parser => exact onHeadersComplete_twin agree parser
  | body offset length => exact onBody_twin agree (piece inside)
  | chunkHeader contentLength => exact onChunkHeader_twin agree contentLength
  | chunkComplete => exact onChunkComplete_twin agree (paced.whole whole)
  | messageComplete => exact onMessageComplete_twin agree (paced.whole whole)

/-! ## Bodies come in full -/

theorem Paced.same {state : Option (Nat × Bool)} {lh lh' : LlhttpExt} (paced : Paced state lh) (len : lh'.body.len = lh.body.len)
    (left : lh'.bodyLen = lh.bodyLen) (length : lh'.contentLength = lh.contentLength) : Paced state lh' := by
  refine ⟨?_,?_,?_⟩
  · rw [len,left]
    exact paced.begun
  · rw [length]
    exact paced.first
  · rw [len,length]
    exact paced.later

theorem Paced.cleared {lh : LlhttpExt} (len : lh.body.len = 0) (length : lh.contentLength = 0)
    (state : Option (Nat × Bool)) : Paced state lh :=
  ⟨fun some_ => absurd len some_,fun _ _ => .inr length,fun _ _ _ => length⟩

/-- A body or a chunk is announced. -/
theorem Paced.announced {lh : LlhttpExt} {length : Nat} (len : lh.body.len = 0) (same : lh.contentLength = length) :
    Paced (some (length,false)) lh where
  begun some_ := absurd len some_
  first left announced := .inl (same.trans (congrArg Prod.fst (Option.some.inj announced)))
  later left announced := by
    have begun := congrArg Prod.snd (Option.some.inj announced)
    cases begun

/-- A body or a chunk is on its way. -/
theorem Paced.going {lh : LlhttpExt} {left : Nat} (begun : lh.body.len ≠ 0 → lh.bodyLen ≠ 0 → left = lh.bodyLen)
    (empty : lh.body.len = 0 → lh.contentLength = 0) : Paced (some (left,true)) lh where
  begun some_ more := by rw [begun some_ more]
  first left announced := by
    have begun := congrArg Prod.snd (Option.some.inj announced)
    cases begun
  later left same none_ := empty none_

/-- A part of the body comes. -/
theorem Paced.onBody {lh : LlhttpExt} {left : Nat} {begun : Bool} (paced : Paced (some (left,begun)) lh)
    (source length : Nat) : Paced (some (left - length,true)) (onBody lh source length) := by
  by_cases first : lh.body.len = 0
  · by_cases longer : lh.contentLength > length
    · have all : lh.contentLength = left := by
        cases begun with
        | false =>
          rcases paced.first left rfl with all | none_
          · exact all
          · omega
        | true =>
          have none_ := paced.later left rfl first
          omega
      rw [onBody_begin first longer]
      apply Paced.going
      · intro some_ more
        rw [all]
      · intro empty
        exact empty
    · rw [onBody_whole first longer]
      apply Paced.going
      · intro some_ more
        exact absurd rfl more
      · intro empty
        exact empty
  · by_cases none_ : lh.bodyLen = 0
    · rw [onBody_over first none_]
      apply Paced.going
      · intro some_ more
        exact absurd none_ more
      · intro empty
        exact absurd empty first
    · have state : left = lh.bodyLen := congrArg Prod.fst (Option.some.inj (paced.begun first none_))
      by_cases more : length < lh.bodyLen
      · rw [onBody_more first more]
        apply Paced.going
        · intro some_ more
          rw [state]
        · intro empty
          exact absurd empty first
      · rw [onBody_last first more none_]
        apply Paced.going
        · intro some_ more
          exact absurd rfl more
        · intro empty
          exact absurd empty first

theorem callback_paced {r : Request} {state : Option (Nat × Bool)} {c : Callback} (paced : Paced state r.lh)
    (whole : Whole state c) : Paced (coming state c) (callback layout respond r c).1.lh := by
  cases c with
  | messageBegin => exact paced
  | url offset length => exact paced.same rfl rfl rfl
  | headerField offset length =>
    obtain ⟨_,_,_,body,left,_,_⟩ := commit_cases r.lh r.lh.store
    refine paced.same (congrArg Buf.len body) left ?_
    unfold callback onHeaderKey commit
    dsimp only
    split
    · rfl
    · rfl
  | headerValue offset length => exact paced.same rfl rfl rfl
  | headersComplete parser =>
    apply Paced.announced
    · rfl
    · rfl
  | body offset length =>
    cases state with
    | none => exact absurd rfl whole
    | some state => exact paced.onBody _ _
  | chunkHeader contentLength =>
    unfold callback onChunkHeader
    dsimp only
    apply Paced.announced
    · split
      · rfl
      · rfl
    · split
      · rfl
      · rfl
  | chunkComplete =>
    refine ⟨fun some_ => absurd rfl some_,fun left other => ?_,fun left other => ?_⟩
    · cases other
    · cases other
  | messageComplete =>
    have same : (onMessageComplete respond r).1.lh.body = r.lh.body ∧
        (onMessageComplete respond r).1.lh.bodyLen = r.lh.bodyLen := by
      unfold onMessageComplete
      split
      · exact ⟨rfl,rfl⟩
      · exact ⟨rfl,rfl⟩
    refine ⟨fun some_ more => ?_,fun left other => ?_,fun left other => ?_⟩
    · unfold callback at some_ more
      rw [same.1] at some_
      rw [same.2] at more
      exact absurd (paced.whole whole some_) more
    · cases other
    · cases other

end

/-! ## Runs -/

theorem AllWhole.append {first rest : List Callback} {state : Option (Nat × Bool)} (whole : AllWhole state (first ++ rest)) :
    AllWhole state first ∧ AllWhole (first.foldl coming state) rest := by
  induction first generalizing state with
  | nil => exact ⟨trivial,whole⟩
  | cons c first ih =>
    obtain ⟨here,after⟩ := ih whole.2
    exact ⟨⟨whole.1,here⟩,after⟩

/-- All callbacks of one `llhttp_execute` do the same with both memories. -/
theorem callbacks_twin {r : Request} {m : Memory} {n : Nat} {state : Option (Nat × Bool)} {cs : List Callback}
    (agree : Agree r m) (same : Same r.lh.store.byte m layout.readBuf n) (inside : ∀ c ∈ cs, Inside n c)
    (paced : Paced state r.lh) (whole : AllWhole state cs) :
    (∃ k, callbacks layout respond (withByte r m) cs =
        (withByte (callbacks layout respond r cs).1 k,(callbacks layout respond r cs).2) ∧
      Agree (callbacks layout respond r cs).1 k) ∧
      Paced (cs.foldl coming state) (callbacks layout respond r cs).1.lh := by
  induction cs generalizing r m state with
  | nil => exact ⟨⟨m,rfl,agree⟩,paced⟩
  | cons c cs ih =>
    have one : Twin r m (callback layout respond r c) (callback layout respond (withByte r m) c) :=
      callback_twin agree same (inside c (List.mem_cons_self ..)) paced whole.1
    obtain ⟨k,here,agree₁,keeps⟩ := one
    obtain ⟨⟨k',rest,agree₂⟩,paced₂⟩ := ih agree₁ (same.keeps keeps)
      (fun d member => inside d (List.mem_cons_of_mem c member)) (callback_paced paced whole.1) whole.2
    refine ⟨⟨k',?_,agree₂⟩,paced₂⟩
    simp only [callbacks,here,rest]

/-- Nothing is left of a message. -/
theorem Agree.cleared (r : Request) (m : Memory) : Agree (acHttpParserClear layout r) m where
  url := Same.empty _ _ _
  key := Same.empty _ _ _
  value := Same.empty _ _ _
  headers h member := absurd member List.not_mem_nil
  body := Same.empty _ _ _
  ptr none_ := absurd rfl none_

theorem onAlloc_twin {r : Request} {m : Memory} {state : Option (Nat × Bool)} (agree : Agree r m) (paced : Paced state r.lh) :
    onAlloc layout (withByte r m) = withByte (onAlloc layout r) m ∧ Agree (onAlloc layout r) m ∧
      Paced state (onAlloc layout r).lh := by
  unfold onAlloc
  by_cases completed : r.requestCompleted = true
  · have other : (withByte r m).requestCompleted = true := completed
    rw [if_pos completed,if_pos other]
    exact ⟨rfl,Agree.cleared layout _ m,Paced.cleared rfl rfl state⟩
  · have other : ¬ (withByte r m).requestCompleted = true := completed
    rw [if_neg completed,if_neg other]
    exact ⟨rfl,agree,paced⟩

theorem receive_twin {r : Request} {m : Memory} (agree : Agree r m) (bytes : List UInt8) :
    ∃ n, receive layout (withByte r m) bytes = withByte (receive layout r bytes) n ∧ Agree (receive layout r bytes) n ∧
      Same (receive layout r bytes).lh.store.byte n layout.readBuf bytes.length := by
  obtain ⟨keeps,same⟩ := write_same r.lh.store.byte m layout.readBuf bytes
  exact ⟨_,rfl,agree.keeps keeps (.inl rfl) (.inl rfl) (.inl rfl) (fun h member => .inl member) (.inl ⟨rfl,rfl,rfl⟩),same⟩

/-- Two objects with the same request but for the memory, between two events. -/
structure Paired (llhttp : Llhttp σ) (o o' : Object σ) : Prop where
  request : ∃ m, o'.request = withByte o.request m ∧ Agree o.request m
  alike : Alike llhttp o'.parser o.parser
  paced : ∃ state, Paced state o.request.lh ∧
    ∀ pieces, AllWhole state ((answers llhttp o.parser pieces).flatMap Prod.fst)

theorem Alike.execute {llhttp : Llhttp σ} {t s : σ} (alike : Alike llhttp t s) (bytes : List UInt8) :
    (llhttp.execute t bytes).2 = (llhttp.execute s bytes).2 ∧
      Alike llhttp (llhttp.execute t bytes).1 (llhttp.execute s bytes).1 :=
  ⟨(List.cons.inj (alike [bytes])).1,fun pieces => (List.cons.inj (alike (bytes :: pieces))).2⟩

theorem step_twin {llhttp : Llhttp σ} (promises : Promises llhttp) {o o' : Object σ} (paired : Paired llhttp o o')
    (event : Event) :
    (step layout respond llhttp o' event).2 = (step layout respond llhttp o event).2 ∧
      Paired llhttp (step layout respond llhttp o event).1 (step layout respond llhttp o' event).1 := by
  obtain ⟨r,s⟩ := o
  obtain ⟨_,t⟩ := o'
  obtain ⟨⟨m,rfl,agree⟩,alike,state,paced,whole⟩ := paired
  cases event with
  | nothing =>
    obtain ⟨same,agree₁,paced₁⟩ := onAlloc_twin layout agree paced
    exact ⟨rfl,⟨m,same,agree₁⟩,alike,state,paced₁,whole⟩
  | written =>
    refine ⟨rfl,⟨m,rfl,?_⟩,alike,state,paced,whole⟩
    exact ⟨agree.url,agree.key,agree.value,agree.headers,agree.body,agree.ptr⟩
  | read bytes =>
    obtain ⟨same,agree₁,paced₁⟩ := onAlloc_twin layout agree paced
    obtain ⟨n,received,agree₂,buffer⟩ := receive_twin layout agree₁ bytes
    obtain ⟨executed,alike₁⟩ := alike.execute bytes
    have all := whole [bytes]
    simp only [answers,List.flatMap_cons,List.flatMap_nil,List.append_nil] at all
    have paced₂ : Paced state (receive layout (onAlloc layout r) bytes).lh := paced₁.same rfl rfl rfl
    obtain ⟨⟨k,called,agree₃⟩,paced₃⟩ := callbacks_twin layout respond agree₂ buffer
      (promises.inside s bytes) paced₂ all
    have after : ∀ pieces, AllWhole ((llhttp.execute s bytes).2.1.foldl coming state)
        ((answers llhttp (llhttp.execute s bytes).1 pieces).flatMap Prod.fst) := by
      intro pieces
      have both := whole (bytes :: pieces)
      rw [answers,List.flatMap_cons] at both
      exact both.append.2
    unfold step
    dsimp only at same received called executed ⊢
    rw [executed,same,received,called]
    by_cases accepted : (llhttp.execute s bytes).2.2 = true
    · rw [if_pos accepted,if_pos accepted]
      exact ⟨rfl,⟨k,rfl,agree₃⟩,alike₁,_,paced₃,after⟩
    · rw [if_neg accepted,if_neg accepted]
      refine ⟨rfl,⟨k,rfl,?_⟩,alike₁,_,paced₃.same rfl rfl rfl,after⟩
      exact ⟨agree₃.url,agree₃.key,agree₃.value,agree₃.headers,agree₃.body,agree₃.ptr⟩

theorem run_twin {llhttp : Llhttp σ} (promises : Promises llhttp) {o o' : Object σ} (paired : Paired llhttp o o')
    (events : List Event) :
    (run layout respond llhttp o' events).2 = (run layout respond llhttp o events).2 := by
  induction events generalizing o o' with
  | nil => rfl
  | cons event events ih =>
    obtain ⟨same,next⟩ := step_twin layout respond promises paired event
    simp only [run,same,ih next]

/-! ## The object that is recycled -/

/-- No callback takes a checkpoint: `chunked` is never set in `on_headers_complete`. -/
theorem callback_checkpoint (r : Request) (c : Callback) :
    (callback layout respond r c).1.lh.checkpoint = r.lh.checkpoint := by
  cases c with
  | messageBegin => rfl
  | url offset length => rfl
  | headerField offset length =>
    unfold callback onHeaderKey commit
    dsimp only
    split
    · rfl
    · rfl
  | headerValue offset length => rfl
  | headersComplete parser => exact (Chunks.chunked_never r.lh parser).2
  | body offset length => exact Chunks.onBody_checkpoint r.lh _ length
  | chunkHeader contentLength =>
    unfold callback onChunkHeader
    dsimp only
    split
    · rfl
    · rfl
  | chunkComplete => rfl
  | messageComplete =>
    unfold callback onMessageComplete
    dsimp only
    split
    · rfl
    · rfl

theorem callbacks_checkpoint (r : Request) (cs : List Callback) :
    (callbacks layout respond r cs).1.lh.checkpoint = r.lh.checkpoint := by
  induction cs generalizing r with
  | nil => rfl
  | cons c cs ih => exact (ih (callback layout respond r c).1).trans (callback_checkpoint layout respond r c)

theorem onAlloc_checkpoint (r : Request) : (onAlloc layout r).lh.checkpoint = r.lh.checkpoint := by
  unfold onAlloc
  split
  · rfl
  · rfl

theorem step_checkpoint (o : Object σ) (event : Event) :
    (step layout respond llhttp o event).1.request.lh.checkpoint = o.request.lh.checkpoint := by
  cases event with
  | nothing => exact onAlloc_checkpoint layout o.request
  | written => rfl
  | read bytes =>
    have called := callbacks_checkpoint layout respond (receive layout (onAlloc layout o.request) bytes)
      (llhttp.execute o.parser bytes).2.1
    have received : (receive layout (onAlloc layout o.request) bytes).lh.checkpoint = o.request.lh.checkpoint :=
      onAlloc_checkpoint layout o.request
    unfold step
    dsimp only
    split
    · exact called.trans received
    · exact called.trans received

theorem run_checkpoint (o : Object σ) (events : List Event) :
    (run layout respond llhttp o events).1.request.lh.checkpoint = o.request.lh.checkpoint := by
  induction events generalizing o with
  | nil => rfl
  | cons event events ih => exact (ih _).trans (step_checkpoint layout respond llhttp o event)

theorem handled_checkpoint {o : Object σ} (handled : Handled layout respond llhttp o) :
    o.request.lh.checkpoint = none := by
  induction handled with
  | created byte => rfl
  | ran handled events ih => exact (run_checkpoint layout respond llhttp _ events).trans ih
  | recycled handled ih => exact ih

/-- But for the memory the object is as a new one. -/
theorem recycled_request {o : Object σ} (handled : Handled layout respond llhttp o) (byte : Memory) :
    (recycle layout o).request = withByte (created layout llhttp byte).request o.request.lh.store.byte := by
  have checkpoint := handled_checkpoint layout respond llhttp handled
  unfold recycle created acServeRequestInit serveRequestClear acHttpParserClear withByte
  dsimp only
  rw [checkpoint]

/-- What the callbacks and the results of the reads are. -/
theorem run_answers (o : Object σ) (pieces : List (List UInt8)) :
    (run layout respond llhttp o (pieces.map Event.read)).2.map (fun seen => (seen.callbacks,seen.result)) =
      (answers llhttp o.parser pieces).map fun answer => (answer.1,some answer.2) := by
  induction pieces generalizing o with
  | nil => rfl
  | cons bytes pieces ih =>
    have next := ih (step layout respond llhttp o (.read bytes)).1
    have parser : (step layout respond llhttp o (.read bytes)).1.parser = (llhttp.execute o.parser bytes).1 := by
      unfold step
      dsimp only
      split
      · rfl
      · rfl
    have seen : (step layout respond llhttp o (.read bytes)).2.callbacks = (llhttp.execute o.parser bytes).2.1 ∧
        (step layout respond llhttp o (.read bytes)).2.result = some (llhttp.execute o.parser bytes).2.2 := by
      unfold step
      dsimp only
      split
      case isTrue accepted => exact ⟨rfl,congrArg some accepted.symm⟩
      case isFalse rejected => exact ⟨rfl,congrArg some (Bool.not_eq_true _ ▸ rejected : _ = false).symm⟩
    rw [List.map_cons,run,List.map_cons,next,parser,seen.1,seen.2]
    rfl

/-- What llhttp does shows in what the object does. -/
theorem AsFresh.alike {llhttp : Llhttp σ} {o : Object σ} (fresh : AsFresh layout respond llhttp o) :
    Alike llhttp o.parser llhttp.init := by
  intro pieces
  have same := congrArg (List.map fun seen => (seen.callbacks,seen.result)) (fresh (fun _ => 0) (pieces.map Event.read))
  rw [run_answers,run_answers] at same
  refine List.map_injective_iff.mpr ?_ same
  intro one two equal
  obtain ⟨callbacks,result⟩ := Prod.mk.inj equal
  exact Prod.ext callbacks (Option.some.inj result)

/-- After a stream that llhttp rejected, the object serves nobody as a new one would. -/
theorem rejected_spoils {llhttp : Llhttp σ} (promises : Promises llhttp) {o : Object σ} {bytes hello : List UInt8}
    (rejected : (llhttp.execute o.parser bytes).2.2 = false) (accepted : (llhttp.execute llhttp.init hello).2.2 = true) :
    ¬ AsFresh layout respond llhttp (run layout respond llhttp o [.read bytes]).1 := by
  intro fresh
  have parser : (run layout respond llhttp o [.read bytes]).1.parser = (llhttp.execute o.parser bytes).1 := by
    unfold run run step
    dsimp only
    rw [if_neg (Bool.eq_false_iff.mp rejected)]
  have alike := fresh.alike layout respond
  rw [parser] at alike
  have same := (alike.execute hello).1
  rw [promises.failed o.parser bytes rejected hello] at same
  rw [← same] at accepted
  cases accepted

/-! ## A parser that takes one request -/

/-- `GET / HTTP/1.1` and an empty line. -/
def get : List UInt8 := [71,69,84,32,47,32,72,84,84,80,47,49,46,49,13,10,13,10]

def getParser : Parser := ⟨0,1,1,1,0,0,1⟩

def getCallbacks : List Callback := [.messageBegin,.url 4 1,.headersComplete getParser,.messageComplete]

/-- It has failed or not, and takes `get` only. -/
def picky : Llhttp Bool where
  init := false
  execute failed bytes := if failed = false ∧ bytes = get then (false,getCallbacks,true) else (true,[],false)

theorem picky_whole (failed : Bool) (pieces : List (List UInt8)) :
    AllWhole none ((answers picky failed pieces).flatMap Prod.fst) := by
  induction pieces generalizing failed with
  | nil => trivial
  | cons bytes pieces ih =>
    rw [answers,List.flatMap_cons]
    by_cases takes : failed = false ∧ bytes = get
    · have executed : picky.execute failed bytes = (false,getCallbacks,true) := if_pos takes
      rw [executed]
      refine ⟨trivial,trivial,trivial,fun left other => ?_,ih false⟩
      have begun := congrArg Prod.snd (Option.some.inj other)
      cases begun
    · have executed : picky.execute failed bytes = (true,[],false) := if_neg takes
      rw [executed]
      exact ih true

theorem picky_promises : Promises picky where
  inside s bytes c member := by
    by_cases takes : s = false ∧ bytes = get
    · rw [show picky.execute s bytes = (false,getCallbacks,true) from if_pos takes] at member
      rw [takes.2]
      simp only [getCallbacks,List.mem_cons,List.not_mem_nil,or_false] at member
      rcases member with rfl | rfl | rfl | rfl
      · trivial
      · exact (by decide : 4 + 1 ≤ get.length)
      · trivial
      · trivial
    · rw [show picky.execute s bytes = (true,[],false) from if_neg takes] at member
      cases member
  whole pieces := picky_whole false pieces
  failed s bytes failed more := by
    by_cases takes : s = false ∧ bytes = get
    · rw [show picky.execute s bytes = (false,getCallbacks,true) from if_pos takes] at failed
      cases failed
    · rw [show picky.execute s bytes = (true,[],false) from if_neg takes]
      rfl

end AnotherC.Recycle
