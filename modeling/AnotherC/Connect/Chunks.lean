import AnotherC.Connect.HttpParser

/-!
# Chunked messages: the callbacks of `ac_http_parser` and the checkpoint

`on_headers_complete` is to take a checkpoint of the pool for a chunked message, and
`on_chunk_header` resets the pool to it. But the first one compares the bit of the flags with 1, and
the bit is 8, so that it never does (`chunked_never`): no checkpoint is taken on any connection, and
the first chunk already resets to one that was never taken (`message_own_iff`,
`connection_resets`).
-/
namespace AnotherC.Chunks
open AnotherC.HttpParser
set_option linter.unusedVariables false

/-- What the callbacks do beyond the fields: the callbacks of the user, the checkpoint and the reset.
    `next` is where the pool takes its next block. -/
inductive Did where
  | chunkEncoding
  | checkpoint (next : Nat)
  | reset (checkpoint : Option Nat)
  | chunk (next : Nat)
  | chunkComplete
  | url
deriving Repr, DecidableEq

/-- `ac_llhttp_ext_t` with the URL, and what was done. -/
structure Http where
  lh : LlhttpExt
  url : Buf
  did : List Did

/-- `on_headers_complete` with its call of `on_chunk_encoding`. -/
def headersComplete (http : Http) (parser : Parser) : Http :=
  let lh := onHeadersComplete http.lh parser
  let http := { http with lh := lh }
  if lh.chunked then { http with did := http.did ++ [.chunkEncoding,.checkpoint lh.store.next] } else http

/-- `ac_pool_reset`. `garbage` is what an `ac_malloc`ed checkpoint holds that was never taken. -/
def poolReset (garbage : Nat) (st : Store) (cp : Option Nat) : Store := { st with next := cp.getD garbage }

def onChunkHeader (garbage : Nat) (http : Http) (contentLength : Nat) : Http :=
  let lh := http.lh
  let http := { http with
    lh := { lh with
      chunked := true
      contentLength := contentLength
      bodyLen := 0
      bodyPtr := 0
      bodyTerminated := false
      body := ⟨0,0⟩
      store := poolReset garbage lh.store lh.checkpoint }
    did := http.did ++ [.reset lh.checkpoint] }
  if contentLength = 0 then { http with did := http.did ++ [.chunkComplete] } else http

/-- The NUL behind the body is there for the callback only. -/
def onChunkComplete (http : Http) : Http :=
  let lh := http.lh
  let did := if lh.body.len > 0 ∧ lh.chunked then [.chunk lh.store.next] else []
  { http with lh := { lh with body := { lh.body with len := 0 } }, did := http.did ++ did }

def onMessageComplete (http : Http) : Http :=
  { http with did := http.did ++ [if http.lh.chunked then .chunkComplete else .url] }

/-! ## Messages -/

/-- A chunk: the length in its header, and its data as `on_body` is handed them. -/
structure Chunk where
  contentLength : Nat
  data : List Fragment
deriving Repr, DecidableEq

/-- The callbacks of one chunk. -/
def chunk (garbage : Nat) (http : Http) (c : Chunk) : Http :=
  let http := onChunkHeader garbage http c.contentLength
  onChunkComplete { http with lh := bodies http.lh c.data }

/-- The callbacks from `on_headers_complete` on; `whole` says whether the message has come to its
    end. -/
def message (garbage : Nat) (http : Http) (parser : Parser) (chunks : List Chunk) (whole : Bool) : Http :=
  let http := chunks.foldl (chunk garbage) (headersComplete { http with did := [] } parser)
  if whole then onMessageComplete http else http

/-- The buffers that a user reads in a callback. -/
def parts (http : Http) : List Buf := http.url :: http.lh.headers.flatMap fun h => [h.1,h.2]

/-- Every reset is to a checkpoint taken before it in the same message, the URL and the headers are
    outside of what the pool has to give in every `on_chunk`, and `on_chunk_encoding` was called once
    before the first chunk. `complete` is the state when the headers are complete. -/
structure Own (complete : Http) (did : List Did) : Prop where
  resets : ∀ (i : Nat) cp, did[i]? = some (Did.reset cp) →
    ∃ j < i, ∃ next, did[j]? = some (Did.checkpoint next) ∧ cp = some next
  valid : ∀ next, Did.chunk next ∈ did → ∀ b ∈ parts complete, b.base + b.len ≤ next
  encoding : ∀ (i : Nat) cp, did[i]? = some (Did.reset cp) → (∀ j < i, ∀ cp, did[j]? ≠ some (Did.reset cp)) →
    (did.take i).count Did.chunkEncoding = 1

/-! ## The flag -/

/-- The bit for `F_CHUNKED` is not the lowest one. -/
theorem flag_ne_one (flags : Nat) : flags &&& fChunked ≠ 1 := by
  intro one
  have low := congrArg (fun n => n.testBit 0) one
  simp [fChunked] at low

theorem chunked_never (lh : LlhttpExt) (parser : Parser) :
    (onHeadersComplete lh parser).chunked = false ∧ (onHeadersComplete lh parser).checkpoint = lh.checkpoint := by
  have never : ((parser.flags &&& fChunked) == 1) = false := by
    rw [beq_eq_false_iff_ne]
    exact flag_ne_one parser.flags
  refine ⟨never,?_⟩
  simp only [onHeadersComplete,never,Bool.false_eq_true,if_false]
  split <;> rfl

theorem headersComplete_did (http : Http) (parser : Parser) : (headersComplete http parser).did = http.did := by
  rw [headersComplete]
  simp only [(chunked_never http.lh parser).1,Bool.false_eq_true,if_false]

theorem headersComplete_lh (http : Http) (parser : Parser) :
    (headersComplete http parser).lh = onHeadersComplete http.lh parser := by
  rw [headersComplete]
  simp only [(chunked_never http.lh parser).1,Bool.false_eq_true,if_false]

/-! ## What a chunk does -/

theorem onBody_checkpoint (lh : LlhttpExt) (source length : Nat) :
    (onBody lh source length).checkpoint = lh.checkpoint := by
  rw [onBody]
  split
  case isTrue => split <;> rfl
  case isFalse => split <;> rfl

theorem bodies_checkpoint (lh : LlhttpExt) (data : List Fragment) : (bodies lh data).checkpoint = lh.checkpoint := by
  induction data generalizing lh with
  | nil => rfl
  | cons f data ih =>
    rw [bodies,List.foldl_cons,← bodies,ih]
    exact onBody_checkpoint lh f.addr f.bytes.length

/-- A chunk resets to the checkpoint that there is, and nothing else it does is a reset or takes a
    checkpoint. -/
theorem chunk_did (garbage : Nat) (http : Http) (c : Chunk) :
    (chunk garbage http c).lh.checkpoint = http.lh.checkpoint ∧
      ∃ more, (chunk garbage http c).did = http.did ++ .reset http.lh.checkpoint :: more ∧
        ∀ d ∈ more, ∀ cp, d ≠ .reset cp := by
  have header : (onChunkHeader garbage http c.contentLength).lh.checkpoint = http.lh.checkpoint ∧
      ∃ more, (onChunkHeader garbage http c.contentLength).did = http.did ++ .reset http.lh.checkpoint :: more ∧
        ∀ d ∈ more, ∀ cp, d ≠ .reset cp := by
    rw [onChunkHeader]
    split
    · exact ⟨rfl,[.chunkComplete],by simp,by simp⟩
    · exact ⟨rfl,[],by simp,by simp⟩
  obtain ⟨same,more,did,quiet⟩ := header
  refine ⟨(bodies_checkpoint _ _).trans same,?_⟩
  rw [chunk,onChunkComplete]
  simp only [did]
  refine ⟨more ++ _,by rw [List.append_assoc,List.cons_append],?_⟩
  intro d member cp
  rcases List.mem_append.mp member with old | new
  · exact quiet d old cp
  · split at new
    · rw [List.mem_singleton.mp new]
      exact Did.noConfusion
    · exact absurd new List.not_mem_nil

/-- All resets of a message are to the checkpoint that was there before it. -/
theorem chunks_did (garbage : Nat) (http : Http) (chunks : List Chunk) :
    (chunks.foldl (chunk garbage) http).lh.checkpoint = http.lh.checkpoint ∧
      ∃ more, (chunks.foldl (chunk garbage) http).did = http.did ++ more ∧
        ∀ cp, .reset cp ∈ more → cp = http.lh.checkpoint := by
  induction chunks generalizing http with
  | nil => exact ⟨rfl,[],by simp,by simp⟩
  | cons c chunks ih =>
    obtain ⟨same,more,did,quiet⟩ := chunk_did garbage http c
    obtain ⟨kept,later,after,own⟩ := ih (chunk garbage http c)
    rw [List.foldl_cons]
    refine ⟨kept.trans same,.reset http.lh.checkpoint :: more ++ later,?_,?_⟩
    · rw [after,did,List.append_assoc]
    · intro cp member
      rcases List.mem_append.mp member with here | there
      · rcases List.mem_cons.mp here with first | old
        · exact Did.reset.inj first
        · exact absurd rfl (quiet _ old cp)
      · rw [← same]
        exact own cp there

theorem message_did (garbage : Nat) (http : Http) (parser : Parser) (chunks : List Chunk) (whole : Bool) :
    (message garbage http parser chunks whole).lh.checkpoint = http.lh.checkpoint ∧
      ∀ cp, .reset cp ∈ (message garbage http parser chunks whole).did → cp = http.lh.checkpoint := by
  have start : (headersComplete { http with did := [] } parser).lh.checkpoint = http.lh.checkpoint := by
    rw [headersComplete_lh]
    exact (chunked_never http.lh parser).2
  obtain ⟨kept,more,did,own⟩ := chunks_did garbage (headersComplete { http with did := [] } parser) chunks
  rw [start] at kept own
  rw [headersComplete_did,List.nil_append] at did
  rw [message]
  split
  · refine ⟨kept,fun cp member => ?_⟩
    simp only [onMessageComplete,did,List.mem_append,List.mem_singleton] at member
    rcases member with inside | last
    · exact own cp inside
    · split at last
      · exact absurd last Did.noConfusion
      · exact absurd last Did.noConfusion
  · refine ⟨kept,fun cp member => ?_⟩
    rw [did] at member
    exact own cp member

/-! ## Whole messages and connections -/

/-- A message resets only to its own checkpoint exactly if no chunk header arrives. -/
theorem message_own_iff (garbage : Nat) (http : Http) (parser : Parser) (chunks : List Chunk) (whole : Bool) :
    Own (headersComplete { http with did := [] } parser) (message garbage http parser chunks whole).did ↔
      chunks = [] := by
  constructor
  · intro own
    cases chunks with
    | nil => rfl
    | cons c chunks =>
      obtain ⟨_,more,did,_⟩ := chunk_did garbage (headersComplete { http with did := [] } parser) c
      obtain ⟨_,later,after,_⟩ :=
        chunks_did garbage (chunk garbage (headersComplete { http with did := [] } parser) c) chunks
      rw [headersComplete_did,List.nil_append] at did
      have first : ∃ cp, (message garbage http parser (c :: chunks) whole).did[0]? = some (.reset cp) := by
        rw [message,List.foldl_cons]
        split
        · rw [onMessageComplete]
          simp only [after,did]
          exact ⟨_,rfl⟩
        · simp only [after,did]
          exact ⟨_,rfl⟩
      obtain ⟨cp,first⟩ := first
      obtain ⟨j,before,_⟩ := own.resets 0 cp first
      exact absurd before (Nat.not_lt_zero j)
  · intro none_
    subst none_
    have quiet : ∀ d ∈ (message garbage http parser [] whole).did, (∀ cp, d ≠ .reset cp) ∧ ∀ next, d ≠ .chunk next := by
      intro d member
      rw [message,List.foldl_nil] at member
      split at member
      · simp only [onMessageComplete,headersComplete_did,List.nil_append,List.mem_singleton] at member
        rw [member]
        split
        · exact ⟨fun cp => Did.noConfusion,fun next => Did.noConfusion⟩
        · exact ⟨fun cp => Did.noConfusion,fun next => Did.noConfusion⟩
      · rw [headersComplete_did] at member
        exact absurd member List.not_mem_nil
    refine ⟨?_,?_,?_⟩
    · intro i cp there
      exact absurd rfl ((quiet _ (List.mem_of_getElem? there)).1 cp)
    · intro next member
      exact absurd rfl ((quiet _ member).2 next)
    · intro i cp there
      exact absurd rfl ((quiet _ (List.mem_of_getElem? there)).1 cp)

/-- One message of a connection; what comes before the headers are complete is any change that
    leaves the checkpoint. -/
structure Incoming where
  before : LlhttpExt → LlhttpExt
  leaves : ∀ lh, (before lh).checkpoint = lh.checkpoint
  parser : Parser
  chunks : List Chunk
  whole : Bool

/-- The messages of a connection, with what was done for each. -/
def connection (garbage : Nat) (http : Http) : List Incoming → List (List Did)
  | [] => []
  | m :: rest =>
    let http := message garbage { http with lh := m.before http.lh } m.parser m.chunks m.whole
    http.did :: connection garbage http rest

/-- On a connection whose parser was made by `ac_http_parser_init`, every reset is to a checkpoint
    that was never taken. -/
theorem connection_resets (garbage : Nat) (http : Http) (messages : List Incoming) (new : http.lh.checkpoint = none) :
    ∀ did ∈ connection garbage http messages, ∀ cp, .reset cp ∈ did → cp = none := by
  induction messages generalizing http with
  | nil => simp [connection]
  | cons m rest ih =>
    have start : (m.before http.lh).checkpoint = none := (m.leaves http.lh).trans new
    obtain ⟨same,resets⟩ := message_did garbage { http with lh := m.before http.lh } m.parser m.chunks m.whole
    rw [connection,List.forall_mem_cons]
    refine ⟨fun cp member => (resets cp member).trans start,ih _ (same.trans start)⟩

/-- One chunk, `hi`, and the last chunk. -/
def hello : List Chunk := [⟨2,[⟨3,[104,105]⟩]⟩,⟨0,[]⟩]

/-- A chunked request with the chunk `hi`: `on_chunk_encoding` is never called, and both chunks reset to
    a checkpoint that was never taken. -/
theorem chunk_resets_wild :
    (¬ ∀ (garbage : Nat) (http : Http) (parser : Parser) (chunks : List Chunk) (whole : Bool),
      parser.flags &&& fChunked ≠ 0 →
        Own (headersComplete { http with did := [] } parser) (message garbage http parser chunks whole).did) ∧
    ∀ garbage, (message garbage ⟨opened [50,13,10,104,105,13,10],⟨0,0⟩,[]⟩ ⟨0,1,1,3,0,8,1⟩ hello true).did =
      [.reset none,.chunk garbage,.reset none,.chunkComplete,.chunkComplete] := by
  have did (garbage : Nat) :
      (message garbage ⟨opened [50,13,10,104,105,13,10],⟨0,0⟩,[]⟩ ⟨0,1,1,3,0,8,1⟩ hello true).did =
        [.reset none,.chunk garbage,.reset none,.chunkComplete,.chunkComplete] := rfl
  refine ⟨fun claim => ?_,did⟩
  have own := claim 0 ⟨opened [50,13,10,104,105,13,10],⟨0,0⟩,[]⟩ ⟨0,1,1,3,0,8,1⟩ hello true (by decide)
  rw [did 0] at own
  obtain ⟨j,before,_⟩ := own.resets 0 none rfl
  exact absurd before (Nat.not_lt_zero j)

end AnotherC.Chunks
