import AnotherC.Lib.FreeList

/-!
# The request objects of `ac_serve`

A request object serves one connection after the other; in between it lies on
the free list. Several callbacks may want to close the connection, and the state
of the object lets the first one do it. From whatever callbacks come in whatever
order, every object is in use or on the list once (`requests_kept`).
-/
namespace AnotherC.Serve
open AnotherC.Lib.FreeList
set_option linter.unusedVariables false

/-- `AC_SERVE_OPEN`, `AC_SERVE_CLOSING` and `AC_SERVE_CLOSED`. -/
inductive RequestState where
  | open_
  | closing
  | closed
deriving Repr, DecidableEq

/-- `serve_request_t`, with `keep_alive` of its `http` and whether that has `headers`. -/
structure ServeRequest where
  next : Option Nat
  requestState : RequestState
  requestCompleted : Bool
  keepAlive : Bool
  headers : Bool
deriving Repr, DecidableEq

/-- `ac_serve_t`. The objects are numbered as they are allocated. -/
structure AcServe where
  active : Nat
  numFree : Nat
  freeList : Option Nat
  made : Nat
  request : Nat → ServeRequest

/-- The service and its event loop: which connection an object has, whether its handle
    is open for callbacks, the handles that wait for `on_close`, and the connections
    that `uv_close` was called for. -/
structure State where
  serve : AcServe
  accepted : Nat
  connection : Nat → Nat
  live : Nat → Bool
  closing : List Nat
  closes : List Nat

/-- The codes that libuv gives for errors. -/
structure Codes where
  enobufs : Int
  eof : Int
  econnreset : Int
  econnaborted : Int

/-- What `ac_http_parser_data` returns, what it leaves in `keep_alive` and `headers`, and
    whether the last chunk was in the data. -/
structure Parsed where
  ok : Bool
  keepAlive : Bool
  headers : Bool
  chunksComplete : Bool
deriving Repr, DecidableEq

/-! ## The callbacks -/

def State.modify (s : State) (r : Nat) (f : ServeRequest → ServeRequest) : State :=
  { s with serve := { s.serve with request := Function.update s.serve.request r (f (s.serve.request r)) } }

/-- `ac_http_parser_clear`, as far as the fields are here. -/
def acHttpParserClear (sr : ServeRequest) : ServeRequest := { sr with keepAlive := false, headers := false }

def serveRequestClear (sr : ServeRequest) : ServeRequest :=
  acHttpParserClear { sr with requestCompleted := false }

def acServeRequestInit (s : AcServe) : AcServe × Nat :=
  match s.freeList with
  | some r =>
    let sr := { s.request r with next := none, requestCompleted := true, requestState := .open_ }
    ({ s with
        active := s.active + 1
        freeList := (s.request r).next
        numFree := s.numFree - 1
        request := Function.update s.request r (acHttpParserClear sr) },r)
  | none =>
    ({ s with
        active := s.active + 1
        made := s.made + 1
        request := Function.update s.request s.made ⟨none,.open_,true,false,false⟩ },s.made)

/-- One round of `on_accept`. -/
def onAccept (s : State) : State :=
  let (serve,r) := acServeRequestInit s.serve
  { s with
    serve := serve
    accepted := s.accepted + 1
    connection := Function.update s.connection r s.accepted
    live := Function.update s.live r true }

def onClose (s : State) (r : Nat) : State :=
  if (s.serve.request r).requestState ≠ .closed then
    let s := s.modify r fun sr => serveRequestClear { sr with requestState := .closed }
    let s := s.modify r fun sr => { sr with next := s.serve.freeList }
    { s with serve := { s.serve with
        active := s.serve.active - 1
        freeList := some r
        numFree := s.serve.numFree + 1 } }
  else s

/-- `uv_close`: the callback comes later. -/
def uvClose (s : State) (r : Nat) : State :=
  { s with closing := s.closing ++ [r], closes := s.closes ++ [s.connection r] }

def closeConnection (s : State) (r : Nat) : State :=
  if (s.serve.request r).requestState = .open_ then
    uvClose (s.modify r fun sr => { sr with requestState := .closing }) r
  else s

def afterLastWrite (s : State) (r : Nat) : State :=
  let s := s.modify r fun sr => { sr with requestCompleted := true }
  if (s.serve.request r).keepAlive then s else closeConnection s r

/-- With headers there is a response to write, and its completion closes. -/
def handleRequestError (s : State) (r : Nat) : State :=
  let s := s.modify r fun sr => { sr with keepAlive := false }
  if (s.serve.request r).headers then s else closeConnection s r

def onAlloc (s : State) (r : Nat) : State :=
  if (s.serve.request r).requestCompleted then s.modify r serveRequestClear else s

def onShutdown (s : State) (r : Nat) : State :=
  if (s.serve.request r).requestState = .open_ then closeConnection s r else s

def onRead (codes : Codes) (s : State) (r : Nat) (nread : Int) (parsed : Parsed) : State :=
  if nread > 0 then
    let s := s.modify r fun sr => { sr with
      keepAlive := parsed.keepAlive
      headers := parsed.headers
      requestCompleted := sr.requestCompleted || parsed.chunksComplete }
    if !parsed.ok then handleRequestError s r else s
  else if nread = 0 then s
  else if nread = codes.enobufs then handleRequestError s r
  else if nread = codes.eof then s
  else if nread = codes.econnreset ∨ nread = codes.econnaborted then closeConnection s r
  else handleRequestError s r

/-! ## Runs -/

/-- What the loop calls back with. A write that is not the last one of a response has a
    callback of the user only. -/
inductive Event where
  | accept
  | alloc (r : Nat)
  | read (r : Nat) (nread : Int) (parsed : Parsed)
  | written (r : Nat)
  | afterWrite (r : Nat)
  | shutdown (r : Nat)
  | closed (r : Nat)
deriving Repr, DecidableEq

def step (codes : Codes) (s : State) : Event → State
  | .accept => onAccept s
  | .alloc r => onAlloc s r
  | .read r nread parsed => onRead codes s r nread parsed
  | .written r => afterLastWrite s r
  | .afterWrite r => s
  | .shutdown r => onShutdown s r
  | .closed r =>
    onClose { s with closing := s.closing.erase r, live := Function.update s.live r false } r

/-- A handle gets callbacks until that of `uv_close`, which comes once for each call. -/
def Enabled (s : State) : Event → Prop
  | .accept => True
  | .alloc r => s.live r = true
  | .read r _ _ => s.live r = true
  | .written r => s.live r = true
  | .afterWrite r => s.live r = true
  | .shutdown r => s.live r = true
  | .closed r => r ∈ s.closing

/-- `_ac_serve_init`. -/
def start : State := ⟨⟨0,0,none,0,fun _ => ⟨none,.closed,false,false,false⟩⟩,0,fun _ => 0,fun _ => false,[],[]⟩

inductive Reached (codes : Codes) : State → Prop
  | start : Reached codes start
  | step {s : State} (reached : Reached codes s) (event : Event) (enabled : Enabled s event) :
      Reached codes (step codes s event)

/-- The object is OPEN or CLOSING. -/
def inUse (s : State) (r : Nat) : Bool := (s.serve.request r).requestState ≠ .closed

/-- Every object is in use or on the free list once, the counters are right, and `uv_close`
    was called at most once for each connection. -/
def Kept (s : State) : Prop :=
  ∃ free : List Nat, Chain (fun r => (s.serve.request r).next) s.serve.freeList free ∧
    (∀ r ∈ free, r < s.serve.made) ∧
    (∀ r < s.serve.made, (inUse s r = true ∧ free.count r = 0) ∨ (inUse s r = false ∧ free.count r = 1)) ∧
    s.serve.active = (List.range s.serve.made).countP (inUse s) ∧
    s.serve.numFree = free.length ∧
    s.closes.Nodup

/-! ## What a step does -/

/-- The states differ in nothing but `requestCompleted`, `keepAlive` and `headers`. -/
structure Alike (s t : State) : Prop where
  active : t.serve.active = s.serve.active
  numFree : t.serve.numFree = s.serve.numFree
  freeList : t.serve.freeList = s.serve.freeList
  made : t.serve.made = s.serve.made
  next : ∀ r, (t.serve.request r).next = (s.serve.request r).next
  requestState : ∀ r, (t.serve.request r).requestState = (s.serve.request r).requestState
  accepted : t.accepted = s.accepted
  connection : t.connection = s.connection
  live : t.live = s.live
  closing : t.closing = s.closing
  closes : t.closes = s.closes

theorem Alike.refl (s : State) : Alike s s := ⟨rfl,rfl,rfl,rfl,fun _ => rfl,fun _ => rfl,rfl,rfl,rfl,rfl,rfl⟩

theorem alike_modify (s : State) (r : Nat) {f : ServeRequest → ServeRequest} (next : ∀ sr, (f sr).next = sr.next)
    (state : ∀ sr, (f sr).requestState = sr.requestState) : Alike s (s.modify r f) := by
  have here (q : Nat) : ((s.modify r f).serve.request q).next = (s.serve.request q).next ∧
      ((s.modify r f).serve.request q).requestState = (s.serve.request q).requestState := by
    by_cases same : q = r
    · subst same
      simp only [State.modify,Function.update_self]
      exact ⟨next _,state _⟩
    · simp only [State.modify,Function.update_of_ne same]
      exact ⟨trivial,trivial⟩
  exact ⟨rfl,rfl,rfl,rfl,fun q => (here q).1,fun q => (here q).2,rfl,rfl,rfl,rfl,rfl⟩

theorem Alike.trans {s t u : State} (one : Alike s t) (two : Alike t u) : Alike s u where
  active := two.active.trans one.active
  numFree := two.numFree.trans one.numFree
  freeList := two.freeList.trans one.freeList
  made := two.made.trans one.made
  next r := (two.next r).trans (one.next r)
  requestState r := (two.requestState r).trans (one.requestState r)
  accepted := two.accepted.trans one.accepted
  connection := two.connection.trans one.connection
  live := two.live.trans one.live
  closing := two.closing.trans one.closing
  closes := two.closes.trans one.closes

/-- What `close_connection` does to an open connection. -/
def began (s : State) (r : Nat) : State := uvClose (s.modify r fun sr => { sr with requestState := .closing }) r

/-- A callback of a live handle either leaves the objects or begins to close an open one. -/
def Mild (s : State) (r : Nat) (t : State) : Prop :=
  Alike s t ∨ ∃ m, Alike s m ∧ (m.serve.request r).requestState = .open_ ∧ t = began m r

theorem Mild.after {s m t : State} {r : Nat} (alike : Alike s m) (mild : Mild m r t) : Mild s r t := by
  rcases mild with same | ⟨n,same,opened,whole⟩
  · exact .inl (alike.trans same)
  · exact .inr ⟨n,alike.trans same,opened,whole⟩

theorem closeConnection_mild (s : State) (r : Nat) : Mild s r (closeConnection s r) := by
  unfold closeConnection
  split
  case isTrue opened => exact .inr ⟨s,Alike.refl s,opened,rfl⟩
  case isFalse => exact .inl (Alike.refl s)

theorem handleRequestError_mild (s : State) (r : Nat) : Mild s r (handleRequestError s r) := by
  have alike := alike_modify s r (f := fun sr => { sr with keepAlive := false }) (fun _ => rfl) (fun _ => rfl)
  unfold handleRequestError
  simp only
  split
  · exact .inl alike
  · exact (closeConnection_mild _ r).after alike

theorem afterLastWrite_mild (s : State) (r : Nat) : Mild s r (afterLastWrite s r) := by
  have alike := alike_modify s r (f := fun sr => { sr with requestCompleted := true }) (fun _ => rfl) (fun _ => rfl)
  unfold afterLastWrite
  simp only
  split
  · exact .inl alike
  · exact (closeConnection_mild _ r).after alike

theorem onAlloc_mild (s : State) (r : Nat) : Mild s r (onAlloc s r) := by
  unfold onAlloc
  split
  · exact .inl (alike_modify s r (fun _ => rfl) (fun _ => rfl))
  · exact .inl (Alike.refl s)

theorem onShutdown_mild (s : State) (r : Nat) : Mild s r (onShutdown s r) := by
  unfold onShutdown
  split
  · exact closeConnection_mild s r
  · exact .inl (Alike.refl s)

theorem onRead_mild (codes : Codes) (s : State) (r : Nat) (nread : Int) (parsed : Parsed) :
    Mild s r (onRead codes s r nread parsed) := by
  unfold onRead
  split
  case isTrue data =>
    have alike := alike_modify s r (f := fun sr => { sr with
      keepAlive := parsed.keepAlive
      headers := parsed.headers
      requestCompleted := sr.requestCompleted || parsed.chunksComplete }) (fun _ => rfl) (fun _ => rfl)
    simp only
    split
    · exact (handleRequestError_mild _ r).after alike
    · exact .inl alike
  case isFalse =>
    split
    case isTrue => exact .inl (Alike.refl s)
    case isFalse =>
      split
      case isTrue => exact handleRequestError_mild s r
      case isFalse =>
        split
        case isTrue => exact .inl (Alike.refl s)
        case isFalse =>
          split
          case isTrue => exact closeConnection_mild s r
          case isFalse => exact handleRequestError_mild s r

/-- The steps: a connection is accepted, a handle is closed, or a callback is mild. -/
theorem step_cases (codes : Codes) (s : State) (event : Event) (enabled : Enabled s event) :
    step codes s event = onAccept s ∨
      (∃ r ∈ s.closing, step codes s event =
        onClose { s with closing := s.closing.erase r, live := Function.update s.live r false } r) ∨
      ∃ r, s.live r = true ∧ Mild s r (step codes s event) := by
  cases event with
  | accept => exact .inl rfl
  | alloc r => exact .inr (.inr ⟨r,enabled,onAlloc_mild s r⟩)
  | read r nread parsed => exact .inr (.inr ⟨r,enabled,onRead_mild codes s r nread parsed⟩)
  | written r => exact .inr (.inr ⟨r,enabled,afterLastWrite_mild s r⟩)
  | afterWrite r => exact .inr (.inr ⟨r,enabled,.inl (Alike.refl s)⟩)
  | shutdown r => exact .inr (.inr ⟨r,enabled,onShutdown_mild s r⟩)
  | closed r => exact .inr (.inl ⟨r,enabled,rfl⟩)

/-! ## The invariant -/

theorem inUse_iff (s : State) (r : Nat) : inUse s r = true ↔ (s.serve.request r).requestState ≠ .closed := by
  simp [inUse]

theorem inUse_false_iff (s : State) (r : Nat) : inUse s r = false ↔ (s.serve.request r).requestState = .closed := by
  simp [inUse]

/-- `free` are the objects on the free list. -/
structure Inv (s : State) (free : List Nat) : Prop where
  chain : Chain (fun r => (s.serve.request r).next) s.serve.freeList free
  nodup : free.Nodup
  listed : ∀ r, r ∈ free ↔ r < s.serve.made ∧ (s.serve.request r).requestState = .closed
  live : ∀ r, s.live r = true ↔ r < s.serve.made ∧ (s.serve.request r).requestState ≠ .closed
  closing : ∀ r, r ∈ s.closing ↔ r < s.serve.made ∧ (s.serve.request r).requestState = .closing
  once : s.closing.Nodup
  numFree : s.serve.numFree = free.length
  all : s.serve.active + s.serve.numFree = s.serve.made
  closes : s.closes.Nodup
  old : ∀ c ∈ s.closes, c < s.accepted
  recent : ∀ r, s.live r = true → s.connection r < s.accepted
  apart : ∀ q r, s.live q = true → s.live r = true → s.connection q = s.connection r → q = r
  opened : ∀ r, s.live r = true → (s.serve.request r).requestState = .open_ → s.connection r ∉ s.closes

theorem Inv.start : Inv start [] where
  chain := rfl
  nodup := List.nodup_nil
  listed r := by simp [AnotherC.Serve.start]
  live r := by simp [AnotherC.Serve.start]
  closing r := by simp [AnotherC.Serve.start]
  once := List.nodup_nil
  numFree := rfl
  all := rfl
  closes := List.nodup_nil
  old c member := absurd member List.not_mem_nil
  recent r alive := absurd alive Bool.false_ne_true
  apart q r alive := absurd alive Bool.false_ne_true
  opened r alive := absurd alive Bool.false_ne_true

variable {s t : State} {free : List Nat} {r : Nat}

theorem Inv.alike (inv : Inv s free) (alike : Alike s t) : Inv t free where
  chain := by
    rw [alike.freeList]
    exact inv.chain.frame fun r _ => alike.next r
  nodup := inv.nodup
  listed r := by rw [alike.made,alike.requestState]; exact inv.listed r
  live r := by rw [alike.live,alike.made,alike.requestState]; exact inv.live r
  closing r := by rw [alike.closing,alike.made,alike.requestState]; exact inv.closing r
  once := by rw [alike.closing]; exact inv.once
  numFree := by rw [alike.numFree]; exact inv.numFree
  all := by rw [alike.active,alike.numFree,alike.made]; exact inv.all
  closes := by rw [alike.closes]; exact inv.closes
  old := by rw [alike.closes,alike.accepted]; exact inv.old
  recent := by rw [alike.live,alike.connection,alike.accepted]; exact inv.recent
  apart := by rw [alike.live,alike.connection]; exact inv.apart
  opened r := by rw [alike.live,alike.requestState,alike.connection,alike.closes]; exact inv.opened r

theorem began_next (s : State) (r q : Nat) : ((began s r).serve.request q).next = (s.serve.request q).next := by
  by_cases same : q = r
  · subst same
    simp only [began,uvClose,State.modify,Function.update_self]
  · simp only [began,uvClose,State.modify,Function.update_of_ne same]

theorem began_requestState (s : State) (r q : Nat) : ((began s r).serve.request q).requestState =
    if q = r then .closing else (s.serve.request q).requestState := by
  by_cases same : q = r
  · subst same
    simp only [began,uvClose,State.modify,Function.update_self,if_true]
  · simp only [began,uvClose,State.modify,Function.update_of_ne same,if_neg same]

/-- The first one to close the connection of an open object. -/
theorem Inv.began (inv : Inv s free) (alive : s.live r = true) (opened : (s.serve.request r).requestState = .open_) :
    Inv (began s r) free where
  chain := inv.chain.frame fun q _ => began_next s r q
  nodup := inv.nodup
  listed q := by
    rw [began_requestState,inv.listed q]
    by_cases same : q = r
    · subst same
      simp [opened,AnotherC.Serve.began,uvClose,State.modify]
    · simp [same,AnotherC.Serve.began,uvClose,State.modify]
  live q := by
    rw [began_requestState]
    show s.live q = true ↔ q < s.serve.made ∧ _
    by_cases same : q = r
    · subst same
      simpa [alive] using ((inv.live q).mp alive).1
    · rw [if_neg same]
      exact inv.live q
  closing q := by
    rw [began_requestState]
    show q ∈ s.closing ++ [r] ↔ q < s.serve.made ∧ _
    rw [List.mem_append,List.mem_singleton,inv.closing q]
    by_cases same : q = r
    · subst same
      simpa using ((inv.live q).mp alive).1
    · simp [same]
  once := by
    show (s.closing ++ [r]).Nodup
    have outside : r ∉ s.closing := fun member => by
      have state := ((inv.closing r).mp member).2
      rw [opened] at state
      exact absurd state RequestState.noConfusion
    refine List.nodup_append.mpr ⟨inv.once,List.nodup_singleton r,fun q member p last same => ?_⟩
    rw [same,List.mem_singleton.mp last] at member
    exact outside member
  numFree := inv.numFree
  all := inv.all
  closes := by
    show (s.closes ++ [s.connection r]).Nodup
    have outside := inv.opened r alive opened
    refine List.nodup_append.mpr ⟨inv.closes,List.nodup_singleton _,fun c member d last same => ?_⟩
    rw [same,List.mem_singleton.mp last] at member
    exact outside member
  old c member := by
    rcases List.mem_append.mp member with before | last
    · exact inv.old c before
    · rw [List.mem_singleton.mp last]
      exact inv.recent r alive
  recent := inv.recent
  apart := inv.apart
  opened q aliveq openedq := by
    rw [began_requestState] at openedq
    show s.connection q ∉ s.closes ++ [s.connection r]
    by_cases same : q = r
    · rw [if_pos same] at openedq
      exact absurd openedq RequestState.noConfusion
    · rw [if_neg same] at openedq
      intro member
      rcases List.mem_append.mp member with before | last
      · exact inv.opened q aliveq openedq before
      · exact same (inv.apart q r aliveq alive (List.mem_singleton.mp last))

theorem Inv.mild (inv : Inv s free) (alive : s.live r = true) (mild : Mild s r t) : Inv t free := by
  rcases mild with same | ⟨m,same,opened,whole⟩
  · exact inv.alike same
  · rw [whole]
    exact (inv.alike same).began (by rw [same.live]; exact alive) opened

/-- The state before `on_close` once the loop has taken the handle away. -/
def taken (s : State) (r : Nat) : State :=
  { s with closing := s.closing.erase r, live := Function.update s.live r false }

theorem onClose_next (s : State) (used : (s.serve.request r).requestState ≠ .closed) (q : Nat) :
    ((onClose s r).serve.request q).next = Function.update (fun q => (s.serve.request q).next) r s.serve.freeList q := by
  unfold onClose
  rw [if_pos used]
  by_cases same : q = r
  · subst same
    simp only [State.modify,Function.update_self]
  · simp only [State.modify,Function.update_of_ne same]

theorem onClose_requestState (s : State) (used : (s.serve.request r).requestState ≠ .closed) (q : Nat) :
    ((onClose s r).serve.request q).requestState = if q = r then .closed else (s.serve.request q).requestState := by
  unfold onClose
  rw [if_pos used]
  by_cases same : q = r
  · subst same
    simp only [State.modify,Function.update_self,serveRequestClear,acHttpParserClear,if_true]
  · simp only [State.modify,Function.update_of_ne same,if_neg same]

theorem onClose_rest (s : State) (used : (s.serve.request r).requestState ≠ .closed) :
    (onClose s r).serve.active = s.serve.active - 1 ∧ (onClose s r).serve.numFree = s.serve.numFree + 1 ∧
      (onClose s r).serve.freeList = some r ∧ (onClose s r).serve.made = s.serve.made ∧
      (onClose s r).accepted = s.accepted ∧ (onClose s r).connection = s.connection ∧
      (onClose s r).live = s.live ∧ (onClose s r).closing = s.closing ∧ (onClose s r).closes = s.closes := by
  unfold onClose
  rw [if_pos used]
  exact ⟨rfl,rfl,rfl,rfl,rfl,rfl,rfl,rfl,rfl⟩

/-- The handle is closed and the object goes to the free list. -/
theorem Inv.closed (inv : Inv s free) (waits : r ∈ s.closing) : Inv (onClose (taken s r) r) (r :: free) := by
  obtain ⟨made,state⟩ := (inv.closing r).mp waits
  have used : ((taken s r).serve.request r).requestState ≠ .closed := by
    show (s.serve.request r).requestState ≠ .closed
    rw [state]
    exact RequestState.noConfusion
  have alive : s.live r = true := (inv.live r).mpr ⟨made,used⟩
  have outside : r ∉ free := fun member => used ((inv.listed r).mp member).2
  have states := onClose_requestState (taken s r) used
  obtain ⟨activeIs,numFreeIs,freeListIs,madeIs,acceptedIs,connectionIs,liveIs,closingIs,closesIs⟩ :=
    onClose_rest (taken s r) used
  have still (q : Nat) (now : Function.update s.live r false q = true) : q ≠ r ∧ s.live q = true := by
    by_cases same : q = r
    · rw [same,Function.update_self] at now
      exact absurd now Bool.false_ne_true
    · rw [Function.update_of_ne same] at now
      exact ⟨same,now⟩
  constructor
  case chain =>
    rw [freeListIs,funext (onClose_next (taken s r) used)]
    exact inv.chain.push outside
  case nodup => exact List.nodup_cons.mpr ⟨outside,inv.nodup⟩
  case listed =>
    intro q
    rw [madeIs,states,List.mem_cons,inv.listed q]
    by_cases same : q = r
    · subst same
      simpa [taken] using made
    · simp [same,taken]
  case live =>
    intro q
    rw [liveIs,madeIs,states]
    show Function.update s.live r false q = true ↔ _
    by_cases same : q = r
    · simp [same]
    · rw [Function.update_of_ne same,if_neg same]
      exact inv.live q
  case closing =>
    intro q
    rw [closingIs,madeIs,states]
    show q ∈ s.closing.erase r ↔ _
    rw [inv.once.mem_erase_iff,inv.closing q]
    by_cases same : q = r
    · simp [same]
    · simp [same,taken]
  case once =>
    rw [closingIs]
    exact inv.once.erase r
  case numFree =>
    rw [numFreeIs,List.length_cons,← inv.numFree]
    rfl
  case all =>
    have sum := inv.all
    have some_ : s.serve.active ≠ 0 := by
      intro none_
      have parts := used_add_free (inUse s) inv.nodup fun q => by rw [inv.listed q,inUse_false_iff]
      rw [← inv.numFree] at parts
      have zero : (List.range s.serve.made).countP (inUse s) = 0 := by omega
      exact absurd ((inUse_iff s r).mpr used) (List.countP_eq_zero.mp zero r (List.mem_range.mpr made))
    rw [activeIs,numFreeIs,madeIs]
    show s.serve.active - 1 + (s.serve.numFree + 1) = s.serve.made
    omega
  case closes =>
    rw [closesIs]
    exact inv.closes
  case old =>
    rw [closesIs,acceptedIs]
    exact inv.old
  case recent =>
    intro q now
    rw [liveIs] at now
    rw [connectionIs,acceptedIs]
    exact inv.recent q (still q now).2
  case apart =>
    intro p q nowp nowq
    rw [liveIs] at nowp nowq
    rw [connectionIs]
    exact inv.apart p q (still p nowp).2 (still q nowq).2
  case opened =>
    intro q now openedq
    rw [liveIs] at now
    rw [states,if_neg (still q now).1] at openedq
    rw [connectionIs,closesIs]
    exact inv.opened q (still q now).2 openedq

/-- An object for a new connection: it was not in use, and what `ac_serve_request_init` leaves of
    the others is what they were. -/
structure Given (s : State) (t : State) (r : Nat) : Prop where
  idle : s.live r = false
  requestState : ∀ q, (t.serve.request q).requestState = if q = r then .open_ else (s.serve.request q).requestState
  next : ∀ q, q ≠ r → (t.serve.request q).next = (s.serve.request q).next
  inside : r < t.serve.made
  made : ∀ q, q ≠ r → (q < t.serve.made ↔ q < s.serve.made)
  active : t.serve.active = s.serve.active + 1
  accepted : t.accepted = s.accepted + 1
  connection : t.connection = Function.update s.connection r s.accepted
  live : t.live = Function.update s.live r true
  closing : t.closing = s.closing
  closes : t.closes = s.closes

theorem Inv.given {rest : List Nat} (inv : Inv s free) (given : Given s t r)
    (chain : Chain (fun q => (s.serve.request q).next) t.serve.freeList rest) (nodup : rest.Nodup)
    (parts : ∀ q, q ∈ rest ↔ q ≠ r ∧ q ∈ free) (numFree : t.serve.numFree = rest.length)
    (all : s.serve.active + 1 + rest.length = t.serve.made) : Inv t rest := by
  have old (q : Nat) (now : t.live q = true) (other : q ≠ r) : s.live q = true := by
    rw [given.live,Function.update_of_ne other] at now
    exact now
  have connections (q : Nat) (other : q ≠ r) : t.connection q = s.connection q := by
    rw [given.connection,Function.update_of_ne other]
  have mine : t.connection r = s.accepted := by rw [given.connection,Function.update_self]
  constructor
  case chain => exact chain.frame fun q member => given.next q ((parts q).mp member).1
  case nodup => exact nodup
  case listed =>
    intro q
    rw [parts q,given.requestState,inv.listed q]
    by_cases same : q = r
    · simp [same]
    · simp [same,given.made q same]
  case live =>
    intro q
    rw [given.live,given.requestState]
    by_cases same : q = r
    · subst same
      simp [given.inside]
    · rw [Function.update_of_ne same,if_neg same,given.made q same]
      exact inv.live q
  case closing =>
    intro q
    rw [given.closing,given.requestState]
    by_cases same : q = r
    · subst same
      have idle : ¬ q ∈ s.closing := by
        intro member
        obtain ⟨inside,state⟩ := (inv.closing q).mp member
        have alive := (inv.live q).mpr ⟨inside,by rw [state]; exact RequestState.noConfusion⟩
        rw [given.idle] at alive
        exact Bool.false_ne_true alive
      simp [idle]
    · rw [if_neg same,given.made q same]
      exact inv.closing q
  case once =>
    rw [given.closing]
    exact inv.once
  case numFree => exact numFree
  case all => rw [given.active,numFree,all]
  case closes =>
    rw [given.closes]
    exact inv.closes
  case old =>
    intro c member
    rw [given.closes] at member
    have before := inv.old c member
    rw [given.accepted]
    exact Nat.lt_succ_of_lt before
  case recent =>
    intro q now
    rw [given.accepted]
    by_cases same : q = r
    · rw [same,mine]
      exact Nat.lt_succ_self _
    · rw [connections q same]
      exact Nat.lt_succ_of_lt (inv.recent q (old q now same))
  case apart =>
    intro p q nowp nowq equal
    by_cases samep : p = r
    · by_cases sameq : q = r
      · exact samep.trans sameq.symm
      · have before := inv.recent q (old q nowq sameq)
        rw [samep,mine,connections q sameq] at equal
        exact absurd equal.symm (Nat.ne_of_lt before)
    · have before := inv.recent p (old p nowp samep)
      by_cases sameq : q = r
      · rw [sameq,mine,connections p samep] at equal
        exact absurd equal (Nat.ne_of_lt before)
      · rw [connections p samep,connections q sameq] at equal
        exact inv.apart p q (old p nowp samep) (old q nowq sameq) equal
  case opened =>
    intro q now openedq member
    rw [given.closes] at member
    by_cases same : q = r
    · rw [same,mine] at member
      exact Nat.lt_irrefl _ (inv.old _ member)
    · rw [given.requestState,if_neg same] at openedq
      rw [connections q same] at member
      exact inv.opened q (old q now same) openedq member

theorem Inv.not_live (inv : Inv s free) (idle : ¬ (r < s.serve.made ∧ (s.serve.request r).requestState ≠ .closed)) :
    s.live r = false := by
  cases alive : s.live r with
  | false => rfl
  | true => exact absurd ((inv.live r).mp alive) idle

theorem Inv.accept (inv : Inv s free) : ∃ rest, Inv (onAccept s) rest := by
  cases list : s.serve.freeList with
  | some r =>
    have chain := inv.chain
    rw [list] at chain
    obtain ⟨rest,whole,chain⟩ := chain.pop
    have member : r ∈ free := by rw [whole]; exact List.mem_cons_self
    obtain ⟨made,state⟩ := (inv.listed r).mp member
    have nodup := inv.nodup
    rw [whole,List.nodup_cons] at nodup
    have count := inv.numFree
    rw [whole,List.length_cons] at count
    have sum := inv.all
    refine ⟨rest,inv.given (r := r) ⟨?_,?_,?_,?_,?_,?_,?_,?_,?_,?_,?_⟩ ?_ nodup.2 ?_ ?_ ?_⟩
    · exact inv.not_live fun both => both.2 state
    · intro q
      by_cases same : q = r
      · subst same
        simp only [onAccept,acServeRequestInit,list,Function.update_self,acHttpParserClear,if_true]
      · simp only [onAccept,acServeRequestInit,list,Function.update_of_ne same,if_neg same]
    · intro q same
      simp only [onAccept,acServeRequestInit,list,Function.update_of_ne same]
    · simpa only [onAccept,acServeRequestInit,list] using made
    · intro q same
      simp only [onAccept,acServeRequestInit,list]
    · simp only [onAccept,acServeRequestInit,list]
    · simp only [onAccept,acServeRequestInit,list]
    · simp only [onAccept,acServeRequestInit,list]
    · simp only [onAccept,acServeRequestInit,list]
    · simp only [onAccept,acServeRequestInit,list]
    · simp only [onAccept,acServeRequestInit,list]
    · simpa only [onAccept,acServeRequestInit,list] using chain
    · intro q
      rw [whole,List.mem_cons]
      constructor
      · intro later
        exact ⟨fun same => nodup.1 (same ▸ later),.inr later⟩
      · rintro ⟨other,first | later⟩
        · exact absurd first other
        · exact later
    · simp only [onAccept,acServeRequestInit,list]
      omega
    · simp only [onAccept,acServeRequestInit,list]
      omega
  | none =>
    have sum := inv.all
    have count := inv.numFree
    refine ⟨free,inv.given (r := s.serve.made) ⟨?_,?_,?_,?_,?_,?_,?_,?_,?_,?_,?_⟩ ?_ inv.nodup ?_ ?_ ?_⟩
    · exact inv.not_live fun both => Nat.lt_irrefl _ both.1
    · intro q
      by_cases same : q = s.serve.made
      · subst same
        simp only [onAccept,acServeRequestInit,list,Function.update_self,if_true]
      · simp only [onAccept,acServeRequestInit,list,Function.update_of_ne same,if_neg same]
    · intro q same
      simp only [onAccept,acServeRequestInit,list,Function.update_of_ne same]
    · simp only [onAccept,acServeRequestInit,list]
      exact Nat.lt_succ_self _
    · intro q same
      simp only [onAccept,acServeRequestInit,list]
      omega
    · simp only [onAccept,acServeRequestInit,list]
    · simp only [onAccept,acServeRequestInit,list]
    · simp only [onAccept,acServeRequestInit,list]
    · simp only [onAccept,acServeRequestInit,list]
    · simp only [onAccept,acServeRequestInit,list]
    · simp only [onAccept,acServeRequestInit,list]
    · simpa only [onAccept,acServeRequestInit,list] using inv.chain
    · intro q
      constructor
      · intro member
        refine ⟨fun same => ?_,member⟩
        exact Nat.lt_irrefl _ (same ▸ ((inv.listed q).mp member).1)
      · exact And.right
    · simpa only [onAccept,acServeRequestInit,list] using count
    · simp only [onAccept,acServeRequestInit,list]
      omega

theorem Inv.step (codes : Codes) (inv : Inv s free) (event : Event) (enabled : Enabled s event) :
    ∃ after, Inv (step codes s event) after := by
  rcases step_cases codes s event enabled with accepted | ⟨r,waits,closed⟩ | ⟨r,alive,mild⟩
  · rw [accepted]
    exact inv.accept
  · rw [closed]
    exact ⟨r :: free,inv.closed waits⟩
  · exact ⟨free,inv.mild alive mild⟩

theorem Reached.inv {codes : Codes} (reached : Reached codes s) : ∃ free, Inv s free := by
  induction reached with
  | start => exact ⟨[],Inv.start⟩
  | step reached event enabled ih =>
    obtain ⟨free,inv⟩ := ih
    exact inv.step codes event enabled

theorem Inv.kept (inv : Inv s free) : Kept s := by
  refine ⟨free,inv.chain,fun r member => ((inv.listed r).mp member).1,?_,?_,inv.numFree,inv.closes⟩
  · intro r made
    cases used : inUse s r with
    | true =>
      refine .inl ⟨rfl,List.count_eq_zero.mpr fun member => ?_⟩
      exact (inUse_iff s r).mp used ((inv.listed r).mp member).2
    | false =>
      have member := (inv.listed r).mpr ⟨made,(inUse_false_iff s r).mp used⟩
      exact .inr ⟨rfl,List.count_eq_one_of_mem inv.nodup member⟩
  · have parts := used_add_free (inUse s) inv.nodup fun q => by rw [inv.listed q,inUse_false_iff]
    have all := inv.all
    rw [inv.numFree] at all
    omega

/-- In every state that is reached, every request object is in use or on the free list once,
    `active` and `num_free` count them, and no connection was closed twice. -/
theorem requests_kept (codes : Codes) (s : State) (reached : Reached codes s) : Kept s := by
  obtain ⟨free,inv⟩ := reached.inv
  exact inv.kept

/-- The codes on Linux. -/
def linux : Codes := ⟨-105,-4095,-104,-103⟩

/-- A connection that is reset; its object serves the next one. -/
theorem requests_kept_reset :
    Kept (step linux (step linux (step linux (step linux start .accept) (.read 0 (-104) ⟨true,true,true,false⟩))
      (.closed 0)) .accept) := by
  have opened : Reached linux (step linux start .accept) := Reached.start.step .accept trivial
  have reset := opened.step (.read 0 (-104) ⟨true,true,true,false⟩) (show _ = true from rfl)
  have closed := reset.step (.closed 0) (List.mem_cons_self (l := []))
  exact requests_kept linux _ (closed.step .accept trivial)

end AnotherC.Serve
