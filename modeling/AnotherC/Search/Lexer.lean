import AnotherC.Search.Token

/-!
# The scanner of a query: `ac_token_parse_expression`

The scanner goes over the text from one character to the next and hands what it finds to
`token_init`, which links a new token below the last one or behind it. A string is read as its
bytes and the terminator; reading on behind that is a fault, as are a null pointer that is followed,
and a token of the pool that is handed to `free`. There is no callback, so that `next` and `global`
of `token_head_t` stay NULL and are left out.
-/
namespace AnotherC.Lexer
open AnotherC.Tokens (TokenType Token Pool Addr)
open AnotherC.Lib.Text (Text)
set_option linter.unusedVariables false

/-- What ends a run early; `turns` is the fuel of a loop. -/
inductive Fault
  | read | null | free | turns
  deriving DecidableEq, Repr

/-- `token_head_t`, with the `attrs` of every token. -/
structure Head where
  pool : Pool
  head : Option Addr
  tail : Option Addr
  attrs : Addr → List Text

/-- `s[i]`. -/
def char (s : Text) (i : Nat) : Except Fault UInt8 :=
  match (s ++ [0])[i]? with
  | some c => .ok c
  | none => .error .read

/-- What `memcpy` takes from `p` on. -/
def copy (s : Text) (p len : Nat) : Except Fault Text :=
  if p + len ≤ s.length + 1 then .ok (((s ++ [0]).drop p).take len) else .error .read

/-- `ac_pool_strndup`, which stops at the terminator. -/
def strndup (s : Text) (p len : Nat) : Except Fault Text :=
  if p ≤ s.length then .ok ((s.drop p).take len) else .error .read

/-- `free`: what the pool has given out is not on the heap. -/
def free (pool : Pool) (a : Addr) : Except Fault Unit := if a < pool.fresh then .error .free else .ok ()

/-! ## `token_merge` -/

/-- `if(link && link->back == old) link->back = t`. -/
def relink (pool : Pool) (link : Option Addr) (back : Token → Option Addr) (set : Pool → Addr → Option Addr → Pool)
    (old t : Addr) : Pool :=
  match link with
  | some a => if back (pool.cells a) = some old then set pool a (some t) else pool
  | none => pool

def tokenMerge (th : Head) (p : Text) (type : TokenType) : Except Fault Head :=
  match th.tail with
  | none => .error .null
  | some tail => do
    let t := th.pool.fresh
    let cell := th.pool.cells tail
    let pool := th.pool.alloc { cell with token := cell.token ++ p, type := type }
    let pool := relink pool cell.parent Token.child Pool.setChild tail t
    let pool := relink pool cell.child Token.parent Pool.setParent tail t
    let pool := relink pool cell.prev Token.next Pool.setNext tail t
    let pool := relink pool cell.next Token.prev Pool.setPrev tail t
    free pool tail
    .ok ⟨pool,if th.head = some tail then some t else th.head,some t,Function.update th.attrs t (th.attrs tail)⟩

/-! ## `__token_init` -/

/-- `p[0] == c && p[1] == 0`. -/
def alone (s : Text) (p : Nat) (c : UInt8) : Except Fault Bool := do
  let a ← char s p
  if a = c then do
    let b ← char s (p + 1)
    .ok (b = 0)
  else .ok false

def setToken (th : Head) (a : Addr) (token : Text) : Head :=
  { th with pool := th.pool.set a { th.pool.cells a with token := token } }

/-- The first four tests: a sign at the end of the string after a sign. -/
def sign (th : Head) (s : Text) (p : Nat) : Except Fault (Option Head) :=
  match th.tail with
  | none => .ok none
  | some tail => do
    let minus ← alone s p 45
    let plus ← alone s p 43
    let token := (th.pool.cells tail).token
    if minus ∧ token = [45] then .ok (some (setToken th tail [43]))
    else if plus ∧ token = [43] then .ok (some th)
    else if minus ∧ token = [43] then .ok (some (setToken th tail [45]))
    else if plus ∧ token = [45] then .ok (some th)
    else .ok none

def tailType (th : Head) : TokenType :=
  match th.tail with
  | some tail => (th.pool.cells tail).type
  | none => .other

/-- `th->tail->parent`, where there is one. -/
def parent (th : Head) : Option Addr := th.tail.bind fun tail => (th.pool.cells tail).parent

def parentType (th : Head) : Option TokenType := (parent th).map fun a => (th.pool.cells a).type

/-- `!th->tail->child`. -/
def childless (th : Head) : Bool := th.tail.all fun tail => (th.pool.cells tail).child.isNone

/-- `th->tail = th->tail->parent`. -/
def up (th : Head) : Head := { th with tail := parent th }

/-- The child of empty parentheses. -/
def addNull (th : Head) : Head :=
  match th.tail with
  | some tail =>
    { th with
      pool := (th.pool.alloc ⟨.null,[],none,none,none,some tail⟩).setChild tail (some th.pool.fresh)
      attrs := Function.update th.attrs th.pool.fresh [] }
  | none => th

/-- What `)`, `}` and `]` do, each for its own `opener`. -/
def close (th : Head) (opener : TokenType) : Head :=
  if parentType th = some opener then up th
  else if tailType th = opener ∧ childless th then addNull th else th

/-- Whether `th->tail->parent` is a comparison with the text `=`. -/
def inValue (th : Head) : Bool :=
  (parent th).any fun a => (th.pool.cells a).type = .comparison && (th.pool.cells a).token = [61]

/-- What closes, a space, and a comma outside of parentheses and brackets give no token. -/
def settle (th : Head) : TokenType → Option Head
  | .closeParen => some (close th .openParen)
  | .closeBrace => some (close th .openBrace)
  | .closeBracket => some (close th .openBracket)
  | .dquote =>
    if parentType th = some .dquote then some (up th)
    else if tailType th = .dquote ∧ childless th then some th else none
  | .space => some (if inValue th then up th else th)
  | .comma =>
    if th.tail = none ∨ (parentType th ≠ some .openParen ∧ parentType th ≠ some .openBracket ∧
        tailType th ≠ .openParen ∧ tailType th ≠ .openBracket) then some th else none
  | _ => none

/-- Where the links to the sibling before lead, `n` times. -/
def back (pool : Pool) : Nat → Addr → Option Addr
  | 0, a => some a
  | n + 1, a => (pool.cells a).prev.bind (back pool n)

/-- From a `:` on, the token before the comparison, where the siblings before the `:` are those of
    `a > b ? c`. -/
def ternary (pool : Pool) (colon : Addr) : Option Addr := do
  let question ← back pool 2 colon
  let comparison ← back pool 4 colon
  let first ← back pool 5 colon
  if (pool.cells question).type = .question ∧ (pool.cells comparison).type = .comparison then some first else none

/-- `if(t->prev) t->prev->next = t`. -/
def linkFront (pool : Pool) (t : Addr) : Pool :=
  match (pool.cells t).prev with
  | some prev => pool.setNext prev (some t)
  | none => pool

/-- The end of `__token_init`: a parenthesis takes the place of the first token of a ternary. -/
def group (th : Head) : Head :=
  match (th.tail.bind fun tail => (th.pool.cells tail).prev).bind (ternary th.pool) with
  | none => th
  | some first =>
    let t := th.pool.fresh
    let pool := th.pool.alloc { th.pool.cells first with token := [40], type := .openParen, child := some first, next := none }
    let pool := linkFront ((pool.setParent first (some t)).setPrev first none) t
    { th with pool := pool, tail := some t, attrs := Function.update th.attrs t (th.attrs first) }

/-- The kinds of tokens that take a first child. -/
def takes (cell : Token) : Bool :=
  cell.child.isNone && (cell.type = .openParen || cell.type = .openBrace || cell.type = .openBracket || cell.type = .dquote ||
    (cell.type = .comparison && cell.token = [61]))

/-- A new token and its links. -/
def attach (th : Head) (token : Text) (type : TokenType) : Except Fault (Option Addr × Head) :=
  let t := th.pool.fresh
  let attrs := Function.update th.attrs t []
  match th.head with
  | none => .ok (some t,⟨th.pool.alloc ⟨type,token,none,none,none,none⟩,some t,some t,attrs⟩)
  | some head =>
    match th.tail with
    | none => .error .null
    | some tail =>
      let cell := th.pool.cells tail
      if takes cell then
        .ok (some t,⟨(th.pool.alloc ⟨type,token,none,none,none,some tail⟩).setChild tail (some t),some head,some t,attrs⟩)
      else
        let th : Head :=
          ⟨(th.pool.alloc ⟨type,token,none,some tail,none,cell.parent⟩).setNext tail (some t),some head,some t,attrs⟩
        .ok (some t,if cell.type = .colon then group th else th)

def tokenInit (th : Head) (s : Text) (p len : Nat) (type : TokenType) : Except Fault (Option Addr × Head) := do
  match ← sign th s p with
  | some th => .ok (none,th)
  | none =>
    if type = .comparison ∧ tailType th = .comparison then do
      let token ← copy s p len
      let th ← tokenMerge th token type
      .ok (none,th)
    else
      match settle th type with
      | some th => .ok (none,th)
      | none => do
        let token ← copy s p len
        attach th token type

/-! ## Attributes -/

/-- The loop over a quoted token. -/
def quotedEnd (s : Text) (quote : UInt8) : Nat → Nat → Except Fault Nat
  | 0, _ => .error .turns
  | fuel + 1, p => do
    let c ← char s p
    if c = 0 ∨ c = quote then .ok p
    else if c = 92 then do
      let d ← char s (p + 1)
      quotedEnd s quote fuel (if d ≠ 0 then p + 2 else p + 1)
    else quotedEnd s quote fuel (p + 1)

/-- The loop over a plain token: `char` is signed, so that all bytes from 128 on end it too. -/
def plainEnd (s eot : Text) : Nat → Nat → Except Fault Nat
  | 0, _ => .error .turns
  | fuel + 1, p => do
    let c ← char s p
    if c = 0 ∨ c ≤ 32 ∨ 128 ≤ c ∨ c ∈ eot then .ok p else plainEnd s eot fuel (p + 1)

/-- The token at `p`, and where it ends. -/
def getNextToken (s eot : Text) (p : Nat) : Except Fault (Text × Nat) := do
  let c ← char s p
  if c = 39 ∨ c = 34 then do
    let q ← quotedEnd s c (s.length + 1) (p + 1)
    let d ← char s q
    let token ← strndup s (p + 1) (q - (p + 1))
    .ok (token,if d = c then q + 1 else q)
  else do
    let q ← plainEnd s eot (s.length + 1) p
    let token ← strndup s p (q - p)
    .ok (token,q)

/-- `if(token[0]) ac_buffer_append(..)`. -/
def append (bh : List Text) (token : Text) : List Text := if token = [] then bh else bh ++ [token]

/-- The loop over the tokens in brackets. -/
def attrList (s : Text) : Nat → Nat → List Text → Except Fault (Nat × List Text)
  | 0, _, _ => .error .turns
  | fuel + 1, p, bh => do
    let c ← char s p
    if c = 0 ∨ c = 93 then .ok (p,bh)
    else do
      let (token,p) ← getNextToken s [93,44] p
      let d ← char s p
      attrList s fuel (if d = 0 ∨ d = 93 then p else p + 1) (append bh token)

/-- The part of `token_parse_attr` before the token is made: where it ends, and the attributes. -/
def parseAttr (s : Text) (ep : Nat) : Except Fault (Nat × List Text) := do
  let c ← char s ep
  let (p,bh) ← (if c = 91 then do
      let (p,bh) ← attrList s (s.length + 1) (ep + 1) []
      let d ← char s p
      .ok (if d = 93 then p + 1 else p,bh)
    else .ok (ep,[]))
  let (token,p) ← getNextToken s [] p
  .ok (p,append bh token)

/-! ## The scanner -/

/-- What a token is made of: `len` bytes of a string from `p` on, and for a parameter its attributes. -/
structure Call where
  s : Text
  p : Nat
  len : Nat
  type : TokenType
  attrs : List Text

/-- `token_init`, or the end of `token_parse_attr`. -/
def emit (th : Head) (call : Call) : Except Fault Head := do
  let (tok,th) ← tokenInit th call.s call.p call.len call.type
  if call.attrs = [] then .ok th
  else match tok with
    | some tok => .ok { th with attrs := Function.update th.attrs tok call.attrs }
    | none => .error .null

/-- The loop of `has_parent`. -/
def climbs (pool : Pool) (type : TokenType) : Nat → Addr → Except Fault Bool
  | 0, _ => .error .turns
  | fuel + 1, t =>
    match (pool.cells t).parent with
    | none => .ok false
    | some parent => if (pool.cells parent).type = type then .ok true else climbs pool type fuel parent

def hasParent (th : Head) (type : TokenType) : Except Fault Bool :=
  match th.tail with
  | none => .ok false
  | some t => if (th.pool.cells t).type = type then .ok true else climbs th.pool type (th.pool.fresh + 1) t

/-- The same loop over again, for a quote. -/
def isQuoted (th : Head) : Except Fault Bool := hasParent th .dquote

/-- The loop over blanks. -/
def blankEnd (s : Text) : Nat → Nat → Except Fault Nat
  | 0, _ => .error .turns
  | fuel + 1, p => do
    let c ← char s p
    if 0 < c ∧ c ≤ 32 then blankEnd s fuel (p + 1) else .ok p

/-- The characters that are looked at outside of quotes only, each with the type of its token. -/
def mark (c : UInt8) : Option TokenType :=
  if c = 44 then some .comma
  else if c = 40 then some .openParen
  else if c = 41 then some .closeParen
  else if c = 123 then some .openBrace
  else if c = 125 then some .closeBrace
  else if c = 91 then some .openBracket
  else if c = 93 then some .closeBracket
  else if c = 33 ∨ c = 61 ∨ c = 60 ∨ c = 62 then some .comparison
  else if c = 45 ∨ c = 43 ∨ c = 47 ∨ c = 37 ∨ c = 94 then some .operator
  else none

/-- The token from `token_start` to `s`, where one has begun. -/
def pending (text : Text) (s : Nat) (tokenStart : Option Nat) (type : TokenType) : List Call :=
  match tokenStart with
  | some start => [⟨text,start,s - start,type,[]⟩]
  | none => []

/-- One turn of the loop, at a character that is not the terminator: the tokens that are made, in their
    order, and what `s` and `token_start` are behind them. -/
def turn (text : Text) (th : Head) (s : Nat) (tokenStart : Option Nat) : Except Fault (List Call × Nat × Option Nat) := do
  let c ← char text s
  let flushed := pending text s tokenStart .token
  if c = 42 then
    match tokenStart with
    | some start => do
      let braced ← hasParent th .openBrace
      if braced then .ok ([⟨text,start,s - start,.modifier,[]⟩,⟨text,s,1,.operator,[]⟩],s + 1,none)
      else .ok ([⟨text,start,s + 1 - start,.modifier,[]⟩],s + 1,none)
    | none => .ok ([⟨text,s,1,.operator,[]⟩],s + 1,none)
  else if c = 58 then
    match tokenStart with
    | some start => do
      let (p,attrs) ← parseAttr text (s + 1)
      let param ← strndup text start (s + 1 - start)
      .ok ([⟨param,0,param.length,.token,attrs⟩],p,none)
    | none => .ok ([⟨text,s,1,.colon,[]⟩],s + 1,none)
  else if c = 63 then .ok (pending text s tokenStart .modifier ++ [⟨text,s,1,.question,[]⟩],s + 1,none)
  else if c = 38 then do
    let d ← char text (s + 1)
    let s := if d = 38 then s + 1 else s
    .ok (flushed ++ [⟨text,s,1,.and,[]⟩],s + 1,none)
  else if c = 124 then do
    let d ← char text (s + 1)
    let s := if d = 124 then s + 1 else s
    .ok (flushed ++ [⟨text,s,1,.or,[]⟩],s + 1,none)
  else if c = 34 then .ok (flushed ++ [⟨text,s,1,.dquote,[]⟩],s + 1,none)
  else if c = 46 then do
    let d ← char text (s + 1)
    let e ← (if d = 46 then char text (s + 2) else .ok 0)
    if e ≠ 0 then .ok (flushed ++ [⟨text,s,2,.dash,[]⟩],s + 2,none)
    else .ok (flushed ++ [⟨text,s,1,.other,[]⟩],s + 1,none)
  else if c = 35 ∨ c = 126 ∨ c = 96 ∨ c = 59 then .ok (flushed ++ [⟨text,s,1,.other,[]⟩],s + 1,none)
  else if c = 92 then do
    let d ← char text (s + 1)
    .ok (flushed,if d ≠ 0 then s + 2 else s + 1,none)
  else if c = 39 ∨ (1 ≤ c ∧ c ≤ 32) then do
    let p ← blankEnd text (text.length + 1) (s + 1)
    .ok (flushed ++ [⟨[32],0,1,.space,[]⟩],p,none)
  else
    match mark c with
    | some type => do
      let quoted ← isQuoted th
      -- in quotes, each of these cases falls through to that of the other characters
      .ok (flushed ++ [⟨text,s,1,if quoted then .other else type,[]⟩],s + 1,none)
    | none => .ok ([],s + 1,some (tokenStart.getD s))

/-- The loop of the scanner, and what is pending behind it. -/
def scan (text : Text) : Nat → Head → Nat → Option Nat → Except Fault Head
  | 0, _, _, _ => .error .turns
  | fuel + 1, th, s, tokenStart => do
    let c ← char text s
    if c = 0 then (pending text s tokenStart .token).foldlM emit th
    else do
      let (calls,s,tokenStart) ← turn text th s tokenStart
      let th ← calls.foldlM emit th
      scan text fuel th s tokenStart

/-- `memset(&th, 0, sizeof(th))`; the addresses are those of the tokens that the scanner makes. -/
def initial : Head := ⟨⟨fun _ => ⟨.null,[],none,none,none,none⟩,0⟩,none,none,fun _ => []⟩

/-- `ac_token_parse_expression` up to where the tokens are reorganized. -/
def parseExpression (text : Text) : Except Fault Head := scan text (text.length + 1) initial 0 none

end AnotherC.Lexer
