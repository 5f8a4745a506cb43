import Mathlib.Logic.Function.Basic
import AnotherC.Lib.Text

/-!
# Query tokens: `ac_token.c`

The tokens of a query are linked to their siblings, to their first child and to
their parent. Once the text is split, `ac_token_parse_expression` reorganizes
them: `fix_ors` lifts what an `or` separates under a new token, `fix_nots` sets
what is negated apart from the rest, and `group_and` closes a group around what
is left. The functions below do what the passes do to the links, token by token;
a loop stops with `none` where it runs out of fuel or follows a null pointer.
-/
namespace AnotherC.Tokens
open AnotherC.Lib.Text (Text)
set_option linter.unusedVariables false

/-- `ac_token_type_t`. -/
inductive TokenType
  | token | number | operator | comparison | modifier | and | or | not | dash | openParen | openBrace
  | openBracket | quote | dquote | closeParen | closeBrace | closeBracket | null | colon | question | comma
  | space | other
  deriving DecidableEq

abbrev Addr := Nat

/-- `struct ac_token_s`, with the fields that the passes read or write. -/
structure Token where
  type : TokenType
  token : Text
  next : Option Addr
  prev : Option Addr
  child : Option Addr
  parent : Option Addr

/-- The tokens of a pool; the addresses from `fresh` on are free. -/
structure Pool where
  cells : Addr → Token
  fresh : Addr

namespace Pool

def set (pool : Pool) (a : Addr) (t : Token) : Pool := { pool with cells := Function.update pool.cells a t }

def setNext (pool : Pool) (a : Addr) (p : Option Addr) : Pool := pool.set a { pool.cells a with next := p }
def setPrev (pool : Pool) (a : Addr) (p : Option Addr) : Pool := pool.set a { pool.cells a with prev := p }
def setChild (pool : Pool) (a : Addr) (p : Option Addr) : Pool := pool.set a { pool.cells a with child := p }
def setParent (pool : Pool) (a : Addr) (p : Option Addr) : Pool := pool.set a { pool.cells a with parent := p }

/-- `ac_pool_alloc`: the new token is at `pool.fresh`. -/
def alloc (pool : Pool) (t : Token) : Pool := { pool.set pool.fresh t with fresh := pool.fresh + 1 }

end Pool

/-- `tolower` on a byte. -/
def lower (c : UInt8) : UInt8 := if 65 ≤ c ∧ c ≤ 90 then c + 32 else c

/-- `!strcasecmp(a, b)`. -/
def sameCase (a b : Text) : Bool := a.map lower = b.map lower

def orText : Text := [111,114]
def notText : Text := [110,111,116]
def parenText : Text := [40]

/-- The test for an `or` in `fix_ors`. -/
def isOr (type : TokenType) (token : Text) : Bool := type = .or || (type = .token && sameCase token orText)

/-- The test for a `not` in `fix_nots`. -/
def isNot (type : TokenType) (token : Text) : Bool := type = .not || (type = .token && sameCase token notText)

/-- `parent->child = by`, where `resp` has been the first child of its parent. -/
def replaceChild (pool : Pool) (parent : Option Addr) (resp new : Addr) : Pool :=
  match parent with
  | some p => if (pool.cells p).child = some resp then pool.setChild p (some new) else pool
  | none => pool

/-! ## `fix_ors` -/

/-- The loop that gives every token of a chain its parent. -/
def adopt : Nat → Pool → Addr → Option Addr → Option Pool
  | 0, _, _, _ => none
  | fuel + 1, pool, parent, none => some pool
  | fuel + 1, pool, parent, some n =>
    let pool := pool.setParent n (some parent)
    adopt fuel pool parent (pool.cells n).next

/-- The loop that finds the end of a chain. -/
def last : Nat → Pool → Addr → Option Addr
  | 0, _, _ => none
  | fuel + 1, pool, n =>
    match (pool.cells n).next with
    | some next => last fuel pool next
    | none => some n

/-- Adds a token at the end of the children of `orParent`. -/
def addChild (pool : Pool) (orParent n : Addr) : Option Pool :=
  match (pool.cells orParent).child with
  | none => some (pool.setChild orParent (some n))
  | some first => do
    let prev ← last pool.fresh pool first
    some ((pool.setPrev n (some prev)).setNext prev (some n))

/-- One turn of the loop over the starts: a part of several tokens gets a group
    of its own. -/
def addStart (pool : Pool) (orParent start : Addr) : Option Pool :=
  if (pool.cells start).next.isSome then do
    let parent := pool.fresh
    let pool := pool.alloc ⟨.openParen,parenText,none,none,some start,some orParent⟩
    let pool ← adopt pool.fresh pool parent (some start)
    addChild pool orParent parent
  else
    addChild (pool.setParent start (some orParent)) orParent start

def addStarts (orParent : Addr) : Pool → List Addr → Option Pool
  | pool, [] => some pool
  | pool, start :: starts => do
    let pool ← addStart pool orParent start
    addStarts orParent pool starts

/-- The end of `fix_ors`, after its loop. -/
def liftOrs (pool : Pool) (resp : Addr) (st : Option Addr) (bh : List Addr) : Option (Pool × Addr) :=
  match bh with
  | [] => some (pool,resp)
  | first :: _ => do
    let starts := match st with
      | some st => bh ++ [st]
      | none => bh
    let orParent := pool.fresh
    let parent := (pool.cells first).parent
    let pool := replaceChild (pool.alloc ⟨.or,orText,none,none,none,parent⟩) parent resp orParent
    let pool ← addStarts orParent pool starts
    some (pool,orParent)

/-- What an `or` at `t` does to the links of its neighbours. -/
def cutOr (pool : Pool) (t : Addr) (next : Option Addr) : Pool :=
  let pool := match (pool.cells t).prev with
    | some prev => pool.setNext prev none
    | none => pool
  match next with
  | some next => pool.setPrev next none
  | none => pool

mutual
def fixOrs : Nat → Pool → Addr → Option (Pool × Addr)
  | 0, _, _ => none
  | fuel + 1, pool, t => do
    let (pool,st,bh) ← splitOrs fuel pool (some t) (some t) []
    liftOrs pool t st bh

/-- The loop of `fix_ors`: `st` is where the part at hand starts, and `bh` holds
    the starts of the parts before it. -/
def splitOrs : Nat → Pool → Option Addr → Option Addr → List Addr → Option (Pool × Option Addr × List Addr)
  | 0, _, _, _, _ => none
  | fuel + 1, pool, none, st, bh => some (pool,st,bh)
  | fuel + 1, pool, some t, st, bh => do
    let next := (pool.cells t).next
    let pool ← (match (pool.cells t).child with
      | some child =>
        if (pool.cells t).type = .dquote then some pool
        else do
          let (pool,child) ← fixOrs fuel pool child
          some (pool.setChild t (some child))
      | none => some pool)
    if isOr (pool.cells t).type (pool.cells t).token then do
      let bh ← (if next.isSome && st ≠ some t then st.map fun st => bh ++ [st] else some bh)
      splitOrs fuel (cutOr pool t next) next next bh
    else
      splitOrs fuel pool next st bh
end

/-! ## `fix_nots` -/

/-- The loop that makes siblings of the tokens of an array. -/
def link (parent : Addr) : Pool → Addr → List Addr → Pool
  | pool, _, [] => pool
  | pool, prev, n :: ns =>
    link parent (((pool.setParent n (some parent)).setPrev n (some prev)).setNext prev (some n)) n ns

/-- The token that stands for an array: a new one over the tokens where there are
    several. -/
def root (pool : Pool) (type : TokenType) (token : Text) : List Addr → Pool × Option Addr
  | [] => (pool,none)
  | [n] => (pool,some n)
  | n :: m :: ns =>
    let parent := pool.fresh
    let pool := pool.alloc ⟨type,token,none,none,some n,none⟩
    let pool := (pool.setParent n (some parent)).setPrev n none
    let pool := pool.setNext ((m :: ns).getLast (by simp)) none
    (link parent pool n (m :: ns),some parent)

/-- The second loop of `fix_nots`: it takes the siblings apart. -/
def takeNots : Nat → Pool → Option Addr → List Addr → List Addr → Option (Pool × List Addr × List Addr)
  | 0, _, _, _, _ => none
  | fuel + 1, pool, none, nots, others => some (pool,nots,others)
  | fuel + 1, pool, some t, nots, others =>
    let next := (pool.cells t).next
    if isNot (pool.cells t).type (pool.cells t).token then
      let pool := match (pool.cells t).prev with
        | some prev => pool.setNext prev none
        | none => pool
      match next with
      | none => takeNots fuel pool none nots others
      | some next =>
        let pool := pool.setPrev next none
        let pool := match (pool.cells next).next with
          | some next2 => pool.setPrev next2 none
          | none => pool
        let next2 := (pool.cells next).next
        takeNots fuel (pool.setNext next none) next2 (nots ++ [next]) others
    else
      let pool := match (pool.cells t).prev with
        | some prev => pool.setNext prev none
        | none => pool
      let pool := match (pool.cells t).next with
        | some next => pool.setPrev next none
        | none => pool
      takeNots fuel ((pool.setNext t none).setPrev t none) next nots (others ++ [t])

/-- The part of `fix_nots` for siblings of both kinds. -/
def liftNots (pool : Pool) (resp : Addr) : Option (Pool × Addr) := do
  let rootParent := (pool.cells resp).parent
  let (pool,nots,others) ← takeNots (pool.fresh + 1) pool (some resp) [] []
  let (pool,notRoot) := root pool .or orText nots
  let (pool,otherRoot) := root pool .openParen parenText others
  let notParent := pool.fresh
  let notRoot ← notRoot
  let pool := pool.alloc ⟨.not,notText,none,none,none,rootParent⟩
  let pool := replaceChild pool rootParent resp notParent
  let pool := pool.setChild notParent (some notRoot)
  let pool := ((pool.setParent notRoot (some notParent)).setNext notRoot otherRoot).setPrev notRoot none
  match otherRoot with
  | some other =>
    some (((pool.setPrev other (some notRoot)).setParent other (some notParent)).setNext other none,notParent)
  | none => some (pool,notParent)

mutual
def fixNots : Nat → Pool → Addr → Option (Pool × Addr)
  | 0, _, _ => none
  | fuel + 1, pool, t => do
    let (pool,numNots,numOthers) ← countNots fuel pool (some t) 0 0
    if 0 < numNots ∧ 0 < numOthers then liftNots pool t else some (pool,t)

/-- The first loop of `fix_nots`. -/
def countNots : Nat → Pool → Option Addr → Nat → Nat → Option (Pool × Nat × Nat)
  | 0, _, _, _, _ => none
  | fuel + 1, pool, none, numNots, numOthers => some (pool,numNots,numOthers)
  | fuel + 1, pool, some t, numNots, numOthers => do
    let next := (pool.cells t).next
    let pool ← (match (pool.cells t).child with
      | some child =>
        if (pool.cells t).type = .dquote then some pool
        else do
          let (pool,child) ← fixNots fuel pool child
          some (pool.setChild t (some child))
      | none => some pool)
    if isNot (pool.cells t).type (pool.cells t).token then
      match next with
      | some next => countNots fuel pool (pool.cells next).next (numNots + 1) numOthers
      | none => countNots fuel pool none numNots numOthers
    else
      countNots fuel pool next numNots (numOthers + 1)
end

/-! ## The whole -/

def groupAnd (pool : Pool) (t : Addr) : Pool × Addr :=
  if (pool.cells t).next.isNone then (pool,t)
  else
    let andParent := pool.fresh
    ((pool.alloc ⟨.openParen,parenText,none,none,some t,none⟩).setParent t (some andParent),andParent)

/-- Turns enough for every token of the pool to be met as a sibling and as a
    child. -/
def turns (pool : Pool) : Nat := 2 * pool.fresh + 2

/-- The end of `ac_token_parse_expression`, where the tokens are reorganized. -/
def reorganize (pool : Pool) (head : Addr) : Option (Pool × Addr) := do
  let (pool,head) ← fixOrs (turns pool) pool head
  let (pool,head) ← fixNots (turns pool) pool head
  some (groupAnd pool head)

/-! ## What a tree stands for

`_ac_cursor_open` builds the cursor of a tree: it finds the ids where the words
that it meets stand as its tokens demand. -/

mutual
/-- Whether an id is found, where `holds` says which words (and phrases) it has. -/
def cursorOpen (holds : Addr → Bool) : Nat → Pool → Addr → Option Bool
  | 0, _, _ => none
  | fuel + 1, pool, t =>
    match (pool.cells t).child with
    | none => some (holds t)
    | some child =>
      match (pool.cells t).type with
      | .openParen => cursorAll holds fuel pool (some child)
      | .dquote => some (holds t)
      | .or => cursorAny holds fuel pool (some child)
      | .not =>
        match (pool.cells child).next with
        | some next => do
          let pos ← cursorOpen holds fuel pool next
          let neg ← cursorOpen holds fuel pool child
          some (pos && !neg)
        | none => some false
      | _ => some false

/-- The loop that adds to an `and` cursor. -/
def cursorAll (holds : Addr → Bool) : Nat → Pool → Option Addr → Option Bool
  | 0, _, _ => none
  | fuel + 1, pool, none => some true
  | fuel + 1, pool, some n => do
    let first ← cursorOpen holds fuel pool n
    let rest ← cursorAll holds fuel pool (pool.cells n).next
    some (first && rest)

/-- The loop that adds to an `or` cursor. -/
def cursorAny (holds : Addr → Bool) : Nat → Pool → Option Addr → Option Bool
  | 0, _, _ => none
  | fuel + 1, pool, none => some false
  | fuel + 1, pool, some n => do
    let first ← cursorOpen holds fuel pool n
    let rest ← cursorAny holds fuel pool (pool.cells n).next
    some (first || rest)
end

/-- The boolean function of a tree. -/
def denotes (pool : Pool) (t : Addr) (holds : Addr → Bool) : Option Bool := cursorOpen holds (turns pool) pool t

end AnotherC.Tokens
