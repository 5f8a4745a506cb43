import Mathlib.Data.List.Basic
import Mathlib.Data.List.Nodup
import AnotherC.Lib.Dependence
import AnotherC.Search.Token

/-!
# Trees of query tokens

What the passes of `ac_token.c` do, on trees instead of links: a token with its
children, and a list of siblings. A list of siblings has an infix reading, a
rewritten tree is read as `_ac_cursor_open` reads it, and the passes keep the
reading exactly where the list is `regular`: elsewhere an operator stays behind as
a word, or an operand is lost.
-/
namespace AnotherC.Tokens
open AnotherC.Lib.Text (Text)
open AnotherC.Lib.Dependence
set_option linter.unusedVariables false

/-- A token at an address, with its children. -/
inductive Tree
  | node (a : Addr) (type : TokenType) (token : Text) (child : List Tree)

namespace Tree

def addr : Tree → Addr
  | node a _ _ _ => a

def child : Tree → List Tree
  | node _ _ _ child => child

def isOr : Tree → Bool
  | node _ type token _ => Tokens.isOr type token

def isNot : Tree → Bool
  | node _ type token _ => Tokens.isNot type token

/-- Induction over the children. -/
@[elab_as_elim]
theorem induct {P : Tree → Prop} (node : ∀ a type token child, (∀ t ∈ child, P t) → P (.node a type token child)) :
    ∀ t, P t
  | .node a type token child => node a type token child (each child)
where
  each : ∀ ts : List Tree, ∀ t ∈ ts, P t
    | [] => nofun
    | t :: ts => by
      intro u member
      cases member with
      | head => exact induct node t
      | tail _ member => exact each ts u member

end Tree

/-! ## The infix reading -/

/-- What stands in a list of siblings: an operator or an operand. -/
inductive Piece (α : Type)
  | or
  | not
  | item (x : α)

def Piece.isOr {α : Type} : Piece α → Bool
  | .or => true
  | _ => false

def Piece.isNot {α : Type} : Piece α → Bool
  | .not => true
  | _ => false

/-- The value of an operand. -/
def Piece.value : Piece Bool → Bool
  | .item b => b
  | _ => false

section
variable {α : Type}

/-- The longest parts without a separator, after the part `cur`; an empty part does
    not count. -/
def segmentsFrom (sep : α → Bool) (cur : List α) : List α → List (List α)
  | [] => if cur.isEmpty then [] else [cur]
  | x :: xs =>
    if sep x then if cur.isEmpty then segmentsFrom sep [] xs else cur :: segmentsFrom sep [] xs
    else segmentsFrom sep (cur ++ [x]) xs

def segments (sep : α → Bool) (xs : List α) : List (List α) := segmentsFrom sep [] xs

/-- The operands of a segment, each with whether a `not` stands right before it; a
    `not` that no operand follows is ignored. -/
def signs : List (Piece α) → List (Bool × α)
  | .not :: .item x :: ps => (true,x) :: signs ps
  | .item x :: ps => (false,x) :: signs ps
  | _ :: ps => signs ps
  | [] => []

end

/-- The infix reading: some segment has every operand, but none of the negated
    ones. -/
def infixOf (ps : List (Piece Bool)) : Bool :=
  (segments Piece.isOr ps).any fun seg => (signs seg).all fun s => s.2 != s.1

namespace Tree

/-- A token as a piece: an operator has no children. -/
def mark {α : Type} (t : Tree) (x : α) : Piece α :=
  if t.child.isEmpty && t.isOr then .or else if t.child.isEmpty && t.isNot then .not else .item x

mutual
/-- The reading of a group is that of its children; the children of an `or` that
    has been lifted are alternatives. -/
def reading (holds : Addr → Bool) : Tree → Bool
  | .node a type token child =>
    if child.isEmpty then holds a
    else if type = .or then (readEach holds child).any Piece.value
    else infixOf (readEach holds child)

def readEach (holds : Addr → Bool) : List Tree → List (Piece Bool)
  | [] => []
  | t :: ts => t.mark (t.reading holds) :: readEach holds ts
end

end Tree

/-- The infix reading of a list of siblings. -/
def reads (holds : Addr → Bool) (ts : List Tree) : Bool := infixOf (Tree.readEach holds ts)

/-! ## The reading of a rewritten tree -/

namespace Tree

mutual
/-- What `cursorOpen` finds. -/
def denote (holds : Addr → Bool) : Tree → Bool
  | .node a type token child =>
    if child.isEmpty then holds a
    else match type with
      | .openParen => (denoteEach holds child).all id
      | .dquote => holds a
      | .or => (denoteEach holds child).any id
      | .not =>
        match denoteEach holds child with
        | neg :: pos :: _ => pos && !neg
        | _ => false
      | _ => false

def denoteEach (holds : Addr → Bool) : List Tree → List Bool
  | [] => []
  | t :: ts => t.denote holds :: denoteEach holds ts
end

mutual
/-- The tokens without children. -/
def leaves : Tree → List Tree
  | .node a type token child => if child.isEmpty then [.node a type token child] else leavesEach child

def leavesEach : List Tree → List Tree
  | [] => []
  | t :: ts => t.leaves ++ leavesEach ts
end

end Tree

/-! ## The passes -/

/-- The loop of `fix_ors`: the siblings from the first on as long as no part is
    complete, the part at hand, and the complete parts. -/
def splitTrees (whole cur : List Tree) (segs : List (List Tree)) :
    List Tree → List Tree × List Tree × List (List Tree)
  | [] => (whole,cur,segs)
  | t :: ts =>
    if t.isOr then
      if ts.isEmpty then (if cur.isEmpty then whole ++ [t] else whole,[],segs)
      else if cur.isEmpty then splitTrees (whole ++ [t]) [] segs ts
      else splitTrees whole [] (segs ++ [cur]) ts
    else splitTrees (whole ++ [t]) (cur ++ [t]) segs ts

/-- The children of the new `or`. -/
def wrapEach : Addr → List (List Tree) → Addr × List Tree
  | n, [] => (n,[])
  | n, [t] :: segs =>
    let rest := wrapEach n segs
    (rest.1,t :: rest.2)
  | n, seg :: segs =>
    let rest := wrapEach (n + 1) segs
    (rest.1,.node n .openParen parenText seg :: rest.2)

/-- The parts that `fix_ors` keeps, and the part it returns where there is no
    complete one. -/
def starts (ts : List Tree) : List (List Tree) :=
  let parts := splitTrees [] [] [] ts
  if parts.2.1.isEmpty then parts.2.2 else parts.2.2 ++ [parts.2.1]

def joinOrs (n : Addr) (ts : List Tree) : Addr × List Tree :=
  let parts := splitTrees [] [] [] ts
  if parts.2.2.isEmpty then (n,parts.1)
  else
    let children := wrapEach (n + 1) (starts ts)
    (children.1,[.node n .or orText children.2])

mutual
/-- `fix_ors` on the children of a token; `n` is the first free address. -/
def Tree.ors (n : Addr) : Tree → Addr × Tree
  | .node a type token child =>
    if child.isEmpty || type = .dquote then (n,.node a type token child)
    else
      let fixed := orsEach n child
      let joined := joinOrs fixed.1 fixed.2
      (joined.1,.node a type token joined.2)

def orsEach (n : Addr) : List Tree → Addr × List Tree
  | [] => (n,[])
  | t :: ts =>
    let first := t.ors n
    let rest := orsEach first.1 ts
    (rest.1,first.2 :: rest.2)
end

/-- `fix_ors` on a list of siblings. -/
def ors (n : Addr) (ts : List Tree) : Addr × List Tree :=
  let fixed := orsEach n ts
  joinOrs fixed.1 fixed.2

/-- The tokens that the second loop of `fix_nots` puts into `nots` and into
    `others`. -/
def sortNots : List Tree → List Tree × List Tree
  | [] => ([],[])
  | t :: ts =>
    if t.isNot then
      match ts with
      | [] => ([],[])
      | u :: us =>
        let rest := sortNots us
        (u :: rest.1,rest.2)
    else
      let rest := sortNots ts
      (rest.1,t :: rest.2)

/-- The token that stands for several. -/
def rootOf (n : Addr) (type : TokenType) (token : Text) : List Tree → Addr × List Tree
  | [] => (n,[])
  | [t] => (n,[t])
  | ts => (n + 1,[.node n type token ts])

def joinNots (n : Addr) (ts : List Tree) : Addr × List Tree :=
  let sorted := sortNots ts
  if sorted.1.isEmpty || sorted.2.isEmpty then (n,ts)
  else
    let notRoot := rootOf n .or orText sorted.1
    let otherRoot := rootOf notRoot.1 .openParen parenText sorted.2
    (otherRoot.1 + 1,[.node otherRoot.1 .not notText (notRoot.2 ++ otherRoot.2)])

mutual
/-- `fix_nots` on the children of a token. -/
def Tree.nots (n : Addr) : Tree → Addr × Tree
  | .node a type token child =>
    if child.isEmpty || type = .dquote then (n,.node a type token child)
    else
      let fixed := notsEach n child
      let joined := joinNots fixed.1 fixed.2
      (joined.1,.node a type token joined.2)

/-- The token after a `not` is passed over, and its children with it. -/
def notsEach (n : Addr) : List Tree → Addr × List Tree
  | [] => (n,[])
  | t :: ts =>
    let first := t.nots n
    if t.isNot then
      match ts with
      | [] => (first.1,[first.2])
      | u :: us =>
        let rest := notsEach first.1 us
        (rest.1,first.2 :: u :: rest.2)
    else
      let rest := notsEach first.1 ts
      (rest.1,first.2 :: rest.2)
end

/-- `fix_nots` on a list of siblings. -/
def nots (n : Addr) (ts : List Tree) : Addr × List Tree :=
  let fixed := notsEach n ts
  joinNots fixed.1 fixed.2

/-- `group_and`. -/
def groupAll (n : Addr) : List Tree → Tree
  | [t] => t
  | ts => .node n .openParen parenText ts

/-- All passes. -/
def regroup (n : Addr) (ts : List Tree) : Tree :=
  let lifted := ors n ts
  let set := nots lifted.1 lifted.2
  groupAll set.1 set.2

/-! ## The queries, and the ones whose reading is kept -/

section
variable {α : Type}

/-- There is a segment, and each has an operand that is not negated. -/
def grounded (ps : List (Piece α)) : Bool :=
  !(segments Piece.isOr ps).isEmpty && (segments Piece.isOr ps).all fun seg => (signs seg).any fun s => !s.1

/-- An `or` that comes after an operand and is not the last piece; `after` says
    whether an operand has come before. -/
def separated (after : Bool) : List (Piece α) → Bool
  | p :: q :: ps => if p.isOr then after || separated false (q :: ps) else separated true (q :: ps)
  | _ => false

/-- A single `or` at the end, right after an operand. -/
def endsAlone (after : Bool) : List (Piece α) → Bool
  | [] => false
  | [p] => p.isOr && after
  | p :: ps => endsAlone (!p.isOr) ps

/-- Either an `or` separates operands, and none dangles after the last operand,
    or none does, and none dangles before the first. -/
def orsFine (ps : List (Piece α)) : Bool :=
  if separated false ps then !endsAlone false ps else !(ps.head?.any Piece.isOr)

/-- Two `not`s in a row. -/
def doubled : List (Piece α) → Bool
  | p :: q :: ps => (p.isNot && q.isNot) || doubled (q :: ps)
  | _ => false

/-- No `not` follows another, and one dangles at the end only where another one
    has an operand. -/
def notsFine (seg : List (Piece α)) : Bool :=
  !doubled seg && (!(seg.getLast?.any Piece.isNot) || (signs seg).any fun s => s.1)

/-- The `not`s of a list of siblings are fine; within a negated group there is
    none. -/
def notsFineWithin (within : Bool) (ps : List (Piece α)) : Bool :=
  if within then !ps.any Piece.isNot else (segments Piece.isOr ps).all notsFine

end

/-- The siblings as pieces. -/
def kinds (ts : List Tree) : List (Piece Unit) := ts.map fun t => t.mark ()

namespace Tree

mutual
/-- A word, an operator, or a group of such in which every segment has an operand
    that is not negated. -/
def query : Tree → Bool
  | .node a type token child => child.isEmpty || (type = .openParen && grounded (kinds child) && queryEach child)

def queryEach : List Tree → Bool
  | [] => true
  | t :: ts => t.query && queryEach ts
end

mutual
/-- The `or`s are fine in every group. -/
def orsRegular : Tree → Bool
  | .node a type token child => child.isEmpty || (orsFine (kinds child) && orsRegularEach child)

def orsRegularEach : List Tree → Bool
  | [] => true
  | t :: ts => t.orsRegular && orsRegularEach ts
end

mutual
/-- The `not`s are fine in every group. -/
def notsRegular (within : Bool) : Tree → Bool
  | .node a type token child =>
    child.isEmpty || (notsFineWithin within (kinds child) && notsRegularEach within false child)

/-- `negated` says whether a `not` stands right before. -/
def notsRegularEach (within negated : Bool) : List Tree → Bool
  | [] => true
  | t :: ts => t.notsRegular (within || negated) && notsRegularEach within (t.mark ()).isNot ts
end

end Tree

/-- A query: siblings in which every segment has an operand that is not negated. -/
def Query (ts : List Tree) : Prop := grounded (kinds ts) && Tree.queryEach ts

/-- The operators are fine among the siblings, and below them. -/
def Regular (ts : List Tree) : Prop :=
  (orsFine (kinds ts) && Tree.orsRegularEach ts) &&
    (notsFineWithin false (kinds ts) && Tree.notsRegularEach false false ts)

end AnotherC.Tokens
