import AnotherC.Json.Scan

/-!
# Dump and parse

The parser reads the tokens of a tree back into that tree, wherever whitespace
stands between them, unless a null is in it: nothing is written for a null, so that
it is lost at the end of an array and an error elsewhere. `strip` is what comes
back in general.
-/
namespace AnotherC.AcJson
open AnotherC.Lib
open AnotherC.Lib.Chain (Link Linked)
set_option linter.unusedVariables false

/-! ### What comes back -/

def Tree.isNull : Tree → Bool
  | .leaf type _ => type = .null
  | _ => false

/-- A null at the end of an array leaves no trace. -/
def Items.ended : Items → Option Items
  | nil => some .nil
  | cons .. => none

mutual
/-- The tree that is read from what is written for one; none is an error. -/
def strip : Tree → Option Tree
  | .leaf type value => if type = .null then none else some (.leaf type value)
  | .object members => (stripMembers members).map .object
  | .array items => (stripItems items).map .array

def stripMembers : Members → Option Members
  | .nil => some .nil
  | .cons key value next => do
    let value ← strip value
    let next ← stripMembers next
    some (.cons key value next)

def stripItems : Items → Option Items
  | .nil => some .nil
  | .cons value next =>
    if value.isNull then next.ended
    else do
      let value ← strip value
      let next ← stripItems next
      some (.cons value next)
end

theorem isNull_strip {t : Tree} (null : t.isNull = true) : strip t = none := by
  cases t with
  | leaf type value =>
    have isNull : type = .null := by simpa [Tree.isNull] using null
    simp [strip,isNull]
  | object => cases null
  | array => cases null

mutual
theorem strip_self (t : Tree) : strip t = some t ↔ hasNull t = false := by
  cases t with
  | leaf type value => by_cases null : type = .null <;> simp [strip,hasNull,null]
  | object members => simp [strip,hasNull,stripMembers_self members]
  | array items => simp [strip,hasNull,stripItems_self items]

theorem stripMembers_self (members : Members) : stripMembers members = some members ↔ membersNull members = false := by
  cases members with
  | nil => simp [stripMembers,membersNull]
  | cons key value next =>
    have value := strip_self value
    have next := stripMembers_self next
    simp [stripMembers,membersNull,← value,← next,Option.bind_eq_some_iff]

theorem stripItems_self (items : Items) : stripItems items = some items ↔ itemsNull items = false := by
  cases items with
  | nil => simp [stripItems,itemsNull]
  | cons value next =>
    have inside := strip_self value
    have others := stripItems_self next
    rw [stripItems]
    by_cases null : value.isNull
    · have has : hasNull value = true := by
        rw [← Bool.not_eq_false,← inside,isNull_strip null]
        nofun
      rw [if_pos null]
      cases next <;> simp [itemsNull,has,Items.ended]
    · simp [null,itemsNull,← inside,← others,Option.bind_eq_some_iff]
end

/-! ### Trees in the pool -/

/-- Nodes behind those of `nodes`, and entries for them at the end of those of `a`. -/
def extend (nodes : List Node) (a : Nat) (entries : List Entry) (new : List Node) : List Node :=
  nodes.modify a (fun node => { node with entries := node.entries ++ entries }) ++ new

theorem modify_front {l : List Node} {a : Nat} (below : a < l.length) (m : List Node) (f : Node → Node) :
    (l ++ m).modify a f = l.modify a f ++ m := by
  induction l generalizing a with
  | nil => cases below
  | cons x l ih =>
    cases a with
    | zero => rfl
    | succ a =>
      have := ih (Nat.lt_of_succ_lt_succ below)
      simpa using this

theorem modify_last (l : List Node) (x : Node) (f : Node → Node) : (l ++ [x]).modify l.length f = l ++ [f x] := by
  induction l with
  | nil => rfl
  | cons y l ih => simpa using ih

theorem extend_extend {nodes new new' : List Node} {a : Nat} {entries entries' : List Entry} (below : a < nodes.length) :
    extend (extend nodes a entries new) a entries' new' = extend nodes a (entries ++ entries') (new ++ new') := by
  rw [extend,extend,extend,modify_front (by simpa using below),List.modify_modify_eq,List.append_assoc]
  congr 2
  funext node
  simp

/-- Entries for a node that was added last. -/
theorem extend_inside {nodes kids : List Node} {a : Nat} {entries entries' : List Entry} {node : Node} :
    extend (extend nodes a entries [node]) nodes.length entries' kids =
      extend nodes a entries ({ node with entries := node.entries ++ entries' } :: kids) := by
  have last := modify_last (nodes.modify a fun node => { node with entries := node.entries ++ entries }) node
    fun node => { node with entries := node.entries ++ entries' }
  rw [List.length_modify] at last
  rw [extend,extend,extend,last,List.append_assoc]
  rfl

theorem extend_old {nodes new : List Node} {a : Nat} {entries : List Entry} {node : Node} (found : nodes[a]? = some node) :
    (extend nodes a entries new)[a]? = some { node with entries := node.entries ++ entries } := by
  rw [extend,List.getElem?_append_left (by simpa using (List.getElem?_eq_some_iff.mp found).1),List.getElem?_modify,found]
  simp

theorem extend_new {nodes new : List Node} {a : Nat} {entries : List Entry} {node : Node} :
    (extend nodes a entries (node :: new))[nodes.length]? = some node := by
  rw [extend,List.getElem?_append_right (by simp)]
  simp

mutual
/-- The nodes of a tree, its root first, from the address `base` on. -/
def Laid (front : List UInt8) (base : Nat) (parent : Option Nat) : Tree → List Node → Prop
  | .leaf type value, new =>
    ∃ text, new = [{ type := type, parent := parent, value := text, length := value.length }] ∧ Shows front text value ∧
      Ended front type text value
  | .object members, new => ∃ entries kids, new = { type := .object, parent := parent, entries := entries } :: kids ∧
      LaidMembers front (base + 1) base members entries kids
  | .array items, new => ∃ entries kids, new = { type := .array, parent := parent, entries := entries } :: kids ∧
      LaidItems front (base + 1) base items entries kids

/-- The entries of an object at `a`, and the nodes of its values. -/
def LaidMembers (front : List UInt8) (base a : Nat) : Members → List Entry → List Node → Prop
  | .nil, entries, kids => entries = [] ∧ kids = []
  | .cons key value next, entries, kids => ∃ q more first others, entries = ⟨some q,base⟩ :: more ∧ kids = first ++ others ∧
      ShowsKey front q key ∧ Laid front base (some a) value first ∧ LaidMembers front (base + first.length) a next more others

def LaidItems (front : List UInt8) (base a : Nat) : Items → List Entry → List Node → Prop
  | .nil, entries, kids => entries = [] ∧ kids = []
  | .cons value next, entries, kids => ∃ more first others, entries = ⟨none,base⟩ :: more ∧ kids = first ++ others ∧
      Laid front base (some a) value first ∧ LaidItems front (base + first.length) a next more others
end

mutual
theorem Laid.more {front : List UInt8} {base : Nat} {parent : Option Nat} {t : Tree} {new : List Node}
    (laid : Laid front base parent t new) (more : List UInt8) : Laid (front ++ more) base parent t new := by
  cases t with
  | leaf type value =>
    obtain ⟨text,isNew,shows,ended⟩ := laid
    exact ⟨text,isNew,shows.more more,ended.more more⟩
  | object members =>
    obtain ⟨entries,kids,isNew,inside⟩ := laid
    exact ⟨entries,kids,isNew,inside.more more⟩
  | array items =>
    obtain ⟨entries,kids,isNew,inside⟩ := laid
    exact ⟨entries,kids,isNew,inside.more more⟩

theorem LaidMembers.more {front : List UInt8} {base a : Nat} {members : Members} {entries : List Entry} {kids : List Node}
    (laid : LaidMembers front base a members entries kids) (more : List UInt8) :
    LaidMembers (front ++ more) base a members entries kids := by
  cases members with
  | nil => exact laid
  | cons key value next =>
    obtain ⟨q,rest,first,others,isEntries,isKids,isKey,inside,next⟩ := laid
    exact ⟨q,rest,first,others,isEntries,isKids,isKey.more more,inside.more more,next.more more⟩

theorem LaidItems.more {front : List UInt8} {base a : Nat} {items : Items} {entries : List Entry} {kids : List Node}
    (laid : LaidItems front base a items entries kids) (more : List UInt8) :
    LaidItems (front ++ more) base a items entries kids := by
  cases items with
  | nil => exact laid
  | cons value next =>
    obtain ⟨rest,first,others,isEntries,isKids,inside,next⟩ := laid
    exact ⟨rest,first,others,isEntries,isKids,inside.more more,next.more more⟩
end

/-! ### Whitespace -/

variable {ep a : Nat} {s : State} {label : Label} {done rest tail space : List UInt8} {b : UInt8} {nodes : List Node} {keyed : Bool}

variable (ep label) in
theorem space_skip (spaces : Spaces space) (which : label = .startKey ∨ label = .startKeyObject ∨ label = .startValue)
    (start : Start s done (space ++ rest)) (more : rest ≠ []) (size : ep + 1 = s.bytes.length) :
    ∃ t, Reaches ep (.goto label s) (.goto label t) ∧ Kept s t ∧ Start t (done ++ space) rest ∧ t.bytes = s.bytes := by
  induction space generalizing s done with
  | nil => exact ⟨s,Reaches.refl ..,⟨rfl,rfl,rfl,rfl,rfl⟩,by simpa using start,rfl⟩
  | cons c space ih =>
    have isSpace := spaces c List.mem_cons_self
    have start : Start s done (c :: (space ++ rest)) := start
    have inside : ¬ s.p ≥ ep := by
      have := start.inside (by simp [more]) size
      omega
    have taken := start.take
    have stepped : step ep s label = some (.goto label { s with ch := c, p := s.p + 1 }) := by
      have notQuote : c ≠ quote := by
        rintro rfl
        exact absurd isSpace (by decide)
      obtain rfl | rfl | rfl := which
      · simp [step,startKey,inside,taken,isSpace,notQuote]
      · simp [step,startKeyObject,inside,taken,isSpace]
      · simp [step,startValue,inside,taken,isSpace]
    obtain ⟨t,reaches,kept,atEnd,same⟩ := ih (s := { s with ch := c, p := s.p + 1 })
      (fun d member => spaces d (List.mem_cons_of_mem _ member)) (start.next rfl rfl) size
    exact ⟨t,Reaches.step stepped reaches,kept.after,by simpa using atEnd,same⟩

/-- Behind a value, in an object or in an array. -/
def nextLabel : Bool → Label
  | true => .lookForKey
  | false => .lookForNextObject

variable (ep keyed) in
theorem space_look (spaces : Spaces space) (facing : Facing s done (space ++ rest)) (more : rest ≠ []) :
    ∃ t front, Reaches ep (.goto (nextLabel keyed) s) (.goto (nextLabel keyed) t) ∧ Kept s t ∧ Facing t (done ++ front) rest ∧
      front.length = space.length ∧ t.bytes = s.bytes := by
  induction space generalizing s done with
  | nil => exact ⟨s,[],Reaches.refl ..,⟨rfl,rfl,rfl,rfl,rfl⟩,by simpa using facing,rfl,rfl⟩
  | cons c space ih =>
    have isSpaced := spaces c List.mem_cons_self
    obtain ⟨_,x,_,isTail,isCh,bytes,p⟩ := facing
    cases isTail
    subst isCh
    change s.bytes = done ++ x :: (space ++ rest) at bytes
    obtain ⟨d,others,isOthers⟩ : ∃ d others, space ++ rest = d :: others := List.exists_cons_of_ne_nil (by simp [more])
    rw [isOthers] at bytes
    have start : Start { s with p := s.p + 1 } (done ++ [x]) (d :: others) := ⟨by simp [bytes],by simp [p]⟩
    obtain ⟨looked,facing⟩ := Facing.look start
    rw [← isOthers] at facing
    have stepped : step ep s (nextLabel keyed) = some (.goto (nextLabel keyed) { s with ch := d, p := s.p + 1 }) := by
      have plain : s.ch ≠ comma ∧ s.ch ≠ closeBrace ∧ s.ch ≠ closeBracket := by
        refine ⟨?_,?_,?_⟩ <;> (intro same; rw [same] at isSpaced; exact absurd isSpaced (by decide))
      cases keyed
      · simp only [step,nextLabel,lookForNextObject,if_neg plain.1,if_neg plain.2.2,if_pos isSpaced]
        rw [looked]
        rfl
      · simp only [step,nextLabel,lookForKey,if_neg plain.1,if_neg plain.2.1,if_pos isSpaced]
        rw [looked]
        rfl
    obtain ⟨t,front,reaches,kept,atEnd,length,same⟩ := ih (fun e member => spaces e (List.mem_cons_of_mem _ member)) facing
    exact ⟨t,x :: front,Reaches.step stepped reaches,⟨kept.pool,kept.key,kept.arr,kept.res,kept.root⟩,by simpa using atEnd,by simp [length],same⟩

/-! ### A value -/

/-- The container that the next value goes to. -/
def Holder (keyed : Bool) (s : State) (nodes : List Node) (a : Nat) : Prop :=
  (if keyed then s.root else s.arr) = some a ∧
  ∃ node, nodes[a]? = some node ∧ node.type = if keyed then .object else .array

def keyOf (keyed : Bool) (s : State) : Option Nat := if keyed then s.key else none

/-- What holds of what was scanned and of the byte behind it, which a number has overwritten. -/
def Behind (bytes done : List UInt8) (laid : List UInt8 → Prop) : Prop := ∀ x rest, bytes = done ++ x :: rest → laid (done ++ [x])

/-- What is laid in a front is laid in every longer one. -/
theorem Behind.further {bytes done : List UInt8} {laid : List UInt8 → Prop} (behind : Behind bytes done laid)
    (grows : ∀ front more, laid front → laid (front ++ more)) {more rest : List UInt8} (shape : bytes = done ++ more ++ rest)
    (some_ : more ≠ []) : laid (done ++ more) := by
  obtain ⟨x,more,rfl⟩ := List.exists_cons_of_ne_nil some_
  have first := behind x (more ++ rest) (by rw [shape]; simp)
  simpa using grows _ more first

/-- A value was read into its container. -/
def Delivers (keyed : Bool) (ep : Nat) (s : State) (done tail : List UInt8) (length : Nat) (nodes : List Node) (a : Nat) (t : Tree) :
    Prop :=
  ∃ u front new, Reaches ep (.goto (valueLabel keyed) s) (.goto (nextLabel keyed) u) ∧ Facing u (done ++ front) tail ∧
    front.length = length ∧ Holds u.pool (extend nodes a [⟨keyOf keyed s,nodes.length⟩] new) ∧
    Behind u.bytes (done ++ front) (Laid · nodes.length (some a) t new) ∧ u.res = s.res ∧
    (if keyed then u.root else u.arr) = some a

def Fails (ep : Nat) (r : Result) : Prop := ∃ errorAt, Reaches ep r (.badCharacter errorAt)

theorem Fails.after {r r' : Result} (reaches : Reaches ep r r') (fails : Fails ep r') : Fails ep r := by
  obtain ⟨errorAt,ends⟩ := fails
  exact ⟨errorAt,reaches.trans ends⟩

variable (ep) in
/-- A scanned leaf becomes the last entry of its container. -/
theorem add_leaf {t : State} {type : JsonType} {value : List UInt8} (scans : Scans s t done tail type value)
    (holds : Holds s.pool nodes) (holder : Holder keyed s nodes a) :
    ∃ pool, step ep t (.addString keyed) = some (.goto (nextLabel keyed) { t with pool := pool }) ∧
      Holds pool (extend nodes a [⟨keyOf keyed s,nodes.length⟩]
        [{ type := type, parent := some a, value := t.stringp, length := value.length }]) := by
  obtain ⟨isA,node,found,-⟩ := holder
  obtain ⟨⟨pool,key,arr,res,root⟩,-,isType,length,-⟩ := scans
  have fresh : Json.fresh { type := t.dataType, value := t.stringp, length := t.stringLength } := ⟨rfl,rfl,rfl⟩
  rw [← pool] at holds
  cases keyed with
  | true =>
    obtain ⟨pool',appended,holds'⟩ := holds.append found fresh t.key
    refine ⟨pool',?_,?_⟩
    · simp only [step,addString,if_true,show t.root = some a from root.trans isA,appended,Option.bind_eq_bind,Option.bind_some]
      rfl
    · rw [← isType,← length,keyOf,if_pos rfl,← key]
      exact holds'
  | false =>
    obtain ⟨pool',added,holds'⟩ := holds.addValue found fresh
    have isArr : t.arr = some a := arr.trans isA
    refine ⟨pool',?_,?_⟩
    · simp only [step,addString,if_neg Bool.false_ne_true,isArr,added,Option.bind_eq_bind,Option.bind_some]
      rfl
    · rw [← isType,← length]
      exact holds'

/-- A leaf that is written. -/
theorem leaf_delivers {type : JsonType} {value text : List UInt8} (encoded : Encoded (.leaf type value)) (written : type ≠ .null)
    (lead : Lead (leafTokens type value) text) (start : Start s done (text ++ tail)) (delimits : Delimits tail)
    (size : ep + 1 = s.bytes.length) (holds : Holds s.pool nodes) (holder : Holder keyed s nodes a) :
    Delivers keyed ep s done tail text.length nodes a (.leaf type value) := by
  obtain ⟨token,isToken⟩ : ∃ token, leafTokens type value = [token] := by
    cases type <;> first | exact absurd rfl written | exact ⟨_,rfl⟩
  rw [isToken] at lead
  obtain ⟨space,rfl,spaces⟩ := lead.one
  rw [List.append_assoc] at start
  have more : token ++ tail ≠ [] := by
    obtain ⟨c,rest,rfl,-⟩ := delimits.head
    simp
  obtain ⟨t,skips,kept,start',same⟩ := space_skip ep (valueLabel keyed) spaces
    (by cases keyed <;> simp [valueLabel]) start more size
  obtain ⟨u,front,reaches,scans,length⟩ := leaf_scans ep keyed encoded.1 encoded.2 isToken start' delimits
    (by rw [same,size])
  have scans' : Scans s u (done ++ space ++ front) tail type value :=
    ⟨kept.trans scans.kept,scans.facing,scans.type,scans.length,scans.shows,scans.ended⟩
  obtain ⟨pool,added,holds'⟩ := add_leaf ep scans' holds holder
  refine ⟨_,space ++ front,_,skips.trans (reaches.trans (Reaches.step added (Reaches.refl ..))),?_,by simp [length],holds',?_,?_,?_⟩
  · rw [← List.append_assoc]
    exact scans'.facing
  · rw [← List.append_assoc]
    exact fun x rest bytes => ⟨_,rfl,scans'.shows.more [x],scans'.type ▸ scans'.ended x rest bytes⟩
  · exact scans'.kept.res
  · have isA := holder.1
    cases keyed
    · exact scans'.kept.arr.trans isA
    · exact scans'.kept.root.trans isA

/-! ### Containers -/

/-- The text of a container was read up to its end, which is `skip` bytes on. -/
def Closed (ep : Nat) (r : Result) (a : Nat) (done tail : List UInt8) (length : Nat) (nodes : List Node) (res : Option Nat)
    (laid : List UInt8 → List Entry → List Node → Prop) : Prop :=
  ∃ t skip front entries kids, (∀ r', close (some a) skip t = some r' → Reaches ep r r') ∧ t.bytes = done ++ front ++ tail ∧
    front.length = length ∧ t.p + skip = (done ++ front).length ∧ Holds t.pool (extend nodes a entries kids) ∧
    laid (done ++ front) entries kids ∧ t.res = res

variable (keyed) in
/-- A container that was opened in another one and is closed there. -/
theorem close_goes {t : State} {skip base : Nat} {node : Node} (holds : Holds t.pool nodes) (found : nodes[base]? = some node)
    (parent : node.parent = some a) (isHolder : ∃ up, nodes[a]? = some up ∧ up.type = if keyed then .object else .array)
    (start : Start { t with p := t.p + skip } done (b :: rest)) :
    ∃ u, close (some base) skip t = some (.goto (nextLabel keyed) u) ∧ Facing u done (b :: rest) ∧ u.pool = t.pool ∧
      u.res = t.res ∧ (if keyed then u.root else u.arr) = some a := by
  obtain ⟨json,isJson,⟨-,up,-⟩,-⟩ := holds.found found
  obtain ⟨above,at_a,type⟩ := isHolder
  obtain ⟨upper,isUpper,⟨sameType,-⟩,-⟩ := holds.found at_a
  rw [parent] at up
  have looked : look { t with root := some a, p := t.p + skip } = some { t with root := some a, p := t.p + skip, ch := b } := by
    have here := start.here
    dsimp only at here
    simp [look,here]
  cases keyed with
  | true =>
    rw [if_pos rfl] at type
    refine ⟨{ t with root := some a, p := t.p + skip, ch := b },?_,⟨b,b,rest,rfl,rfl,start.bytes,start.p⟩,rfl,rfl,rfl⟩
    simp only [close,isJson,up,looked,isUpper,Option.bind_eq_bind,Option.bind_some]
    rw [if_pos (sameType.trans type)]
    rfl
  | false =>
    rw [if_neg Bool.false_ne_true] at type
    refine ⟨{ t with root := some a, p := t.p + skip, ch := b, arr := some a },?_,⟨b,b,rest,rfl,rfl,start.bytes,start.p⟩,rfl,rfl,rfl⟩
    simp only [close,isJson,up,looked,isUpper,Option.bind_eq_bind,Option.bind_some]
    rw [if_neg (by simp [sameType,type])]
    rfl

/-- The label behind an opening byte. -/
def innerLabel : Bool → Label
  | true => .startKey
  | false => .startValue

/-- `true` for objects, whose values have keys. -/
def containerType (object : Bool) : JsonType := if object then .object else .array
def opening (object : Bool) : UInt8 := if object then openBrace else openBracket
def closing (object : Bool) : UInt8 := if object then closeBrace else closeBracket

theorem open_goes {object : Bool} (start : Start s done (opening object :: rest)) (more : rest ≠ []) (size : ep + 1 = s.bytes.length)
    (holds : Holds s.pool nodes) (holder : Holder keyed s nodes a) :
    ∃ t, step ep s (valueLabel keyed) = some (.goto (innerLabel object) t) ∧ Start t (done ++ [opening object]) rest ∧
      t.bytes = s.bytes ∧ t.res = s.res ∧ (if object then t.root else t.arr) = some nodes.length ∧
      Holds t.pool (extend nodes a [⟨keyOf keyed s,nodes.length⟩] [{ type := containerType object, parent := some a }]) := by
  have inside : ¬ s.p ≥ ep := by have := start.inside more size; omega
  have taken := start.take
  obtain ⟨isA,node,found,-⟩ := holder
  have fresh : Json.fresh { type := containerType object } := ⟨rfl,rfl,rfl⟩
  have obj : s.pool.values.length = nodes.length := holds.size
  cases keyed with
  | true =>
    have isRoot : s.root = some a := isA
    obtain ⟨pool,appended,holds'⟩ := holds.append found fresh s.key
    rw [← isRoot,obj] at appended
    cases object with
    | true =>
      refine ⟨{ s with ch := openBrace, p := s.p + 1, pool := pool, root := some nodes.length },?_,start.next rfl rfl,rfl,rfl,rfl,holds'⟩
      simp only [step,valueLabel,startKeyObject,if_neg inside,taken,Option.bind_eq_bind,Option.bind_some,opening,if_true,obj,
        if_neg (show ¬ isSpace openBrace = true from by decide)]
      exact congrArg (Option.bind · _) appended
    | false =>
      refine ⟨{ s with ch := openBracket, p := s.p + 1, pool := pool, arr := some nodes.length, root := some nodes.length },?_,
        start.next rfl rfl,rfl,rfl,rfl,holds'⟩
      simp only [step,valueLabel,startKeyObject,if_neg inside,taken,Option.bind_eq_bind,Option.bind_some,opening,if_true,obj,
        if_neg (show ¬ isSpace openBracket = true from by decide),if_neg (show ¬ openBracket = openBrace from by decide),
        if_neg Bool.false_ne_true]
      exact congrArg (Option.bind · _) appended
  | false =>
    have isArr : s.arr = some a := isA
    obtain ⟨pool,added,holds'⟩ := holds.addValue found fresh
    rw [← isArr] at added
    have there : ¬ s.arr = none := by simp [isArr]
    cases object with
    | true =>
      refine ⟨{ s with ch := openBrace, p := s.p + 1, pool := pool, root := some nodes.length },?_,start.next rfl rfl,rfl,rfl,rfl,holds'⟩
      simp only [step,valueLabel,startValue,if_neg inside,taken,Option.bind_eq_bind,Option.bind_some,opening,if_true,obj,
        if_neg (show ¬ isSpace openBrace = true from by decide),if_neg there]
      exact congrArg (Option.bind · _) added
    | false =>
      refine ⟨{ s with ch := openBracket, p := s.p + 1, pool := pool, arr := some nodes.length, root := some nodes.length },?_,
        start.next rfl rfl,rfl,rfl,rfl,holds'⟩
      simp only [step,valueLabel,startValue,if_neg inside,taken,Option.bind_eq_bind,Option.bind_some,opening,if_true,obj,
        if_neg (show ¬ isSpace openBracket = true from by decide),if_neg (show ¬ openBracket = openBrace from by decide),
        if_neg Bool.false_ne_true,if_neg there]
      exact congrArg (Option.bind · _) added

theorem extend_length {nodes new : List Node} {a : Nat} {entries : List Entry} :
    (extend nodes a entries new).length = nodes.length + new.length := by simp [extend]

theorem container_opens (object : Bool) (spaces : Spaces space) (start : Start s done (space ++ opening object :: rest)) (more : rest ≠ [])
    (size : ep + 1 = s.bytes.length) (holds : Holds s.pool nodes) (holder : Holder keyed s nodes a) :
    ∃ t, Reaches ep (.goto (valueLabel keyed) s) (.goto (innerLabel object) t) ∧
      Start t (done ++ (space ++ [opening object])) rest ∧ ep + 1 = t.bytes.length ∧ t.res = s.res ∧
      (if object then t.root else t.arr) = some nodes.length ∧
      Holds t.pool (extend nodes a [⟨keyOf keyed s,nodes.length⟩] [{ type := containerType object, parent := some a }]) := by
  obtain ⟨s',skips,kept,start',same⟩ := space_skip ep (valueLabel keyed) spaces
    (by cases keyed <;> simp [valueLabel]) start (by simp) size
  have holder' : Holder keyed s' nodes a := by
    obtain ⟨isA,isNode⟩ := holder
    refine ⟨?_,isNode⟩
    rw [kept.root,kept.arr]
    exact isA
  have sameKey : keyOf keyed s' = keyOf keyed s := by rw [keyOf,keyOf,kept.key]
  obtain ⟨t,opens,atInner,bytes,res,isObj,holdsOne⟩ := open_goes start' more (by rw [same,size]) (kept.pool ▸ holds) holder'
  rw [List.append_assoc] at atInner
  rw [sameKey] at holdsOne
  exact ⟨t,skips.trans (Reaches.step opens (Reaches.refl ..)),atInner,by rw [bytes,same,size],res.trans kept.res,isObj,holdsOne⟩

/-- A container that was opened and read to its end is delivered. -/
theorem container_closes (tree : Tree) {length : Nat} {t : State} {front : List UInt8} {child : Node}  {label : Label}
    {laid : List UInt8 → List Entry → List Node → Prop} (opens : Reaches ep (.goto (valueLabel keyed) s) (.goto label t))
    (res : t.res = s.res) (delimits : Delimits tail) (holder : Holder keyed s nodes a) (parent : child.parent = some a)
    (closed : Closed ep (.goto label t) nodes.length (done ++ front) tail length
      (extend nodes a [⟨keyOf keyed s,nodes.length⟩] [child]) t.res laid)
    (whole : ∀ front entries kids, laid front entries kids →
      Laid front nodes.length (some a) tree ({ child with entries := child.entries ++ entries } :: kids)) :
    Delivers keyed ep s done tail (front.length + length) nodes a tree := by
  obtain ⟨c,others,rfl,-⟩ := delimits.head
  obtain ⟨u,skip,more,entries,kids,closes,text,count,p,holds,isLaid,sameRes⟩ := closed
  rw [extend_inside] at holds
  obtain ⟨-,node,found,type⟩ := holder
  have atEnd : Start { u with p := u.p + skip } (done ++ front ++ more) (c :: others) := ⟨text,p⟩
  obtain ⟨v,closed,facing,pool,res',isA⟩ :=
    close_goes keyed holds extend_new parent ⟨_,extend_old found,type⟩ atEnd
  rw [List.append_assoc] at facing isLaid
  refine ⟨v,front ++ more,_,opens.trans (closes _ closed),facing,by rw [List.length_append,count],?_,
    fun x _ _ => (whole _ _ _ isLaid).more [x],?_,isA⟩
  · rw [pool]
    exact holds
  · exact res'.trans (sameRes.trans res)

/-! ### Whole trees -/

/-- What a run does with something that may or may not come back. -/
def Outcome {α : Type} (result : Option α) (fails : Prop) (delivers : α → Prop) : Prop :=
  match result with
  | none => fails
  | some x => delivers x

@[simp] theorem outcome_none {α : Type} (fails : Prop) (delivers : α → Prop) : Outcome none fails delivers = fails := rfl

@[simp] theorem outcome_some {α : Type} (x : α) (fails : Prop) (delivers : α → Prop) :
    Outcome (some x) fails delivers = delivers x := rfl

/-- A delimiter where a value should be. -/
theorem delimiter_fails (start : Start s done tail) (delimits : Delimits tail) (size : ep + 1 = s.bytes.length) :
    Fails ep (.goto .startKeyObject s) := by
  obtain ⟨space,c,rest,rfl,spaces,closing,more⟩ := delimits
  obtain ⟨t,skips,kept,start',same⟩ := space_skip ep .startKeyObject spaces (by simp) start (by simp) size
  have inside : ¬ t.p ≥ ep := by
    have := start'.inside more (by rw [same,size])
    omega
  refine ⟨t.p + 1,skips.trans (Reaches.step ?_ (Reaches.refl ..))⟩
  obtain rfl | rfl | rfl := closing <;>
    simp [step,startKeyObject,inside,start'.take,isSpace,scalar,isNatural,comma,closeBrace,closeBracket,openBrace,openBracket,quote,minus]

variable (rest) in
/-- A comma where an element should be. -/
theorem comma_fails (spaces : Spaces space) (start : Start s done (space ++ comma :: rest)) (more : rest ≠ [])
    (size : ep + 1 = s.bytes.length) : Fails ep (.goto .startValue s) := by
  obtain ⟨t,skips,kept,start',same⟩ := space_skip ep .startValue spaces (by simp) start (by simp) size
  have inside : ¬ t.p ≥ ep := by
    have := start'.inside more (by rw [same,size])
    omega
  refine ⟨t.p + 1,skips.trans (Reaches.step ?_ (Reaches.refl ..))⟩
  simp [step,startValue,inside,start'.take,isSpace,scalar,isNatural,comma,closeBracket,openBrace,openBracket,quote,minus]

/-- The closing byte where a container has nothing more, taken at once. -/
theorem closed_empty (object : Bool) (laid : List UInt8 → List Entry → List Node → Prop) {node : Node} (spaces : Spaces space)
    (start : Start s done (space ++ closing object :: tail)) (more : tail ≠ []) (size : ep + 1 = s.bytes.length)
    (holds : Holds s.pool nodes) (isA : (if object then s.root else s.arr) = some a) (found : nodes[a]? = some node)
    (empty : ∀ front, laid front [] []) :
    Closed ep (.goto (innerLabel object) s) a done tail (space.length + 1) nodes s.res laid := by
  obtain ⟨t,skips,kept,start',same⟩ := space_skip ep (innerLabel object) spaces
    (by cases object <;> simp [innerLabel]) start (by simp) size
  have inside : ¬ t.p ≥ ep := by
    have := start'.inside more (by rw [same,size])
    omega
  have next := start'.next (t := { t with ch := closing object, p := t.p + 1 }) rfl rfl
  have none_new : extend nodes a [] [] = nodes := by
    rw [extend,List.append_nil]
    refine List.ext_getElem? fun i => ?_
    rw [List.getElem?_modify]
    split
    · cases nodes[i]? <;> simp
    · simp
  refine ⟨{ t with ch := closing object, p := t.p + 1 },0,space ++ [closing object],[],[],?_,?_,by simp,?_,?_,empty _,kept.res⟩
  · intro r closes
    refine skips.trans (Reaches.step ?_ (Reaches.refl ..))
    rw [← closes]
    cases object with
    | true =>
      have isRoot : t.root = some a := kept.root.trans isA
      simp [step,innerLabel,startKey,inside,start'.take,closing,isSpace,closeBrace,quote,isRoot]
    | false =>
      have isArr : t.arr = some a := kept.arr.trans isA
      simp [step,innerLabel,startValue,inside,start'.take,closing,isSpace,closeBracket,openBrace,openBracket,isArr]
  · simpa using next.bytes
  · simpa using next.p
  · rw [none_new]
    exact kept.pool ▸ holds

variable (done) in
/-- The closing byte behind a value. -/
theorem closed_behind (object : Bool) (front : List UInt8) (laid : List UInt8 → List Entry → List Node → Prop) {r : Result} {length : Nat} {entries : List Entry} {kids : List Node} 
     {res : Option Nat} (spaces : Spaces space)
    (reaches : Reaches ep r (.goto (nextLabel object) s)) (facing : Facing s (done ++ front) (space ++ closing object :: tail))
    (isA : (if object then s.root else s.arr) = some a) (holds : Holds s.pool (extend nodes a entries kids)) (sameRes : s.res = res)
    (isLaid : ∀ more rest, s.bytes = done ++ front ++ more ++ rest → more ≠ [] → laid (done ++ front ++ more) entries kids)
    (count : front.length = length) :
    Closed ep r a done tail (length + space.length + 1) nodes res laid := by
  obtain ⟨t,more,skips,kept,facing',counted,sameBytes⟩ := space_look ep object spaces facing (by simp)
  obtain ⟨_,x,_,isTail,isCh,bytes,p⟩ := facing'
  cases isTail
  refine ⟨t,1,front ++ more ++ [x],entries,kids,?_,by simp [bytes],by simp [count,counted]; omega,by simp [p]; omega,?_,?_,?_⟩
  · intro r' closes
    refine reaches.trans (skips.trans (Reaches.step ?_ (Reaches.refl ..)))
    rw [← closes]
    cases object with
    | true =>
      have isRoot : t.root = some a := kept.root.trans isA
      simp [step,nextLabel,lookForKey,isCh,closing,closeBrace,comma,isRoot]
    | false =>
      have isArr : t.arr = some a := kept.arr.trans isA
      simp [step,nextLabel,lookForNextObject,isCh,closing,closeBracket,comma,isArr]
  · exact kept.pool ▸ holds
  · have := isLaid (more ++ [x]) tail (by rw [← sameBytes,bytes]; simp) (by simp)
    simpa using this
  · exact kept.res.trans sameRes

variable (rest) in
/-- The comma behind a value, and what follows it. -/
theorem comma_goes (object : Bool) {front : List UInt8} (spaces : Spaces space)
    (facing : Facing s (done ++ front) (space ++ comma :: rest)) (more : rest ≠ []) (size : ep + 1 = s.bytes.length) :
    ∃ t front', Reaches ep (.goto (nextLabel object) s) (.goto (innerLabel object) t) ∧ Kept s t ∧
      Start t (done ++ front ++ front') rest ∧ front'.length = space.length + 1 ∧ ep + 1 = t.bytes.length ∧ t.bytes = s.bytes := by
  have total : s.bytes.length = (done ++ front).length + (space ++ comma :: rest).length := by
    obtain ⟨c,x,others,isTail,-,bytes,-⟩ := facing
    rw [isTail,bytes]
    simp [Nat.add_assoc]
  obtain ⟨t,front',skips,kept,facing',counted,sameBytes⟩ := space_look ep object spaces facing (by simp)
  obtain ⟨_,x,_,isTail,isCh,bytes,p⟩ := facing'
  cases isTail
  have pos := List.length_pos_iff.mpr more
  have inside : ¬ t.p ≥ ep := by
    simp at total
    simp [p]
    omega
  refine ⟨{ t with p := t.p + 1 },front' ++ [x],skips.trans (Reaches.step ?_ (Reaches.refl ..)),
    ⟨kept.pool,kept.key,kept.arr,kept.res,kept.root⟩,⟨by simp [bytes],by simp [p]; omega⟩,by simp [counted],?_,sameBytes⟩
  · cases object
    · simp [step,nextLabel,innerLabel,lookForNextObject,isCh,inside]
    · simp [step,nextLabel,innerLabel,lookForKey,isCh,inside]
  · rw [size,total,bytes]
    simp
    omega

/-- Behind a value of a container come a comma and more, or its closing byte. -/
theorem commas_delimit {object : Bool} {commas more : List (List UInt8)} {text : List UInt8} (lead : Lead (commas ++ more) text)
    (none : commas = [] → more = []) (isComma : commas = [] ∨ commas = [[comma]]) (spaces : Spaces space) (left : tail ≠ []) :
    Delimits (text ++ (space ++ closing object :: tail)) := by
  obtain rfl | rfl := isComma
  · rw [none rfl] at lead
    cases lead
    refine ⟨space,closing object,tail,rfl,spaces,?_,left⟩
    cases object <;> simp [closing]
  · obtain ⟨first,second,rfl,isFirst,-⟩ := lead.append
    obtain ⟨before,rfl,isSpace⟩ := isFirst.one
    exact ⟨before,comma,second ++ (space ++ closing object :: tail),by simp,isSpace,.inl rfl,by simp⟩

theorem Closed.after {r r' : Result} {length : Nat} {res : Option Nat} {laid : List UInt8 → List Entry → List Node → Prop}
    (reaches : Reaches ep r r') (closed : Closed ep r' a done tail length nodes res laid) :
    Closed ep r a done tail length nodes res laid := by
  obtain ⟨t,skip,front,entries,kids,closes,rest⟩ := closed
  exact ⟨t,skip,front,entries,kids,fun _ found => reaches.trans (closes _ found),rest⟩

/-- A first entry in front of those that a later run has read. -/
theorem Closed.cons {r : Result} {length n : Nat} {res : Option Nat} {front : List UInt8} {entry : Entry} {new : List Node}
    {rest : List UInt8 → List Entry → List Node → Prop} (laid : List UInt8 → List Entry → List Node → Prop) (below : a < nodes.length)
    (closed : Closed ep r a (done ++ front) tail length (extend nodes a [entry] new) res rest) (count : front.length = n)
    (isLaid : ∀ more entries kids, rest (done ++ front ++ more) entries kids → laid (done ++ front ++ more) (entry :: entries) (new ++ kids)) :
    Closed ep r a done tail (n + length) nodes res laid := by
  obtain ⟨t,skip,more,entries,kids,closes,text,length,p,holds,isRest,sameRes⟩ := closed
  refine ⟨t,skip,front ++ more,entry :: entries,new ++ kids,closes,by simp [text],by simp [count,length],by simp [p],?_,?_,sameRes⟩
  · rw [extend_extend below] at holds
    exact holds
  · have := isLaid _ _ _ isRest
    simpa using this

/-- A key and its colon lead to the value. -/
theorem key_goes {key text : List UInt8} {more : List (List UInt8)} (encoded : EncodedText key)
    (lead : Lead ((quote :: key ++ [quote]) :: [colon] :: more) text) (start : Start s done (text ++ rest)) (left : rest ≠ [])
    (size : ep + 1 = s.bytes.length) :
    ∃ t front q text', text.length = front.length + text'.length ∧ Lead more text' ∧
      Reaches ep (.goto .startKey s) (.goto .startKeyObject t) ∧ Start t (done ++ front) (text' ++ rest) ∧
      ep + 1 = t.bytes.length ∧ t.pool = s.pool ∧ t.root = s.root ∧ t.res = s.res ∧ t.key = some q ∧
      ShowsKey (done ++ front) q key := by
  obtain ⟨first,second,rfl,isFirst,isSecond⟩ := Lead.append [quote :: key ++ [quote]] lead
  obtain ⟨third,text',rfl,isThird,isMore⟩ := Lead.append [[colon]] isSecond
  obtain ⟨space,rfl,spaces⟩ := isFirst.one
  obtain ⟨space',rfl,spaces'⟩ := isThird.one
  have start' : Start s done (space ++ quote :: (key ++ quote :: space' ++ colon :: (text' ++ rest))) := by simpa using start
  obtain ⟨s',skips,kept,atQuote,same⟩ := space_skip ep .startKey spaces (by simp) start' (by simp) size
  have inside : ¬ s'.p ≥ ep := by
    have := atQuote.inside (by simp) (by rw [same,size])
    omega
  have next := atQuote.next (t := { s' with ch := quote, p := s'.p + 1, key := some (s'.p + 1) }) rfl rfl
  obtain ⟨t,scans,kept',atValue,shows⟩ := key_scans ep encoded spaces' next (by rw [size,← same])
    (by simp [atQuote.p]) (by simp [left])
  have stepped : step ep s' .startKey = some (.goto .getEndOfKey { s' with ch := quote, p := s'.p + 1, key := some (s'.p + 1) }) := by
    simp [step,startKey,inside,atQuote.take]
  have shift : done ++ space ++ quote :: key ++ 0 :: space' ++ [colon] = done ++ (space ++ quote :: key ++ 0 :: space' ++ [colon]) := by
    simp
  rw [shift] at atValue shows
  refine ⟨t,_,_,text',?_,isMore,skips.trans (Reaches.step stepped scans),atValue,?_,kept'.pool.trans kept.pool,
    kept'.root.trans kept.root,kept'.res.trans kept.res,kept'.key,?_⟩
  · simp
    omega
  · have total := congrArg List.length atValue.bytes
    have before := congrArg List.length start'.bytes
    simp only [List.length_append,List.length_cons,List.length_nil] at total before
    omega
  · simpa [atQuote.p] using shows

theorem Start.total (start : Start s done rest) : s.bytes.length = done.length + rest.length := by
  rw [start.bytes,List.length_append]

theorem Facing.total (facing : Facing s done tail) : s.bytes.length = done.length + tail.length := by
  obtain ⟨c,x,rest,rfl,-,bytes,-⟩ := facing
  simp [bytes]

theorem isNull_tokens {t : Tree} (null : t.isNull = true) : tokens t = [] := by
  cases t with
  | leaf type value =>
    have isNull : type = .null := by simpa [Tree.isNull] using null
    simp [tokens,leafTokens,isNull]
  | object => cases null
  | array => cases null

mutual
/-- A value that is written: the parser fails, or reads what comes back. -/
theorem value_run (t : Tree) (encoded : Encoded t) (written : t.isNull = false) {keyed : Bool} {s : State} {ep a : Nat}
    {done text tail : List UInt8} {nodes : List Node} (lead : Lead (tokens t) text) (start : Start s done (text ++ tail))
    (delimits : Delimits tail) (size : ep + 1 = s.bytes.length) (holds : Holds s.pool nodes) (holder : Holder keyed s nodes a) :
    Outcome (strip t) (Fails ep (.goto (valueLabel keyed) s)) (Delivers keyed ep s done tail text.length nodes a) := by
  cases t with
  | leaf type value =>
    have written : type ≠ .null := by simpa [Tree.isNull] using written
    rw [strip,if_neg written]
    exact leaf_delivers encoded written lead start delimits size holds holder
  | object members =>
    obtain ⟨first,second,rfl,isFirst,isSecond⟩ := Lead.append [[openBrace]] (by simpa [tokens] using lead)
    obtain ⟨inner,last,rfl,isInner,isLast⟩ := isSecond.append
    obtain ⟨space,rfl,spaces⟩ := isFirst.one
    obtain ⟨space',rfl,spaces'⟩ := isLast.one
    have start' : Start s done (space ++ opening true :: (inner ++ (space' ++ closing true :: tail))) := by
      simpa [opening,closing] using start
    obtain ⟨t,opens,atInner,size',res,isObj,holdsOne⟩ := container_opens true spaces start' (by simp) size holds holder
    have left : tail ≠ [] := by
      obtain ⟨c,rest,rfl,-⟩ := delimits.head
      nofun
    have inside := members_run members encoded isInner atInner spaces' left size' holdsOne isObj extend_new rfl
    rw [strip]
    cases result : stripMembers members with
    | none =>
      rw [result] at inside
      exact Fails.after opens inside
    | some m =>
      rw [result] at inside
      have closed : Closed ep (.goto (innerLabel true) t) nodes.length (done ++ (space ++ [opening true])) tail
          (inner.length + space'.length + 1)
          (extend nodes a [⟨keyOf keyed s,nodes.length⟩] [{ type := containerType true, parent := some a }]) t.res
          fun front entries kids => LaidMembers front (nodes.length + 1) nodes.length m entries kids := by
        have same : nodes.length + 1 =
            (extend nodes a [⟨keyOf keyed s,nodes.length⟩] [{ type := containerType true, parent := some a }]).length := by
          rw [extend_length]
          rfl
        rw [same]
        exact inside
      have delivers := container_closes (.object m) opens res delimits holder rfl closed
        fun front entries kids laid => ⟨entries,kids,rfl,laid⟩
      refine Eq.mp (congrArg (Delivers keyed ep s done tail · nodes a (.object m)) ?_) delivers
      simp
      omega
  | array items =>
    obtain ⟨first,second,rfl,isFirst,isSecond⟩ := Lead.append [[openBracket]] (by simpa [tokens] using lead)
    obtain ⟨inner,last,rfl,isInner,isLast⟩ := isSecond.append
    obtain ⟨space,rfl,spaces⟩ := isFirst.one
    obtain ⟨space',rfl,spaces'⟩ := isLast.one
    have start' : Start s done (space ++ opening false :: (inner ++ (space' ++ closing false :: tail))) := by
      simpa [opening,closing] using start
    obtain ⟨t,opens,atInner,size',res,isObj,holdsOne⟩ := container_opens false spaces start' (by simp) size holds holder
    have left : tail ≠ [] := by
      obtain ⟨c,rest,rfl,-⟩ := delimits.head
      nofun
    have inside := items_run items encoded isInner atInner spaces' left size' holdsOne isObj extend_new rfl
    rw [strip]
    cases result : stripItems items with
    | none =>
      rw [result] at inside
      exact Fails.after opens inside
    | some m =>
      rw [result] at inside
      have closed : Closed ep (.goto (innerLabel false) t) nodes.length (done ++ (space ++ [opening false])) tail
          (inner.length + space'.length + 1)
          (extend nodes a [⟨keyOf keyed s,nodes.length⟩] [{ type := containerType false, parent := some a }]) t.res
          fun front entries kids => LaidItems front (nodes.length + 1) nodes.length m entries kids := by
        have same : nodes.length + 1 =
            (extend nodes a [⟨keyOf keyed s,nodes.length⟩] [{ type := containerType false, parent := some a }]).length := by
          rw [extend_length]
          rfl
        rw [same]
        exact inside
      have delivers := container_closes (.array m) opens res delimits holder rfl closed
        fun front entries kids laid => ⟨entries,kids,rfl,laid⟩
      refine Eq.mp (congrArg (Delivers keyed ep s done tail · nodes a (.array m)) ?_) delivers
      simp
      omega

/-- The entries of an object, from behind its brace to its closing brace. -/
theorem members_run (members : Members) (encoded : EncodedMembers members) {s : State} {ep a : Nat}
    {done text space tail : List UInt8} {nodes : List Node} {node : Node} (lead : Lead (memberTokens members) text)
    (start : Start s done (text ++ (space ++ closing true :: tail))) (spaces : Spaces space) (left : tail ≠ [])
    (size : ep + 1 = s.bytes.length) (holds : Holds s.pool nodes) (isA : s.root = some a) (found : nodes[a]? = some node)
    (type : node.type = .object) :
    Outcome (stripMembers members) (Fails ep (.goto .startKey s)) fun m =>
      Closed ep (.goto .startKey s) a done tail (text.length + space.length + 1) nodes s.res
        fun front entries kids => LaidMembers front nodes.length a m entries kids := by
  cases members with
  | nil =>
    cases lead
    have closed := closed_empty true (fun front entries kids => LaidMembers front nodes.length a .nil entries kids)
      spaces start left size holds isA found fun _ => ⟨rfl,rfl⟩
    rw [List.length_nil,Nat.zero_add]
    exact closed
  | cons key value next =>
    obtain ⟨name,inside,others⟩ := encoded
    obtain ⟨t,front,q,text',count,lead',reaches,start',size',pool,root,res,isKey,shows⟩ :=
      key_goes name lead start (by simp) size
    obtain ⟨first,second,rfl,isFirst,isSecond⟩ := lead'.append
    have delimits : Delimits (second ++ (space ++ closing true :: tail)) :=
      commas_delimit isSecond (by cases next <;> simp [Members.commas,memberTokens]) (by cases next <;> simp [Members.commas]) spaces left
    rw [List.append_assoc] at start'
    by_cases null : value.isNull = true
    · rw [stripMembers,isNull_strip null]
      rw [isNull_tokens null] at isFirst
      cases isFirst
      exact Fails.after reaches (delimiter_fails (by simpa using start') delimits size')
    have written : value.isNull = false := by simpa using null
    have holder : Holder true t nodes a := ⟨root.trans isA,node,found,type⟩
    have ran := value_run value inside written isFirst start' delimits size' (pool ▸ holds) holder
    rw [stripMembers]
    cases result : strip value with
    | none =>
      rw [result] at ran
      exact Fails.after reaches ran
    | some v =>
      rw [result] at ran
      obtain ⟨u,front',new,goes,facing,counted,holds',laid,res',isRoot⟩ := ran
      have below : a < nodes.length := (List.getElem?_eq_some_iff.mp found).1
      rw [keyOf,if_pos rfl,isKey] at holds'
      cases next with
      | nil =>
        cases isSecond
        have closed := closed_behind done true (front ++ front')
          (fun front entries kids => LaidMembers front nodes.length a (.cons key v .nil) entries kids) (r := .goto .startKey s) spaces
          (reaches.trans goes) (by simpa using facing) isRoot holds' (res'.trans res)
          (fun more rest bytes some_ => ⟨q,[],new,[],rfl,(List.append_nil _).symm,by simpa using shows.more (front' ++ more),
            by simpa using laid.further (fun _ more laid => laid.more more) (by simpa using bytes) some_,rfl,rfl⟩) rfl
        refine Eq.mp (congrArg (Closed ep _ a done tail · nodes s.res _) ?_) closed
        simp at count
        simp
        omega
      | cons key' value' next' =>
        obtain ⟨third,fourth,rfl,isThird,isFourth⟩ := isSecond.append
        obtain ⟨space',rfl,spaces'⟩ := isThird.one
        have sizeU : ep + 1 = u.bytes.length := by
          have before := start'.total
          have after := facing.total
          simp only [List.length_append] at before after
          omega
        obtain ⟨w,front'',commas,kept,start'',counted',size'',sameBytes⟩ := comma_goes (fourth ++ (space ++ closing true :: tail)) true
          spaces' (by simpa using facing) (by simp) sizeU
        have others := members_run (.cons key' value' next') others isFourth start'' spaces left size'' (kept.pool ▸ holds')
          (kept.root.trans isRoot) (extend_old found) type
        have reaches' := reaches.trans (goes.trans commas)
        cases result' : stripMembers (.cons key' value' next') with
        | none =>
          rw [result'] at others
          simp only [Option.bind_eq_bind,Option.bind_some]
          exact Fails.after reaches' others
        | some m =>
          rw [result',outcome_some] at others
          simp only [Option.bind_eq_bind,Option.bind_some,outcome_some]
          have rest : Closed ep (.goto .startKey w) a (done ++ (front ++ front') ++ front'') tail (fourth.length + space.length + 1)
              (extend nodes a [⟨some q,nodes.length⟩] new) w.res _ := others
          have shift : done ++ (front ++ front') ++ front'' = done ++ (front ++ front' ++ front'') := by simp
          rw [shift] at rest
          have closed := (rest.after reaches').cons (n := (front ++ front' ++ front'').length)
            (fun front entries kids => LaidMembers front nodes.length a (.cons key v m) entries kids) below rfl ?_
          · rw [kept.res,res',res] at closed
            refine Eq.mp (congrArg (Closed ep _ a done tail · nodes s.res _) ?_) closed
            simp at count
            simp
            omega
          · intro more entries kids isRest
            rw [extend_length] at isRest
            have some_ : front'' ≠ [] := by
              rintro rfl
              cases counted'
            have bytes : u.bytes = done ++ front ++ front' ++ front'' ++ (fourth ++ (space ++ closing true :: tail)) := by
              rw [← sameBytes,start''.bytes]
              simp
            have isLaid := laid.further (fun _ more laid => laid.more more) bytes some_
            exact ⟨q,entries,new,kids,rfl,rfl,by simpa using shows.more (front' ++ front'' ++ more),
              by simpa using isLaid.more more,isRest⟩

/-- The elements of an array, from behind its bracket to its closing bracket. -/
theorem items_run (items : Items) (encoded : EncodedItems items) {s : State} {ep a : Nat}
    {done text space tail : List UInt8} {nodes : List Node} {node : Node} (lead : Lead (itemTokens items) text)
    (start : Start s done (text ++ (space ++ closing false :: tail))) (spaces : Spaces space) (left : tail ≠ [])
    (size : ep + 1 = s.bytes.length) (holds : Holds s.pool nodes) (isA : s.arr = some a) (found : nodes[a]? = some node)
    (type : node.type = .array) :
    Outcome (stripItems items) (Fails ep (.goto .startValue s)) fun m =>
      Closed ep (.goto .startValue s) a done tail (text.length + space.length + 1) nodes s.res
        fun front entries kids => LaidItems front nodes.length a m entries kids := by
  cases items with
  | nil =>
    cases lead
    have closed := closed_empty false (fun front entries kids => LaidItems front nodes.length a .nil entries kids)
      spaces start left size holds isA found fun _ => ⟨rfl,rfl⟩
    rw [List.length_nil,Nat.zero_add]
    exact closed
  | cons value next =>
    obtain ⟨inside,others⟩ := encoded
    obtain ⟨first,second,rfl,isFirst,isSecond⟩ := Lead.append (tokens value) lead
    have delimits : Delimits (second ++ (space ++ closing false :: tail)) :=
      commas_delimit isSecond (by cases next <;> simp [Items.commas,itemTokens]) (by cases next <;> simp [Items.commas]) spaces left
    rw [List.append_assoc] at start
    by_cases null : value.isNull = true
    · rw [isNull_tokens null] at isFirst
      cases isFirst
      rw [stripItems,if_pos null]
      cases next with
      | nil =>
        cases isSecond
        have closed := closed_empty false (fun front entries kids => LaidItems front nodes.length a .nil entries kids)
          spaces start left size holds isA found fun _ => ⟨rfl,rfl⟩
        simp only [List.append_nil,List.length_nil,Nat.zero_add]
        exact closed
      | cons value' next' =>
        obtain ⟨third,fourth,rfl,isThird,isFourth⟩ := isSecond.append
        obtain ⟨space',rfl,spaces'⟩ := isThird.one
        exact comma_fails (fourth ++ (space ++ closing false :: tail)) spaces' (by simpa using start) (by simp) size
    have written : value.isNull = false := by simpa using null
    have holder : Holder false s nodes a := ⟨isA,node,found,type⟩
    have ran := value_run value inside written isFirst start delimits size holds holder
    rw [stripItems,if_neg null]
    cases result : strip value with
    | none =>
      rw [result] at ran
      exact ran
    | some v =>
      rw [result] at ran
      obtain ⟨u,front,new,goes,facing,counted,holds',laid,res,isArr⟩ := ran
      have below : a < nodes.length := (List.getElem?_eq_some_iff.mp found).1
      cases next with
      | nil =>
        cases isSecond
        have closed := closed_behind done false front
          (fun front entries kids => LaidItems front nodes.length a (.cons v .nil) entries kids) (r := .goto .startValue s) spaces
          goes (by simpa using facing) isArr holds' res
          (fun more rest bytes some_ => ⟨[],new,[],rfl,(List.append_nil _).symm,
            laid.further (fun _ more laid => laid.more more) bytes some_,rfl,rfl⟩) counted
        rw [List.append_nil]
        exact closed
      | cons value' next' =>
        obtain ⟨third,fourth,rfl,isThird,isFourth⟩ := isSecond.append
        obtain ⟨space',rfl,spaces'⟩ := isThird.one
        have sizeU : ep + 1 = u.bytes.length := by
          have before := start.total
          have after := facing.total
          simp only [List.length_append] at before after
          omega
        obtain ⟨w,front',commas,kept,start',counted',size',sameBytes⟩ := comma_goes (fourth ++ (space ++ closing false :: tail)) false
          spaces' (by simpa using facing) (by simp) sizeU
        have others := items_run (.cons value' next') others isFourth start' spaces left size' (kept.pool ▸ holds')
          (kept.arr.trans isArr) (extend_old found) type
        have reaches := goes.trans commas
        cases result' : stripItems (.cons value' next') with
        | none =>
          rw [result'] at others
          simp only [Option.bind_eq_bind,Option.bind_some]
          exact Fails.after reaches others
        | some m =>
          rw [result',outcome_some] at others
          simp only [Option.bind_eq_bind,Option.bind_some,outcome_some]
          have rest : Closed ep (.goto .startValue w) a (done ++ front ++ front') tail (fourth.length + space.length + 1)
              (extend nodes a [⟨none,nodes.length⟩] new) w.res _ := others
          rw [List.append_assoc] at rest
          have closed := (rest.after reaches).cons (n := (front ++ front').length)
            (fun front entries kids => LaidItems front nodes.length a (.cons v m) entries kids) below rfl ?_
          · rw [kept.res,res] at closed
            refine Eq.mp (congrArg (Closed ep _ a done tail · nodes s.res _) ?_) closed
            simp
            omega
          · intro more entries kids isRest
            rw [extend_length] at isRest
            have some_ : front' ≠ [] := by
              rintro rfl
              cases counted'
            have isLaid := laid.further (fun _ more laid => laid.more more) (by rw [← sameBytes,start'.bytes]) some_
            exact ⟨entries,new,kids,rfl,rfl,by simpa using isLaid.more more,isRest⟩
end

/-! ### What the caller gets -/

/-- The container at `a` has these entries: its links agree with one another and with its count. -/
def HasEntries (pool : Pool) (a : Nat) (type : JsonType) (parent : Option Nat) (entries : List Entry) : Prop :=
  ∃ json places, pool.values[a]? = some json ∧ json.type = type ∧ json.parent = parent ∧
    json.numEntries = entries.length % 2 ^ 32 ∧ json.head = places.head? ∧ json.tail = places.getLast? ∧
    Linked pool.entries none places entries

mutual
/-- The value at `a` is this tree: the same types, keys, bytes, lengths and counts, and
    every link to a parent or a neighbour as it should be. -/
def Represents (bytes : List UInt8) (pool : Pool) (a : Nat) (parent : Option Nat) : Tree → Prop
  | .leaf type value => ∃ json, pool.values[a]? = some json ∧ json.type = type ∧ json.parent = parent ∧
      json.length = value.length ∧ Shows bytes json.value value
  | .object members => ∃ entries, HasEntries pool a .object parent entries ∧ RepresentsMembers bytes pool a entries members
  | .array items => ∃ entries, HasEntries pool a .array parent entries ∧ RepresentsItems bytes pool a entries items

def RepresentsMembers (bytes : List UInt8) (pool : Pool) (a : Nat) : List Entry → Members → Prop
  | [], .nil => True
  | entry :: entries, .cons key value next => (∃ q, entry.1 = some q ∧ ShowsKey bytes q key) ∧
      Represents bytes pool entry.2 (some a) value ∧ RepresentsMembers bytes pool a entries next
  | _, _ => False

def RepresentsItems (bytes : List UInt8) (pool : Pool) (a : Nat) : List Entry → Items → Prop
  | [], .nil => True
  | entry :: entries, .cons value next =>
      Represents bytes pool entry.2 (some a) value ∧ RepresentsItems bytes pool a entries next
  | _, _ => False
end

/-- The parser gives this tree back for what is written for it, also with any
    whitespace between the tokens. -/
def RoundTrips (t : Tree) : Prop :=
  ∀ text, text = dump t ∨ Spaced (tokens t) text → ∃ fuel a s,
    acJsonParse fuel text = some (.returned (some a) s) ∧ Represents s.bytes s.pool a none t

variable {pool : Pool}

theorem Holds.entries (holds : Holds pool nodes) {node : Node} (found : nodes[a]? = some node) :
    HasEntries pool a node.type node.parent node.entries := by
  obtain ⟨json,isJson,⟨type,parent,-,-⟩,count,places,-,head,tail,chain⟩ := holds.found found
  exact ⟨json,places,isJson,type,parent,count,head,tail,chain⟩

theorem node_at (post : List Node) {pre : List Node} {node : Node} : (pre ++ node :: post)[pre.length]? = some node := by simp

mutual
theorem laid_represents (pre post : List Node) (t : Tree) {front more : List UInt8} {base : Nat} {parent : Option Nat} {new : List Node}
    (laid : Laid front base parent t new) (holds : Holds pool (pre ++ (new ++ post))) (at_base : pre.length = base) :
    Represents (front ++ more) pool base parent t := by
  subst at_base
  cases t with
  | leaf type value =>
    obtain ⟨text,rfl,shows,-⟩ := laid
    obtain ⟨json,isJson,⟨type,up,isText,length⟩,-⟩ := holds.found (node_at _)
    exact ⟨json,isJson,type,up,length,by rw [isText]; exact shows.more more⟩
  | object members =>
    obtain ⟨entries,kids,rfl,inside⟩ := laid
    refine ⟨entries,holds.entries (node_at (kids ++ post)),?_⟩
    exact laidMembers_represents (pre ++ [_]) members inside (by simpa using holds) (by simp)
  | array items =>
    obtain ⟨entries,kids,rfl,inside⟩ := laid
    refine ⟨entries,holds.entries (node_at (kids ++ post)),?_⟩
    exact laidItems_represents (pre ++ [_]) items inside (by simpa using holds) (by simp)

theorem laidMembers_represents (pre : List Node) (members : Members) {front more : List UInt8} {base b : Nat} {entries : List Entry}
    {kids post : List Node} (laid : LaidMembers front base b members entries kids)
    (holds : Holds pool (pre ++ (kids ++ post))) (at_base : pre.length = base) :
    RepresentsMembers (front ++ more) pool b entries members := by
  cases members with
  | nil =>
    obtain ⟨rfl,rfl⟩ := laid
    trivial
  | cons key value next =>
    obtain ⟨q,rest,first,others,rfl,rfl,shows,inside,following⟩ := laid
    refine ⟨⟨q,rfl,shows.more more⟩,?_,?_⟩
    · exact laid_represents pre (others ++ post) value inside (by simpa using holds) at_base
    · exact laidMembers_represents (pre ++ first) next following (by simpa using holds) (by simp [at_base])

theorem laidItems_represents (pre : List Node) (items : Items) {front more : List UInt8} {base b : Nat} {entries : List Entry}
    {kids post : List Node} (laid : LaidItems front base b items entries kids)
    (holds : Holds pool (pre ++ (kids ++ post))) (at_base : pre.length = base) :
    RepresentsItems (front ++ more) pool b entries items := by
  cases items with
  | nil =>
    obtain ⟨rfl,rfl⟩ := laid
    trivial
  | cons value next =>
    obtain ⟨rest,first,others,rfl,rfl,inside,following⟩ := laid
    refine ⟨?_,?_⟩
    · exact laid_represents pre (others ++ post) value inside (by simpa using holds) at_base
    · exact laidItems_represents (pre ++ first) next following (by simpa using holds) (by simp [at_base])
end

/-! ### One value, one tree -/

theorem HasEntries.unique {type : JsonType} {parent parent' : Option Nat} {entries entries' : List Entry}
    (has : HasEntries pool a type parent entries) (has' : HasEntries pool a type parent' entries') : entries = entries' := by
  obtain ⟨json,places,found,-,-,-,head,-,chain⟩ := has
  obtain ⟨json',places',found',-,-,-,head',-,chain'⟩ := has'
  obtain rfl := Option.some.inj (found.symm.trans found')
  exact chain.unique chain' (head.symm.trans head')

theorem HasEntries.type {type type' : JsonType} {parent : Option Nat} {entries : List Entry} {json : Json}
    (has : HasEntries pool a type parent entries) (found : pool.values[a]? = some json) (isType : json.type = type') : type = type' := by
  obtain ⟨json',-,found',same,-⟩ := has
  obtain rfl := Option.some.inj (found.symm.trans found')
  exact same.symm.trans isType

theorem Shows.unique {text : Option Text} {value value' : List UInt8} (shows : Shows done text value) (shows' : Shows done text value')
    (length : value.length = value'.length) : value = value' := by
  match text with
  | some (.at _) => exact (List.prefix_of_prefix_length_le shows shows' (Nat.le_of_eq length)).eq_of_length length
  | some (.constant _) => exact Eq.trans (Eq.symm shows) shows'

theorem takeWhile_key {key : List UInt8} (whole : 0 ∉ key) (more : List UInt8) :
    (key ++ 0 :: more).takeWhile (· ≠ 0) = key := by
  rw [List.takeWhile_append_of_pos,List.takeWhile_cons_of_neg (by simp),List.append_nil]
  intro c inside
  simpa using fun zero : c = 0 => whole (zero ▸ inside)

theorem ShowsKey.unique {q : Nat} {key key' : List UInt8} (shows : ShowsKey done q key) (shows' : ShowsKey done q key')
    (whole : 0 ∉ key) (whole' : 0 ∉ key') : key = key' := by
  obtain ⟨more,same⟩ := shows
  obtain ⟨more',same'⟩ := shows'
  rw [List.append_assoc,List.singleton_append] at same same'
  rw [← takeWhile_key whole more,same,← same',takeWhile_key whole']

mutual
theorem represents_unique (t t' : Tree) {bytes : List UInt8} {a : Nat} {parent parent' : Option Nat}
    (stands : Represents bytes pool a parent t) (stands' : Represents bytes pool a parent' t') (encoded : Encoded t)
    (encoded' : Encoded t') : t = t' := by
  cases t with
  | leaf type value =>
    obtain ⟨json,found,isType,-,length,shows⟩ := stands
    cases t' with
    | leaf type' value' =>
      obtain ⟨json',found',isType',-,length',shows'⟩ := stands'
      obtain rfl := Option.some.inj (found.symm.trans found')
      rw [isType.symm.trans isType',shows.unique shows' (length.symm.trans length')]
    | object members =>
      obtain ⟨entries,has,-⟩ := stands'
      rw [← has.type found isType] at encoded
      exact encoded.1.elim
    | array items =>
      obtain ⟨entries,has,-⟩ := stands'
      rw [← has.type found isType] at encoded
      exact encoded.1.elim
  | object members =>
    obtain ⟨entries,has,inside⟩ := stands
    cases t' with
    | leaf type' value' =>
      obtain ⟨json,found,isType,-⟩ := stands'
      rw [← has.type found isType] at encoded'
      exact encoded'.1.elim
    | object members' =>
      obtain ⟨entries',has',inside'⟩ := stands'
      obtain rfl := has.unique has'
      rw [representsMembers_unique members members' inside inside' encoded encoded']
    | array items' =>
      obtain ⟨entries',⟨json,_,found,isType,-⟩,-⟩ := stands'
      cases has.type found isType
  | array items =>
    obtain ⟨entries,has,inside⟩ := stands
    cases t' with
    | leaf type' value' =>
      obtain ⟨json,found,isType,-⟩ := stands'
      rw [← has.type found isType] at encoded'
      exact encoded'.1.elim
    | object members' =>
      obtain ⟨entries',⟨json,_,found,isType,-⟩,-⟩ := stands'
      cases has.type found isType
    | array items' =>
      obtain ⟨entries',has',inside'⟩ := stands'
      obtain rfl := has.unique has'
      rw [representsItems_unique items items' inside inside' encoded encoded']

theorem representsMembers_unique (members members' : Members) {bytes : List UInt8} {a : Nat} {entries : List Entry}
    (stands : RepresentsMembers bytes pool a entries members) (stands' : RepresentsMembers bytes pool a entries members')
    (encoded : EncodedMembers members) (encoded' : EncodedMembers members') : members = members' := by
  cases members with
  | nil => cases entries <;> cases members' <;> simp_all [RepresentsMembers]
  | cons key value next =>
    cases entries with
    | nil => exact stands.elim
    | cons entry entries =>
      cases members' with
      | nil => exact stands'.elim
      | cons key' value' next' =>
        obtain ⟨⟨q,isKey,shows⟩,inside,following⟩ := stands
        obtain ⟨⟨q',isKey',shows'⟩,inside',following'⟩ := stands'
        obtain rfl := Option.some.inj (isKey.symm.trans isKey')
        rw [shows.unique shows' encoded.1.1 encoded'.1.1,represents_unique value value' inside inside' encoded.2.1 encoded'.2.1,
          representsMembers_unique next next' following following' encoded.2.2 encoded'.2.2]

theorem representsItems_unique (items items' : Items) {bytes : List UInt8} {a : Nat} {entries : List Entry}
    (stands : RepresentsItems bytes pool a entries items) (stands' : RepresentsItems bytes pool a entries items')
    (encoded : EncodedItems items) (encoded' : EncodedItems items') : items = items' := by
  cases items with
  | nil => cases entries <;> cases items' <;> simp_all [RepresentsItems]
  | cons value next =>
    cases entries with
    | nil => exact stands.elim
    | cons entry entries =>
      cases items' with
      | nil => exact stands'.elim
      | cons value' next' =>
        rw [represents_unique value value' stands.1 stands'.1 encoded.1 encoded'.1,
          representsItems_unique next next' stands.2 stands'.2 encoded.2 encoded'.2]
end

mutual
theorem strip_encoded (t : Tree) {t' : Tree} (encoded : Encoded t) (stripped : strip t = some t') : Encoded t' := by
  cases t with
  | leaf type value =>
    rw [strip] at stripped
    split at stripped
    · cases stripped
    · cases stripped
      exact encoded
  | object members =>
    obtain ⟨m,found,rfl⟩ := Option.map_eq_some_iff.mp (by simpa [strip] using stripped)
    exact stripMembers_encoded members encoded found
  | array items =>
    obtain ⟨m,found,rfl⟩ := Option.map_eq_some_iff.mp (by simpa [strip] using stripped)
    exact stripItems_encoded items encoded found

theorem stripMembers_encoded (members : Members) {members' : Members} (encoded : EncodedMembers members)
    (stripped : stripMembers members = some members') : EncodedMembers members' := by
  cases members with
  | nil =>
    cases stripped
    trivial
  | cons key value next =>
    simp only [stripMembers,Option.bind_eq_bind,Option.bind_eq_some_iff] at stripped
    obtain ⟨v,isValue,m,isNext,same⟩ := stripped
    cases same
    exact ⟨encoded.1,strip_encoded value encoded.2.1 isValue,stripMembers_encoded next encoded.2.2 isNext⟩

theorem stripItems_encoded (items : Items) {items' : Items} (encoded : EncodedItems items)
    (stripped : stripItems items = some items') : EncodedItems items' := by
  cases items with
  | nil =>
    cases stripped
    trivial
  | cons value next =>
    rw [stripItems] at stripped
    split at stripped
    · cases next
      · cases stripped
        trivial
      · cases stripped
    · simp only [Option.bind_eq_bind,Option.bind_eq_some_iff] at stripped
      obtain ⟨v,isValue,m,isNext,same⟩ := stripped
      cases same
      exact ⟨strip_encoded value encoded.1 isValue,stripItems_encoded next encoded.2 isNext⟩
end

/-! ### Calls of the parser -/

variable (rest) in
/-- The root of a text, opened. -/
theorem begin_opens (object : Bool) {text : List UInt8} (spaces : Spaces space) (isText : text = space ++ opening object :: rest) :
    ∃ s, Reaches text.length (begin text) (.goto (innerLabel object) s) ∧ Start s (space ++ [opening object]) (rest ++ [0]) ∧
      text.length + 1 = s.bytes.length ∧ Holds s.pool [{ type := containerType object }] ∧
      (if object then s.root else s.arr) = some 0 ∧ s.res = some 0 := by
  have fresh : Json.fresh { type := containerType object } := ⟨rfl,rfl,rfl⟩
  by_cases direct : space = [] ∧ object = true
  · obtain ⟨rfl,rfl⟩ := direct
    subst isText
    refine ⟨{ bytes := opening true :: rest ++ [0], p := 1, pool := ⟨[{ type := .object }],[]⟩, res := some 0, root := some 0 },
      Reaches.refl ..,⟨rfl,rfl⟩,by simp,holds_one [] fresh,rfl,rfl⟩
  · have first : begin text = .goto .startValue { bytes := text ++ [0], p := 0 } := by
      cases space with
      | nil =>
        cases object with
        | true => exact absurd ⟨rfl,rfl⟩ direct
        | false =>
          subst isText
          rfl
      | cons c space =>
        have other : c ≠ openBrace := by
          rintro rfl
          exact absurd (spaces _ List.mem_cons_self) (by decide)
        subst isText
        simp [begin,other]
    have start : Start { bytes := text ++ [0], p := 0 } [] (space ++ opening object :: (rest ++ [0])) := ⟨by simp [isText],rfl⟩
    obtain ⟨t,skips,kept,start',same⟩ := space_skip text.length .startValue spaces (by simp) start (by simp) (by simp)
    have inside : ¬ t.p ≥ text.length := by
      have : t.p < text.length := start'.inside (by simp) (by simp [same])
      omega
    have next := start'.next (t := { t with p := t.p + 1 }) rfl rfl
    rw [List.nil_append] at next
    have isPool : t.pool = ⟨[],[]⟩ := kept.pool
    have isArr : t.arr = none := kept.arr
    rw [first]
    cases object with
    | true =>
      refine ⟨{ t with ch := openBrace, p := t.p + 1, pool := ⟨[{ type := .object }],[]⟩, res := some 0, root := some 0 },
        skips.trans (Reaches.step ?_ (Reaches.refl ..)),⟨next.bytes,next.p⟩,by simp [same],holds_one [] fresh,rfl,rfl⟩
      simp [step,startValue,inside,start'.take,opening,isSpace,openBrace,isPool,isArr,addValue,innerLabel]
    | false =>
      refine ⟨{ t with ch := openBracket, p := t.p + 1, pool := ⟨[{ type := .array }],[]⟩, res := some 0, arr := some 0, root := some 0 },
        skips.trans (Reaches.step ?_ (Reaches.refl ..)),⟨next.bytes,next.p⟩,by simp [same],holds_one [] fresh,rfl,rfl⟩
      simp [step,startValue,inside,start'.take,opening,isSpace,openBrace,openBracket,isPool,isArr,addValue,innerLabel]

/-- The tree lies in the pool, its root first. -/
def Stored (s : State) (tree : Tree) : Prop :=
  ∃ nodes front more, s.bytes = front ++ more ∧ Holds s.pool nodes ∧ Laid front 0 none tree nodes

theorem Stored.represents {s : State} {tree : Tree} (stored : Stored s tree) : Represents s.bytes s.pool 0 none tree := by
  obtain ⟨nodes,front,more,text,holds,laid⟩ := stored
  rw [text]
  exact laid_represents [] [] tree laid (by simpa using holds) rfl

/-- The root closed: the call returns it. -/
theorem root_returns (object : Bool) {ep length : Nat} {r : Result} {tree : Tree} {laid : List UInt8 → List Entry → List Node → Prop}
    (closed : Closed ep r 0 done tail length [{ type := containerType object }] (some 0) laid)
    (whole : ∀ front entries kids, laid front entries kids →
      Laid front 0 none tree ({ type := containerType object, entries := entries } :: kids)) :
    ∃ s, Reaches ep r (.returned (some 0) s) ∧ Stored s tree := by
  obtain ⟨t,skip,front,entries,kids,closes,text,-,-,holds,isLaid,res⟩ := closed
  have nodes : extend [{ type := containerType object }] 0 entries kids = { type := containerType object, entries := entries } :: kids := rfl
  rw [nodes] at holds
  obtain ⟨json,isJson,⟨-,up,-⟩,-⟩ := holds.found (a := 0) rfl
  refine ⟨{ t with root := none },closes _ ?_,_,_,tail,text,holds,whole _ _ _ isLaid⟩
  simp [close,isJson,up,res]

/-- What a call makes of the text of a tree. -/
theorem parse_run {t : Tree} {text : List UInt8} (encoded : Encoded t) (container : t.isContainer) (spaced : Spaced (tokens t) text) :
    Outcome (strip t) (Fails text.length (begin text)) fun t' =>
      ∃ s, Reaches text.length (begin text) (.returned (some 0) s) ∧ Stored s t' := by
  obtain ⟨lead,last,isText,isLead,spaces⟩ := spaced
  cases t with
  | leaf => exact container.elim
  | object members =>
    obtain ⟨first,second,rfl,isFirst,isSecond⟩ := Lead.append [[openBrace]] (by simpa [tokens] using isLead)
    obtain ⟨inner,third,rfl,isInner,isThird⟩ := isSecond.append
    obtain ⟨space,rfl,spaces⟩ := isFirst.one
    obtain ⟨space',rfl,spaces'⟩ := isThird.one
    obtain ⟨s,opens,start,size,holds,isA,res⟩ := begin_opens (inner ++ (space' ++ closing true :: last)) true spaces
      (by simpa [opening,closing] using isText)
    have start' : Start s (space ++ [opening true]) (inner ++ (space' ++ closing true :: (last ++ [0]))) := by simpa using start
    have ran := members_run members encoded isInner start' spaces' (by simp) size holds isA rfl rfl
    rw [strip]
    cases result : stripMembers members with
    | none =>
      rw [result] at ran
      exact Fails.after opens ran
    | some m =>
      rw [result,outcome_some,res] at ran
      exact root_returns true (Closed.after opens ran) fun front entries kids laid => ⟨entries,kids,rfl,laid⟩
  | array items =>
    obtain ⟨first,second,rfl,isFirst,isSecond⟩ := Lead.append [[openBracket]] (by simpa [tokens] using isLead)
    obtain ⟨inner,third,rfl,isInner,isThird⟩ := isSecond.append
    obtain ⟨space,rfl,spaces⟩ := isFirst.one
    obtain ⟨space',rfl,spaces'⟩ := isThird.one
    obtain ⟨s,opens,start,size,holds,isA,res⟩ := begin_opens (inner ++ (space' ++ closing false :: last)) false spaces
      (by simpa [opening,closing] using isText)
    have start' : Start s (space ++ [opening false]) (inner ++ (space' ++ closing false :: (last ++ [0]))) := by simpa using start
    have ran := items_run items encoded isInner start' spaces' (by simp) size holds isA rfl rfl
    rw [strip]
    cases result : stripItems items with
    | none =>
      rw [result] at ran
      exact Fails.after opens ran
    | some m =>
      rw [result,outcome_some,res] at ran
      exact root_returns false (Closed.after opens ran) fun front entries kids laid => ⟨entries,kids,rfl,laid⟩

theorem dump_spaced {t : Tree} (encoded : Encoded t) : Spaced (tokens t) (dump t) := by
  rw [dump_tokens t encoded]
  exact ⟨_,[],by simp,lead_flatten _,nofun⟩

theorem null_lost {t : Tree} (encoded : Encoded t) (container : t.isContainer) (null : hasNull t = true) : ¬ RoundTrips t := by
  intro trips
  obtain ⟨fuel,a,s,ran,stands⟩ := trips _ (.inl rfl)
  have run := parse_run encoded container (dump_spaced encoded)
  cases result : strip t with
  | none =>
    rw [result] at run
    obtain ⟨errorAt,n,fails⟩ := run
    cases run_unique ran fails trivial trivial
  | some t' =>
    rw [result] at run
    obtain ⟨s',⟨n,returns⟩,stands'⟩ := run
    cases run_unique ran returns trivial trivial
    have same := represents_unique t' t stands'.represents stands (strip_encoded t encoded result) encoded
    rw [same,strip_self,null] at result
    cases result

/-- Dump and then parse, with any whitespace between the tokens, is the identity on
    exactly the trees without a null. -/
theorem dump_parse (t : Tree) (encoded : Encoded t) (container : t.isContainer) : RoundTrips t ↔ hasNull t = false := by
  constructor
  · intro trips
    by_contra null
    exact null_lost encoded container (by simpa using null) trips
  · intro plain text written
    have spaced : Spaced (tokens t) text := by
      obtain rfl | spaced := written
      · exact dump_spaced encoded
      · exact spaced
    have run := parse_run encoded container spaced
    rw [(strip_self t).mpr plain] at run
    obtain ⟨s,⟨n,returns⟩,stands⟩ := run
    exact ⟨n,0,s,returns,stands.represents⟩

theorem encoded_plain {text : List UInt8} (whole : 0 ∉ text) (plain : quote ∉ text) (even : slashes text % 2 = 0) : EncodedText text := by
  refine ⟨whole,?_,even⟩
  rintro before after rfl
  exact absurd (List.mem_append_right _ List.mem_cons_self) plain

/-- An object with an array under its key. -/
theorem dump_parse_object :
    RoundTrips (.object (.cons [97] (.array (.cons (.leaf .number [49]) (.cons (.leaf .true trueWord) .nil))) .nil)) := by
  have number : EncodedNumber [49] := ⟨[],[49],rfl,.inl rfl,49,[],rfl,rfl,nofun⟩
  have encoded : Encoded (.object (.cons [97] (.array (.cons (.leaf .number [49]) (.cons (.leaf .true trueWord) .nil))) .nil)) :=
    ⟨encoded_plain (by decide) (by decide) (by decide),⟨⟨number,by decide⟩,⟨rfl,by decide⟩,trivial⟩,trivial⟩
  exact (dump_parse _ encoded trivial).mpr rfl

/-- `[null]` is written as `[]`. -/
theorem null_dropped : ∃ t, Encoded t ∧ t.isContainer ∧ ¬ RoundTrips t := by
  have encoded : Encoded (.array (.cons (.leaf .null nullWord) .nil)) := ⟨⟨rfl,by decide⟩,trivial⟩
  exact ⟨_,encoded,trivial,null_lost encoded trivial rfl⟩

end AnotherC.AcJson
