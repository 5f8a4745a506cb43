import AnotherC.Json.Containers
import Mathlib.Tactic.Common

/-!
# The parser on every input

`Ready` says for each label what the variables satisfy there. One step from a state
that is ready is inside the buffer, meets no NULL, and gets to one that is ready
and closer to the end. `parse_safe` draws the conclusion for whole runs: the only
texts that harm the parser start with a closing bracket.
-/
namespace AnotherC.AcJson
open AnotherC.Lib
open AnotherC.Lib.Chain (Link Linked)
set_option linter.unusedVariables false

/-- A NUL-terminated string at `q`, whose length is kept in 32 bits. -/
def Terminated (ep : Nat) (bytes : List UInt8) (q length : Nat) : Prop :=
  ∃ e, q ≤ e ∧ e ≤ ep ∧ bytes[e]? = some 0 ∧ length = (e - q) % 2 ^ 32

def JsonType.isContainer (type : JsonType) : Prop := type = .object ∨ type = .array

def TextOk (ep : Nat) (bytes : List UInt8) (type : JsonType) (value : Option Text) (length : Nat) : Prop :=
  type.isText → ∃ q, value = some (.at q) ∧ Terminated ep bytes q length

/-- The keys of an object end inside the buffer. -/
def KeysOk (ep : Nat) (bytes : List UInt8) (type : JsonType) (entries : List Entry) : Prop :=
  type = .object → ∀ entry ∈ entries, ∃ k e, entry.1 = some k ∧ k ≤ e ∧ e ≤ ep ∧ bytes[e]? = some 0

/-- A container is well formed: its lists agree with its count, its children know
    it, and its keys end inside the buffer. The count has 32 bits. -/
def ContainerOk (ep : Nat) (bytes : List UInt8) (pool : Pool) (a : Nat) (json : Json) : Prop :=
  ∃ places entries, json.head = places.head? ∧ json.tail = places.getLast? ∧
    Linked pool.entries none places entries ∧ json.numEntries = entries.length % 2 ^ 32 ∧
    (ep < 2 ^ 32 → json.numEntries = entries.length) ∧ KeysOk ep bytes json.type entries ∧
    ∀ entry ∈ entries, a < entry.2 ∧ ∃ child, pool.values[entry.2]? = some child ∧ child.parent = some a

/-- A value that can be returned: a root, and all that was allocated is well formed. -/
def WellFormed (ep : Nat) (bytes : List UInt8) (pool : Pool) (value : Nat) : Prop :=
  (∃ root, pool.values[value]? = some root ∧ root.parent = none) ∧
  ∀ a json, pool.values[a]? = some json →
    TextOk ep bytes json.type json.value json.length ∧ (json.type.isContainer → ContainerOk ep bytes pool a json)

/-- The first byte that is not whitespace closes an array. -/
def closesFirst (text : List UInt8) : Bool := (text.dropWhile isSpace).head? == some closeBracket

/-- What a call may end with. -/
def Returns (ep : Nat) : Result → Prop
  | .goto _ _ => False
  | .returned value s => ∃ a, value = some a ∧ WellFormed ep s.bytes s.pool a
  | .badCharacter _ => True

/-- The call ends, without a byte outside the buffer or a NULL on the way. -/
def Safe (text : List UInt8) : Prop := ∃ fuel result, acJsonParse fuel text = some result ∧ Returns text.length result

/-! ### What is the same at every label -/

structure Sound (ep : Nat) (bytes : List UInt8) (pool : Pool) (nodes : List Node) : Prop where
  fits : bytes.length = ep + 1
  nul : bytes[ep]? = some 0
  holds : Holds pool nodes
  grounded : ∀ {a : Nat} {node r}, nodes[a]? = some node → node.parent = some r →
    ∃ up, nodes[r]? = some up ∧ up.type.isContainer
  texts : ∀ {a : Nat} {node}, nodes[a]? = some node → TextOk ep bytes node.type node.value node.length
  keys : ∀ {a : Nat} {node}, nodes[a]? = some node → KeysOk ep bytes node.type node.entries

/-- Every node has had `more` bytes more than it has entries. -/
def Room (nodes : List Node) (more p : Nat) : Prop :=
  ∀ (a : Nat) node, nodes[a]? = some node → node.entries.length + more ≤ p

variable {ep p a : Nat} {bytes : List UInt8} {pool : Pool} {nodes : List Node} {s : State}

theorem Sound.read (sound : Sound ep bytes pool nodes) (inside : p ≤ ep) : ∃ b, bytes[p]? = some b :=
  ⟨_,List.getElem?_eq_getElem (by have := sound.fits; omega)⟩

/-- Only the byte at `ep` is past the text, and it is a NUL. -/
theorem Sound.live (sound : Sound ep bytes pool nodes) {b : UInt8} (found : bytes[p]? = some b) (byte : b ≠ 0) : p < ep := by
  have below := (List.getElem?_eq_some_iff.mp found).1
  have differ : p ≠ ep := by
    rintro rfl
    exact byte (Option.some.inj (found.symm.trans sound.nul))
  have := sound.fits
  omega

theorem nul_set {i : Nat} (found : bytes[i]? = some 0) : (bytes.set p 0)[i]? = some 0 := by
  by_cases same : p = i
  · subst same
    exact List.getElem?_set_self (List.getElem?_eq_some_iff.mp found).1
  · rw [List.getElem?_set_ne same,found]

theorem Terminated.cut {q length : Nat} (ends : Terminated ep bytes q length) : Terminated ep (bytes.set p 0) q length := by
  obtain ⟨e,after,inside,nul,count⟩ := ends
  exact ⟨e,after,inside,nul_set nul,count⟩

theorem Sound.cut (sound : Sound ep bytes pool nodes) : Sound ep (bytes.set p 0) pool nodes := by
  refine ⟨by simp [sound.fits],nul_set sound.nul,sound.holds,sound.grounded,?_,?_⟩
  · intro a node found text
    obtain ⟨q,value,ends⟩ := sound.texts found text
    exact ⟨q,value,ends.cut⟩
  · intro a node found isObject entry inside
    obtain ⟨k,e,key,after,below,nul⟩ := sound.keys found isObject entry inside
    exact ⟨k,e,key,after,below,nul_set nul⟩

theorem Room.mono {more less q : Nat} (room : Room nodes more p) (enough : p + less ≤ q + more) : Room nodes less q := by
  intro a node found
  have := room a node found
  omega

/-- A new value in a container. -/
theorem Sound.adopt (sound : Sound ep bytes pool nodes) {pool' : Pool} {node child : Node} {key : Option Nat}
    (holds : Holds pool' (adopt nodes a key child)) (parent : nodes[a]? = some node) (container : node.type.isContainer)
    (bare : child.entries = []) (text : TextOk ep bytes child.type child.value child.length)
    (keyed : node.type = .object → ∃ k, key = some k ∧ k ≤ ep) : Sound ep bytes pool' (adopt nodes a key child) := by
  refine ⟨sound.fits,sound.nul,holds,?_,?_,?_⟩
  · intro b new r found up
    have old : ∀ {c : Nat} {n}, nodes[c]? = some n → n.parent = some r → ∃ up, (AcJson.adopt nodes a key child)[r]? = some up ∧
        up.type.isContainer := by
      intro c n there isUp
      obtain ⟨above,at_r,kind⟩ := sound.grounded there isUp
      obtain ⟨above',at_r',-,same⟩ := adopt_parent a key child at_r
      exact ⟨above',at_r',same ▸ kind⟩
    obtain ⟨rfl,rfl⟩ | ⟨-,there⟩ | ⟨-,rfl⟩ := adopt_cases found parent
    · exact old parent up
    · exact old there up
    · cases up
      exact ⟨_,adopt_self parent,container⟩
  · intro b new found
    obtain ⟨rfl,rfl⟩ | ⟨-,there⟩ | ⟨-,rfl⟩ := adopt_cases found parent
    · have text := sound.texts parent
      exact text
    · exact sound.texts there
    · exact text
  · intro b new found isObject entry inside
    obtain ⟨rfl,rfl⟩ | ⟨-,there⟩ | ⟨-,rfl⟩ := adopt_cases found parent
    · obtain inside | inside := List.mem_append.mp inside
      · exact sound.keys parent isObject entry inside
      · cases List.mem_singleton.mp inside
        obtain ⟨k,rfl,below⟩ := keyed isObject
        exact ⟨k,ep,rfl,below,Nat.le_refl _,sound.nul⟩
    · exact sound.keys there isObject entry inside
    · simp [bare] at inside

theorem Room.adopt {node child : Node} {key : Option Nat} (room : Room nodes 1 p) (parent : nodes[a]? = some node)
    (bare : child.entries = []) : Room (adopt nodes a key child) 0 p := by
  intro b new found
  obtain ⟨rfl,rfl⟩ | ⟨-,there⟩ | ⟨-,rfl⟩ := adopt_cases found parent
  · simpa using room _ _ parent
  · have := room _ _ there
    omega
  · simp [bare]

/-- A sound pool is well formed. -/
theorem Sound.wellFormed (sound : Sound ep bytes pool nodes) (room : Room nodes 0 p) (inside : p ≤ ep) {node : Node}
    (found : nodes[a]? = some node) (isRoot : node.parent = none) : WellFormed ep bytes pool a := by
  obtain ⟨root,at_root,⟨-,up,-⟩,-⟩ := sound.holds.found found
  refine ⟨⟨root,at_root,up.trans isRoot⟩,?_⟩
  intro b json isJson
  obtain ⟨other,there⟩ : ∃ other, nodes[b]? = some other :=
    ⟨_,List.getElem?_eq_getElem (sound.holds.size ▸ (List.getElem?_eq_some_iff.mp isJson).1)⟩
  obtain ⟨⟨type,parent,value,length⟩,count,places,sorted,head,tail,chain⟩ := sound.holds.stands isJson there
  refine ⟨?_,?_⟩
  · rw [type,value,length]
    exact sound.texts there
  intro container
  refine ⟨places,other.entries,head,tail,chain,count,?_,?_,?_⟩
  · intro short
    have := room _ _ there
    rw [count,Nat.mod_eq_of_lt (by omega)]
  · rw [type]
    exact sound.keys there
  · intro entry member
    obtain ⟨behind,child,at_child,up⟩ := sound.holds.belongs there entry member
    obtain ⟨kid,at_kid,⟨-,same,-⟩,-⟩ := sound.holds.found at_child
    exact ⟨behind,kid,at_kid,same.trans up⟩

/-! ### What holds at each label -/

def InObject (s : State) (nodes : List Node) : Prop := ∃ r node, s.root = some r ∧ nodes[r]? = some node ∧ node.type = .object

def InArray (s : State) (nodes : List Node) : Prop := ∃ r node, s.arr = some r ∧ nodes[r]? = some node ∧ node.type = .array

/-- There is something to return, and it is a root. -/
def HasRes (s : State) (nodes : List Node) : Prop := ∃ r node, s.res = some r ∧ nodes[r]? = some node ∧ node.parent = none

/-- Where the next value goes: into an object under a key, into an array, or nowhere yet. -/
def Place (ep : Nat) (s : State) (nodes : List Node) : Bool → Prop
  | true => InObject s nodes ∧ HasRes s nodes ∧ ∃ k, s.key = some k ∧ k ≤ ep
  | false => (InArray s nodes ∧ HasRes s nodes) ∨ (s.arr = none ∧ nodes = [])

/-- `ch` is the byte at `p`, or what that was before it became a NUL. -/
def Pending (ep : Nat) (s : State) : Prop := s.p ≤ ep ∧ (s.ch ≠ 0 → s.p < ep)

/-- Behind the quote that opened a string. -/
def InString (ep : Nat) (s : State) (start : Nat) : Prop := start + 1 ≤ s.p ∧ s.p ≤ ep ∧ s.bytes[start]? = some quote

def Ready (ep : Nat) (s : State) (nodes : List Node) : Label → Prop
  | .startKey => InObject s nodes ∧ HasRes s nodes ∧ Room nodes 0 s.p ∧ s.p ≤ ep
  | .getEndOfKey => InObject s nodes ∧ HasRes s nodes ∧ Room nodes 0 s.p ∧ ∃ k, s.key = some (k + 1) ∧ InString ep s k
  | .findColon => Place ep s nodes true ∧ Room nodes 0 s.p ∧ s.p ≤ ep + 1
  | .startKeyObject => Place ep s nodes true ∧ Room nodes 0 s.p ∧ s.p ≤ ep + 2
  | .startValue =>
    Place ep s nodes false ∧ Room nodes 0 s.p ∧ s.p ≤ ep ∧ (s.arr = none → closesFirst (s.bytes.drop s.p) = false)
  | .startString keyed =>
    Place ep s nodes keyed ∧ Room nodes 1 s.p ∧ s.dataType = .string ∧ ∃ q, s.stringp = some (.at (q + 1)) ∧ InString ep s q
  | .addString keyed =>
    Place ep s nodes keyed ∧ Room nodes 1 s.p ∧ Pending ep s ∧ TextOk ep s.bytes s.dataType s.stringp s.stringLength
  | .lookForKey => InObject s nodes ∧ HasRes s nodes ∧ Room nodes 0 s.p ∧ Pending ep s
  | .lookForNextObject => InArray s nodes ∧ HasRes s nodes ∧ Room nodes 0 s.p ∧ Pending ep s
  | .nextDigit keyed | .decimalNumber keyed | .decimalDigits keyed =>
    Place ep s nodes keyed ∧ Room nodes 1 s.p ∧ s.p ≤ ep ∧ ∃ q, s.stringp = some (.at q) ∧ q < s.p

/-- How much is left to do: every label takes a byte, or hands over to a later one. -/
def Label.rank : Label → Nat
  | .nextDigit _ | .decimalDigits _ => 2
  | .addString _ => 1
  | _ => 0

def measure (ep : Nat) (label : Label) (s : State) : Nat := 3 * (ep + 3 - s.p) + label.rank

/-- A step that is defined, and ends the call well or leaves less to do. -/
def Good (ep left : Nat) (result : Option Result) : Prop :=
  ∃ r, result = some r ∧ match r with
    | .goto label s => measure ep label s < left ∧ ∃ nodes, Sound ep s.bytes s.pool nodes ∧ Ready ep s nodes label
    | .returned value s => ∃ a, value = some a ∧ WellFormed ep s.bytes s.pool a
    | .badCharacter _ => True

theorem good_bad (ep left at_p : Nat) : Good ep left (some (.badCharacter at_p)) := ⟨_,rfl,trivial⟩

theorem good_goto (nodes : List Node) {left : Nat} {label : Label} (sound : Sound ep s.bytes s.pool nodes) (ready : Ready ep s nodes label)
    (less : measure ep label s < left) : Good ep left (some (.goto label s)) := ⟨_,rfl,less,nodes,sound,ready⟩

theorem take_eq {b : UInt8} (found : s.bytes[s.p]? = some b) : take s = some { s with ch := b, p := s.p + 1 } := by
  simp [take,found]

/-- The end of a container that knows its parent. -/
theorem close_good {left skip a : Nat} {container : Option Nat} {node : Node} (isA : container = some a) (sound : Sound ep s.bytes s.pool nodes) (res : HasRes s nodes)
    (room : Room nodes 0 s.p) (found : nodes[a]? = some node) (inside : s.p + skip ≤ ep)
    (less : 3 * (ep + 3 - (s.p + skip)) < left) : Good ep left (close container skip s) := by
  subst isA
  obtain ⟨json,at_json,⟨type,parent,-⟩,-⟩ := sound.holds.found found
  obtain ⟨b,here⟩ := sound.read inside
  simp only [close,Option.bind_eq_bind,Option.bind_some,at_json,parent]
  cases up : node.parent with
  | none =>
    obtain ⟨r,root,isRes,at_r,isRoot⟩ := res
    exact ⟨_,rfl,r,isRes,sound.wellFormed room (by omega) at_r isRoot⟩
  | some r =>
    obtain ⟨above,at_above,kind⟩ := sound.grounded found up
    obtain ⟨rn,at_rn,⟨sameType,-⟩,-⟩ := sound.holds.found at_above
    have pending : b ≠ 0 → s.p + skip < ep := sound.live here
    simp only [look,here,Option.bind_eq_bind,Option.bind_some,at_rn]
    by_cases isObject : rn.type = .object
    · rw [if_pos isObject]
      refine good_goto nodes sound ⟨⟨r,above,rfl,at_above,sameType ▸ isObject⟩,res,room.mono (by simp),inside,pending⟩ ?_
      simpa [measure,Label.rank] using less
    · rw [if_neg isObject]
      have isArray : above.type = .array := kind.resolve_left (sameType ▸ isObject)
      refine good_goto nodes sound ⟨⟨r,above,rfl,at_above,isArray⟩,res,room.mono (by simp),inside,pending⟩ ?_
      simpa [measure,Label.rank] using less

/-! ### Strings and keys -/

/-- The loop over backslashes stops at the quote that opened the string, at the latest. -/
theorem backtrack_some {k i : Nat} (after : k ≤ i) (inside : i < bytes.length) (opened : bytes[k]? = some quote) :
    ∃ j, backtrack bytes i = some j := by
  induction i with
  | zero =>
    obtain rfl : k = 0 := by omega
    exact ⟨0,by simp [backtrack,opened,show quote ≠ backslash from by decide]⟩
  | succ i ih =>
    have here : bytes[i + 1]? = some bytes[i + 1] := List.getElem?_eq_getElem inside
    by_cases slash : bytes[i + 1] = backslash
    · have before : k ≤ i := by
        by_contra last
        obtain rfl : k = i + 1 := by omega
        rw [here,Option.some.injEq,slash] at opened
        exact absurd opened (by decide)
      obtain ⟨j,stops⟩ := ih before (by omega)
      exact ⟨j,by simp [backtrack,here,slash,stops]⟩
    · exact ⟨i + 1,by simp [backtrack,here,slash]⟩

theorem escaped_some {k : Nat} (sound : Sound ep s.bytes s.pool nodes) (opened : InString ep s k) :
    ∃ b, escaped s = some b := by
  obtain ⟨after,inside,start⟩ := opened
  obtain ⟨q,isP⟩ : ∃ q, s.p = q + 1 := ⟨s.p - 1,by omega⟩
  have below : q < s.bytes.length := by have := sound.fits; omega
  obtain ⟨j,stops⟩ := backtrack_some (by omega) below start
  simp only [escaped,isP,Option.bind_eq_bind,List.getElem?_eq_getElem below,Option.bind_some,stops]
  split
  · exact ⟨_,rfl⟩
  · exact ⟨_,rfl⟩

theorem startKey_good (sound : Sound ep s.bytes s.pool nodes) (ready : Ready ep s nodes .startKey) :
    Good ep (measure ep .startKey s) (startKey ep s) := by
  obtain ⟨object,res,room,inside⟩ := ready
  unfold startKey
  split
  · exact good_bad ..
  obtain ⟨b,here⟩ := sound.read inside
  rw [take_eq here,Option.bind_eq_bind,Option.bind_some]
  have more : Room nodes 0 (s.p + 1) := room.mono (by omega)
  split
  case isTrue isQuote =>
    have isQuote : b = quote := isQuote
    refine good_goto nodes sound ⟨object,res,more,s.p,rfl,?_⟩ ?_
    · exact ⟨Nat.le_refl _,by dsimp only; omega,isQuote ▸ here⟩
    · simp only [measure,Label.rank]
      omega
  split
  · refine good_goto nodes sound ⟨object,res,more,by dsimp only; omega⟩ ?_
    simp only [measure,Label.rank]
    omega
  split
  · obtain ⟨r,node,isRoot,found,-⟩ := object
    refine close_good (s := { s with ch := b, p := s.p + 1 }) isRoot sound res more found (by dsimp only; omega) ?_
    simp only [measure,Label.rank]
    omega
  · exact good_bad ..

theorem getEndOfKey_good (sound : Sound ep s.bytes s.pool nodes) (ready : Ready ep s nodes .getEndOfKey) :
    Good ep (measure ep .getEndOfKey s) (getEndOfKey ep s) := by
  obtain ⟨object,res,room,k,key,opened⟩ := ready
  have more : Room nodes 0 (s.p + 1) := room.mono (by omega)
  have after := opened.1
  have inside := opened.2.1
  have place : ∀ t : State, t.root = s.root → t.res = s.res → t.key = s.key → Place ep t nodes true := by
    intro t sameRoot sameRes sameKey
    refine ⟨?_,?_,k + 1,sameKey.trans key,by omega⟩
    · simpa only [InObject,sameRoot] using object
    · simpa only [HasRes,sameRes] using res
  unfold getEndOfKey
  split
  case isFalse =>
    refine good_goto nodes sound ⟨place _ rfl rfl rfl,more,by dsimp only; omega⟩ ?_
    simp only [measure,Label.rank]
    omega
  case isTrue before =>
    have on : Ready ep { s with p := s.p + 1 } nodes .getEndOfKey :=
      ⟨object,res,more,k,key,by dsimp only; omega,by dsimp only; omega,opened.2.2⟩
    have less : measure ep .getEndOfKey { s with p := s.p + 1 } < measure ep .getEndOfKey s := by
      simp only [measure,Label.rank]
      omega
    obtain ⟨b,here⟩ := sound.read inside
    simp only [here,Option.bind_eq_bind,Option.bind_some]
    split
    · exact good_goto nodes sound on less
    obtain ⟨skip,escapes⟩ := escaped_some sound opened
    rw [escapes,Option.bind_some]
    split
    · exact good_goto nodes sound on less
    · simp only [cut,sound.fits,show s.p < ep + 1 from by omega,if_true,Option.bind_some]
      refine good_goto nodes sound.cut ⟨place _ rfl rfl rfl,more,by dsimp only; omega⟩ ?_
      simp only [measure,Label.rank]
      omega

theorem findColon_good (sound : Sound ep s.bytes s.pool nodes) (ready : Ready ep s nodes .findColon) :
    Good ep (measure ep .findColon s) (findColon ep s) := by
  obtain ⟨place,room,inside⟩ := ready
  have more : Room nodes 0 (s.p + 1) := room.mono (by omega)
  have less : ∀ label, label.rank = 0 → measure ep label { s with p := s.p + 1 } < measure ep .findColon s := by
    intro label last
    have none : Label.rank .findColon = 0 := rfl
    simp only [measure,last,none]
    omega
  unfold findColon
  split
  case isFalse => exact good_goto nodes sound ⟨place,more,by dsimp only; omega⟩ (less _ rfl)
  case isTrue before =>
    obtain ⟨b,here⟩ := sound.read (p := s.p) (by omega)
    simp only [here,Option.bind_eq_bind,Option.bind_some]
    split
    · exact good_goto nodes sound ⟨place,more,by dsimp only; omega⟩ (less _ rfl)
    · exact good_goto nodes sound ⟨place,more,by dsimp only; omega⟩ (less _ rfl)

theorem startString_good {keyed : Bool} (sound : Sound ep s.bytes s.pool nodes) (ready : Ready ep s nodes (.startString keyed)) :
    Good ep (measure ep (.startString keyed) s) (startString keyed ep s) := by
  obtain ⟨place,room,type,q,start,opened⟩ := ready
  have after := opened.1
  unfold startString
  split
  case isFalse => exact good_bad ..
  case isTrue before =>
    have on : Ready ep { s with p := s.p + 1 } nodes (.startString keyed) := by
      refine ⟨?_,room.mono (by simp),type,q,start,by dsimp only; omega,by dsimp only; omega,opened.2.2⟩
      cases keyed <;> exact place
    have less : measure ep (.startString keyed) { s with p := s.p + 1 } < measure ep (.startString keyed) s := by
      simp only [measure,Label.rank]
      omega
    obtain ⟨b,here⟩ := sound.read (p := s.p) (by omega)
    simp only [here,Option.bind_eq_bind,Option.bind_some]
    split
    · exact good_goto nodes sound on less
    obtain ⟨skip,escapes⟩ := escaped_some sound opened
    rw [escapes,Option.bind_some]
    split
    · exact good_goto nodes sound on less
    · obtain ⟨c,next⟩ := (sound.cut (p := s.p)).read (p := s.p + 1) (by omega)
      have ended : (s.bytes.set s.p 0)[s.p]? = some 0 := List.getElem?_set_self (List.getElem?_eq_some_iff.mp here).1
      simp only [start,cut,sound.fits,show s.p < ep + 1 from by omega,if_true,Option.bind_some,look,next,Option.bind_eq_bind]
      refine good_goto nodes sound.cut ⟨?_,room.mono (by simp),⟨by dsimp only; omega,sound.cut.live next⟩,?_⟩ ?_
      · cases keyed <;> exact place
      · exact fun _ => ⟨q + 1,rfl,s.p,after,by omega,ended,rfl⟩
      · simp only [measure,Label.rank]
        omega

/-! ### Values -/

/-- `s` with what the scan of a value may have changed. -/
structure Scanned (ep : Nat) (s t : State) : Prop where
  bytes : t.bytes = s.bytes
  pool : t.pool = s.pool
  key : t.key = s.key
  arr : t.arr = s.arr
  res : t.res = s.res
  root : t.root = s.root
  start : t.stringp = s.stringp
  after : s.p ≤ t.p
  inside : t.p ≤ ep

theorem Place.congr {keyed : Bool} {t : State} (place : Place ep s nodes keyed) (root : t.root = s.root) (arr : t.arr = s.arr)
    (res : t.res = s.res) (key : t.key = s.key) : Place ep t nodes keyed := by
  cases keyed <;> simpa only [Place,InObject,InArray,HasRes,root,arr,res,key] using place

/-- A value whose text is no part of the buffer, with the byte behind it in `ch`. -/
theorem addString_ready {keyed : Bool} {left : Nat} {b : UInt8} {t : State} {type : JsonType} {start : Option Text} {length : Nat}
    (sound : Sound ep s.bytes s.pool nodes) (place : Place ep s nodes keyed) (room : Room nodes 1 s.p)
    (same : Scanned ep s t) (here : t.bytes[t.p]? = some b) (other : ¬ type.isText)
    (less : 3 * (ep + 3 - s.p) + 2 < left) :
    Good ep left (some (.goto (.addString keyed)
      { t with ch := b, stringp := start, dataType := type, stringLength := length })) := by
  have sound' : Sound ep t.bytes t.pool nodes := by
    rw [same.bytes,same.pool]
    exact sound
  refine good_goto nodes sound' ⟨?_,?_,⟨same.inside,sound'.live here⟩,?_⟩ ?_
  · exact place.congr same.root same.arr same.res same.key
  · exact room.mono (Nat.add_le_add_right same.after 1)
  · exact fun text => absurd text other
  · have := same.after
    simp only [measure,Label.rank]
    omega

theorem constant_good {keyed : Bool} {left : Nat} {b : UInt8} {t : State} {text : List UInt8} {type : JsonType}
    (sound : Sound ep s.bytes s.pool nodes) (place : Place ep s nodes keyed) (room : Room nodes 1 s.p)
    (same : Scanned ep s t) (here : t.bytes[t.p]? = some b) (other : ¬ type.isText)
    (less : 3 * (ep + 3 - s.p) + 2 < left) : Good ep left (constant keyed text type { t with ch := b }) :=
  addString_ready (t := t) sound place room same here other less

/-- The bytes of a word are not NUL, so that the scan does not get past `ep`. -/
theorem word_good {left : Nat} {done : State → Option Result} {text : List UInt8} (visible : 0 ∉ text)
    (sound : Sound ep s.bytes s.pool nodes) (inside : s.p ≤ ep)
    (after : ∀ t b, Scanned ep s t → t.bytes[t.p]? = some b → Good ep left (done { t with ch := b })) :
    Good ep left (word done text s) := by
  induction text generalizing s with
  | nil =>
    obtain ⟨b,here⟩ := sound.read inside
    simp only [word,look,here,Option.bind_eq_bind,Option.bind_some]
    exact after s b ⟨rfl,rfl,rfl,rfl,rfl,rfl,rfl,Nat.le_refl _,inside⟩ here
  | cons c text ih =>
    obtain ⟨b,here⟩ := sound.read inside
    simp only [word,take_eq here,Option.bind_eq_bind,Option.bind_some]
    split
    · exact good_bad ..
    case isFalse same =>
      have same : b = c := by simpa using same
      have byte : b ≠ 0 := fun zero => visible (by rw [← same,zero]; exact List.mem_cons_self)
      have before := sound.live here byte
      refine ih (s := { s with ch := b, p := s.p + 1 }) (fun zero => visible (List.mem_cons_of_mem _ zero)) sound before ?_
      intro t d scanned there
      refine after t d ?_ there
      exact ⟨scanned.bytes,scanned.pool,scanned.key,scanned.arr,scanned.res,scanned.root,scanned.start,
        Nat.le_trans (Nat.le_succ _) scanned.after,scanned.inside⟩

theorem zero_good {keyed : Bool} {left q : Nat} (sound : Sound ep s.bytes s.pool nodes) (place : Place ep s nodes keyed)
    (room : Room nodes 1 s.p) (inside : s.p ≤ ep) (start : s.stringp = some (.at q)) (before : q < s.p)
    (less : 3 * (ep + 3 - s.p) + 2 < left) : Good ep left (zero keyed ep s) := by
  obtain ⟨b,here⟩ := sound.read inside
  have isZero : Good ep left (constant keyed [48] .zero { s with ch := b }) :=
    constant_good sound place room ⟨rfl,rfl,rfl,rfl,rfl,rfl,rfl,Nat.le_refl _,inside⟩ here (by simp [JsonType.isText]) less
  simp only [zero,look,here,Option.bind_eq_bind,Option.bind_some]
  split
  · split
    · exact isZero
    · refine good_goto nodes sound ⟨place.congr rfl rfl rfl rfl,room.mono (by simp),by dsimp only; omega,q,start,?_⟩ ?_
      · dsimp only
        omega
      · simp only [measure,Label.rank]
        omega
  · exact isZero

theorem binary_good {keyed : Bool} {left : Nat} (sound : Sound ep s.bytes s.pool nodes) (place : Place ep s nodes keyed)
    (room : Room nodes 1 s.p) (less : 3 * (ep + 3 - s.p) + 2 < left) : Good ep left (binary keyed ep s) := by
  unfold binary
  split
  · exact good_bad ..
  obtain ⟨b0,at0⟩ := sound.read (p := s.p) (by omega)
  obtain ⟨b1,at1⟩ := sound.read (p := s.p + 1) (by omega)
  obtain ⟨b2,at2⟩ := sound.read (p := s.p + 2) (by omega)
  obtain ⟨b3,at3⟩ := sound.read (p := s.p + 3) (by omega)
  simp only [at0,at1,at2,at3,Option.bind_eq_bind,Option.bind_some]
  split
  · exact good_bad ..
  · obtain ⟨c,next⟩ := sound.read (p := s.p + 4 + Bytes.number [b0,b1,b2,b3]) (by omega)
    simp only [look,next]
    refine addString_ready (t := { s with p := s.p + 4 + Bytes.number [b0,b1,b2,b3] }) sound place room ?_ next
      (by simp [JsonType.isText]) less
    exact ⟨rfl,rfl,rfl,rfl,rfl,rfl,rfl,by dsimp only; omega,by dsimp only; omega⟩

/-- A value that is no container, from its first byte on, which was taken. -/
theorem scalar_good {keyed : Bool} {left q : Nat} (sound : Sound ep s.bytes s.pool nodes) (place : Place ep s nodes keyed)
    (room : Room nodes 1 s.p) (taken : s.p = q + 1) (here : s.bytes[q]? = some s.ch) (inside : s.p ≤ ep)
    (less : 3 * (ep + 3 - s.p) + 2 < left) : Good ep left (scalar keyed ep s) := by
  have number : ∀ t : State, Scanned ep { s with stringp := some (.at (s.p - 1)) } t →
      Good ep left (some (.goto (.nextDigit keyed) t)) := by
    intro t same
    have after := same.after
    refine good_goto nodes (by rw [same.bytes,same.pool]; exact sound)
      ⟨place.congr same.root same.arr same.res same.key,room.mono (by simpa using after),same.inside,s.p - 1,same.start,?_⟩ ?_
    · dsimp only at after
      omega
    · simp only [measure,Label.rank]
      dsimp only at after
      omega
  unfold scalar
  split
  case isTrue isQuote =>
    refine good_goto nodes sound ⟨place.congr rfl rfl rfl rfl,room,rfl,q,by rw [← taken],?_⟩ ?_
    · exact ⟨by dsimp only; omega,inside,isQuote ▸ here⟩
    · simp only [measure,Label.rank]
      omega
  split
  case isTrue =>
    obtain ⟨b,next⟩ := sound.read inside
    rw [take_eq (s := { s with stringp := some (.at (s.p - 1)) }) next,Option.bind_eq_bind,Option.bind_some]
    split
    case isTrue natural =>
      have natural : isNatural b = true := natural
      have byte : b ≠ 0 := by
        rintro rfl
        exact absurd natural (by decide)
      exact number _ ⟨rfl,rfl,rfl,rfl,rfl,rfl,rfl,Nat.le_succ _,sound.live next byte⟩
    split
    case isTrue isZero =>
      have isZero : b = 48 := isZero
      have before := sound.live next (isZero ▸ by decide)
      refine zero_good (q := q) sound (place.congr rfl rfl rfl rfl) (room.mono (by simp)) before ?_ ?_ ?_
      · simp [taken]
      · dsimp only
        omega
      · dsimp only
        omega
    · exact good_bad ..
  split
  · refine zero_good (q := q) sound (place.congr rfl rfl rfl rfl) room inside ?_ (by dsimp only; omega) less
    simp [taken]
  split
  · exact number _ ⟨rfl,rfl,rfl,rfl,rfl,rfl,rfl,Nat.le_refl _,inside⟩
  split
  · split
    · exact good_bad ..
    · refine word_good (by decide) sound inside fun t b same next => ?_
      exact constant_good sound place room same next (by simp [JsonType.isText]) less
  split
  · split
    · exact good_bad ..
    · refine word_good (by decide) sound inside fun t b same next => ?_
      exact constant_good sound place room same next (by simp [JsonType.isText]) less
  split
  · obtain ⟨b,next⟩ := sound.read inside
    rw [take_eq next,Option.bind_eq_bind,Option.bind_some]
    have room' : Room nodes 1 (s.p + 1) := room.mono (by omega)
    split
    · split
      · refine binary_good (s := { s with ch := b, p := s.p + 1 }) sound (place.congr rfl rfl rfl rfl) room' ?_
        dsimp only
        omega
      · exact good_bad ..
    case isFalse isU =>
      have isU : b = 117 := by simpa using isU
      have before := sound.live next (isU ▸ by decide)
      refine word_good (s := { s with ch := b, p := s.p + 1 }) (by decide) sound before fun t c same there => ?_
      refine constant_good (s := { s with ch := b, p := s.p + 1 }) sound (place.congr rfl rfl rfl rfl) room' same there
        (by simp [JsonType.isText]) ?_
      dsimp only
      omega
  · exact good_bad ..

/-! ### Numbers -/

theorem endNumber_good {keyed : Bool} {left q i : Nat} {type : JsonType} (sound : Sound ep s.bytes s.pool nodes)
    (place : Place ep s nodes keyed) (room : Room nodes 1 i) (taken : s.p = i + 1) (here : s.bytes[i]? = some s.ch)
    (start : s.stringp = some (.at q)) (after : q ≤ i) (less : 3 * (ep + 3 - i) + 1 < left) :
    Good ep left (endNumber keyed type s) := by
  have below := (List.getElem?_eq_some_iff.mp here).1
  have inside : i ≤ ep := by have := sound.fits; omega
  simp only [endNumber,cut,taken,Nat.add_sub_cancel,below,if_true,start,Option.bind_eq_bind,Option.bind_some]
  refine good_goto nodes (sound.cut (p := i)) ⟨place.congr rfl rfl rfl rfl,room,?_,?_⟩ ?_
  · exact ⟨inside,sound.live here⟩
  · exact fun _ => ⟨q,rfl,i,after,inside,List.getElem?_set_self below,rfl⟩
  · simpa only [measure,Label.rank] using less

theorem nextDigit_good {keyed : Bool} (sound : Sound ep s.bytes s.pool nodes) (ready : Ready ep s nodes (.nextDigit keyed)) :
    Good ep (measure ep (.nextDigit keyed) s) (nextDigit keyed s) := by
  obtain ⟨place,room,inside,q,start,before⟩ := ready
  obtain ⟨b,here⟩ := sound.read inside
  simp only [nextDigit,take_eq here,Option.bind_eq_bind,Option.bind_some]
  have on : b ≠ 0 → ∀ label : Label, label = .nextDigit keyed ∨ label = .decimalNumber keyed →
      Good ep (measure ep (.nextDigit keyed) s) (some (.goto label { s with ch := b, p := s.p + 1 })) := by
    intro byte label which
    have more := sound.live here byte
    refine good_goto nodes sound ?_ ?_
    · obtain rfl | rfl := which
      · exact ⟨place.congr rfl rfl rfl rfl,room.mono (by simp),more,q,start,by dsimp only; omega⟩
      · exact ⟨place.congr rfl rfl rfl rfl,room.mono (by simp),more,q,start,by dsimp only; omega⟩
    · obtain rfl | rfl := which <;> (simp only [measure,Label.rank]; omega)
  split
  case isTrue digit =>
    refine on ?_ _ (.inl rfl)
    rintro rfl
    exact absurd digit (by decide)
  split
  · refine endNumber_good (s := { s with ch := b, p := s.p + 1 }) (i := s.p) sound (place.congr rfl rfl rfl rfl) room rfl here
      start (by omega) ?_
    simp only [measure,Label.rank]
    omega
  case isFalse isPoint =>
    have isPoint : b = point := by simpa using isPoint
    exact on (isPoint ▸ by decide) _ (.inr rfl)

theorem decimal_good {keyed : Bool} {label : Label} {b : UInt8} (which : label = .decimalNumber keyed ∨ label = .decimalDigits keyed)
    (sound : Sound ep s.bytes s.pool nodes) (ready : Ready ep s nodes label) (here : s.bytes[s.p]? = some b)
    (digit : isDigit b = true) :
    Good ep (measure ep label s) (some (.goto (.decimalDigits keyed) { s with ch := b, p := s.p + 1 })) := by
  have byte : b ≠ 0 := by
    rintro rfl
    exact absurd digit (by decide)
  have more := sound.live here byte
  obtain rfl | rfl := which <;> obtain ⟨place,room,inside,q,start,before⟩ := ready
  · refine good_goto nodes sound
      ⟨place.congr rfl rfl rfl rfl,room.mono (by simp),more,q,start,by dsimp only; omega⟩ ?_
    simp only [measure,Label.rank]
    omega
  · refine good_goto nodes sound
      ⟨place.congr rfl rfl rfl rfl,room.mono (by simp),more,q,start,by dsimp only; omega⟩ ?_
    simp only [measure,Label.rank]
    omega

theorem decimalNumber_good {keyed : Bool} (sound : Sound ep s.bytes s.pool nodes)
    (ready : Ready ep s nodes (.decimalNumber keyed)) :
    Good ep (measure ep (.decimalNumber keyed) s) (decimalNumber keyed s) := by
  obtain ⟨b,here⟩ := sound.read ready.2.2.1
  simp only [decimalNumber,take_eq here,Option.bind_eq_bind,Option.bind_some]
  split
  case isTrue digit => exact decimal_good (.inl rfl) sound ready here digit
  · exact good_bad ..

theorem decimalDigits_good {keyed : Bool} (sound : Sound ep s.bytes s.pool nodes)
    (ready : Ready ep s nodes (.decimalDigits keyed)) :
    Good ep (measure ep (.decimalDigits keyed) s) (decimalDigits keyed s) := by
  obtain ⟨b,here⟩ := sound.read ready.2.2.1
  simp only [decimalDigits,take_eq here,Option.bind_eq_bind,Option.bind_some]
  split
  case isTrue digit => exact decimal_good (.inr rfl) sound ready here digit
  · obtain ⟨place,room,inside,q,start,before⟩ := ready
    refine endNumber_good (s := { s with ch := b, p := s.p + 1 }) (i := s.p) sound (place.congr rfl rfl rfl rfl) room rfl here
      start (by omega) ?_
    simp only [measure,Label.rank]
    omega

/-! ### New values in containers -/

theorem InObject.adopt {t : State} {key : Option Nat} {child : Node} (object : InObject s nodes) (root : t.root = s.root) :
    InObject t (adopt nodes a key child) := by
  obtain ⟨r,node,isRoot,found,type⟩ := object
  obtain ⟨new,there,-,same⟩ := adopt_parent a key child found
  exact ⟨r,new,root.trans isRoot,there,same.trans type⟩

theorem InArray.adopt {t : State} {key : Option Nat} {child : Node} (array : InArray s nodes) (arr : t.arr = s.arr) :
    InArray t (adopt nodes a key child) := by
  obtain ⟨r,node,isArr,found,type⟩ := array
  obtain ⟨new,there,-,same⟩ := adopt_parent a key child found
  exact ⟨r,new,arr.trans isArr,there,same.trans type⟩

theorem HasRes.adopt {t : State} {key : Option Nat} {child : Node} (has : HasRes s nodes) (res : t.res = s.res) :
    HasRes t (adopt nodes a key child) := by
  obtain ⟨r,node,isRes,found,isRoot⟩ := has
  obtain ⟨new,there,same,-⟩ := adopt_parent a key child found
  exact ⟨r,new,res.trans isRes,there,same.trans isRoot⟩

theorem Sound.first (sound : Sound ep bytes pool []) (json : Json) (fresh : json.fresh) (isRoot : json.parent = none)
    (text : TextOk ep bytes json.type json.value json.length) :
    Sound ep bytes { pool with values := pool.values ++ [json] } [json.node] := by
  have bare : pool.values = [] := List.length_eq_zero_iff.mp sound.holds.size
  refine ⟨sound.fits,sound.nul,?_,?_,?_,?_⟩
  · rw [bare]
    exact holds_one pool.entries fresh
  · rintro (_ | b) node r found up
    · cases found
      rw [Json.node,isRoot] at up
      cases up
    · cases found
  · rintro (_ | b) node found
    · cases found
      exact text
    · cases found
  · rintro (_ | b) node found isObject entry inside
    · cases found
      cases inside
    · cases found

/-- A value added to the object at hand, under its key. -/
theorem append_sound (json : Json) (sound : Sound ep s.bytes s.pool nodes) (place : Place ep s nodes true)
    (room : Room nodes 1 s.p) (fresh : json.fresh) (text : TextOk ep s.bytes json.type json.value json.length) :
    ∃ r pool', acJsonoAppend { s.pool with values := s.pool.values ++ [json] } s.root s.key s.pool.values.length = some pool' ∧
      Sound ep s.bytes pool' (adopt nodes r s.key json.node) ∧ Room (adopt nodes r s.key json.node) 0 s.p ∧ r < nodes.length := by
  obtain ⟨⟨r,node,isRoot,found,type⟩,-,k,isKey,below⟩ := place
  obtain ⟨pool',appended,holds⟩ := sound.holds.append found fresh s.key
  rw [isRoot]
  refine ⟨r,pool',appended,?_,room.adopt found rfl,(List.getElem?_eq_some_iff.mp found).1⟩
  exact sound.adopt holds found (.inl type) rfl text fun _ => ⟨k,isKey,below⟩

/-- A value added to the array at hand. -/
theorem push_sound (json : Json) (sound : Sound ep s.bytes s.pool nodes) (array : InArray s nodes)
    (room : Room nodes 1 s.p) (fresh : json.fresh) (text : TextOk ep s.bytes json.type json.value json.length) :
    ∃ r pool', addValue s.pool s.arr json = some pool' ∧ Sound ep s.bytes pool' (adopt nodes r none json.node) ∧
      Room (adopt nodes r none json.node) 0 s.p ∧ r < nodes.length := by
  obtain ⟨r,node,isArr,found,type⟩ := array
  obtain ⟨pool',added,holds⟩ := sound.holds.addValue found fresh
  rw [isArr]
  refine ⟨r,pool',added,?_,room.adopt found rfl,(List.getElem?_eq_some_iff.mp found).1⟩
  exact sound.adopt holds found (.inr type) rfl text fun isObject => by rw [type] at isObject; cases isObject

theorem startKeyObject_good (sound : Sound ep s.bytes s.pool nodes) (ready : Ready ep s nodes .startKeyObject) :
    Good ep (measure ep .startKeyObject s) (startKeyObject ep s) := by
  obtain ⟨place,room,inside⟩ := ready
  unfold startKeyObject
  split
  · exact good_bad ..
  obtain ⟨b,here⟩ := sound.read (p := s.p) (by omega)
  rw [take_eq here,Option.bind_eq_bind,Option.bind_some]
  have more : Room nodes 1 (s.p + 1) := room.mono (by omega)
  have place' : Place ep { s with ch := b, p := s.p + 1 } nodes true := place
  have append : ∀ type : JsonType, ¬ type.isText → ∃ r pool',
      acJsonoAppend { s.pool with values := s.pool.values ++ [{ type := type }] } s.root s.key s.pool.values.length = some pool' ∧
        Sound ep s.bytes pool' (adopt nodes r s.key { type := type }) ∧ Room (adopt nodes r s.key { type := type }) 0 (s.p + 1) ∧
        (adopt nodes r s.key { type := type })[s.pool.values.length]? = some { type := type, parent := some r } := by
    intro type other
    obtain ⟨r,pool',appended,sound',room',-⟩ :=
      append_sound { type := type } (s := { s with ch := b, p := s.p + 1 }) sound place' more ⟨rfl,rfl,rfl⟩
        fun text => absurd text other
    exact ⟨r,pool',appended,sound',room',by rw [sound.holds.size,adopt_new]⟩
  dsimp only
  split
  · refine good_goto nodes sound ⟨place',more.mono (by simp),by dsimp only; omega⟩ ?_
    simp only [measure,Label.rank]
    omega
  split
  · obtain ⟨r,pool',appended,sound',room',new⟩ := append .object (by simp [JsonType.isText])
    simp only [appended]
    refine good_goto _ sound' ⟨⟨_,_,rfl,new,rfl⟩,place.2.1.adopt rfl,room',by dsimp only; omega⟩ ?_
    simp only [measure,Label.rank]
    omega
  split
  · obtain ⟨r,pool',appended,sound',room',new⟩ := append .array (by simp [JsonType.isText])
    simp only [appended]
    refine good_goto _ sound' ⟨.inl ⟨⟨_,_,rfl,new,rfl⟩,place.2.1.adopt rfl⟩,room',by dsimp only; omega,nofun⟩ ?_
    simp only [measure,Label.rank]
    omega
  · refine scalar_good (q := s.p) sound place' more rfl here (by dsimp only; omega) ?_
    simp only [measure,Label.rank]
    omega

/-- In front of the first value whitespace does not matter, and anything else is looked at. -/
theorem closesFirst_cons (b : UInt8) (text : List UInt8) :
    closesFirst (b :: text) = if isSpace b then closesFirst text else b == closeBracket := by
  by_cases space : isSpace b <;> simp [closesFirst,space]

theorem drop_cons {b : UInt8} (here : bytes[p]? = some b) : bytes.drop p = b :: bytes.drop (p + 1) := by
  obtain ⟨below,rfl⟩ := List.getElem?_eq_some_iff.mp here
  exact List.drop_eq_getElem_cons below

/-- A container opened where a value may begin. -/
theorem open_sound (type : JsonType) (sound : Sound ep s.bytes s.pool nodes) (place : Place ep s nodes false)
    (room : Room nodes 1 s.p) (other : ¬ type.isText) {t : State} (arr : t.arr = s.arr)
    (res : t.res = if s.arr = none then some s.pool.values.length else s.res) :
    ∃ pool' nodes' node, addValue s.pool s.arr { type := type } = some pool' ∧ Sound ep s.bytes pool' nodes' ∧ Room nodes' 0 s.p ∧
      nodes'[s.pool.values.length]? = some node ∧ node.type = type ∧ HasRes t nodes' := by
  obtain ⟨array,has⟩ | ⟨none,rfl⟩ := place
  · obtain ⟨r,pool',added,sound',room',-⟩ :=
      push_sound { type := type } sound array room ⟨rfl,rfl,rfl⟩ fun text => absurd text other
    obtain ⟨_,_,isArr,-⟩ := array
    rw [isArr,if_neg nofun] at res
    exact ⟨pool',_,_,added,sound',room',by rw [sound.holds.size,adopt_new],rfl,has.adopt res⟩
  · rw [if_pos none] at res
    have bare : s.pool.values.length = 0 := sound.holds.size
    refine ⟨_,[{ type := type }],{ type := type },by simp only [addValue,none]; rfl,?_,?_,by rw [bare]; rfl,rfl,?_⟩
    · exact sound.first { type := type } ⟨rfl,rfl,rfl⟩ rfl fun text => absurd text other
    · rintro (_ | i) node found
      · cases found
        simp
      · cases found
    · exact ⟨0,{ type := type },by rw [res,bare],rfl,rfl⟩

theorem startValue_good (sound : Sound ep s.bytes s.pool nodes) (ready : Ready ep s nodes .startValue) :
    Good ep (measure ep .startValue s) (startValue ep s) := by
  obtain ⟨place,room,inside,first⟩ := ready
  unfold startValue
  split
  · exact good_bad ..
  obtain ⟨b,here⟩ := sound.read inside
  rw [take_eq here,Option.bind_eq_bind,Option.bind_some]
  rw [drop_cons here,closesFirst_cons] at first
  have more : Room nodes 1 (s.p + 1) := room.mono (by omega)
  have place' : Place ep { s with ch := b, p := s.p + 1 } nodes false := place
  dsimp only
  split
  case isTrue space =>
    refine good_goto nodes sound ⟨place',more.mono (by simp),by dsimp only; omega,?_⟩ ?_
    · intro none
      have := first none
      rwa [if_pos space] at this
    · simp only [measure,Label.rank]
      omega
  case isFalse solid =>
    split
    · obtain ⟨pool',nodes',node,added,sound',room',new,type,has⟩ :=
        open_sound .object (s := { s with ch := b, p := s.p + 1 }) sound place' more (by simp [JsonType.isText])
          (t := { s with res := if s.arr = none then some s.pool.values.length else s.res }) rfl rfl
      dsimp only at added
      simp only [added]
      refine good_goto nodes' sound' ⟨⟨_,node,rfl,new,type⟩,has,room',by dsimp only; omega⟩ ?_
      simp only [measure,Label.rank]
      omega
    split
    · obtain ⟨pool',nodes',node,added,sound',room',new,type,has⟩ :=
        open_sound .array (s := { s with ch := b, p := s.p + 1 }) sound place' more (by simp [JsonType.isText])
          (t := { s with res := if s.arr = none then some s.pool.values.length else s.res }) rfl rfl
      dsimp only at added
      simp only [added]
      refine good_goto nodes' sound' ⟨.inl ⟨⟨_,node,rfl,new,type⟩,has⟩,room',by dsimp only; omega,nofun⟩ ?_
      simp only [measure,Label.rank]
      omega
    split
    case isTrue closing =>
      obtain ⟨⟨r,node,isArr,found,-⟩,has⟩ | ⟨none,-⟩ := place
      · refine close_good (s := { s with ch := b, p := s.p + 1 }) isArr sound has (more.mono (by simp)) found (by dsimp only; omega) ?_
        simp only [measure,Label.rank]
        omega
      · have := first none
        rw [if_neg solid] at this
        simp [show b = closeBracket from closing] at this
    · refine scalar_good (q := s.p) sound place' more rfl here (by dsimp only; omega) ?_
      simp only [measure,Label.rank]
      omega

theorem addString_good {keyed : Bool} (sound : Sound ep s.bytes s.pool nodes) (ready : Ready ep s nodes (.addString keyed)) :
    Good ep (measure ep (.addString keyed) s) (addString keyed s) := by
  obtain ⟨place,room,pending,text⟩ := ready
  have fresh : Json.fresh { type := s.dataType, value := s.stringp, length := s.stringLength } := ⟨rfl,rfl,rfl⟩
  cases keyed with
  | true =>
    obtain ⟨r,pool',appended,sound',room',-⟩ := append_sound _ sound place room fresh text
    simp only [addString,if_true,appended,Option.bind_eq_bind,Option.bind_some]
    refine good_goto _ sound' ⟨place.1.adopt rfl,place.2.1.adopt rfl,room',pending⟩ ?_
    simp only [measure,Label.rank]
    omega
  | false =>
    obtain ⟨array,has⟩ | ⟨none,rfl⟩ := place
    · obtain ⟨r,pool',added,sound',room',-⟩ := push_sound _ sound array room fresh text
      obtain ⟨_,_,isArr,-⟩ := id array
      have there : ¬ s.arr = none := by rw [isArr]; nofun
      simp only [addString,if_neg Bool.false_ne_true,added,Option.bind_eq_bind,Option.bind_some,if_neg there]
      refine good_goto _ sound' ⟨array.adopt rfl,has.adopt rfl,room',pending⟩ ?_
      simp only [measure,Label.rank]
      omega
    · have bare : s.pool.values.length = 0 := sound.holds.size
      have sound' := sound.first _ fresh rfl text
      simp only [addString,if_neg Bool.false_ne_true,none,addValue,Option.bind_eq_bind,Option.bind_some,if_true]
      refine ⟨_,rfl,_,rfl,sound'.wellFormed (p := 0) ?_ (Nat.zero_le _) (by rw [bare]; rfl) (by rfl)⟩
      rintro (_ | i) node found
      · cases found
        simp [Json.node]
      · cases found

theorem lookForKey_good (sound : Sound ep s.bytes s.pool nodes) (ready : Ready ep s nodes .lookForKey) :
    Good ep (measure ep .lookForKey s) (lookForKey ep s) := by
  obtain ⟨object,res,room,inside,live⟩ := ready
  have more : Room nodes 0 (s.p + 1) := room.mono (by omega)
  unfold lookForKey
  split
  · split
    · exact good_bad ..
    · refine good_goto nodes sound ⟨object,res,more,by dsimp only; omega⟩ ?_
      simp only [measure,Label.rank]
      omega
  split
  case isTrue brace =>
    have before := live (brace ▸ by decide)
    obtain ⟨r,node,isRoot,found,-⟩ := object
    refine close_good isRoot sound res room found before ?_
    simp only [measure,Label.rank]
    omega
  split
  case isTrue space =>
    have before := live fun zero => by rw [zero] at space; exact absurd space (by decide)
    obtain ⟨b,next⟩ := sound.read (p := s.p + 1) before
    simp only [look,next,Option.bind_eq_bind,Option.bind_some]
    refine good_goto nodes sound ⟨object,res,more,before,sound.live next⟩ ?_
    simp only [measure,Label.rank]
    omega
  · exact good_bad ..

theorem lookForNextObject_good (sound : Sound ep s.bytes s.pool nodes) (ready : Ready ep s nodes .lookForNextObject) :
    Good ep (measure ep .lookForNextObject s) (lookForNextObject ep s) := by
  obtain ⟨array,res,room,inside,live⟩ := ready
  have more : Room nodes 0 (s.p + 1) := room.mono (by omega)
  obtain ⟨r,node,isArr,found,type⟩ := id array
  unfold lookForNextObject
  split
  · split
    · exact good_bad ..
    · refine good_goto nodes sound ⟨.inl ⟨array,res⟩,more,by dsimp only; omega,?_⟩ ?_
      · rw [isArr]
        nofun
      · simp only [measure,Label.rank]
        omega
  split
  case isTrue bracket =>
    have before := live (bracket ▸ by decide)
    refine close_good isArr sound res room found before ?_
    simp only [measure,Label.rank]
    omega
  split
  case isTrue space =>
    have before := live fun zero => by rw [zero] at space; exact absurd space (by decide)
    obtain ⟨b,next⟩ := sound.read (p := s.p + 1) before
    simp only [look,next,Option.bind_eq_bind,Option.bind_some]
    refine good_goto nodes sound ⟨array,res,more,before,sound.live next⟩ ?_
    simp only [measure,Label.rank]
    omega
  · exact good_bad ..

/-! ### Whole runs -/

theorem step_good {label : Label} (sound : Sound ep s.bytes s.pool nodes) (ready : Ready ep s nodes label) :
    Good ep (measure ep label s) (step ep s label) := by
  cases label with
  | startKey => exact startKey_good sound ready
  | getEndOfKey => exact getEndOfKey_good sound ready
  | findColon => exact findColon_good sound ready
  | startKeyObject => exact startKeyObject_good sound ready
  | startValue => exact startValue_good sound ready
  | startString keyed => exact startString_good sound ready
  | addString keyed => exact addString_good sound ready
  | lookForKey => exact lookForKey_good sound ready
  | lookForNextObject => exact lookForNextObject_good sound ready
  | nextDigit keyed => exact nextDigit_good sound ready
  | decimalNumber keyed => exact decimalNumber_good sound ready
  | decimalDigits keyed => exact decimalDigits_good sound ready

theorem run_good {label : Label} (sound : Sound ep s.bytes s.pool nodes) (ready : Ready ep s nodes label) :
    ∃ fuel result, run ep fuel (.goto label s) = some result ∧ Returns ep result := by
  induction left : measure ep label s using Nat.strong_induction_on generalizing label s nodes with
  | _ left ih =>
    obtain ⟨r,stepped,good⟩ := step_good sound ready
    cases r with
    | goto next t =>
      obtain ⟨less,nodes',sound',ready'⟩ := good
      obtain ⟨fuel,result,ran,returns⟩ := ih _ (left ▸ less) sound' ready' rfl
      exact ⟨fuel + 1,result,by simpa [run,stepped] using ran,returns⟩
    | returned value t => exact ⟨1,.returned value t,by simp [run,stepped],good⟩
    | badCharacter errorAt => exact ⟨1,.badCharacter errorAt,by simp [run,stepped],trivial⟩

theorem closesFirst_nul (text : List UInt8) : closesFirst (text ++ [0]) = closesFirst text := by
  induction text with
  | nil => decide
  | cons b text ih => rw [List.cons_append,closesFirst_cons,closesFirst_cons,ih]

/-- The first label of a call. -/
theorem begin_ready {text : List UInt8} {label : Label} (first : begin text = .goto label s) (opens : closesFirst text = false) :
    ∃ nodes, Sound text.length s.bytes s.pool nodes ∧ Ready text.length s nodes label := by
  have nul : (text ++ [0])[text.length]? = some 0 := by simp
  cases text with
  | nil => cases first
  | cons b text =>
    unfold begin at first
    dsimp only at first
    split at first
    · cases first
      refine ⟨[],⟨by simp,nul,⟨rfl,nofun,nofun⟩,nofun,nofun,nofun⟩,.inr ⟨rfl,rfl⟩,nofun,Nat.zero_le _,?_⟩
      intro _
      rw [List.drop_zero,closesFirst_nul,opens]
    · cases first
      have fresh : Json.fresh { type := .object } := ⟨rfl,rfl,rfl⟩
      refine ⟨[{ type := .object }],⟨by simp,nul,holds_one [] fresh,?_,?_,?_⟩,?_⟩
      · rintro (_ | i) node r found up <;> cases found
        cases up
      · rintro (_ | i) node found text <;> cases found
        obtain text | text | text := text <;> cases text
      · rintro (_ | i) node found _ entry inside <;> cases found
        cases inside
      · refine ⟨⟨0,_,rfl,rfl,rfl⟩,⟨0,_,rfl,rfl,rfl⟩,?_,by simp⟩
        rintro (_ | i) node found <;> cases found
        simp

theorem opens_safe {text : List UInt8} (opens : closesFirst text = false) : Safe text := by
  cases first : begin text with
  | goto label s =>
    obtain ⟨nodes,sound,ready⟩ := begin_ready first opens
    obtain ⟨fuel,result,ran,returns⟩ := run_good sound ready
    exact ⟨fuel,result,by rw [acJsonParse,first,ran],returns⟩
  | returned value s =>
    unfold begin at first
    dsimp only at first
    split at first <;> (try split at first) <;> cases first
  | badCharacter errorAt => exact ⟨0,.badCharacter errorAt,by rw [acJsonParse,first]; rfl,trivial⟩

/-- Where the first thing is a closing bracket, the run meets NULL. -/
theorem closes_stuck (fuel : Nat) (arr : s.arr = none) (closing : closesFirst (s.bytes.drop s.p) = true)
    (nul : s.bytes[ep]? = some 0) (before : s.p ≤ ep) :
    run ep fuel (.goto .startValue s) = none ∨ ∃ t, run ep fuel (.goto .startValue s) = some (.goto .startValue t) := by
  induction fuel generalizing s with
  | zero => exact .inr ⟨s,rfl⟩
  | succ fuel ih =>
    obtain ⟨b,here⟩ : ∃ b, s.bytes[s.p]? = some b := by
      have := (List.getElem?_eq_some_iff.mp nul).1
      exact ⟨_,List.getElem?_eq_getElem (by omega)⟩
    rw [drop_cons here,closesFirst_cons] at closing
    have byte : b ≠ 0 := by
      rintro rfl
      rw [if_neg (by decide)] at closing
      exact absurd closing (by decide)
    have notEnd : s.p ≠ ep := by
      intro same
      rw [same,nul] at here
      exact byte (Option.some.inj here).symm
    have inside : ¬ s.p ≥ ep := by omega
    simp only [run,step,startValue,if_neg inside,take_eq here,Option.bind_eq_bind,Option.bind_some]
    by_cases space : isSpace b
    · rw [if_pos space] at closing
      simp only [if_pos space,Option.bind_some]
      exact ih (s := { s with ch := b, p := s.p + 1 }) arr closing nul (by dsimp only; omega)
    · rw [if_neg space] at closing
      obtain rfl : b = closeBracket := by simpa using closing
      refine .inl ?_
      rw [if_neg space,if_neg (by decide),if_neg (by decide),if_pos rfl]
      simp [close,arr]

/-- A call on such a text does not return. -/
theorem closes_runs {text : List UInt8} (closing : closesFirst text = true) (fuel : Nat) :
    acJsonParse fuel text = none ∨ ∃ t, acJsonParse fuel text = some (.goto .startValue t) := by
  have first : begin text = .goto .startValue { bytes := text ++ [0], p := 0 } := by
    cases text with
    | nil => cases closing
    | cons b text =>
      have other : b ≠ openBrace := by
        rintro rfl
        rw [closesFirst_cons,if_neg (by decide)] at closing
        exact absurd closing (by decide)
      rw [begin]
      exact if_pos other
  rw [acJsonParse,first]
  have nul : (text ++ [0])[text.length]? = some 0 := by simp
  exact closes_stuck (s := { bytes := text ++ [0], p := 0 }) fuel rfl
    (by rw [List.drop_zero,closesFirst_nul,closing]) nul (Nat.zero_le _)

theorem closes_unsafe {text : List UInt8} (closing : closesFirst text = true) : ¬ Safe text := by
  rintro ⟨fuel,result,ran,returns⟩
  have stuck := closes_runs closing fuel
  rw [ran] at stuck
  obtain none | ⟨t,goes⟩ := stuck
  · cases none
  · cases goes
    exact returns

/-- `ac_json_parse` is safe exactly where the text does not start, after whitespace,
    with a closing bracket: then every read and write is inside the buffer, no NULL
    is dereferenced, the call ends, and what it returns is an error or well formed. -/
theorem parse_safe (text : List UInt8) : Safe text ↔ closesFirst text = false := by
  refine ⟨fun safe => ?_,opens_safe⟩
  by_contra closing
  exact closes_unsafe (by simpa using closing) safe

/-- A closing bracket alone dereferences NULL. -/
theorem closing_unsafe : ¬ Safe [closeBracket] := closes_unsafe (by decide)

end AnotherC.AcJson
