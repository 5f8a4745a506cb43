import AnotherC.Lib.Chain
import AnotherC.Lib.Bytes

/-!
# `ac_json_parse`

The parser walks over a buffer that it changes on the way: the end of a key, a
string or a number becomes a NUL, also where the byte there is still to be looked
at. Its labels are the constructors of `Label`. A byte outside the buffer and a
member of a NULL container are `none`.
-/
namespace AnotherC.AcJson
open AnotherC.Lib
open AnotherC.Lib.Chain (Link)

/-- The types of a node, with the numbers of `ac_json.h`. -/
inductive JsonType where
  | error | object | array | binary | null | string | false | zero | number | decimal | true
deriving Repr, DecidableEq

def JsonType.code : JsonType → Nat
  | error => 0 | object => 1 | array => 2 | binary => 3 | null => 4 | string => 5
  | false => 6 | zero => 7 | number => 8 | decimal => 9 | true => 10

/-- The types whose value is text that was cut out of the buffer. -/
def JsonType.isText (type : JsonType) : Prop := type = .string ∨ type = .number ∨ type = .decimal

instance (type : JsonType) : Decidable type.isText := inferInstanceAs (Decidable (_ ∨ _))

/-- A `char *`: into the buffer, or to a constant of the program. -/
inductive Text where
  | at (p : Nat)
  | constant (bytes : List UInt8)
deriving Repr, DecidableEq

/-- `ac_json_t`, `_ac_jsono_t` and `_ac_jsona_t`, which the code casts into one another. -/
structure Json where
  type : JsonType
  parent : Option Nat := none
  value : Option Text := none
  length : Nat := 0
  numEntries : Nat := 0
  head : Option Nat := none
  tail : Option Nat := none
deriving Repr, DecidableEq

/-- What `ac_jsono_t` and `ac_jsona_t` hold: a key, NULL in an array, and the value. -/
abbrev Entry := Option Nat × Nat

/-- What was allocated; an address is a place in its list. -/
structure Pool where
  values : List Json
  entries : List (Link Entry)
deriving Repr, DecidableEq

/-- A new entry becomes the tail of a container. -/
def link (pool : Pool) (container : Option Nat) (entry : Entry) : Option Pool := do
  let a ← container
  let o ← pool.values[a]?
  let on := pool.entries.length
  let o := { o with numEntries := (o.numEntries + 1) % 2 ^ 32 }
  match o.head with
  | none =>
    some ⟨pool.values.set a { o with head := some on, tail := some on },pool.entries ++ [⟨entry,none,none⟩]⟩
  | some _ => do
    let tail ← o.tail
    let last ← pool.entries[tail]?
    some ⟨pool.values.set a { o with tail := some on },
      pool.entries.set tail { last with next := some on } ++ [⟨entry,none,some tail⟩]⟩

/-- `ac_jsono_append` without a copy of the key. -/
def acJsonoAppend (pool : Pool) (j : Option Nat) (key : Option Nat) (item : Nat) : Option Pool := do
  let value ← pool.values[item]?
  link { pool with values := pool.values.set item { value with parent := j } } j ⟨key,item⟩

/-- A value allocated behind its entry, and put into `arr` unless that is NULL. -/
def addValue (pool : Pool) (arr : Option Nat) (value : Json) : Option Pool :=
  let pool' := { pool with values := pool.values ++ [{ value with parent := arr }] }
  match arr with
  | none => some pool'
  | some _ => link pool' arr ⟨none,pool.values.length⟩

/-! ### The variables and the labels -/

/-- The variables of `ac_json_parse`; `bytes` ends with the byte at `ep`. -/
structure State where
  bytes : List UInt8
  p : Nat
  ch : UInt8 := 0
  key : Option Nat := none
  stringp : Option Text := none
  dataType : JsonType := .error
  stringLength : Nat := 0
  arr : Option Nat := none
  res : Option Nat := none
  root : Option Nat := none
  pool : Pool := ⟨[],[]⟩
deriving Repr, DecidableEq

/-- The labels; where the code has a label with `keyed_` and one without, the
    first is the one with `true`. `findColon` and `decimalDigits` are loops that
    follow `get_end_of_key` and `decimal_number`. -/
inductive Label where
  | startKey | getEndOfKey | findColon | startKeyObject | startValue
  | startString (keyed : Bool) | addString (keyed : Bool)
  | lookForKey | lookForNextObject
  | nextDigit (keyed : Bool) | decimalNumber (keyed : Bool) | decimalDigits (keyed : Bool)
deriving Repr, DecidableEq

inductive Result where
  | goto (label : Label) (s : State)
  | returned (value : Option Nat) (s : State)
  | badCharacter (errorAt : Nat)
deriving Repr, DecidableEq

abbrev quote : UInt8 := 34
abbrev comma : UInt8 := 44
abbrev minus : UInt8 := 45
abbrev point : UInt8 := 46
abbrev colon : UInt8 := 58
abbrev backslash : UInt8 := 92
abbrev openBracket : UInt8 := 91
abbrev closeBracket : UInt8 := 93
abbrev openBrace : UInt8 := 123
abbrev closeBrace : UInt8 := 125

/-- `AC_JSON_SPACE_CASE`. -/
def isSpace (ch : UInt8) : Bool := ch == 32 || ch == 9 || ch == 13 || ch == 10

def isDigit (ch : UInt8) : Bool := 48 ≤ ch && ch ≤ 57

/-- `AC_JSON_NATURAL_NUMBER_CASE`. -/
def isNatural (ch : UInt8) : Bool := 49 ≤ ch && ch ≤ 57

/-- `ch = *p++`. -/
def take (s : State) : Option State := do
  let ch ← s.bytes[s.p]?
  some { s with ch := ch, p := s.p + 1 }

/-- `ch = *p`. -/
def look (s : State) : Option State := do
  let ch ← s.bytes[s.p]?
  some { s with ch := ch }

/-- `*p = 0`. -/
def cut (s : State) : Option State :=
  if s.p < s.bytes.length then some { s with bytes := s.bytes.set s.p 0 } else none

/-- The loop that goes back over backslashes, from `backtrack` down; a pointer in
    front of the buffer is read as well. -/
def backtrack (bytes : List UInt8) : Nat → Option Nat
  | 0 => do
    let b ← bytes[0]?
    if b = backslash then none else some 0
  | i + 1 => do
    let b ← bytes[i + 1]?
    if b = backslash then backtrack bytes i else some (i + 1)

/-- Whether the quote at `p` has an odd number of backslashes in front of it. -/
def escaped (s : State) : Option Bool :=
  match s.p with
  | 0 => none
  | p + 1 => do
    let b ← s.bytes[p]?
    if b = backslash then do
      let i ← backtrack s.bytes p
      some ((p + 1 - i) % 2 == 0)
    else some false

/-- The end of a container: its parent goes on, and `skip` is the closing byte
    where that was not taken yet. -/
def close (container : Option Nat) (skip : Nat) (s : State) : Option Result := do
  let a ← container
  let c ← s.pool.values[a]?
  match c.parent with
  | none => some (.returned s.res { s with root := none })
  | some root => do
    let s ← look { s with root := some root, p := s.p + skip }
    let r ← s.pool.values[root]?
    if r.type = .object then some (.goto .lookForKey s)
    else some (.goto .lookForNextObject { s with arr := some root })

/-! ### Values that are not containers -/

/-- A value whose text is a constant. -/
def constant (keyed : Bool) (text : List UInt8) (type : JsonType) (s : State) : Option Result :=
  some (.goto (.addString keyed)
    { s with stringp := some (.constant text), dataType := type, stringLength := text.length })

/-- After a leading zero; `ep` is the last place of the buffer. -/
def zero (keyed : Bool) (ep : Nat) (s : State) : Option Result := do
  let s ← look s
  if s.p + 1 < ep then
    if s.ch ≠ point then constant keyed [48] .zero s
    else some (.goto (.decimalNumber keyed) { s with p := s.p + 1 })
  else constant keyed [48] .zero s

/-- The rest of a word; each byte is taken before it is compared. -/
def word (done : State → Option Result) : List UInt8 → State → Option Result
  | [], s => do
    let s ← look s
    done s
  | b :: text, s => do
    let s ← take s
    if s.ch ≠ b then some (.badCharacter s.p) else word done text s

/-- `nb`, four bytes of length, and as many bytes. -/
def binary (keyed : Bool) (ep : Nat) (s : State) : Option Result :=
  if s.p + 3 ≥ ep then some (.badCharacter s.p)
  else do
    let b0 ← s.bytes[s.p]?
    let b1 ← s.bytes[s.p + 1]?
    let b2 ← s.bytes[s.p + 2]?
    let b3 ← s.bytes[s.p + 3]?
    let stringLength := Bytes.number [b0,b1,b2,b3]
    let s := { s with p := s.p + 4, stringLength := stringLength }
    if s.p + stringLength ≥ ep then some (.badCharacter s.p)
    else do
      let s ← look { s with dataType := .binary, stringp := some (.at s.p), p := s.p + stringLength }
      some (.goto (.addString keyed) s)

def trueWord : List UInt8 := [116,114,117,101]
def falseWord : List UInt8 := [102,97,108,115,101]
def nullWord : List UInt8 := [110,117,108,108]

/-- What `start_key_object` and `start_value` do alike with the byte they took.
    Only the first of them looks for room before `true` and `false`. -/
def scalar (keyed : Bool) (ep : Nat) (s : State) : Option Result :=
  if s.ch = quote then
    some (.goto (.startString keyed) { s with stringp := some (.at s.p), dataType := .string })
  else if s.ch = minus then do
    let s ← take { s with stringp := some (.at (s.p - 1)) }
    if isNatural s.ch then some (.goto (.nextDigit keyed) s)
    else if s.ch = 48 then zero keyed ep s
    else some (.badCharacter s.p)
  else if s.ch = 48 then zero keyed ep { s with stringp := some (.at (s.p - 1)) }
  else if isNatural s.ch then some (.goto (.nextDigit keyed) { s with stringp := some (.at (s.p - 1)) })
  else if s.ch = 116 then
    if keyed ∧ s.p + 3 ≥ ep then some (.badCharacter s.p)
    else word (constant keyed trueWord .true) [114,117,101] s
  else if s.ch = 102 then
    if keyed ∧ s.p + 4 ≥ ep then some (.badCharacter s.p)
    else word (constant keyed falseWord .false) [97,108,115,101] s
  else if s.ch = 110 then do
    let s ← take s
    if s.ch ≠ 117 then
      if s.ch = 98 then binary keyed ep s else some (.badCharacter s.p)
    else word (constant keyed nullWord .null) [108,108] s
  else some (.badCharacter s.p)

/-! ### The labels -/

def startKey (ep : Nat) (s : State) : Option Result :=
  if s.p ≥ ep then some (.badCharacter s.p)
  else do
    let s ← take s
    if s.ch = quote then some (.goto .getEndOfKey { s with key := some s.p })
    else if isSpace s.ch then some (.goto .startKey s)
    else if s.ch = closeBrace then close s.root 0 s
    else some (.badCharacter s.p)

def getEndOfKey (ep : Nat) (s : State) : Option Result :=
  if s.p < ep then do
    let b ← s.bytes[s.p]?
    if b ≠ quote then some (.goto .getEndOfKey { s with p := s.p + 1 })
    else do
      let skip ← escaped s
      if skip then some (.goto .getEndOfKey { s with p := s.p + 1 })
      else do
        let s ← cut s
        some (.goto .findColon { s with p := s.p + 1 })
  else some (.goto .findColon { s with p := s.p + 1 })

def findColon (ep : Nat) (s : State) : Option Result :=
  if s.p < ep then do
    let b ← s.bytes[s.p]?
    if b ≠ colon then some (.goto .findColon { s with p := s.p + 1 })
    else some (.goto .startKeyObject { s with p := s.p + 1 })
  else some (.goto .startKeyObject { s with p := s.p + 1 })

def startKeyObject (ep : Nat) (s : State) : Option Result :=
  if s.p ≥ ep then some (.badCharacter s.p)
  else do
    let s ← take s
    let obj := s.pool.values.length
    if isSpace s.ch then some (.goto .startKeyObject s)
    else if s.ch = openBrace then do
      let pool ← acJsonoAppend { s.pool with values := s.pool.values ++ [{ type := .object }] } s.root s.key obj
      some (.goto .startKey { s with pool := pool, root := some obj })
    else if s.ch = openBracket then do
      let pool ← acJsonoAppend { s.pool with values := s.pool.values ++ [{ type := .array }] } s.root s.key obj
      some (.goto .startValue { s with pool := pool, arr := some obj, root := some obj })
    else scalar true ep s

def startValue (ep : Nat) (s : State) : Option Result :=
  if s.p ≥ ep then some (.badCharacter s.p)
  else do
    let s ← take s
    let obj := s.pool.values.length
    let res := if s.arr = none then some obj else s.res
    if isSpace s.ch then some (.goto .startValue s)
    else if s.ch = openBrace then do
      let pool ← addValue s.pool s.arr { type := .object }
      some (.goto .startKey { s with pool := pool, res := res, root := some obj })
    else if s.ch = openBracket then do
      let pool ← addValue s.pool s.arr { type := .array }
      some (.goto .startValue { s with pool := pool, res := res, arr := some obj, root := some obj })
    else if s.ch = closeBracket then close s.arr 0 s
    else scalar false ep s

def startString (keyed : Bool) (ep : Nat) (s : State) : Option Result :=
  if s.p < ep then do
    let b ← s.bytes[s.p]?
    if b ≠ quote then some (.goto (.startString keyed) { s with p := s.p + 1 })
    else do
      let skip ← escaped s
      if skip then some (.goto (.startString keyed) { s with p := s.p + 1 })
      else do
        let start ← match s.stringp with
          | some (.at start) => some start
          | _ => none
        let s ← cut s
        let s ← look { s with stringLength := (s.p - start) % 2 ^ 32, p := s.p + 1 }
        some (.goto (.addString keyed) s)
  else some (.badCharacter s.p)

/-- `keyed_add_string`, and `add_string`, which returns the value itself where
    there is no array. -/
def addString (keyed : Bool) (s : State) : Option Result :=
  let item := s.pool.values.length
  let json : Json := { type := s.dataType, value := s.stringp, length := s.stringLength }
  if keyed then do
    let pool ← acJsonoAppend { s.pool with values := s.pool.values ++ [json] } s.root s.key item
    some (.goto .lookForKey { s with pool := pool })
  else do
    let pool ← addValue s.pool s.arr json
    if s.arr = none then some (.returned (some item) { s with pool := pool })
    else some (.goto .lookForNextObject { s with pool := pool })

def lookForKey (ep : Nat) (s : State) : Option Result :=
  if s.ch = comma then
    if s.p ≥ ep then some (.badCharacter s.p) else some (.goto .startKey { s with p := s.p + 1 })
  else if s.ch = closeBrace then close s.root 1 s
  else if isSpace s.ch then do
    let s ← look { s with p := s.p + 1 }
    some (.goto .lookForKey s)
  else some (.badCharacter s.p)

def lookForNextObject (ep : Nat) (s : State) : Option Result :=
  if s.ch = comma then
    if s.p ≥ ep then some (.badCharacter s.p) else some (.goto .startValue { s with p := s.p + 1 })
  else if s.ch = closeBracket then close s.arr 1 s
  else if isSpace s.ch then do
    let s ← look { s with p := s.p + 1 }
    some (.goto .lookForNextObject s)
  else some (.badCharacter s.p)

/-- The end of a number, behind the byte that ended it. -/
def endNumber (keyed : Bool) (type : JsonType) (s : State) : Option Result := do
  let s ← cut { s with p := s.p - 1 }
  let start ← match s.stringp with
    | some (.at start) => some start
    | _ => none
  some (.goto (.addString keyed) { s with dataType := type, stringLength := (s.p - start) % 2 ^ 32 })

def nextDigit (keyed : Bool) (s : State) : Option Result := do
  let s ← take s
  if isDigit s.ch then some (.goto (.nextDigit keyed) s)
  else if s.ch ≠ point then endNumber keyed .number s
  else some (.goto (.decimalNumber keyed) s)

def decimalNumber (keyed : Bool) (s : State) : Option Result := do
  let s ← take s
  if isDigit s.ch then some (.goto (.decimalDigits keyed) s) else some (.badCharacter s.p)

def decimalDigits (keyed : Bool) (s : State) : Option Result := do
  let s ← take s
  if isDigit s.ch then some (.goto (.decimalDigits keyed) s) else endNumber keyed .decimal s

/-- From one label to the next. -/
def step (ep : Nat) (s : State) : Label → Option Result
  | .startKey => startKey ep s
  | .getEndOfKey => getEndOfKey ep s
  | .findColon => findColon ep s
  | .startKeyObject => startKeyObject ep s
  | .startValue => startValue ep s
  | .startString keyed => startString keyed ep s
  | .addString keyed => addString keyed s
  | .lookForKey => lookForKey ep s
  | .lookForNextObject => lookForNextObject ep s
  | .nextDigit keyed => nextDigit keyed s
  | .decimalNumber keyed => decimalNumber keyed s
  | .decimalDigits keyed => decimalDigits keyed s

/-- `ac_json_parse` up to its first label: only a brace at the very start makes
    the root here. -/
def begin (text : List UInt8) : Result :=
  let s : State := { bytes := text ++ [0], p := 0 }
  match text with
  | [] => .badCharacter 1
  | b :: _ =>
    if b ≠ openBrace then .goto .startValue s
    else .goto .startKey { s with p := 1, pool := ⟨[{ type := .object }],[]⟩, res := some 0, root := some 0 }

/-- At most `fuel` labels further. -/
def run (ep : Nat) : Nat → Result → Option Result
  | 0, result => some result
  | fuel + 1, .goto label s => do
    let result ← step ep s label
    run ep fuel result
  | _ + 1, result => some result

/-- `ac_json_parse` over the bytes of a text and a NUL, for as many labels as the fuel gives. -/
def acJsonParse (fuel : Nat) (text : List UInt8) : Option Result := run text.length fuel (begin text)

end AnotherC.AcJson
