import AnotherC.Json.Parse
import Mathlib.Data.List.TakeWhile

/-!
# `ac_json_dump_to_buffer`

Trees, the bytes that are written for them, and what the parser can make of these:
`AC_JSON_NULL` is below `AC_JSON_STRING`, so that nothing is written for a null.
-/
namespace AnotherC.AcJson
open AnotherC.Lib

/-! A value, and the lists that hang at the heads of objects and arrays. -/

mutual
inductive Tree where
  | leaf (type : JsonType) (value : List UInt8)
  | object (members : Members)
  | array (items : Items)

inductive Members where
  | nil
  | cons (key : List UInt8) (value : Tree) (next : Members)

inductive Items where
  | nil
  | cons (value : Tree) (next : Items)
end

/-- The comma in front of what follows. -/
def Members.comma : Members → List UInt8
  | nil => []
  | cons .. => [AcJson.comma]

def Items.comma : Items → List UInt8
  | nil => []
  | cons .. => [AcJson.comma]

mutual
/-- `ac_json_dump_to_buffer`. -/
def dump : Tree → List UInt8
  | .leaf type value =>
    if type.code ≥ JsonType.string.code then
      if type = .string then [quote] ++ value ++ [quote] else value
    else if type = .binary then [110,98] ++ Bytes.bytes 4 value.length ++ value
    else []
  | .object members => [openBrace] ++ dumpObject members ++ [closeBrace]
  | .array items => [openBracket] ++ dumpArray items ++ [closeBracket]

/-- The loop of `ac_json_dump_object_to_buffer`; a key is written up to its NUL. -/
def dumpObject : Members → List UInt8
  | .nil => []
  | .cons key value next =>
    [quote] ++ key.takeWhile (· ≠ 0) ++ [quote,colon] ++ dump value ++ next.comma ++ dumpObject next

/-- The loop of `ac_json_dump_array_to_buffer`. -/
def dumpArray : Items → List UInt8
  | .nil => []
  | .cons value next => dump value ++ next.comma ++ dumpArray next
end

/-! ### What may be written -/

/-- The number of backslashes at the end. -/
def slashes (text : List UInt8) : Nat := (text.reverse.takeWhile (· == backslash)).length

/-- No NUL, every quote escaped, and the end does not escape the closing quote. -/
def EncodedText (text : List UInt8) : Prop :=
  0 ∉ text ∧ (∀ before after, text = before ++ quote :: after → slashes before % 2 = 1) ∧ slashes text % 2 = 0

def Sign (sign : List UInt8) : Prop := sign = [] ∨ sign = [minus]

/-- A natural number without a leading zero. -/
def Whole (digits : List UInt8) : Prop := ∃ d ds, digits = d :: ds ∧ isNatural d = true ∧ ∀ c ∈ ds, isDigit c = true

def EncodedNumber (text : List UInt8) : Prop := ∃ sign whole, text = sign ++ whole ∧ Sign sign ∧ Whole whole

def EncodedDecimal (text : List UInt8) : Prop :=
  ∃ sign whole d ds, text = sign ++ whole ++ point :: d :: ds ∧ Sign sign ∧ (whole = [48] ∨ Whole whole) ∧
    isDigit d = true ∧ ∀ c ∈ ds, isDigit c = true

/-- The bytes a value of a type may have. -/
def EncodedLeaf : JsonType → List UInt8 → Prop
  | .string, value => EncodedText value
  | .zero, value => value = [48]
  | .number, value => EncodedNumber value
  | .decimal, value => EncodedDecimal value
  | .true, value => value = trueWord
  | .false, value => value = falseWord
  | .null, value => value = nullWord
  | .binary, _ => True
  | _, _ => False

mutual
/-- Keys and values are in encoded form, and lengths have 32 bits. -/
def Encoded : Tree → Prop
  | .leaf type value => EncodedLeaf type value ∧ value.length < 2 ^ 32
  | .object members => EncodedMembers members
  | .array items => EncodedItems items

def EncodedMembers : Members → Prop
  | .nil => True
  | .cons key value next => EncodedText key ∧ Encoded value ∧ EncodedMembers next

def EncodedItems : Items → Prop
  | .nil => True
  | .cons value next => Encoded value ∧ EncodedItems next
end

def Tree.isContainer : Tree → Prop
  | .leaf .. => False
  | _ => True

mutual
/-- A null is somewhere in the tree. -/
def hasNull : Tree → Bool
  | .leaf type _ => type = .null
  | .object members => membersNull members
  | .array items => itemsNull items

def membersNull : Members → Bool
  | .nil => false
  | .cons _ value next => hasNull value || membersNull next

def itemsNull : Items → Bool
  | .nil => false
  | .cons value next => hasNull value || itemsNull next
end

/-! ### Tokens and whitespace -/

def leafTokens (type : JsonType) (value : List UInt8) : List (List UInt8) :=
  match type with
  | .string => [quote :: value ++ [quote]]
  | .binary => [[110,98] ++ Bytes.bytes 4 value.length ++ value]
  | .null => []
  | _ => [value]

/-- The comma in front of what follows, as a token. -/
def Members.commas : Members → List (List UInt8)
  | nil => []
  | cons .. => [[AcJson.comma]]

def Items.commas : Items → List (List UInt8)
  | nil => []
  | cons .. => [[AcJson.comma]]

mutual
/-- The tokens of the text that is written for a tree. -/
def tokens : Tree → List (List UInt8)
  | .leaf type value => leafTokens type value
  | .object members => [openBrace] :: memberTokens members ++ [[closeBrace]]
  | .array items => [openBracket] :: itemTokens items ++ [[closeBracket]]

def memberTokens : Members → List (List UInt8)
  | .nil => []
  | .cons key value next =>
    (quote :: key ++ [quote]) :: [colon] :: (tokens value ++ (next.commas ++ memberTokens next))

def itemTokens : Items → List (List UInt8)
  | .nil => []
  | .cons value next => tokens value ++ (next.commas ++ itemTokens next)
end

def Spaces (text : List UInt8) : Prop := ∀ c ∈ text, isSpace c = true

/-- The tokens in order, each behind some whitespace. -/
inductive Lead : List (List UInt8) → List UInt8 → Prop
  | nil : Lead [] []
  | cons {space token tokens text} : Spaces space → Lead tokens text → Lead (token :: tokens) (space ++ token ++ text)

/-- The tokens with whitespace around them. -/
def Spaced (tokens : List (List UInt8)) (text : List UInt8) : Prop :=
  ∃ lead space, text = lead ++ space ∧ Lead tokens lead ∧ Spaces space

theorem Lead.append (xs : List (List UInt8)) {ys : List (List UInt8)} {text : List UInt8} (lead : Lead (xs ++ ys) text) :
    ∃ first second, text = first ++ second ∧ Lead xs first ∧ Lead ys second := by
  induction xs generalizing text with
  | nil => exact ⟨[],text,rfl,.nil,lead⟩
  | cons x xs ih =>
    cases lead with
    | @cons space _ _ text spaces lead =>
      obtain ⟨first,second,rfl,isFirst,isSecond⟩ := ih lead
      exact ⟨space ++ x ++ first,second,by simp,.cons spaces isFirst,isSecond⟩

theorem Lead.one {token text : List UInt8} (lead : Lead [token] text) : ∃ space, text = space ++ token ∧ Spaces space := by
  cases lead with
  | cons spaces lead =>
    cases lead
    exact ⟨_,by simp,spaces⟩

theorem lead_flatten (xs : List (List UInt8)) : Lead xs xs.flatten := by
  induction xs with
  | nil => exact .nil
  | cons x xs ih =>
    have none : Spaces [] := nofun
    exact Lead.cons none ih

/-- A key without a NUL is written whole. -/
theorem EncodedText.key {key : List UInt8} (encoded : EncodedText key) : key.takeWhile (· ≠ 0) = key := by
  refine List.takeWhile_eq_self_iff.mpr fun c inside => ?_
  have differ : c ≠ 0 := fun zero => encoded.1 (zero ▸ inside)
  simpa using differ

theorem Members.commas_flatten (members : Members) : members.commas.flatten = members.comma := by cases members <;> rfl

theorem Items.commas_flatten (items : Items) : items.commas.flatten = items.comma := by cases items <;> rfl

mutual
/-- What is written are the tokens, with nothing between them. -/
theorem dump_tokens (t : Tree) (encoded : Encoded t) : dump t = (tokens t).flatten := by
  cases t with
  | leaf type value =>
    rw [dump,tokens]
    cases type <;> first | exact encoded.1.elim | simp [leafTokens,JsonType.code]
  | object members => simp [dump,tokens,dumpObject_tokens members encoded]
  | array items => simp [dump,tokens,dumpArray_tokens items encoded]

theorem dumpObject_tokens (members : Members) (encoded : EncodedMembers members) :
    dumpObject members = (memberTokens members).flatten := by
  cases members with
  | nil => rfl
  | cons key value next =>
    obtain ⟨name,inside,others⟩ := encoded
    rw [dumpObject,name.key]
    simp [memberTokens,dump_tokens value inside,dumpObject_tokens next others,next.commas_flatten]

theorem dumpArray_tokens (items : Items) (encoded : EncodedItems items) : dumpArray items = (itemTokens items).flatten := by
  cases items with
  | nil => rfl
  | cons value next =>
    obtain ⟨inside,others⟩ := encoded
    simp [dumpArray,itemTokens,dump_tokens value inside,dumpArray_tokens next others,next.commas_flatten]
end

end AnotherC.AcJson
