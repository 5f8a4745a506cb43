import AnotherC.Json.RoundTrip
import AnotherC.Lib.Text
import Mathlib.Data.List.Perm.Subperm

/-!
# Strings in a document: `ac_json_encode`, `ac_json_decode` and what lies between

The encoder puts a backslash in front of some bytes, the parser looks for the
closing quote by counting backslashes backwards, and the decoder takes the
backslashes out again (`encode_round_trip`). A node keeps its length in 32 bits,
so that a string whose encoded form has 2^32 bytes does not come back
(`long_string_lost`).
-/
namespace AnotherC.AcJson
open AnotherC.Lib
open AnotherC.Lib.Chain (Link Linked)
open AnotherC.Lib.Text (strcmp strcmp_zero stringAt)

/-! ## Encoding -/

/-- The `switch` of `_ac_json_encode`. -/
def escape (c : UInt8) : List UInt8 :=
  if c = 34 then [92,34]
  else if c = 92 then [92,92]
  else if c = 47 then [92,47]
  else if c = 8 then [92,98]
  else if c = 12 then [92,102]
  else if c = 10 then [92,110]
  else if c = 13 then [92,114]
  else if c = 9 then [92,116]
  else [c]

/-- The bytes that end the first loop of `ac_json_encode`. -/
def stops (c : UInt8) : Bool := c ∈ [0,34,92,47,8,12,10,13,9]

/-- `_ac_json_encode` from the first byte that stops. -/
def acJsonEncode (s : List UInt8) : List UInt8 :=
  let plain := s.takeWhile fun c => !stops c
  let rest := s.dropWhile fun c => !stops c
  if rest = [] then s else plain ++ rest.flatMap escape

/-- `ac_json_encode_string`: the node says how many of the bytes at its value are
    its own. -/
def acJsonEncodeString (s : List UInt8) : Tree :=
  let v := acJsonEncode s
  .leaf .string (v.take (v.length % 2 ^ 32))

/-! ## Decoding

A function that reads past the bytes it is given answers `none`. -/

def hexDigit (c : UInt8) : Option Nat :=
  if 48 ≤ c ∧ c ≤ 57 then some (c.toNat - 48)
  else if 65 ≤ c ∧ c ≤ 70 then some (c.toNat - 55)
  else if 97 ≤ c ∧ c ≤ 102 then some (c.toNat - 87)
  else none

/-- Some digits and what follows, or -1. -/
def hexDigits : Nat → Nat → List UInt8 → Option (Option (Nat × List UInt8))
  | 0, ch, s => some (some (ch,s))
  | _ + 1, _, [] => none
  | n + 1, ch, c :: s =>
    match hexDigit c with
    | some d => hexDigits n (ch * 16 + d) s
    | none => some none

/-- The bytes at `dest`. -/
def utf8 (ch : Nat) : List UInt8 :=
  if ch < 0x80 then [UInt8.ofNat ch]
  else if ch < 0x800 then [UInt8.ofNat (ch / 64 + 0xC0),UInt8.ofNat (ch % 64 + 0x80)]
  else if ch < 0x10000 then
    [UInt8.ofNat (ch / 4096 + 0xE0),UInt8.ofNat (ch / 64 % 64 + 0x80),UInt8.ofNat (ch % 64 + 0x80)]
  else if ch < 0x110000 then
    [UInt8.ofNat (ch / 262144 + 0xF0),UInt8.ofNat (ch / 4096 % 64 + 0x80),UInt8.ofNat (ch / 64 % 64 + 0x80),
      UInt8.ofNat (ch % 64 + 0x80)]
  else []

/-- The bytes and what follows the digits, or -1. -/
def unicodeToUtf8 (s : List UInt8) : Option (Option (List UInt8 × List UInt8)) := do
  match ← hexDigits 4 0 s with
  | none => some none
  | some (ch,s) =>
    if 0xD800 ≤ ch ∧ ch ≤ 0xDBFF then
      match s with
      | [] => none
      | c :: s =>
        if c ≠ backslash then some none
        else
          match s with
          | [] => none
          | u :: s =>
            if u ≠ 117 then some none
            else
              match ← hexDigits 4 0 s with
              | none => some none
              | some (ch2,s) =>
                if ch2 < 0xDC00 ∨ ch2 > 0xDFFF then some none
                else some (some (utf8 ((ch - 0xD800) * 1024 + (ch2 - 0xDC00) + 0x10000),s))
    else some (some (utf8 ch,s))

/-- The `switch` of `_ac_json_decode` without `u`; another byte is left out with
    its backslash. -/
def unescape (c : UInt8) : List UInt8 :=
  if c = 34 then [34]
  else if c = 92 then [92]
  else if c = 47 then [47]
  else if c = 98 then [8]
  else if c = 102 then [12]
  else if c = 110 then [10]
  else if c = 114 then [13]
  else if c = 116 then [9]
  else []

/-- The loop of `_ac_json_decode`: what is at `p`, and the number of bytes up to
    `ep`. -/
def decodeLoop (s : List UInt8) (n : Nat) : Option (List UInt8) :=
  match n with
  | 0 => some []
  | n + 1 =>
    match s with
    | [] => none
    | ch :: rest =>
      if ch ≠ backslash then (decodeLoop rest n).map (ch :: ·)
      else
        match rest with
        | [] => none
        | e :: rest =>
          if e ≠ 117 then (decodeLoop rest (n - 1)).map (unescape e ++ ·)
          else
            match unicodeToUtf8 rest with
            | none => none
            | some none => if s.length < 6 then none else (decodeLoop (s.drop 6) (n - 5)).map (s.take 6 ++ ·)
            | some (some (bytes,after)) =>
              (decodeLoop after (n - 1 - (rest.length - after.length))).map (bytes ++ ·)
termination_by n

/-- The loop of `ac_json_decode`: the bytes before the first backslash. -/
def plainFront : List UInt8 → Nat → Option (List UInt8)
  | _, 0 => some []
  | [], _ + 1 => none
  | c :: s, n + 1 => if c = backslash then some [] else (plainFront s n).map (c :: ·)

/-- The bytes at the result, as many as `rlen` says. -/
def acJsonDecode2 (s : List UInt8) (length : Nat) : Option (List UInt8) := do
  let plain ← plainFront s length
  if plain.length = length then some plain
  else (decodeLoop (s.drop plain.length) (length - plain.length)).map (plain ++ ·)

/-- The result as a C string; without a backslash it is `s` itself. -/
def acJsonDecode (s : List UInt8) (length : Nat) : Option (List UInt8) := do
  let plain ← plainFront s length
  if plain.length = length then some (s.takeWhile (· ≠ 0))
  else (decodeLoop (s.drop plain.length) (length - plain.length)).map fun more => (plain ++ more).takeWhile (· ≠ 0)

/-! ## Reading a document -/

/-- `ac_jsond`: the string, or NULL. -/
def acJsond (bytes : List UInt8) (pool : Pool) (j : Nat) : Option (Option (List UInt8)) := do
  let json ← pool.values[j]?
  if json.type = .string then
    match json.value with
    | some (.at q) => (acJsonDecode (bytes.drop q) json.length).map some
    | some (.constant text) => (acJsonDecode (text ++ [0]) json.length).map some
    | none => none
  else if json.type.code > JsonType.string.code then
    match json.value with
    | some (.at q) => some (some (stringAt bytes q))
    | some (.constant text) => some (some text)
    | none => some none
  else some none

/-- The loop of `ac_jsono_scan`, for as many entries as the fuel gives. -/
def scanFrom (bytes : List UInt8) (pool : Pool) (key : List UInt8) : Nat → Option Nat → Option (Option Nat)
  | _, none => some none
  | 0, some _ => none
  | fuel + 1, some r => do
    let link ← pool.entries[r]?
    let q ← link.item.1
    if strcmp (stringAt bytes q) key = 0 then some (some link.item.2) else scanFrom bytes pool key fuel link.next

def acJsonoScan (bytes : List UInt8) (pool : Pool) (j : Nat) (key : List UInt8) : Option (Option Nat) := do
  let o ← pool.values[j]?
  if o.type ≠ .object then some none else scanFrom bytes pool key pool.entries.length o.head

/-! ## What the encoder writes -/

theorem escape_plain {c : UInt8} (plain : stops c = false) : escape c = [c] := by
  simp only [stops,List.mem_cons,List.not_mem_nil,or_false,decide_eq_false_iff_not,not_or] at plain
  simp [escape,plain]

/-- Both scans together: every byte is escaped. -/
theorem acJsonEncode_eq (s : List UInt8) : acJsonEncode s = s.flatMap escape := by
  have front : (s.takeWhile fun c => !stops c).flatMap escape = s.takeWhile fun c => !stops c := by
    have plain (c : UInt8) (inside : c ∈ s.takeWhile fun c => !stops c) : escape c = [c] := by
      have := List.all_eq_true.mp List.all_takeWhile c inside
      exact escape_plain (by simpa using this)
    rw [List.flatMap_congr plain]
    simp
  have whole := congrArg (List.flatMap escape) (List.takeWhile_append_dropWhile (p := fun c => !stops c) (l := s))
  rw [List.flatMap_append,front] at whole
  rw [acJsonEncode]
  split
  case isTrue none_ =>
    rw [none_,List.flatMap_nil,List.append_nil] at whole
    have all_ := List.takeWhile_append_dropWhile (p := fun c => !stops c) (l := s)
    rw [none_,List.append_nil,whole] at all_
    exact all_.symm
  case isFalse => exact whole

/-- A byte is written as it is, or behind a backslash as a byte that the decoder
    knows. -/
theorem escape_cases (c : UInt8) :
    (escape c = [c] ∧ c ≠ backslash ∧ c ≠ quote) ∨
      ∃ e, escape c = [backslash,e] ∧ e ≠ 117 ∧ e ≠ 0 ∧ unescape e = [c] ∧ (e = quote ↔ c = quote) := by
  by_cases stop : stops c = true
  · by_cases zero : c = 0
    · subst zero
      exact .inl (by decide)
    · simp only [stops,List.mem_cons,List.not_mem_nil,or_false,decide_eq_true_eq,zero,false_or] at stop
      right
      rcases stop with rfl | rfl | rfl | rfl | rfl | rfl | rfl | rfl
      · exact ⟨34,by decide⟩
      · exact ⟨92,by decide⟩
      · exact ⟨47,by decide⟩
      · exact ⟨98,by decide⟩
      · exact ⟨102,by decide⟩
      · exact ⟨110,by decide⟩
      · exact ⟨114,by decide⟩
      · exact ⟨116,by decide⟩
  · have plain : stops c = false := by simpa using stop
    refine .inl ⟨escape_plain plain,?_,?_⟩
    · rintro rfl
      exact stop (by decide)
    · rintro rfl
      exact stop (by decide)

theorem encode_free {s : List UInt8} (free : 0 ∉ s) : 0 ∉ s.flatMap escape := by
  intro inside
  obtain ⟨c,member,written⟩ := List.mem_flatMap.mp inside
  have nonzero : c ≠ 0 := fun zero => free (zero ▸ member)
  rcases escape_cases c with ⟨same,-⟩ | ⟨e,same,-,notZero,-⟩
  · rw [same,List.mem_singleton] at written
    exact nonzero written.symm
  · rw [same,List.mem_cons,List.mem_singleton] at written
    rcases written with slash | here
    · cases slash
    · exact notZero here.symm

theorem encode_slashes (s : List UInt8) : slashes (s.flatMap escape) % 2 = 0 := by
  induction s using List.reverseRecOn with
  | nil => rfl
  | append_singleton s c ih =>
    rw [List.flatMap_append,List.flatMap_singleton]
    rcases escape_cases c with ⟨same,other,-⟩ | ⟨e,same,-⟩
    · rw [same,slashes_snoc,if_neg other]
    · have split : s.flatMap escape ++ [backslash,e] = s.flatMap escape ++ [backslash] ++ [e] := by simp
      rw [same,split,slashes_snoc,slashes_snoc,if_pos rfl]
      split <;> omega

theorem encode_quotes (s : List UInt8) {before after : List UInt8} (here : s.flatMap escape = before ++ quote :: after) :
    slashes before % 2 = 1 := by
  induction s using List.reverseRecOn generalizing after with
  | nil => simp at here
  | append_singleton s c ih =>
    rw [List.flatMap_append,List.flatMap_singleton] at here
    rcases List.append_eq_append_iff.mp here with ⟨more,isBefore,isEscape⟩ | ⟨more,isFront,isRest⟩
    · -- the quote is one that this byte wrote
      rcases escape_cases c with ⟨same,-,notQuote⟩ | ⟨e,same,-,-,-,quotes⟩
      · rw [same] at isEscape
        cases more with
        | nil =>
          rw [List.nil_append,List.cons.injEq] at isEscape
          exact absurd isEscape.1 notQuote
        | cons d more => simp at isEscape
      · rw [same] at isEscape
        cases more with
        | nil =>
          rw [List.nil_append,List.cons.injEq] at isEscape
          exact absurd isEscape.1 (by decide)
        | cons d more =>
          rw [List.cons_append,List.cons.injEq] at isEscape
          cases more with
          | nil =>
            have even := encode_slashes s
            rw [isBefore,← isEscape.1,slashes_snoc,if_pos rfl]
            omega
          | cons d' more => simp at isEscape
    · cases more with
      | nil =>
        rw [List.nil_append] at isRest
        rcases escape_cases c with ⟨same,-,notQuote⟩ | ⟨e,same,-⟩
        · rw [same,List.cons.injEq] at isRest
          exact absurd isRest.1.symm notQuote
        · rw [same,List.cons.injEq] at isRest
          exact absurd isRest.1 (by decide)
      | cons d more =>
        rw [List.cons_append,List.cons.injEq] at isRest
        exact ih (by rw [isFront,isRest.1])

/-- What the encoder writes may stand between quotes. -/
theorem encode_encoded {s : List UInt8} (free : 0 ∉ s) : EncodedText (acJsonEncode s) := by
  rw [acJsonEncode_eq]
  exact ⟨encode_free free,fun before after here => encode_quotes s here,encode_slashes s⟩

/-! ## The decoder takes it back -/

theorem decodeLoop_plain {ch : UInt8} (other : ch ≠ backslash) (rest : List UInt8) (n : Nat) :
    decodeLoop (ch :: rest) (n + 1) = (decodeLoop rest n).map (ch :: ·) := by
  rw [decodeLoop.eq_def]
  simp [other]

theorem decodeLoop_escape {e : UInt8} (other : e ≠ 117) (rest : List UInt8) (n : Nat) :
    decodeLoop (backslash :: e :: rest) (n + 2) = (decodeLoop rest n).map (unescape e ++ ·) := by
  rw [decodeLoop.eq_def]
  simp [other]

theorem decode_encode (s more : List UInt8) :
    decodeLoop (s.flatMap escape ++ more) (s.flatMap escape).length = some s := by
  induction s with
  | nil => rw [List.flatMap_nil,List.length_nil,decodeLoop]
  | cons c s ih =>
    rw [List.flatMap_cons]
    rcases escape_cases c with ⟨same,other,-⟩ | ⟨e,same,other,-,back,-⟩
    · rw [same,List.singleton_append,List.cons_append,List.length_cons,decodeLoop_plain other,ih]
      rfl
    · have split : [backslash,e] ++ s.flatMap escape ++ more = backslash :: e :: (s.flatMap escape ++ more) := rfl
      rw [same,split,List.length_append,Nat.add_comm]
      exact (decodeLoop_escape other _ _).trans (by rw [ih,back]; rfl)

theorem plainFront_eq (s more : List UInt8) : plainFront (s ++ more) s.length = some (s.takeWhile (· ≠ backslash)) := by
  induction s with
  | nil => simp [plainFront]
  | cons c s ih =>
    rw [List.cons_append,List.length_cons,plainFront]
    by_cases slash : c = backslash
    · simp [slash]
    · rw [if_neg slash,ih,List.takeWhile_cons_of_pos (by simpa using slash)]
      rfl

/-- The first loop stops between two bytes of the string. -/
theorem encode_split (s : List UInt8) :
    ∃ front rest, s = front ++ rest ∧ (s.flatMap escape).takeWhile (· ≠ backslash) = front ∧
      front.flatMap escape = front ∧ (front.length = (s.flatMap escape).length → rest = []) := by
  induction s with
  | nil => exact ⟨[],[],rfl,rfl,rfl,fun _ => rfl⟩
  | cons c s ih =>
    obtain ⟨front,rest,whole,stop,plain,all_⟩ := ih
    rcases escape_cases c with ⟨same,other,-⟩ | ⟨e,same,-⟩
    · refine ⟨c :: front,rest,by rw [whole,List.cons_append],?_,?_,?_⟩
      · rw [List.flatMap_cons,same,List.singleton_append,List.takeWhile_cons_of_pos (by simpa using other),stop]
      · rw [List.flatMap_cons,same,plain,List.singleton_append]
      · rw [List.flatMap_cons,same,List.singleton_append,List.length_cons,List.length_cons]
        exact fun length => all_ (Nat.succ.inj length)
    · refine ⟨[],c :: s,rfl,?_,rfl,?_⟩
      · rw [List.flatMap_cons,same,List.cons_append,List.takeWhile_cons_of_neg (by simp)]
      · rw [List.flatMap_cons,same]
        simp

theorem decode2_encode (s more : List UInt8) :
    acJsonDecode2 (acJsonEncode s ++ more) (acJsonEncode s).length = some s := by
  rw [acJsonEncode_eq]
  obtain ⟨front,rest,whole,stop,plain,all_⟩ := encode_split s
  rw [acJsonDecode2,plainFront_eq,stop]
  simp only [Option.bind_eq_bind,Option.bind_some]
  split
  case isTrue length => rw [whole,all_ length,List.append_nil]
  case isFalse =>
    have split : s.flatMap escape = front ++ rest.flatMap escape := by rw [whole,List.flatMap_append,plain]
    rw [split,List.append_assoc,List.drop_left,List.length_append,Nat.add_sub_cancel_left,decode_encode,whole]
    rfl

/-- The same as a C string, where a NUL follows. -/
theorem decode_string {s : List UInt8} (free : 0 ∉ s) (more : List UInt8) :
    acJsonDecode (acJsonEncode s ++ 0 :: more) (acJsonEncode s).length = some s := by
  have whole := takeWhile_key free []
  rw [List.takeWhile_append_of_pos (by simpa using fun c inside (zero : c = 0) => free (zero ▸ inside)),
    List.takeWhile_cons_of_neg (by simp),List.append_nil] at whole
  have self : s.takeWhile (· ≠ 0) = s :=
    List.takeWhile_eq_self_iff.mpr fun c inside => by simpa using fun zero : c = 0 => free (zero ▸ inside)
  have decoded := decode2_encode s (0 :: more)
  rw [acJsonDecode2] at decoded
  rw [acJsonDecode]
  cases front : plainFront (acJsonEncode s ++ 0 :: more) (acJsonEncode s).length with
  | none =>
    rw [front] at decoded
    cases decoded
  | some plain =>
    rw [front] at decoded
    simp only [Option.bind_eq_bind,Option.bind_some] at decoded ⊢
    by_cases all_ : plain.length = (acJsonEncode s).length
    · rw [if_pos all_] at decoded ⊢
      rw [plainFront_eq,Option.some.injEq] at front
      have same : (acJsonEncode s).takeWhile (· ≠ backslash) = acJsonEncode s :=
        (List.takeWhile_prefix _).eq_of_length (by rw [front]; exact all_)
      cases decoded
      rw [same] at front
      rw [front,takeWhile_key free]
    · rw [if_neg all_] at decoded ⊢
      obtain ⟨rest,isRest,joined⟩ := Option.map_eq_some_iff.mp decoded
      rw [isRest,Option.map_some,joined,self]

/-! ## Through a document -/

/-- The members of an object, in order. -/
def membersOf : List (List UInt8 × Tree) → Members
  | [] => .nil
  | member :: rest => .cons member.1 member.2 (membersOf rest)

theorem membersOf_encoded (ms : List (List UInt8 × Tree))
    (each : ∀ m ∈ ms, EncodedText m.1 ∧ Encoded m.2 ∧ hasNull m.2 = false) :
    EncodedMembers (membersOf ms) ∧ membersNull (membersOf ms) = false := by
  induction ms with
  | nil => exact ⟨trivial,rfl⟩
  | cons m ms ih =>
    obtain ⟨name,inside,plain⟩ := each m List.mem_cons_self
    obtain ⟨later,none_⟩ := ih fun m' member => each m' (List.mem_cons_of_mem m member)
    exact ⟨⟨name,inside,later⟩,by simp [membersOf,membersNull,plain,none_]⟩

/-- `ac_jsono_scan` finds the node that was laid for the first member with the
    key. -/
theorem scan_members {pool : Pool} {front : List UInt8} (more : List UInt8) {before after : List (List UInt8 × Tree)}
    {key value : List UInt8} {type : JsonType} (absent : ∀ member ∈ before, member.1 ≠ key)
    (encoded : EncodedMembers (membersOf (before ++ (key,.leaf type value) :: after))) {base a : Nat}
    {entries : List Entry} {kids : List Node}
    (laid : LaidMembers front base a (membersOf (before ++ (key,.leaf type value) :: after)) entries kids)
    {previous : Option Nat} {places : List Nat} (chain : Linked pool.entries previous places entries) {fuel : Nat}
    (enough : places.length ≤ fuel) :
    ∃ k text, scanFrom (front ++ more) pool key fuel places.head? = some (some (base + k)) ∧
      kids[k]? = some { type := type, parent := some a, value := text, length := value.length } ∧
      Shows front text value ∧ Ended front type text value := by
  induction before generalizing base entries kids previous places fuel with
  | nil =>
    obtain ⟨encodedKey,-,-⟩ := encoded
    obtain ⟨q,rest,first,others,rfl,rfl,showsKey,⟨text,rfl,shows,ended⟩,-⟩ := laid
    cases places with
    | nil => exact chain.elim
    | cons r places =>
      cases fuel with
      | zero => simp at enough
      | succ fuel =>
        have named : stringAt (front ++ more) q = key := by
          obtain ⟨tail,split⟩ := showsKey.more more
          rw [stringAt,← split,List.append_assoc]
          exact takeWhile_key encodedKey.1 tail
        refine ⟨0,text,?_,rfl,shows,ended⟩
        simp only [List.head?_cons,scanFrom,chain.1,Option.bind_eq_bind,Option.bind_some,named]
        rw [if_pos (strcmp_zero.mpr rfl)]
        rfl
  | cons member before ih =>
    obtain ⟨encodedKey,-,later⟩ := encoded
    obtain ⟨q,rest,first,others,rfl,rfl,showsKey,-,following⟩ := laid
    cases places with
    | nil => exact chain.elim
    | cons r places =>
      cases fuel with
      | zero => simp at enough
      | succ fuel =>
        have named : stringAt (front ++ more) q = member.1 := by
          obtain ⟨tail,split⟩ := showsKey.more more
          rw [stringAt,← split,List.append_assoc]
          exact takeWhile_key encodedKey.1 tail
        have other : strcmp member.1 key ≠ 0 := fun same => absent member List.mem_cons_self (strcmp_zero.mp same)
        obtain ⟨k,text,found,node,shows⟩ := ih (fun m inside => absent m (List.mem_cons_of_mem member inside)) later
          following chain.2 (Nat.le_of_succ_le_succ enough)
        refine ⟨first.length + k,text,?_,?_,shows⟩
        · simp only [List.head?_cons,scanFrom,chain.1,Option.bind_eq_bind,Option.bind_some,named]
          rw [if_neg other,found,Nat.add_assoc]
        · rw [List.getElem?_append_right (Nat.le_add_right _ _),Nat.add_sub_cancel_left]
          exact node

/-- The node that the reader of a parsed object finds for the first member with a key. -/
theorem leaf_found {s : State} {before after : List (List UInt8 × Tree)} {key value : List UInt8} {type : JsonType}
    (absent : ∀ member ∈ before, member.1 ≠ key)
    (encoded : EncodedMembers (membersOf (before ++ (key,.leaf type value) :: after)))
    (stored : Stored s (.object (membersOf (before ++ (key,.leaf type value) :: after)))) :
    ∃ v json, acJsonoScan s.bytes s.pool 0 key = some (some v) ∧ s.pool.values[v]? = some json ∧ json.type = type ∧
      json.length = value.length ∧ Shows s.bytes json.value value ∧ Ended s.bytes type json.value value := by
  obtain ⟨nodes,front,rest,text,holds,entries,kids,rfl,laid⟩ := stored
  obtain ⟨o,isO,⟨isObject,-⟩,-,places,ascending,head,-,chain⟩ := holds.found (a := 0) rfl
  obtain ⟨k,value_,found,node,shows,ended⟩ := scan_members rest absent encoded laid chain
    chain.length_le
  have inNodes : ({ type := .object, parent := none, entries := entries } :: kids)[1 + k]? =
      some { type := type, parent := some 0, value := value_, length := value.length } := by
    rw [Nat.add_comm]
    exact node
  obtain ⟨json,isJson,⟨isType,-,isValue,length⟩,-⟩ := holds.found inNodes
  refine ⟨1 + k,json,?_,isJson,isType,length,?_,?_⟩
  · rw [acJsonoScan,isO]
    simp only [Option.bind_eq_bind,Option.bind_some,isObject,head,text]
    exact found
  · rw [isValue,text]
    exact shows.more rest
  · rw [isValue,text]
    exact ended.more rest

/-- A value that is no binary is a constant, or lies in the buffer with a NUL behind it. -/
theorem shows_at {bytes value : List UInt8} {type : JsonType} {text : Option Text} (shows : Shows bytes text value)
    (ended : Ended bytes type text value) (other : type ≠ .binary) :
    text = some (.constant value) ∨ ∃ q tail, text = some (.at q) ∧ bytes.drop q = value ++ 0 :: tail := by
  rcases ended other with constant | longer
  · exact .inl constant
  match text, shows, longer with
  | some (.constant c), same, longer =>
    have length := congrArg List.length ((show c = value from same).symm.trans longer)
    simp at length
  | some (.at q), _, longer =>
    obtain ⟨tail,split⟩ := longer
    exact .inr ⟨q,tail,rfl,by rw [← split,List.append_assoc]; rfl⟩

/-- What the reader of a parsed object gets for a string that it holds. -/
theorem string_read {s : State} {before after : List (List UInt8 × Tree)} {key value : List UInt8}
    (absent : ∀ member ∈ before, member.1 ≠ key)
    (encoded : EncodedMembers (membersOf (before ++ (key,.leaf .string value) :: after)))
    (stored : Stored s (.object (membersOf (before ++ (key,.leaf .string value) :: after)))) :
    ∃ v more, acJsonoScan s.bytes s.pool 0 key = some (some v) ∧
      acJsond s.bytes s.pool v = (acJsonDecode (value ++ 0 :: more) value.length).map some := by
  obtain ⟨v,json,found,isJson,type,length,shows,ended⟩ := leaf_found absent encoded stored
  have decoded (more : List UInt8) (isValue : (∃ q, json.value = some (.at q) ∧ s.bytes.drop q = value ++ 0 :: more) ∨
      json.value = some (.constant value) ∧ more = []) :
      acJsond s.bytes s.pool v = (acJsonDecode (value ++ 0 :: more) value.length).map some := by
    rw [acJsond,isJson]
    rcases isValue with ⟨q,isValue,at_q⟩ | ⟨isValue,rfl⟩
    · simp only [Option.bind_eq_bind,Option.bind_some,type,isValue,length,at_q,if_true]
    · simp only [Option.bind_eq_bind,Option.bind_some,type,isValue,length,if_true]
  rcases shows_at shows ended (by decide) with isValue | ⟨q,tail,isValue,at_q⟩
  · exact ⟨v,[],found,decoded [] (.inr ⟨isValue,rfl⟩)⟩
  · exact ⟨v,tail,found,decoded tail (.inl ⟨q,isValue,at_q⟩)⟩

/-- A string as a member of an object that is dumped, parsed and read. -/
def Rereads (s key : List UInt8) (before after : List (List UInt8 × Tree)) : Prop :=
  ∃ fuel a st, acJsonParse fuel (dump (.object (membersOf (before ++ (key,acJsonEncodeString s) :: after)))) =
      some (.returned (some a) st) ∧
    ∃ v, acJsonoScan st.bytes st.pool a key = some (some v) ∧ acJsond st.bytes st.pool v = some (some s)

/-- The encoded bytes between quotes are one string for the parser, wherever they
    stand: it goes on behind the closing quote, and has put a NUL there. -/
def ScannedWhole (s : List UInt8) : Prop :=
  ∀ (keyed : Bool) (st : State) (done rest : List UInt8) (b : UInt8),
    Start st (done ++ [quote]) (acJsonEncode s ++ quote :: b :: rest) → st.stringp = some (.at (done.length + 1)) →
    ∃ t, Reaches (st.bytes.length - 1) (.goto (.startString keyed) st) (.goto (.addString keyed) t) ∧ Kept st t ∧
      Facing t (done ++ quote :: acJsonEncode s ++ [0]) (b :: rest) ∧ t.dataType = st.dataType ∧
      t.stringp = st.stringp ∧ t.stringLength = (acJsonEncode s).length % 2 ^ 32

/-- The object around a string is read if its encoded form is not too long. -/
theorem rereads {s key : List UInt8} {before after : List (List UInt8 × Tree)} (free : 0 ∉ s)
    (short : (acJsonEncode s).length < 2 ^ 32) (absent : ∀ member ∈ before, member.1 ≠ key)
    (encoded : EncodedMembers (membersOf (before ++ (key,.leaf .string (acJsonEncode s)) :: after)))
    (plain : membersNull (membersOf (before ++ (key,.leaf .string (acJsonEncode s)) :: after)) = false) :
    Rereads s key before after := by
  have whole : acJsonEncodeString s = .leaf .string (acJsonEncode s) := by
    rw [acJsonEncodeString,Nat.mod_eq_of_lt short,List.take_length]
  rw [Rereads,whole]
  generalize isTree : Tree.object (membersOf (before ++ (key,.leaf .string (acJsonEncode s)) :: after)) = tree
  have treeEncoded : Encoded tree := by
    subst isTree
    exact encoded
  have treePlain : hasNull tree = false := by
    subst isTree
    exact plain
  have container : tree.isContainer := by
    subst isTree
    trivial
  have run := parse_run treeEncoded container (dump_spaced treeEncoded)
  rw [(strip_self tree).mpr treePlain] at run
  obtain ⟨st,⟨n,returns⟩,stored⟩ := run
  rw [← isTree] at stored
  obtain ⟨v,more,found,read⟩ := string_read absent encoded stored
  refine ⟨n,0,st,returns,v,found,?_⟩
  rw [read,decode_string free]
  rfl

/-- Every string comes back from its encoded form, and is one string between
    quotes; it comes back through an object if its encoded form has fewer than
    2^32 bytes. -/
theorem encode_round_trip (s : List UInt8) (free : 0 ∉ s) :
    acJsonDecode2 (acJsonEncode s ++ [0]) (acJsonEncode s).length = some s ∧ ScannedWhole s ∧
    ((acJsonEncode s).length < 2 ^ 32 → ∀ (key : List UInt8) (before after : List (List UInt8 × Tree)),
      EncodedText key → (∀ member ∈ before, member.1 ≠ key) →
      (∀ member ∈ before ++ after, EncodedText member.1 ∧ Encoded member.2 ∧ hasNull member.2 = false) →
      Rereads s key before after) := by
  refine ⟨decode2_encode s [0],?_,?_⟩
  · intro keyed st done rest b start stringp
    have size : st.bytes.length - 1 + 1 = st.bytes.length := by
      rw [start.bytes]
      simp
      omega
    exact string_scan _ keyed (encode_encoded free) start size stringp
  · intro short key before after keyEncoded absent others
    have leaf : Encoded (.leaf .string (acJsonEncode s)) := ⟨encode_encoded free,short⟩
    have whole := membersOf_encoded (before ++ (key,.leaf .string (acJsonEncode s)) :: after) fun m member => by
      rcases List.mem_append.mp member with first | later
      · exact others m (List.mem_append_left _ first)
      · rcases List.mem_cons.mp later with here | last
        · subst here
          exact ⟨keyEncoded,leaf,rfl⟩
        · exact others m (List.mem_append_right _ last)
    exact rereads free short absent whole.1 whole.2

/-- The string of a quote, a backslash and a `u`, under the key `k`. -/
theorem encode_round_trip_quote : Rereads [34,92,117] [107] [] [] :=
  (encode_round_trip [34,92,117] (by decide)).2.2 (by decide) [107] [] []
    (encoded_plain (by decide) (by decide) (by decide)) (by simp) (by simp)

/-- Of a string with 2^32 plain bytes, the node that holds it keeps none. -/
theorem long_string_lost :
    ¬ ∀ (s : List UInt8), 0 ∉ s → ∀ key, EncodedText key → Rereads s key [] [] := by
  intro claim
  let s : List UInt8 := List.replicate (2 ^ 32) 97
  have plain (c : UInt8) (inside : c ∈ s) : c = 97 := List.eq_of_mem_replicate inside
  have free : 0 ∉ s := fun inside => absurd (plain 0 inside) (by decide)
  have encode : acJsonEncode s = s := by
    have each (c : UInt8) (inside : c ∈ s) : escape c = [c] := by
      rw [plain c inside]
      decide
    rw [acJsonEncode_eq,List.flatMap_congr each]
    simp
  have long : s.length = 2 ^ 32 := List.length_replicate
  have empty : acJsonEncodeString s = acJsonEncodeString [] := by
    simp only [acJsonEncodeString,encode,long,Nat.mod_self,List.take_zero]
    rfl
  have key : EncodedText [107] := encoded_plain (by decide) (by decide) (by decide)
  have blank : Rereads [] [107] [] [] :=
    rereads (by simp) (by decide) (by simp) ⟨key,⟨encode_encoded (by simp),by decide⟩,trivial⟩ rfl
  obtain ⟨n,a,st,returns,v,found,read⟩ := claim s free [107] key
  rw [Rereads,← empty] at blank
  obtain ⟨n',a',st',returns',v',found',read'⟩ := blank
  have same := run_unique returns returns' trivial trivial
  simp only [Result.returned.injEq,Option.some.injEq] at same
  obtain ⟨rfl,rfl⟩ := same
  rw [found] at found'
  cases found'
  rw [read] at read'
  have none_ : s = [] := by simpa using read'
  rw [none_] at long
  exact absurd long (by decide)

end AnotherC.AcJson
