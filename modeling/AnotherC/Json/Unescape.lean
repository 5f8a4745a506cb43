import AnotherC.Json.Decode
import AnotherC.Lib.Utf8

/-!
# What `ac_json_decode2` makes of a text

A text is a sequence of scalar values and escapes. Each spelling of a scalar value is
decoded to its UTF-8 encoding (`decode_spelled`). The result is UTF-8 exactly where no
low surrogate stands alone and no backslash stands before a scalar value of more than
one byte (`decode_valid_iff`).
-/
namespace AnotherC.JsonDecode
open AnotherC.Lib
open AnotherC.AcJson (backslash hexDigit hexDigits utf8 unicodeToUtf8 unescape plainFront)
set_option linter.unusedVariables false

/-! ## Texts -/

/-- Four hex digits. -/
structure Digits where
  bytes : List UInt8
  four : bytes.length = 4
  hex : ∀ d ∈ bytes, (hexDigit d).isSome

def Digits.value (digits : Digits) : Nat := digits.bytes.foldl (fun ch d => ch * 16 + (hexDigit d).getD 0) 0

/-- A scalar value as it is, a backslash before one, or an escape with digits. -/
inductive Item
  | raw (c : Char) (plain : c.toNat ≠ 92)
  | short (e : Char) (letter : e.toNat ≠ 117)
  | unicode (digits : Digits)

def Item.text : Item → List UInt8
  | raw c _ => String.utf8EncodeChar c
  | short e _ => backslash :: String.utf8EncodeChar e
  | unicode digits => backslash :: 117 :: digits.bytes

/-- The bytes of a text, and a backslash behind the last item if there is one. -/
def text (items : List Item) (slash : Bool) : List UInt8 := items.flatMap Item.text ++ if slash then [backslash] else []

def High (n : Nat) : Prop := 0xD800 ≤ n ∧ n ≤ 0xDBFF
def Low (n : Nat) : Prop := 0xDC00 ≤ n ∧ n ≤ 0xDFFF

instance (n : Nat) : Decidable (High n) := inferInstanceAs (Decidable (_ ∧ _))
instance (n : Nat) : Decidable (Low n) := inferInstanceAs (Decidable (_ ∧ _))

/-- Every low surrogate has a high one before it, and what stands behind a backslash is
    one byte long. -/
def Paired : List Item → Prop
  | [] => True
  | .raw _ _ :: items => Paired items
  | .short e _ :: items => e.toNat < 0x80 ∧ Paired items
  | .unicode first :: .unicode second :: items =>
    if High first.value ∧ Low second.value then Paired items
    else ¬ Low first.value ∧ Paired (.unicode second :: items)
  | .unicode first :: items => ¬ Low first.value ∧ Paired items

/-- What `rlen` is, and the bytes at the result, which may be `s` itself. -/
def decoded (s : List UInt8) : Option (Nat × List UInt8) :=
  (acJsonDecode2 (s ++ [0]) s.length).map fun
    | (rlen,none) => (rlen,s)
    | (rlen,some out) => (rlen,out)

/-! ## Spellings -/

/-- The digit of a value below 16, in either case. -/
def IsHex (n : Nat) (d : UInt8) : Prop :=
  if n < 10 then d.toNat = 48 + n else d.toNat = 55 + n ∨ d.toNat = 87 + n

def HexOf (n : Nat) (digits : List UInt8) : Prop :=
  ∃ a b c d, digits = [a,b,c,d] ∧ IsHex (n / 4096) a ∧ IsHex (n / 256 % 16) b ∧ IsHex (n / 16 % 16) c ∧ IsHex (n % 16) d

/-- The scalar values that have a short escape. -/
def shortEscapes : List (Nat × UInt8) := [(34,34),(92,92),(47,47),(8,98),(12,102),(10,110),(13,114),(9,116)]

/-- The ways to write a scalar value. -/
inductive Spells (c : Char) : List UInt8 → Prop
  | raw (plain : c.toNat ≠ 34 ∧ c.toNat ≠ 92) : Spells c (String.utf8EncodeChar c)
  | short {e : UInt8} (known : (c.toNat,e) ∈ shortEscapes) : Spells c [backslash,e]
  | unicode {digits : List UInt8} (below : c.toNat < 0x10000) (hex : HexOf c.toNat digits) :
    Spells c (backslash :: 117 :: digits)
  | pair {high low : List UInt8} (above : 0x10000 ≤ c.toNat) (first : HexOf (0xD800 + (c.toNat - 0x10000) / 0x400) high)
    (second : HexOf (0xDC00 + (c.toNat - 0x10000) % 0x400) low) :
    Spells c (backslash :: 117 :: high ++ backslash :: 117 :: low)

/-! ## Digits -/

theorem hexDigits_read (bytes : List UInt8) (hex : ∀ d ∈ bytes, (hexDigit d).isSome) (ch : Nat) (rest : List UInt8) :
    hexDigits bytes.length ch (bytes ++ rest) =
      some (some (bytes.foldl (fun ch d => ch * 16 + (hexDigit d).getD 0) ch,rest)) := by
  induction bytes generalizing ch with
  | nil => rfl
  | cons d bytes ih =>
    obtain ⟨v,digit⟩ := Option.isSome_iff_exists.mp (hex d List.mem_cons_self)
    rw [List.length_cons,List.cons_append,hexDigits,digit,List.foldl_cons,digit]
    exact ih (fun e member => hex e (List.mem_cons_of_mem d member)) _

theorem Digits.read (digits : Digits) (rest : List UInt8) :
    hexDigits 4 0 (digits.bytes ++ rest) = some (some (digits.value,rest)) := by
  have read := hexDigits_read digits.bytes digits.hex 0 rest
  rwa [digits.four] at read

theorem hexDigit_lt {d : UInt8} {n : Nat} (digit : hexDigit d = some n) : n < 16 := by
  unfold hexDigit at digit
  split_ifs at digit with number upper lower
  · cases digit
    have := UInt8.le_iff_toNat_le.mp number.2
    simp only [UInt8.reduceToNat] at this
    omega
  · cases digit
    have := UInt8.le_iff_toNat_le.mp upper.2
    simp only [UInt8.reduceToNat] at this
    omega
  · cases digit
    have := UInt8.le_iff_toNat_le.mp lower.2
    simp only [UInt8.reduceToNat] at this
    omega

theorem IsHex.digit {n : Nat} {d : UInt8} (is_hex : IsHex n d) (small : n < 16) : hexDigit d = some n := by
  unfold IsHex at is_hex
  unfold hexDigit
  simp only [UInt8.le_iff_toNat_le,UInt8.reduceToNat]
  split_ifs at is_hex with number
  · rw [if_pos (by omega)]
    exact congrArg _ (by omega)
  · rcases is_hex with upper | lower
    · rw [if_neg (by omega),if_pos (by omega)]
      exact congrArg _ (by omega)
    · rw [if_neg (by omega),if_neg (by omega),if_pos (by omega)]
      exact congrArg _ (by omega)

/-- Digits with a value. -/
theorem HexOf.digits {n : Nat} {bytes : List UInt8} (hex : HexOf n bytes) (small : n < 0x10000) :
    ∃ digits : Digits, digits.bytes = bytes ∧ digits.value = n := by
  obtain ⟨a,b,c,d,rfl,first,second,third,fourth⟩ := hex
  have one := first.digit (by omega)
  have two := second.digit (by omega)
  have three := third.digit (by omega)
  have four := fourth.digit (by omega)
  refine ⟨⟨[a,b,c,d],rfl,by simp [one,two,three,four]⟩,rfl,?_⟩
  simp only [Digits.value,List.foldl_cons,List.foldl_nil,one,two,three,four,Option.getD_some]
  omega

theorem Digits.value_lt (digits : Digits) : digits.value < 0x10000 := by
  obtain ⟨bytes,four,hex⟩ := digits
  match bytes,four with
  | [a,b,c,d],_ =>
    obtain ⟨p,one⟩ := Option.isSome_iff_exists.mp (hex a (by simp))
    obtain ⟨q,two⟩ := Option.isSome_iff_exists.mp (hex b (by simp))
    obtain ⟨r,three⟩ := Option.isSome_iff_exists.mp (hex c (by simp))
    obtain ⟨s,four⟩ := Option.isSome_iff_exists.mp (hex d (by simp))
    have := hexDigit_lt one
    have := hexDigit_lt two
    have := hexDigit_lt three
    have := hexDigit_lt four
    simp only [Digits.value,List.foldl_cons,List.foldl_nil,one,two,three,four,Option.getD_some]
    omega

/-! ## Items -/

/-- What `unicode_to_utf8` makes of an escape that it reads by itself. -/
def alone (digits : Digits) : List UInt8 := if High digits.value then (Item.unicode digits).text else utf8 digits.value

/-- What the loop leaves of a scalar value behind a backslash. -/
def unescaped (e : Char) : List UInt8 :=
  if e.toNat < 0x80 then unescape (UInt8.ofNat e.toNat) else (String.utf8EncodeChar e).tail

/-- What the loop writes for the items. -/
def written : List Item → List UInt8
  | [] => []
  | .raw c _ :: items => String.utf8EncodeChar c ++ written items
  | .short e _ :: items => unescaped e ++ written items
  | .unicode first :: .unicode second :: items =>
    if High first.value ∧ Low second.value then
      utf8 ((first.value - 0xD800) * 1024 + (second.value - 0xDC00) + 0x10000) ++ written items
    else alone first ++ written (.unicode second :: items)
  | .unicode first :: items => alone first ++ written items

/-- The first byte of a scalar value is that of an ASCII character only if it is one. -/
theorem first_byte {c : Char} {n : Nat} (other : c.toNat ≠ n) (ascii : n < 0x80) :
    ∃ a rest, String.utf8EncodeChar c = a :: rest ∧ a ≠ UInt8.ofNat n := by
  by_cases small : c.toNat < 0x80
  · refine ⟨_,_,Utf8.encodeChar_small small,fun same => other ?_⟩
    have value := congrArg UInt8.toNat same
    simp only [UInt8.toNat_ofNat'] at value
    omega
  · obtain ⟨a,b,rest,shape,large,_⟩ := Utf8.encodeChar_tail (Nat.not_lt.mp small)
    refine ⟨a,b :: rest,shape,fun same => ?_⟩
    have value := congrArg UInt8.toNat same
    simp only [UInt8.toNat_ofNat'] at value
    omega

theorem raw_plain {c : Char} (plain : c.toNat ≠ 92) : ∀ b ∈ String.utf8EncodeChar c, b ≠ backslash := by
  by_cases small : c.toNat < 0x80
  · obtain ⟨a,rest,shape,other⟩ := first_byte plain (by decide)
    rw [Utf8.encodeChar_small small] at shape ⊢
    intro b member
    rw [List.mem_singleton.mp member,(List.cons.inj shape).1]
    exact other
  · rintro b member rfl
    exact absurd (Utf8.encodeChar_large (Nat.not_lt.mp small) _ member) (by decide)

theorem text_cons (item : Item) (items : List Item) (slash : Bool) : text (item :: items) slash = item.text ++ text items slash := by
  rw [text,text,List.flatMap_cons,List.append_assoc]

/-- An escape of no high surrogate. -/
theorem unicode_single {digits : Digits} (single : ¬ High digits.value) (rest : List UInt8) :
    unicodeToUtf8 (digits.bytes ++ rest) = some (some (utf8 digits.value,rest)) := by
  rw [unicodeToUtf8,digits.read]
  exact if_neg single

theorem unicode_pair {first second : Digits} (high : High first.value) (low : Low second.value) (rest : List UInt8) :
    unicodeToUtf8 (first.bytes ++ backslash :: 117 :: (second.bytes ++ rest)) =
      some (some (utf8 ((first.value - 0xD800) * 1024 + (second.value - 0xDC00) + 0x10000),rest)) := by
  have inside : ¬ (second.value < 0xDC00 ∨ second.value > 0xDFFF) := by
    have := low.1
    have := low.2
    omega
  rw [unicodeToUtf8,first.read]
  refine (if_pos high).trans ?_
  simp only [ne_eq,not_true_eq_false,if_false]
  rw [second.read]
  exact if_neg inside

/-- A high surrogate without a low one. -/
theorem unicode_lone {first : Digits} (high : High first.value) (items : List Item) (slash : Bool)
    (lone : ∀ second later, items = .unicode second :: later → ¬ Low second.value) :
    unicodeToUtf8 (first.bytes ++ (text items slash ++ [0])) = some none := by
  rw [unicodeToUtf8,first.read]
  refine (if_pos high).trans ?_
  cases items with
  | nil => cases slash <;> rfl
  | cons item items =>
    rw [text_cons,List.append_assoc]
    cases item with
    | raw c plain =>
      obtain ⟨a,rest,shape,other⟩ := first_byte plain (by decide)
      rw [Item.text,shape]
      exact if_pos other
    | short e letter =>
      obtain ⟨a,rest,shape,other⟩ := first_byte letter (by decide)
      rw [Item.text,shape]
      refine (if_neg (fun differs => differs rfl)).trans ?_
      exact if_pos other
    | unicode second =>
      have outside : second.value < 0xDC00 ∨ second.value > 0xDFFF := by
        have notLow := lone second items rfl
        unfold Low at notLow
        omega
      simp only [Item.text,List.cons_append,ne_eq,not_true_eq_false,if_false]
      rw [second.read]
      exact if_pos outside

/-! ## The run over the items -/

section
variable {capacity n : Nat} {out bytes rest : List UInt8}

/-- A round that reads `chunk` and writes `bytes`. -/
theorem decodeFrom_chunk {chunk : List UInt8} (here : round (chunk ++ rest) = some (bytes,chunk.length)) (some_ : chunk ≠ [])
    (room : out.length + bytes.length ≤ capacity) :
    decodeFrom capacity (chunk ++ rest) (chunk.length + n) out = decodeFrom capacity rest n (out ++ bytes) := by
  have least : 1 ≤ chunk.length := List.length_pos_of_ne_nil some_
  rw [decodeFrom_round (by omega) here least,write,if_pos room,Option.bind_some,List.drop_left,Nat.add_sub_cancel_left]

theorem round_escape {e : UInt8} (other : e ≠ 117) : round ([backslash,e] ++ rest) = some (unescape e,2) := if_pos other

theorem round_unicode {digits : List UInt8} (read : unicodeToUtf8 (digits ++ rest) = some (some (bytes,rest))) :
    round (backslash :: 117 :: digits ++ rest) = some (bytes,(backslash :: 117 :: digits).length) := by
  have width : (digits ++ rest).length - rest.length = digits.length := by
    rw [List.length_append,Nat.add_sub_cancel]
  simp only [List.cons_append,round,read,width,ne_eq,not_true_eq_false,if_false,List.length_cons]
  rw [Nat.add_comm 2]

/-- Six bytes are copied where the digits are no escape. -/
theorem round_copied {digits : Digits} (read : unicodeToUtf8 (digits.bytes ++ rest) = some none) :
    round ((Item.unicode digits).text ++ rest) = some ((Item.unicode digits).text,(Item.unicode digits).text.length) := by
  have six : (Item.unicode digits).text.length = 6 := congrArg (· + 2) digits.four
  have enough : ¬ ((Item.unicode digits).text ++ rest).length < 6 := by
    rw [List.length_append,six]
    omega
  have taken : ((Item.unicode digits).text ++ rest).take 6 = (Item.unicode digits).text := by rw [← six,List.take_left]
  rw [six]
  simp only [Item.text,List.cons_append] at enough taken ⊢
  simp only [round,read,ne_eq,not_true_eq_false,if_false]
  rw [if_neg enough,taken]

theorem alone_length (digits : Digits) : (alone digits).length ≤ (Item.unicode digits).text.length := by
  have six : (Item.unicode digits).text.length = 6 := congrArg (· + 2) digits.four
  have four := utf8_length digits.value
  unfold alone
  split <;> omega

/-- An escape with digits that is not the first of a pair. -/
theorem round_alone (first : Digits) (items : List Item) (slash : Bool)
    (lone : ∀ second later, items = .unicode second :: later → ¬ (High first.value ∧ Low second.value)) :
    round ((Item.unicode first).text ++ (text items slash ++ [0])) =
      some (alone first,(Item.unicode first).text.length) := by
  unfold alone
  split
  case isTrue high => exact round_copied (unicode_lone high items slash fun second later same low => lone second later same ⟨high,low⟩)
  case isFalse single => exact round_unicode (unicode_single single _)

/-- A byte from `80` on is no escape. -/
theorem unescape_large {a : UInt8} (large : 0x80 ≤ a.toNat) : unescape a = [] := by
  have differs : ∀ k : UInt8, k.toNat < 0x80 → a ≠ k := by
    rintro k less rfl
    omega
  simp [unescape,differs]

theorem decodeFrom_short {e : Char} (letter : e.toNat ≠ 117)
    (room : out.length + (Item.short e letter).text.length ≤ capacity) :
    decodeFrom capacity ((Item.short e letter).text ++ rest) ((Item.short e letter).text.length + n) out =
      decodeFrom capacity rest n (out ++ unescaped e) := by
  have here : ∀ {a : UInt8} {rest : List UInt8}, a ≠ 117 → round ([backslash,a] ++ rest) = some (unescape a,[backslash,a].length) :=
    fun other => round_escape other
  obtain ⟨a,more,shape,other⟩ := first_byte letter (by decide)
  have short := unescape_length a
  have whole : (Item.short e letter).text = [backslash,a] ++ more := by rw [Item.text,shape,List.cons_append,List.singleton_append]
  have two : [backslash,a].length = 2 := rfl
  rw [whole,List.length_append] at room ⊢
  by_cases small : e.toNat < 0x80
  · have one := shape.symm.trans (Utf8.encodeChar_small small)
    have none : more = [] := (List.cons.inj one).2
    rw [unescaped,if_pos small,← (List.cons.inj one).1,none,List.append_nil,List.length_nil,Nat.add_zero]
    exact decodeFrom_chunk (here other) (List.cons_ne_nil _ _) (by omega)
  · have large := Utf8.encodeChar_large (Nat.not_lt.mp small)
    rw [shape] at large
    have nothing := unescape_large (large a List.mem_cons_self)
    have plain : ∀ b ∈ more, b ≠ backslash := by
      rintro b member rfl
      exact absurd (large _ (List.mem_cons_of_mem a member)) (by decide)
    rw [unescaped,if_neg small,shape,List.tail_cons,List.append_assoc,Nat.add_assoc,
      decodeFrom_chunk (here other) (List.cons_ne_nil _ _) (by omega),nothing,List.append_nil]
    exact decodeFrom_plain plain (by omega)

theorem unescaped_length {e : Char} (letter : e.toNat ≠ 117) : (unescaped e).length ≤ (Item.short e letter).text.length := by
  rw [Item.text,List.length_cons,unescaped]
  split
  case isTrue =>
    have := unescape_length (UInt8.ofNat e.toNat)
    omega
  case isFalse =>
    rw [List.length_tail]
    omega

/-- Two escapes for one scalar value. -/
theorem decodeFrom_pair {first second : Digits} (high : High first.value) (low : Low second.value)
    (room : out.length + ((Item.unicode first).text ++ (Item.unicode second).text).length ≤ capacity) :
    decodeFrom capacity ((Item.unicode first).text ++ (Item.unicode second).text ++ rest)
        (((Item.unicode first).text ++ (Item.unicode second).text).length + n) out =
      decodeFrom capacity rest n (out ++ utf8 ((first.value - 0xD800) * 1024 + (second.value - 0xDC00) + 0x10000)) := by
  have twelve : ((Item.unicode first).text ++ (Item.unicode second).text).length = 12 := by
    simp [Item.text,first.four,second.four]
  have four := utf8_length ((first.value - 0xD800) * 1024 + (second.value - 0xDC00) + 0x10000)
  have read := unicode_pair high low rest
  refine decodeFrom_chunk ?_ (List.cons_ne_nil _ _) (by omega)
  have shape : (Item.unicode first).text ++ (Item.unicode second).text =
      backslash :: 117 :: (first.bytes ++ backslash :: 117 :: second.bytes) := by simp [Item.text]
  rw [shape]
  refine round_unicode ?_
  rw [List.append_assoc,List.cons_append,List.cons_append]
  exact read

theorem decodeFrom_end {s : List UInt8} (room : out.length + 1 ≤ capacity) : decodeFrom capacity s 0 out = some out := by
  rw [decodeFrom,write,List.length_singleton,if_pos room,Option.map_some]

/-- The loop over the items. -/
theorem decodeFrom_items (items : List Item) (slash : Bool) (room : out.length + (text items slash).length + 1 ≤ capacity) :
    decodeFrom capacity (text items slash ++ [0]) (text items slash).length out = some (out ++ written items) := by
  have single : ∀ {first : Digits} {items : List Item} {out : List UInt8},
      (∀ second later, items = .unicode second :: later → ¬ (High first.value ∧ Low second.value)) →
      out.length + (text (.unicode first :: items) slash).length + 1 ≤ capacity →
      (∀ {out : List UInt8}, out.length + (text items slash).length + 1 ≤ capacity →
        decodeFrom capacity (text items slash ++ [0]) (text items slash).length out = some (out ++ written items)) →
      decodeFrom capacity (text (.unicode first :: items) slash ++ [0]) (text (.unicode first :: items) slash).length out =
        some (out ++ (alone first ++ written items)) := by
    intro first items out lone room ih
    have short := alone_length first
    rw [text_cons,List.length_append] at room ⊢
    rw [List.append_assoc,decodeFrom_chunk (round_alone first items slash lone) (List.cons_ne_nil _ _) (by omega),
      ih (by rw [List.length_append]; omega),List.append_assoc]
  -- the items as the loop takes them, two surrogates of a pair at once
  induction items using written.induct generalizing out with
  | case1 =>
    rw [written,List.append_nil]
    cases slash with
    | false => exact decodeFrom_end (by simpa [text] using room)
    | true =>
      have here : round ([backslash] ++ [0]) = some (unescape 0,2) := rfl
      have fits : out.length + (unescape 0).length ≤ capacity := by
        change out.length + 0 ≤ capacity
        omega
      have nothing : out ++ unescape 0 = out := List.append_nil out
      have last : decodeFrom capacity ([backslash] ++ [0]) 1 out = _ := decodeFrom_round (by decide) here (by decide)
      rw [write,if_pos fits,Option.bind_some,nothing] at last
      exact last.trans (decodeFrom_end (by omega))
  | case2 c plain items ih =>
    rw [text_cons,List.length_append,Item.text] at room ⊢
    rw [List.append_assoc,decodeFrom_plain (raw_plain plain) (by omega),ih (by rw [List.length_append]; omega),
      List.append_assoc,written]
  | case3 e letter items ih =>
    have short := unescaped_length letter
    rw [text_cons,List.length_append] at room ⊢
    rw [List.append_assoc,decodeFrom_short letter (by omega),ih (by rw [List.length_append]; omega),List.append_assoc,written]
  | case4 first second items both ih =>
    have twelve : ((Item.unicode first).text ++ (Item.unicode second).text).length = 12 := by
      simp [Item.text,first.four,second.four]
    have four := utf8_length ((first.value - 0xD800) * 1024 + (second.value - 0xDC00) + 0x10000)
    rw [text_cons,text_cons,← List.append_assoc,List.length_append] at room ⊢
    rw [List.append_assoc,decodeFrom_pair both.1 both.2 (by omega),ih (by rw [List.length_append]; omega),List.append_assoc,
      written,if_pos both]
  | case5 first second items apart ih =>
    rw [written,if_neg apart]
    refine single (fun second' later same => ?_) room ih
    obtain rfl : second = second' := by injection same with same; injection same
    exact apart
  | case6 first items noPair ih =>
    rw [written]
    · refine single (fun second later same => absurd same (noPair second later)) room ih
    · exact noPair

/-- What `ac_json_decode2` gives for a text. -/
theorem decoded_text (items : List Item) (slash : Bool) :
    decoded (text items slash) = some ((written items).length,written items) := by
  have done : decodeFrom ((text items slash).length + 1) (text items slash ++ [0]) (text items slash).length [] = _ :=
    decodeFrom_items items slash (by simp)
  obtain ⟨plain,rest,shape,front,clean,whole,end_⟩ := plainFront_spec (text items slash) [0]
  rw [decoded,acJsonDecode2,front]
  dsimp only
  by_cases all : plain.length = (text items slash).length
  · have same : plain = text items slash := whole (end_ all)
    have copied : decodeFrom (plain.length + 1) (plain ++ [0]) (plain.length + 0) [] = _ := decodeFrom_plain clean (by simp)
    rw [same,decodeFrom_end (by simp)] at copied
    have equal : written items = text items slash := by simpa using done.symm.trans copied
    rw [if_pos all,Option.map_some,equal]
  · rw [if_neg all,decode_whole shape clean,done]
    rfl

end

/-! ## The two results -/

theorem utf8_char (c : Char) : utf8 c.toNat = String.utf8EncodeChar c := by
  unfold utf8
  rcases Utf8.encodeChar_cases c with ⟨one,shape⟩ | ⟨low,two,shape⟩ | ⟨low,three,_,shape⟩ | ⟨low,four,shape⟩
  · rw [if_pos one,shape]
  · rw [if_neg (by omega),if_pos two,shape]
  · rw [if_neg (by omega),if_neg (by omega),if_pos three,shape]
  · rw [if_neg (by omega),if_neg (by omega),if_neg (by omega),if_pos four,shape]

/-- What the `switch` writes for an escape is a scalar value or nothing. -/
theorem unescape_encode (e : UInt8) : ∃ cs, unescape e = Utf8.encode cs := by
  refine Utf8.ascii_encode _ ?_
  unfold unescape
  split_ifs <;> simp

theorem text_ascii (digits : Digits) : ∃ cs, (Item.unicode digits).text = Utf8.encode cs := by
  refine Utf8.ascii_encode _ fun b member => ?_
  rcases List.mem_cons.mp member with rfl | member
  · decide
  · rcases List.mem_cons.mp member with rfl | member
    · decide
    · obtain ⟨v,digit⟩ := Option.isSome_iff_exists.mp (digits.hex b member)
      by_contra large
      have differs : ∀ k : UInt8, k.toNat < 0x80 → ¬ b ≤ k := fun k less below =>
        large (Nat.lt_of_le_of_lt (UInt8.le_iff_toNat_le.mp below) less)
      simp [hexDigit,differs] at digit

/-- An encoded low surrogate. -/
theorem utf8_low {n : Nat} (low : Low n) (rest : List UInt8) : ¬ Utf8.Valid (utf8 n ++ rest) := by
  obtain ⟨least,most⟩ := low
  rw [utf8,if_neg (by omega),if_neg (by omega),if_pos (by omega)]
  refine Utf8.not_valid_surrogate ?_ ?_ _ <;> simp only [UInt8.toNat_ofNat'] <;> omega

theorem alone_valid (digits : Digits) (rest : List UInt8) :
    Utf8.Valid (alone digits ++ rest) ↔ ¬ Low digits.value ∧ Utf8.Valid rest := by
  unfold alone
  split
  case isTrue high =>
    obtain ⟨cs,ascii⟩ := text_ascii digits
    have notLow : ¬ Low digits.value := fun low => by
      have := high.2
      have := low.1
      omega
    rw [ascii,Utf8.valid_encode_iff]
    exact (and_iff_right notLow).symm
  case isFalse notHigh =>
    by_cases low : Low digits.value
    · exact iff_of_false (utf8_low low rest) fun both => both.1 low
    · have small := digits.value_lt
      have scalar : (Char.ofNat digits.value).toNat = digits.value := Utf8.toNat_ofNat (by
        unfold High at notHigh
        unfold Low at low
        omega)
      rw [← scalar,utf8_char,scalar,Utf8.valid_cons_iff]
      exact (and_iff_right low).symm

/-- The result is UTF-8 where the surrogates are paired and no backslash stands before a
    longer scalar value. -/
theorem written_valid (items : List Item) : Utf8.Valid (written items) ↔ Paired items := by
  induction items using written.induct with
  | case1 => exact iff_of_true Utf8.valid_nil trivial
  | case2 c plain items ih =>
    rw [written,Paired,Utf8.valid_cons_iff]
    exact ih
  | case3 e letter items ih =>
    rw [written,Paired,unescaped]
    split
    case isTrue small =>
      obtain ⟨cs,same⟩ := unescape_encode (UInt8.ofNat e.toNat)
      rw [same,Utf8.valid_encode_iff,ih]
      exact (and_iff_right small).symm
    case isFalse large =>
      obtain ⟨a,b,rest,shape,_,continues⟩ := Utf8.encodeChar_tail (Nat.not_lt.mp large)
      rw [shape,List.tail_cons,List.cons_append]
      exact iff_of_false (Utf8.not_valid_continues continues _) fun both => large both.1
  | case4 first second items both ih =>
    obtain ⟨⟨least,most⟩,low,high⟩ := both
    have scalar : (Char.ofNat ((first.value - 0xD800) * 1024 + (second.value - 0xDC00) + 0x10000)).toNat = _ :=
      Utf8.toNat_ofNat (by omega)
    rw [written,Paired,if_pos ⟨⟨least,most⟩,low,high⟩,if_pos ⟨⟨least,most⟩,low,high⟩,← scalar,utf8_char,Utf8.valid_cons_iff]
    exact ih
  | case5 first second items apart ih =>
    rw [written,Paired,if_neg apart,if_neg apart,alone_valid,ih]
  | case6 first items noPair ih =>
    rw [written,Paired,alone_valid,ih]
    · exact noPair
    · exact noPair

theorem written_single {digits : Digits} (single : ¬ High digits.value) (items : List Item) :
    written (.unicode digits :: items) = utf8 digits.value ++ written items := by
  have alone_ : alone digits = utf8 digits.value := if_neg single
  rw [← alone_]
  match items with
  | .unicode second :: items =>
    rw [written]
    exact if_neg fun both => single both.1
  | [] => rfl
  | .raw c plain :: items => rfl
  | .short e letter :: items => rfl

theorem shortEscapes_known : ∀ p ∈ shortEscapes, p.1 < 0x80 ∧ p.2.toNat < 0x80 ∧ p.2.toNat ≠ 117 ∧ unescape p.2 = [UInt8.ofNat p.1] := by
  decide

/-- A spelling is one item or two, and what is written for them is the scalar value. -/
theorem Spells.items {c : Char} {bytes : List UInt8} (spells : Spells c bytes) :
    ∃ items, items.flatMap Item.text = bytes ∧
      ∀ later, written (items ++ later) = String.utf8EncodeChar c ++ written later := by
  have scalar : c.toNat < 0xD800 ∨ 0xDFFF < c.toNat ∧ c.toNat < 0x110000 := c.valid
  cases spells with
  | raw plain => exact ⟨[.raw c plain.2],by simp [Item.text],fun later => rfl⟩
  | @short e known =>
    obtain ⟨small,ascii,letter,read⟩ := shortEscapes_known _ known
    dsimp only at small ascii letter read
    have same : (Char.ofNat e.toNat).toNat = e.toNat := Utf8.toNat_ofNat (.inl (by omega))
    refine ⟨[.short (Char.ofNat e.toNat) (by rw [same]; exact letter)],?_,fun later => ?_⟩
    · simp [Item.text,Utf8.encodeChar_small (same.symm ▸ ascii),same]
    · rw [List.singleton_append,written,unescaped,same,if_pos ascii,UInt8.ofNat_toNat,read,Utf8.encodeChar_small small]
  | @unicode digits below hex =>
    obtain ⟨ds,rfl,value⟩ := hex.digits below
    refine ⟨[.unicode ds],by simp [Item.text],fun later => ?_⟩
    have single : ¬ High ds.value := fun high => by
      have := high.1
      have := high.2
      omega
    rw [List.singleton_append,written_single single,value,utf8_char]
  | @pair high low above first second =>
    obtain ⟨hi,rfl,highIs⟩ := first.digits (by omega)
    obtain ⟨lo,rfl,lowIs⟩ := second.digits (by omega)
    refine ⟨[.unicode hi,.unicode lo],by simp [Item.text],fun later => ?_⟩
    have both : High hi.value ∧ Low lo.value := by
      unfold High Low
      omega
    have sum : (hi.value - 0xD800) * 1024 + (lo.value - 0xDC00) + 0x10000 = c.toNat := by omega
    rw [List.cons_append,List.cons_append,List.nil_append,written,if_pos both,sum,utf8_char]

theorem spelled_items (spelled : List (Char × List UInt8)) (spells : ∀ p ∈ spelled, Spells p.1 p.2) :
    ∃ items, text items false = spelled.flatMap Prod.snd ∧ written items = Utf8.encode (spelled.map Prod.fst) := by
  induction spelled with
  | nil => exact ⟨[],rfl,rfl⟩
  | cons p spelled ih =>
    obtain ⟨later,rest,writes⟩ := ih fun q member => spells q (List.mem_cons_of_mem p member)
    obtain ⟨front,here,first⟩ := (spells p List.mem_cons_self).items
    refine ⟨front ++ later,?_,?_⟩
    · rw [List.flatMap_cons,← rest,← here,text,text,List.flatMap_append,List.append_assoc]
    · rw [first later,writes,List.map_cons,Utf8.encode_cons]

/-- Every way to write a sequence of scalar values is decoded to their encoding, and the
    result is UTF-8 for exactly those texts whose surrogates are paired and whose
    backslashes stand before single bytes. -/
theorem decode_unescapes (spelled : List (Char × List UInt8)) (items : List Item) (slash : Bool) :
    ((∀ p ∈ spelled, Spells p.1 p.2) →
      decoded (spelled.flatMap Prod.snd) =
        some ((Utf8.encode (spelled.map Prod.fst)).length,Utf8.encode (spelled.map Prod.fst))) ∧
    ∃ out, decoded (text items slash) = some (out.length,out) ∧ (Utf8.Valid out ↔ Paired items) := by
  refine ⟨fun spells => ?_,written items,decoded_text items slash,written_valid items⟩
  obtain ⟨items,shape,writes⟩ := spelled_items spelled spells
  rw [← shape,decoded_text,writes]

theorem low_hex : ∀ d ∈ ([100,99,48,48] : List UInt8), (hexDigit d).isSome := by
  intro d inside
  simp only [List.mem_cons,List.not_mem_nil,or_false] at inside
  rcases inside with rfl | rfl | rfl | rfl <;> rfl

/-- The digits of `DC00`. -/
def lowDigits : Digits := ⟨[100,99,48,48],rfl,low_hex⟩

/-- A low surrogate by itself is encoded. -/
theorem lone_surrogate_encoded :
    text [.unicode lowDigits] false = [92,117,100,99,48,48] ∧
      decoded [92,117,100,99,48,48] = some (3,[0xED,0xB0,0x80]) ∧ ¬ Utf8.Valid [0xED,0xB0,0x80] := by
  refine ⟨rfl,decoded_text [.unicode lowDigits] false,?_⟩
  exact Utf8.not_valid_surrogate rfl (by decide) _

/-- A backslash takes the first byte of what stands behind it. -/
example : decoded (text [.short (Char.ofNat 0xE9) (by decide)] false) = some (1,[0xA9]) := decoded_text _ _

end AnotherC.JsonDecode
