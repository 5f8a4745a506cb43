import Mathlib.Data.List.Basic

/-!
UTF-8 as a concatenation of encoded scalar values, read from the front: a text begins
with one scalar value at most, and neither with a continuation byte nor with an encoded
surrogate.
-/
namespace AnotherC.Lib.Utf8
set_option linter.unusedVariables false

/-- The encoding of a sequence of scalar values. -/
def encode (cs : List Char) : List UInt8 := cs.flatMap String.utf8EncodeChar

/-- Bytes that encode some sequence of scalar values. -/
def Valid (bytes : List UInt8) : Prop := ∃ cs, bytes = encode cs

/-- `80`, ..., `BF`. -/
def Continues (b : UInt8) : Prop := 0x80 ≤ b.toNat ∧ b.toNat < 0xC0

@[simp] theorem encode_nil : encode [] = [] := rfl
@[simp] theorem encode_cons (c : Char) (cs : List Char) : encode (c :: cs) = String.utf8EncodeChar c ++ encode cs := rfl
@[simp] theorem encode_append (cs ds : List Char) : encode (cs ++ ds) = encode cs ++ encode ds := List.flatMap_append

theorem valid_nil : Valid [] := ⟨[],rfl⟩

theorem valid_encode (cs : List Char) : Valid (encode cs) := ⟨cs,rfl⟩

/-- The four shapes of an encoded scalar value. -/
theorem encodeChar_cases (c : Char) :
    (c.toNat < 0x80 ∧ String.utf8EncodeChar c = [UInt8.ofNat c.toNat]) ∨
    (0x80 ≤ c.toNat ∧ c.toNat < 0x800 ∧
      String.utf8EncodeChar c = [UInt8.ofNat (c.toNat / 64 + 0xC0),UInt8.ofNat (c.toNat % 64 + 0x80)]) ∨
    (0x800 ≤ c.toNat ∧ c.toNat < 0x10000 ∧ (c.toNat < 0xD800 ∨ 0xDFFF < c.toNat) ∧ String.utf8EncodeChar c =
      [UInt8.ofNat (c.toNat / 4096 + 0xE0),UInt8.ofNat (c.toNat / 64 % 64 + 0x80),UInt8.ofNat (c.toNat % 64 + 0x80)]) ∨
    (0x10000 ≤ c.toNat ∧ c.toNat < 0x110000 ∧ String.utf8EncodeChar c =
      [UInt8.ofNat (c.toNat / 262144 + 0xF0),UInt8.ofNat (c.toNat / 4096 % 64 + 0x80),UInt8.ofNat (c.toNat / 64 % 64 + 0x80),
        UInt8.ofNat (c.toNat % 64 + 0x80)]) := by
  have scalar : c.toNat < 0xD800 ∨ 0xDFFF < c.toNat ∧ c.toNat < 0x110000 := c.valid
  have shape : String.utf8EncodeChar c =
      if c.toNat ≤ 0x7f then [UInt8.ofNat c.toNat]
      else if c.toNat ≤ 0x7ff then [UInt8.ofNat (c.toNat / 64 % 0x20 + 0xc0),UInt8.ofNat (c.toNat % 0x40 + 0x80)]
      else if c.toNat ≤ 0xffff then
        [UInt8.ofNat (c.toNat / 4096 % 0x10 + 0xe0),UInt8.ofNat (c.toNat / 64 % 0x40 + 0x80),UInt8.ofNat (c.toNat % 0x40 + 0x80)]
      else
        [UInt8.ofNat (c.toNat / 262144 % 0x08 + 0xf0),UInt8.ofNat (c.toNat / 4096 % 0x40 + 0x80),
          UInt8.ofNat (c.toNat / 64 % 0x40 + 0x80),UInt8.ofNat (c.toNat % 0x40 + 0x80)] := by
    simp only [String.utf8EncodeChar,UInt8.ofNat_add]
    rfl
  rw [shape]
  by_cases one : c.toNat ≤ 0x7f
  · exact .inl ⟨by omega,if_pos one⟩
  · rw [if_neg one]
    by_cases two : c.toNat ≤ 0x7ff
    · refine .inr (.inl ⟨by omega,by omega,?_⟩)
      rw [if_pos two,Nat.mod_eq_of_lt (show c.toNat / 64 < 0x20 by omega)]
    · rw [if_neg two]
      by_cases three : c.toNat ≤ 0xffff
      · refine .inr (.inr (.inl ⟨by omega,by omega,by omega,?_⟩))
        rw [if_pos three,Nat.mod_eq_of_lt (show c.toNat / 4096 < 0x10 by omega)]
      · refine .inr (.inr (.inr ⟨by omega,by omega,?_⟩))
        rw [if_neg three,Nat.mod_eq_of_lt (show c.toNat / 262144 < 8 by omega)]

theorem encodeChar_ne_nil (c : Char) : String.utf8EncodeChar c ≠ [] := String.utf8EncodeChar_ne_nil

/-- No encoding is the beginning of another. -/
theorem encodeChar_prefix {c d : Char} {xs ys : List UInt8}
    (same : String.utf8EncodeChar c ++ xs = String.utf8EncodeChar d ++ ys) : c = d ∧ xs = ys := by
  have front : c = d := by
    have first := ByteArray.utf8DecodeChar?_utf8EncodeChar_append (b := xs.toByteArray) (c := c)
    have second := ByteArray.utf8DecodeChar?_utf8EncodeChar_append (b := ys.toByteArray) (c := d)
    rw [← List.toByteArray_append,same,List.toByteArray_append,second] at first
    exact (Option.some.inj first).symm
  subst front
  exact ⟨rfl,List.append_cancel_left same⟩

/-- An encoded scalar value can be taken off. -/
theorem valid_cons_iff (c : Char) (xs : List UInt8) : Valid (String.utf8EncodeChar c ++ xs) ↔ Valid xs := by
  constructor
  · rintro ⟨cs,same⟩
    cases cs with
    | nil =>
      have none := (List.append_eq_nil_iff.mp same).1
      exact absurd none (encodeChar_ne_nil c)
    | cons d cs =>
      obtain ⟨_,rest⟩ := encodeChar_prefix same
      exact ⟨cs,rest⟩
  · rintro ⟨cs,rfl⟩
    exact ⟨c :: cs,rfl⟩

theorem valid_encode_iff (cs : List Char) (xs : List UInt8) : Valid (encode cs ++ xs) ↔ Valid xs := by
  induction cs with
  | nil => exact Iff.rfl
  | cons c cs ih =>
    rw [encode_cons,List.append_assoc,valid_cons_iff]
    exact ih

/-- No text begins with a continuation byte. -/
theorem not_valid_continues {b : UInt8} (continues : Continues b) (xs : List UInt8) : ¬ Valid (b :: xs) := by
  rintro ⟨cs,same⟩
  cases cs with
  | nil => cases same
  | cons c cs =>
    obtain ⟨low,high⟩ := continues
    rw [encode_cons] at same
    rcases encodeChar_cases c with ⟨_,shape⟩ | ⟨_,_,shape⟩ | ⟨_,_,_,shape⟩ | ⟨_,_,shape⟩
    all_goals
      rw [shape,List.cons_append] at same
      have first := congrArg UInt8.toNat (List.cons.inj same).1
      simp only [UInt8.toNat_ofNat'] at first
      omega

/-- No text begins with an encoded surrogate. -/
theorem not_valid_surrogate {a b : UInt8} (lead : a.toNat = 0xED) (second : 0xA0 ≤ b.toNat) (xs : List UInt8) :
    ¬ Valid (a :: b :: xs) := by
  rintro ⟨cs,same⟩
  cases cs with
  | nil => cases same
  | cons c cs =>
    have small := b.toNat_lt
    rw [encode_cons] at same
    rcases encodeChar_cases c with ⟨_,shape⟩ | ⟨_,_,shape⟩ | ⟨_,_,_,shape⟩ | ⟨_,_,shape⟩
    case inr.inr.inl =>
      rw [shape,List.cons_append,List.cons_append] at same
      have first := congrArg UInt8.toNat (List.cons.inj same).1
      have next := congrArg UInt8.toNat (List.cons.inj (List.cons.inj same).2).1
      simp only [UInt8.toNat_ofNat'] at first next
      omega
    all_goals
      rw [shape,List.cons_append] at same
      have first := congrArg UInt8.toNat (List.cons.inj same).1
      simp only [UInt8.toNat_ofNat'] at first
      omega

/-- Behind the first byte of an encoded scalar value of two bytes or more. -/
theorem encodeChar_tail {c : Char} (large : 0x80 ≤ c.toNat) :
    ∃ a b rest, String.utf8EncodeChar c = a :: b :: rest ∧ 0x80 ≤ a.toNat ∧ Continues b := by
  rcases encodeChar_cases c with ⟨_,shape⟩ | ⟨_,_,shape⟩ | ⟨_,_,_,shape⟩ | ⟨_,_,shape⟩
  · omega
  all_goals
    refine ⟨_,_,_,shape,?_,?_,?_⟩
    all_goals
      simp only [UInt8.toNat_ofNat']
      omega

/-- The bytes of an encoded scalar value from `80` on. -/
theorem encodeChar_large {c : Char} (large : 0x80 ≤ c.toNat) : ∀ b ∈ String.utf8EncodeChar c, 0x80 ≤ b.toNat := by
  rcases encodeChar_cases c with ⟨_,shape⟩ | ⟨_,_,shape⟩ | ⟨_,_,_,shape⟩ | ⟨_,_,shape⟩
  · omega
  all_goals
    rw [shape]
    simp only [List.mem_cons,List.not_mem_nil,or_false,forall_eq_or_imp,forall_eq,UInt8.toNat_ofNat']
    omega

theorem encodeChar_small {c : Char} (small : c.toNat < 0x80) : String.utf8EncodeChar c = [UInt8.ofNat c.toNat] := by
  rcases encodeChar_cases c with ⟨_,shape⟩ | ⟨_,_,_⟩ | ⟨_,_,_,_⟩ | ⟨_,_,_⟩
  · exact shape
  all_goals omega

theorem toNat_ofNat {n : Nat} (scalar : n < 0xD800 ∨ 0xDFFF < n ∧ n < 0x110000) : (Char.ofNat n).toNat = n := by
  have valid : n.isValidChar := scalar
  rw [Char.ofNat,dif_pos valid]
  rfl

/-- Bytes below `80` are scalar values. -/
theorem ascii_encode (bytes : List UInt8) (small : ∀ b ∈ bytes, b.toNat < 0x80) : ∃ cs, bytes = encode cs := by
  induction bytes with
  | nil => exact ⟨[],rfl⟩
  | cons b bytes ih =>
    obtain ⟨cs,rest⟩ := ih fun c member => small c (List.mem_cons_of_mem b member)
    have below := small b List.mem_cons_self
    have same : (Char.ofNat b.toNat).toNat = b.toNat := toNat_ofNat (.inl (by omega))
    refine ⟨Char.ofNat b.toNat :: cs,?_⟩
    rw [encode_cons,encodeChar_small (by omega),same,UInt8.ofNat_toNat,rest]
    rfl

end AnotherC.Lib.Utf8
