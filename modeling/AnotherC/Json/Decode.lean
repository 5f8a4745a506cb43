import AnotherC.Json.Encode

/-!
# The bounds of `ac_json_decode`

The decoder with its result buffer: a read past the NUL of the text and a write past
the result are `none`. `decode_safe_iff` says which texts it decodes within both. An
escape `\u` that is not well formed is copied as six bytes, also where the text ends
before them.
-/
namespace AnotherC.JsonDecode
open AnotherC.AcJson (backslash hexDigit hexDigits utf8 unicodeToUtf8 unescape plainFront)
set_option linter.unusedVariables false

/-! ## The decoder -/

/-- Writes to a result of this many bytes, behind what was written. -/
def write (capacity : Nat) (out bytes : List UInt8) : Option (List UInt8) :=
  if out.length + bytes.length ≤ capacity then some (out ++ bytes) else none

/-- One round of the loop of `_ac_json_decode` at `p`: what it writes, and how far `p`
    moves. -/
def round : List UInt8 → Option (List UInt8 × Nat)
  | [] => none
  | ch :: rest =>
    if ch ≠ backslash then some ([ch],1)
    else
      match rest with
      | [] => none
      | e :: digits =>
        if e ≠ 117 then some (unescape e,2)
        else
          match unicodeToUtf8 digits with
          | none => none
          | some none => if (ch :: rest).length < 6 then none else some ((ch :: rest).take 6,6)
          | some (some (bytes,after)) => some (bytes,2 + (digits.length - after.length))

/-- The loop, for `n` bytes up to `ep`, and the NUL behind the result. -/
def decodeFrom (capacity : Nat) (s : List UInt8) (n : Nat) (out : List UInt8) : Option (List UInt8) :=
  match n with
  | 0 => (write capacity out [0]).map fun _ => out
  | n + 1 =>
    match round s with
    | none => none
    | some (bytes,k) =>
      match write capacity out bytes with
      | none => none
      | some out => decodeFrom capacity (s.drop k) (n - (k - 1)) out
termination_by n

/-- `_ac_json_decode`, with `p` at `pos`. -/
def decode (s : List UInt8) (pos length : Nat) : Option (List UInt8) :=
  (write (length + 1) [] (s.take pos)).bind fun out => decodeFrom (length + 1) (s.drop pos) (length - pos) out

/-- `ac_json_decode`: the result, or `s` itself. -/
def acJsonDecode (s : List UInt8) (length : Nat) : Option (Option (List UInt8)) :=
  match plainFront s length with
  | none => none
  | some plain => if plain.length = length then some none else (decode s plain.length length).map some

/-- `ac_json_decode2`: what it reports, and the result, or `s` itself. -/
def acJsonDecode2 (s : List UInt8) (length : Nat) : Option (Nat × Option (List UInt8)) :=
  match plainFront s length with
  | none => none
  | some plain =>
    if plain.length = length then some (length,none) else (decode s plain.length length).map fun out => (out.length,some out)

/-! ## Which texts are decoded in bounds -/

/-- Both decoders stay within the text with its NUL and within the result. -/
def InBounds (s : List UInt8) : Prop :=
  (∃ r, acJsonDecode (s ++ [0]) s.length = some r) ∧
    ∃ rlen r, acJsonDecode2 (s ++ [0]) s.length = some (rlen,r) ∧ rlen ≤ s.length

/-- An escape `\u` without four digits, or a first surrogate without a second. -/
def broken : List UInt8 → Bool
  | c :: e :: digits => c = backslash ∧ e = 117 ∧ unicodeToUtf8 (digits ++ [0]) = some none
  | _ => false

/-- An escape that is not broken. -/
def shortens (s : List UInt8) : Bool := s.head? = some backslash ∧ broken s = false

/-- How many bytes the byte or the escape at the front takes. -/
def width : List UInt8 → Nat
  | [] => 0
  | c :: rest =>
    if c ≠ backslash then 1
    else
      match rest with
      | [] => 2
      | e :: digits =>
        if e ≠ 117 then 2
        else
          match unicodeToUtf8 (digits ++ [0]) with
          | some (some (_,after)) => 2 + ((digits ++ [0]).length - after.length)
          | _ => 6

/-- A byte or an escape of the text begins here, and whether one before it was shortened. -/
inductive At (s : List UInt8) : Nat → Bool → Prop
  | start : At s 0 false
  | next {i : Nat} {b : Bool} (here : At s i b) (inside : i < s.length) : At s (i + width (s.drop i)) (b || shortens (s.drop i))

/-- Six bytes follow each broken escape, or five, and an escape before it was shortened. -/
def EscapesFit (s : List UInt8) : Prop :=
  ∀ i b, At s i b → i < s.length → broken (s.drop i) = true → i + 6 ≤ s.length ∨ i + 5 = s.length ∧ b = true

section
variable {s l out bytes : List UInt8} {n k i capacity : Nat} {b : Bool}

/-! ## Escapes -/

/-- Digits are looked for up to the NUL at most. -/
theorem hexDigits_stop (n ch : Nat) (l : List UInt8) :
    hexDigits n ch (l ++ [0]) = some none ∨
      ∃ ch' digits after, digits.length = n ∧ l = digits ++ after ∧ hexDigits n ch (l ++ [0]) = some (some (ch',after ++ [0])) := by
  induction n generalizing ch l with
  | zero => exact .inr ⟨ch,[],l,rfl,rfl,rfl⟩
  | succ n ih =>
    cases l with
    | nil => exact .inl rfl
    | cons c l =>
      rw [List.cons_append,hexDigits]
      cases digit : hexDigit c with
      | none => exact .inl rfl
      | some d =>
        rcases ih (ch * 16 + d) l with none_ | ⟨ch',digits,after,length,shape,read⟩
        · exact .inl none_
        · exact .inr ⟨ch',c :: digits,after,by rw [List.length_cons,length],by rw [shape,List.cons_append],read⟩

theorem utf8_length (ch : Nat) : (utf8 ch).length ≤ 4 := by
  rw [utf8]
  split_ifs <;> simp

theorem unicode_stop (l : List UInt8) :
    unicodeToUtf8 (l ++ [0]) = some none ∨
      ∃ bytes digits after, l = digits ++ after ∧ unicodeToUtf8 (l ++ [0]) = some (some (bytes,after ++ [0])) ∧ 4 ≤ digits.length ∧
        bytes.length ≤ 4 := by
  rcases hexDigits_stop 4 0 l with none_ | ⟨ch,digits,after,length,shape,read⟩
  · refine .inl ?_
    rw [unicodeToUtf8,none_]
    rfl
  have whole := unicodeToUtf8.eq_1 (l ++ [0])
  rw [read] at whole
  simp only [Option.bind_eq_bind,Option.bind_some] at whole
  by_cases surrogate : 0xD800 ≤ ch ∧ ch ≤ 0xDBFF
  · rw [if_pos surrogate] at whole
    cases after with
    | nil => exact .inl whole
    | cons c after =>
      simp only [List.cons_append] at whole
      by_cases slash : c ≠ backslash
      · rw [if_pos slash] at whole
        exact .inl whole
      rw [if_neg slash] at whole
      cases after with
      | nil => exact .inl whole
      | cons u after =>
        simp only [List.cons_append] at whole
        by_cases letter : u ≠ 117
        · rw [if_pos letter] at whole
          exact .inl whole
        rw [if_neg letter] at whole
        rcases hexDigits_stop 4 0 after with none_ | ⟨ch2,digits2,after2,length2,shape2,read2⟩
        · rw [none_] at whole
          exact .inl whole
        · rw [read2,Option.bind_some] at whole
          simp only at whole
          by_cases second : ch2 < 0xDC00 ∨ ch2 > 0xDFFF
          · rw [if_pos second] at whole
            exact .inl whole
          · rw [if_neg second] at whole
            refine .inr ⟨_,digits ++ [c,u] ++ digits2,after2,?_,whole,?_,utf8_length _⟩
            · rw [shape,shape2]
              simp
            · rw [List.length_append,List.length_append,length]
              omega
  · rw [if_neg surrogate] at whole
    exact .inr ⟨_,digits,after,shape,whole,Nat.le_of_eq length.symm,utf8_length ch⟩

theorem hexDigits_suffix {n ch ch' : Nat} {l after : List UInt8} (read : hexDigits n ch l = some (some (ch',after))) :
    ∃ digits, l = digits ++ after := by
  induction n generalizing ch l with
  | zero =>
    cases read
    exact ⟨[],rfl⟩
  | succ n ih =>
    cases l with
    | nil => cases read
    | cons c l =>
      rw [hexDigits] at read
      cases digit : hexDigit c with
      | none =>
        rw [digit] at read
        cases read
      | some d =>
        rw [digit] at read
        obtain ⟨digits,shape⟩ := ih read
        exact ⟨c :: digits,by rw [shape,List.cons_append]⟩

theorem unicode_suffix {l after bytes : List UInt8} (read : unicodeToUtf8 l = some (some (bytes,after))) : ∃ front, l = front ++ after := by
  rw [unicodeToUtf8] at read
  obtain ⟨first,digits,read⟩ := Option.bind_eq_some_iff.mp read
  cases first with
  | none => cases read
  | some pair =>
    obtain ⟨ch,rest⟩ := pair
    obtain ⟨front,shape⟩ := hexDigits_suffix digits
    dsimp only at read
    by_cases surrogate : 0xD800 ≤ ch ∧ ch ≤ 0xDBFF
    · rw [if_pos surrogate] at read
      match rest,read with
      | c :: rest,read =>
        dsimp only at read
        by_cases slash : c ≠ backslash
        · rw [if_pos slash] at read
          cases read
        rw [if_neg slash] at read
        match rest,read with
        | u :: rest,read =>
          dsimp only at read
          by_cases letter : u ≠ 117
          · rw [if_pos letter] at read
            cases read
          rw [if_neg letter] at read
          obtain ⟨second,digits',read⟩ := Option.bind_eq_some_iff.mp read
          cases second with
          | none => cases read
          | some pair =>
            obtain ⟨ch2,last⟩ := pair
            obtain ⟨front',shape'⟩ := hexDigits_suffix digits'
            dsimp only at read
            by_cases outside : ch2 < 0xDC00 ∨ ch2 > 0xDFFF
            · rw [if_pos outside] at read
              cases read
            · rw [if_neg outside] at read
              have last_ := (Prod.mk.inj (Option.some.inj (Option.some.inj read))).2
              refine ⟨front ++ [c,u] ++ front',?_⟩
              rw [shape,shape',last_]
              simp
    · rw [if_neg surrogate] at read
      have last_ := (Prod.mk.inj (Option.some.inj (Option.some.inj read))).2
      exact ⟨front,by rw [shape,last_]⟩

theorem unescape_length (e : UInt8) : (unescape e).length ≤ 1 := by
  rw [unescape]
  split_ifs <;> simp

/-! ## Rounds -/

/-- A round at a broken escape copies six bytes. -/
theorem round_broken (broken_ : broken l = true) :
    width l = 6 ∧ shortens l = false ∧
      round (l ++ [0]) = if (l ++ [0]).length < 6 then none else some ((l ++ [0]).take 6,6) := by
  match l,broken_ with
  | [],no => cases no
  | [_],no => cases no
  | c :: e :: digits,yes =>
    have shape := yes
    rw [broken,decide_eq_true_eq] at shape
    obtain ⟨rfl,rfl,failed⟩ := shape
    refine ⟨?_,?_,?_⟩
    · rw [width]
      simp [failed]
    · simp [shortens,yes]
    · simp only [List.cons_append,round,failed,ne_eq,not_true_eq_false,if_false]

/-- Any other round stays within the text, and writes less than it reads at an escape. -/
theorem round_kept (some_ : l ≠ []) (kept : broken l = false) :
    ∃ bytes, round (l ++ [0]) = some (bytes,width l) ∧ 1 ≤ width l ∧ width l ≤ l.length + 1 ∧
      (shortens l = false → width l ≤ l.length ∧ bytes.length = width l) ∧ (shortens l = true → bytes.length < width l) := by
  cases l with
  | nil => exact absurd rfl some_
  | cons c rest =>
    rw [List.cons_append]
    unfold round width
    dsimp only
    by_cases plain : c ≠ backslash
    · have no : shortens (c :: rest) = false := by simp [shortens,plain]
      rw [no,if_pos plain,if_pos plain]
      exact ⟨[c],rfl,Nat.le_refl _,by simp,fun _ => ⟨by simp,rfl⟩,fun no => (by cases no)⟩
    have slash : c = backslash := Decidable.not_not.mp plain
    subst slash
    have yes : shortens (backslash :: rest) = true := by simp [shortens,kept]
    rw [yes,if_neg plain,if_neg plain]
    cases rest with
    | nil => exact ⟨unescape 0,rfl,by decide,by decide,fun no => (by cases no),fun _ => by decide⟩
    | cons e digits =>
      simp only [List.cons_append]
      by_cases letter : e ≠ 117
      · rw [if_pos letter,if_pos letter]
        have short := unescape_length e
        refine ⟨_,rfl,by decide,?_,fun no => (by cases no),fun _ => by omega⟩
        simp only [List.length_cons]
        omega
      · have u : e = 117 := Decidable.not_not.mp letter
        subst u
        rw [if_neg letter,if_neg letter]
        rcases unicode_stop digits with failed | ⟨bytes,front,after,shape,read,four,most⟩
        · have broken_ : broken (backslash :: 117 :: digits) = true := by simp [broken,failed]
          rw [broken_] at kept
          cases kept
        · have total := congrArg List.length shape
          rw [List.length_append] at total
          rw [read]
          simp only [List.length_append,List.length_cons,List.length_nil]
          refine ⟨bytes,rfl,by omega,by omega,fun no => (by cases no),fun _ => by omega⟩

/-- One round of the loop. -/
theorem decodeFrom_round (more : 0 < n) (here : round s = some (bytes,k)) (least : 1 ≤ k) :
    decodeFrom capacity s n out = (write capacity out bytes).bind fun out => decodeFrom capacity (s.drop k) (n - k) out := by
  cases n with
  | zero => cases more
  | succ n =>
    have same : n - (k - 1) = n + 1 - k := by omega
    rw [decodeFrom,here]
    simp only [same]
    cases write capacity out bytes <;> rfl

/-! ## Runs -/

/-- What was written is as long as what was read, or shorter behind an escape. -/
def Behind (out : List UInt8) (i : Nat) : Bool → Prop
  | false => out.length = i
  | true => out.length < i

theorem behind_next {j : Nat} (behind : Behind out i b) (same : shortens l = false → bytes.length = j)
    (less : shortens l = true → bytes.length < j) : Behind (out ++ bytes) (i + j) (b || shortens l) := by
  cases shorter : shortens l with
  | false =>
    have equal := same shorter
    cases b with
    | false =>
      rw [Behind] at behind
      show (out ++ bytes).length = i + j
      rw [List.length_append,behind,equal]
    | true =>
      rw [Behind] at behind
      show (out ++ bytes).length < i + j
      rw [List.length_append]
      omega
  | true =>
    have below := less shorter
    have most : out.length ≤ i := by
      cases b with
      | false => exact Nat.le_of_eq behind
      | true => exact Nat.le_of_lt behind
    rw [Bool.or_true]
    show (out ++ bytes).length < i + j
    rw [List.length_append]
    omega

theorem drop_text (inside : i ≤ s.length) : (s ++ [0]).drop i = s.drop i ++ [0] := List.drop_append_of_le_length inside

/-- What was written stays, and the NUL goes behind it. -/
theorem decodeFrom_room {r : List UInt8} (done : decodeFrom capacity s n out = some r) : out.length ≤ r.length ∧ r.length + 1 ≤ capacity := by
  induction n using Nat.strong_induction_on generalizing s out with
  | _ n ih =>
    cases n with
    | zero =>
      rw [decodeFrom,write] at done
      by_cases room : out.length + [(0 : UInt8)].length ≤ capacity
      · rw [if_pos room] at done
        cases done
        exact ⟨Nat.le_refl _,room⟩
      · rw [if_neg room] at done
        cases done
    | succ n =>
      rw [decodeFrom] at done
      cases here : round s with
      | none =>
        rw [here] at done
        cases done
      | some pair =>
        obtain ⟨bytes,k⟩ := pair
        rw [here] at done
        simp only [write] at done
        by_cases room : out.length + bytes.length ≤ capacity
        · rw [if_pos room] at done
          obtain ⟨kept,fits⟩ := ih (n - (k - 1)) (by omega) done
          rw [List.length_append] at kept
          exact ⟨by omega,fits⟩
        · rw [if_neg room] at done
          cases done

/-- A run that ends gets to every byte and every escape. -/
theorem at_reached {r : List UInt8} (done : decodeFrom (s.length + 1) (s ++ [0]) s.length [] = some r) (here : At s i b) :
    ∃ out, decodeFrom (s.length + 1) ((s ++ [0]).drop i) (s.length - i) out = some r ∧ Behind out i b := by
  induction here with
  | start => exact ⟨[],done,rfl⟩
  | @next i b here inside ih =>
    obtain ⟨out,done',behind⟩ := ih
    have some_ : s.drop i ≠ [] := by
      intro empty
      have short := List.drop_eq_nil_iff.mp empty
      omega
    have step : ∀ {bytes k}, round ((s ++ [0]).drop i) = some (bytes,k) → 1 ≤ k → k = width (s.drop i) →
        (shortens (s.drop i) = false → bytes.length = k) → (shortens (s.drop i) = true → bytes.length < k) →
        ∃ out, decodeFrom (s.length + 1) ((s ++ [0]).drop (i + width (s.drop i))) (s.length - (i + width (s.drop i))) out = some r ∧
          Behind out (i + width (s.drop i)) (b || shortens (s.drop i)) := by
      intro bytes k now least wide same less
      rw [decodeFrom_round (by omega) now least] at done'
      obtain ⟨out',written,rest⟩ := Option.bind_eq_some_iff.mp done'
      rw [write] at written
      by_cases room : out.length + bytes.length ≤ s.length + 1
      · rw [if_pos room] at written
        cases written
        rw [List.drop_drop,Nat.sub_sub] at rest
        rw [← wide]
        exact ⟨out ++ bytes,rest,behind_next behind same less⟩
      · rw [if_neg room] at written
        cases written
    cases kept : broken (s.drop i) with
    | true =>
      obtain ⟨six,no,now⟩ := round_broken kept
      rw [← drop_text (Nat.le_of_lt inside)] at now
      by_cases short : ((s ++ [0]).drop i).length < 6
      · rw [if_pos short] at now
        obtain ⟨n,n_eq⟩ : ∃ n, s.length - i = n + 1 := ⟨s.length - i - 1,by omega⟩
        rw [n_eq,decodeFrom,now] at done'
        cases done'
      · rw [if_neg short] at now
        refine step now (by decide) six.symm (fun _ => ?_) fun yes => ?_
        · rw [List.length_take]
          omega
        · rw [no] at yes
          cases yes
    | false =>
      obtain ⟨bytes,now,least,_,same,less⟩ := round_kept some_ kept
      rw [← drop_text (Nat.le_of_lt inside)] at now
      exact step now least rfl (fun no => (same no).2) less

/-- Where the escapes fit, the run ends. -/
theorem run_ends (fits : EscapesFit s) (here : At s i b) (behind : Behind out i b) (bound : i ≤ s.length ∨ i = s.length + 1 ∧ b = true) :
    ∃ r, decodeFrom (s.length + 1) ((s ++ [0]).drop i) (s.length - i) out = some r := by
  obtain ⟨n,n_eq⟩ : ∃ n, n = s.length - i := ⟨_,rfl⟩
  induction n using Nat.strong_induction_on generalizing i b out with
  | _ n ih =>
    have short : out.length ≤ s.length := by
      rcases bound with inside | ⟨beyond,yes⟩
      · cases b with
        | false =>
          rw [Behind] at behind
          omega
        | true =>
          rw [Behind] at behind
          omega
      · subst yes
        rw [Behind] at behind
        omega
    by_cases last : s.length - i = 0
    · rw [last,decodeFrom,write,if_pos (show out.length + [(0 : UInt8)].length ≤ s.length + 1 from Nat.succ_le_succ short)]
      exact ⟨_,rfl⟩
    have inside : i < s.length := by omega
    have some_ : s.drop i ≠ [] := by
      intro empty
      have none_ := List.drop_eq_nil_iff.mp empty
      omega
    have length : (s.drop i).length = s.length - i := List.length_drop
    have step : ∀ {bytes k}, round ((s ++ [0]).drop i) = some (bytes,k) → 1 ≤ k → k = width (s.drop i) →
        (shortens (s.drop i) = false → bytes.length = k) → (shortens (s.drop i) = true → bytes.length < k) →
        (i + k ≤ s.length ∨ i + k = s.length + 1 ∧ (b || shortens (s.drop i)) = true) →
        ∃ r, decodeFrom (s.length + 1) ((s ++ [0]).drop i) (s.length - i) out = some r := by
      intro bytes k now least wide same less bound'
      have behind' := behind_next behind same less
      have room : out.length + bytes.length ≤ s.length + 1 := by
        have most : (out ++ bytes).length ≤ i + k := by
          cases both : b || shortens (s.drop i) with
          | false =>
            rw [both] at behind'
            exact Nat.le_of_eq behind'
          | true =>
            rw [both] at behind'
            exact Nat.le_of_lt behind'
        rw [List.length_append] at most
        omega
      have next := At.next here inside
      rw [← wide] at next
      obtain ⟨r,done⟩ := ih (s.length - (i + k)) (by omega) next behind' bound' rfl
      rw [decodeFrom_round (by omega) now least,write,if_pos room,Option.bind_some,List.drop_drop,Nat.sub_sub]
      exact ⟨r,done⟩
    cases kept : broken (s.drop i) with
    | true =>
      obtain ⟨six,no,now⟩ := round_broken kept
      rw [← drop_text (Nat.le_of_lt inside)] at now
      have enough := fits i b here inside kept
      have whole : ((s ++ [0]).drop i).length = s.length + 1 - i := by rw [List.length_drop,List.length_append,List.length_singleton]
      rw [if_neg (by omega)] at now
      refine step now (by decide) six.symm (fun _ => ?_) (fun yes => ?_) ?_
      · rw [List.length_take]
        omega
      · rw [no] at yes
        cases yes
      · rw [no,Bool.or_false]
        rcases enough with room | ⟨five,yes⟩
        · exact .inl room
        · exact .inr ⟨congrArg Nat.succ five,yes⟩
    | false =>
      obtain ⟨bytes,now,least,most,same,less⟩ := round_kept some_ kept
      rw [← drop_text (Nat.le_of_lt inside)] at now
      refine step now least rfl (fun no => (same no).2) less ?_
      cases shorter : shortens (s.drop i) with
      | false =>
        have narrow := (same shorter).1
        omega
      | true =>
        by_cases room : i + width (s.drop i) ≤ s.length
        · exact .inl room
        · exact .inr ⟨by omega,Bool.or_true b⟩

theorem decodeFrom_fits : (∃ r, decodeFrom (s.length + 1) (s ++ [0]) s.length [] = some r) ↔ EscapesFit s := by
  constructor
  · rintro ⟨r,done⟩ i b here inside broken_
    obtain ⟨out,done',behind⟩ := at_reached done here
    obtain ⟨six,no,now⟩ := round_broken broken_
    rw [← drop_text (Nat.le_of_lt inside)] at now
    have whole : ((s ++ [0]).drop i).length = s.length + 1 - i := by rw [List.length_drop,List.length_append,List.length_singleton]
    obtain ⟨n,n_eq⟩ : ∃ n, s.length - i = n + 1 := ⟨s.length - i - 1,by omega⟩
    by_cases short : ((s ++ [0]).drop i).length < 6
    · rw [if_pos short] at now
      rw [n_eq,decodeFrom,now] at done'
      cases done'
    · rw [if_neg short] at now
      rw [decodeFrom_round (by omega) now (by decide)] at done'
      obtain ⟨out',written,rest⟩ := Option.bind_eq_some_iff.mp done'
      rw [write] at written
      split_ifs at written with room
      cases written
      obtain ⟨kept,bound⟩ := decodeFrom_room rest
      rw [List.length_append,List.length_take] at kept
      cases b with
      | false =>
        rw [Behind] at behind
        exact .inl (by omega)
      | true =>
        rw [Behind] at behind
        by_cases exact_ : i + 6 ≤ s.length
        · exact .inl exact_
        · exact .inr ⟨by omega,rfl⟩
  · intro fits
    exact run_ends fits .start rfl (.inl (Nat.zero_le _))

/-- The decoder without its result buffer writes the same. -/
theorem decodeFrom_loop {r : List UInt8} (done : decodeFrom capacity s n out = some r) :
    ∃ more, AcJson.decodeLoop s n = some more ∧ r = out ++ more := by
  induction n using Nat.strong_induction_on generalizing s out with
  | _ n ih =>
    cases n with
    | zero =>
      rw [decodeFrom] at done
      obtain ⟨_,_,same⟩ := Option.map_eq_some_iff.mp done
      exact ⟨[],by rw [AcJson.decodeLoop],by rw [← same,List.append_nil]⟩
    | succ n =>
      rw [decodeFrom] at done
      cases here : round s with
      | none =>
        rw [here] at done
        cases done
      | some pair =>
        obtain ⟨bytes,k⟩ := pair
        rw [here] at done
        simp only [write] at done
        split_ifs at done with room
        · obtain ⟨more,looped,same⟩ := ih (n - (k - 1)) (by omega) done
          refine ⟨bytes ++ more,?_,by rw [same,List.append_assoc]⟩
          unfold AcJson.decodeLoop
          cases s with
          | nil => cases here
          | cons ch rest =>
            unfold round at here
            dsimp only at here ⊢
            by_cases plain : ch ≠ backslash
            · rw [if_pos plain] at here ⊢
              cases here
              rw [show AcJson.decodeLoop rest n = some more from looped]
              rfl
            rw [if_neg plain] at here ⊢
            cases rest with
            | nil => cases here
            | cons e digits =>
              dsimp only at here ⊢
              by_cases letter : e ≠ 117
              · rw [if_pos letter] at here ⊢
                cases here
                rw [show AcJson.decodeLoop digits (n - 1) = some more from looped]
                rfl
              rw [if_neg letter] at here ⊢
              cases read : unicodeToUtf8 digits with
              | none =>
                rw [read] at here
                cases here
              | some escape =>
                rw [read] at here
                cases escape with
                | none =>
                  dsimp only at here ⊢
                  by_cases short : (ch :: e :: digits).length < 6
                  · rw [if_pos short] at here
                    cases here
                  · rw [if_neg short] at here ⊢
                    cases here
                    rw [show AcJson.decodeLoop ((ch :: e :: digits).drop 6) (n - 5) = some more from looped]
                    rfl
                | some pair =>
                  obtain ⟨bytes',after⟩ := pair
                  cases here
                  obtain ⟨front,shape⟩ := unicode_suffix read
                  have width_ : (ch :: e :: digits).drop (2 + (digits.length - after.length)) = after := by
                    rw [Nat.add_comm,List.drop_succ_cons,List.drop_succ_cons,shape,List.length_append,Nat.add_sub_cancel,List.drop_left]
                  have left : n - (2 + (digits.length - after.length) - 1) = n - 1 - (digits.length - after.length) := by omega
                  rw [width_,left] at looped
                  dsimp only
                  rw [looped]
                  rfl

/-! ## The text before the first escape -/

theorem plainFront_spec (s x : List UInt8) :
    ∃ plain rest, s = plain ++ rest ∧ plainFront (s ++ x) s.length = some plain ∧ (∀ c ∈ plain, c ≠ backslash) ∧
      (rest = [] → plain = s) ∧ (plain.length = s.length → rest = []) := by
  induction s with
  | nil => exact ⟨[],[],rfl,by simp [plainFront],by simp,fun _ => rfl,fun _ => rfl⟩
  | cons c s ih =>
    obtain ⟨plain,rest,shape,front,clean,whole,end_⟩ := ih
    rw [List.cons_append,List.length_cons,plainFront]
    by_cases slash : c = backslash
    · rw [if_pos slash]
      exact ⟨[],c :: s,rfl,rfl,by simp,fun no => (by cases no),fun no => (by cases no)⟩
    · rw [if_neg slash,front]
      refine ⟨c :: plain,rest,by rw [shape,List.cons_append],rfl,fun d member => ?_,fun none_ => by rw [whole none_],fun same => ?_⟩
      · rcases List.mem_cons.mp member with rfl | inside
        · exact slash
        · exact clean d inside
      · exact end_ (Nat.succ.inj same)

/-- Bytes without a backslash are copied one by one. -/
theorem decodeFrom_plain {plain rest : List UInt8} (clean : ∀ c ∈ plain, c ≠ backslash) (room : out.length + plain.length ≤ capacity) :
    decodeFrom capacity (plain ++ rest) (plain.length + n) out = decodeFrom capacity rest n (out ++ plain) := by
  induction plain generalizing out with
  | nil => rw [List.nil_append,List.length_nil,Nat.zero_add,List.append_nil]
  | cons c plain ih =>
    have here : round (c :: plain ++ rest) = some ([c],1) := by
      rw [List.cons_append]
      unfold round
      exact if_pos (clean c (by simp))
    rw [List.length_cons] at room
    have fits : out.length + [c].length ≤ capacity := by
      rw [List.length_singleton]
      omega
    have left : plain.length + 1 + n - 1 = plain.length + n := by omega
    rw [List.length_cons,decodeFrom_round (by omega) here (Nat.le_refl _),write,if_pos fits,Option.bind_some,left]
    show decodeFrom capacity (plain ++ rest) (plain.length + n) (out ++ [c]) = _
    rw [ih (fun d member => clean d (by simp [member])) (by rw [List.length_append,List.length_singleton]; omega),List.append_assoc]
    rfl

theorem unbroken (clean : ∀ c ∈ l, c ≠ backslash) : broken l = false := by
  match l with
  | [] => rfl
  | [_] => rfl
  | c :: e :: digits =>
    have plain := clean c (by simp)
    rw [broken,decide_eq_false_iff_not]
    exact fun all => plain all.1

/-- The loop goes on behind the copied front as if it had begun with it. -/
theorem decode_whole {plain rest : List UInt8} (shape : s = plain ++ rest) (clean : ∀ c ∈ plain, c ≠ backslash) :
    decode (s ++ [0]) plain.length s.length = decodeFrom (s.length + 1) (s ++ [0]) s.length [] := by
  have total := congrArg List.length shape
  rw [List.length_append] at total
  have room : ([] : List UInt8).length + plain.length ≤ s.length + 1 := by
    rw [List.length_nil]
    omega
  have taken : (s ++ [0]).take plain.length = plain := by rw [shape,List.append_assoc,List.take_left]
  have rest_ : (s ++ [0]).drop plain.length = rest ++ [0] := by rw [shape,List.append_assoc,List.drop_left]
  have split : decodeFrom (s.length + 1) (s ++ [0]) s.length [] = decodeFrom (s.length + 1) (rest ++ [0]) (s.length - plain.length) plain := by
    have run := @decodeFrom_plain [] (s.length - plain.length) (s.length + 1) plain (rest ++ [0]) clean room
    have sum : plain.length + (s.length - plain.length) = s.length := by omega
    rw [sum,← List.append_assoc,← shape,List.nil_append] at run
    exact run
  rw [decode,taken,write,if_pos room,Option.bind_some,rest_,split,List.nil_append]

/-- Both decoders stay within their bounds where the whole run does. -/
theorem inBounds_run (s : List UInt8) : InBounds s ↔ ∃ r, decodeFrom (s.length + 1) (s ++ [0]) s.length [] = some r := by
  obtain ⟨plain,rest,shape,front,clean,whole,end_⟩ := plainFront_spec s [0]
  rw [InBounds,acJsonDecode,acJsonDecode2,front]
  simp only
  by_cases all : plain.length = s.length
  · rw [if_pos all,if_pos all]
    refine iff_of_true ⟨⟨none,rfl⟩,s.length,none,rfl,Nat.le_refl _⟩ (decodeFrom_fits.mpr ?_)
    have same := whole (end_ all)
    intro i b _ _ broken_
    rw [unbroken fun c member => clean c (by rw [same]; exact List.mem_of_mem_drop member)] at broken_
    cases broken_
  · rw [if_neg all,if_neg all,decode_whole shape clean]
    constructor
    · rintro ⟨⟨r,done⟩,_⟩
      obtain ⟨out,done',_⟩ := Option.map_eq_some_iff.mp done
      exact ⟨out,done'⟩
    · rintro ⟨out,done⟩
      rw [done]
      refine ⟨⟨some out,rfl⟩,out.length,some out,rfl,?_⟩
      exact Nat.le_of_succ_le_succ (decodeFrom_room done).2

end

/-- The decoders stay within their bounds exactly where the broken escapes fit. -/
theorem decode_safe_iff (s : List UInt8) : InBounds s ↔ EscapesFit s :=
  (inBounds_run s).trans decodeFrom_fits

/-- A text that ends after `\\u`. -/
theorem short_escape_overruns : ¬ InBounds [92,117] := by
  rw [inBounds_run,decodeFrom_fits]
  intro fits
  rcases fits 0 false .start (by decide) (by decide) with room | ⟨_,no⟩
  · exact absurd room (by decide)
  · cases no

/-- Behind an escape five bytes are enough. -/
example : EscapesFit [92,110,92,117,49,50,51] := by
  have steps : ∀ i b, At [92,110,92,117,49,50,51] i b → (i = 0 ∧ b = false) ∨ (i = 2 ∧ b = true) ∨ 7 < i := by
    intro i b here
    induction here with
    | start => exact .inl ⟨rfl,rfl⟩
    | next here inside ih =>
      rcases ih with ⟨rfl,rfl⟩ | ⟨rfl,rfl⟩ | beyond
      · exact .inr (.inl ⟨by decide,by decide⟩)
      · exact .inr (.inr (by decide))
      · exact absurd inside (by simp; omega)
  intro i b here inside broken_
  rcases steps i b here with ⟨rfl,rfl⟩ | ⟨rfl,rfl⟩ | beyond
  · exact absurd broken_ (by decide)
  · exact .inr ⟨rfl,rfl⟩
  · exact absurd inside (by simp; omega)

end AnotherC.JsonDecode
