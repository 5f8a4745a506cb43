import AnotherC.Io.Framing
import AnotherC.Io.InSearch

/-!
# The plain reader as a splitter

What `ac_in_advance` returns up to the first `NULL` is what the content of the file
splits into, where an incomplete record at its end is dropped. `splits_iff` states
exactly when: the size of the buffer converts to an `int` with room for a record,
and no length in the file is taken for a negative one.
-/
namespace AnotherC.Splitter
open AnotherC.Lib
open AnotherC.Lib.Bytes
open AnotherC.Lib.Stream (Traces Visits visits_zero visits_succ)
open AnotherC.InBase
open AnotherC.Framing
set_option linter.unusedVariables false

/-! ### What a file splits into -/

/-- Each record behind its length in four bytes. -/
def parsePrefixed (content : List UInt8) : List (List UInt8) :=
  if short : content.length < 4 then []
  else
    let n := number (content.take 4)
    let rest := content.drop 4
    if rest.length < n then [] else rest.take n :: parsePrefixed (rest.drop n)
termination_by content.length
decreasing_by
  simp only [List.length_drop]
  omega

/-- Records of `n` bytes. -/
def parseFixed (n : Nat) (content : List UInt8) : List (List UInt8) :=
  if short : n = 0 ∨ content.length < n then [] else content.take n :: parseFixed n (content.drop n)
termination_by content.length
decreasing_by
  simp only [List.length_drop]
  omega

/-- Each record before a delimiter; `cur` is what is read of the record. -/
def parseDelimited (delim : UInt8) (cur : List UInt8) : List UInt8 → List (List UInt8)
  | [] => []
  | c :: content =>
    if c = delim then cur :: parseDelimited delim [] content else parseDelimited delim (cur ++ [c]) content

/-- The records of a file. -/
def parse (content : List UInt8) : Kind → List (List UInt8)
  | .prefixed => parsePrefixed content
  | .fixed n => parseFixed n content
  | .delimited delim => parseDelimited delim [] content

/-- The formats a file can be read in: a fixed size is a positive `int`, and a
    delimiter is below 128 and no quote. -/
def Readable : Kind → Prop
  | .prefixed => True
  | .fixed n => 0 < n ∧ n < 2 ^ 31
  | .delimited delim => Findable delim

theorem parsePrefixed_short {content : List UInt8} (short : content.length < 4) : parsePrefixed content = [] := by
  rw [parsePrefixed,dif_pos short]

theorem parsePrefixed_cut {content : List UInt8} (long : 4 ≤ content.length)
    (cut : (content.drop 4).length < number (content.take 4)) : parsePrefixed content = [] := by
  rw [parsePrefixed,dif_neg (by omega)]
  exact if_pos cut

theorem parsePrefixed_cons {content : List UInt8} (long : 4 ≤ content.length)
    (whole : number (content.take 4) ≤ (content.drop 4).length) :
    parsePrefixed content = (content.drop 4).take (number (content.take 4)) ::
      parsePrefixed ((content.drop 4).drop (number (content.take 4))) := by
  rw [parsePrefixed,dif_neg (by omega)]
  exact if_neg (by omega)

theorem parseFixed_short {n : Nat} {content : List UInt8} (short : content.length < n) : parseFixed n content = [] := by
  rw [parseFixed,dif_pos (.inr short)]

theorem parseFixed_cons {n : Nat} {content : List UInt8} (positive : 0 < n) (whole : n ≤ content.length) :
    parseFixed n content = content.take n :: parseFixed n (content.drop n) := by
  rw [parseFixed,dif_neg (by omega)]

/-- The record ends where the search finds the delimiter. -/
theorem parseDelimited_find {delim : UInt8} (findable : Findable delim) (content cur : List UInt8) :
    parseDelimited delim cur content = match findDelimiter delim.toNat content with
      | some i => (cur ++ content.take i) :: parseDelimited delim [] (content.drop (i + 1))
      | none => [] := by
  induction content generalizing cur with
  | nil => rfl
  | cons c content ih =>
    have isDelim := signedChar_delim (c := c) findable
    have noQuote : (delim.toNat : Int) ≠ 34 := by
      have := findable.2
      omega
    rw [parseDelimited,findDelimiter]
    by_cases same : c = delim
    · rw [if_pos same,if_neg (by rw [isDelim.mpr same]; exact noQuote),if_neg (by simp [isDelim.mpr same])]
      simp
    · rw [if_neg same,if_pos (mt isDelim.mp same),ite_self,ih]
      cases findDelimiter delim.toNat content with
      | none => rfl
      | some i => simp

/-! ### What a call shows -/

/-- What the next call examines, once the byte under the zero is back: a part of the
    content up to its end. -/
def Examines (content : List UInt8) (h : InBase) : Prop :=
  (restore h).buf.buffer.drop (restore h).buf.pos ++ (restore h).file <:+ content

/-- The bytes are followed by a zero: in a buffer of their own, which ends in one, or
    where `zerop` points. -/
def Followed (h : InBase) (p : List UInt8) : Prop :=
  h.bh = some p ∨ ∃ start, h.zerop = some (start + p.length) ∧ (h.buf.buffer.drop start).take p.length = p ∧
    h.buf.buffer.getD (start + p.length) 0 = 0

theorem terminate_followed {h : InBase} {start len : Nat} (inside : start + len ≤ h.buf.buffer.length) :
    Followed (terminate h (start + len)) ((h.buf.buffer.drop start).take len) := by
  have length : ((h.buf.buffer.drop start).take len).length = len := by
    rw [List.length_take,List.length_drop]
    omega
  refine .inr ⟨start,?_,?_,?_⟩
  · rw [length]
    rfl
  · rw [length]
    simp only [terminate]
    apply List.ext_getElem?
    intro i
    rw [List.getElem?_take,List.getElem?_take,List.getElem?_drop,List.getElem?_drop]
    split
    · rw [List.getElem?_set_ne (by omega)]
    · rfl
  · rw [length]
    simp only [terminate,List.getD_eq_getElem?_getD]
    by_cases within : start + len < h.buf.buffer.length
    · simp [within]
    · rw [List.getElem?_eq_none (by simp; omega)]
      rfl

theorem found_followed {h h' : InBase} {i : Nat} {found : Found} (inside : h.buf.pos + i < h.buf.buffer.length)
    (same : foundDelimiter h i = some (some found,h')) : Followed h' found.p := by
  simp only [foundDelimiter] at same
  split at same
  · cases same
  · cases same
    exact terminate_followed (h := { h with buf := { h.buf with pos := (h.buf.pos + (int32 i + 1)).toNat } })
      (Nat.le_of_lt inside)

theorem end_followed {h h' : InBase} {n pos : Nat} {required : Bool} {found : Found}
    (inside : n ≤ h.buf.buffer.length)
    (same : endOfBlock { h with buf := { h.buf with pos := pos } } (h.buf.buffer.drop n) required = (some found,h')) :
    Followed h' found.p := by
  simp only [endOfBlock] at same
  split at same
  · cases same
  · cases same
    have sum : n + (h.buf.buffer.drop n).length = h.buf.buffer.length := by
      rw [List.length_drop]
      omega
    have followed := terminate_followed (h := { h with buf := { h.buf with pos := pos } }) (Nat.le_of_eq sum)
    rw [List.take_length,sum] at followed
    exact followed

theorem fill_pos (b : InBuffer) (file : List UInt8) : (fillBlocks b file).1.pos = b.pos := by
  unfold fillBlocks
  split
  · rfl
  · dsimp only
    split
    · rfl
    · split <;> rfl

theorem gather_followed {delim : Int} {required : Bool} {h h' : InBase} {bh : List UInt8} {found : Found}
    (same : gather delim required h bh = some (some found,h')) : h'.bh = some found.p := by
  induction unread : h.file.length using Nat.strongRecOn generalizing h bh with
  | ind unread ih =>
    rw [gather] at same
    dsimp only at same
    split at same
    · split at same
      · cases same
      · cases same
        rfl
    · split at same
      · split at same
        · cases same
        · cases same
          rfl
      · split at same
        case isTrue fewer => exact ih _ (by rw [← unread]; exact fewer) same rfl
        case isFalse => cases same

/-- A record that is read up to a delimiter is followed by a zero. -/
theorem delimited_followed {h h' : InBase} {delim : Int} {required : Bool} {found : Found}
    (inside : (restore h).buf.pos ≤ (restore h).buf.buffer.length)
    (same : acInBaseReadDelimited h delim required = some (some found,h')) : Followed h' found.p := by
  simp only [acInBaseReadDelimited] at same
  have inside : (cleanupLastRead h).buf.pos ≤ (cleanupLastRead h).buf.buffer.length := inside
  generalize cleanupLastRead h = h at same inside
  split at same
  case h_1 i here =>
    have before := find_lt here
    rw [List.length_drop] at before
    exact found_followed (by omega) same
  case h_2 =>
    split at same
    case isTrue => exact end_followed inside (Option.some.inj same)
    case isFalse =>
      split at same
      case isTrue =>
        split at same
        case h_1 i here =>
          have before := find_lt here
          have pos : (fillBlocks (resetBlock h.buf) h.file).1.pos = 0 := fill_pos _ _
          rw [List.length_drop] at before
          refine found_followed ?_ same
          dsimp only
          omega
        case h_2 =>
          split at same
          · exact end_followed (n := 0) (h := { h with
              buf := (fillBlocks (resetBlock h.buf) h.file).1, file := (fillBlocks (resetBlock h.buf) h.file).2 })
              (Nat.zero_le _) (Option.some.inj same)
          · exact .inl (gather_followed same)
      case isFalse => exact .inl (gather_followed same)

/-! ### Short reads of a whole record -/

/-- Where too little is left, a read of a whole record gives less. -/
theorem readz_short {size : Nat} {h : InBase} {rest : List UInt8} (holds : Holds size h rest) {len : Nat}
    (small : len < 2 ^ 31) (short : rest.length < len) : (acInBaseReadz h len).1.rlen ≠ len := by
  have ready := cleanup_ready holds
  have whole := congrArg List.length ready.holds
  have inside := ready.inside
  rw [List.length_append,List.length_drop] at whole
  simp only [acInBaseReadz]
  have ends : (restOfBuffer (cleanupLastRead h)).1.rlen ≠ len := by
    simp only [restOfBuffer,List.length_drop]
    rw [int32_small (by omega)]
    omega
  split
  · omega
  · split
    · split
      · exact ends
      case isFalse unended =>
        obtain ⟨tmp,left,filled,buffer,_,_⟩ :=
          overflow_takes ready (Bool.eq_false_iff.mpr unended) small (by omega)
        rw [filled]
        have length := congrArg List.length buffer
        rw [List.length_take] at length
        dsimp only
        rw [int32_small (by omega)]
        omega
    · split
      · exact ends
      case isFalse unended =>
        obtain ⟨filled,pos,_,_,_⟩ := fill_ready (reset_ready ready) (Bool.eq_false_iff.mpr unended) rfl
        have all := congrArg List.length filled.holds
        rw [List.length_append,List.length_drop,pos] at all
        dsimp only
        split
        · rw [int32_small (by omega)]
          omega
        · omega

/-- The header of the first record does not fit into a buffer that is said to be
    shorter. -/
theorem read_aborts {bufferSize : Nat} {content : List UInt8} (short : int32 (allocated bufferSize) < 4)
    (long : int32 (allocated bufferSize) ≤ content.length) :
    acInBaseRead (acInBaseInit content bufferSize) 4 = none := by
  rcases Int.lt_or_le 0 (int32 (allocated bufferSize)) with positive | stuck
  · have filled : fillBlocks ⟨[],allocated bufferSize,0,false⟩ content =
        (⟨content.take (int32 (allocated bufferSize)).toNat,allocated bufferSize,0,false⟩,
          content.drop (int32 (allocated bufferSize)).toNat) := by
      simp only [fillBlocks,Bool.false_eq_true,if_false,List.length_nil,Nat.sub_zero,List.nil_append]
      rw [if_neg (by omega),if_neg (by omega)]
    have length : (content.take (int32 (allocated bufferSize)).toNat).length = (int32 (allocated bufferSize)).toNat := by
      rw [List.length_take]
      omega
    have full : int32 (allocated bufferSize - (int32 (allocated bufferSize)).toNat) = 0 := by
      have le := int32_le (allocated bufferSize)
      rw [int32_sub (by omega) (by omega)]
      omega
    have base : acInBaseInit content bufferSize = ⟨⟨content.take (int32 (allocated bufferSize)).toNat,
        allocated bufferSize,0,false⟩,content.drop (int32 (allocated bufferSize)).toNat,none,none,0⟩ := by
      unfold acInBaseInit
      change (⟨(fillBlocks ⟨[],allocated bufferSize,0,false⟩ content).1,
        (fillBlocks ⟨[],allocated bufferSize,0,false⟩ content).2,none,none,0⟩ : InBase) = _
      rw [filled]
    -- the refill before the answer adds nothing
    have again : fillBlocks ⟨content.take (int32 (allocated bufferSize)).toNat,allocated bufferSize,0,false⟩
        (content.drop (int32 (allocated bufferSize)).toNat) =
          (⟨content.take (int32 (allocated bufferSize)).toNat,allocated bufferSize,0,false⟩,
            content.drop (int32 (allocated bufferSize)).toNat) := by
      simp only [fillBlocks,Bool.false_eq_true,if_false,length,full,Int.lt_irrefl,Int.toNat_zero,List.take_zero,
        List.append_nil,List.drop_zero]
      rw [if_neg (by omega)]
    rw [base]
    simp only [acInBaseRead,restore,resetBlock,List.drop_zero,length,again,Bool.false_eq_true,if_false]
    rw [if_neg (by omega),if_pos (by omega)]
  · exact stuck_read stuck (init_stuck stuck content) (by decide)

/-! ### The three formats -/

/-- A length that is taken for what it is; one from 2^31 on stays without effect only
    where it is found at the end of the file, far enough from the start of the buffer. -/
def HeaderTaken (h : In) : Prop :=
  ∀ p base, acInBaseRead h.base 4 = some (some p,base) →
    number p < 2 ^ 31 ∨ base.buf.eof = true ∧ base.buf.pos + number p < 2 ^ 32

/-- What the reader shows in a format: in the delimited one each record is followed
    by a zero. -/
def Shows : Kind → List UInt8 → In → Prop
  | .delimited _, r, h => Followed h.base r
  | _, _, _ => True

/-- The calls return what the content splits into, from a state that has `rest` of it
    to read. -/
def Splits (kind : Kind) (content : List UInt8) (h : In) (records : List (List UInt8)) : Prop :=
  Traces acInAdvance (fun h => Examines content h.base) (Shows kind) h records

theorem examines_of_holds {size : Nat} {h : InBase} {rest content : List UInt8} (holds : Holds size h rest)
    (part : rest <:+ content) : Examines content h := by
  unfold Examines
  rw [holds.holds]
  exact part

section
variable {size : Nat} {h : In} {content rest : List UInt8}

theorem read_clean {h base : InBase} {len : Nat} {p : List UInt8} (read : acInBaseRead h len = some (some p,base)) :
    base.zerop = none := by
  have clean := restore_clean h
  simp only [acInBaseRead] at read
  split at read
  · cases read
    exact clean
  · split at read
    · cases read
    · split at read
      · split at read <;> cases read
      · cases read
        exact clean

/-- A length from 2^31 on: the end is found, or a record from nowhere, or the buffer
    for the record cannot be had. -/
theorem readz32_large {base : InBase} (ready : Ready size base.buf base.file rest) (clean : base.zerop = none) {n : Nat}
    (large : 2 ^ 31 ≤ n) (word : n < 2 ^ 32) :
    (base.buf.eof = true ∧ base.buf.pos + n < 2 ^ 32 → rest.length < n ∧
      ∃ read, acInBaseReadz32 base n = some read ∧ read.1.rlen ≠ int32 n) ∧
    (¬ (base.buf.eof = true ∧ base.buf.pos + n < 2 ^ 32) → acInBaseReadz32 base n = none ∨
      ∃ read, acInBaseReadz32 base n = some read ∧ read.1.rlen = int32 n ∧ (read.1.p.take n).length < 2 ^ 31) := by
  have bound := int32_lt size
  have fits := ready.fits
  have same : (cleanupLastRead base).buf = base.buf := by
    unfold cleanupLastRead
    exact (AnotherC.InSearch.restore_unpatched clean).1
  have negative : int32 n < 0 := by
    simp only [int32]
    split <;> omega
  simp only [acInBaseReadz32,same]
  rw [if_neg (by omega)]
  constructor
  · rintro ⟨ended,near⟩
    rw [if_neg (by omega),if_pos ended]
    have all := (end_ready ready ended).2
    refine ⟨?_,_,rfl,?_⟩
    · rw [← all,List.length_drop]
      omega
    · simp only [restOfBuffer,same,List.length_drop]
      rw [int32_small (by omega)]
      omega
  · intro other
    by_cases wraps : 2 ^ 32 ≤ base.buf.pos + n
    · rw [if_pos wraps]
      refine .inr ⟨_,rfl,rfl,?_⟩
      simp only [List.length_take,List.length_drop]
      omega
    · rw [if_neg wraps,if_neg (fun ended => other ⟨ended,by omega⟩)]
      exact .inl rfl

theorem prefix_splits (room : 4 ≤ int32 size) (format : h.format = Kind.prefixed.format)
    (holds : Holds size h.base rest) (part : rest <:+ content) :
    Splits .prefixed content h (parsePrefixed rest) ↔
      (∀ d ∈ parsePrefixed rest, Passes size d.length) ∧
        Visits acInAdvance (parsePrefixed rest).length h HeaderTaken := by
  induction unread : rest.length using Nat.strongRecOn generalizing h rest with
  | ind unread ih =>
    have examines := examines_of_holds holds part
    have calls := prefix_calls format
    simp only [advancePrefix] at calls
    by_cases short : rest.length < 4
    · obtain ⟨base,read,_⟩ := (read_takes holds 4).2.1 short (by omega)
      simp only [read] at calls
      rw [parsePrefixed_short short,Splits,Traces.nil_iff calls]
      refine ⟨fun _ => ⟨List.forall_mem_nil _,visits_zero.mpr ?_⟩,fun _ => examines⟩
      intro p base' read'
      rw [read] at read'
      cases read'
    · obtain ⟨base,read,next⟩ := (read_takes holds 4).1 (by omega) room
      have taken : HeaderTaken h ↔ number (rest.take 4) < 2 ^ 31 ∨
          base.buf.eof = true ∧ base.buf.pos + number (rest.take 4) < 2 ^ 32 := by
        unfold HeaderTaken
        rw [read]
        constructor
        · exact fun all => all _ _ rfl
        · intro holds p base' same
          cases same
          exact holds
      have clean := read_clean read
      have word : number (rest.take 4) < 2 ^ 32 := by
        have below := number_lt (rest.take 4)
        rw [List.length_take,Nat.min_eq_left (by omega)] at below
        exact below
      have lengths : (rest.drop 4).length + 4 = rest.length := by
        rw [List.length_drop]
        omega
      have partRest : rest.drop 4 <:+ content := (List.drop_suffix 4 rest).trans part
      simp only [read] at calls
      by_cases large : 2 ^ 31 ≤ number (rest.take 4)
      · have ready : Ready size base.buf base.file (rest.drop 4) := by
          simpa only [Holds,AnotherC.InSearch.restore_unpatched clean] using next
        have positive : number (rest.take 4) > 0 := by omega
        obtain ⟨found,lost⟩ := readz32_large ready clean large word
        by_cases near : base.buf.eof = true ∧ base.buf.pos + number (rest.take 4) < 2 ^ 32
        · obtain ⟨cut,answer,readz,differs⟩ := found near
          simp only [readz,positive,if_true,ne_eq,differs,not_false_eq_true] at calls
          rw [parsePrefixed_cut (by omega) cut,Splits,Traces.nil_iff calls]
          exact ⟨fun _ => ⟨List.forall_mem_nil _,visits_zero.mpr (taken.mpr (.inr near))⟩,fun _ => examines⟩
        · have untaken : ¬ HeaderTaken h := by
            rw [taken]
            rintro (small | ended)
            · omega
            · exact near ended
          refine ⟨fun splits => ?_,fun sound => absurd (sound.2 0 (Nat.zero_le _) h rfl) untaken⟩
          rcases lost near with fault | ⟨answer,readz,same,few⟩
          · simp only [fault,positive,if_true] at calls
            obtain ⟨_,moves⟩ := Traces.head splits
            rw [calls] at moves
            cases moves
          · simp only [readz,positive,if_true,ne_eq,same,not_true_eq_false,if_false] at calls
            by_cases cut : (rest.drop 4).length < number (rest.take 4)
            · rw [parsePrefixed_cut (by omega) cut] at splits
              obtain ⟨_,moves⟩ := Traces.head splits
              rw [calls] at moves
              cases moves
            · rw [parsePrefixed_cons (by omega) (by omega),Splits,Traces.cons_iff calls] at splits
              have length := congrArg List.length splits.2.1
              rw [List.length_take (l := rest.drop 4)] at length
              omega
      · have small : number (rest.take 4) < 2 ^ 31 := by omega
        have isTaken : HeaderTaken h := taken.mpr (.inl small)
        simp only [acInBaseReadz32,small,if_true,int32_small small] at calls
        by_cases cut : (rest.drop 4).length < number (rest.take 4)
        · have positive : number (rest.take 4) > 0 := by omega
          have differs := readz_short next small cut
          simp only [positive,if_true,ne_eq,differs,not_false_eq_true] at calls
          rw [parsePrefixed_cut (by omega) cut,Splits,Traces.nil_iff calls]
          exact ⟨fun _ => ⟨List.forall_mem_nil _,visits_zero.mpr isTaken⟩,fun _ => examines⟩
        · rw [parsePrefixed_cons (by omega) (by omega),List.forall_mem_cons,List.length_cons]
          have length : ((rest.drop 4).take (number (rest.take 4))).length = number (rest.take 4) := by
            rw [List.length_take]
            omega
          obtain ⟨readz,_,beyond⟩ := readz_takes next small
          rw [length]
          by_cases positive : number (rest.take 4) > 0
          · by_cases passes : Passes size (number (rest.take 4))
            · obtain ⟨base',readz,next'⟩ := readz (by omega) passes
              simp only [positive,if_true,readz,ne_eq,not_true_eq_false,if_false,List.take_take,Nat.min_self] at calls
              rw [visits_succ calls,Splits,Traces.cons_iff calls]
              have later := ih ((rest.drop 4).drop (number (rest.take 4))).length
                (by rw [← unread,List.length_drop]; omega) (h := { h with base := base' }) format next'
                ((List.drop_suffix _ _).trans partRest) rfl
              rw [Splits] at later
              rw [later]
              simp [examines,isTaken,passes,Shows]
            · have around := passes
              simp only [Passes,not_or,Int.not_le,Nat.not_lt] at around
              have differs := beyond around.1 around.2 (by omega)
              simp only [positive,if_true,ne_eq,differs,not_false_eq_true] at calls
              refine ⟨fun splits => ?_,fun sound => absurd sound.1.1 passes⟩
              obtain ⟨_,moves⟩ := Traces.head splits
              rw [calls] at moves
              cases moves
          · have zero : number (rest.take 4) = 0 := by omega
            simp only [positive,if_false] at calls
            rw [zero,List.take_zero,List.drop_zero,visits_succ calls,Splits,Traces.cons_iff calls]
            have later := ih (rest.drop 4).length (by rw [← unread]; omega) (h := { h with base := base }) format next
              partRest rfl
            rw [Splits] at later
            rw [later]
            have passes : Passes size 0 := .inl (by omega)
            simp [examines,isTaken,passes,Shows]

theorem fixed_splits {n : Nat} (readable : Readable (.fixed n)) (format : h.format = (Kind.fixed n).format)
    (holds : Holds size h.base rest) (part : rest <:+ content) :
    Splits (.fixed n) content h (parseFixed n rest) ↔ parseFixed n rest = [] ∨ Passes size n := by
  obtain ⟨positive,small⟩ := readable
  induction unread : rest.length using Nat.strongRecOn generalizing h rest with
  | ind unread ih =>
    have examines := examines_of_holds holds part
    have calls := fixed_calls format positive
    simp only [advanceFixed] at calls
    by_cases short : rest.length < n
    · have differs := readz_short holds small short
      simp only [ne_eq,differs,not_false_eq_true,if_true] at calls
      rw [parseFixed_short short,Splits,Traces.nil_iff calls]
      exact ⟨fun _ => .inl rfl,fun _ => examines⟩
    · rw [parseFixed_cons positive (by omega)]
      obtain ⟨readz,_,beyond⟩ := readz_takes holds small
      by_cases passes : Passes size n
      · obtain ⟨base,readz,next⟩ := readz (by omega) passes
        simp only [readz,ne_eq,not_true_eq_false,if_false,List.take_take,Nat.min_self] at calls
        have later := ih (rest.drop n).length (by rw [← unread,List.length_drop]; omega) (h := { h with base := base })
          format next ((List.drop_suffix _ _).trans part) rfl
        rw [Splits] at later
        rw [Splits,Traces.cons_iff calls,later]
        simp [examines,passes,Shows]
      · have around := passes
        simp only [Passes,not_or,Int.not_le,Nat.not_lt] at around
        have differs := beyond around.1 around.2 (by omega)
        simp only [ne_eq,differs,not_false_eq_true,if_true] at calls
        refine ⟨fun splits => ?_,fun sound => ?_⟩
        · obtain ⟨_,moves⟩ := Traces.head splits
          rw [calls] at moves
          cases moves
        · rcases sound with nothing | sound
          · cases nothing
          · exact absurd sound passes

theorem delimited_splits (room : 0 < int32 size) {delim : UInt8} (findable : Findable delim)
    (format : h.format = (Kind.delimited delim).format) (required : h.fullRecordRequired = true)
    (holds : Holds size h.base rest) (part : rest <:+ content) :
    Splits (.delimited delim) content h (parseDelimited delim [] rest) ↔
      ∀ d ∈ parseDelimited delim [] rest, d.length < 2 ^ 32 := by
  induction unread : rest.length using Nat.strongRecOn generalizing h rest with
  | ind unread ih =>
    have examines := examines_of_holds holds part
    have calls := delimited_calls format
    have takes := delimited_takes room delim.toNat holds
    simp only [advanceDelimited,required] at calls
    rw [parseDelimited_find findable]
    cases found : findDelimiter delim.toNat rest with
    | none =>
      rw [found] at takes
      obtain ⟨base,read,next⟩ := takes
      simp only [read] at calls
      rw [Splits,Traces.nil_iff calls]
      exact ⟨fun _ => List.forall_mem_nil _,fun _ => examines⟩
    | some i =>
      rw [found] at takes
      have inside := find_lt found
      obtain ⟨base,read,next⟩ := takes
      have followed := delimited_followed holds.inside read
      simp only [read,record,uint32_int32] at calls
      simp only [List.nil_append]
      have later := ih (rest.drop (i + 1)).length (by rw [← unread,List.length_drop]; omega)
        (h := { h with base := base, fullRecordRequired := true }) format rfl next ((List.drop_suffix _ _).trans part) rfl
      rw [Splits] at later
      rw [Splits,Traces.cons_iff calls,later,List.forall_mem_cons]
      have whole : (rest.take i).take ((rest.take i).length % 2 ^ 32) = rest.take i ↔ (rest.take i).length < 2 ^ 32 := by
        refine ⟨fun all => ?_,fun small => by rw [Nat.mod_eq_of_lt small,List.take_length]⟩
        have := Nat.mod_lt (rest.take i).length (show 2 ^ 32 > 0 by decide)
        have := congrArg List.length all
        rw [List.length_take (l := rest.take i)] at this
        omega
      rw [whole]
      constructor
      · exact fun splits => ⟨splits.2.1,splits.2.2.2⟩
      · intro sound
        refine ⟨examines,sound.1,?_,sound.2⟩
        rw [whole.mpr sound.1]
        exact followed

end

/-! ### Any content, buffer and format -/

/-- When the reader splits the content: the `int` that the allocated size converts to
    has room for a length and for every record, and every length is taken for what it
    is. A fixed format reads nothing where there is no record. No delimited record is
    longer than a `uint32_t` can say. -/
def Sound (bufferSize : Nat) (content : List UInt8) : Kind → Prop
  | .prefixed => (4 ≤ int32 (allocated bufferSize) ∨ (content.length : Int) < int32 (allocated bufferSize)) ∧
      (∀ d ∈ parsePrefixed content, Passes (allocated bufferSize) d.length) ∧
      Visits acInAdvance (parsePrefixed content).length (acInInit content bufferSize Kind.prefixed.format) HeaderTaken
  | .fixed n => parseFixed n content = [] ∨ 0 < int32 (allocated bufferSize) ∧ Passes (allocated bufferSize) n
  | .delimited delim => 0 < int32 (allocated bufferSize) ∧ ∀ d ∈ parseDelimited delim [] content, d.length < 2 ^ 32

theorem prefix_splits_iff (content : List UInt8) (bufferSize : Nat) :
    Splits .prefixed content (acInInit content bufferSize Kind.prefixed.format) (parsePrefixed content) ↔
      Sound bufferSize content .prefixed := by
  have calls : acInAdvance (acInInit content bufferSize Kind.prefixed.format) = advancePrefix _ := prefix_calls rfl
  simp only [advancePrefix,acInInit] at calls
  by_cases room : 4 ≤ int32 (allocated bufferSize)
  · have holds : Holds (allocated bufferSize) (acInBaseInit content bufferSize) content :=
      init_holds (by omega) content
    rw [prefix_splits room rfl holds List.suffix_rfl]
    simp only [Sound,room,true_or,true_and]
  · by_cases short : (content.length : Int) < int32 (allocated bufferSize)
    · have holds : Holds (allocated bufferSize) (acInBaseInit content bufferSize) content :=
        init_holds (by omega) content
      obtain ⟨base,read,_⟩ := (read_takes holds 4).2.1 (by omega) short
      simp only [read] at calls
      have nothing : parsePrefixed content = [] := parsePrefixed_short (by omega)
      rw [nothing,acInInit,Splits,Traces.nil_iff calls]
      refine ⟨fun _ => ⟨.inr short,by simp [nothing],?_⟩,fun _ => examines_of_holds holds List.suffix_rfl⟩
      rw [nothing]
      refine visits_zero.mpr ?_
      intro p base' read'
      simp only [acInInit,read] at read'
      cases read'
    · have aborts : acInBaseRead (acInBaseInit content bufferSize) 4 = none := read_aborts (by omega) (by omega)
      simp only [aborts] at calls
      refine ⟨fun splits => ?_,fun sound => ?_⟩
      · obtain ⟨_,moves⟩ := Traces.head splits
        rw [acInInit,calls] at moves
        cases moves
      · rcases sound.1 with fits | fits
        · exact absurd fits room
        · exact absurd fits short

theorem fixed_splits_iff {n : Nat} (readable : Readable (.fixed n)) (content : List UInt8) (bufferSize : Nat) :
    Splits (.fixed n) content (acInInit content bufferSize (Kind.fixed n).format) (parseFixed n content) ↔
      Sound bufferSize content (.fixed n) := by
  rcases Int.lt_or_le 0 (int32 (allocated bufferSize)) with positive | stuck
  · rw [fixed_splits readable rfl (init_holds (Int.le_of_lt positive) content) List.suffix_rfl]
    simp only [Sound,positive,true_and]
  · have notPositive : ¬ 0 < int32 (allocated bufferSize) := by omega
    have base : acInBaseInit content bufferSize = ⟨⟨[],allocated bufferSize,0,false⟩,content,none,none,0⟩ := by
      unfold acInBaseInit
      change (⟨(fillBlocks ⟨[],allocated bufferSize,0,false⟩ content).1,
        (fillBlocks ⟨[],allocated bufferSize,0,false⟩ content).2,none,none,0⟩ : InBase) = _
      rw [stuck_fill stuck]
    have large : 2 ^ 31 ≤ allocated bufferSize := by
      by_contra below
      have some : 0 < allocated bufferSize := by
        rw [allocated]
        split <;> omega
      rw [int32_small (by omega)] at stuck
      omega
    have within : n ≤ allocated bufferSize := by
      have := readable.2
      omega
    obtain ⟨after,read,_⟩ := stuck_readz stuck (init_stuck stuck content) readable.1 within
    have calls : acInAdvance (acInInit content bufferSize (Kind.fixed n).format) = advanceFixed _ n :=
      fixed_calls rfl readable.1
    have positive := readable.1
    simp only [advanceFixed,acInInit,read] at calls
    rw [if_pos (by omega)] at calls
    have examines : Examines content (acInBaseInit content bufferSize) := by
      rw [base]
      exact List.suffix_rfl
    simp only [Sound,notPositive,false_and,or_false]
    cases splits : parseFixed n content with
    | nil =>
      rw [acInInit,Splits,Traces.nil_iff calls]
      exact ⟨fun _ => rfl,fun _ => examines⟩
    | cons d records =>
      refine ⟨fun splits => ?_,fun none_ => absurd none_ (List.cons_ne_nil d records)⟩
      obtain ⟨_,moves⟩ := Traces.head splits
      rw [acInInit,calls] at moves
      cases moves

theorem delimited_splits_iff {delim : UInt8} (findable : Findable delim) (content : List UInt8) (bufferSize : Nat) :
    Splits (.delimited delim) content (acInInit content bufferSize (Kind.delimited delim).format)
      (parseDelimited delim [] content) ↔ Sound bufferSize content (.delimited delim) := by
  rcases Int.lt_or_le 0 (int32 (allocated bufferSize)) with positive | stuck
  · rw [delimited_splits positive findable rfl rfl (init_holds (Int.le_of_lt positive) content) List.suffix_rfl]
    simp only [Sound,positive,true_and]
  · have notPositive : ¬ 0 < int32 (allocated bufferSize) := by omega
    have calls : acInAdvance (acInInit content bufferSize (Kind.delimited delim).format) =
        advanceDelimited _ delim.toNat := delimited_calls rfl
    simp only [advanceDelimited,acInInit,stuck_delimited stuck (init_stuck stuck _)] at calls
    refine ⟨fun splits => ?_,fun sound => absurd sound.1 notPositive⟩
    obtain ⟨_,moves⟩ := Traces.head splits
    rw [acInInit,calls] at moves
    cases moves

/-- What is returned up to the first `NULL` is what the content splits into, each
    delimited record with a zero behind it and each byte back before it is examined,
    exactly where the buffer, the lengths and the records are as `Sound` says. -/
theorem splits_iff (kind : Kind) (readable : Readable kind) (content : List UInt8) (bufferSize : Nat) :
    Splits kind content (acInInit content bufferSize kind.format) (parse content kind) ↔ Sound bufferSize content kind := by
  cases kind with
  | prefixed => exact prefix_splits_iff content bufferSize
  | fixed n => exact fixed_splits_iff readable content bufferSize
  | delimited delim => exact delimited_splits_iff readable content bufferSize

theorem splits_iff_lines : Splits (.delimited 10) [97,10,10,98] (acInInit [97,10,10,98] 0 (Kind.delimited 10).format)
    (parse [97,10,10,98] (.delimited 10)) ↔ Sound 0 [97,10,10,98] (.delimited 10) :=
  splits_iff (.delimited 10) ⟨by decide,by decide⟩ [97,10,10,98] 0

/-- A length of 2^32 - 1 moves the reader back by one byte, and gives a record. -/
theorem length_moves_back : parse [255,255,255,255] .prefixed = [] ∧
    ¬ Splits .prefixed [255,255,255,255] (acInInit [255,255,255,255] 256 Kind.prefixed.format) [] := by
  refine ⟨parsePrefixed_cut (by decide) (by decide),?_⟩
  intro splits
  obtain ⟨_,moves⟩ := Traces.head splits
  have first : (acInAdvance (acInInit [255,255,255,255] 256 Kind.prefixed.format)).map Prod.fst = some (some []) := by
    decide
  rw [moves] at first
  cases first

end AnotherC.Splitter
