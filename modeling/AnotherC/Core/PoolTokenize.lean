import AnotherC.Core.PoolCells
import Mathlib.Data.List.TakeWhile
import Mathlib.Data.Nat.Bitwise

/-!
# `_ac_pool_tokenize`

The delimiters are bits of two 64-bit numbers. A bit is made by a shift of the `int` 1, which
has 32 bits: the count of a shift is taken modulo 32, as the machine takes it, and the result
is extended with its sign. So a delimiter stands for the other byte of its half that is 32
away, too.
-/
namespace AnotherC.PoolTokenize
open AnotherC.PoolCells
open AnotherC.Lib.Text
open AnotherC.Lib.Steps
open AnotherC.Lib.InPlace
set_option linter.unusedVariables false

/-! ## The code -/

structure Bits where
  bits0 : BitVec 64
  bits1 : BitVec 64
deriving Repr, DecidableEq

/-- `1 << n`, as a `uint64_t`. -/
def oneShl (n : Nat) : BitVec 64 := ((1#32) <<< (n % 32)).signExtend 64

/-- `setup_tokenize`, for the bytes in front of the NUL of `delim`; as a `char` a byte from 128
    on is negative. -/
def setupTokenize (bits : Bits) : Text → Bits
  | [] => bits
  | c :: delim =>
    if c < 128 then
      if c < 64 then setupTokenize { bits with bits0 := bits.bits0 ||| oneShl c.toNat } delim
      else setupTokenize { bits with bits1 := bits.bits1 ||| oneShl (c.toNat - 64) } delim
    else setupTokenize bits delim

/-- `*p > 0`, and the bit of `*p`. -/
def delimits (bits : Bits) (c : UInt8) : Bool :=
  c ≠ 0 && c < 128 &&
    if c < 64 then bits.bits0 &&& oneShl c.toNat ≠ 0 else bits.bits1 &&& oneShl (c.toNat - 64) ≠ 0

/-- `skip_delimiter`: how many bytes are skipped. -/
def skipDelimiter (bits : Bits) : List UInt8 → Option Nat
  | [] => none
  | c :: rest => if delimits bits c then (skipDelimiter bits rest).map (· + 1) else some 0

/-- The first pass with `s`, `p` and `num`, and the second with `p` and the cells in front of
    `wr`. -/
inductive Pass where
  | count (s p num : Nat)
  | fill (num p : Nat) (r : List Nat)
deriving Repr, DecidableEq

structure State where
  bytes : List UInt8
  pass : Pass
deriving Repr, DecidableEq

/-- `*wr = NULL`. -/
def ends (bytes : List UInt8) (num : Nat) (r : List Nat) : Option (Next State Split) :=
  if r.length < num + 1 then some (.returned ⟨num,r.map some ++ [none],bytes⟩) else none

def step (bits : Bits) (state : State) : Option (Next State Split) :=
  match state.pass with
  | .count s p num => do
    let c ← state.bytes[p]?
    if delimits bits c then do
      let skipped ← skipDelimiter bits (state.bytes.drop (p + 1))
      let d ← state.bytes[p + 1 + skipped]?
      if d = 0 then some (.goto ⟨state.bytes,.fill num s [s]⟩) else some (.goto ⟨state.bytes,.count s (p + 1 + skipped) (num + 1)⟩)
    else if c = 0 then some (.goto ⟨state.bytes,.fill num s [s]⟩)
    else some (.goto ⟨state.bytes,.count s (p + 1) num⟩)
  | .fill num p r => do
    let c ← state.bytes[p]?
    if delimits bits c then do
      let bytes ← write state.bytes p 0
      let skipped ← skipDelimiter bits (bytes.drop (p + 1))
      let d ← bytes[p + 1 + skipped]?
      if d = 0 then ends bytes num r
      else if r.length < num + 1 then some (.goto ⟨bytes,.fill num (p + 1 + skipped) (r ++ [p + 1 + skipped])⟩) else none
    else if c = 0 then ends state.bytes num r
    else some (.goto ⟨state.bytes,.fill num (p + 1) r⟩)

/-- `ac_pool_tokenize`, for as many steps, with a copy of the string; where nothing is left
    behind the delimiters that it begins with, the static array of NULL is returned. -/
def acPoolTokenize (fuel : Nat) (delim s : Text) : Option (Next State Split) := do
  let bits := setupTokenize ⟨0,0⟩ delim
  let p ← skipDelimiter bits (s ++ [0])
  let c ← (s ++ [0])[p]?
  if c = 0 then some (.returned ⟨0,[none],s ++ [0]⟩) else run (step bits) fuel ⟨s ++ [0],.count p p 1⟩

/-! ## Maximal runs -/

/-- The maximal runs of bytes that are no delimiters. -/
def tokens (p : UInt8 → Bool) (s : Text) : List Text := (s.splitOnP p).filter (· ≠ [])

section
variable {p q : UInt8 → Bool}

theorem tokens_delim {c : UInt8} (isDelim : p c = true) (s : Text) : tokens p (c :: s) = tokens p s := by
  rw [tokens,List.splitOnP_cons_eq_if_modifyHead,if_pos isDelim]
  rfl

theorem tokens_skip (s : Text) : tokens p (s.dropWhile p) = tokens p s := by
  induction s with
  | nil => rfl
  | cons c s ih =>
    rw [List.dropWhile_cons]
    split
    case isTrue isDelim => rw [ih,tokens_delim isDelim]
    case isFalse => rfl

theorem tokens_run {w : Text} (filled : w ≠ []) (plain : ∀ c ∈ w, p c = false) {c : UInt8} (isDelim : p c = true) (s : Text) :
    tokens p (w ++ c :: s) = w :: tokens p s := by
  rw [tokens,List.splitOnP_append_cons_of_forall_mem plain c isDelim,List.filter_cons,if_pos (decide_eq_true filled)]
  rfl

theorem tokens_last {w : Text} (filled : w ≠ []) (plain : ∀ c ∈ w, p c = false) : tokens p w = [w] := by
  rw [tokens,List.splitOnP_eq_singleton plain,List.filter_cons,if_pos (decide_eq_true filled)]
  rfl

/-- The runs hold all bytes that are no delimiters. -/
theorem tokens_flatten (s : Text) : (tokens p s).flatten = s.filter (!p ·) := by
  refine List.flatten_filter_ne_nil.trans ?_
  induction s with
  | nil => rfl
  | cons c s ih =>
    rw [List.splitOnP_cons_eq_if_modifyHead,List.filter_cons]
    cases isDelim : p c with
    | true => exact ih
    | false =>
      obtain ⟨first,later,split⟩ := List.exists_cons_of_ne_nil (List.splitOnP_ne_nil p s)
      rw [split] at ih ⊢
      exact congrArg (c :: ·) ih

/-- Two sets of delimiters give the same runs when they differ in no byte of the text. -/
theorem tokens_agree (s : Text) : tokens p s = tokens q s ↔ ∀ c ∈ s, p c = q c := by
  constructor
  · intro same c inside
    have flat := congrArg List.flatten same
    rw [tokens_flatten,tokens_flatten] at flat
    have both : c ∈ s.filter (!p ·) ↔ c ∈ s.filter (!q ·) := by rw [flat]
    rw [List.mem_filter,List.mem_filter] at both
    cases inP : p c <;> cases inQ : q c <;> simp [inside,inP,inQ] at both ⊢
  · intro agree
    have same : s.splitOnP p = s.splitOnP q := by
      induction s with
      | nil => rfl
      | cons c s ih =>
        rw [List.splitOnP_cons_eq_if_modifyHead,List.splitOnP_cons_eq_if_modifyHead,agree c List.mem_cons_self,
          ih fun d inside => agree d (List.mem_cons_of_mem _ inside)]
    rw [tokens,tokens,same]

/-! ## Both passes -/

variable {bits : Bits} {bytes : List UInt8}

@[simp] theorem zero_delimits (bits : Bits) : delimits bits 0 = false := rfl

theorem skipped (bits : Bits) (s : Text) : skipDelimiter bits (s ++ [0]) = some (s.takeWhile (delimits bits)).length := by
  induction s with
  | nil => rfl
  | cons c s ih =>
    rw [List.cons_append,skipDelimiter,List.takeWhile_cons]
    cases delimits bits c with
    | true => simp [ih]
    | false => rfl

/-- A word has begun, or begins with the next byte. -/
def Begun (bits : Bits) (w s : Text) : Prop := (∀ c ∈ w, delimits bits c = false) ∧ ∃ c rest, w ++ s = c :: rest ∧ delimits bits c = false

theorem Begun.more {c : UInt8} {w s : Text} (begun : Begun bits w (c :: s)) (plain : delimits bits c = false) : Begun bits (w ++ [c]) s := by
  refine ⟨?_,?_⟩
  · intro e inside
    rcases List.mem_append.mp inside with inside | last
    · exact begun.1 e inside
    · rw [List.mem_singleton.mp last]
      exact plain
  · rw [List.append_assoc]
    exact begun.2

theorem Begun.filled {w : Text} (begun : Begun bits w []) : w ≠ [] := by
  obtain ⟨c,rest,whole,-⟩ := begun.2
  rw [← List.append_nil w,whole]
  exact List.cons_ne_nil c rest

theorem Begun.closed {c : UInt8} {w s : Text} (begun : Begun bits w (c :: s)) (isDelim : delimits bits c = true) : w ≠ [] := by
  rintro rfl
  obtain ⟨e,rest,whole,plain⟩ := begun.2
  rw [List.nil_append,List.cons.injEq] at whole
  rw [whole.1,plain] at isDelim
  cases isDelim

theorem first_plain {s rest : Text} {c : UInt8} (shape : s.dropWhile (delimits bits) = c :: rest) : delimits bits c = false := by
  have first := List.head?_dropWhile_not (delimits bits) s
  rw [shape,List.head?_cons] at first
  simpa using first

/-- How both passes walk: the words in `s`, of which the first one begins with `w`. -/
inductive Walk (bits : Bits) : Text → Text → List Text → Prop
  | ended (w : Text) : Walk bits w [] [w]
  | byte {c : UInt8} {w s : Text} {ts : List Text} (plain : delimits bits c = false) (walk : Walk bits (w ++ [c]) s ts) :
    Walk bits w (c :: s) ts
  | last {c : UInt8} {w s : Text} (isDelim : delimits bits c = true) (nothing : s.dropWhile (delimits bits) = []) :
    Walk bits w (c :: s) [w]
  | more {c e : UInt8} {w s rest : Text} {ts : List Text} (isDelim : delimits bits c = true)
    (shape : s.dropWhile (delimits bits) = e :: rest) (walk : Walk bits [] (e :: rest) ts) : Walk bits w (c :: s) (w :: ts)

theorem walks (n : Nat) (w s : Text) (long : s.length ≤ n) (begun : Begun bits w s) : Walk bits w s (tokens (delimits bits) (w ++ s)) := by
  induction n generalizing w s with
  | zero =>
    obtain rfl := List.eq_nil_of_length_eq_zero (Nat.le_zero.mp long)
    rw [List.append_nil,tokens_last begun.filled begun.1]
    exact .ended w
  | succ n ih =>
    cases s with
    | nil =>
      rw [List.append_nil,tokens_last begun.filled begun.1]
      exact .ended w
    | cons c s =>
      have shorter : s.length ≤ n := Nat.le_of_succ_le_succ long
      cases isDelim : delimits bits c with
      | false =>
        have whole : w ++ c :: s = w ++ [c] ++ s := by simp
        rw [whole]
        exact .byte isDelim (ih (w ++ [c]) s shorter (begun.more isDelim))
      | true =>
        rw [tokens_run (begun.closed isDelim) begun.1 isDelim,← tokens_skip s]
        cases shape : s.dropWhile (delimits bits) with
        | nil => exact .last isDelim shape
        | cons e rest =>
          have within : (e :: rest).length ≤ n := by
            rw [← shape]
            exact (List.dropWhile_suffix _).length_le.trans shorter
          have later : Begun bits [] (e :: rest) := ⟨List.forall_mem_nil _,e,rest,rfl,first_plain shape⟩
          exact .more isDelim shape (ih [] (e :: rest) within later)

/-- What stands behind the delimiters. -/
theorem behind_skipped (bits : Bits) {p : Nat} {s : Text} (here : bytes.drop p = s ++ [0]) :
    bytes.drop (p + (s.takeWhile (delimits bits)).length) = s.dropWhile (delimits bits) ++ [0] := by
  rw [← List.drop_drop,here]
  have split : s.takeWhile (delimits bits) ++ s.dropWhile (delimits bits) = s := List.takeWhile_append_dropWhile
  calc (s ++ [0]).drop (s.takeWhile (delimits bits)).length
      = (s.takeWhile (delimits bits) ++ (s.dropWhile (delimits bits) ++ [0])).drop (s.takeWhile (delimits bits)).length := by
        rw [← List.append_assoc,split]
    _ = s.dropWhile (delimits bits) ++ [0] := List.drop_left

/-- The first pass counts the words. -/
theorem count_run {w s : Text} {ts : List Text} (walk : Walk bits w s ts) (free : 0 ∉ s) (start : Nat) {p : Nat}
    (here : bytes.drop p = s ++ [0]) (num : Nat) :
    Reaches (step bits) ⟨bytes,.count start p (num + 1)⟩ ⟨bytes,.fill (num + ts.length) start [start]⟩ := by
  induction walk generalizing p num with
  | ended w =>
    obtain ⟨isZero,-⟩ := read_cons here
    refine Reaches.after ?_ (Reaches.refl ..)
    simp only [step,isZero]
    rfl
  | @byte c w s ts plain walk ih =>
    have notZero : c ≠ 0 := fun zero => free (zero ▸ List.mem_cons_self)
    obtain ⟨isByte,behind⟩ := read_cons here
    refine Reaches.after ?_ (ih (fun inside => free (List.mem_cons_of_mem _ inside)) behind num)
    simp only [step,isByte,Option.bind_eq_bind,Option.bind_some,plain,notZero,if_false,Bool.false_eq_true]
  | @last c w s isDelim nothing =>
    obtain ⟨isByte,-⟩ := read_cons here
    have behind : bytes.drop (p + 1) = s ++ [0] := (read_cons here).2
    have later := behind_skipped bits behind
    rw [nothing] at later
    obtain ⟨isZero,-⟩ := read_cons later
    refine Reaches.after ?_ (Reaches.refl ..)
    simp only [step,isByte,Option.bind_eq_bind,Option.bind_some,isDelim,if_true,behind,skipped,isZero]
    rfl
  | @more c e w s rest ts isDelim shape walk ih =>
    obtain ⟨isByte,-⟩ := read_cons here
    have behind : bytes.drop (p + 1) = s ++ [0] := (read_cons here).2
    have later := behind_skipped bits behind
    rw [shape] at later
    obtain ⟨isNext,-⟩ := read_cons later
    have within : ∀ d ∈ e :: rest, d ∈ s := by
      rw [← shape]
      exact fun d inside => (List.dropWhile_suffix _).subset inside
    have notZero : e ≠ 0 := fun zero => free (List.mem_cons_of_mem _ (zero ▸ within e List.mem_cons_self))
    have total : num + (w :: ts).length = num + 1 + ts.length := by
      rw [List.length_cons]
      omega
    rw [total]
    refine Reaches.after ?_ (ih (fun inside => free (List.mem_cons_of_mem _ (within 0 inside))) later (num + 1))
    simp only [step,isByte,Option.bind_eq_bind,Option.bind_some,isDelim,if_true,behind,skipped,isNext,notZero,if_false]

variable {num : Nat} {front : List UInt8} {ps : List Nat}

/-- The string in the second pass: the words that are done, what was read of the current one,
    and what is still to be read. -/
def filling (num : Nat) (front w rest : List UInt8) (ps : List Nat) : State :=
  ⟨front ++ w ++ rest,.fill num (front.length + w.length) (ps ++ [front.length])⟩

theorem ends_room (room : ps.length < num) (bytes : List UInt8) : ends bytes num (ps ++ [front.length]) =
    some (.returned ⟨num,(ps ++ [front.length]).map some ++ [none],bytes⟩) := if_pos (cells room front.length)

theorem fill_end (room : ps.length < num) (w : Text) : step bits (filling num front w [0] ps) =
    some (.returned ⟨num,(ps ++ [front.length]).map some ++ [none],front ++ w ++ [0]⟩) := by
  simp only [step,filling,read_word,Option.bind_eq_bind,Option.bind_some,zero_delimits,Bool.false_eq_true,if_false,if_true,
    ends_room room]

theorem fill_byte {c : UInt8} (notZero : c ≠ 0) (plain : delimits bits c = false) (w : Text) (rest : List UInt8) :
    step bits (filling num front w (c :: rest) ps) = some (.goto (filling num front (w ++ [c]) rest ps)) := by
  have bytes : front ++ (w ++ [c]) ++ rest = front ++ w ++ c :: rest := by simp
  have moved : front.length + (w ++ [c]).length = front.length + w.length + 1 := by rw [List.length_append,List.length_singleton,Nat.add_assoc]
  simp only [step,filling,read_word,Option.bind_eq_bind,Option.bind_some,plain,Bool.false_eq_true,if_false,notZero,bytes,moved]

section
variable {c : UInt8} {s : Text} (isDelim : delimits bits c = true) (w : Text)
include isDelim

/-- The delimiter behind a word is overwritten, and the others up to the NUL are skipped. -/
theorem fill_last (nothing : s.dropWhile (delimits bits) = []) (room : ps.length < num) :
    step bits (filling num front w (c :: (s ++ [0])) ps) =
      some (.returned ⟨num,(ps ++ [front.length]).map some ++ [none],front ++ w ++ 0 :: (s ++ [0])⟩) := by
  have behind : (front ++ w ++ 0 :: (s ++ [0])).drop (front.length + w.length + 1) = s ++ [0] :=
    (read_cons (drop_word front w (0 :: (s ++ [0])))).2
  have later := behind_skipped bits behind
  rw [nothing] at later
  obtain ⟨isZero,-⟩ := read_cons later
  simp only [step,filling,read_word,Option.bind_eq_bind,Option.bind_some,isDelim,if_true,write_word,behind,skipped,isZero,ends_room room]

/-- The delimiter behind a word is overwritten, and the others up to the next word are skipped. -/
theorem fill_more {e : UInt8} {rest : Text} (shape : s.dropWhile (delimits bits) = e :: rest) (notZero : e ≠ 0)
    (room : ps.length < num) : step bits (filling num front w (c :: (s ++ [0])) ps) =
      some (.goto (filling num (front ++ w ++ 0 :: s.takeWhile (delimits bits)) [] (e :: (rest ++ [0])) (ps ++ [front.length]))) := by
  have behind : (front ++ w ++ 0 :: (s ++ [0])).drop (front.length + w.length + 1) = s ++ [0] :=
    (read_cons (drop_word front w (0 :: (s ++ [0])))).2
  have later := behind_skipped bits behind
  rw [shape] at later
  obtain ⟨isNext,-⟩ := read_cons later
  have split : s = s.takeWhile (delimits bits) ++ e :: rest := by rw [← shape,List.takeWhile_append_dropWhile]
  have bytes : front ++ w ++ 0 :: (s ++ [0]) = front ++ w ++ 0 :: s.takeWhile (delimits bits) ++ [] ++ e :: (rest ++ [0]) := by
    conv_lhs => rw [split]
    simp
  have moved : (front ++ w ++ 0 :: s.takeWhile (delimits bits)).length =
      front.length + w.length + 1 + (s.takeWhile (delimits bits)).length := by
    simp only [List.length_append,List.length_cons]
    omega
  simp only [step,filling,read_word,Option.bind_eq_bind,Option.bind_some,isDelim,if_true,write_word,behind,skipped,isNext,notZero,if_false,
    cells room front.length,moved,List.length_nil,Nat.add_zero,← bytes]

end

/-- The second pass cuts the words. -/
theorem fill_run {w s : Text} {ts : List Text} (walk : Walk bits w s ts) (free : 0 ∉ s) (clean : 0 ∉ w) (front : List UInt8)
    (ps : List Nat) : Fills (step bits) num front ps (filling num front w (s ++ [0]) ps) ts := by
  induction walk generalizing front ps with
  | ended w => exact Fills.last clean fun room => fill_end room w
  | @byte c w s ts plain walk ih =>
    have notZero : c ≠ 0 := fun zero => free (zero ▸ List.mem_cons_self)
    refine Fills.after (fill_byte notZero plain w _) (ih (fun inside => free (List.mem_cons_of_mem _ inside)) ?_ front ps)
    intro inside
    rcases List.mem_append.mp inside with inW | isC
    · exact clean inW
    · exact notZero (List.mem_singleton.mp isC).symm
  | @last c w s isDelim nothing => exact Fills.last clean fun room => fill_last isDelim w nothing room
  | @more c e w s rest ts isDelim shape walk ih =>
    have within : ∀ d ∈ e :: rest, d ∈ s := by
      rw [← shape]
      exact fun d inside => (List.dropWhile_suffix _).subset inside
    have notZero : e ≠ 0 := fun zero => free (List.mem_cons_of_mem _ (zero ▸ within e List.mem_cons_self))
    exact Fills.more clean (fill_more isDelim w shape notZero)
      (ih (fun inside => free (List.mem_cons_of_mem _ (within 0 inside))) List.not_mem_nil _ _)

/-- Both passes: as many cells as words. -/
theorem words_cut {s : Text} {ts : List Text} (walk : Walk bits [] s ts) (free : 0 ∉ s) (front : List UInt8) : ∃ ps bytes,
    Returns (step bits) ⟨front ++ s ++ [0],.count front.length front.length 1⟩ ⟨ts.length,ps.map some ++ [none],bytes⟩ ∧
      List.Forall₂ (Cut bytes) ps ts := by
  have here : (front ++ s ++ [0]).drop front.length = s ++ [0] := by rw [List.append_assoc,List.drop_left]
  have counted := count_run walk free front.length here 0
  have filled : Fills (step bits) ts.length front [] _ ts := fill_run walk free List.not_mem_nil front []
  obtain ⟨more,ps,returns,cuts⟩ := filled (Nat.zero_add _)
  simp only [filling,List.append_nil,List.length_nil,Nat.add_zero,List.nil_append] at returns
  rw [← List.append_assoc] at returns
  simp only [Nat.zero_add] at counted
  exact ⟨front.length :: ps,front ++ more,counted.returns returns,cuts⟩

end

/-! ## Which bytes delimit -/

theorem oneShl_small : ∀ m < 32, ∀ n < 32, (oneShl m &&& oneShl n = 0 ↔ m ≠ n) := by decide +kernel

theorem oneShl_meets (m n : Nat) : oneShl m &&& oneShl n = 0 ↔ m % 32 ≠ n % 32 := by
  have small := oneShl_small (m % 32) (Nat.mod_lt _ (by decide)) (n % 32) (Nat.mod_lt _ (by decide))
  rw [oneShl,oneShl,Nat.mod_mod,Nat.mod_mod] at small
  exact small

/-- A bit is tested behind one that was set. -/
theorem or_meets (x : BitVec 64) (m n : Nat) : (x ||| oneShl m) &&& oneShl n ≠ 0 ↔ x &&& oneShl n ≠ 0 ∨ m % 32 = n % 32 := by
  have split : (x ||| oneShl m) &&& oneShl n = (x &&& oneShl n) ||| (oneShl m &&& oneShl n) := BitVec.and_or_distrib_right
  have either : (x &&& oneShl n) ||| (oneShl m &&& oneShl n) = 0 ↔ x &&& oneShl n = 0 ∧ oneShl m &&& oneShl n = 0 := BitVec.or_eq_zero_iff
  rw [split,ne_eq,either,not_and_or,oneShl_meets,not_not]

/-- Two bytes of one half, 32 apart or the same. -/
def Meets (d c : UInt8) : Prop := d < 128 ∧ (d < 64 ↔ c < 64) ∧ d.toNat % 32 = c.toNat % 32

/-- The bit of a byte is set. -/
def Has (bits : Bits) (c : UInt8) : Prop :=
  if c < 64 then bits.bits0 &&& oneShl c.toNat ≠ 0 else bits.bits1 &&& oneShl (c.toNat - 64) ≠ 0

theorem delimits_iff {bits : Bits} {c : UInt8} : delimits bits c = true ↔ c ≠ 0 ∧ c < 128 ∧ Has bits c := by
  rw [delimits,Bool.and_eq_true,Bool.and_eq_true,decide_eq_true_iff,decide_eq_true_iff,and_assoc,Has]
  split <;> simp

theorem has_low (bits : Bits) {d : UInt8} (char : d < 128) (low : d < 64) (c : UInt8) :
    Has { bits with bits0 := bits.bits0 ||| oneShl d.toNat } c ↔ Has bits c ∨ Meets d c := by
  rw [Has,Has]
  by_cases lowC : c < 64
  · have meets : Meets d c ↔ d.toNat % 32 = c.toNat % 32 := by simp [Meets,char,low,lowC]
    rw [if_pos lowC,if_pos lowC,or_meets,meets]
  · have meets : ¬ Meets d c := fun both => lowC (both.2.1.mp low)
    rw [if_neg lowC,if_neg lowC,or_iff_left meets]

theorem has_high (bits : Bits) {d : UInt8} (char : d < 128) (high : ¬ d < 64) (c : UInt8) :
    Has { bits with bits1 := bits.bits1 ||| oneShl (d.toNat - 64) } c ↔ Has bits c ∨ Meets d c := by
  rw [Has,Has]
  by_cases lowC : c < 64
  · have meets : ¬ Meets d c := fun both => high (both.2.1.mpr lowC)
    rw [if_pos lowC,if_pos lowC,or_iff_left meets]
  · have meets : Meets d c ↔ (d.toNat - 64) % 32 = (c.toNat - 64) % 32 := by
      simp only [Meets,char,high,lowC,true_and]
      rw [UInt8.lt_iff_toNat_lt] at high lowC
      change ¬ d.toNat < 64 at high
      change ¬ c.toNat < 64 at lowC
      omega
    rw [if_neg lowC,if_neg lowC,or_meets,meets]

theorem setup_has (bits : Bits) (delim : Text) (c : UInt8) :
    Has (setupTokenize bits delim) c ↔ Has bits c ∨ ∃ d ∈ delim, Meets d c := by
  induction delim generalizing bits with
  | nil => simp [setupTokenize]
  | cons d delim ih =>
    have each : (∃ e ∈ d :: delim, Meets e c) ↔ Meets d c ∨ ∃ e ∈ delim, Meets e c := by simp
    rw [each,← or_assoc,setupTokenize]
    by_cases char : d < 128
    · by_cases low : d < 64
      · rw [if_pos char,if_pos low,ih,has_low bits char low]
      · rw [if_pos char,if_neg low,ih,has_high bits char low]
    · have meets : ¬ Meets d c := fun both => char both.1
      rw [if_neg char,ih,or_iff_left meets]

theorem xor_32 : ∀ m < 128, m ^^^ 32 = if m / 32 % 2 = 0 then m + 32 else m - 32 := by decide +kernel

/-- The other byte of a half with the same bit. -/
theorem meets_iff {d c : UInt8} (char : c < 128) : Meets d c ↔ d = c ∨ d = c ^^^ 32 := by
  have isChar : c.toNat < 128 := UInt8.lt_iff_toNat_lt.mp char
  have low (e : UInt8) : e < 64 ↔ e.toNat < 64 := UInt8.lt_iff_toNat_lt
  have small : d < 128 ↔ d.toNat < 128 := UInt8.lt_iff_toNat_lt
  have other : c.toNat ^^^ (32 : UInt8).toNat = if c.toNat / 32 % 2 = 0 then c.toNat + 32 else c.toNat - 32 := xor_32 _ isChar
  rw [Meets,← UInt8.toNat_inj,← UInt8.toNat_inj,UInt8.toNat_xor,low,low,small,other]
  split <;> omega

/-- A byte in front of 128 delimits when it, or the one that is 32 away in its half, is a
    delimiter. -/
theorem delimits_setup (delim : Text) (c : UInt8) :
    delimits (setupTokenize ⟨0,0⟩ delim) c = true ↔ c ≠ 0 ∧ c < 128 ∧ (c ∈ delim ∨ c ^^^ 32 ∈ delim) := by
  have nothing : ¬ Has ⟨0,0⟩ c := by simp [Has]
  rw [delimits_iff,setup_has,or_iff_right nothing]
  refine and_congr_right fun _ => and_congr_right fun char => ?_
  constructor
  · rintro ⟨d,inside,meets⟩
    rcases (meets_iff char).mp meets with rfl | rfl
    · exact .inl inside
    · exact .inr inside
  · rintro (inside | inside)
    · exact ⟨c,inside,(meets_iff char).mpr (.inl rfl)⟩
    · exact ⟨_,inside,(meets_iff char).mpr (.inr rfl)⟩

/-- What is returned: the number of the texts, and a cell for each of them. -/
def Tokenizes (delim s : Text) (ts : List Text) : Prop := ∃ fuel ps bytes,
  acPoolTokenize fuel delim s = some (.returned ⟨ts.length,ps.map some ++ [none],bytes⟩) ∧ List.Forall₂ (Cut bytes) ps ts

/-- The maximal runs of bytes that are not taken for delimiters are returned. -/
theorem tokenize_runs (delim s : Text) (free : 0 ∉ s) : Tokenizes delim s (tokens (delimits (setupTokenize ⟨0,0⟩ delim)) s) := by
  rw [← tokens_skip]
  unfold Tokenizes acPoolTokenize
  simp only [skipped,Option.bind_eq_bind,Option.bind_some]
  generalize setupTokenize ⟨0,0⟩ delim = bits
  have here : (s ++ [0]).drop (0 + (s.takeWhile (delimits bits)).length) = s.dropWhile (delimits bits) ++ [0] := behind_skipped bits rfl
  rw [Nat.zero_add] at here
  have split : s.takeWhile (delimits bits) ++ s.dropWhile (delimits bits) = s := List.takeWhile_append_dropWhile
  cases shape : s.dropWhile (delimits bits) with
  | nil =>
    rw [shape] at here
    refine ⟨0,[],s ++ [0],?_,.nil⟩
    rw [(read_cons here).1]
    rfl
  | cons c rest =>
    rw [shape] at here split
    have clear : 0 ∉ c :: rest := by
      rw [← split] at free
      exact fun inside => free (List.mem_append_right _ inside)
    have notZero : c ≠ 0 := fun zero => clear (zero ▸ List.mem_cons_self)
    have begun : Begun bits [] (c :: rest) := ⟨List.forall_mem_nil _,c,rest,rfl,first_plain shape⟩
    obtain ⟨ps,bytes,⟨fuel,ran⟩,cuts⟩ := words_cut (walks _ [] (c :: rest) le_rfl begun) clear (s.takeWhile (delimits bits))
    rw [split] at ran
    refine ⟨fuel,ps,bytes,?_,cuts⟩
    rw [(read_cons here).1,Option.bind_some,if_neg notZero]
    exact ran

theorem cut_unique {bytes : List UInt8} {ps : List Nat} {ts ts' : List Text} (cuts : List.Forall₂ (Cut bytes) ps ts)
    (cuts' : List.Forall₂ (Cut bytes) ps ts') : ts = ts' := by
  induction cuts generalizing ts' with
  | nil =>
    cases cuts'
    rfl
  | cons cut cuts ih =>
    cases cuts' with
    | cons cut' cuts' => rw [← cut.stringAt,← cut'.stringAt,ih cuts']

/-- What is returned does not depend on the fuel. -/
theorem tokenize_fuel {fuel fuel' : Nat} {delim s : Text} {r r' : Split} (returned : acPoolTokenize fuel delim s = some (.returned r))
    (returned' : acPoolTokenize fuel' delim s = some (.returned r')) : r = r' := by
  unfold acPoolTokenize at returned returned'
  obtain ⟨p,skips,returned⟩ := Option.bind_eq_some_iff.mp returned
  obtain ⟨c,reads,returned⟩ := Option.bind_eq_some_iff.mp returned
  simp only [skips,reads,Option.bind_eq_bind,Option.bind_some] at returned'
  split at returned
  case isTrue none_ =>
    rw [if_pos none_] at returned'
    cases returned
    cases returned'
    rfl
  case isFalse some_ =>
    rw [if_neg some_] at returned'
    exact Returns.unique ⟨fuel,returned⟩ ⟨fuel',returned'⟩

theorem Tokenizes.unique {delim s : Text} {ts ts' : List Text} (first : Tokenizes delim s ts) (second : Tokenizes delim s ts') : ts = ts' := by
  obtain ⟨fuel,ps,bytes,returned,cuts⟩ := first
  obtain ⟨fuel',ps',bytes',returned',cuts'⟩ := second
  have same := tokenize_fuel returned returned'
  simp only [Split.mk.injEq,List.append_cancel_right_eq] at same
  obtain ⟨-,cells,rfl⟩ := same
  have equal : ps = ps' := List.map_injective_iff.mpr (Option.some_injective Nat) cells
  subst equal
  exact cut_unique cuts cuts'

/-- The maximal runs of bytes that are not in the set are returned, where no other byte of the
    string is 32 away from a delimiter of its half. -/
theorem tokenize_exact_iff (delim s : Text) (chars : ∀ d ∈ delim, d ≠ 0 ∧ d < 128) (free : 0 ∉ s) :
    Tokenizes delim s (tokens (· ∈ delim) s) ↔ ∀ c ∈ s, c < 128 → c ∉ delim → c ^^^ 32 ∉ delim := by
  have runs := tokenize_runs delim s free
  have agree : Tokenizes delim s (tokens (· ∈ delim) s) ↔ ∀ c ∈ s, decide (c ∈ delim) = delimits (setupTokenize ⟨0,0⟩ delim) c := by
    rw [← tokens_agree]
    constructor
    · intro exact_
      exact exact_.unique runs
    · intro same
      rw [same]
      exact runs
  rw [agree]
  refine forall_congr' fun c => forall_congr' fun inside => ?_
  have notZero : c ≠ 0 := fun zero => free (zero ▸ inside)
  rw [Bool.eq_iff_iff,decide_eq_true_iff,delimits_setup]
  constructor
  · intro same char outside other
    exact outside (same.mpr ⟨notZero,char,.inr other⟩)
  · intro apart
    constructor
    · intro isDelim
      exact ⟨notZero,(chars c isDelim).2,.inl isDelim⟩
    · rintro ⟨-,char,isDelim | other⟩
      · exact isDelim
      · exact Classical.byContradiction fun outside => apart char outside other

/-- `a b` split at the space. -/
theorem tokenize_exact_two : Tokenizes [32] [97,32,98] (tokens (· ∈ [32]) [97,32,98]) := by
  refine (tokenize_exact_iff [32] [97,32,98] ?_ (by decide)).mpr ?_
  · intro d inside
    rw [List.mem_singleton.mp inside]
    decide
  · intro c inside _ _
    simp only [List.mem_cons,List.not_mem_nil,or_false] at inside
    rcases inside with rfl | rfl | rfl <;> decide

/-- The `a` of `xay` is taken for the delimiter `A`. -/
theorem lower_for_upper : ¬ Tokenizes [65] [120,97,121] (tokens (· ∈ [65]) [120,97,121]) := by
  intro exact_
  have runs := tokenize_runs [65] [120,97,121] (by decide)
  have same := (tokens_agree _).mp (exact_.unique runs) 97 (by decide)
  revert same
  decide +kernel

end AnotherC.PoolTokenize
