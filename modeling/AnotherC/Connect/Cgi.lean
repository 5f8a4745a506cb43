import AnotherC.Core.PoolCells
import AnotherC.Lib.Units
import Mathlib.Data.List.Infix

/-!
# `ac_cgi_decode`

The first loop decodes the percent sequences and the pluses of the string into a region of the
pool, the second one decodes named entities in that region. The second loop does not write a NUL
behind what it has decoded, so that the end of the text that it has read stays there. The first
one looks at the two bytes behind a percent sign, of which the second can be behind the NUL.
-/
namespace AnotherC.Cgi
open AnotherC.PoolCells
open AnotherC.Lib.Text (Text)
open AnotherC.Lib.Steps
open AnotherC.Lib.InPlace
open AnotherC.Lib.Units
set_option linter.unusedVariables false

/-! ## The code -/

/-- `to_hex`; `none` stands for -1. -/
def toHex (v : UInt8) : Option Nat :=
  if 48 ≤ v ∧ v ≤ 57 then some (v.toNat - 48)
  else if 97 ≤ v ∧ v ≤ 102 then some (v.toNat - 97 + 10)
  else if 65 ≤ v ∧ v ≤ 70 then some (v.toNat - 65 + 10)
  else none

/-- The byte that is written for two hexadecimal digits. -/
def sequence (v1 v2 : Nat) : UInt8 := if 16 * v1 + v2 ≠ 1 ∧ 16 * v1 + v2 < 32 then 32 else .ofNat (16 * v1 + v2)

inductive Label where
  | percent
  | named
deriving Repr, DecidableEq

structure State where
  label : Label
  res : List UInt8
  p : Nat
  wp : Nat
deriving Repr, DecidableEq

/-- Whether the bytes at `p` are these ones; they are read up to the first that differs. -/
def starts (res : List UInt8) (p : Nat) : List UInt8 → Option Bool
  | [] => some true
  | c :: cs => do
    let d ← res[p]?
    if d = c then starts res (p + 1) cs else some false

/-- What is written for an ampersand, and how many bytes behind it are passed. -/
def entity (res : List UInt8) (p : Nat) : Option (UInt8 × Nat) := do
  let first ← res[p]?
  if first = 97 then
    if ← starts res (p + 1) [112,111,115,59] then some (39,5)
    else if ← starts res (p + 1) [109,112,59] then some (38,4)
    else some (38,0)
  else if ← starts res p [103,116,59] then some (62,3)
  else if ← starts res p [108,116,59] then some (60,3)
  else if ← starts res p [113,117,111,116,59] then some (34,5)
  else some (38,0)

/-- One round of the loops of `ac_cgi_decode`, for a string with its NUL. -/
def step (s : List UInt8) (state : State) : Option (Next State (List UInt8)) :=
  match state.label with
  | .percent => do
    let c ← s[state.p]?
    if c = 0 then do
      let res ← write state.res state.wp 0
      some (.goto ⟨.named,res,0,0⟩)
    else do
      let read : UInt8 × Nat ←
        if c = 37 then do
          let p1 ← s[state.p + 1]?
          let p2 ← s[state.p + 2]?
          match toHex p1,toHex p2 with
          | some v1,some v2 => some (sequence v1 v2,2)
          | _,_ => some (c,0)
        else if c = 43 then some (32,0)
        else some (c,0)
      let res ← write state.res state.wp read.1
      some (.goto ⟨.percent,res,state.p + 1 + read.2,state.wp + 1⟩)
  | .named => do
    let c ← state.res[state.p]?
    if c = 0 then some (.returned state.res)
    else do
      let read ← if c = 38 then entity state.res (state.p + 1) else some (c,0)
      let res ← write state.res state.wp read.1
      some (.goto ⟨.named,res,state.p + 1 + read.2,state.wp + 1⟩)

/-- The region from `ac_pool_alloc` can hold anything. -/
def begin (region : List UInt8) : State := ⟨.percent,region,0,0⟩

/-- `ac_cgi_decode`, for as many rounds. -/
def acCgiDecode (fuel : Nat) (s : Text) (region : List UInt8) : Option (Next State (List UInt8)) := run (step (s ++ [0])) fuel (begin region)

/-! ## The two decodings -/

/-- A percent sequence or a plus. Control codes other than 1 become spaces. -/
def percentUnit (c : UInt8) (s : Text) : UInt8 × Nat :=
  if c = 37 then
    match (s[0]?.bind toHex),(s[1]?.bind toHex) with
    | some v1,some v2 => (sequence v1 v2,2)
    | _,_ => (c,0)
  else if c = 43 then (32,0)
  else (c,0)

/-- The named entities without the ampersand, and what they stand for. -/
def entities : List (Text × UInt8) :=
  [([97,112,111,115,59],39),([97,109,112,59],38),([103,116,59],62),([108,116,59],60),([113,117,111,116,59],34)]

def namedUnit (c : UInt8) (s : Text) : UInt8 × Nat :=
  if c = 38 then
    match entities.find? fun e => e.1.isPrefixOf s with
    | some e => (e.2,e.1.length)
    | none => (c,0)
  else (c,0)

def percentDecoded (s : Text) : Text := decoded percentUnit 0 s
def namedDecoded (s : Text) : Text := decoded namedUnit 0 s

/-- The code returns the string in which both were decoded, one after the other, whatever the region
    held before. -/
def Decodes (s : Text) : Prop := ∀ region : List UInt8, region.length = s.length + 1 →
  ∃ bytes, Returns (step (s ++ [0])) (begin region) bytes ∧ Cut bytes 0 (namedDecoded (percentDecoded s))

example : namedDecoded (percentDecoded [37,50,54,108,116,59,43,37,52]) = [60,32,37,52] := by decide

/-! ## Units -/

section
variable {c : UInt8} {s : Text}

theorem sequence_nonzero (v1 v2 : Nat) (small1 : v1 < 16) (small2 : v2 < 16) : sequence v1 v2 ≠ 0 := by
  rw [sequence]
  split
  · decide
  · intro zero
    have value := congrArg UInt8.toNat zero
    rw [UInt8.toNat_ofNat',Nat.mod_eq_of_lt (by omega)] at value
    simp only [UInt8.toNat_zero] at value
    omega

theorem toHex_small {v : UInt8} {n : Nat} (hex : toHex v = some n) : n < 16 := by
  have bound := v.toNat_lt
  simp only [toHex,UInt8.le_iff_toNat_le] at hex
  split at hex
  case isTrue digit =>
    cases hex
    have high : v.toNat ≤ 57 := digit.2
    omega
  split at hex
  case isTrue lower =>
    cases hex
    have high : v.toNat ≤ 102 := lower.2
    omega
  split at hex
  case isTrue upper =>
    cases hex
    have high : v.toNat ≤ 70 := upper.2
    omega
  case isFalse => cases hex

/-- What `percentUnit` can be. -/
theorem percentUnit_cases (c : UInt8) (s : Text) :
    (c = 37 ∧ ∃ a b rest v1 v2, s = a :: b :: rest ∧ toHex a = some v1 ∧ toHex b = some v2 ∧ percentUnit c s = (sequence v1 v2,2)) ∨
      (c = 43 ∧ percentUnit c s = (32,0)) ∨ percentUnit c s = (c,0) := by
  by_cases percent : c = 37
  · subst percent
    rcases s with _ | ⟨a,_ | ⟨b,rest⟩⟩
    · exact .inr (.inr rfl)
    · right
      right
      cases hex : toHex a with
      | none => simp [percentUnit,hex]
      | some v1 => simp [percentUnit]
    · cases hex1 : toHex a with
      | none => exact .inr (.inr (by simp [percentUnit,hex1]))
      | some v1 =>
        cases hex2 : toHex b with
        | none => exact .inr (.inr (by simp [percentUnit,hex1,hex2]))
        | some v2 => exact .inl ⟨rfl,a,b,rest,v1,v2,rfl,hex1,hex2,by simp [percentUnit,hex1,hex2]⟩
  by_cases plus : c = 43
  · exact .inr (.inl ⟨plus,by rw [percentUnit,if_neg percent,if_pos plus]⟩)
  · exact .inr (.inr (by rw [percentUnit,if_neg percent,if_neg plus]))

theorem percentUnit_fits (c : UInt8) (s : Text) : (percentUnit c s).2 ≤ s.length := by
  rcases percentUnit_cases c s with ⟨-,a,b,rest,v1,v2,rfl,-,-,unit⟩ | ⟨-,unit⟩ | unit
  · rw [unit,List.length_cons,List.length_cons]
    omega
  · rw [unit]
    exact Nat.zero_le _
  · rw [unit]
    exact Nat.zero_le _

theorem percentUnit_nonzero (nonzero : c ≠ 0) : (percentUnit c s).1 ≠ 0 := by
  rcases percentUnit_cases c s with ⟨-,a,b,rest,v1,v2,-,hex1,hex2,unit⟩ | ⟨-,unit⟩ | unit
  · rw [unit]
    exact sequence_nonzero v1 v2 (toHex_small hex1) (toHex_small hex2)
  · rw [unit]
    decide
  · rw [unit]
    exact nonzero

/-- No percent sign is a part of the sequence of another. -/
theorem percentUnit_skips : ∀ d ∈ s.take (percentUnit c s).2, d ≠ 37 := by
  have noDigit : toHex 37 = none := by decide
  rcases percentUnit_cases c s with ⟨-,a,b,rest,v1,v2,rfl,hex1,hex2,unit⟩ | ⟨-,unit⟩ | unit
  · rw [unit]
    intro d member same
    subst same
    rcases List.mem_cons.mp member with here | member
    · rw [← here,noDigit] at hex1
      cases hex1
    · rw [← List.mem_singleton.mp member,noDigit] at hex2
      cases hex2
  · rw [unit]
    exact List.forall_mem_nil _
  · rw [unit]
    exact List.forall_mem_nil _

theorem percentDecoded_nonzero (free : 0 ∉ s) : 0 ∉ percentDecoded s := by
  intro member
  obtain ⟨c,rest,inside,same⟩ := mem_decoded percentUnit member
  exact percentUnit_nonzero (fun zero => free (zero ▸ inside)) same.symm

end

/-! ## The first loop -/

section
variable {cells w gap behind : List UInt8} {c : UInt8} {s : Text} {p : Nat}

theorem write_gap (w gap : List UInt8) (x : UInt8) (room : gap ≠ []) : write (w ++ gap) w.length x = some (w ++ [x] ++ gap.tail) := by
  obtain ⟨g,gap,rfl⟩ := List.exists_cons_of_ne_nil room
  have written := write_word [] w g x gap
  rw [List.nil_append,List.length_nil,Nat.zero_add] at written
  rw [written,List.tail_cons,List.append_assoc]
  rfl

/-- The state when a byte was written. -/
theorem written_length (w : List UInt8) (x : UInt8) : (w ++ [x]).length = w.length + 1 := by
  rw [List.length_append,List.length_singleton]

theorem step_percent (here : cells.drop p = c :: (s ++ 0 :: behind)) (nonzero : c ≠ 0) (free : 0 ∉ s) (room : gap ≠ []) :
    step cells ⟨.percent,w ++ gap,p,w.length⟩ = if c = 37 ∧ s = [] ∧ behind = [] then none else
      some (.goto ⟨.percent,w ++ [(percentUnit c s).1] ++ gap.tail,p + 1 + (percentUnit c s).2,(w ++ [(percentUnit c s).1]).length⟩) := by
  obtain ⟨read,after⟩ := read_cons here
  have read1 : cells[p + 1]? = (s ++ 0 :: behind)[0]? := by rw [← after,List.getElem?_drop,Nat.add_zero]
  have read2 : cells[p + 1 + 1]? = (s ++ 0 :: behind)[1]? := by rw [← after,List.getElem?_drop]
  have noDigit : toHex 0 = none := by decide
  simp only [step,read,Option.bind_eq_bind,Option.bind_some,nonzero,if_false,written_length]
  by_cases percent : c = 37
  · subst percent
    rw [if_pos rfl,read1,read2]
    rcases s with _ | ⟨a,_ | ⟨b,rest⟩⟩
    · cases behind with
      | nil => rfl
      | cons x behind => simp [percentUnit,noDigit,write_gap w gap _ room]
    · have unit : percentUnit 37 [a] = (37,0) := by
        rcases percentUnit_cases 37 [a] with ⟨-,a,b,rest,v1,v2,whole,-⟩ | ⟨other,-⟩ | unit
        · cases whole
        · exact absurd other (by decide)
        · exact unit
      rw [unit]
      cases hex : toHex a with
      | none => simp [hex,write_gap w gap _ room]
      | some v1 => simp [noDigit,write_gap w gap _ room]
    · cases hex1 : toHex a with
      | none => simp [percentUnit,hex1,write_gap w gap _ room]
      | some v1 =>
        cases hex2 : toHex b with
        | none => simp [percentUnit,hex1,hex2,write_gap w gap _ room]
        | some v2 => simp [percentUnit,hex1,hex2,write_gap w gap _ room]
  · rw [if_neg percent,if_neg fun both : c = 37 ∧ s = [] ∧ behind = [] => percent both.1]
    by_cases plus : c = 43
    · subst plus
      simp [percentUnit,write_gap w gap _ room]
    · simp [percentUnit,percent,plus,write_gap w gap _ room]

theorem step_percent_end (here : cells.drop p = 0 :: behind) (room : gap ≠ []) :
    step cells ⟨.percent,w ++ gap,p,w.length⟩ = some (.goto ⟨.named,w ++ [0] ++ gap.tail,0,0⟩) := by
  obtain ⟨read,-⟩ := read_cons here
  simp only [step,read,Option.bind_eq_bind,Option.bind_some,if_true,write_gap w gap 0 room]

/-- What the first loop does with what is left of the string. -/
def Percents (cells behind : List UInt8) (s result : Text) (state : State) : Prop :=
  if s.getLast? = some 37 ∧ behind = [] then Fails (step cells) state
  else ∃ more, Reaches (step cells) state ⟨.named,result ++ [0] ++ more,0,0⟩

theorem Percents.after {result : Text} {state state' : State} (stepped : step cells state = some (.goto state'))
    (later : Percents cells behind s result state') : Percents cells behind s result state := by
  unfold Percents at later ⊢
  split
  case isTrue last =>
    rw [if_pos last] at later
    exact Fails.after stepped later
  case isFalse last =>
    rw [if_neg last] at later
    obtain ⟨more,reaches⟩ := later
    exact ⟨more,Reaches.after stepped reaches⟩

/-- The last byte stays the last one. -/
theorem Percents.cons {result : Text} {state : State} (other : ¬ (c = 37 ∧ s = [] ∧ behind = [])) (later : Percents cells behind s result state) :
    Percents cells behind (c :: s) result state := by
  have last : (c :: s).getLast? = some 37 ∧ behind = [] ↔ s.getLast? = some 37 ∧ behind = [] := by
    cases s with
    | nil => simpa using fun percent => other.imp fun nothing => ⟨percent,rfl,nothing⟩
    | cons d s => rw [List.getLast?_cons_cons]
  unfold Percents at later ⊢
  simpa only [last] using later

theorem percents_run (k : Nat) (here : cells.drop p = s ++ 0 :: behind) (free : 0 ∉ s) (inside : k ≤ s.length)
    (skips : ∀ d ∈ s.take k, d ≠ 37) (room : s.length + 1 ≤ gap.length) :
    Percents cells behind s (w ++ decoded percentUnit k s) ⟨.percent,w ++ gap,p + k,w.length⟩ := by
  induction s generalizing k p w gap with
  | nil =>
    rw [List.length_nil,Nat.le_zero] at inside
    subst inside
    have some_ : gap ≠ [] := List.ne_nil_of_length_pos (by omega)
    rw [decoded_nil,List.append_nil]
    have ends : ¬ ((([] : Text).getLast? = some 37) ∧ behind = []) := by simp
    rw [Percents,if_neg ends]
    exact ⟨gap.tail,Reaches.after (step_percent_end here some_) (Reaches.refl ..)⟩
  | cons c s ih =>
    have nonzero : c ≠ 0 := fun zero => free (zero ▸ List.mem_cons_self)
    have free' : 0 ∉ s := fun member => free (List.mem_cons_of_mem _ member)
    have after : cells.drop (p + 1) = s ++ 0 :: behind := (read_cons here).2
    rw [List.length_cons] at inside room
    cases k with
    | succ k =>
      refine Percents.cons (fun both => skips c List.mem_cons_self both.1) ?_
      rw [decoded,show p + (k + 1) = p + 1 + k by omega]
      exact ih k after free' (by omega) (fun d member => skips d (List.mem_cons_of_mem _ member)) (by omega)
    | zero =>
      have some_ : gap ≠ [] := List.ne_nil_of_length_pos (by omega)
      have stepped := step_percent (w := w) here nonzero free' some_
      by_cases last : c = 37 ∧ s = [] ∧ behind = []
      · rw [if_pos last] at stepped
        obtain ⟨rfl,rfl,rfl⟩ := last
        exact Fails.now stepped
      · rw [if_neg last] at stepped
        refine Percents.cons last (Percents.after stepped ?_)
        rw [decoded,← List.singleton_append,← List.append_assoc]
        exact ih _ after free' (percentUnit_fits c s) percentUnit_skips (by rw [List.length_tail]; omega)

end

/-! ## The second loop -/

section
variable {res w gap more : List UInt8} {c : UInt8} {s : Text} {p q : Nat}

theorem starts_spec (here : res.drop p = s ++ 0 :: more) (free : 0 ∉ s) (name : List UInt8) (named : 0 ∉ name) :
    starts res p name = some (name.isPrefixOf s) := by
  induction name generalizing s p with
  | nil => rfl
  | cons c cs ih =>
    have nonzero : c ≠ 0 := fun zero => named (zero ▸ List.mem_cons_self)
    cases s with
    | nil =>
      obtain ⟨read,-⟩ := read_cons here
      rw [starts,read,Option.bind_eq_bind,Option.bind_some,if_neg nonzero.symm]
      rfl
    | cons d s =>
      obtain ⟨read,behind⟩ := read_cons here
      rw [starts,read,Option.bind_eq_bind,Option.bind_some,List.isPrefixOf_cons_cons]
      by_cases same : d = c
      · rw [if_pos same,ih behind (fun member => free (List.mem_cons_of_mem _ member)) fun member => named (List.mem_cons_of_mem _ member)]
        simp [same]
      · rw [if_neg same]
        simp [Ne.symm same]

theorem entity_spec (here : res.drop p = s ++ 0 :: more) (free : 0 ∉ s) : entity res p = some (namedUnit 38 s) := by
  have known (name : List UInt8) (named : 0 ∉ name) := starts_spec here free name named
  rcases s with _ | ⟨d,s⟩
  · obtain ⟨read,-⟩ := read_cons here
    rw [entity,read,Option.bind_eq_bind,Option.bind_some,if_neg (by decide)]
    simp [known,namedUnit,entities]
  · obtain ⟨read,behind⟩ := read_cons here
    have known' (name : List UInt8) (named : 0 ∉ name) :=
      starts_spec behind (fun member => free (List.mem_cons_of_mem _ member)) name named
    rw [entity,read,Option.bind_eq_bind,Option.bind_some]
    by_cases first : d = 97
    · subst first
      have apos : [97,112,111,115,59].isPrefixOf (97 :: s) = [112,111,115,59].isPrefixOf s := rfl
      have amp : [97,109,112,59].isPrefixOf (97 :: s) = [109,112,59].isPrefixOf s := rfl
      rw [if_pos rfl,known' _ (by decide),known' _ (by decide)]
      cases isApos : [112,111,115,59].isPrefixOf s with
      | true => simp [namedUnit,entities,apos,isApos]
      | false =>
        cases isAmp : [109,112,59].isPrefixOf s with
        | true => simp [namedUnit,entities,apos,isApos,amp,isAmp]
        | false =>
          have gt : [103,116,59].isPrefixOf (97 :: s) = false := rfl
          have lt : [108,116,59].isPrefixOf (97 :: s) = false := rfl
          have quot : [113,117,111,116,59].isPrefixOf (97 :: s) = false := rfl
          simp only [namedUnit,entities,List.find?_cons,apos,isApos,amp,isAmp,gt,lt,quot]
          rfl
    · have none_ (cs : List UInt8) : (97 :: cs).isPrefixOf (d :: s) = false := by
        rw [List.isPrefixOf_cons_cons,beq_eq_false_iff_ne.mpr (Ne.symm first),Bool.false_and]
      rw [if_neg first,known _ (by decide),known _ (by decide),known _ (by decide)]
      simp only [namedUnit,entities,List.find?_cons,none_]
      cases isGt : [103,116,59].isPrefixOf (d :: s) with
      | true => rfl
      | false =>
        cases isLt : [108,116,59].isPrefixOf (d :: s) with
        | true => rfl
        | false =>
          cases isQuot : [113,117,111,116,59].isPrefixOf (d :: s) with
          | true => rfl
          | false => rfl

theorem entity_found {e : Text × UInt8} (found : entities.find? (fun e => e.1.isPrefixOf s) = some e) : e ∈ entities ∧ e.1 <+: s := by
  have starts : e.1.isPrefixOf s = true := @List.find?_some _ (fun e : Text × UInt8 => e.1.isPrefixOf s) _ _ found
  exact ⟨List.mem_of_find?_eq_some found,List.isPrefixOf_iff_prefix.mp starts⟩

theorem namedUnit_other (other : c ≠ 38) (s : Text) : namedUnit c s = (c,0) := if_neg other

/-- The name of an entity is in what is behind its ampersand. -/
theorem namedUnit_fits (c : UInt8) (s : Text) : (namedUnit c s).2 ≤ s.length := by
  rw [namedUnit]
  split
  case isFalse => exact Nat.zero_le _
  case isTrue =>
    split
    case h_2 => exact Nat.zero_le _
    case h_1 e found => exact (entity_found found).2.length_le

theorem namedUnit_nonzero (nonzero : c ≠ 0) (s : Text) : (namedUnit c s).1 ≠ 0 := by
  rw [namedUnit]
  split
  case isFalse => exact nonzero
  case isTrue =>
    split
    case h_2 => exact nonzero
    case h_1 e found =>
      have known : ∀ e ∈ entities, e.2 ≠ 0 := by decide
      exact known e (entity_found found).1

/-- An ampersand takes nothing behind it exactly if it begins no entity. -/
theorem namedUnit_plain (c : UInt8) (s : Text) : (namedUnit c s).2 = 0 ↔ ∀ e ∈ entities, ¬ (38 :: e.1) <+: c :: s := by
  have long : ∀ e ∈ entities, 0 < e.1.length := by decide
  rw [namedUnit]
  split
  case isFalse other =>
    refine ⟨fun _ e member isPrefix => other (List.cons_prefix_cons.mp isPrefix).1.symm,fun _ => rfl⟩
  case isTrue ampersand =>
    subst ampersand
    split
    case h_1 e found =>
      obtain ⟨member,isPrefix⟩ := entity_found found
      refine ⟨fun nothing => absurd nothing (Nat.ne_of_gt (long e member)),fun none_ => ?_⟩
      exact absurd (List.cons_prefix_cons.mpr ⟨rfl,isPrefix⟩) (none_ e member)
    case h_2 notFound =>
      refine ⟨fun _ e member isPrefix => ?_,fun _ => rfl⟩
      exact List.find?_eq_none.mp notFound e member (List.isPrefixOf_iff_prefix.mpr (List.cons_prefix_cons.mp isPrefix).2)

/-- No named entity stands in the text. -/
def NoEntity (s : Text) : Prop := ∀ e ∈ entities, ¬ (38 :: e.1) <:+: s

theorem namedDecoded_full (s : Text) : (namedDecoded s).length = s.length ↔ NoEntity s := by
  rw [namedDecoded,decoded_full namedUnit_fits]
  constructor
  · rintro plain e member ⟨before,after,rfl⟩
    refine (namedUnit_plain 38 (e.1 ++ after)).mp (plain _ _ ⟨before,?_⟩) e member ⟨after,rfl⟩
    simp
  · intro none_ c rest suffix
    exact (namedUnit_plain c rest).mpr fun e member isPrefix => none_ e member (isPrefix.isInfix.trans suffix.isInfix)

theorem step_named (cells : List UInt8) (here : gap.drop q = c :: (s ++ 0 :: more)) (nonzero : c ≠ 0) (free : 0 ∉ s) :
    step cells ⟨.named,w ++ gap,w.length + q,w.length⟩ =
      some (.goto ⟨.named,w ++ [(namedUnit c s).1] ++ gap.tail,w.length + q + 1 + (namedUnit c s).2,(w ++ [(namedUnit c s).1]).length⟩) := by
  have whole : (w ++ gap).drop (w.length + q) = c :: (s ++ 0 :: more) := by rw [← List.drop_drop,List.drop_left,here]
  obtain ⟨read,behind⟩ := read_cons whole
  have some_ : gap ≠ [] := by
    rintro rfl
    rw [List.drop_nil] at here
    cases here
  simp only [step,read,Option.bind_eq_bind,Option.bind_some,nonzero,if_false,written_length]
  by_cases ampersand : c = 38
  · subst ampersand
    rw [if_pos rfl,entity_spec behind free,Option.bind_some,write_gap w gap _ some_,Option.bind_some]
  · rw [if_neg ampersand,write_gap w gap _ some_,namedUnit_other ampersand]
    rfl

/-- The second loop writes the text, and leaves what it does not write over. -/
theorem named_run (cells : List UInt8) (k : Nat) (here : gap.drop q = s ++ 0 :: more) (free : 0 ∉ s) (inside : k ≤ s.length) :
    Returns (step cells) ⟨.named,w ++ gap,w.length + q + k,w.length⟩
      (w ++ decoded namedUnit k s ++ gap.drop (decoded namedUnit k s).length) := by
  induction s generalizing k q w gap with
  | nil =>
    rw [List.length_nil,Nat.le_zero] at inside
    subst inside
    have whole : (w ++ gap).drop (w.length + q) = 0 :: more := by rw [← List.drop_drop,List.drop_left,here,List.nil_append]
    rw [decoded_nil,List.append_nil,List.length_nil,List.drop_zero]
    refine Returns.now ?_
    simp only [step,Nat.add_zero,(read_cons whole).1,Option.bind_eq_bind,Option.bind_some,if_true]
  | cons c s ih =>
    have nonzero : c ≠ 0 := fun zero => free (zero ▸ List.mem_cons_self)
    have free' : 0 ∉ s := fun member => free (List.mem_cons_of_mem _ member)
    have behind : gap.drop (q + 1) = s ++ 0 :: more := (read_cons here).2
    rw [List.length_cons] at inside
    cases k with
    | succ k =>
      rw [decoded,show w.length + q + (k + 1) = w.length + (q + 1) + k by omega]
      exact ih k behind free' (by omega)
    | zero =>
      have later : gap.tail.drop q = s ++ 0 :: more := by rw [List.drop_tail,behind]
      have rest := ih (w := w ++ [(namedUnit c s).1]) (namedUnit c s).2 later free' (namedUnit_fits c s)
      refine Returns.after (step_named cells here nonzero free') ?_
      have more_ : w ++ decoded namedUnit 0 (c :: s) = w ++ [(namedUnit c s).1] ++ decoded namedUnit (namedUnit c s).2 s := by
        rw [decoded,List.append_assoc,List.singleton_append]
      rw [more_,decoded,List.length_cons,← List.drop_tail]
      rw [show (w ++ [(namedUnit c s).1]).length + q = w.length + q + 1 by rw [written_length]; omega] at rest
      exact rest

end

/-! ## The result -/

section
variable {s : Text}

theorem namedDecoded_nonzero (free : 0 ∉ s) : 0 ∉ namedDecoded s := by
  intro member
  obtain ⟨c,rest,inside,same⟩ := mem_decoded namedUnit member
  exact namedUnit_nonzero (fun zero => free (zero ▸ inside)) rest same.symm

/-- The string that the second loop leaves. -/
theorem named_left (free : 0 ∉ s) (more : List UInt8) :
    Cut (namedDecoded s ++ (s ++ 0 :: more).drop (namedDecoded s).length) 0 (namedDecoded s ++ s.drop (namedDecoded s).length) := by
  have shorter : (namedDecoded s).length ≤ s.length := decoded_length namedUnit 0 s
  have whole : (s ++ 0 :: more).drop (namedDecoded s).length = s.drop (namedDecoded s).length ++ 0 :: more :=
    List.drop_append_of_le_length shorter
  refine ⟨fun member => ?_,more,by rw [whole,List.drop_zero,List.append_assoc]⟩
  rcases List.mem_append.mp member with first | last
  · exact namedDecoded_nonzero free first
  · exact free (List.mem_of_mem_drop last)

/-- It is the decoded text exactly if no entity was passed. -/
theorem named_cut (free : 0 ∉ s) (more : List UInt8) :
    Cut (namedDecoded s ++ (s ++ 0 :: more).drop (namedDecoded s).length) 0 (namedDecoded s) ↔ NoEntity s := by
  have shorter : (namedDecoded s).length ≤ s.length := decoded_length namedUnit 0 s
  have left := named_left free more
  rw [← namedDecoded_full]
  constructor
  · intro cut
    have lengths := congrArg List.length (left.stringAt.symm.trans cut.stringAt)
    rw [List.length_append,List.length_drop] at lengths
    omega
  · intro full
    have nothing : s.drop (namedDecoded s).length = [] := by rw [full,List.drop_length]
    rw [nothing,List.append_nil] at left
    exact left

/-- What the code does with a string, with some bytes behind it. -/
theorem decode_run (free : 0 ∉ s) (behind : List UInt8) {region : List UInt8} (room : region.length = s.length + 1) :
    if s.getLast? = some 37 ∧ behind = [] then Fails (step (s ++ 0 :: behind)) (begin region)
    else ∃ more, Returns (step (s ++ 0 :: behind)) (begin region)
      (namedDecoded (percentDecoded s) ++ (percentDecoded s ++ 0 :: more).drop (namedDecoded (percentDecoded s)).length) := by
  have first : Percents (s ++ 0 :: behind) behind s (percentDecoded s) (begin region) :=
    @percents_run (s ++ 0 :: behind) [] region behind s 0 0 List.drop_zero free (Nat.zero_le _) (List.forall_mem_nil _) (Nat.le_of_eq room.symm)
  unfold Percents at first
  split
  case isTrue last =>
    rw [if_pos last] at first
    exact first
  case isFalse last =>
    rw [if_neg last] at first
    obtain ⟨more,reaches⟩ := first
    rw [List.append_assoc,List.singleton_append] at reaches
    have second := @named_run [] (percentDecoded s ++ 0 :: more) more (percentDecoded s) 0 (s ++ 0 :: behind) 0 List.drop_zero
      (percentDecoded_nonzero free) (Nat.zero_le _)
    exact ⟨more,reaches.returns second⟩

/-- A string is decoded, without a look behind its end, exactly if it does not end with a percent
    sign and no named entity stands in it when its percent sequences and pluses are decoded. -/
theorem decode_composes_iff (free : 0 ∉ s) : Decodes s ↔ s.getLast? ≠ some 37 ∧ NoEntity (percentDecoded s) := by
  constructor
  · intro decodes
    have length : (List.replicate (s.length + 1) (0 : UInt8)).length = s.length + 1 := List.length_replicate
    obtain ⟨bytes,returns,cut⟩ := decodes _ length
    have ran := decode_run free [] length
    split at ran
    case isTrue => exact absurd returns ran.not_returns
    case isFalse last =>
      obtain ⟨more,returns'⟩ := ran
      rw [returns.unique returns'] at cut
      exact ⟨fun percent => last ⟨percent,rfl⟩,(named_cut (percentDecoded_nonzero free) more).mp cut⟩
  · rintro ⟨last,none_⟩ region length
    have ran := decode_run free [] length
    rw [if_neg fun both => last both.1] at ran
    obtain ⟨more,returns⟩ := ran
    exact ⟨_,returns,(named_cut (percentDecoded_nonzero free) more).mpr none_⟩

/-- The string that `ac_cgi_decode` returns where there is a byte behind the string. -/
def decodedString (s : Text) : Text := namedDecoded (percentDecoded s) ++ (percentDecoded s).drop (namedDecoded (percentDecoded s)).length

theorem decode_returns (free : 0 ∉ s) {x : UInt8} {behind region : List UInt8} (room : region.length = s.length + 1) :
    ∃ bytes, Returns (step (s ++ 0 :: x :: behind)) (begin region) bytes ∧ Cut bytes 0 (decodedString s) := by
  have ran := decode_run free (x :: behind) room
  rw [if_neg fun both => List.cons_ne_nil x behind both.2] at ran
  obtain ⟨more,returns⟩ := ran
  exact ⟨_,returns,named_left (percentDecoded_nonzero free) more⟩

end

/-- `%41+b` is decoded. -/
theorem decode_plain : Decodes [37,52,49,43,98] ↔ [37,52,49,43,98].getLast? ≠ some (37 : UInt8) ∧ NoEntity (percentDecoded [37,52,49,43,98]) :=
  decode_composes_iff (by decide)

/-- `&lt;` becomes `<lt;`. -/
theorem decode_leaves_tail : ¬ ∀ s : Text, 0 ∉ s → Decodes s := by
  intro all
  obtain ⟨bytes,returns,cut⟩ := all [38,108,116,59] (by decide) [0,0,0,0,0] rfl
  have ran : Returns (step [38,108,116,59,0]) (begin [0,0,0,0,0]) [60,108,116,59,0] := ⟨7,by decide⟩
  have text := cut.stringAt
  rw [returns.unique ran] at text
  revert text
  decide

end AnotherC.Cgi
