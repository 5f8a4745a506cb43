import AnotherC.Io.CsvFile

/-!
# Reading from the buffer of a caller: `ac_in_init_with_buffer`

Records are terminated in place by a zero, and the byte under it is put back by the next
call. A buffer that the reader allocates has a byte behind the data for that; the buffer of
a caller has none. Each write is checked here against the bytes of the caller.
-/
namespace AnotherC.CallerBuffer
open AnotherC.Lib.Bytes
open AnotherC.InBase (InBase Found restore terminate findDelimiter)
open AnotherC.Framing (Format)
open AnotherC.CsvFile (Record findCsv)
set_option linter.unusedVariables false

/-! ## The functions -/

/-- A call goes on with a value, or aborts the process. -/
inductive Outcome (α : Type) where
  | returned (a : α)
  | aborted
deriving Repr, DecidableEq

/-- `ac_in_base_init_from_buffer` -/
def acInBaseInitFromBuffer (buffer : List UInt8) : InBase := ⟨⟨buffer,buffer.length,0,true⟩,[],none,none,0⟩

/-- The byte under the last zero is put back; `none` is a write behind the buffer. -/
def putBack (h : InBase) : Option InBase :=
  match h.zerop with
  | none => some h
  | some zerop => if zerop < h.buf.buffer.length then some (restore h) else none

/-- `cleanup_last_read` -/
def cleanupLastRead (h : InBase) : Option InBase := do
  let h ← putBack h
  some { h with bh := none }

/-- The byte at a position is read and a zero put there; `none` is behind the buffer. -/
def putZero (h : InBase) (position : Nat) : Option InBase :=
  if position < h.buf.buffer.length then some (terminate h position) else none

/-- The loop over `p` that looks for the delimiter. -/
def find (delim : Int) (rest : List UInt8) : Option Nat :=
  if delim ≥ 256 then findCsv (delim - 256) false rest else findDelimiter delim rest

/-- `ac_in_base_read_delimited`, where `eof` is set. -/
def acInBaseReadDelimited (h : InBase) (delim : Int) (required : Bool) : Option (Outcome (Option Found × InBase)) := do
  let h ← cleanupLastRead h
  let b := h.buf
  let rest := b.buffer.drop b.pos
  match find delim rest with
  | some i =>
    let rlen := int32 i
    let pos := toSize (b.pos + (rlen + 1))
    if pos > b.buffer.length then some .aborted
    else do
      let h ← putZero { h with buf := { b with pos := pos } } (b.pos + i)
      some (.returned (some ⟨rlen,rest.take i⟩,h))
  | none =>
    let h := { h with buf := { b with pos := b.buffer.length } }
    if required then some (.returned (none,h))
    else do
      let h ← putZero h b.buffer.length
      some (.returned (some ⟨int32 rest.length,rest⟩,h))

/-- `ac_in_base_readz`, where `eof` is set. The length is converted to an `int32_t`, and a negative one
    is added to `pos` as a `size_t`. -/
def acInBaseReadz (h : InBase) (len : Nat) : Option (Found × InBase) := do
  let h ← cleanupLastRead h
  let b := h.buf
  let pos := toSize (b.pos + int32 len)
  if pos ≤ b.buffer.length then do
    let h ← putZero { h with buf := { b with pos := pos } } pos
    some (⟨int32 len,(b.buffer.drop b.pos).take len⟩,h)
  else do
    let rest := b.buffer.drop b.pos
    let h ← putZero { h with buf := { b with pos := b.buffer.length } } b.buffer.length
    some (⟨int32 rest.length,rest⟩,h)

/-- `ac_in_base_read`, where `eof` is set. -/
def acInBaseRead (h : InBase) (len : Nat) : Option (Option (List UInt8) × InBase) := do
  let h ← putBack h
  let b := h.buf
  if b.pos + len ≤ b.buffer.length then
    some (some ((b.buffer.drop b.pos).take len),{ h with buf := { b with pos := b.pos + len } })
  else some (none,{ h with buf := { b with pos := b.buffer.length } })

/-- `ac_in_t` -/
structure In where
  base : InBase
  format : Format
  fullRecordRequired : Bool
deriving Repr, DecidableEq

def acInInitWithBuffer (buf : List UInt8) (format : Format) (fullRecordRequired : Bool) : In :=
  ⟨acInBaseInitFromBuffer buf,format,fullRecordRequired⟩

/-- `_advance_prefix` -/
def advancePrefix (h : In) : Option (Outcome (Option Record × In)) := do
  let (p,base) ← acInBaseRead h.base 4
  match p with
  | none => some (.returned (none,{ h with base := base }))
  | some p =>
    let length := number p
    if length > 0 then do
      let (found,base) ← acInBaseReadz base length
      -- the lengths are compared as `uint32_t`
      if uint32 found.rlen ≠ length then some (.returned (none,{ h with base := base }))
      else some (.returned (some ⟨length,found.p⟩,{ h with base := base }))
    else some (.returned (some ⟨0,p⟩,{ h with base := base }))

/-- `_advance_fixed` -/
def advanceFixed (h : In) (fixed : Nat) : Option (Outcome (Option Record × In)) := do
  let (found,base) ← acInBaseReadz h.base fixed
  if uint32 found.rlen ≠ fixed then some (.returned (none,{ h with base := base }))
  else some (.returned (some ⟨fixed,found.p⟩,{ h with base := base }))

/-- `_advance_delimited` -/
def advanceDelimited (h : In) (delimiter : Int) : Option (Outcome (Option Record × In)) := do
  let out ← acInBaseReadDelimited h.base delimiter h.fullRecordRequired
  match out with
  | .aborted => some .aborted
  | .returned (none,base) => some (.returned (none,{ h with base := base }))
  | .returned (some found,base) => some (.returned (some ⟨uint32 found.rlen,found.p⟩,{ h with base := base }))

/-- `ac_in_advance` -/
def acInAdvance (h : In) : Option (Outcome (Option Record × In)) :=
  if h.format < 0 then advanceDelimited h (-h.format - 1)
  else if h.format > 0 then advanceFixed h (uint32 h.format)
  else advancePrefix h

/-! ## Runs -/

/-- The calls stay within the buffer of the caller, and when one returns NULL the buffer has its
    bytes again. A call that aborts ends the run. -/
def Keeps (original : List UInt8) : Nat → In → Prop
  | 0, _ => True
  | n + 1, h => acInAdvance h = some .aborted ∨
    ∃ r h', acInAdvance h = some (.returned (r,h')) ∧ (r = none → h'.base.buf.buffer = original) ∧ Keeps original n h'

/-- A record of a length from a position ends before the end of the buffer. -/
def EndsInside (pos len size : Nat) : Prop := toSize (pos + int32 len) < size

/-- What the next call finds in the buffer: a whole record with a byte behind it, or, where the
    rest is not a record, a reader that does not hand it out. -/
def Inside (h : In) : Prop :=
  let b := (restore h.base).buf
  let rest := b.buffer.drop b.pos
  if h.format < 0 then h.fullRecordRequired = true ∨ find (-h.format - 1) rest ≠ none
  else if h.format > 0 then EndsInside b.pos (uint32 h.format) b.buffer.length
  else rest.length < 4 ∨ number (rest.take 4) = 0 ∨ EndsInside (b.pos + 4) (number (rest.take 4)) b.buffer.length

def AllInside : Nat → In → Prop
  | 0, _ => True
  | n + 1, h => Inside h ∧ ∀ r h', acInAdvance h = some (.returned (r,h')) → AllInside n h'

/-! ## The invariant -/

section
variable {original : List UInt8} {h : InBase} {g : In}

/-- The buffer is the one of the caller but for the byte under the zero, which is within it. -/
structure Inv (original : List UInt8) (h : InBase) : Prop where
  whole : (restore h).buf.buffer = original
  within : ∀ z, h.zerop = some z → z < h.buf.buffer.length
  length : h.buf.buffer.length = original.length
  pos : h.buf.pos ≤ original.length

theorem restore_pos (h : InBase) : (restore h).buf.pos = h.buf.pos := by
  unfold restore
  split <;> rfl

theorem restore_plain (h : InBase) : (restore h).zerop = none := InBase.restore_clean h

theorem restore_none {h : InBase} (clean : h.zerop = none) : restore h = h := by
  unfold restore
  rw [clean]

theorem Inv.putBack (inv : Inv original h) : putBack h = some (restore h) := by
  unfold CallerBuffer.putBack
  cases zerop : h.zerop with
  | none => rw [restore_none zerop]
  | some z => exact if_pos (inv.within z zerop)

/-- A zero within the buffer is taken back by the next call. -/
theorem putZero_inv (clean : h.zerop = none) (whole : h.buf.buffer = original) (pos : h.buf.pos ≤ original.length) {position : Nat}
    (inside : position < original.length) : ∃ h', putZero h position = some h' ∧ Inv original h' ∧ h'.buf.pos = h.buf.pos := by
  refine ⟨terminate h position,if_pos (by rw [whole]; exact inside),⟨?_,?_,?_,pos⟩,rfl⟩
  · rw [(InBase.restore_terminate h position).1]
    exact whole
  · intro z isZero
    cases isZero
    show position < (h.buf.buffer.set position 0).length
    rw [List.length_set,whole]
    exact inside
  · show (h.buf.buffer.set position 0).length = original.length
    rw [List.length_set,whole]

theorem putZero_outside (whole : h.buf.buffer = original) {position : Nat} (outside : original.length ≤ position) :
    putZero h position = none := if_neg (by rw [whole]; exact Nat.not_lt.mpr outside)

/-! ## Calls -/

/-- What a call begins with: the bytes of the caller and no zero. -/
theorem Inv.begin (inv : Inv original h) :
    ∃ size eof file bh zero, CallerBuffer.putBack h = some ⟨⟨original,size,h.buf.pos,eof⟩,file,bh,none,zero⟩ := by
  have whole := inv.whole
  have pos := restore_pos h
  have clean := restore_plain h
  rw [inv.putBack]
  refine ⟨(restore h).buf.size,(restore h).buf.eof,(restore h).file,(restore h).bh,(restore h).zero,?_⟩
  rw [← pos,← clean,← whole]

theorem Inv.cleaned (inv : Inv original h) :
    ∃ size eof file zero, CallerBuffer.cleanupLastRead h = some ⟨⟨original,size,h.buf.pos,eof⟩,file,none,none,zero⟩ := by
  obtain ⟨size,eof,file,bh,zero,begins⟩ := inv.begin
  refine ⟨size,eof,file,zero,?_⟩
  rw [CallerBuffer.cleanupLastRead,begins]
  rfl

theorem readz_inside (inv : Inv original h) {len : Nat} (ends : EndsInside h.buf.pos len original.length) :
    ∃ p h', acInBaseReadz h len = some (⟨int32 len,p⟩,h') ∧ Inv original h' ∧ h'.buf.pos = toSize (h.buf.pos + int32 len) := by
  obtain ⟨size,eof,file,zero,begins⟩ := inv.cleaned
  obtain ⟨h',made,inv',pos⟩ := putZero_inv (h := ⟨⟨original,size,toSize (h.buf.pos + int32 len),eof⟩,file,none,none,zero⟩)
    rfl rfl (Nat.le_of_lt ends) ends
  refine ⟨(original.drop h.buf.pos).take len,h',?_,inv',pos⟩
  unfold acInBaseReadz
  simp only [begins,Option.bind_eq_bind,Option.bind_some]
  rw [if_pos (Nat.le_of_lt ends),made]
  rfl

theorem readz_outside (inv : Inv original h) {len : Nat} (ends : ¬ EndsInside h.buf.pos len original.length) : acInBaseReadz h len = none := by
  obtain ⟨size,eof,file,zero,begins⟩ := inv.cleaned
  unfold acInBaseReadz
  simp only [begins,Option.bind_eq_bind,Option.bind_some]
  split
  · rw [putZero_outside rfl (Nat.not_lt.mp ends)]
    rfl
  · rw [putZero_outside rfl (Nat.le_refl _)]
    rfl

/-- The bytes are there, or the end of the buffer is reached with all bytes as they were. -/
theorem read_inv (inv : Inv original h) (len : Nat) :
    (h.buf.pos + len ≤ original.length ∧ ∃ h', acInBaseRead h len = some (some ((original.drop h.buf.pos).take len),h') ∧ Inv original h' ∧
      h'.buf.pos = h.buf.pos + len) ∨
    (original.length < h.buf.pos + len ∧ ∃ h', acInBaseRead h len = some (none,h') ∧ Inv original h' ∧ h'.buf.buffer = original) := by
  obtain ⟨size,eof,file,bh,zero,begins⟩ := inv.begin
  unfold acInBaseRead
  simp only [begins,Option.bind_eq_bind,Option.bind_some]
  by_cases enough : h.buf.pos + len ≤ original.length
  · rw [if_pos enough]
    exact .inl ⟨enough,_,rfl,⟨rfl,nofun,rfl,enough⟩,rfl⟩
  · rw [if_neg enough]
    exact .inr ⟨Nat.not_le.mp enough,_,rfl,⟨rfl,nofun,rfl,Nat.le_refl _⟩,rfl⟩

/-! ### The readers of files -/

theorem findCsv_lt {delim : Int} {quoted : Bool} {rest : List UInt8} {i : Nat} (found : findCsv delim quoted rest = some i) :
    i < rest.length := by
  fun_induction findCsv delim quoted rest generalizing i with
  | case1 => cases found
  | case2 c rest isQuote ih =>
    obtain ⟨k,later,rfl⟩ := Option.map_eq_some_iff.mp found
    exact Nat.succ_lt_succ (ih later)
  | case3 c rest plain other ih =>
    obtain ⟨k,later,rfl⟩ := Option.map_eq_some_iff.mp found
    exact Nat.succ_lt_succ (ih later)
  | case4 c rest plain same =>
    cases found
    exact Nat.succ_pos _
  | case5 c rest plain ih =>
    obtain ⟨k,later,rfl⟩ := Option.map_eq_some_iff.mp found
    exact Nat.succ_lt_succ (ih later)
  | case6 => cases found
  | case7 c isQuote c₂ rest₂ doubled ih =>
    obtain ⟨k,later,rfl⟩ := Option.map_eq_some_iff.mp found
    exact Nat.add_lt_add_right (ih later) 2
  | case8 c isQuote c₂ rest₂ single ih =>
    obtain ⟨k,later,rfl⟩ := Option.map_eq_some_iff.mp found
    exact Nat.succ_lt_succ (ih later)

theorem find_lt {delim : Int} {rest : List UInt8} {i : Nat} (found : find delim rest = some i) : i < rest.length := by
  unfold find at found
  split at found
  · exact findCsv_lt found
  · exact InBase.find_lt found

/-! ### Each format -/

/-- A call that goes on within the buffer. -/
def Good (original : List UInt8) (out : Option (Outcome (Option Record × In))) : Prop :=
  out = some .aborted ∨ ∃ r g', out = some (.returned (r,g')) ∧ (r = none → g'.base.buf.buffer = original) ∧ Inv original g'.base

theorem fixed_good (inv : Inv original g.base) {fixed : Nat} (word : fixed < 2 ^ 32) (ends : EndsInside g.base.buf.pos fixed original.length) :
    Good original (advanceFixed g fixed) := by
  obtain ⟨p,base,read,inv',-⟩ := readz_inside inv ends
  have same : uint32 (int32 fixed) = fixed := by rw [uint32_int32,Nat.mod_eq_of_lt word]
  refine .inr ⟨some ⟨fixed,p⟩,{ g with base := base },?_,nofun,inv'⟩
  unfold advanceFixed
  simp only [read,Option.bind_eq_bind,Option.bind_some]
  rw [if_neg (fun other => other same)]

theorem fixed_bad (inv : Inv original g.base) {fixed : Nat} (ends : ¬ EndsInside g.base.buf.pos fixed original.length) :
    advanceFixed g fixed = none := by
  unfold advanceFixed
  rw [readz_outside inv ends]
  rfl

theorem number_word (xs : List UInt8) : number (xs.take 4) < 2 ^ 32 := by
  refine Nat.lt_of_lt_of_le (number_lt _) ?_
  calc 256 ^ (xs.take 4).length ≤ 256 ^ 4 := Nat.pow_le_pow_right (by decide) (List.length_take_le 4 xs)
    _ = 2 ^ 32 := by decide

theorem prefix_good (inv : Inv original g.base) (inside : (original.drop g.base.buf.pos).length < 4 ∨
      number ((original.drop g.base.buf.pos).take 4) = 0 ∨
      EndsInside (g.base.buf.pos + 4) (number ((original.drop g.base.buf.pos).take 4)) original.length) :
    Good original (advancePrefix g) := by
  unfold advancePrefix
  rcases read_inv inv 4 with ⟨enough,base,read,inv',pos⟩ | ⟨short,base,read,inv',whole⟩
  · simp only [read,Option.bind_eq_bind,Option.bind_some]
    by_cases empty : number ((original.drop g.base.buf.pos).take 4) = 0
    · rw [if_neg (by omega)]
      exact .inr ⟨_,_,rfl,nofun,inv'⟩
    · have ends : EndsInside base.buf.pos (number ((original.drop g.base.buf.pos).take 4)) original.length := by
        rw [pos]
        refine (inside.resolve_left ?_).resolve_left empty
        rw [List.length_drop]
        omega
      obtain ⟨p,base',readz,inv'',-⟩ := readz_inside inv' ends
      have same : uint32 (int32 (number ((original.drop g.base.buf.pos).take 4))) = number ((original.drop g.base.buf.pos).take 4) := by
        rw [uint32_int32,Nat.mod_eq_of_lt (number_word _)]
      rw [if_pos (Nat.pos_of_ne_zero empty)]
      simp only [readz,Option.bind_some]
      rw [if_neg (fun other => other same)]
      exact .inr ⟨_,_,rfl,nofun,inv''⟩
  · simp only [read,Option.bind_eq_bind,Option.bind_some]
    exact .inr ⟨_,_,rfl,fun _ => whole,inv'⟩

theorem prefix_bad (inv : Inv original g.base) (outside : ¬ ((original.drop g.base.buf.pos).length < 4 ∨
      number ((original.drop g.base.buf.pos).take 4) = 0 ∨
      EndsInside (g.base.buf.pos + 4) (number ((original.drop g.base.buf.pos).take 4)) original.length)) :
    advancePrefix g = none := by
  simp only [not_or] at outside
  obtain ⟨long,some_,ends⟩ := outside
  unfold advancePrefix
  rcases read_inv inv 4 with ⟨enough,base,read,inv',pos⟩ | ⟨short,base,read,inv',whole⟩
  · rw [← pos] at ends
    simp only [read,Option.bind_eq_bind,Option.bind_some]
    rw [if_pos (Nat.pos_of_ne_zero some_),readz_outside inv' ends]
    rfl
  · rw [List.length_drop] at long
    omega

theorem delimited_good (inv : Inv original g.base) {delim : Int}
    (inside : g.fullRecordRequired = true ∨ find delim (original.drop g.base.buf.pos) ≠ none) : Good original (advanceDelimited g delim) := by
  obtain ⟨size,eof,file,zero,begins⟩ := inv.cleaned
  unfold advanceDelimited acInBaseReadDelimited
  simp only [begins,Option.bind_eq_bind,Option.bind_some]
  cases found : find delim (original.drop g.base.buf.pos) with
  | some i =>
    have below := find_lt found
    rw [List.length_drop] at below
    dsimp only
    split
    case isTrue => exact .inl rfl
    case isFalse within =>
      obtain ⟨h',made,inv',-⟩ := putZero_inv (h := ⟨⟨original,size,toSize (g.base.buf.pos + (int32 i + 1)),eof⟩,file,none,none,zero⟩)
        rfl rfl (Nat.not_lt.mp within) (by omega : g.base.buf.pos + i < original.length)
      rw [made]
      refine .inr ⟨_,_,rfl,?_,inv'⟩
      intro none_
      cases none_
  | none =>
    have required : g.fullRecordRequired = true := inside.resolve_right (fun other => other found)
    dsimp only
    rw [if_pos required]
    refine .inr ⟨_,_,rfl,fun _ => rfl,⟨rfl,?_,rfl,Nat.le_refl _⟩⟩
    intro at_ saved
    cases saved

theorem delimited_bad (inv : Inv original g.base) {delim : Int}
    (outside : ¬ (g.fullRecordRequired = true ∨ find delim (original.drop g.base.buf.pos) ≠ none)) : advanceDelimited g delim = none := by
  obtain ⟨size,eof,file,zero,begins⟩ := inv.cleaned
  simp only [not_or,not_not] at outside
  obtain ⟨partial_,unfound⟩ := outside
  unfold advanceDelimited acInBaseReadDelimited
  simp only [begins,Option.bind_eq_bind,Option.bind_some,unfound]
  rw [if_neg partial_,putZero_outside rfl (Nat.le_refl _)]
  rfl

/-! ## Runs -/

theorem inside_iff (inv : Inv original g.base) :
    Inside g ↔ if g.format < 0 then g.fullRecordRequired = true ∨ find (-g.format - 1) (original.drop g.base.buf.pos) ≠ none
      else if g.format > 0 then EndsInside g.base.buf.pos (uint32 g.format) original.length
      else (original.drop g.base.buf.pos).length < 4 ∨ number ((original.drop g.base.buf.pos).take 4) = 0 ∨
        EndsInside (g.base.buf.pos + 4) (number ((original.drop g.base.buf.pos).take 4)) original.length := by
  unfold Inside
  simp only [restore_pos,inv.whole]

theorem step_good (inv : Inv original g.base) (inside : Inside g) : Good original (acInAdvance g) := by
  have shape := (inside_iff inv).mp inside
  unfold acInAdvance
  by_cases delimited : g.format < 0
  · rw [if_pos delimited] at shape ⊢
    exact delimited_good inv shape
  · rw [if_neg delimited] at shape ⊢
    by_cases fixed : g.format > 0
    · rw [if_pos fixed] at shape ⊢
      exact fixed_good inv (by unfold uint32; omega) shape
    · rw [if_neg fixed] at shape ⊢
      exact prefix_good inv shape

/-- Any other call reads and writes the byte behind the buffer. -/
theorem step_bad (inv : Inv original g.base) (outside : ¬ Inside g) : acInAdvance g = none := by
  rw [inside_iff inv] at outside
  unfold acInAdvance
  by_cases delimited : g.format < 0
  · rw [if_pos delimited] at outside ⊢
    exact delimited_bad inv outside
  · rw [if_neg delimited] at outside ⊢
    by_cases fixed : g.format > 0
    · rw [if_pos fixed] at outside ⊢
      exact fixed_bad inv outside
    · rw [if_neg fixed] at outside ⊢
      exact prefix_bad inv outside

theorem keeps_iff {n : Nat} (inv : Inv original g.base) : Keeps original n g ↔ AllInside n g := by
  induction n generalizing g with
  | zero => exact iff_of_true trivial trivial
  | succ n ih =>
    by_cases inside : Inside g
    · rcases step_good inv inside with aborts | ⟨r,g',made,ended,inv'⟩
      · refine iff_of_true (.inl aborts) ⟨inside,fun r g' made => ?_⟩
        rw [aborts] at made
        cases made
      · constructor
        · rintro (aborts | ⟨r',g'',made',-,keeps⟩)
          · rw [made] at aborts
            cases aborts
          · cases made.symm.trans made'
            refine ⟨inside,fun r' g'' made' => ?_⟩
            cases made.symm.trans made'
            exact (ih inv').mp keeps
        · rintro ⟨-,all⟩
          exact .inr ⟨r,g',made,ended,(ih inv').mpr (all r g' made)⟩
    · refine iff_of_false ?_ fun all => inside all.1
      have stuck := step_bad inv inside
      rintro (aborts | ⟨r,g',made,-,-⟩)
      · rw [stuck] at aborts
        cases aborts
      · rw [stuck] at made
        cases made

theorem init_inv (buf : List UInt8) (format : Format) (required : Bool) : Inv buf (acInInitWithBuffer buf format required).base :=
  ⟨rfl,nofun,rfl,Nat.zero_le _⟩

/-- Reading with records required stays in the buffer when they are delimited. -/
theorem required_inside {n : Nat} (delimited : g.format < 0) (required : g.fullRecordRequired = true) : AllInside n g := by
  induction n generalizing g with
  | zero => trivial
  | succ n ih =>
    refine ⟨?_,fun r g' made => ?_⟩
    · unfold Inside
      simp only [if_pos delimited]
      exact .inl required
    · unfold acInAdvance advanceDelimited at made
      rw [if_pos delimited] at made
      obtain ⟨out,-,made⟩ := Option.bind_eq_some_iff.mp made
      cases out with
      | aborted => cases made
      | returned found =>
        obtain ⟨found,base⟩ := found
        cases found with
        | none =>
          cases made
          exact ih delimited required
        | some found =>
          cases made
          exact ih delimited required

/-- So they are read, whatever is in the buffer. -/
theorem required_kept (buf : List UInt8) {format : Format} (delimited : format < 0) (n : Nat) : Keeps buf n (acInInitWithBuffer buf format true) :=
  (keeps_iff (init_inv buf format true)).mpr (required_inside delimited rfl)

/-- Records of a fixed length end before the end of the buffer as long as the calls stay in it. -/
theorem fixed_far {n f : Nat} (inv : Inv original g.base) (format : g.format = f) (positive : 0 < f) (small : f < 2 ^ 31)
    (bound : original.length < 2 ^ 63) (all : AllInside n g) : n = 0 ∨ g.base.buf.pos + n * f < original.length := by
  induction n generalizing g with
  | zero => exact .inl rfl
  | succ n ih =>
    have word : uint32 g.format = f := by
      rw [format]
      unfold uint32
      omega
    have shape := (inside_iff inv).mp all.1
    have notLess : ¬ g.format < 0 := by
      rw [format]
      exact Int.not_lt.mpr (Int.natCast_nonneg f)
    have more : g.format > 0 := by
      rw [format]
      exact Int.natCast_pos.mpr positive
    rw [if_neg notLess,if_pos more,word] at shape
    have next : toSize (g.base.buf.pos + int32 f) = g.base.buf.pos + f := by
      have pos := inv.pos
      rw [int32_small small]
      exact toSize_small (n := g.base.buf.pos + f) (by omega)
    have ends : g.base.buf.pos + f < original.length := by
      rw [← next]
      exact shape
    obtain ⟨p,base,read,inv',pos⟩ := readz_inside inv shape
    rw [next] at pos
    have same : uint32 (int32 f) = f := by rw [uint32_int32,Nat.mod_eq_of_lt (by omega)]
    have made : acInAdvance g = some (.returned (some ⟨f,p⟩,{ g with base := base })) := by
      unfold acInAdvance advanceFixed
      rw [if_neg notLess,if_pos more,word]
      simp only [read,Option.bind_eq_bind,Option.bind_some]
      rw [if_neg (fun other => other same)]
    have later := ih (g := { g with base := base }) inv' format (all.2 _ _ made)
    dsimp only at later
    rw [pos] at later
    refine .inr ?_
    rcases later with rfl | later
    · omega
    · rw [Nat.succ_mul]
      omega

/-- Records of a fixed length are not read up to the end of any buffer. -/
theorem fixed_leaves (buf : List UInt8) {n f : Nat} (required : Bool) (positive : 0 < f) (small : f < 2 ^ 31) (bound : buf.length < 2 ^ 63)
    (calls : 0 < n) (enough : buf.length ≤ n * f) : ¬ Keeps buf n (acInInitWithBuffer buf f required) := by
  intro keeps
  have all := (keeps_iff (init_inv buf f required)).mp keeps
  rcases fixed_far (init_inv buf f required) rfl positive small bound all with none_ | far
  · exact Nat.ne_of_gt calls none_
  · have start : (acInInitWithBuffer buf f required).base.buf.pos = 0 := rfl
    omega

/-- Any number of calls stay within the buffer of the caller and leave its bytes, if and only if
    each finds a record with a byte behind it, or nothing that it hands out. -/
theorem buffer_kept_iff (buf : List UInt8) (format : Format) (required : Bool) (n : Nat) :
    Keeps buf n (acInInitWithBuffer buf format required) ↔ AllInside n (acInInitWithBuffer buf format required) :=
  keeps_iff (init_inv buf format required)

/-- A record of fixed length at the end of the buffer gets its zero behind it. -/
theorem last_record_outside : ¬ ∀ (buf : List UInt8) format required n, Keeps buf n (acInInitWithBuffer buf format required) := by
  intro all
  have keeps := all [97,98] 2 true 1
  have stuck : acInAdvance (acInInitWithBuffer [97,98] 2 true) = none := by decide
  rcases keeps with aborts | ⟨r,g,made,-,-⟩
  · rw [stuck] at aborts
    cases aborts
  · rw [stuck] at made
    cases made

end
end AnotherC.CallerBuffer
