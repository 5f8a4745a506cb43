import AnotherC.Core.PoolCsv
import AnotherC.Core.PoolCells

/-!
# `_ac_pool_split_csv` in memory

Two passes over a string and its NUL: the first counts the fields, and behind the array of
pointers that is allocated for them the second writes the fields over the string. A byte
behind the NUL is not there to be read or written. The list functions `countFields` and
`splitFields` say what the passes do.
-/
namespace AnotherC.PoolSplitCsv
open AnotherC.PoolCells
open AnotherC.PoolCsv
open AnotherC.Lib.Text
open AnotherC.Lib.Steps
open AnotherC.Lib.InPlace
set_option linter.unusedVariables false

/-! ## The code -/

/-- The first pass with `p` and `num`, and the second with `s`, `wp` and the cells in front of
    `wr`; both outside or inside of quotes. -/
inductive Pass where
  | count (quoted : Bool) (p num : Nat)
  | fill (num : Nat) (quoted : Bool) (s wp : Nat) (r : List Nat)
deriving Repr, DecidableEq

structure State where
  bytes : List UInt8
  pass : Pass
deriving Repr, DecidableEq

/-- The first pass goes over to the second with an array of `num + 1` cells. -/
def counts (delim : UInt8) (bytes : List UInt8) (quoted : Bool) (p num : Nat) : Option (Next State Split) := do
  let c ← bytes[p]?
  if quoted = false then
    if c = 0 then some (.goto ⟨bytes,.fill num false 0 0 [0]⟩)
    else if c = 34 then some (.goto ⟨bytes,.count true (p + 1) num⟩)
    else if c = delim then some (.goto ⟨bytes,.count false (p + 1) (num + 1)⟩)
    else some (.goto ⟨bytes,.count false (p + 1) num⟩)
  else if c ≠ 0 ∧ c ≠ 34 then some (.goto ⟨bytes,.count true (p + 1) num⟩)
  else if c = 0 then some (.goto ⟨bytes,.count false (p + 1) num⟩)
  else do
    let d ← bytes[p + 1]?
    if d = 34 then some (.goto ⟨bytes,.count true (p + 2) num⟩) else some (.goto ⟨bytes,.count false (p + 1) num⟩)

/-- The second pass; a cell behind the array is not there to be written. -/
def fills (delim : UInt8) (bytes : List UInt8) (num : Nat) (quoted : Bool) (s wp : Nat) (r : List Nat) : Option (Next State Split) := do
  let c ← bytes[s]?
  if quoted = false then
    if c = 0 then do
      let bytes ← write bytes wp 0
      if r.length < num + 1 then some (.returned ⟨num,r.map some ++ [none],bytes⟩) else none
    else if c = 34 then some (.goto ⟨bytes,.fill num true (s + 1) wp r⟩)
    else if c = delim then do
      let bytes ← write bytes wp 0
      if r.length < num + 1 then some (.goto ⟨bytes,.fill num false (s + 1) (s + 1) (r ++ [s + 1])⟩) else none
    else do
      let bytes ← write bytes wp c
      some (.goto ⟨bytes,.fill num false (s + 1) (wp + 1) r⟩)
  else if c ≠ 0 ∧ c ≠ 34 then do
    let bytes ← write bytes wp c
    some (.goto ⟨bytes,.fill num true (s + 1) (wp + 1) r⟩)
  else if c = 0 then some (.goto ⟨bytes,.fill num false (s + 1) wp r⟩)
  else do
    let d ← bytes[s + 1]?
    if d = 34 then do
      let bytes ← write bytes wp c
      some (.goto ⟨bytes,.fill num true (s + 2) (wp + 1) r⟩)
    else some (.goto ⟨bytes,.fill num false (s + 1) wp r⟩)

def step (delim : UInt8) (state : State) : Option (Next State Split) :=
  match state.pass with
  | .count quoted p num => counts delim state.bytes quoted p num
  | .fill num quoted s wp r => fills delim state.bytes num quoted s wp r

/-- `ac_pool_split_csv` begins with a copy of the string. -/
def begin (s : Text) : State := ⟨s ++ [0],.count false 0 1⟩

/-- `ac_pool_split_csv`, for as many steps. -/
def acPoolSplitCsv (fuel : Nat) (delim : UInt8) (s : Text) : Option (Next State Split) := run (step delim) fuel (begin s)

/-! ## The first pass -/

section
variable {delim : UInt8} {bytes : List UInt8}

/-- A byte behind the NUL is read. -/
theorem count_behind {p : Nat} (here : bytes.drop p = []) (num : Nat) : Fails (step delim) ⟨bytes,.count false p num⟩ := by
  have none_ : bytes[p]? = none := List.getElem?_eq_none (List.drop_eq_nil_iff.mp here)
  apply Fails.now
  show counts delim bytes false p num = none
  rw [counts,none_]
  rfl

/-- What the first pass does with the rest of the string. -/
def Counts (delim : UInt8) (bytes : List UInt8) (quoted : Bool) (p num : Nat) : Option Nat → Prop
  | some n => Reaches (step delim) ⟨bytes,.count quoted p num⟩ ⟨bytes,.fill (num + n - 1) false 0 0 [0]⟩
  | none => Fails (step delim) ⟨bytes,.count quoted p num⟩

theorem Counts.after {quoted quoted' : Bool} {p p' num num' : Nat} {n n' : Option Nat}
    (stepped : counts delim bytes quoted p num = some (.goto ⟨bytes,.count quoted' p' num'⟩))
    (same : n.map (num + · - 1) = n'.map (num' + · - 1)) (later : Counts delim bytes quoted' p' num' n') : Counts delim bytes quoted p num n := by
  cases n with
  | none =>
    cases n' with
    | some _ => cases same
    | none => exact Fails.after stepped later
  | some n =>
    cases n' with
    | none => cases same
    | some n' =>
      have equal : num + n - 1 = num' + n' - 1 := Option.some.inj same
      rw [Counts,equal]
      exact Reaches.after stepped later

/-- The first pass counts the fields, or leaves the string. -/
theorem count_run (quoted : Bool) (rest : List UInt8) (free : 0 ∉ rest) {p : Nat} (here : bytes.drop p = rest ++ [0]) (num : Nat) :
    Counts delim bytes quoted p num (countFields delim quoted rest) := by
  induction quoted, rest using countFields.induct delim generalizing p num with
  | case1 =>
    obtain ⟨isZero,-⟩ := read_cons here
    refine Reaches.after ?_ (Reaches.refl ..)
    show counts delim bytes false p num = _
    rw [counts,isZero]
    rfl
  | case2 s ih =>
    obtain ⟨isQuote,here⟩ := read_cons here
    rw [countFields,if_pos rfl]
    refine Counts.after ?_ rfl (ih (fun inside => free (List.mem_cons_of_mem _ inside)) here num)
    rw [counts,isQuote]
    rfl
  | case3 s other ih =>
    obtain ⟨isDelim,here⟩ := read_cons here
    have notZero : delim ≠ 0 := fun zero => free (zero ▸ List.mem_cons_self)
    rw [countFields,if_neg other,if_pos rfl]
    refine Counts.after ?_ ?_ (ih (fun inside => free (List.mem_cons_of_mem _ inside)) here (num + 1))
    · rw [counts,isDelim]
      simp only [Option.bind_eq_bind,Option.bind_some,if_true,notZero,other,if_false]
    · rw [Option.map_map]
      congr 1
      funext n
      show num + (n + 1) - 1 = num + 1 + n - 1
      omega
  | case4 c s other inField ih =>
    obtain ⟨isByte,here⟩ := read_cons here
    have notZero : c ≠ 0 := fun zero => free (zero ▸ List.mem_cons_self)
    rw [countFields,if_neg other,if_neg inField]
    refine Counts.after ?_ rfl (ih (fun inside => free (List.mem_cons_of_mem _ inside)) here num)
    rw [counts,isByte]
    simp only [Option.bind_eq_bind,Option.bind_some,if_true,notZero,other,inField,if_false]
  | case5 =>
    obtain ⟨isZero,here⟩ := read_cons here
    refine Fails.after ?_ (count_behind here num)
    show counts delim bytes true p num = _
    rw [counts,isZero]
    rfl
  | case6 c s other ih =>
    obtain ⟨isByte,here⟩ := read_cons here
    have notZero : c ≠ 0 := fun zero => free (zero ▸ List.mem_cons_self)
    rw [countFields_inside other]
    refine Counts.after ?_ rfl (ih (fun inside => free (List.mem_cons_of_mem _ inside)) here num)
    rw [counts,isByte]
    simp only [Option.bind_eq_bind,Option.bind_some,Bool.true_eq_false,if_false]
    rw [if_pos ⟨notZero,other⟩]
  | case7 c quote ih =>
    obtain rfl := not_ne_iff.mp quote
    obtain ⟨isQuote,here⟩ := read_cons here
    obtain ⟨isZero,-⟩ := read_cons here
    rw [countFields,if_neg quote]
    refine Counts.after ?_ rfl (ih (fun inside => absurd inside List.not_mem_nil) here num)
    rw [counts,isQuote]
    simp only [Option.bind_eq_bind,Option.bind_some,isZero]
    rfl
  | case8 c quote s ih =>
    obtain rfl := not_ne_iff.mp quote
    obtain ⟨isQuote,here⟩ := read_cons here
    obtain ⟨again,here⟩ := read_cons here
    rw [countFields,if_neg quote]
    refine Counts.after ?_ rfl (ih (fun inside => free (List.mem_cons_of_mem _ (List.mem_cons_of_mem _ inside))) here num)
    rw [counts,isQuote]
    simp only [Option.bind_eq_bind,Option.bind_some,again]
    rfl
  | case9 c quote c₂ s other ih =>
    obtain rfl := not_ne_iff.mp quote
    obtain ⟨isQuote,here⟩ := read_cons here
    obtain ⟨another,-⟩ := read_cons here
    rw [countFields,if_neg quote]
    simp only [other,if_false]
    refine Counts.after ?_ rfl (ih (fun inside => free (List.mem_cons_of_mem _ inside)) here num)
    rw [counts,isQuote]
    simp only [Option.bind_eq_bind,Option.bind_some,another,other,if_false]
    rfl

/-! ## The second pass -/

variable {num : Nat} {quoted : Bool} {front w gap tail : List UInt8} {ps : List Nat}

/-- The string in the second pass: the fields that are done, what was written of the
    current one, the gap, and what is still to be read. -/
def filling (num : Nat) (quoted : Bool) (front w gap tail : List UInt8) (ps : List Nat) : State :=
  ⟨front ++ w ++ gap ++ tail,
    .fill num quoted (front.length + w.length + gap.length) (front.length + w.length) (ps ++ [front.length])⟩

theorem write_gap (c x : UInt8) : write (front ++ w ++ gap ++ c :: tail) (front.length + w.length) x =
    some (front ++ (w ++ [x]) ++ shifted gap c ++ tail) := by
  have inside : front.length + w.length < (front ++ w ++ gap ++ c :: tail).length := by
    simp only [List.length_append,List.length_cons]
    omega
  rw [write,if_pos inside,set_written]

/-- What a step does in the second pass. -/
theorem step_filling : step delim (filling num quoted front w gap tail ps) =
    fills delim (front ++ w ++ gap ++ tail) num quoted (front.length + w.length + gap.length) (front.length + w.length)
      (ps ++ [front.length]) := rfl

/-- A byte is read and another one is written. -/
theorem filling_written (c x : UInt8) : (⟨front ++ (w ++ [x]) ++ shifted gap c ++ tail,
    .fill num quoted (front.length + w.length + gap.length + 1) (front.length + w.length + 1) (ps ++ [front.length])⟩ : State) =
      filling num quoted front (w ++ [x]) (shifted gap c) tail ps := by
  rw [filling,shifted_length,List.length_append,List.length_singleton]
  congr 2
  omega

/-- A byte is read and none is written. -/
theorem filling_skipped (c : UInt8) : (⟨front ++ w ++ gap ++ c :: tail,
    .fill num quoted (front.length + w.length + gap.length + 1) (front.length + w.length) (ps ++ [front.length])⟩ : State) =
      filling num quoted front w (gap ++ [c]) tail ps := by
  have bytes : front ++ w ++ gap ++ c :: tail = front ++ w ++ (gap ++ [c]) ++ tail := by simp
  rw [filling,bytes,List.length_append,List.length_singleton,← Nat.add_assoc]

theorem fill_byte {c : UInt8} (notZero : c ≠ 0) (other : c ≠ 34) (inField : quoted = false → c ≠ delim) :
    step delim (filling num quoted front w gap (c :: tail) ps) =
      some (.goto (filling num quoted front (w ++ [c]) (shifted gap c) tail ps)) := by
  rw [step_filling,fills,read_rest,← filling_written]
  simp only [Option.bind_eq_bind,Option.bind_some,notZero,other,if_false,ne_eq,not_false_eq_true,and_self,if_true,write_gap]
  cases quoted with
  | false => simp only [if_true,inField rfl,if_false]
  | true => rfl

/-- A quote that opens. -/
theorem fill_open : step delim (filling num false front w gap (34 :: tail) ps) =
    some (.goto (filling num true front w (gap ++ [34]) tail ps)) := by
  rw [step_filling,fills,read_rest,← filling_skipped]
  rfl

theorem read_second (c d : UInt8) :
    (front ++ w ++ gap ++ c :: d :: tail)[front.length + w.length + gap.length + 1]? = some d := by
  have moved := read_rest front w (gap ++ [c]) d tail
  have bytes : front ++ w ++ (gap ++ [c]) ++ d :: tail = front ++ w ++ gap ++ c :: d :: tail := by simp
  rw [List.length_append,List.length_singleton,← Nat.add_assoc,bytes] at moved
  exact moved

/-- A quote that closes. -/
theorem fill_close {c : UInt8} (other : c ≠ 34) : step delim (filling num true front w gap (34 :: c :: tail) ps) =
    some (.goto (filling num false front w (gap ++ [34]) (c :: tail) ps)) := by
  rw [step_filling,fills,read_rest,← filling_skipped]
  simp only [Option.bind_eq_bind,Option.bind_some,read_second,other,if_false]
  rfl

/-- Two quotes inside. -/
theorem fill_double : step delim (filling num true front w gap (34 :: 34 :: tail) ps) =
    some (.goto (filling num true front (w ++ [34]) (shifted gap 34 ++ [34]) tail ps)) := by
  have s : front.length + (w ++ [34]).length + (shifted gap 34 ++ [34]).length = front.length + w.length + gap.length + 2 := by
    simp only [List.length_append,List.length_singleton,shifted_length]
    omega
  have bytes : front ++ (w ++ [34]) ++ (shifted gap 34 ++ [34]) ++ tail = front ++ (w ++ [34]) ++ shifted gap 34 ++ 34 :: tail := by simp
  have wp : front.length + (w ++ [34]).length = front.length + w.length + 1 := by
    rw [List.length_append,List.length_singleton,Nat.add_assoc]
  rw [step_filling,fills,read_rest,filling,s,wp,bytes]
  simp only [Option.bind_eq_bind,Option.bind_some,read_second,write_gap,if_true]
  rfl

/-- The end of a field. -/
theorem fill_delim (notZero : delim ≠ 0) (other : delim ≠ 34) (room : ps.length < num) :
    step delim (filling num false front w gap (delim :: tail) ps) =
      some (.goto (filling num false (front ++ w ++ 0 :: shifted gap delim) [] [] tail (ps ++ [front.length]))) := by
  have length : (front ++ w ++ 0 :: shifted gap delim).length = front.length + w.length + gap.length + 1 := by
    simp only [List.length_append,List.length_cons,shifted_length]
    omega
  have bytes : front ++ (w ++ [0]) ++ shifted gap delim = front ++ w ++ 0 :: shifted gap delim := by simp
  rw [step_filling,fills,read_rest,filling,length]
  simp only [Option.bind_eq_bind,Option.bind_some,notZero,other,if_false,if_true,write_gap,bytes,cells room front.length,
    List.append_nil,List.length_nil,Nat.add_zero]

/-- The end of the string. -/
theorem fill_end (room : ps.length < num) : step delim (filling num false front w gap [0] ps) =
    some (.returned ⟨num,(ps ++ [front.length]).map some ++ [none],front ++ w ++ 0 :: shifted gap 0⟩) := by
  have bytes : front ++ (w ++ [0]) ++ shifted gap 0 = front ++ w ++ 0 :: shifted gap 0 := by simp
  rw [step_filling,fills,read_rest]
  simp only [Option.bind_eq_bind,Option.bind_some,if_true,write_gap,bytes,cells room front.length,List.append_nil]

/-- The second pass writes the fields. -/
theorem fill_run (quoted : Bool) (w rest : List UInt8) (free : 0 ∉ rest) (clean : 0 ∉ w) (front gap : List UInt8) (ps : List Nat)
    {fields : List Text} (split : splitFields delim quoted w rest = some fields) :
    Fills (step delim) num front ps (filling num quoted front w gap (rest ++ [0]) ps) fields := by
  induction quoted, w, rest using splitFields.induct delim generalizing front gap ps fields with
  | case1 w =>
    cases split
    exact Fills.last clean fill_end
  | case2 w s ih =>
    rw [splitFields,if_pos rfl] at split
    exact Fills.after fill_open (ih (fun inside => free (List.mem_cons_of_mem _ inside)) clean _ _ _ split)
  | case3 w s other ih =>
    have notZero : delim ≠ 0 := fun zero => free (zero ▸ List.mem_cons_self)
    rw [splitFields,if_neg other,if_pos rfl] at split
    obtain ⟨later,ended,rfl⟩ := Option.map_eq_some_iff.mp split
    exact Fills.more clean (fill_delim notZero other) (ih (fun inside => free (List.mem_cons_of_mem _ inside)) List.not_mem_nil _ _ _ ended)
  | case4 w c s other inField ih =>
    have notZero : c ≠ 0 := fun zero => free (zero ▸ List.mem_cons_self)
    rw [splitFields,if_neg other,if_neg inField] at split
    exact Fills.after (fill_byte notZero other fun _ => inField) (ih (fun inside => free (List.mem_cons_of_mem _ inside))
      (by simpa using ⟨clean,notZero.symm⟩) _ _ _ split)
  | case5 w => cases split
  | case6 w c s other ih =>
    have notZero : c ≠ 0 := fun zero => free (zero ▸ List.mem_cons_self)
    rw [splitFields_inside other] at split
    exact Fills.after (fill_byte notZero other fun outside => Bool.noConfusion outside) (ih (fun inside => free (List.mem_cons_of_mem _ inside))
      (by simpa using ⟨clean,notZero.symm⟩) _ _ _ split)
  | case7 w c quote ih =>
    obtain rfl := not_ne_iff.mp quote
    rw [splitFields,if_neg quote] at split
    exact Fills.after (fill_close (by decide)) (ih List.not_mem_nil clean _ _ _ split)
  | case8 w c quote s ih =>
    obtain rfl := not_ne_iff.mp quote
    rw [splitFields,if_neg quote] at split
    exact Fills.after fill_double (ih (fun inside => free (List.mem_cons_of_mem _ (List.mem_cons_of_mem _ inside)))
      (by simpa using clean) _ _ _ split)
  | case9 w c quote c₂ s other ih =>
    obtain rfl := not_ne_iff.mp quote
    rw [splitFields,if_neg quote] at split
    simp only [other,if_false] at split
    exact Fills.after (fill_close other) (ih (fun inside => free (List.mem_cons_of_mem _ inside)) clean _ _ _ split)

/-! ## Both passes -/

/-- The string is split: the array has a cell for each field, in order, and NULL. -/
def Splits (delim : UInt8) (s : Text) (fields : List Text) : Prop := ∃ ps bytes,
  Returns (step delim) (begin s) ⟨fields.length,ps.map some ++ [none],bytes⟩ ∧ List.Forall₂ (Cut bytes) ps fields

variable {s : Text}

theorem splits {fields : List Text} (free : 0 ∉ s) (split : splitFields delim false [] s = some fields) : Splits delim s fields := by
  have counted : Counts delim (s ++ [0]) false 0 1 (countFields delim false s) := count_run false s free rfl 1
  rw [splitFields_count false [] s,split,Option.map_some,Counts,Nat.add_comm 1,Nat.add_sub_cancel] at counted
  have filled : Fills (step delim) fields.length [] [] _ fields := fill_run false [] s free List.not_mem_nil [] [] [] split
  obtain ⟨bytes,ps,returns,cuts⟩ := filled (Nat.zero_add _)
  exact ⟨0 :: ps,bytes,counted.returns returns,cuts⟩

theorem splits_behind (free : 0 ∉ s) (behind : splitFields delim false [] s = none) : Fails (step delim) (begin s) := by
  have counted : Counts delim (s ++ [0]) false 0 1 (countFields delim false s) := count_run false s free rfl 1
  rw [splitFields_count false [] s,behind] at counted
  exact counted

/-- Splitting gets through when the string ends outside of quotes. -/
theorem splitFields_closed (quoted : Bool) (wp s : List UInt8) :
    (splitFields delim quoted wp s).isSome = !endsQuoted quoted s := by
  induction quoted, wp, s using splitFields.induct delim with
  | case1 => rfl
  | case2 wp s ih => simpa only [splitFields,endsQuoted,if_true,Bool.not_false] using ih
  | case3 wp s other ih => simpa only [splitFields,endsQuoted,other,if_false,if_true,Option.isSome_map] using ih
  | case4 wp c s other inField ih => simpa only [splitFields,endsQuoted,other,inField,if_false] using ih
  | case5 => rfl
  | case6 wp c s other ih =>
    rw [splitFields_inside other,ih,endsQuoted,if_neg other]
  | case7 wp c quote ih =>
    obtain rfl := not_ne_iff.mp quote
    rfl
  | case8 wp c quote s ih =>
    obtain rfl := not_ne_iff.mp quote
    rw [splitFields,if_neg quote]
    exact ih
  | case9 wp c quote c₂ s other ih =>
    obtain rfl := not_ne_iff.mp quote
    rw [splitFields,if_neg quote]
    simp only [other,if_false]
    exact ih

theorem endsQuoted_count (quoted : Bool) (s : List UInt8) : endsQuoted quoted s = (quoted ^^ decide (s.count 34 % 2 = 1)) := by
  induction s generalizing quoted with
  | nil => simp [endsQuoted]
  | cons c s ih =>
    rw [endsQuoted,ih]
    by_cases quote : c = 34
    · subst quote
      have parity : decide ((34 :: s).count 34 % 2 = 1) = !decide (s.count 34 % 2 = 1) := by
        rw [List.count_cons_self,← decide_not,decide_eq_decide]
        omega
      rw [if_pos rfl,parity,Bool.not_xor,Bool.xor_not]
    · rw [if_neg quote,List.count_cons_of_ne quote]

variable (delim s) in
/-- A string whose quotes are odd in number ends inside of them. -/
theorem splitFields_even : (splitFields delim false [] s).isSome ↔ s.count 34 % 2 = 0 := by
  rw [splitFields_closed,endsQuoted_count,Bool.false_xor,← decide_not,decide_eq_true_iff]
  omega

end

/-- Both passes stay within the string and its NUL, and as many cells are written as the first
    pass counted, where the quotes are even in number. -/
theorem split_inside_iff (delim : UInt8) (s : Text) (free : 0 ∉ s) : (∃ fields, Splits delim s fields) ↔ s.count 34 % 2 = 0 := by
  rw [← splitFields_even delim s]
  constructor
  · rintro ⟨fields,ps,bytes,returns,-⟩
    rw [Option.isSome_iff_ne_none]
    intro behind
    exact (splits_behind free behind).not_returns returns
  · intro closed
    obtain ⟨fields,split⟩ := Option.isSome_iff_exists.mp closed
    exact ⟨fields,splits free split⟩

/-- `a,"b""c"`. -/
theorem split_inside_two : ∃ fields, Splits 44 [97,44,34,98,34,34,99,34] fields :=
  (split_inside_iff 44 [97,44,34,98,34,34,99,34] (by decide)).mpr (by decide)

/-- A quote alone: the byte behind the NUL is read. -/
theorem lone_quote_behind : Fails (step 44) (begin [34]) ∧ ¬ ∃ fields, Splits 44 [34] fields := by
  have behind : Fails (step 44) (begin [34]) := splits_behind (by decide) rfl
  refine ⟨behind,?_⟩
  rintro ⟨fields,ps,bytes,returns,-⟩
  exact behind.not_returns returns

end AnotherC.PoolSplitCsv
