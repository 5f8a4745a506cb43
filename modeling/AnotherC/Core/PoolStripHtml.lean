import AnotherC.Core.PoolCells
import Mathlib.Data.List.DropRight
import Mathlib.Data.List.TakeWhile

/-!
# `ac_pool_strip_html`

Tags are taken out of a copy of the string in place, and so are spaces behind a space. Inside of
a tag the values in quotes are followed to the quote that closes them, a backslash together with
the byte behind it: where that byte is the NUL, it is stepped over.
-/
namespace AnotherC.PoolStripHtml
open AnotherC.PoolCells
open AnotherC.Lib.Text
open AnotherC.Lib.Steps
open AnotherC.Lib.InPlace
open scoped List
set_option linter.unusedVariables false

/-! ## The code -/

/-- The loops: over the spaces in front, over the text, over a tag, over a value that ends with
    `quote`, and over the spaces at the end of the result. -/
inductive Label where
  | skip
  | text
  | tag
  | value (quote : UInt8)
  | trim
deriving Repr, DecidableEq

/-- `r`, which is the copy of the string, with `sp` and `wp`. -/
structure State where
  label : Label
  bytes : List UInt8
  sp : Nat
  wp : Nat
deriving Repr, DecidableEq

/-- `strchr(s, c)`: whether there is one. -/
def strchr (c : UInt8) : List UInt8 → Option Bool
  | [] => none
  | d :: s => if d = c then some true else if d = 0 then some false else strchr c s

/-- `wp > r && wp[-1] == ' '`. -/
def spaceBehind (bytes : List UInt8) (wp : Nat) : Option Bool := if wp = 0 then some false else (bytes[wp - 1]?).map (· = 32)

/-- `*sp == '<' && strchr(sp+1, '>')`, for the byte `c` at `sp`. -/
def opens (bytes : List UInt8) (c : UInt8) (sp : Nat) : Option Bool :=
  if c = 60 then strchr 62 (bytes.drop (sp + 1)) else some false

/-- `*sp == ' ' && wp > r && wp[-1] == ' '`. -/
def doubles (bytes : List UInt8) (c : UInt8) (wp : Nat) : Option Bool := if c = 32 then spaceBehind bytes wp else some false

def step (state : State) : Option (Next State (List UInt8)) :=
  match state.label with
  | .skip => do
    let c ← state.bytes[state.sp]?
    if c = 32 then some (.goto { state with sp := state.sp + 1 }) else some (.goto { state with label := .text })
  | .text => do
    let c ← state.bytes[state.sp]?
    if c = 0 then some (.goto { state with label := .trim })
    else do
      let tag ← opens state.bytes c state.sp
      if tag then some (.goto { state with label := .tag, sp := state.sp + 1 })
      else do
        let double ← doubles state.bytes c state.wp
        if double then some (.goto { state with sp := state.sp + 1 })
        else do
          let bytes ← write state.bytes state.wp c
          some (.goto { state with bytes := bytes, sp := state.sp + 1, wp := state.wp + 1 })
  | .tag => do
    let c ← state.bytes[state.sp]?
    if c = 0 then some (.goto { state with label := .text })
    else if c = 62 then some (.goto { state with label := .text, sp := state.sp + 1 })
    else if c = 34 ∨ c = 39 then some (.goto { state with label := .value c, sp := state.sp + 1 })
    else some (.goto { state with sp := state.sp + 1 })
  | .value quote => do
    let c ← state.bytes[state.sp]?
    if c = 0 then some (.goto { state with label := .tag })
    else if c = quote then some (.goto { state with label := .tag, sp := state.sp + 1 })
    else if c = 92 then some (.goto { state with sp := state.sp + 2 })
    else some (.goto { state with sp := state.sp + 1 })
  | .trim => do
    let space ← spaceBehind state.bytes state.wp
    if space then some (.goto { state with wp := state.wp - 1 })
    else do
      let bytes ← write state.bytes state.wp 0
      some (.returned bytes)

def begin (s : Text) : State := ⟨.skip,s ++ [0],0,0⟩

/-- `ac_pool_strip_html`, for as many steps. -/
def acPoolStripHtml (fuel : Nat) (s : Text) : Option (Next State (List UInt8)) := run step fuel (begin s)

/-! ## Tags -/

/-- Where a byte of the text stands: outside of tags, in a tag, in a value in quotes, or behind
    a backslash in one. -/
inductive Mode where
  | text
  | tag
  | value (quote : UInt8)
  | escape (quote : UInt8)
deriving Repr, DecidableEq

/-- Where the byte behind `c` stands. A tag is opened only where it can be closed later. -/
def next (mode : Mode) (c : UInt8) (rest : Text) : Mode :=
  match mode with
  | .text => if c = 60 ∧ 62 ∈ rest then .tag else .text
  | .tag => if c = 62 then .text else if c = 34 ∨ c = 39 then .value c else .tag
  | .value quote => if c = quote then .tag else if c = 92 then .escape quote else .value quote
  | .escape quote => .value quote

/-- Where the text ends. -/
def endsIn (mode : Mode) : Text → Mode
  | [] => mode
  | c :: s => endsIn (next mode c s) s

/-- The text outside of the tags. -/
def visible (mode : Mode) : Text → Text
  | [] => []
  | c :: s => if mode = .text ∧ next mode c s = .text then c :: visible .text s else visible (next mode c s) s

/-- What is written behind `w`: no space behind a space. -/
def squeezed (w : Text) : Text → Text
  | [] => w
  | c :: s => if c = 32 ∧ w.getLast? = some 32 then squeezed w s else squeezed (w ++ [c]) s

/-- The result of the code. -/
def stripped (s : Text) : Text := (squeezed [] (visible .text (s.dropWhile (· = 32)))).rdropWhile (· = 32)

theorem visible_sublist (mode : Mode) (s : Text) : visible mode s <+ s := by
  induction s generalizing mode with
  | nil => exact .slnil
  | cons c s ih =>
    rw [visible]
    split
    · exact (ih .text).cons_cons c
    · exact (ih _).cons c

theorem squeezed_sublist (w s : Text) : squeezed w s <+ w ++ s := by
  induction s generalizing w with
  | nil => simp [squeezed]
  | cons c s ih =>
    rw [squeezed]
    split
    · exact (ih w).trans ((List.Sublist.refl w).append ((List.Sublist.refl s).cons c))
    · have later := ih (w ++ [c])
      rwa [List.append_assoc,List.singleton_append] at later

/-- No two spaces one behind the other. -/
def Single (s : Text) : Prop := ¬ [32,32] <:+: s

theorem Single.more {w : Text} (single : Single w) {c : UInt8} (apart : ¬ (c = 32 ∧ w.getLast? = some 32)) : Single (w ++ [c]) := by
  rintro ⟨before,after,whole⟩
  rcases List.eq_nil_or_concat after with rfl | ⟨after,d,rfl⟩
  · rw [List.append_nil] at whole
    have split : before ++ [32] ++ [32] = w ++ [c] := by rw [← whole]; simp
    obtain ⟨front,last⟩ := List.append_inj' split rfl
    refine apart ⟨(List.singleton_inj.mp last).symm,?_⟩
    rw [← front,List.getLast?_append,List.getLast?_singleton]
    rfl
  · rw [List.concat_eq_append,← List.append_assoc] at whole
    obtain ⟨front,-⟩ := List.append_inj' whole rfl
    exact single ⟨before,after,front⟩

theorem squeezed_single (w s : Text) (single : Single w) : Single (squeezed w s) := by
  induction s generalizing w with
  | nil => exact single
  | cons c s ih =>
    rw [squeezed]
    split
    case isTrue => exact ih w single
    case isFalse apart => exact ih _ (single.more apart)

theorem visible_skip (s : Text) : visible .text (s.dropWhile (· = 32)) <+ visible .text s := by
  induction s with
  | nil => exact .slnil
  | cons c s ih =>
    rw [List.dropWhile_cons]
    split
    case isTrue space =>
      have isSpace : c = 32 := of_decide_eq_true space
      have shown : visible .text (c :: s) = c :: visible .text s := by
        have stays : next .text c s = .text := by simp [next,isSpace]
        rw [visible,stays,if_pos ⟨rfl,rfl⟩]
      rw [shown]
      exact ih.cons c
    case isFalse => exact List.Sublist.refl _

/-- What the result is like: it has nothing of a tag that was removed, no two spaces together,
    no space at its end, and is a subsequence of the string. -/
structure Stripped (s result : Text) : Prop where
  outside : result <+ visible .text s
  single : Single result
  trimmed : result.getLast? ≠ some 32
  subsequence : result <+ s

theorem stripped_spec (s : Text) : Stripped s (stripped s) := by
  have prefix_ : stripped s <+: squeezed [] (visible .text (s.dropWhile (· = 32))) := List.rdropWhile_prefix _ _
  have outside : stripped s <+ visible .text s :=
    prefix_.sublist.trans ((squeezed_sublist [] _).trans (visible_skip s))
  refine ⟨outside,?_,?_,outside.trans (visible_sublist .text s)⟩
  · intro double
    exact squeezed_single [] _ (by rintro ⟨before,after,whole⟩; simp at whole) (double.trans prefix_.isInfix)
  · intro last
    have filled : stripped s ≠ [] := by
      intro nothing
      rw [nothing] at last
      cases last
    exact List.rdropWhile_last_not _ _ filled (decide_eq_true ((List.getLast_eq_iff_getLast?_eq_some filled).mpr last))

/-! ## The string in memory -/

def Mode.label : Mode → Label
  | .text => .text
  | .tag => .tag
  | .value quote => .value quote
  | .escape quote => .value quote

/-- Behind a backslash `sp` is one byte ahead. -/
def Mode.ahead : Mode → Nat
  | .escape _ => 1
  | _ => 0

/-- What was written, the gap behind it, and what is still to be read. -/
def walking (mode : Mode) (w gap rest : List UInt8) : State :=
  ⟨mode.label,w ++ gap ++ rest,w.length + gap.length + mode.ahead,w.length⟩

/-- Where the spaces at the end are taken away. -/
def trimming (w behind : List UInt8) (sp : Nat) : State := ⟨.trim,w ++ behind,sp,w.length⟩

section
variable {w gap rest : List UInt8} {c : UInt8} {s : Text}

theorem strchr_spec (x : UInt8) (s : Text) (free : 0 ∉ s) (notZero : x ≠ 0) : strchr x (s ++ [0]) = some (decide (x ∈ s)) := by
  induction s with
  | nil => simp [strchr,notZero.symm]
  | cons d s ih =>
    have isByte : d ≠ 0 := fun zero => free (zero ▸ List.mem_cons_self)
    rw [List.cons_append,strchr,ih fun inside => free (List.mem_cons_of_mem _ inside),if_neg isByte]
    by_cases found : d = x
    · simp [found]
    · simp [found,Ne.symm found]

theorem spaceBehind_spec (w behind : List UInt8) : spaceBehind (w ++ behind) w.length = some (decide (w.getLast? = some 32)) := by
  rcases List.eq_nil_or_concat w with rfl | ⟨w,c,rfl⟩
  · rfl
  · rw [List.concat_eq_append]
    have last : (w ++ [c] ++ behind)[(w ++ [c]).length - 1]? = some c := by
      rw [List.length_append,List.length_singleton,Nat.add_sub_cancel,List.append_assoc,
        List.getElem?_append_right (Nat.le_refl _),Nat.sub_self]
      rfl
    rw [spaceBehind,if_neg (by simp),last]
    simp

/-- The byte that was read is passed. -/
theorem passed (mode : Mode) (w gap rest : List UInt8) (c : UInt8) :
    (⟨mode.label,w ++ gap ++ c :: rest,w.length + gap.length + 1 + mode.ahead,w.length⟩ : State) =
      walking mode w (gap ++ [c]) rest := by
  have bytes : w ++ gap ++ c :: rest = w ++ (gap ++ [c]) ++ rest := by simp
  rw [walking,bytes,List.length_append,List.length_singleton,← Nat.add_assoc w.length]

theorem goto_passed (mode : Mode) (w gap rest : List UInt8) (c : UInt8) :
    (some (.goto ⟨mode.label,w ++ gap ++ c :: rest,w.length + gap.length + 1 + mode.ahead,w.length⟩) : Option (Next State (List UInt8))) =
      some (.goto (walking mode w (gap ++ [c]) rest)) := by
  rw [passed]

/-! ### One byte -/

theorem step_tag (notZero : c ≠ 0) (s : Text) :
    step (walking .tag w gap (c :: rest)) = some (.goto (walking (next .tag c s) w (gap ++ [c]) rest)) := by
  have here : walking .tag w gap (c :: rest) = ⟨.tag,w ++ gap ++ c :: rest,w.length + gap.length,w.length⟩ := rfl
  simp only [here,step,read_word,Option.bind_eq_bind,Option.bind_some,notZero,if_false,next]
  by_cases closes : c = 62
  · rw [if_pos closes,if_pos closes]
    exact goto_passed .text w gap rest c
  by_cases quote : c = 34 ∨ c = 39
  · rw [if_neg closes,if_neg closes,if_pos quote,if_pos quote]
    exact goto_passed (.value c) w gap rest c
  · rw [if_neg closes,if_neg closes,if_neg quote,if_neg quote]
    exact goto_passed .tag w gap rest c

theorem step_value (notZero : c ≠ 0) (quote : UInt8) (s : Text) :
    step (walking (.value quote) w gap (c :: rest)) = some (.goto (walking (next (.value quote) c s) w (gap ++ [c]) rest)) := by
  have here : walking (.value quote) w gap (c :: rest) = ⟨.value quote,w ++ gap ++ c :: rest,w.length + gap.length,w.length⟩ := rfl
  simp only [here,step,read_word,Option.bind_eq_bind,Option.bind_some,notZero,if_false,next]
  by_cases closes : c = quote
  · rw [if_pos closes,if_pos closes]
    exact goto_passed .tag w gap rest c
  by_cases escapes : c = 92
  · rw [if_neg closes,if_neg closes,if_pos escapes,if_pos escapes]
    exact goto_passed (.escape quote) w gap rest c
  · rw [if_neg closes,if_neg closes,if_neg escapes,if_neg escapes]
    exact goto_passed (.value quote) w gap rest c

/-- Behind a backslash the next byte is passed already. -/
theorem walking_escape (quote : UInt8) : walking (.escape quote) w gap (c :: rest) = walking (.value quote) w (gap ++ [c]) rest :=
  passed (.value quote) w gap rest c

theorem opens_spec (free : 0 ∉ s) : opens (w ++ gap ++ c :: (s ++ [0])) c (w.length + gap.length) =
    some (decide (c = 60 ∧ 62 ∈ s)) := by
  have behind : (w ++ gap ++ c :: (s ++ [0])).drop (w.length + gap.length + 1) = s ++ [0] :=
    (read_cons (drop_word w gap (c :: (s ++ [0])))).2
  rw [opens,behind,strchr_spec 62 s free (by decide)]
  split
  case isTrue angle => simp [angle]
  case isFalse other => simp [other]

theorem step_open (notZero : c ≠ 0) (free : 0 ∉ s) (opened : c = 60 ∧ 62 ∈ s) :
    step (walking .text w gap (c :: (s ++ [0]))) = some (.goto (walking .tag w (gap ++ [c]) (s ++ [0]))) := by
  have here : walking .text w gap (c :: (s ++ [0])) = ⟨.text,w ++ gap ++ c :: (s ++ [0]),w.length + gap.length,w.length⟩ := rfl
  simp only [here,step,read_word,Option.bind_eq_bind,Option.bind_some,notZero,if_false,opens_spec free]
  rw [if_pos (decide_eq_true opened)]
  exact goto_passed .tag w gap (s ++ [0]) c

theorem doubles_spec (c : UInt8) (w behind : List UInt8) :
    doubles (w ++ behind) c w.length = some (decide (c = 32 ∧ w.getLast? = some 32)) := by
  rw [doubles,spaceBehind_spec]
  split
  case isTrue space => simp [space]
  case isFalse other => simp [other]

/-- A byte outside of tags is written, unless it is a space behind a space. -/
theorem step_text (notZero : c ≠ 0) (free : 0 ∉ s) (plain : ¬ (c = 60 ∧ 62 ∈ s)) : ∃ gap',
    step (walking .text w gap (c :: (s ++ [0]))) = some (.goto (walking .text (squeezed w [c]) gap' (s ++ [0]))) := by
  have here : walking .text w gap (c :: (s ++ [0])) = ⟨.text,w ++ gap ++ c :: (s ++ [0]),w.length + gap.length,w.length⟩ := rfl
  have doubling : doubles (w ++ gap ++ c :: (s ++ [0])) c w.length = some (decide (c = 32 ∧ w.getLast? = some 32)) := by
    rw [List.append_assoc]
    exact doubles_spec c w _
  simp only [here,step,read_word,Option.bind_eq_bind,Option.bind_some,notZero,if_false,opens_spec free,plain,decide_false,
    Bool.false_eq_true,doubling,squeezed,decide_eq_true_eq]
  by_cases double : c = 32 ∧ w.getLast? = some 32
  · refine ⟨gap ++ [c],?_⟩
    rw [if_pos double,if_pos double]
    exact goto_passed .text w gap (s ++ [0]) c
  · refine ⟨shifted gap c,?_⟩
    have written : write (w ++ gap ++ c :: (s ++ [0])) w.length c = some (w ++ [c] ++ shifted gap c ++ (s ++ [0])) := by
      have inside : w.length < (w ++ gap ++ c :: (s ++ [0])).length := by
        simp only [List.length_append,List.length_cons]
        omega
      have set := set_written [] w gap c c (s ++ [0])
      rw [List.nil_append,List.length_nil,Nat.zero_add] at set
      rw [write,if_pos inside,set,List.nil_append]
    have moved : (w ++ [c]).length + (shifted gap c).length = w.length + gap.length + 1 := by
      rw [List.length_append,List.length_singleton,shifted_length]
      omega
    rw [if_neg double,if_neg double,written]
    show some (Next.goto _) = some (Next.goto _)
    rw [walking,moved,List.length_append,List.length_singleton]
    rfl

/-! ### The text -/

def Mode.escapes : Mode → Bool
  | .escape _ => true
  | _ => false

/-- The NUL is stepped over, or what is left to do is to take spaces away. -/
def Strips (last : Mode) (result : Text) (state : State) : Prop :=
  if last.escapes then Fails step state else ∃ gap sp, Reaches step state (trimming result (gap ++ [0]) sp)

theorem Strips.after {last : Mode} {result : Text} {state state' : State} (stepped : step state = some (.goto state'))
    (later : Strips last result state') : Strips last result state := by
  unfold Strips at later ⊢
  split
  case isTrue escapes =>
    rw [if_pos escapes] at later
    exact Fails.after stepped later
  case isFalse inside =>
    rw [if_neg inside] at later
    obtain ⟨gap,sp,reaches⟩ := later
    exact ⟨gap,sp,Reaches.after stepped reaches⟩

theorem strips_end (mode : Mode) (w gap : List UInt8) : Strips mode w (walking mode w gap [0]) := by
  have text : Strips .text w (walking .text w gap [0]) := by
    refine ⟨gap,w.length + gap.length,Reaches.after ?_ (Reaches.refl ..)⟩
    have here : walking .text w gap [0] = ⟨.text,w ++ gap ++ [0],w.length + gap.length,w.length⟩ := rfl
    simp only [here,step,read_word,Option.bind_eq_bind,Option.bind_some,if_true]
    rw [trimming,List.append_assoc]
  have tag : Strips .text w (walking .tag w gap [0]) := by
    refine Strips.after ?_ text
    have here : walking .tag w gap [0] = ⟨.tag,w ++ gap ++ [0],w.length + gap.length,w.length⟩ := rfl
    simp only [here,step,read_word,Option.bind_eq_bind,Option.bind_some,if_true]
    rfl
  cases mode with
  | text => exact text
  | tag => exact tag
  | value quote =>
    refine Strips.after ?_ tag
    have here : walking (.value quote) w gap [0] = ⟨.value quote,w ++ gap ++ [0],w.length + gap.length,w.length⟩ := rfl
    simp only [here,step,read_word,Option.bind_eq_bind,Option.bind_some,if_true]
    rfl
  | escape quote =>
    refine Fails.now ?_
    have here : walking (.escape quote) w gap [0] = ⟨.value quote,w ++ gap ++ [0],w.length + gap.length + 1,w.length⟩ := rfl
    have behind : (w ++ gap ++ [0] : List UInt8)[w.length + gap.length + 1]? = none := by
      rw [List.getElem?_eq_none_iff]
      simp only [List.length_append,List.length_singleton]
      omega
    simp only [here,step,behind]
    rfl

theorem squeezed_cons (w : Text) (c : UInt8) (s : Text) : squeezed w (c :: s) = squeezed (squeezed w [c]) s := by
  rw [squeezed,squeezed]
  split
  · rfl
  · rfl

theorem visible_inside {mode : Mode} (inside : mode ≠ .text) (c : UInt8) (s : Text) : visible mode (c :: s) = visible (next mode c s) s := by
  rw [visible,if_neg fun both => inside both.1]

/-- The walk through the text. -/
theorem strips_run (mode : Mode) (s : Text) (free : 0 ∉ s) (w gap : List UInt8) :
    Strips (endsIn mode s) (squeezed w (visible mode s)) (walking mode w gap (s ++ [0])) := by
  induction s generalizing mode w gap with
  | nil => exact strips_end mode w gap
  | cons c s ih =>
    have notZero : c ≠ 0 := fun zero => free (zero ▸ List.mem_cons_self)
    have later : 0 ∉ s := fun inside => free (List.mem_cons_of_mem _ inside)
    rw [endsIn,List.cons_append]
    cases mode with
    | text =>
      by_cases opened : c = 60 ∧ 62 ∈ s
      · have mode : next .text c s = .tag := if_pos opened
        have hidden : visible .text (c :: s) = visible .tag s := by
          rw [visible,mode,if_neg fun both => Mode.noConfusion both.2]
        rw [mode,hidden]
        exact Strips.after (step_open notZero later opened) (ih .tag later w _)
      · have mode : next .text c s = .text := if_neg opened
        have shown : visible .text (c :: s) = c :: visible .text s := by rw [visible,mode,if_pos ⟨rfl,rfl⟩]
        obtain ⟨gap',stepped⟩ := step_text notZero later opened
        rw [mode,shown,squeezed_cons]
        exact Strips.after stepped (ih .text later _ gap')
    | tag =>
      rw [visible_inside (by decide)]
      exact Strips.after (step_tag notZero s) (ih _ later w _)
    | value quote =>
      rw [visible_inside Mode.noConfusion]
      exact Strips.after (step_value notZero quote s) (ih _ later w _)
    | escape quote =>
      rw [visible_inside Mode.noConfusion,walking_escape]
      exact ih (.value quote) later w _

/-- The spaces at the end are taken away. -/
theorem trim_run (w behind : List UInt8) (room : behind ≠ []) (sp : Nat) :
    ∃ more, Returns step (trimming w behind sp) (w.rdropWhile (· = 32) ++ 0 :: more) := by
  induction w using List.reverseRecOn generalizing behind with
  | nil =>
    obtain ⟨c,rest,rfl⟩ := List.exists_cons_of_ne_nil room
    exact ⟨rest,Returns.now rfl⟩
  | append_singleton w c ih =>
    have space : spaceBehind (w ++ [c] ++ behind) (w ++ [c]).length = some (decide (c = 32)) := by
      rw [spaceBehind_spec]
      simp
    by_cases isSpace : c = 32
    · obtain ⟨more,returns⟩ := ih (c :: behind) (List.cons_ne_nil _ _)
      have kept : (w ++ [c]).rdropWhile (· = 32) = w.rdropWhile (· = 32) := List.rdropWhile_concat_pos _ _ _ (decide_eq_true isSpace)
      rw [kept]
      refine ⟨more,Returns.after ?_ returns⟩
      simp only [step,trimming,space,Option.bind_eq_bind,Option.bind_some]
      rw [if_pos (decide_eq_true isSpace),List.length_append,List.length_singleton,Nat.add_sub_cancel,List.append_assoc]
      rfl
    · have kept : (w ++ [c]).rdropWhile (· = 32) = w ++ [c] := List.rdropWhile_concat_neg _ _ _ (by simpa using isSpace)
      obtain ⟨d,rest,rfl⟩ := List.exists_cons_of_ne_nil room
      have written := write_word (w ++ [c]) [] d 0 rest
      rw [List.append_nil,List.length_nil,Nat.add_zero] at written
      rw [kept]
      refine ⟨rest,Returns.now ?_⟩
      simp only [step,trimming,space,Option.bind_eq_bind,Option.bind_some,written]
      rw [if_neg (by simpa using isSpace)]

/-- The spaces in front are passed. -/
theorem skip_run (front rest : Text) (free : 0 ∉ rest) :
    Reaches step ⟨.skip,front ++ rest ++ [0],front.length,0⟩
      (walking .text [] (front ++ rest.takeWhile (· = 32)) (rest.dropWhile (· = 32) ++ [0])) := by
  induction rest generalizing front with
  | nil =>
    refine Reaches.after ?_ (Reaches.refl ..)
    have read : (front ++ [] ++ [0])[front.length]? = some 0 := by simp
    simp only [step,read,Option.bind_eq_bind,Option.bind_some]
    simp [walking,Mode.label,Mode.ahead]
  | cons c rest ih =>
    have later := ih (front ++ [c]) fun inside => free (List.mem_cons_of_mem _ inside)
    have read : (front ++ c :: rest ++ [0])[front.length]? = some c := by simp
    by_cases space : c = 32
    · rw [List.takeWhile_cons,List.dropWhile_cons,if_pos (decide_eq_true space),if_pos (decide_eq_true space)]
      have bytes : front ++ [c] ++ rest ++ [0] = front ++ c :: rest ++ [0] := by simp
      have gap : front ++ [c] ++ rest.takeWhile (· = 32) = front ++ c :: rest.takeWhile (· = 32) := by simp
      rw [bytes,gap,List.length_append,List.length_singleton] at later
      refine Reaches.after ?_ later
      simp only [step,read,Option.bind_eq_bind,Option.bind_some]
      exact if_pos space
    · have plain : ¬ decide (c = 32) = true := by simpa using space
      rw [List.takeWhile_cons,List.dropWhile_cons,if_neg plain,if_neg plain]
      refine Reaches.after ?_ (Reaches.refl ..)
      simp only [step,read,Option.bind_eq_bind,Option.bind_some,space,if_false]
      simp [walking,Mode.label,Mode.ahead]

theorem endsIn_skip (s : Text) : endsIn .text (s.dropWhile (· = 32)) = endsIn .text s := by
  induction s with
  | nil => rfl
  | cons c s ih =>
    by_cases space : c = 32
    · have stays : next .text c s = .text := by simp [next,space]
      rw [List.dropWhile_cons,if_pos (decide_eq_true space),ih,endsIn,stays]
    · rw [List.dropWhile_cons,if_neg (by simpa using space)]

variable (s) in
theorem strips (free : 0 ∉ s) : Strips (endsIn .text s) (squeezed [] (visible .text (s.dropWhile (· = 32)))) (begin s) := by
  have reaches := skip_run [] s free
  have later : 0 ∉ s.dropWhile (· = 32) := fun inside => free ((List.dropWhile_suffix _).subset inside)
  have run := strips_run .text _ later [] ([] ++ s.takeWhile (· = 32))
  rw [endsIn_skip] at run
  unfold Strips at run ⊢
  split
  case isTrue escapes =>
    rw [if_pos escapes] at run
    exact reaches.fails run
  case isFalse inside =>
    rw [if_neg inside] at run
    obtain ⟨gap,sp,further⟩ := run
    exact ⟨gap,sp,reaches.trans further⟩

/-- What is written never overtakes what is read. -/
theorem step_behind {state state' : State} (stepped : step state = some (.goto state')) (behind : state.wp ≤ state.sp) :
    state'.wp ≤ state'.sp := by
  obtain ⟨label,bytes,sp,wp⟩ := state
  change wp ≤ sp at behind
  cases label with
  | skip =>
    obtain ⟨c,-,stepped⟩ := Option.bind_eq_some_iff.mp stepped
    split at stepped <;> cases stepped
    · exact behind.trans (Nat.le_succ sp)
    · exact behind
  | text =>
    obtain ⟨c,-,stepped⟩ := Option.bind_eq_some_iff.mp stepped
    split at stepped
    · cases stepped
      exact behind
    · obtain ⟨tag,-,stepped⟩ := Option.bind_eq_some_iff.mp stepped
      split at stepped
      · cases stepped
        exact behind.trans (Nat.le_succ sp)
      · obtain ⟨double,-,stepped⟩ := Option.bind_eq_some_iff.mp stepped
        split at stepped
        · cases stepped
          exact behind.trans (Nat.le_succ sp)
        · obtain ⟨bytes',-,stepped⟩ := Option.bind_eq_some_iff.mp stepped
          cases stepped
          exact Nat.succ_le_succ behind
  | tag =>
    obtain ⟨c,-,stepped⟩ := Option.bind_eq_some_iff.mp stepped
    split_ifs at stepped <;> cases stepped
    · exact behind
    · exact behind.trans (Nat.le_succ sp)
    · exact behind.trans (Nat.le_succ sp)
    · exact behind.trans (Nat.le_succ sp)
  | value quote =>
    obtain ⟨c,-,stepped⟩ := Option.bind_eq_some_iff.mp stepped
    split_ifs at stepped <;> cases stepped
    · exact behind
    · exact behind.trans (Nat.le_succ sp)
    · exact behind.trans (Nat.le_add_right sp 2)
    · exact behind.trans (Nat.le_succ sp)
  | trim =>
    obtain ⟨space,-,stepped⟩ := Option.bind_eq_some_iff.mp stepped
    split at stepped
    · cases stepped
      exact (Nat.sub_le wp 1).trans behind
    · obtain ⟨bytes',-,stepped⟩ := Option.bind_eq_some_iff.mp stepped
      cases stepped

end

/-- The string is stripped within its copy, and what is written stays behind what is read, where
    the string does not end with a backslash in a quoted value of a tag. -/
theorem strip_html_safe_iff (s : Text) (free : 0 ∉ s) :
    ((∃ fuel bytes result, acPoolStripHtml fuel s = some (.returned bytes) ∧ Cut bytes 0 result ∧ Stripped s result) ∧
      ∀ state, Reaches step (begin s) state → state.wp ≤ state.sp) ↔ (endsIn .text s).escapes = false := by
  have run := strips s free
  constructor
  · rintro ⟨⟨fuel,bytes,result,returned,-⟩,-⟩
    by_contra escapes
    rw [Strips,if_pos (by simpa using escapes)] at run
    exact run.not_returns ⟨fuel,returned⟩
  · intro inside
    rw [Strips,inside] at run
    obtain ⟨gap,sp,reaches⟩ := run
    obtain ⟨more,returns⟩ := trim_run _ _ (List.append_ne_nil_of_right_ne_nil gap (List.cons_ne_nil 0 [])) sp
    obtain ⟨fuel,returned⟩ := reaches.returns returns
    have spec := stripped_spec s
    have clean : 0 ∉ stripped s := fun zero => free (spec.subsequence.subset zero)
    refine ⟨⟨fuel,_,stripped s,returned,Cut.here [] clean more,spec⟩,?_⟩
    intro state reached
    exact Reaches.keeps (fun state => state.wp ≤ state.sp) (fun _ _ => step_behind) reached (Nat.le_refl 0)

/-- `a <b t='x\'y'> c`. -/
theorem strip_html_safe_one :
    ((∃ fuel bytes result, acPoolStripHtml fuel [97,32,60,98,32,39,120,92,39,121,39,62,32,99] = some (.returned bytes) ∧ Cut bytes 0 result ∧
        Stripped [97,32,60,98,32,39,120,92,39,121,39,62,32,99] result) ∧
      ∀ state, Reaches step (begin [97,32,60,98,32,39,120,92,39,121,39,62,32,99]) state → state.wp ≤ state.sp) :=
  (strip_html_safe_iff [97,32,60,98,32,39,120,92,39,121,39,62,32,99] (by decide)).mpr (by decide)

/-- `<">\`: the NUL is stepped over. -/
theorem backslash_over_nul : Fails step (begin [60,34,62,92]) ∧
    ¬ ((∃ fuel bytes result, acPoolStripHtml fuel [60,34,62,92] = some (.returned bytes) ∧ Cut bytes 0 result ∧
        Stripped [60,34,62,92] result) ∧ ∀ state, Reaches step (begin [60,34,62,92]) state → state.wp ≤ state.sp) := by
  have run : Fails step (begin [60,34,62,92]) := strips [60,34,62,92] (by decide)
  refine ⟨run,?_⟩
  rintro ⟨⟨fuel,bytes,result,returned,-⟩,-⟩
  exact run.not_returns ⟨fuel,returned⟩

end AnotherC.PoolStripHtml
