import AnotherC.Json.Containers
import AnotherC.Json.Dump
import Mathlib.Data.List.Induction
import Mathlib.Tactic.Common

/-!
# Scanning tokens

What the labels of the parser do with the tokens of a text: whitespace, keys,
strings, numbers, words and binary values. The buffer is split at `p`; what was
scanned may have changed, the rest has not.
-/
namespace AnotherC.AcJson
open AnotherC.Lib
set_option linter.unusedVariables false

/-! ### Runs -/

/-- The run gets from one result to another. -/
def Reaches (ep : Nat) (r r' : Result) : Prop := ∃ fuel, run ep fuel r = some r'

def Result.final : Result → Prop
  | .goto _ _ => False
  | _ => True

variable {ep : Nat} {s : State} {label : Label} {r r' : Result}

theorem Reaches.refl (ep : Nat) (r : Result) : Reaches ep r r := ⟨0,rfl⟩

theorem run_final (final : r.final) (fuel : Nat) : run ep fuel r = some r := by
  cases fuel with
  | zero => rfl
  | succ fuel =>
    cases r with
    | goto _ _ => exact final.elim
    | returned _ _ => rfl
    | badCharacter _ => rfl

theorem Reaches.step (stepped : step ep s label = some r) (rest : Reaches ep r r') : Reaches ep (.goto label s) r' := by
  obtain ⟨fuel,ran⟩ := rest
  exact ⟨fuel + 1,by simpa [run,stepped] using ran⟩

theorem Reaches.trans {r'' : Result} (first : Reaches ep r r') (second : Reaches ep r' r'') : Reaches ep r r'' := by
  obtain ⟨fuel,ran⟩ := first
  induction fuel generalizing r with
  | zero =>
    cases ran
    exact second
  | succ fuel ih =>
    cases r with
    | goto label s =>
      simp only [run,Option.bind_eq_bind] at ran
      obtain ⟨next,stepped,goes⟩ := Option.bind_eq_some_iff.mp ran
      exact Reaches.step stepped (ih goes)
    | returned _ _ =>
      cases ran
      exact second
    | badCharacter _ =>
      cases ran
      exact second

/-- A run has one end only. -/
theorem run_unique {n m : Nat} {x y : Result} (left : run ep n r = some x) (right : run ep m r = some y) (isX : x.final)
    (isY : y.final) : x = y := by
  induction n generalizing r m with
  | zero =>
    cases left
    rw [run_final isX] at right
    exact Option.some.inj right
  | succ n ih =>
    cases r with
    | returned _ _ =>
      cases left
      rw [run_final isX] at right
      exact Option.some.inj right
    | badCharacter _ =>
      cases left
      rw [run_final isX] at right
      exact Option.some.inj right
    | goto label s =>
      cases m with
      | zero =>
        cases right
        exact isY.elim
      | succ m =>
        simp only [run,Option.bind_eq_bind] at left right
        obtain ⟨next,stepped,goes⟩ := Option.bind_eq_some_iff.mp left
        rw [stepped,Option.bind_some] at right
        exact ih goes right

/-! ### Places in the buffer -/

/-- `p` is where `done` ends and `rest` begins. -/
structure Start (s : State) (done rest : List UInt8) : Prop where
  bytes : s.bytes = done ++ rest
  p : s.p = done.length

/-- The same where the byte at `p` is in `ch`, and may have been overwritten. -/
def Facing (s : State) (done tail : List UInt8) : Prop :=
  ∃ c x rest, tail = c :: rest ∧ s.ch = c ∧ s.bytes = done ++ x :: rest ∧ s.p = done.length

variable {done rest tail : List UInt8} {b : UInt8}

theorem Start.here (start : Start s done (b :: rest)) : s.bytes[s.p]? = some b := by
  rw [start.bytes,start.p]
  simp

theorem Start.take (start : Start s done (b :: rest)) : take s = some { s with ch := b, p := s.p + 1 } := by
  simp [AcJson.take,start.here]

theorem Start.next (start : Start s done (b :: rest)) {t : State} (bytes : t.bytes = s.bytes) (p : t.p = s.p + 1) :
    Start t (done ++ [b]) rest := ⟨by simp [bytes,start.bytes],by simp [p,start.p]⟩

/-- There is room at `p` as long as more than the NUL is left. -/
theorem Start.inside (start : Start s done (b :: rest)) (some_left : rest ≠ []) (size : ep + 1 = s.bytes.length) : s.p < ep := by
  have := List.length_pos_iff.mpr some_left
  have bytes := congrArg List.length start.bytes
  simp only [List.length_append,List.length_cons] at bytes
  have := start.p
  omega

theorem Facing.look (start : Start s done (b :: rest)) :
    look s = some { s with ch := b } ∧ Facing { s with ch := b } done (b :: rest) := by
  refine ⟨by simp [AcJson.look,start.here],b,b,rest,rfl,rfl,start.bytes,start.p⟩

/-- A write over the byte at `p`. -/
theorem Start.set (start : Start s done (b :: rest)) : s.bytes.set s.p 0 = done ++ 0 :: rest := by
  rw [start.bytes,start.p,List.set_append_right _ _ (Nat.le_refl _)]
  simp

/-! ### Backslashes -/

theorem slashes_snoc (text : List UInt8) (b : UInt8) :
    slashes (text ++ [b]) = if b = backslash then slashes text + 1 else 0 := by
  by_cases slash : b = backslash <;> simp [slashes,slash]

theorem backtrack_eq {bytes : List UInt8} {i : Nat} (here : bytes[i]? = some b) :
    backtrack bytes i = if b = backslash then (if i = 0 then none else backtrack bytes (i - 1)) else some i := by
  cases i <;> simp [backtrack,here]

/-- The loop over backslashes ends in front of the run, at the quote if need be. -/
theorem backtrack_runs (before : List UInt8) (text : List UInt8) (more : List UInt8) :
    backtrack (before ++ quote :: (text ++ more)) (before.length + text.length) =
      some (before.length + text.length - slashes text) := by
  induction text using List.reverseRecOn generalizing more with
  | nil =>
    rw [backtrack_eq (b := quote) (by simp),if_neg (by decide)]
    simp [slashes]
  | append_singleton text b ih =>
    have here : (before ++ quote :: (text ++ [b] ++ more))[before.length + (text ++ [b]).length]? = some b := by
      rw [List.getElem?_append_right (by omega)]
      simp
    rw [backtrack_eq here,slashes_snoc]
    by_cases slash : b = backslash
    · rw [if_pos slash,if_pos slash,if_neg (by simp)]
      have := ih ([b] ++ more)
      rw [← List.append_assoc] at this
      rw [List.length_append,List.length_singleton,← Nat.add_assoc,Nat.add_sub_cancel,this]
      congr 1
      omega
    · rw [if_neg slash,if_neg slash,Nat.sub_zero]

/-- Whether the quote behind a text is escaped by it. -/
theorem escaped_eq (before : List UInt8) (text : List UInt8) (more : List UInt8) (bytes : s.bytes = before ++ quote :: (text ++ more))
    (p : s.p = before.length + 1 + text.length) : escaped s = some (slashes text % 2 == 1) := by
  have isP : s.p = (before.length + text.length) + 1 := by omega
  have runs := backtrack_runs before text more
  have below : slashes text ≤ text.length := by
    have := (List.takeWhile_prefix (l := text.reverse) (· == backslash)).length_le
    simpa [slashes] using this
  have here : ∃ b, s.bytes[before.length + text.length]? = some b := by
    rw [bytes]
    exact ⟨_,List.getElem?_eq_getElem (by simp only [List.length_append,List.length_cons]; omega)⟩
  obtain ⟨b,here⟩ := here
  simp only [escaped,isP,here,Option.bind_eq_bind,Option.bind_some]
  rw [← bytes] at runs
  by_cases slash : b = backslash
  · rw [if_pos slash,runs,Option.bind_some]
    congr 1
    have : before.length + text.length + 1 - (before.length + text.length - slashes text) = slashes text + 1 := by omega
    rw [this]
    rcases Nat.mod_two_eq_zero_or_one (slashes text) with even | odd
    · simp [even,show (slashes text + 1) % 2 = 1 from by omega]
    · simp [odd,show (slashes text + 1) % 2 = 0 from by omega]
  · rw [if_neg slash]
    rw [backtrack_eq here,if_neg slash,Option.some.injEq] at runs
    have none : slashes text = 0 := by omega
    simp [none]

/-- The label goes on behind every byte that is not the closing quote. -/
def Skips (ep : Nat) (label : Label) : Prop :=
  ∀ (t : State) b, t.p < ep → t.bytes[t.p]? = some b → (b ≠ quote ∨ escaped t = some true) →
    step ep t label = some (.goto label { t with p := t.p + 1 })

theorem skips_key (ep : Nat) : Skips ep .getEndOfKey := by
  intro t b inside here other
  simp only [step,getEndOfKey,if_pos inside,here,Option.bind_eq_bind,Option.bind_some]
  by_cases isQuote : b = quote
  · rw [if_neg (not_not.mpr isQuote),other.resolve_left (not_not.mpr isQuote)]
    rfl
  · rw [if_pos isQuote]

theorem skips_string (ep : Nat) (keyed : Bool) : Skips ep (.startString keyed) := by
  intro t b inside here other
  simp only [step,startString,if_pos inside,here,Option.bind_eq_bind,Option.bind_some]
  by_cases isQuote : b = quote
  · rw [if_neg (not_not.mpr isQuote),other.resolve_left (not_not.mpr isQuote)]
    rfl
  · rw [if_pos isQuote]

/-- A scan over the rest of an encoded text, up to its closing quote. -/
theorem text_scan (text : List UInt8) {before more after : List UInt8} (skips : Skips ep label) (encoded : EncodedText (text ++ more))
    (bytes : s.bytes = before ++ quote :: (text ++ more ++ quote :: after)) (p : s.p = before.length + 1 + text.length)
    (size : before.length + 1 + (text ++ more).length ≤ ep) :
    Reaches ep (.goto label s) (.goto label { s with p := before.length + 1 + (text ++ more).length }) := by
  induction more generalizing s text with
  | nil =>
    rw [List.append_nil,← p]
    exact Reaches.refl ..
  | cons b more ih =>
    have here : s.bytes[s.p]? = some b := by
      rw [bytes,p,List.getElem?_append_right (by omega)]
      simp [show before.length + 1 + text.length - before.length = text.length + 1 from by omega]
    have other : b ≠ quote ∨ escaped s = some true := by
      by_cases isQuote : b = quote
      · right
        subst isQuote
        rw [escaped_eq before text (quote :: more ++ quote :: after) (by simp [bytes]) p,
          encoded.2.1 text more rfl]
        rfl
      · exact .inl isQuote
    refine Reaches.step (skips s b (by simp at size; omega) here other) ?_
    have shift : text ++ b :: more = text ++ [b] ++ more := by simp
    rw [shift] at encoded bytes size ⊢
    exact ih (text ++ [b]) (s := { s with p := s.p + 1 }) encoded bytes (by simp [p]; omega) size

/-! ### What a scan leaves -/

/-- Where the value of a leaf can be read once this much is scanned. -/
def Shows (done : List UInt8) : Option Text → List UInt8 → Prop
  | some (.at q), value => value <+: done.drop q
  | some (.constant text), value => text = value
  | none, _ => False

/-- A NUL-terminated text. -/
def ShowsKey (done : List UInt8) (q : Nat) (key : List UInt8) : Prop := key ++ [0] <+: done.drop q

theorem drop_prefix {done more text : List UInt8} {q : Nat} (shows : text <+: done.drop q) : text <+: (done ++ more).drop q := by
  rw [List.drop_append]
  exact shows.trans (List.prefix_append ..)

theorem ShowsKey.more {key : List UInt8} {q : Nat} (shows : ShowsKey done q key) (more : List UInt8) :
    ShowsKey (done ++ more) q key := drop_prefix shows

/-- A text behind one byte. -/
theorem text_at (done : List UInt8) (b : UInt8) (text more : List UInt8) :
    text <+: (done ++ b :: text ++ more).drop (done.length + 1) := by
  have split : done ++ b :: text ++ more = (done ++ [b]) ++ (text ++ more) := by simp
  rw [split,List.drop_left' (by simp)]
  exact List.prefix_append ..

theorem Shows.more {value : List UInt8} {text : Option Text} (shows : Shows done text value) (more : List UInt8) :
    Shows (done ++ more) text value := by
  match text with
  | some (.at _) => exact drop_prefix shows
  | some (.constant _) => exact shows

/-- A value is a constant or ends with a NUL, unless it is binary. -/
def Ended (done : List UInt8) (type : JsonType) (text : Option Text) (value : List UInt8) : Prop :=
  type ≠ .binary → text = some (.constant value) ∨ Shows done text (value ++ [0])

theorem Ended.more {type : JsonType} {text : Option Text} {value : List UInt8} (ended : Ended done type text value)
    (more : List UInt8) : Ended (done ++ more) type text value := by
  intro other
  rcases ended other with constant | shows
  · exact .inl constant
  · exact .inr (shows.more more)

/-- The variables that a scan does not touch. -/
structure Kept (s t : State) : Prop where
  pool : t.pool = s.pool
  key : t.key = s.key
  arr : t.arr = s.arr
  res : t.res = s.res
  root : t.root = s.root

theorem Kept.trans {t u : State} (first : Kept s t) (second : Kept t u) : Kept s u :=
  ⟨second.pool.trans first.pool,second.key.trans first.key,second.arr.trans first.arr,second.res.trans first.res,
    second.root.trans first.root⟩

theorem Kept.after {t : State} {p : Nat} (kept : Kept { s with ch := b, p := p } t) : Kept s t :=
  ⟨kept.pool,kept.key,kept.arr,kept.res,kept.root⟩

/-- A value is ready to be added, with the byte behind it in `ch`. -/
structure Scans (s t : State) (done tail : List UInt8) (type : JsonType) (value : List UInt8) : Prop where
  kept : Kept s t
  facing : Facing t done tail
  type : t.dataType = type
  length : t.stringLength = value.length
  shows : Shows done t.stringp value
  ended : ∀ x rest, t.bytes = done ++ x :: rest → Ended (done ++ [x]) t.dataType t.stringp value

/-- The end of a text, where its quote becomes a NUL. -/
theorem quote_step {before value after : List UInt8} (encoded : EncodedText value)
    (bytes : s.bytes = before ++ quote :: (value ++ quote :: after)) (p : s.p = before.length + 1 + value.length) :
    Start s (before ++ quote :: value) (quote :: after) ∧ escaped s = some false := by
  refine ⟨⟨by simp [bytes],by simp [p]; omega⟩,?_⟩
  rw [escaped_eq before value (quote :: after) (by simp [bytes]) p,encoded.2.2]
  rfl

variable (ep) in
/-- A string up to its closing quote, of any length. -/
theorem string_scan (keyed : Bool) {value : List UInt8} (encoded : EncodedText value)
    (start : Start s (done ++ [quote]) (value ++ quote :: b :: rest)) (size : ep + 1 = s.bytes.length)
    (stringp : s.stringp = some (.at (done.length + 1))) :
    ∃ t, Reaches ep (.goto (.startString keyed) s) (.goto (.addString keyed) t) ∧ Kept s t ∧
      Facing t (done ++ quote :: value ++ [0]) (b :: rest) ∧ t.dataType = s.dataType ∧ t.stringp = s.stringp ∧
      t.stringLength = value.length % 2 ^ 32 := by
  have bytes : s.bytes = done ++ quote :: ([] ++ value ++ quote :: b :: rest) := by simp [start.bytes]
  have length : ep + 1 = done.length + 1 + value.length + 2 + rest.length := by
    rw [size,bytes]
    simp
    omega
  have scan := text_scan [] (skips_string ep keyed) encoded bytes (by simp [start.p]) (by simp; omega)
  simp only [List.nil_append] at bytes scan
  obtain ⟨atEnd,escapes⟩ := quote_step (s := { s with p := done.length + 1 + value.length }) encoded bytes rfl
  have inside : done.length + 1 + value.length < s.bytes.length := by omega
  have next : (s.bytes.set (done.length + 1 + value.length) 0)[done.length + 1 + value.length + 1]? = some b := by
    have := atEnd.set
    dsimp only at this
    rw [this,List.getElem?_append_right (by simp; omega)]
    simp [show done.length + 1 + value.length + 1 - (done.length + (value.length + 1)) = 1 from by omega]
  refine ⟨{ s with
      bytes := s.bytes.set (done.length + 1 + value.length) 0, ch := b, stringLength := value.length % 2 ^ 32,
      p := done.length + 1 + value.length + 1 },scan.trans (Reaches.step ?_ (Reaches.refl ..)),
    ⟨rfl,rfl,rfl,rfl,rfl⟩,⟨b,b,rest,rfl,rfl,?_,?_⟩,rfl,rfl,rfl⟩
  · have here := atEnd.here
    dsimp only at here
    simp only [step,startString,if_pos (show done.length + 1 + value.length < ep from by omega),here,escapes,cut,
      if_pos inside,AcJson.look,next,Option.bind_eq_bind,Option.bind_some]
    simp [stringp]
  · have := atEnd.set
    dsimp only at this
    simp [this]
  · simp
    omega

variable (ep) in
theorem string_scans (keyed : Bool) {value : List UInt8} (encoded : EncodedText value) (short : value.length < 2 ^ 32)
    (start : Start s (done ++ [quote]) (value ++ quote :: b :: rest)) (size : ep + 1 = s.bytes.length)
    (stringp : s.stringp = some (.at (done.length + 1))) (type : s.dataType = .string) :
    ∃ t, Reaches ep (.goto (.startString keyed) s) (.goto (.addString keyed) t) ∧
      Scans s t (done ++ quote :: value ++ [0]) (b :: rest) .string value := by
  obtain ⟨t,reaches,kept,facing,sameType,same,length⟩ := string_scan ep keyed encoded start size stringp
  refine ⟨t,reaches,kept,facing,sameType.trans type,length.trans (Nat.mod_eq_of_lt short),?_,fun x _ _ _ => .inr (Shows.more ?_ [x])⟩
  · simp only [same,Shows,stringp]
    exact text_at done quote value [0]
  · simp only [same,Shows,stringp]
    have split : done ++ quote :: value ++ [0] = done ++ quote :: (value ++ [0]) ++ [] := by simp
    rw [split]
    exact text_at done quote (value ++ [0]) []

/-! ### Keys -/

variable (ep) in
theorem colon_scan {space : List UInt8} (spaces : Spaces space) (start : Start s done (space ++ colon :: rest)) (size : ep + 1 = s.bytes.length)
    (more : rest ≠ []) : Reaches ep (.goto .findColon s) (.goto .startKeyObject { s with p := (done ++ space).length + 1 }) := by
  induction space generalizing s done with
  | nil =>
    have inside := start.inside more size
    have here := Start.here (b := colon) start
    rw [List.append_nil,← start.p]
    refine Reaches.step ?_ (Reaches.refl ..)
    simp only [step,findColon,if_pos inside,here,Option.bind_eq_bind,Option.bind_some]
    rfl
  | cons c space ih =>
    have start : Start s done (c :: (space ++ colon :: rest)) := start
    have inside := start.inside (by simp) size
    have other : c ≠ colon := by
      rintro rfl
      exact absurd (spaces _ List.mem_cons_self) (by decide)
    have here := start.here
    refine Reaches.step (r := .goto .findColon { s with p := s.p + 1 }) ?_ ?_
    · simp only [step,findColon,if_pos inside,here,Option.bind_eq_bind,Option.bind_some,if_pos other]
    · have next := start.next (t := { s with p := s.p + 1 }) rfl rfl
      have := ih (s := { s with p := s.p + 1 }) (fun d inside => spaces d (List.mem_cons_of_mem _ inside)) next size
      simpa using this

variable (ep) in
/-- A key with its colon, from the quote on. -/
theorem key_scans {key space : List UInt8} (encoded : EncodedText key) (spaces : Spaces space)
    (start : Start s (done ++ [quote]) (key ++ quote :: space ++ colon :: rest)) (size : ep + 1 = s.bytes.length)
    (isKey : s.key = some (done.length + 1)) (more : rest ≠ []) :
    ∃ t, Reaches ep (.goto .getEndOfKey s) (.goto .startKeyObject t) ∧ Kept s t ∧
      Start t (done ++ quote :: key ++ 0 :: space ++ [colon]) rest ∧
      ShowsKey (done ++ quote :: key ++ 0 :: space ++ [colon]) (done.length + 1) key := by
  have bytes : s.bytes = done ++ quote :: ([] ++ key ++ quote :: (space ++ colon :: rest)) := by simp [start.bytes]
  have := List.length_pos_iff.mpr more
  have length : ep + 1 = done.length + 1 + key.length + 1 + space.length + 1 + rest.length := by
    rw [size,bytes]
    simp
    omega
  have scan := text_scan [] (skips_key ep) encoded bytes (by simp [start.p]) (by simp; omega)
  simp only [List.nil_append] at bytes scan
  obtain ⟨atEnd,escapes⟩ := quote_step (s := { s with p := done.length + 1 + key.length }) encoded bytes rfl
  have inside : done.length + 1 + key.length < s.bytes.length := by omega
  have set := atEnd.set
  dsimp only at set
  have next : Start { s with bytes := s.bytes.set (done.length + 1 + key.length) 0, p := done.length + 1 + key.length + 1 }
      (done ++ quote :: key ++ [0]) (space ++ colon :: rest) := ⟨by simp [set],by simp; omega⟩
  have finds := colon_scan ep spaces next (by simp [size]) more
  refine ⟨_,scan.trans (Reaches.step (r := .goto .findColon _) ?_ finds),⟨rfl,rfl,rfl,rfl,rfl⟩,⟨by simp [set],by simp; omega⟩,?_⟩
  · have here := atEnd.here
    dsimp only at here
    simp only [step,getEndOfKey,if_pos (show done.length + 1 + key.length < ep from by omega),here,escapes,cut,if_pos inside,
      Option.bind_eq_bind,Option.bind_some]
    simp
  · have shows := text_at done quote (key ++ [0]) (space ++ [colon])
    simpa [ShowsKey] using shows

/-! ### Numbers -/

variable (ep) in
theorem digits_scan (keyed : Bool) {ds : List UInt8} (which : label = .nextDigit keyed ∨ label = .decimalDigits keyed)
    (digits : ∀ c ∈ ds, isDigit c = true) (start : Start s done (ds ++ rest)) :
    ∃ t, Reaches ep (.goto label s) (.goto label t) ∧ Kept s t ∧ t.stringp = s.stringp ∧ Start t (done ++ ds) rest := by
  induction ds generalizing s done with
  | nil => exact ⟨s,Reaches.refl ..,⟨rfl,rfl,rfl,rfl,rfl⟩,rfl,by simpa using start⟩
  | cons d ds ih =>
    have digit := digits d List.mem_cons_self
    have stepped : step ep s label = some (.goto label { s with ch := d, p := s.p + 1 }) := by
      obtain rfl | rfl := which
      · simp [step,nextDigit,Start.take (b := d) start,digit]
      · simp [step,decimalDigits,Start.take (b := d) start,digit]
    have start : Start s done (d :: (ds ++ rest)) := start
    obtain ⟨t,reaches,kept,same,atEnd⟩ := ih (s := { s with ch := d, p := s.p + 1 })
      (fun c inside => digits c (List.mem_cons_of_mem _ inside)) (start.next rfl rfl)
    exact ⟨t,Reaches.step stepped reaches,kept.after,same,by simpa using atEnd⟩

/-- The byte behind a number ends it. -/
theorem endNumber_scans (keyed : Bool) (type : JsonType) {value : List UInt8}
    (start : Start s (done ++ value) (b :: rest)) (stringp : s.stringp = some (.at done.length)) (short : value.length < 2 ^ 32) :
    ∃ t, endNumber keyed type { s with ch := b, p := s.p + 1 } = some (.goto (.addString keyed) t) ∧
      Scans s t (done ++ value) (b :: rest) type value := by
  have below : s.p < s.bytes.length := (List.getElem?_eq_some_iff.mp start.here).1
  have count : (s.p - done.length) % 2 ^ 32 = value.length := by
    rw [start.p,List.length_append,Nat.add_sub_cancel_left,Nat.mod_eq_of_lt short]
  refine ⟨{ s with bytes := s.bytes.set s.p 0, ch := b, dataType := type, stringLength := value.length },?_,?_⟩
  · simp only [endNumber,cut,Nat.add_sub_cancel,if_pos below,stringp,Option.bind_eq_bind,Option.bind_some,count]
  · refine ⟨⟨rfl,rfl,rfl,rfl,rfl⟩,⟨b,0,rest,rfl,rfl,start.set,start.p⟩,rfl,rfl,?_,fun x more bytes _ => .inr ?_⟩
    · simp [Shows,stringp]
    · have isNul : x = 0 := (List.cons.inj (List.append_cancel_left (bytes.symm.trans start.set))).1
      simp [Shows,stringp,isNul]

variable (ep) in
theorem number_scans (keyed : Bool) {front ds : List UInt8} (digits : ∀ c ∈ ds, isDigit c = true)
    (start : Start s (done ++ front) (ds ++ b :: rest)) (stringp : s.stringp = some (.at done.length))
    (short : (front ++ ds).length < 2 ^ 32) (other : isDigit b = false) (notPoint : b ≠ point) :
    ∃ t, Reaches ep (.goto (.nextDigit keyed) s) (.goto (.addString keyed) t) ∧
      Scans s t (done ++ (front ++ ds)) (b :: rest) .number (front ++ ds) := by
  obtain ⟨t,reaches,kept,same,atEnd⟩ := digits_scan ep keyed (.inl rfl) digits start
  rw [List.append_assoc] at atEnd
  obtain ⟨u,ended,scans⟩ := endNumber_scans keyed .number atEnd (same.trans stringp) short
  refine ⟨u,reaches.trans (Reaches.step ?_ (Reaches.refl ..)),kept.trans scans.kept,scans.facing,scans.type,scans.length,scans.shows,scans.ended⟩
  simp [step,nextDigit,atEnd.take,other,notPoint,ended]

variable (ep) in
theorem decimal_scans (keyed : Bool) {front ds : List UInt8} {d : UInt8} (first : isDigit d = true)
    (digits : ∀ c ∈ ds, isDigit c = true) (start : Start s (done ++ front) (d :: ds ++ b :: rest))
    (stringp : s.stringp = some (.at done.length)) (short : (front ++ d :: ds).length < 2 ^ 32) (other : isDigit b = false) :
    ∃ t, Reaches ep (.goto (.decimalNumber keyed) s) (.goto (.addString keyed) t) ∧
      Scans s t (done ++ (front ++ d :: ds)) (b :: rest) .decimal (front ++ d :: ds) := by
  have start : Start s (done ++ front) (d :: (ds ++ b :: rest)) := start
  have next := start.next (t := { s with ch := d, p := s.p + 1 }) rfl rfl
  obtain ⟨t,reaches,kept,same,atEnd⟩ := digits_scan ep keyed (.inr rfl) digits next
  have shift : done ++ front ++ [d] ++ ds = done ++ (front ++ d :: ds) := by simp
  rw [shift] at atEnd
  obtain ⟨u,ended,scans⟩ := endNumber_scans keyed .decimal atEnd (same.trans stringp) short
  refine ⟨u,Reaches.step (r := .goto (.decimalDigits keyed) { s with ch := d, p := s.p + 1 }) ?_
    (reaches.trans (Reaches.step ?_ (Reaches.refl ..))),?_⟩
  · simp [step,decimalNumber,start.take,first]
  · simp [step,decimalDigits,atEnd.take,other,ended]
  · exact ⟨(kept.trans scans.kept).after,scans.facing,scans.type,scans.length,scans.shows,scans.ended⟩

/-! ### Words and binary values -/

theorem word_eq (finish : State → Option Result) {text : List UInt8} (start : Start s done (text ++ b :: rest)) :
    ∃ t, word finish text s = finish t ∧ Kept s t ∧ Facing t (done ++ text) (b :: rest) := by
  induction text generalizing s done with
  | nil =>
    obtain ⟨looked,facing⟩ := Facing.look (b := b) start
    exact ⟨{ s with ch := b },by simp [word,looked],⟨rfl,rfl,rfl,rfl,rfl⟩,by simpa using facing⟩
  | cons c text ih =>
    obtain ⟨t,same,kept,facing⟩ := ih (Start.next (b := c) (t := { s with ch := c, p := s.p + 1 }) start rfl rfl)
    exact ⟨t,by simp [word,Start.take (b := c) start,same],kept.after,by simpa using facing⟩

theorem constant_scans (keyed : Bool) (value : List UInt8) (type : JsonType) {t : State} (kept : Kept s t)
    (facing : Facing t done tail) : ∃ u, constant keyed value type t = some (.goto (.addString keyed) u) ∧
      Scans s u done tail type value := ⟨_,rfl,⟨kept.pool,kept.key,kept.arr,kept.res,kept.root⟩,facing,rfl,rfl,rfl,
        fun _ _ _ _ => .inl rfl⟩

variable (ep) in
theorem zero_scans (keyed : Bool) (start : Start s done (b :: rest)) (other : b ≠ point) :
    ∃ t, zero keyed ep s = some (.goto (.addString keyed) t) ∧ Scans s t done (b :: rest) .zero [48] := by
  obtain ⟨looked,facing⟩ := Facing.look start
  have kept : Kept s { s with ch := b } := ⟨rfl,rfl,rfl,rfl,rfl⟩
  have scans := constant_scans keyed [48] .zero kept facing
  simp only [zero,looked,Option.bind_eq_bind,Option.bind_some]
  rw [if_pos other,ite_self]
  exact scans

theorem zero_point {keyed : Bool} (start : Start s done (point :: rest)) (inside : s.p + 1 < ep) :
    zero keyed ep s = some (.goto (.decimalNumber keyed) { s with ch := point, p := s.p + 1 }) := by
  obtain ⟨looked,-⟩ := Facing.look start
  simp [zero,looked,inside]

variable (ep) in
theorem binary_scans (keyed : Bool) {value : List UInt8} (short : value.length < 2 ^ 32)
    (start : Start s done (Bytes.bytes 4 value.length ++ value ++ b :: rest)) (more : rest ≠ []) (size : ep + 1 = s.bytes.length) :
    ∃ t, binary keyed ep s = some (.goto (.addString keyed) t) ∧
      Scans s t (done ++ Bytes.bytes 4 value.length ++ value) (b :: rest) .binary value := by
  have := List.length_pos_iff.mpr more
  have length : ep + 1 = done.length + 4 + value.length + 1 + rest.length := by
    rw [size,start.bytes]
    simp
    omega
  have number : Bytes.number (Bytes.bytes 4 value.length) = value.length := by
    rw [Bytes.number_bytes,Nat.mod_eq_of_lt]
    exact short
  obtain ⟨b0,b1,b2,b3,four⟩ : ∃ b0 b1 b2 b3, Bytes.bytes 4 value.length = [b0,b1,b2,b3] := ⟨_,_,_,_,rfl⟩
  rw [four] at start number ⊢
  have at_ : ∀ i < 4, s.bytes[s.p + i]? = [b0,b1,b2,b3][i]? := by
    intro i below
    rw [start.bytes,start.p,List.getElem?_append_right (by omega),List.append_assoc,List.getElem?_append_left (by simp; omega)]
    simp
  have next : s.bytes[s.p + 4 + value.length]? = some b := by
    rw [start.bytes,start.p,List.getElem?_append_right (by omega),List.getElem?_append_right (by simp; omega)]
    simp [show done.length + 4 + value.length - done.length - (value.length + 4) = 0 from by omega]
  have p := start.p
  refine ⟨{ s with p := s.p + 4 + value.length, ch := b, stringLength := value.length, dataType := .binary, stringp := some (.at (s.p + 4)) },?_,?_⟩
  · have at0 := at_ 0 (by decide)
    have at1 := at_ 1 (by decide)
    have at2 := at_ 2 (by decide)
    have at3 := at_ 3 (by decide)
    simp only [List.getElem?_cons_zero,List.getElem?_cons_succ,Nat.add_zero] at at0 at1 at2 at3
    simp only [binary,at0,at1,at2,at3,number,if_neg (show ¬ s.p + 3 ≥ ep from by omega),
      if_neg (show ¬ s.p + 4 + value.length ≥ ep from by omega),AcJson.look,next,Option.bind_eq_bind,Option.bind_some]
  · refine ⟨⟨rfl,rfl,rfl,rfl,rfl⟩,⟨b,b,rest,rfl,rfl,by simp [start.bytes],by simp [p]; omega⟩,rfl,rfl,?_,fun _ _ _ other => absurd rfl other⟩
    have shows : (done ++ [b0,b1,b2,b3] ++ value).drop (s.p + 4) = value := List.drop_left' (by simp [p])
    simp only [Shows,shows]
    exact List.prefix_rfl

/-! ### Leaves -/

/-- Where a value begins, under a key or not. -/
def valueLabel : Bool → Label
  | true => .startKeyObject
  | false => .startValue

/-- What may come behind a value, and that it is not the end of the buffer. -/
def Delimits (tail : List UInt8) : Prop :=
  ∃ space c rest, tail = space ++ c :: rest ∧ Spaces space ∧ (c = comma ∨ c = closeBrace ∨ c = closeBracket) ∧ rest ≠ []

theorem Delimits.head (delimits : Delimits tail) : ∃ c rest, tail = c :: rest ∧ rest ≠ [] ∧ isDigit c = false ∧ c ≠ point := by
  obtain ⟨space,c,rest,rfl,spaces,closing,more⟩ := delimits
  cases space with
  | nil =>
    refine ⟨c,rest,rfl,more,?_⟩
    obtain rfl | rfl | rfl := closing <;> decide
  | cons d space =>
    refine ⟨d,space ++ c :: rest,rfl,by simp,?_⟩
    have isSpaced := spaces d List.mem_cons_self
    simp only [isSpace,Bool.or_eq_true,beq_iff_eq] at isSpaced
    obtain ((rfl | rfl) | rfl) | rfl := isSpaced <;> decide

/-- A byte that does not open or close anything is left to `scalar`. -/
theorem scalar_step {keyed : Bool} (start : Start s done (b :: rest)) (more : rest ≠ []) (size : ep + 1 = s.bytes.length)
    (solid : isSpace b = false) (brace : b ≠ openBrace) (bracket : b ≠ openBracket) (close : b ≠ closeBracket) :
    step ep s (valueLabel keyed) = scalar keyed ep { s with ch := b, p := s.p + 1 } := by
  have inside : ¬ s.p ≥ ep := by have := start.inside more size; omega
  cases keyed with
  | true => simp [step,valueLabel,startKeyObject,inside,start.take,solid,brace,bracket]
  | false => simp [step,valueLabel,startValue,inside,start.take,solid,brace,bracket,close]

theorem natural_plain (natural : isNatural b = true) : isSpace b = false ∧ b ≠ openBrace ∧ b ≠ openBracket ∧
    b ≠ closeBracket ∧ b ≠ quote ∧ b ≠ minus ∧ b ≠ 48 := by
  refine ⟨?_,?_,?_,?_,?_,?_,?_⟩
  · by_contra space
    simp only [isSpace,Bool.not_eq_false,Bool.or_eq_true,beq_iff_eq] at space
    obtain ((rfl | rfl) | rfl) | rfl := space <;> exact absurd natural (by decide)
  all_goals (rintro rfl; exact absurd natural (by decide))

variable (ep) in
/-- The sign and the first digit of a number. -/
theorem whole_starts (keyed : Bool) {sign : List UInt8} {d : UInt8} (signed : Sign sign) (natural : isNatural d = true)
    (start : Start s done (sign ++ d :: rest)) (more : rest ≠ []) (size : ep + 1 = s.bytes.length) :
    ∃ t, Reaches ep (.goto (valueLabel keyed) s) (.goto (.nextDigit keyed) t) ∧ Kept s t ∧
      t.stringp = some (.at done.length) ∧ Start t (done ++ (sign ++ [d])) rest := by
  obtain ⟨solid,brace,bracket,close,notQuote,notMinus,notZero⟩ := natural_plain natural
  obtain rfl | rfl := signed
  · refine ⟨{ s with ch := d, p := s.p + 1, stringp := some (.at s.p) },Reaches.step ?_ (Reaches.refl ..),⟨rfl,rfl,rfl,rfl,rfl⟩,?_,?_⟩
    · rw [scalar_step (b := d) start more size solid brace bracket close]
      simp [scalar,notQuote,notMinus,notZero,natural]
    · simp [start.p]
    · exact Start.next (b := d) start rfl rfl
  · have start : Start s done (minus :: d :: rest) := start
    have next := start.next (t := { s with ch := minus, p := s.p + 1 }) rfl rfl
    have taken := Start.take (s := { s with ch := minus, p := s.p + 1, stringp := some (.at s.p) }) (b := d) ⟨next.bytes,next.p⟩
    refine ⟨{ s with ch := d, p := s.p + 1 + 1, stringp := some (.at s.p) },Reaches.step ?_ (Reaches.refl ..),
      ⟨rfl,rfl,rfl,rfl,rfl⟩,?_,?_⟩
    · rw [scalar_step start (by simp) size (by decide) (by decide) (by decide) (by decide)]
      simp only [scalar,if_neg (show minus ≠ quote from by decide),if_true,Nat.add_sub_cancel,taken,Option.bind_eq_bind,
        Option.bind_some,natural]
    · simp [start.p]
    · have := Start.next (t := { s with ch := d, p := s.p + 1 + 1 }) next rfl rfl
      exact ⟨by simpa using this.bytes,by simpa using this.p⟩

variable (ep) in
/-- The sign and the zero of a fraction. -/
theorem fraction_starts (keyed : Bool) {sign : List UInt8} (signed : Sign sign)
    (start : Start s done (sign ++ 48 :: point :: rest)) (more : 2 ≤ rest.length) (size : ep + 1 = s.bytes.length) :
    ∃ t, Reaches ep (.goto (valueLabel keyed) s) (.goto (.decimalNumber keyed) t) ∧ Kept s t ∧
      t.stringp = some (.at done.length) ∧ Start t (done ++ (sign ++ [48,point])) rest := by
  have length : ep + 1 = done.length + sign.length + 2 + rest.length := by
    rw [size,start.bytes]
    simp
    omega
  have p := start.p
  obtain rfl | rfl := signed
  · have start : Start s done (48 :: point :: rest) := start
    have next := start.next (t := { s with ch := 48, p := s.p + 1, stringp := some (.at s.p) }) rfl rfl
    refine ⟨{ s with ch := point, p := s.p + 1 + 1, stringp := some (.at s.p) },Reaches.step ?_ (Reaches.refl ..),
      ⟨rfl,rfl,rfl,rfl,rfl⟩,?_,?_⟩
    · rw [scalar_step start (by simp) size (by decide) (by decide) (by decide) (by decide)]
      simp only [scalar,if_neg (show (48 : UInt8) ≠ quote from by decide),if_neg (show (48 : UInt8) ≠ minus from by decide),if_true,
        Nat.add_sub_cancel]
      exact zero_point next (by simp at length ⊢; omega)
    · simp [p]
    · have := Start.next (t := { s with ch := point, p := s.p + 1 + 1 }) next rfl rfl
      exact ⟨by simpa using this.bytes,by simpa using this.p⟩
  · have start : Start s done (minus :: 48 :: point :: rest) := start
    have next := start.next (t := { s with ch := minus, p := s.p + 1, stringp := some (.at s.p) }) rfl rfl
    have after := Start.next (t := { s with ch := 48, p := s.p + 1 + 1, stringp := some (.at s.p) }) next rfl rfl
    refine ⟨{ s with ch := point, p := s.p + 1 + 1 + 1, stringp := some (.at s.p) },Reaches.step ?_ (Reaches.refl ..),
      ⟨rfl,rfl,rfl,rfl,rfl⟩,?_,?_⟩
    · rw [scalar_step start (by simp) size (by decide) (by decide) (by decide) (by decide)]
      simp only [scalar,if_neg (show minus ≠ quote from by decide),if_true,Nat.add_sub_cancel,next.take,Option.bind_eq_bind,
        Option.bind_some,if_neg (show ¬ isNatural 48 = true from by decide)]
      exact zero_point after (by simp at length ⊢; omega)
    · simp [p]
    · have := Start.next (t := { s with ch := point, p := s.p + 1 + 1 + 1 }) after rfl rfl
      exact ⟨by simpa using this.bytes,by simpa using this.p⟩

variable (ep) in
theorem word_starts (keyed : Bool) (type : JsonType) {first : UInt8} {text : List UInt8} (start : Start s done (first :: text ++ b :: rest))
    (stepped : step ep s (valueLabel keyed) = word (constant keyed (first :: text) type) text { s with ch := first, p := s.p + 1 }) :
    ∃ t, Reaches ep (.goto (valueLabel keyed) s) (.goto (.addString keyed) t) ∧
      Scans s t (done ++ first :: text) (b :: rest) type (first :: text) := by
  have start : Start s done (first :: (text ++ b :: rest)) := start
  have next := start.next (t := { s with ch := first, p := s.p + 1 }) rfl rfl
  obtain ⟨t,same,kept,facing⟩ := word_eq (constant keyed (first :: text) type) next
  obtain ⟨u,found,scans⟩ := constant_scans keyed (first :: text) type kept facing
  refine ⟨u,Reaches.step (stepped.trans (same.trans found)) (Reaches.refl ..),scans.kept.after,?_,scans.type,scans.length,?_,?_⟩
  · simpa using scans.facing
  · simpa using scans.shows
  · simpa using scans.ended

variable (ep) in
/-- A value that is no container and no null, from its first byte to where it is added. -/
theorem leaf_scans (keyed : Bool) {type : JsonType} {value token : List UInt8} (encoded : EncodedLeaf type value)
    (short : value.length < 2 ^ 32) (isToken : leafTokens type value = [token]) (start : Start s done (token ++ tail))
    (delimits : Delimits tail) (size : ep + 1 = s.bytes.length) :
    ∃ t token', Reaches ep (.goto (valueLabel keyed) s) (.goto (.addString keyed) t) ∧
      Scans s t (done ++ token') tail type value ∧ token'.length = token.length := by
  obtain ⟨c,rest,rfl,more,other,notPoint⟩ := delimits.head
  have pos := List.length_pos_iff.mpr more
  have p := start.p
  have length : ep + 1 = done.length + token.length + 1 + rest.length := by
    rw [size,start.bytes]
    simp
    omega
  cases type with
  | error => exact encoded.elim
  | object => exact encoded.elim
  | array => exact encoded.elim
  | null => cases isToken
  | string =>
    cases isToken
    have start' : Start s done (quote :: (value ++ quote :: c :: rest)) := by simpa using start
    have next := start'.next (t := { s with ch := quote, p := s.p + 1, stringp := some (.at (s.p + 1)), dataType := .string }) rfl rfl
    obtain ⟨t,reaches,scans⟩ := string_scans ep keyed encoded short next size (by simp [p]) rfl
    refine ⟨t,quote :: value ++ [0],Reaches.step ?_ reaches,?_,by simp⟩
    · rw [scalar_step start' (by simp) size (by decide) (by decide) (by decide) (by decide)]
      simp [scalar]
    · exact ⟨⟨scans.kept.pool,scans.kept.key,scans.kept.arr,scans.kept.res,scans.kept.root⟩,
        by simpa using scans.facing,scans.type,scans.length,by simpa using scans.shows,by simpa using scans.ended⟩
  | zero =>
    cases isToken
    cases encoded
    have start' : Start s done (48 :: c :: rest) := start
    have next := start'.next (t := { s with ch := 48, p := s.p + 1, stringp := some (.at s.p) }) rfl rfl
    obtain ⟨t,found,scans⟩ := zero_scans ep keyed next notPoint
    refine ⟨t,[48],Reaches.step ?_ (Reaches.refl ..),?_,rfl⟩
    · rw [scalar_step start' (by simp) size (by decide) (by decide) (by decide) (by decide)]
      simpa [scalar,quote,minus] using found
    · exact ⟨⟨scans.kept.pool,scans.kept.key,scans.kept.arr,scans.kept.res,scans.kept.root⟩,scans.facing,scans.type,scans.length,scans.shows,scans.ended⟩
  | number =>
    cases isToken
    obtain ⟨sign,whole,rfl,signed,d,ds,rfl,natural,digits⟩ := encoded
    have start' : Start s done (sign ++ d :: (ds ++ c :: rest)) := by simpa using start
    obtain ⟨t,reaches,kept,stringp,next⟩ := whole_starts ep keyed signed natural start' (by simp) size
    obtain ⟨u,goes,scans⟩ := number_scans ep keyed digits next stringp (by simpa using short) other notPoint
    rw [List.append_assoc,List.singleton_append] at scans
    exact ⟨u,sign ++ d :: ds,reaches.trans goes,⟨kept.trans scans.kept,scans.facing,scans.type,scans.length,scans.shows,scans.ended⟩,rfl⟩
  | decimal =>
    cases isToken
    obtain ⟨sign,whole,d,ds,rfl,signed,isWhole,first,digits⟩ := encoded
    obtain rfl | ⟨w,ws,rfl,natural,wholes⟩ := isWhole
    · have start' : Start s done (sign ++ 48 :: point :: (d :: ds ++ c :: rest)) := by simpa using start
      obtain ⟨t,reaches,kept,stringp,next⟩ := fraction_starts ep keyed signed start' (by simp; omega) size
      obtain ⟨u,goes,scans⟩ := decimal_scans ep keyed first digits next stringp (by simpa using short) other
      have same : sign ++ [48,point] ++ d :: ds = sign ++ [48] ++ point :: d :: ds := by simp
      rw [same] at scans
      exact ⟨u,_,reaches.trans goes,⟨kept.trans scans.kept,scans.facing,scans.type,scans.length,scans.shows,scans.ended⟩,rfl⟩
    · have start' : Start s done (sign ++ w :: (ws ++ point :: (d :: ds ++ c :: rest))) := by simpa using start
      obtain ⟨t,reaches,kept,stringp,next⟩ := whole_starts ep keyed signed natural start' (by simp) size
      obtain ⟨u,goes,kept',same,atPoint⟩ := digits_scan ep keyed (.inl rfl) wholes next
      have after := atPoint.next (t := { u with ch := point, p := u.p + 1 }) rfl rfl
      have shift : done ++ (sign ++ [w]) ++ ws ++ [point] = done ++ (sign ++ w :: ws ++ [point]) := by simp
      rw [shift] at after
      obtain ⟨v,ends,scans⟩ :=
        decimal_scans ep keyed first digits after (same.trans stringp) (by simpa using short) other
      have shift : sign ++ w :: ws ++ [point] ++ d :: ds = sign ++ w :: ws ++ point :: d :: ds := by simp
      rw [shift] at scans
      refine ⟨v,_,reaches.trans (goes.trans (Reaches.step ?_ ends)),?_,rfl⟩
      · simp [step,nextDigit,atPoint.take,show isDigit point = false from by decide]
      · exact ⟨(kept.trans kept').trans scans.kept.after,scans.facing,scans.type,scans.length,scans.shows,scans.ended⟩
  | true =>
    cases isToken
    cases encoded
    obtain ⟨t,reaches,scans⟩ := word_starts ep keyed .true start (by
      rw [scalar_step (b := 116) start (by simp) size (by decide) (by decide) (by decide) (by decide)]
      have : ¬ (keyed = true ∧ s.p + 1 + 3 ≥ ep) := by simp [trueWord] at length; omega
      simp [scalar,isNatural,quote,minus,this,trueWord])
    exact ⟨t,trueWord,reaches,scans,rfl⟩
  | false =>
    cases isToken
    cases encoded
    obtain ⟨t,reaches,scans⟩ := word_starts ep keyed .false start (by
      rw [scalar_step (b := 102) start (by simp) size (by decide) (by decide) (by decide) (by decide)]
      have : ¬ (keyed = true ∧ s.p + 1 + 4 ≥ ep) := by simp [falseWord] at length; omega
      simp [scalar,isNatural,quote,minus,this,falseWord])
    exact ⟨t,falseWord,reaches,scans,rfl⟩
  | binary =>
    cases isToken
    have start' : Start s done (110 :: 98 :: (Bytes.bytes 4 value.length ++ value ++ c :: rest)) := by simpa using start
    have next := start'.next (t := { s with ch := 110, p := s.p + 1 }) rfl rfl
    have after := next.next (t := { s with ch := 98, p := s.p + 1 + 1 }) rfl rfl
    obtain ⟨t,found,scans⟩ := binary_scans ep keyed short after more size
    refine ⟨t,_,Reaches.step ?_ (Reaches.refl ..),?_,rfl⟩
    · rw [scalar_step start' (by simp) size (by decide) (by decide) (by decide) (by decide)]
      simp [scalar,isNatural,quote,minus,next.take,found]
    · exact ⟨scans.kept.after,by simpa using scans.facing,scans.type,scans.length,by simpa using scans.shows,by simpa using scans.ended⟩

end AnotherC.AcJson
