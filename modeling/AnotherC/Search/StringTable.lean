import Mathlib.Data.List.Dedup
import Mathlib.Data.List.Perm.Subperm
import Mathlib.Algebra.Order.BigOperators.Group.List
import Mathlib.Algebra.Order.Ring.Nat
import AnotherC.Lib.Bytes
import AnotherC.Lib.Text

/-!
# Tables of strings: `ac_string_table_t`

A file holds the strings in order, preceded by their offsets; a string's id is
its place. `ac_string_table_save` merges the strings of a file with the ones
added since, in two passes with the same control flow, and says for every old id
where its string has gone. The merge never meets a string twice, so it does not
abort, and an id followed through any number of generations names the string it
named at first (`generations_keep`).
-/
namespace AnotherC.StringTable
open AnotherC.Lib
open AnotherC.Lib.Bytes (bytes number number_bytes bytes_length)
open AnotherC.Lib.Order (Strict Total)
open AnotherC.Lib.Text (Text strcmp strcmp_total strcmp_zero stringAt joined)
set_option linter.unusedVariables false

/-! ## What the library gives -/

/-- A search in an array that is in order for the key: `compare` is positive at
    the elements before the key and negative at those after it. -/
structure Bsearch where
  search : (Nat → Int) → List Nat → Option Nat
  found : ∀ compare xs i, search compare xs = some i → ∃ x, xs[i]? = some x ∧ compare x = 0
  missed : ∀ compare xs, xs.Pairwise (fun a b => compare a ≤ 0 → compare b < 0) → search compare xs = none →
    ∀ x ∈ xs, compare x ≠ 0

/-- An ordered map of strings; `toList` is `macro_map_first` and then
    `macro_map_next` to the end. -/
structure MacroMap where
  Root : Type
  empty : Root
  find : Root → Text → Bool
  insert : Root → Text → Root
  toList : Root → List Text
  empty_toList : toList empty = []
  find_iff : ∀ root s, Strict strcmp (toList root) → (find root s = true ↔ s ∈ toList root)
  insert_strict : ∀ root s, Strict strcmp (toList root) → s ∉ toList root → Strict strcmp (toList (insert root s))
  insert_perm : ∀ root s, Strict strcmp (toList root) → s ∉ toList root →
    (toList (insert root s)).Perm (s :: toList root)

section
variable (lib : Bsearch) (map : MacroMap)

/-- `struct ac_string_table_s`. -/
structure StringTable where
  allStrings : List UInt8
  offsets : List Nat
  numStrings : Nat
  root : map.Root
  mapSize : Nat

/-! ## The operations -/

/-- The 32-bit words of a buffer. -/
def words (buffer : List UInt8) (num : Nat) : List Nat :=
  (List.range num).map fun i => number ((buffer.drop (4 * i)).take 4)

def acStringTableInit (file : Option (List UInt8)) : StringTable map :=
  match file with
  | some buffer =>
    let num := number (buffer.take 4)
    { allStrings := buffer.drop (4 * num)
      offsets := (words buffer num).set 0 0
      numStrings := num
      root := map.empty
      mapSize := 0 }
  | none => ⟨[],[],0,map.empty,0⟩

variable {map} in
/-- `search_strings`. -/
def searchStrings (h : StringTable map) (s : Text) : Option Nat :=
  lib.search (fun offset => strcmp s (stringAt h.allStrings offset)) h.offsets

variable {map} in
def acStringTableAdd (h : StringTable map) (s : Text) : StringTable map :=
  match searchStrings lib h s with
  | some _ => h
  | none =>
    if map.find h.root s then h
    else { h with root := map.insert h.root s, mapSize := (h.mapSize + 1) % 2 ^ 32 }

variable {map} in
def acStringTableExpand (h : StringTable map) : StringTable map :=
  let h := { h with root := map.empty, mapSize := 0 }
  if h.numStrings = 0 then acStringTableAdd lib h [] else h

/-- The three loops that both passes of `ac_string_table_save` make over the
    strings at `p` and at `n`; `none` is `abort()`. -/
def mergeLoop {σ : Type} (old new : σ → Text → σ) : σ → List Text → List Text → Option σ
  | s, v1 :: ps, v2 :: ns =>
    if strcmp v1 v2 ≠ 0 then
      if strcmp v1 v2 < 0 then mergeLoop old new (old s v1) ps (v2 :: ns)
      else mergeLoop old new (new s v2) (v1 :: ps) ns
    else none
  | s, v1 :: ps, [] => mergeLoop old new (old s v1) ps []
  | s, [], v2 :: ns => mergeLoop old new (new s v2) [] ns
  | s, [], [] => some s
termination_by _ ps ns => ps.length + ns.length

/-- What the first pass fills in: `offs` up to `op`, `mapping` and `cur_offs`. -/
structure Pass where
  offs : List Nat
  mapping : List Nat
  cur : Nat
deriving Repr, DecidableEq

def newOffset (pass : Pass) (s : Text) : Pass :=
  { pass with offs := pass.offs ++ [pass.cur], cur := (pass.cur + s.length + 1) % 2 ^ 32 }

def oldOffset (pass : Pass) (s : Text) : Pass :=
  newOffset { pass with mapping := pass.mapping ++ [pass.offs.length % 2 ^ 32] } s

def writeString (out : List UInt8) (s : Text) : List UInt8 := out ++ (s ++ [0])

variable {map} in
/-- The strings of the table, by their ids. -/
def strings (h : StringTable map) : List Text := h.offsets.map (stringAt h.allStrings)

variable {map} in
/-- The mapping, the file, and the table as it is left. -/
def acStringTableSave (h : StringTable map) : Option (List Nat × List UInt8 × StringTable map) := do
  let pass ← mergeLoop oldOffset newOffset ⟨[],[],0⟩ (strings h) (map.toList h.root)
  let count := (h.mapSize + h.numStrings) % 2 ^ 32
  if count ≠ pass.offs.length then none
  let out ← mergeLoop writeString writeString ((pass.offs.set 0 count).flatMap (bytes 4)) (strings h)
    (map.toList h.root)
  some (pass.mapping,out,{ h with root := map.empty, mapSize := 0 })

/-- One generation: open, expand, add, save. -/
def generation (file : Option (List UInt8)) (added : List Text) : Option (List Nat × List UInt8) := do
  let h := acStringTableExpand lib (acStringTableInit map file)
  let (mapping,out,_) ← acStringTableSave (added.foldl (acStringTableAdd lib) h)
  some (mapping,out)

/-- Generation after generation; the mappings in order, and the last file. -/
def generations (file : Option (List UInt8)) : List (List Text) → Option (List (List Nat) × Option (List UInt8))
  | [] => some ([],file)
  | added :: rest => do
    let (mapping,out) ← generation lib map file added
    let (mappings,last) ← generations (some out) rest
    some (mapping :: mappings,last)

/-- An id taken through the mappings. -/
def follow : List (List Nat) → Nat → Option Nat
  | [], id => some id
  | mapping :: rest, id => mapping[id]?.bind (follow rest)

/-! ## What a table is for -/

/-- The strings a table with the strings `old` has after `added` were added. -/
def members (old added : List Text) : List Text := (if old = [] then [[]] else []) ++ old ++ added

/-- The bytes of the strings, each counted once and with its NUL. -/
def totalSize (texts : List Text) : Nat := (texts.dedup.map fun s => s.length + 1).sum

/-- The strings of the table that a file holds. -/
def tableOf (file : Option (List UInt8)) : List Text := strings (acStringTableInit map file)

/-! ## Merging -/

/-- A string taken by one of the loops, marked when it is an old one. -/
abbrev Taken := Bool × Text

/-- What a pass makes of the strings in the order they are taken. -/
def passOver {σ : Type} (old new : σ → Text → σ) (s : σ) (ys : List Taken) : σ :=
  ys.foldl (fun s y => if y.1 then old s y.2 else new s y.2) s

@[simp] theorem passOver_old {σ : Type} (old new : σ → Text → σ) (s : σ) (v : Text) (ys : List Taken) :
    passOver old new s ((true,v) :: ys) = passOver old new (old s v) ys := rfl

@[simp] theorem passOver_new {σ : Type} (old new : σ → Text → σ) (s : σ) (v : Text) (ys : List Taken) :
    passOver old new s ((false,v) :: ys) = passOver old new (new s v) ys := rfl

/-- The order in which both passes take the strings. -/
structure Merges (olds news : List Text) (ys : List Taken) : Prop where
  runs : ∀ (σ : Type) (old new : σ → Text → σ) (s : σ), mergeLoop old new s olds news = some (passOver old new s ys)
  strict : Strict strcmp (ys.map Prod.snd)
  old : (ys.filter Prod.fst).map Prod.snd = olds
  perm : (ys.map Prod.snd).Perm (olds ++ news)

theorem merges_new {news : List Text} (strict : Strict strcmp news) :
    Merges [] news (news.map fun v => (false,v)) := by
  refine ⟨?_,by simpa [Function.comp_def] using strict,?_,by simp [Function.comp_def]⟩
  · intro σ old new s
    induction news generalizing s with
    | nil => simp [mergeLoop,passOver]
    | cons v ns ih =>
      rw [mergeLoop,ih (List.Pairwise.of_cons strict)]
      simp [passOver]
  · rw [List.map_eq_nil_iff,List.filter_eq_nil_iff]
    intro y member
    obtain ⟨v,_,same⟩ := List.mem_map.mp member
    simp [← same]

theorem merges_old {olds : List Text} (strict : Strict strcmp olds) :
    Merges olds [] (olds.map fun v => (true,v)) := by
  refine ⟨?_,by simpa [Function.comp_def] using strict,?_,by simp [Function.comp_def]⟩
  · intro σ old new s
    induction olds generalizing s with
    | nil => simp [mergeLoop,passOver]
    | cons v ps ih =>
      rw [mergeLoop,ih (List.Pairwise.of_cons strict)]
      simp [passOver]
  · rw [List.filter_eq_self.mpr]
    · simp [Function.comp_def]
    · intro y member
      obtain ⟨v,_,same⟩ := List.mem_map.mp member
      simp [← same]

/-- An old string that comes first. -/
theorem Merges.takeOld {v : Text} {ps ns : List Text} {ys : List Taken} (merges : Merges ps ns ys)
    (less : ∀ s ∈ ps ++ ns, strcmp v s < 0) (step : ∀ (σ : Type) (old new : σ → Text → σ) (s : σ),
      mergeLoop old new s (v :: ps) ns = mergeLoop old new (old s v) ps ns) :
    Merges (v :: ps) ns ((true,v) :: ys) where
  runs σ old new s := by
    rw [step,merges.runs]
    rfl
  strict := List.pairwise_cons.mpr ⟨fun s member => less s (merges.perm.mem_iff.mp member),merges.strict⟩
  old := by simp [merges.old]
  perm := by simpa using merges.perm

/-- A new string that comes first. -/
theorem Merges.takeNew {v : Text} {ps ns : List Text} {ys : List Taken} (merges : Merges ps ns ys)
    (less : ∀ s ∈ ps ++ ns, strcmp v s < 0) (step : ∀ (σ : Type) (old new : σ → Text → σ) (s : σ),
      mergeLoop old new s ps (v :: ns) = mergeLoop old new (new s v) ps ns) :
    Merges ps (v :: ns) ((false,v) :: ys) where
  runs σ old new s := by
    rw [step,merges.runs]
    rfl
  strict := List.pairwise_cons.mpr ⟨fun s member => less s (merges.perm.mem_iff.mp member),merges.strict⟩
  old := by simp [merges.old]
  perm := (merges.perm.cons v).trans List.perm_middle.symm

/-- The merge meets no string twice, so it runs to its end. -/
theorem merges {olds news : List Text} (oldStrict : Strict strcmp olds) (newStrict : Strict strcmp news)
    (apart : ∀ s ∈ olds, s ∉ news) : ∃ ys, Merges olds news ys := by
  induction olds generalizing news with
  | nil => exact ⟨_,merges_new newStrict⟩
  | cons v1 ps ihOld =>
    induction news with
    | nil => exact ⟨_,merges_old oldStrict⟩
    | cons v2 ns ihNew =>
      have different : strcmp v1 v2 ≠ 0 := fun same =>
        apart v1 List.mem_cons_self (by rw [strcmp_zero.mp same]; exact List.mem_cons_self)
      obtain ⟨oldFirst,oldRest⟩ := List.pairwise_cons.mp oldStrict
      obtain ⟨newFirst,newRest⟩ := List.pairwise_cons.mp newStrict
      by_cases less : strcmp v1 v2 < 0
      · obtain ⟨ys,rest⟩ := ihOld oldRest newStrict fun s member => apart s (List.mem_cons_of_mem v1 member)
        refine ⟨_,rest.takeOld ?_ fun σ old new s => by rw [mergeLoop,if_pos different,if_pos less]⟩
        intro s member
        rcases List.mem_append.mp member with inOld | inNew
        · exact oldFirst s inOld
        · rcases List.mem_cons.mp inNew with here | later
          · rw [here]
            exact less
          · exact strcmp_total.lt_of_lt_of_le less (Int.le_of_lt (newFirst s later))
      · have more : strcmp v2 v1 < 0 := (strcmp_total.swap v2 v1).mpr (by omega)
        obtain ⟨ys,rest⟩ := ihNew newRest fun s member inNew => apart s member (List.mem_cons_of_mem v2 inNew)
        refine ⟨_,rest.takeNew ?_ fun σ old new s => by rw [mergeLoop,if_pos different,if_neg less]⟩
        intro s member
        rcases List.mem_append.mp member with inOld | inNew
        · rcases List.mem_cons.mp inOld with here | later
          · rw [here]
            exact more
          · exact strcmp_total.lt_of_lt_of_le more (Int.le_of_lt (oldFirst s later))
        · exact newFirst s inNew

/-! ## The two passes -/

/-- The offsets of strings that lie one after the other. -/
def offsetsFrom : Nat → List Text → List Nat
  | _, [] => []
  | at_, s :: rest => at_ :: offsetsFrom (at_ + s.length + 1) rest

/-- The places of the old strings. -/
def placesFrom : Nat → List Taken → List Nat
  | _, [] => []
  | k, y :: rest => if y.1 then k :: placesFrom (k + 1) rest else placesFrom (k + 1) rest

theorem offsetsFrom_length (at_ : Nat) (ss : List Text) : (offsetsFrom at_ ss).length = ss.length := by
  induction ss generalizing at_ with
  | nil => rfl
  | cons s ss ih => simp [offsetsFrom,ih]

theorem offsetsFrom_strings (before ss : List Text) (free : ∀ s ∈ ss, 0 ∉ s) :
    (offsetsFrom (joined before).length ss).map (stringAt (joined (before ++ ss))) = ss := by
  induction ss generalizing before with
  | nil => rfl
  | cons s ss ih =>
    have next : (joined before).length + s.length + 1 = (joined (before ++ [s])).length := by
      simp
      omega
    rw [offsetsFrom,List.map_cons,Text.stringAt_joined (free s List.mem_cons_self),next]
    have later := ih (before ++ [s]) fun t member => free t (List.mem_cons_of_mem s member)
    rw [List.append_assoc] at later
    rw [show before ++ s :: ss = before ++ ([s] ++ ss) from rfl,later]

theorem offsetsFrom_le (at_ : Nat) (ss : List Text) :
    ∀ o ∈ offsetsFrom at_ ss, o ≤ at_ + (ss.map fun s => s.length + 1).sum := by
  induction ss generalizing at_ with
  | nil => simp [offsetsFrom]
  | cons s ss ih =>
    intro o member
    rw [List.map_cons,List.sum_cons]
    rcases List.mem_cons.mp member with here | later
    · omega
    · have := ih _ o later
      omega

/-- The first pass, as long as nothing overflows. -/
theorem first_pass (ys : List Taken) (pass : Pass)
    (offset : pass.cur + ((ys.map Prod.snd).map fun s => s.length + 1).sum < 2 ^ 32)
    (places : pass.offs.length + ys.length < 2 ^ 32) :
    (passOver oldOffset newOffset pass ys).offs = pass.offs ++ offsetsFrom pass.cur (ys.map Prod.snd) ∧
      (passOver oldOffset newOffset pass ys).mapping = pass.mapping ++ placesFrom pass.offs.length ys := by
  induction ys generalizing pass with
  | nil => simp [passOver,offsetsFrom,placesFrom]
  | cons y ys ih =>
    obtain ⟨mark,v⟩ := y
    simp only [List.map_cons,List.sum_cons,List.length_cons] at offset places
    have cur : (pass.cur + v.length + 1) % 2 ^ 32 = pass.cur + v.length + 1 := Nat.mod_eq_of_lt (by omega)
    have place : pass.offs.length % 2 ^ 32 = pass.offs.length := Nat.mod_eq_of_lt (by omega)
    cases mark with
    | true =>
      have later := ih (oldOffset pass v) (by simp only [oldOffset,newOffset,cur]; omega)
        (by simp only [oldOffset,newOffset,List.length_append,List.length_singleton]; omega)
      rw [passOver_old,later.1,later.2]
      simp only [oldOffset,newOffset,cur,place,List.length_append,List.length_singleton,List.append_assoc]
      exact ⟨rfl,rfl⟩
    | false =>
      have later := ih (newOffset pass v) (by simp only [newOffset,cur]; omega)
        (by simp only [newOffset,List.length_append,List.length_singleton]; omega)
      rw [passOver_new,later.1,later.2]
      simp only [newOffset,cur,List.length_append,List.length_singleton,List.append_assoc]
      exact ⟨rfl,rfl⟩

theorem second_pass (ys : List Taken) (out : List UInt8) :
    passOver writeString writeString out ys = out ++ joined (ys.map Prod.snd) := by
  induction ys generalizing out with
  | nil => simp [passOver]
  | cons y ys ih =>
    have step : passOver writeString writeString out (y :: ys) =
        passOver writeString writeString (writeString out y.2) ys := by
      simp [passOver]
    rw [step,ih,writeString]
    simp

/-- An old string is at the place that the mapping says. -/
theorem placesFrom_taken (k : Nat) (ys : List Taken) :
    (placesFrom k ys).length = ((ys.filter Prod.fst).map Prod.snd).length ∧
      ∀ (i : Nat) s, ((ys.filter Prod.fst).map Prod.snd)[i]? = some s →
        ∃ id : Nat, (placesFrom k ys)[i]? = some (k + id) ∧ (ys.map Prod.snd)[id]? = some s := by
  induction ys generalizing k with
  | nil => simp [placesFrom]
  | cons y ys ih =>
    obtain ⟨length,later⟩ := ih (k + 1)
    cases old : y.1 with
    | true =>
      simp only [placesFrom,old,if_true,List.filter_cons,List.map_cons,List.length_cons]
      refine ⟨by rw [length],fun i s there => ?_⟩
      cases i with
      | zero =>
        rw [List.getElem?_cons_zero] at there
        exact ⟨0,rfl,there⟩
      | succ i =>
        rw [List.getElem?_cons_succ] at there
        obtain ⟨id,place,taken⟩ := later i s there
        refine ⟨id + 1,?_,by rw [List.getElem?_cons_succ]; exact taken⟩
        rw [List.getElem?_cons_succ,place]
        congr 1
        omega
    | false =>
      simp only [placesFrom,old,List.filter_cons,List.map_cons]
      refine ⟨length,fun i s there => ?_⟩
      obtain ⟨id,place,taken⟩ := later i s there
      refine ⟨id + 1,?_,by rw [List.getElem?_cons_succ]; exact taken⟩
      simp only [Bool.false_eq_true,if_false]
      rw [place]
      congr 1
      omega

/-! ## The file -/

theorem words_cons (w : Nat) (rest : List UInt8) (n : Nat) :
    words (bytes 4 w ++ rest) (n + 1) = w % 2 ^ 32 :: words rest n := by
  have first : (bytes 4 w ++ rest).take 4 = bytes 4 w := by
    rw [List.take_append_of_le_length (by simp),List.take_of_length_le (by simp)]
  have number_ : number (bytes 4 w) = w % 2 ^ 32 := by
    rw [number_bytes]
    rfl
  rw [words,List.range_succ_eq_map,List.map_cons,List.map_map,Nat.mul_zero,List.drop_zero,first,number_]
  rfl

theorem words_flatMap (ws : List Nat) (rest : List UInt8) (small : ∀ w ∈ ws, w < 2 ^ 32) :
    words (ws.flatMap (bytes 4) ++ rest) ws.length = ws := by
  induction ws with
  | nil => rfl
  | cons w ws ih =>
    rw [List.flatMap_cons,List.append_assoc,List.length_cons,words_cons,
      ih fun v member => small v (List.mem_cons_of_mem w member),Nat.mod_eq_of_lt (small w List.mem_cons_self)]

theorem flatMap_bytes_length (ws : List Nat) : (ws.flatMap (bytes 4)).length = 4 * ws.length := by
  induction ws with
  | nil => rfl
  | cons w ws ih =>
    rw [List.flatMap_cons,List.length_append,bytes_length,ih,List.length_cons]
    omega

/-- A file of offsets, with their number in place of the first one, and of strings is read back. -/
theorem init_written {ws : List Nat} (rest : List UInt8) (first : ws.head? = some 0) (small : ∀ w ∈ ws, w < 2 ^ 32) (count : ws.length < 2 ^ 32) :
    acStringTableInit map (some ((ws.set 0 ws.length).flatMap (bytes 4) ++ rest)) = ⟨rest,ws,ws.length,map.empty,0⟩ := by
  obtain ⟨others,whole⟩ := List.head?_eq_some_iff.mp first
  have length : (ws.set 0 ws.length).length = ws.length := List.length_set
  have bound : ∀ w ∈ ws.set 0 ws.length, w < 2 ^ 32 := by
    intro w member
    rcases List.mem_or_eq_of_mem_set member with inside | here
    · exact small w inside
    · rw [here]
      exact count
  have num : number (((ws.set 0 ws.length).flatMap (bytes 4) ++ rest).take 4) = ws.length := by
    conv_lhs => rw [whole,List.set_cons_zero,← whole,List.flatMap_cons,List.append_assoc]
    rw [List.take_append_of_le_length (by simp),List.take_of_length_le (by simp),number_bytes]
    exact Nat.mod_eq_of_lt count
  have back : (ws.set 0 ws.length).set 0 0 = ws := by rw [List.set_set,whole,List.set_cons_zero]
  have read := words_flatMap (ws.set 0 ws.length) rest bound
  rw [length] at read
  have strings_ : ((ws.set 0 ws.length).flatMap (bytes 4) ++ rest).drop (4 * ws.length) = rest := by
    have skip : 4 * ws.length = ((ws.set 0 ws.length).flatMap (bytes 4)).length := by rw [flatMap_bytes_length,length]
    rw [skip]
    exact List.drop_left
  rw [acStringTableInit]
  simp only [num,read,back,strings_]

theorem offsetsFrom_head {ss : List Text} (some_ : ss ≠ []) : (offsetsFrom 0 ss).head? = some 0 := by
  obtain ⟨s,rest,rfl⟩ := List.exists_cons_of_ne_nil some_
  rfl

/-- A file as it is written is read back. -/
theorem table_of_written {ss : List Text} (some_ : ss ≠ []) (free : ∀ s ∈ ss, 0 ∉ s)
    (small : (ss.map fun s => s.length + 1).sum < 2 ^ 32) (count : ss.length < 2 ^ 32) :
    tableOf map (some (((offsetsFrom 0 ss).set 0 ss.length).flatMap (bytes 4) ++ joined ss)) = ss := by
  have bound : ∀ w ∈ offsetsFrom 0 ss, w < 2 ^ 32 := by
    intro w inside
    have := offsetsFrom_le 0 ss w inside
    omega
  have length := offsetsFrom_length 0 ss
  have read := init_written map (joined ss) (offsetsFrom_head some_) bound (by rw [length]; exact count)
  rw [length] at read
  rw [tableOf,strings,read]
  simpa using offsetsFrom_strings [] ss free

/-! ## Adding -/

variable {lib map}

/-- The table as it was opened, and what was added since. -/
structure Grown (h : StringTable map) (old added : List Text) : Prop where
  are : strings h = old
  strict : Strict strcmp old
  num : h.numStrings = old.length
  newStrict : Strict strcmp (map.toList h.root)
  size : h.mapSize = (map.toList h.root).length % 2 ^ 32
  new : ∀ s, s ∈ map.toList h.root ↔ s ∉ old ∧ s ∈ added

theorem Grown.search {h : StringTable map} {old added : List Text} (grown : Grown h old added) (s : Text) :
    searchStrings lib h s = none ↔ s ∉ old := by
  have member (v : Text) : v ∈ old ↔ ∃ o ∈ h.offsets, stringAt h.allStrings o = v := by
    rw [← grown.are,strings,List.mem_map]
  constructor
  · intro missed inside
    obtain ⟨o,here,same⟩ := (member s).mp inside
    have ordered : h.offsets.Pairwise fun a b =>
        strcmp s (stringAt h.allStrings a) ≤ 0 → strcmp s (stringAt h.allStrings b) < 0 := by
      have strict := grown.strict
      rw [← grown.are,strings,Strict,List.pairwise_map] at strict
      exact strict.imp fun less upTo => strcmp_total.lt_of_le_of_lt upTo less
    exact lib.missed _ _ ordered missed o here (strcmp_zero.mpr same.symm)
  · intro outside
    cases found : searchStrings lib h s with
    | none => rfl
    | some i =>
      obtain ⟨o,there,same⟩ := lib.found _ _ _ found
      exact absurd ((member s).mpr ⟨o,List.mem_of_getElem? there,(strcmp_zero.mp same).symm⟩) outside

variable (lib) in
theorem Grown.add {h : StringTable map} {old added : List Text} (grown : Grown h old added) (s : Text) :
    Grown (acStringTableAdd lib h s) old (added ++ [s]) := by
  have same (known : s ∈ old ∨ s ∈ map.toList h.root) : Grown h old (added ++ [s]) := by
    refine { grown with new := fun v => ?_ }
    rw [grown.new v,List.mem_append,List.mem_singleton]
    constructor
    · exact fun both => ⟨both.1,.inl both.2⟩
    · rintro ⟨fresh,before | here⟩
      · exact ⟨fresh,before⟩
      · subst here
        exact ⟨fresh,(((grown.new v).mp (known.resolve_left fresh)).2)⟩
  rw [acStringTableAdd]
  cases found : searchStrings lib h s with
  | some i =>
    have inside : s ∈ old := by
      by_contra outside
      rw [(grown.search s).mpr outside] at found
      cases found
    exact same (.inl inside)
  | none =>
    have outside := (grown.search s).mp found
    by_cases known : map.find h.root s = true
    · simp only [known,if_true]
      exact same (.inr ((map.find_iff _ _ grown.newStrict).mp known))
    · have fresh : s ∉ map.toList h.root := fun inside => known ((map.find_iff _ _ grown.newStrict).mpr inside)
      have perm := map.insert_perm h.root s grown.newStrict fresh
      simp only [known,if_false,Bool.false_eq_true]
      refine ⟨grown.are,grown.strict,grown.num,map.insert_strict _ _ grown.newStrict fresh,?_,fun v => ?_⟩
      · simp only [grown.size,perm.length_eq,List.length_cons]
        omega
      · rw [perm.mem_iff,List.mem_cons,grown.new v,List.mem_append,List.mem_singleton]
        constructor
        · rintro (here | ⟨apart,before⟩)
          · subst here
            exact ⟨outside,.inr rfl⟩
          · exact ⟨apart,.inl before⟩
        · rintro ⟨apart,before | here⟩
          · exact .inr ⟨apart,before⟩
          · exact .inl here

variable (lib) in
theorem Grown.addAll {h : StringTable map} {old before : List Text} (grown : Grown h old before) (added : List Text) :
    Grown (added.foldl (acStringTableAdd lib) h) old (before ++ added) := by
  induction added generalizing h before with
  | nil => simpa using grown
  | cons s added ih => simpa using ih (grown.add lib s)

theorem words_length (buffer : List UInt8) (num : Nat) : (words buffer num).length = num := by
  rw [words,List.length_map,List.length_range]

theorem init_num (file : Option (List UInt8)) :
    (acStringTableInit map file).numStrings = (tableOf map file).length := by
  cases file with
  | none => rfl
  | some buffer => simp [tableOf,acStringTableInit,strings,words_length]

variable (lib) in
/-- A table that is opened and expanded. -/
theorem Grown.expand {file : Option (List UInt8)} (strict : Strict strcmp (tableOf map file)) :
    Grown (acStringTableExpand lib (acStringTableInit map file)) (tableOf map file)
      (if tableOf map file = [] then [[]] else []) := by
  have blank : Grown { acStringTableInit map file with root := map.empty, mapSize := 0 } (tableOf map file) [] :=
    ⟨rfl,strict,init_num file,by simp [map.empty_toList,Strict],by simp [map.empty_toList],
      fun s => by simp [map.empty_toList]⟩
  have empty : (acStringTableInit map file).numStrings = 0 ↔ tableOf map file = [] := by
    rw [init_num,List.length_eq_zero_iff]
  simp only [acStringTableExpand,empty]
  split
  · exact blank.add lib []
  · exact blank

/-! ## Generations -/

/-- Every id is sent to an id of the same string. -/
def Carries (old : List Text) (mapping : List Nat) (new : List Text) : Prop :=
  mapping.length = old.length ∧ ∀ (i : Nat) s, old[i]? = some s → ∃ id : Nat, mapping[i]? = some id ∧ new[id]? = some s

theorem totalSize_le {xs ys : List Text} (sub : ∀ s ∈ xs, s ∈ ys) : totalSize xs ≤ totalSize ys := by
  have inside : xs.dedup.Subperm ys.dedup :=
    List.Nodup.subperm (List.nodup_dedup xs) fun s member => List.mem_dedup.mpr (sub s (List.mem_dedup.mp member))
  obtain ⟨part,perm,sublist⟩ := inside
  rw [totalSize,← (perm.map _).sum_eq]
  exact (sublist.map _).sum_le_sum fun _ _ => Nat.zero_le _

theorem Strict.nodup {xs : List Text} (strict : Strict strcmp xs) : xs.Nodup :=
  strict.imp fun less same => by
    subst same
    exact absurd less (by rw [strcmp_total.refl]; decide)

variable (lib) in
/-- One generation: the file holds the old strings and the added ones, each once
    and in order. -/
theorem generation_keeps {file : Option (List UInt8)} {added : List Text} (strict : Strict strcmp (tableOf map file))
    (free : ∀ s ∈ added, 0 ∉ s) (small : totalSize (members (tableOf map file) added) < 2 ^ 32) :
    ∃ mapping out, generation lib map file added = some (mapping,out) ∧
      Strict strcmp (tableOf map (some out)) ∧
      (∀ s, s ∈ tableOf map (some out) ↔ s ∈ members (tableOf map file) added) ∧
      Carries (tableOf map file) mapping (tableOf map (some out)) := by
  have grown := (Grown.expand lib strict).addAll lib added
  revert grown
  generalize tableIs : added.foldl (acStringTableAdd lib) (acStringTableExpand lib (acStringTableInit map file)) = h
  generalize oldIs : tableOf map file = old at strict small ⊢
  intro grown
  obtain ⟨ys,merged⟩ := merges strict grown.newStrict fun s inOld inNew => ((grown.new s).mp inNew).1 inOld
  have member (s : Text) : s ∈ ys.map Prod.snd ↔ s ∈ members old added := by
    rw [merged.perm.mem_iff,List.mem_append,grown.new,members,List.append_assoc,List.mem_append,List.mem_append,
      List.mem_append]
    tauto
  have size : ((ys.map Prod.snd).map fun s => s.length + 1).sum = totalSize (members old added) := by
    rw [totalSize]
    refine ((List.perm_ext_iff_of_nodup (Strict.nodup merged.strict) (List.nodup_dedup _)).mpr fun s => ?_).map _ |>.sum_eq
    rw [member,List.mem_dedup]
  have fewer : ys.length ≤ ((ys.map Prod.snd).map fun s => s.length + 1).sum := by
    have positive : ∀ n ∈ (ys.map Prod.snd).map fun s => s.length + 1, 1 ≤ n := by
      intro n inside
      obtain ⟨s,_,same⟩ := List.mem_map.mp inside
      omega
    have each := List.length_le_sum_of_one_le _ positive
    rwa [List.length_map,List.length_map] at each
  have free_ : ∀ s ∈ ys.map Prod.snd, 0 ∉ s := by
    intro s inside
    rcases List.mem_append.mp (merged.perm.mem_iff.mp inside) with inOld | inNew
    · rw [← oldIs,tableOf,strings] at inOld
      obtain ⟨o,_,same⟩ := List.mem_map.mp inOld
      rw [← same]
      exact Text.stringAt_free _ o
    · rcases List.mem_append.mp ((grown.new s).mp inNew).2 with first | later
      · split at first
        · rw [List.mem_singleton.mp first]
          simp
        · simp at first
      · exact free s later
  have some_ : ys.map Prod.snd ≠ [] := by
    cases old with
    | nil =>
      have inside := (member []).mpr (by simp [members])
      exact List.ne_nil_of_mem inside
    | cons s rest =>
      have inside := (member s).mpr (by simp [members])
      exact List.ne_nil_of_mem inside
  obtain ⟨offs,mapping⟩ := first_pass ys ⟨[],[],0⟩ (by simp only [Nat.zero_add]; omega) (by simp only [List.length_nil]; omega)
  have length : (ys.map Prod.snd).length = old.length + (map.toList h.root).length := by
    rw [merged.perm.length_eq,List.length_append]
  have count : (h.mapSize + h.numStrings) % 2 ^ 32 = (ys.map Prod.snd).length := by
    rw [grown.size,grown.num,length]
    rw [List.length_map] at length
    omega
  simp only [List.nil_append,List.length_nil] at offs mapping
  have saved : acStringTableSave h = some (placesFrom 0 ys,
      ((offsetsFrom 0 (ys.map Prod.snd)).set 0 (ys.map Prod.snd).length).flatMap (bytes 4) ++ joined (ys.map Prod.snd),
      { h with root := map.empty, mapSize := 0 }) := by
    rw [acStringTableSave,grown.are]
    simp only [merged.runs,Option.bind_eq_bind,Option.bind_some,count,offs,mapping,offsetsFrom_length,second_pass]
    simp
  have table := table_of_written map some_ free_ (by omega) (by rw [List.length_map]; omega)
  refine ⟨_,_,by rw [generation,tableIs,saved]; rfl,?_,?_,?_⟩
  · rw [table]
    exact merged.strict
  · rw [table]
    exact member
  · rw [table]
    obtain ⟨places,each⟩ := placesFrom_taken 0 ys
    rw [merged.old] at places each
    exact ⟨places,fun i s there => by simpa using each i s there⟩

/-- However many generations a table goes through, no save aborts, the strings
    are those it had and those that were added, each once and in order, and an id
    followed through the mappings names its string. -/
theorem generations_keep (lib : Bsearch) (map : MacroMap) (file : Option (List UInt8)) (adds : List (List Text))
    (strict : Strict strcmp (tableOf map file)) (free : ∀ added ∈ adds, ∀ s ∈ added, 0 ∉ s)
    (small : totalSize (members (tableOf map file) adds.flatten) < 2 ^ 32) :
    ∃ mappings last, generations lib map file adds = some (mappings,last) ∧ mappings.length = adds.length ∧
      Strict strcmp (tableOf map last) ∧
      (adds ≠ [] → ∀ s, s ∈ tableOf map last ↔ s ∈ members (tableOf map file) adds.flatten) ∧
      ∀ (i : Nat) s, (tableOf map file)[i]? = some s →
        ∃ id, follow mappings i = some id ∧ (tableOf map last)[id]? = some s := by
  induction adds generalizing file with
  | nil => exact ⟨[],file,rfl,rfl,strict,by simp,fun i s there => ⟨i,rfl,there⟩⟩
  | cons added rest ih =>
    have first : totalSize (members (tableOf map file) added) < 2 ^ 32 := by
      refine Nat.lt_of_le_of_lt (totalSize_le fun s inside => ?_) small
      simp only [members,List.mem_append,List.flatten_cons] at inside ⊢
      tauto
    obtain ⟨mapping,out,made,outStrict,outMember,carries⟩ :=
      generation_keeps lib strict (free added List.mem_cons_self) first
    have some_ : tableOf map (some out) ≠ [] := by
      intro empty
      rw [empty] at outMember
      cases old : tableOf map file with
      | nil => simpa [old,members] using outMember []
      | cons s more => simpa [old,members] using outMember s
    have together (s : Text) : s ∈ members (tableOf map (some out)) rest.flatten ↔
        s ∈ members (tableOf map file) (added :: rest).flatten := by
      rw [members,if_neg some_,List.nil_append,List.mem_append,outMember s]
      simp only [members,List.mem_append,List.flatten_cons]
      tauto
    obtain ⟨mappings,last,run,length,lastStrict,lastMember,followed⟩ := ih (some out) outStrict
      (fun more member => free more (List.mem_cons_of_mem added member))
      (Nat.lt_of_le_of_lt (totalSize_le fun s inside => (together s).mp inside) small)
    refine ⟨mapping :: mappings,last,?_,by simp [length],lastStrict,fun _ s => ?_,fun i s there => ?_⟩
    · simp [generations,made,run]
    · by_cases more : rest = []
      · subst more
        simp only [generations,Option.some.injEq,Prod.mk.injEq] at run
        rw [← run.2,outMember s]
        simp
      · rw [lastMember more s,together s]
    · obtain ⟨id,sent,named⟩ := carries.2 i s there
      obtain ⟨final,through,names⟩ := followed id s named
      exact ⟨final,by rw [follow,sent]; exact through,names⟩

end

/-! ## A search and a map -/

/-- Looking at every element. -/
def linearSearch : Bsearch where
  search compare xs := xs.findIdx? fun x => compare x = 0
  found compare xs i here := by
    obtain ⟨inside,same,_⟩ := List.findIdx?_eq_some_iff_getElem.mp here
    exact ⟨xs[i],List.getElem?_eq_getElem inside,by simpa using same⟩
  missed compare xs _ nowhere x member := by
    simpa using List.findIdx?_eq_none_iff.mp nowhere x member

def insertOrdered (s : Text) : List Text → List Text
  | [] => [s]
  | v :: rest => if strcmp s v < 0 then s :: v :: rest else v :: insertOrdered s rest

theorem insertOrdered_perm (s : Text) (xs : List Text) : (insertOrdered s xs).Perm (s :: xs) := by
  induction xs with
  | nil => exact List.Perm.refl _
  | cons v rest ih =>
    rw [insertOrdered]
    split
    · exact List.Perm.refl _
    · exact (ih.cons v).trans (List.Perm.swap s v rest)

theorem insertOrdered_strict {s : Text} {xs : List Text} (strict : Strict strcmp xs) (fresh : s ∉ xs) :
    Strict strcmp (insertOrdered s xs) := by
  induction xs with
  | nil => simp [insertOrdered,Strict]
  | cons v rest ih =>
    obtain ⟨first,others⟩ := List.pairwise_cons.mp strict
    rw [insertOrdered]
    split
    case isTrue less =>
      refine List.pairwise_cons.mpr ⟨fun w member => ?_,strict⟩
      rcases List.mem_cons.mp member with here | later
      · rw [here]
        exact less
      · exact strcmp_total.lt_of_lt_of_le less (Int.le_of_lt (first w later))
    case isFalse notLess =>
      refine List.pairwise_cons.mpr ⟨fun w member => ?_,ih others fun inside => fresh (List.mem_cons_of_mem v inside)⟩
      rcases List.mem_cons.mp ((insertOrdered_perm s rest).mem_iff.mp member) with here | later
      · have different : strcmp v s ≠ 0 := fun same =>
          fresh (by rw [strcmp_zero.mp same]; exact List.mem_cons_self)
        have upTo := (strcmp_total.le_iff v s).mpr (Int.not_lt.mp notLess)
        rw [here]
        omega
      · exact first w later

/-- A map as the list of its strings. -/
def orderedList : MacroMap where
  Root := List Text
  empty := []
  find root s := s ∈ root
  insert root s := insertOrdered s root
  toList root := root
  empty_toList := rfl
  find_iff root s _ := by simp
  insert_strict root s strict fresh := insertOrdered_strict strict fresh
  insert_perm root s _ _ := insertOrdered_perm s root

/-- Two generations from nothing: first `b`, then `a`. -/
theorem generations_keep_two :
    ∃ mappings last, generations linearSearch orderedList none [[[98]],[[97]]] = some (mappings,last) ∧
      mappings.length = 2 ∧ Strict strcmp (tableOf orderedList last) ∧
      (∀ s, s ∈ tableOf orderedList last ↔ s ∈ members (tableOf orderedList none) [[98],[97]]) := by
  obtain ⟨mappings,last,run,length,strict,member,_⟩ := generations_keep linearSearch orderedList none [[[98]],[[97]]]
    List.Pairwise.nil (by decide) (by decide)
  exact ⟨mappings,last,run,length,strict,member (by decide)⟩

end AnotherC.StringTable
