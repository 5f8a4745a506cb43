import AnotherC.Search.StringTable

/-!
# `ac_string_table_lookup` and `ac_string_table_find`

A table that was saved is one buffer: the offsets, with their number in place of the first one,
and the strings behind them. The ids are the places of the offsets, and the word behind the last
offset is the beginning of the strings.
-/
namespace AnotherC.StringLookup
open AnotherC.Lib
open AnotherC.Lib.Bytes (bytes number number_bytes bytes_length)
open AnotherC.Lib.Order (Strict)
open AnotherC.Lib.Text (Text strcmp strcmp_total strcmp_zero stringAt joined)
open AnotherC.StringTable
set_option linter.unusedVariables false

section
variable {map : MacroMap}

/-! ## The operations -/

/-- `h->offsets[id]`: the strings are right behind the offsets, and nothing is behind the strings. -/
def wordAt (h : StringTable map) (id : Nat) : Option Nat :=
  let rest := (h.offsets.flatMap (bytes 4) ++ h.allStrings).drop (4 * id)
  if rest.length < 4 then none else some (number (rest.take 4))

/-- `ac_string_table_lookup`: an offset in `all_strings`, or NULL. -/
def acStringTableLookup (h : StringTable map) (id : Nat) : Option (Option Nat) :=
  if id ≤ h.numStrings then (wordAt h id).map some else some none

/-- `ac_string_table_find`. -/
def acStringTableFind (lib : Bsearch) (h : StringTable map) (s : Text) : Nat :=
  match searchStrings lib h s with
  | none => 0
  | some i => i % 2 ^ 32

/-- `ac_string_table_size`. -/
def acStringTableSize (h : StringTable map) : Nat := h.numStrings % 2 ^ 32

/-- The string at an offset, when it ends inside the file. -/
def readString (all : List UInt8) (offset : Nat) : Option Text :=
  if 0 ∈ all.drop offset then some (stringAt all offset) else none

/-! ## What is written -/

/-- The offsets of the strings, in 32 bits. -/
def offsets32 (ss : List Text) : List Nat := (offsetsFrom 0 ss).map (· % 2 ^ 32)

/-- The file of the strings. -/
def image (ss : List Text) : List UInt8 := ((offsets32 ss).set 0 ss.length).flatMap (bytes 4) ++ joined ss

/-- A file that `ac_string_table_save` writes, for a table that was opened with strings in order
    and to which others were added; `ss` are all of them in order. -/
def Written (map : MacroMap) (file : List UInt8) (ss : List Text) : Prop :=
  ∃ (h h' : StringTable map) (old added : List Text) (mapping : List Nat), Grown h old added ∧ old ++ added ≠ [] ∧
    (∀ s ∈ old ++ added, 0 ∉ s) ∧ acStringTableSave h = some (mapping,file,h') ∧
    Strict strcmp ss ∧ ∀ s, s ∈ ss ↔ s ∈ old ++ added

/-- Every string begins at its offset modulo 2^32. -/
def Placed (ss : List Text) : Prop :=
  ∀ (i o : Nat) s, ss[i]? = some s → (offsetsFrom 0 ss)[i]? = some o → stringAt (joined ss) (o % 2 ^ 32) = s

/-- The first pass writes the offsets modulo 2^32. -/
theorem pass_offsets (ys : List Taken) (pass : Pass) (at_ : Nat) (cur : pass.cur = at_ % 2 ^ 32) :
    (passOver oldOffset newOffset pass ys).offs = pass.offs ++ (offsetsFrom at_ (ys.map Prod.snd)).map (· % 2 ^ 32) := by
  induction ys generalizing pass at_ with
  | nil => simp [passOver,offsetsFrom]
  | cons y ys ih =>
    obtain ⟨mark,v⟩ := y
    have moved : (pass.cur + v.length + 1) % 2 ^ 32 = (at_ + v.length + 1) % 2 ^ 32 := by omega
    cases mark with
    | true =>
      rw [passOver_old,ih (oldOffset pass v) (at_ + v.length + 1) moved]
      simp only [oldOffset,newOffset,List.map_cons,offsetsFrom,cur,List.append_assoc,List.singleton_append]
    | false =>
      rw [passOver_new,ih (newOffset pass v) (at_ + v.length + 1) moved]
      simp only [newOffset,List.map_cons,offsetsFrom,cur,List.append_assoc,List.singleton_append]

theorem strict_unique {xs ys : List Text} (strictX : Strict strcmp xs) (strictY : Strict strcmp ys) (same : ∀ s, s ∈ xs ↔ s ∈ ys) : xs = ys := by
  have perm := (List.perm_ext_iff_of_nodup (Strict.nodup strictX) (Strict.nodup strictY)).mpr same
  refine List.Perm.eq_of_pairwise ?_ strictX strictY perm
  intro a b _ _ less more
  have swapped := (strcmp_total.swap a b).mp less
  omega

theorem written_image {file : List UInt8} {ss : List Text} (written : Written map file ss) :
    file = image ss ∧ ss.length < 2 ^ 32 ∧ ss ≠ [] ∧ ∀ s ∈ ss, 0 ∉ s := by
  obtain ⟨h,h',old,added,mapping,grown,some_,free,saved,strict,member⟩ := written
  obtain ⟨ys,merged⟩ := merges grown.strict grown.newStrict fun s inOld inNew => ((grown.new s).mp inNew).1 inOld
  have members_ (s : Text) : s ∈ ys.map Prod.snd ↔ s ∈ ss := by
    rw [merged.perm.mem_iff,List.mem_append,grown.new,member,List.mem_append]
    tauto
  have same : ys.map Prod.snd = ss := strict_unique merged.strict strict members_
  have offs := pass_offsets ys ⟨[],[],0⟩ 0 rfl
  rw [same,List.nil_append] at offs
  rw [acStringTableSave,grown.are] at saved
  simp only [merged.runs,Option.bind_eq_bind,Option.bind_some,offs,second_pass,same,List.length_map,offsetsFrom_length] at saved
  by_cases count : (h.mapSize + h.numStrings) % 2 ^ 32 = ss.length
  · rw [if_neg (not_not_intro count)] at saved
    simp only [Option.some.injEq,Prod.mk.injEq] at saved
    refine ⟨?_,?_,?_,fun s inside => free s ((member s).mp inside)⟩
    · rw [← saved.2.1,count]
      rfl
    · rw [← count]
      exact Nat.mod_lt _ (by decide)
    · obtain ⟨s,inside⟩ := List.exists_mem_of_ne_nil _ some_
      exact List.ne_nil_of_mem ((member s).mpr inside)
  · rw [if_pos count] at saved
    cases saved

/-! ## What is read -/

theorem offsetsFrom_lt (at_ : Nat) (ss : List Text) : ∀ o ∈ offsetsFrom at_ ss, o < at_ + (joined ss).length := by
  induction ss generalizing at_ with
  | nil => exact fun o inside => absurd inside List.not_mem_nil
  | cons s ss ih =>
    intro o inside
    rw [Text.joined_cons,List.length_append,List.length_cons]
    cases List.mem_cons.mp inside with
    | inl here => omega
    | inr later =>
      have bound := ih _ o later
      omega

theorem offsets32_length (ss : List Text) : (offsets32 ss).length = ss.length := by rw [offsets32,List.length_map,offsetsFrom_length]

theorem loaded {file : List UInt8} {ss : List Text} (written : Written map file ss) :
    acStringTableInit map (some file) = ⟨joined ss,offsets32 ss,ss.length,map.empty,0⟩ := by
  obtain ⟨rfl,count,some_,-⟩ := written_image written
  have bound : ∀ w ∈ offsets32 ss, w < 2 ^ 32 := by
    intro w inside
    obtain ⟨o,-,rfl⟩ := List.mem_map.mp inside
    exact Nat.mod_lt _ (by decide)
  have first : (offsets32 ss).head? = some 0 := by
    rw [offsets32,List.head?_map,offsetsFrom_head some_]
    rfl
  have read := init_written map (joined ss) first bound (by rw [offsets32_length]; exact count)
  rw [offsets32_length] at read
  exact read

theorem drop_words (ws : List Nat) (rest : List UInt8) {i : Nat} (inside : i ≤ ws.length) :
    (ws.flatMap (bytes 4) ++ rest).drop (4 * i) = (ws.drop i).flatMap (bytes 4) ++ rest := by
  induction ws generalizing i with
  | nil =>
    obtain rfl := Nat.le_zero.mp inside
    rfl
  | cons w ws ih =>
    cases i with
    | zero => rfl
    | succ i =>
      rw [List.flatMap_cons,List.append_assoc,Nat.mul_succ,Nat.add_comm,← List.drop_drop,List.drop_left' (bytes_length 4 w),
        ih (Nat.le_of_succ_le_succ inside),List.drop_succ_cons]

section
variable {h : StringTable map} {ss : List Text} (table : h = ⟨joined ss,offsets32 ss,ss.length,map.empty,0⟩)
include table

/-- The word of an id is its offset. -/
theorem wordAt_offset {i o : Nat} (offset : (offsetsFrom 0 ss)[i]? = some o) : wordAt h i = some (o % 2 ^ 32) := by
  have word : (offsets32 ss)[i]? = some (o % 2 ^ 32) := by rw [offsets32,List.getElem?_map,offset]; rfl
  obtain ⟨inside,same⟩ := List.getElem?_eq_some_iff.mp word
  have split : (offsets32 ss).drop i = o % 2 ^ 32 :: (offsets32 ss).drop (i + 1) := by
    rw [← same]
    exact List.drop_eq_getElem_cons inside
  subst table
  rw [wordAt,drop_words _ _ (Nat.le_of_lt inside),split,List.flatMap_cons,List.append_assoc]
  simp only [List.length_append,bytes_length]
  rw [if_neg (by omega),List.take_left' (bytes_length 4 _),number_bytes]
  exact congrArg some (Nat.mod_mod _ _)

/-- Every offset is the beginning of something that ends inside the file. -/
theorem offset_inside (o : Nat) (member : o ∈ offsets32 ss) : readString h.allStrings o = some (stringAt h.allStrings o) := by
  obtain ⟨o',inside,rfl⟩ := List.mem_map.mp member
  have bound := offsetsFrom_lt 0 ss o' inside
  have small := Nat.mod_le o' (2 ^ 32)
  obtain ⟨front,whole⟩ : ∃ front, joined ss = front ++ [0] := by
    rcases List.eq_nil_or_concat ss with rfl | ⟨before,s,rfl⟩
    · exact absurd inside List.not_mem_nil
    · exact ⟨joined before ++ s,by simp⟩
  subst table
  rw [readString,if_pos]
  change 0 ∈ (joined ss).drop (o' % 2 ^ 32)
  rw [whole,List.length_append,List.length_singleton] at bound
  rw [whole,List.drop_append_of_le_length (by omega)]
  exact List.mem_append_right _ List.mem_cons_self

theorem strings_placed (placed : Placed ss) : strings h = ss := by
  subst table
  refine List.ext_getElem? fun i => ?_
  rw [strings,List.getElem?_map,offsets32,List.getElem?_map]
  cases offset : (offsetsFrom 0 ss)[i]? with
  | none =>
    have beyond := List.getElem?_eq_none_iff.mp offset
    rw [offsetsFrom_length] at beyond
    rw [List.getElem?_eq_none beyond]
    rfl
  | some o =>
    obtain ⟨inside,-⟩ := List.getElem?_eq_some_iff.mp offset
    rw [offsetsFrom_length] at inside
    have here := List.getElem?_eq_getElem inside
    rw [here]
    exact congrArg some (placed i o _ here offset)

/-- The id behind the last one is not taken for one that is out of bounds. -/
theorem lookup_last : acStringTableLookup h ss.length ≠ some none := by
  subst table
  rw [acStringTableLookup,if_pos (Nat.le_refl _)]
  intro same
  obtain ⟨o,-,null⟩ := Option.map_eq_some_iff.mp same
  cases null

end

/-! ## What the table is for -/

/-- The ids below the size are those of the strings, both ways; `id` is NULL where it is not one
    of them; no other string is found, and every string that a search compares is in the file. -/
structure Right (lib : Bsearch) (h : StringTable map) (ss : List Text) (id : Nat) : Prop where
  size : acStringTableSize h = ss.length
  lookup : ∀ (i : Nat) s, ss[i]? = some s → ∃ o, acStringTableLookup h i = some (some o) ∧ readString h.allStrings o = some s
  null : ss.length ≤ id → acStringTableLookup h id = some none
  find : ∀ (i : Nat) s, ss[i]? = some s → acStringTableFind lib h s = i
  missed : ∀ s, s ∉ ss → acStringTableFind lib h s = 0
  inside : ∀ o ∈ h.offsets, ∃ s, readString h.allStrings o = some s

/-- Strings that take less than 2^32 bytes are placed. -/
theorem placed_of_small {ss : List Text} (free : ∀ s ∈ ss, 0 ∉ s) (small : (ss.map fun s => s.length + 1).sum < 2 ^ 32) : Placed ss := by
  intro i o s here offset
  have bound := offsetsFrom_le 0 ss o (List.mem_of_getElem? offset)
  rw [Nat.mod_eq_of_lt (by omega)]
  have all := offsetsFrom_strings [] ss free
  have one := congrArg (fun l : List Text => l[i]?) all
  simp only [Text.joined_nil,List.length_nil,List.nil_append,List.getElem?_map,offset,here,Option.map_some,Option.some.injEq] at one
  exact one

theorem Right.placed {lib : Bsearch} {h : StringTable map} {ss : List Text} {id : Nat} (table : h = ⟨joined ss,offsets32 ss,ss.length,map.empty,0⟩)
    (right : Right lib h ss id) : Placed ss := by
  intro i o s here offset
  obtain ⟨o',looked,read⟩ := right.lookup i s here
  obtain ⟨inside,-⟩ := List.getElem?_eq_some_iff.mp here
  have within : i ≤ h.numStrings := by
    rw [table]
    exact Nat.le_of_lt inside
  rw [acStringTableLookup,if_pos within,wordAt_offset table offset] at looked
  cases looked
  have word : (offsets32 ss)[i]? = some (o % 2 ^ 32) := by rw [offsets32,List.getElem?_map,offset]; rfl
  rw [offset_inside table _ (List.mem_of_getElem? word),table] at read
  exact Option.some.inj read

/-- Where every string is at its offset, the ids and the strings are right but for the id behind
    the last one. -/
theorem right_of_placed (lib : Bsearch) {h : StringTable map} {ss : List Text} {id : Nat}
    (table : h = ⟨joined ss,offsets32 ss,ss.length,map.empty,0⟩) (count : ss.length < 2 ^ 32) (strict : Strict strcmp ss)
    (placed : Placed ss) (other : id ≠ ss.length) : Right lib h ss id := by
  have all := strings_placed table placed
  have blank : Grown h ss [] := by
    refine ⟨all,strict,by rw [table],?_,?_,fun s => ?_⟩
    · rw [table,map.empty_toList]
      exact List.Pairwise.nil
    · rw [table,map.empty_toList]
      rfl
    · rw [table,map.empty_toList]
      simp
  refine ⟨?_,?_,?_,?_,?_,?_⟩
  · rw [table]
    exact Nat.mod_eq_of_lt count
  · intro i s here
    obtain ⟨inside,-⟩ := List.getElem?_eq_some_iff.mp here
    obtain ⟨o,offset⟩ : ∃ o, (offsetsFrom 0 ss)[i]? = some o := by
      rw [← offsetsFrom_length 0 ss] at inside
      exact ⟨_,List.getElem?_eq_getElem inside⟩
    have word : (offsets32 ss)[i]? = some (o % 2 ^ 32) := by rw [offsets32,List.getElem?_map,offset]; rfl
    have within : i ≤ h.numStrings := by
      rw [table]
      exact Nat.le_of_lt inside
    refine ⟨_,by rw [acStringTableLookup,if_pos within,wordAt_offset table offset]; rfl,?_⟩
    rw [offset_inside table _ (List.mem_of_getElem? word),table]
    exact congrArg some (placed i _ s here offset)
  · intro beyond
    have outside : ¬ id ≤ h.numStrings := by
      rw [table]
      exact Nat.not_le.mpr (Nat.lt_of_le_of_ne beyond other.symm)
    rw [acStringTableLookup,if_neg outside]
  · intro i s here
    cases found : searchStrings lib h s with
    | none => exact absurd (List.mem_of_getElem? here) ((blank.search s).mp found)
    | some j =>
      obtain ⟨o,there,same⟩ := lib.found _ _ _ found
      have second : ss[j]? = some s := by
        rw [← all,strings,List.getElem?_map,there,Option.map_some,← strcmp_zero.mp same]
      obtain ⟨insideI,-⟩ := List.getElem?_eq_some_iff.mp here
      have equal : j = i := by
        obtain ⟨insideJ,atJ⟩ := List.getElem?_eq_some_iff.mp second
        exact (Strict.nodup strict).getElem_inj_iff.mp (atJ.trans (List.getElem?_eq_some_iff.mp here).2.symm)
      rw [acStringTableFind,found,equal]
      exact Nat.mod_eq_of_lt (Nat.lt_trans insideI count)
  · intro s outside
    rw [acStringTableFind,(blank.search s).mpr outside]
  · intro o inside
    rw [table] at inside
    exact ⟨_,offset_inside table o inside⟩

/-- A saved table answers as documented for every id but the number of its strings, when its
    strings are where their offsets in 32 bits say. -/
theorem lookup_find_iff (lib : Bsearch) {file : List UInt8} {ss : List Text} (written : Written map file ss) (id : Nat) :
    Right lib (acStringTableInit map (some file)) ss id ↔ id ≠ ss.length ∧ Placed ss := by
  have table := loaded written
  obtain ⟨-,count,-⟩ := written_image written
  have strict : Strict strcmp ss := by
    obtain ⟨h,h',old,added,mapping,grown,some_,free,saved,strict,member⟩ := written
    exact strict
  constructor
  · intro right
    refine ⟨?_,right.placed table⟩
    rintro rfl
    exact lookup_last table (right.null (Nat.le_refl _))
  · rintro ⟨other,placed⟩
    exact right_of_placed lib table count strict placed other

end

/-! ## The table of the empty string -/

/-- The table that was opened without a file. -/
def emptyTable : StringTable orderedList := acStringTableExpand linearSearch (acStringTableInit orderedList none)

theorem written_empty : Written orderedList [1,0,0,0,0] [[]] := by
  have grown : Grown emptyTable [] [[]] := Grown.expand linearSearch List.Pairwise.nil
  have saved : acStringTableSave emptyTable = some ([],[1,0,0,0,0],{ emptyTable with root := orderedList.empty, mapSize := 0 }) := by
    have news : orderedList.toList emptyTable.root = [[]] := rfl
    have olds : strings emptyTable = [] := rfl
    have count : (emptyTable.mapSize + emptyTable.numStrings) % 2 ^ 32 = 1 := rfl
    have file : ([0].set 0 1).flatMap (bytes 4) = [1,0,0,0] := rfl
    simp only [acStringTableSave,news,olds,count,mergeLoop,newOffset,writeString,List.nil_append,List.length_singleton,
      Option.bind_eq_bind,Option.bind_some,file]
    rfl
  exact ⟨emptyTable,_,[],[[]],[],grown,by simp,by simp,saved,List.pairwise_singleton _ _,by simp⟩

/-- The file of the empty string. -/
theorem lookup_find_empty : Right linearSearch (acStringTableInit orderedList (some [1,0,0,0,0])) [[]] 0 :=
  (lookup_find_iff linearSearch written_empty 0).mpr ⟨by decide,placed_of_small (by simp) (by decide)⟩

/-- In the file of the empty string, five bytes, the id 1 is read from the bytes 4 to 7. -/
theorem lookup_one_past : Written orderedList [1,0,0,0,0] [[]] ∧
    acStringTableLookup (acStringTableInit orderedList (some [1,0,0,0,0])) 1 = none ∧
      ¬ Right linearSearch (acStringTableInit orderedList (some [1,0,0,0,0])) [[]] 1 := by
  have undefined_ : acStringTableLookup (acStringTableInit orderedList (some [1,0,0,0,0])) 1 = none := rfl
  refine ⟨written_empty,undefined_,fun right => ?_⟩
  rw [right.null (Nat.le_refl 1)] at undefined_
  cases undefined_

end AnotherC.StringLookup
