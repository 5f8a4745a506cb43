import AnotherC.Search.ImageTerms
import AnotherC.Search.StringTable

/-!
# Prefix queries: `ac_search_builder_wterm`, `ac_search_builder_image_term`

With a term the builder adds each of its beginnings, down to the shortest length, with a
`*` after it; the query `w*` looks for such an entry. `prefix_query_exact` says that
it finds the documents with a term that starts with `w`, and each of them once. A posting
whose position has more than 14 bits is not added at all.
-/
namespace AnotherC.PrefixQuery
open AnotherC.Lib.Bytes AnotherC.Lib.Runs AnotherC.Lib.Scan AnotherC.Lib.Text
open AnotherC.ImageGroups AnotherC.ImageReader AnotherC.ImageTerms
open AnotherC.Lib.Order (Total Strict)
open AnotherC.StringTable (Bsearch linearSearch)
set_option linter.unusedVariables false

/-! ## Building -/

/-- A record of `term_data`: a `term_data_t` of ten bytes, and a string. -/
structure TermRecord where
  data : TermData
  term : Text
deriving DecidableEq, Repr

/-- `r->length`. -/
def recordLength (r : TermRecord) : Nat := 10 + (r.term.length + 1)

/-- `write_sorted_record` of the sorted output, which refuses long records. -/
def writeRecord (h : List TermRecord) (r : TermRecord) : List TermRecord :=
  if recordLength r > 0xffffffff then h else h ++ [r]

def acSearchBuilderTerm (h : List TermRecord) (data : TermData) (term : Text) : List TermRecord :=
  if data.position > 0x3FFF then h else writeRecord h ⟨data,term⟩

/-- The loop of `ac_search_builder_wterm` from `i` down, over the buffer `r`. -/
def addPrefixes (h : List TermRecord) (data : TermData) (sp : Nat) (r : List UInt8) : Nat → List TermRecord
  | 0 => h
  | i + 1 =>
    if i + 1 > sp then
      let r := (r.set (i + 1) 0).set i 42
      addPrefixes (acSearchBuilderTerm h data (stringAt r 0)) data sp r i
    else h

/-- The byte that `strcpy` does not write is any. -/
def acSearchBuilderWterm (sp : Nat) (spare : UInt8) (h : List TermRecord) (a : TermRecord) : List TermRecord :=
  let h := acSearchBuilderTerm h a.data a.term
  addPrefixes h a.data sp (a.term ++ [0] ++ [spare]) (a.term.length + 1)

def compareTermData (a b : TermRecord) : Int :=
  if strcmp a.term b.term ≠ 0 then strcmp a.term b.term
  else if a.data.id ≠ b.data.id then
    if a.data.id < b.data.id then -1 else 1
  else if a.data.position ≠ b.data.position then
    if a.data.position < b.data.position then -1 else 1
  else 0

/-- `offs`, and the two files of `ac_search_builder_destroy` for the terms. -/
structure TermFiles where
  offs : Nat
  termIdx : List UInt8
  termData : List UInt8
deriving DecidableEq

/-- What is written for the records of a term. -/
def writeTerm (out : TermFiles) : List TermRecord → TermFiles
  | [] => out
  | r :: more =>
    let ds := (r :: more).map TermRecord.data
    let outBh := encodeTerm ds
    let len := outBh.length % 2 ^ 32
    { offs := (out.offs + (len + 4) % 2 ^ 32) % 2 ^ 64
      termIdx := out.termIdx ++ (r.term ++ [0] ++ bytes 8 out.offs ++ bytes 4 (maxTermSize ds))
      termData := out.termData ++ (bytes 4 len ++ outBh.take len) }

/-- The files, when the sorted output delivers `delivered`. -/
def acSearchBuilderDestroy (delivered : List TermRecord) : TermFiles :=
  (runs TermRecord.term delivered).foldl writeTerm ⟨4,[],[]⟩

/-! ## Reading -/

/-- The places of the terms in the index, from `p` on. -/
def indexTerms (idx : List UInt8) (p : Nat) : List Nat :=
  if p < idx.length then p :: indexTerms idx (p + (stringAt idx p).length + 1 + 12) else []
termination_by idx.length - p

/-- The part of `ac_search_builder_image_t` that terms use; a pointer into `term_idx` is
    its offset there. -/
structure Image where
  termIdx : List UInt8
  terms : List Nat
  termData : List UInt8
deriving DecidableEq

def acSearchBuilderImageInit (files : TermFiles) : Image :=
  ⟨files.termIdx,indexTerms files.termIdx 0,files.termData⟩

/-- `search_strings`, the pointer itself. -/
def searchStrings (lib : Bsearch) (img : Image) (term : Text) : Option Nat :=
  (lib.search (fun p => strcmp term (stringAt img.termIdx p)) img.terms).bind fun i => img.terms[i]?

/-- The reader of the term at `p` of the index. -/
def acSearchBuilderFillTerm (img : Image) (p : Nat) : ImageTerm :=
  let p := p + (stringAt img.termIdx p).length + 1
  fillTerm img.termData (number ((img.termIdx.drop p).take 8))

def acSearchBuilderImageTerm (lib : Bsearch) (img : Image) (term : Text) : Option ImageTerm :=
  match searchStrings lib img term with
  | some p => some (acSearchBuilderFillTerm img p)
  | none =>
    if term ≠ [] ∧ term.getLast? = some 42 then
      (searchStrings lib img term.dropLast).map fun p => acSearchBuilderFillTerm img p
    else none

/-! ## What is added -/

/-- A term that the builder stores, and its beginnings with it: a C string, with a position
    that is taken and a length that the records have room for. -/
structure Stored (a : TermRecord) : Prop where
  free : 0 ∉ a.term
  accepted : Accepted a.data
  short : a.term.length + 12 ≤ 0xffffffff

/-- The records that are written for the terms. -/
def written (sp : Nat) (spare : UInt8) (adds : List TermRecord) : List TermRecord :=
  adds.foldl (acSearchBuilderWterm sp spare) []

/-- The beginnings of a term that are added with a `*`, the longest first. -/
def starred (sp : Nat) (term : Text) : Nat → List Text
  | 0 => []
  | i + 1 => if i + 1 > sp then (term.take i ++ [42]) :: starred sp term i else []

section
variable {h : List TermRecord} {a r : TermRecord} {data : TermData} {sp i : Nat} {spare : UInt8} {term : Text}

theorem acSearchBuilderTerm_stored (position : data.position ≤ 0x3FFF) (short : term.length + 11 ≤ 0xffffffff) :
    acSearchBuilderTerm h data term = h ++ [⟨data,term⟩] := by
  rw [acSearchBuilderTerm,if_neg (by omega),writeRecord,if_neg (by rw [recordLength]; simp only; omega)]

/-- The string in the buffer when it has been cut at `i`. -/
theorem stringAt_cut {buffer : List UInt8} (free : 0 ∉ term) (inside : i ≤ term.length) (same : buffer.take i = term.take i)
    (room : i + 1 < buffer.length) : stringAt ((buffer.set (i + 1) 0).set i 42) 0 = term.take i ++ [42] := by
  have front : ((buffer.set (i + 1) 0).set i 42).take (i + 2) = term.take i ++ [42] ++ [0] := by
    rw [← same]
    apply List.ext_getElem?
    intro n
    rw [List.getElem?_take]
    by_cases early : n < i
    · rw [if_pos (by omega),List.getElem?_set_ne (by omega),List.getElem?_set_ne (by omega),List.append_assoc,
        List.getElem?_append_left (by rw [List.length_take]; omega),List.getElem?_take,if_pos early]
    · have length : (buffer.take i).length = i := by
        rw [List.length_take]
        omega
      rw [List.append_assoc,List.getElem?_append_right (by omega),length]
      by_cases first : n = i
      · subst first
        rw [if_pos (by omega),List.getElem?_set_self (by rw [List.length_set]; omega),Nat.sub_self]
        rfl
      · by_cases second : n = i + 1
        · subst second
          rw [if_pos (by omega),List.getElem?_set_ne (by omega),List.getElem?_set_self (by omega),Nat.add_sub_cancel_left]
          rfl
        · rw [if_neg (by omega),List.getElem?_eq_none (by simp; omega)]
  have split : (buffer.set (i + 1) 0).set i 42 =
      term.take i ++ [42] ++ [0] ++ ((buffer.set (i + 1) 0).set i 42).drop (i + 2) := by
    rw [← front,List.take_append_drop]
  rw [stringAt,List.drop_zero,split,List.append_assoc,List.takeWhile_append_of_pos]
  · simp
  · intro c member
    have nonzero : c ≠ 0 := by
      rintro rfl
      rcases List.mem_append.mp member with early | star
      · exact free (List.mem_of_mem_take early)
      · simp at star
    simpa using nonzero

/-- The loop adds every beginning, though each is cut out of the buffer of the one before. -/
theorem addPrefixes_spec {buffer : List UInt8} (free : 0 ∉ term) (position : data.position ≤ 0x3FFF)
    (short : term.length + 12 ≤ 0xffffffff) (inside : i ≤ term.length + 1) (same : buffer.take (i - 1) = term.take (i - 1))
    (room : i < buffer.length) :
    addPrefixes h data sp buffer i = h ++ (starred sp term i).map fun s => ⟨data,s⟩ := by
  induction i generalizing h buffer with
  | zero => exact (List.append_nil h).symm
  | succ i ih =>
    rw [addPrefixes,starred]
    by_cases more : i + 1 > sp
    · rw [if_pos more,if_pos more]
      have same' : buffer.take i = term.take i := same
      have cut := stringAt_cut free (by omega) same' room
      have length : (term.take i ++ [42]).length + 11 ≤ 0xffffffff := by
        rw [List.length_append,List.length_take,List.length_singleton]
        omega
      simp only [cut]
      rw [acSearchBuilderTerm_stored position length,ih (by omega) ?_ (by rw [List.length_set,List.length_set]; omega),
        List.append_assoc]
      · rfl
      · have earlier := congrArg (List.take (i - 1)) same'
        rw [List.take_take,List.take_take,Nat.min_eq_left (by omega)] at earlier
        rw [List.take_set_of_le (by omega),List.take_set_of_le (by omega)]
        exact earlier
    · rw [if_neg more,if_neg more]
      exact (List.append_nil h).symm

/-- The records that are written for a term. -/
def recordsOf (sp : Nat) (a : TermRecord) : List TermRecord :=
  a :: (starred sp a.term (a.term.length + 1)).map fun s => ⟨a.data,s⟩

theorem wterm_spec (stored : Stored a) : acSearchBuilderWterm sp spare h a = h ++ recordsOf sp a := by
  have short := stored.short
  rw [acSearchBuilderWterm,acSearchBuilderTerm_stored stored.accepted.position (by omega),
    addPrefixes_spec stored.free stored.accepted.position short (Nat.le_refl _) ?_ ?_,recordsOf,List.append_assoc]
  · rfl
  · rw [Nat.add_sub_cancel,List.append_assoc,List.take_append_of_le_length (Nat.le_refl _)]
  · simp

theorem written_spec {adds : List TermRecord} (stored : ∀ a ∈ adds, Stored a) :
    written sp spare adds = adds.flatMap (recordsOf sp) := by
  have step : ∀ adds : List TermRecord, (∀ a ∈ adds, Stored a) → ∀ h,
      adds.foldl (acSearchBuilderWterm sp spare) h = h ++ adds.flatMap (recordsOf sp) := by
    intro adds
    induction adds with
    | nil => exact fun _ h => (List.append_nil h).symm
    | cons a adds ih =>
      intro stored h
      rw [List.foldl_cons,wterm_spec (stored a (by simp)),ih (fun b member => stored b (by simp [member])),
        List.flatMap_cons,List.append_assoc]
  exact step adds stored []

theorem mem_starred {s : Text} : s ∈ starred sp term i ↔ ∃ k, sp ≤ k ∧ k < i ∧ s = term.take k ++ [42] := by
  induction i with
  | zero => simp [starred]
  | succ i ih =>
    rw [starred]
    by_cases more : i + 1 > sp
    · rw [if_pos more,List.mem_cons,ih]
      constructor
      · rintro (rfl | ⟨k,from_,below,rfl⟩)
        · exact ⟨i,by omega,by omega,rfl⟩
        · exact ⟨k,from_,by omega,rfl⟩
      · rintro ⟨k,from_,below,rfl⟩
        by_cases last : k = i
        · exact .inl (by rw [last])
        · exact .inr ⟨k,from_,by omega,rfl⟩
    · rw [if_neg more]
      constructor
      · exact fun no => by cases no
      · rintro ⟨k,from_,below,_⟩
        omega

end

/-! ## The files -/

/-- What the sorted output delivers of the records: one of those with the same string, id
    and position, in their order. -/
structure Sorts (records delivered : List TermRecord) : Prop where
  strict : Strict compareTermData delivered
  some_ : ∀ r ∈ delivered, r ∈ records
  all : ∀ r ∈ records, ∃ d ∈ delivered, compareTermData d r = 0

/-- The postings of a run of records. -/
def postingsOf (run : List TermRecord) : List TermData := run.map TermRecord.data

/-- The lengths fit where they are written. -/
structure WithinLimits (delivered : List TermRecord) : Prop where
  groups : ∀ run ∈ runs TermRecord.term delivered, ∀ g ∈ runs groupOf (postingsOf run), groupSize g ≤ 4194303
  terms : ∀ run ∈ runs TermRecord.term delivered, (encodeTerm (postingsOf run)).length + 4 < 2 ^ 32
  whole : 4 + ((runs TermRecord.term delivered).map fun run => (encodeTerm (postingsOf run)).length + 4).sum < 2 ^ 64

/-- An entry of the index. -/
structure Entry where
  term : Text
  offs : Nat
  maxTermSize : Nat

def entryBytes (e : Entry) : List UInt8 := e.term ++ [0] ++ bytes 8 e.offs ++ bytes 4 e.maxTermSize

/-- The entry of a run, and its postings in the data. -/
structure Indexes (data : List UInt8) (run : List TermRecord) (e : Entry) : Prop where
  term : ∀ r ∈ run, r.term = e.term
  large : 4 ≤ e.offs
  small : e.offs < 2 ^ 64
  stored : bytes 4 (encodeTerm (postingsOf run)).length ++ encodeTerm (postingsOf run) <+: data.drop (e.offs - 4)

/-- The files after the runs `done`. -/
structure Laid (done : List (List TermRecord)) (entries : List Entry) (out : TermFiles) : Prop where
  index : out.termIdx = entries.flatMap entryBytes
  entries : List.Forall₂ (Indexes out.termData) done entries
  offs : out.offs = 4 + out.termData.length
  length : out.termData.length = (done.map fun run => (encodeTerm (postingsOf run)).length + 4).sum

section
variable {records delivered : List TermRecord} {done : List (List TermRecord)} {run : List TermRecord} {entries : List Entry}
  {out : TermFiles} {data data' : List UInt8} {e : Entry}

theorem Indexes.append (indexes : Indexes data run e) : Indexes (data ++ data') run e :=
  ⟨indexes.term,indexes.large,indexes.small,indexes.stored.trans (List.IsPrefix.drop (List.prefix_append _ _) _)⟩

theorem Laid.step (laid : Laid done entries out) (some_ : run ≠ []) (same : ∀ r ∈ run, ∀ r' ∈ run, r.term = r'.term)
    (short : (encodeTerm (postingsOf run)).length + 4 < 2 ^ 32)
    (room : 4 + ((done ++ [run]).map fun run => (encodeTerm (postingsOf run)).length + 4).sum < 2 ^ 64) :
    ∃ entries', Laid (done ++ [run]) entries' (writeTerm out run) := by
  obtain ⟨r,more,rfl⟩ := List.exists_cons_of_ne_nil some_
  have offs := laid.offs
  have length := laid.length
  rw [List.map_append,List.sum_append,List.map_singleton,List.sum_singleton] at room
  have len : (encodeTerm (postingsOf (r :: more))).length % 2 ^ 32 = (encodeTerm (postingsOf (r :: more))).length :=
    Nat.mod_eq_of_lt (by omega)
  have wrote : writeTerm out (r :: more) = {
      offs := out.offs + ((encodeTerm (postingsOf (r :: more))).length + 4)
      termIdx := out.termIdx ++ entryBytes ⟨r.term,out.offs,maxTermSize (postingsOf (r :: more))⟩
      termData := out.termData ++ (bytes 4 (encodeTerm (postingsOf (r :: more))).length ++ encodeTerm (postingsOf (r :: more))) } := by
    have sum : (out.offs + ((encodeTerm (postingsOf (r :: more))).length + 4) % 2 ^ 32) % 2 ^ 64 =
        out.offs + ((encodeTerm (postingsOf (r :: more))).length + 4) := by omega
    have whole : (encodeTerm (postingsOf (r :: more))).take (encodeTerm (postingsOf (r :: more))).length =
        encodeTerm (postingsOf (r :: more)) := List.take_of_length_le (Nat.le_refl _)
    rw [postingsOf] at len sum whole ⊢
    rw [writeTerm]
    simp only [len,sum,whole]
    rfl
  refine ⟨entries ++ [⟨r.term,out.offs,maxTermSize (postingsOf (r :: more))⟩],?_⟩
  rw [wrote]
  constructor
  case index => rw [laid.index,List.flatMap_append,List.flatMap_singleton]
  case entries =>
    refine List.rel_append (laid.entries.imp fun _ _ indexes => indexes.append) (.cons ?_ .nil)
    refine ⟨fun q member => same q member r (by simp),by simp only; omega,by simp only; omega,?_⟩
    have past : out.offs - 4 = out.termData.length := by omega
    simp only
    rw [past,List.drop_left]
  case offs =>
    simp only [List.length_append,bytes_length]
    omega
  case length =>
    simp only [List.length_append,bytes_length,List.map_append,List.sum_append,List.map_singleton,List.sum_singleton]
    omega

theorem Laid.all {rest : List (List TermRecord)} (laid : Laid done entries out) (some_ : ∀ run ∈ rest, run ≠ [])
    (same : ∀ run ∈ rest, ∀ r ∈ run, ∀ r' ∈ run, r.term = r'.term)
    (short : ∀ run ∈ rest, (encodeTerm (postingsOf run)).length + 4 < 2 ^ 32)
    (room : 4 + ((done ++ rest).map fun run => (encodeTerm (postingsOf run)).length + 4).sum < 2 ^ 64) :
    ∃ entries', Laid (done ++ rest) entries' (rest.foldl writeTerm out) := by
  induction rest generalizing done entries out with
  | nil => exact ⟨entries,by rwa [List.append_nil]⟩
  | cons run rest ih =>
    have split : done ++ run :: rest = (done ++ [run]) ++ rest := by simp
    rw [split] at room ⊢
    have first : 4 + ((done ++ [run]).map fun run => (encodeTerm (postingsOf run)).length + 4).sum < 2 ^ 64 := by
      rw [List.map_append,List.sum_append] at room
      omega
    obtain ⟨entries',laid'⟩ := laid.step (some_ run (by simp)) (same run (by simp)) (short run (by simp)) first
    exact ih laid' (fun other member => some_ other (by simp [member])) (fun other member => same other (by simp [member]))
      (fun other member => short other (by simp [member])) room

/-- The places that are found in the index are those of its entries. -/
theorem indexTerms_spec (idx front : List UInt8) (entries : List Entry) (shape : idx = front ++ entries.flatMap entryBytes)
    (free : ∀ e ∈ entries, 0 ∉ e.term) :
    List.Forall₂ (fun e p => ∃ after, idx.drop p = entryBytes e ++ after) entries (indexTerms idx front.length) := by
  induction entries generalizing front with
  | nil =>
    rw [indexTerms,if_neg (by rw [shape]; simp)]
    exact .nil
  | cons e entries ih =>
    have here : idx.drop front.length = entryBytes e ++ entries.flatMap entryBytes := by
      rw [shape,List.drop_left,List.flatMap_cons]
    have length : (entryBytes e).length = e.term.length + 1 + 12 := by
      rw [entryBytes]
      simp only [List.length_append,bytes_length,List.length_singleton]
    have more : front.length < idx.length := by
      rw [shape,List.length_append,List.flatMap_cons,List.length_append,length]
      omega
    have string : stringAt idx front.length = e.term := by
      rw [stringAt,here,entryBytes,List.append_assoc,List.append_assoc,List.append_assoc,List.takeWhile_append_of_pos]
      · simp
      · intro c member
        have nonzero : c ≠ 0 := fun zero => free e (by simp) (by rwa [← zero])
        simpa using nonzero
    have next : front.length + e.term.length + 1 + 12 = (front ++ entryBytes e).length := by
      rw [List.length_append,length]
      omega
    rw [indexTerms,if_pos more,string,next]
    refine .cons ⟨_,here⟩ (ih (front ++ entryBytes e) ?_ fun other member => free other (by simp [member]))
    rw [shape,List.flatMap_cons,List.append_assoc]

/-- A term of the image, and the ids that its reader delivers. -/
structure Lists (img : Image) (run : List TermRecord) (p : Nat) : Prop where
  term : ∀ r ∈ run, stringAt img.termIdx p = r.term
  ids : ∃ listed : List Nat, listed.Pairwise (· < ·) ∧ (∀ id, id ∈ listed ↔ ∃ r ∈ run, r.data.id = id) ∧
    ∀ fuel, listed.length < fuel → enumerate fuel (acSearchBuilderFillTerm img p) = some listed

theorem compare_same {a b : TermRecord} (same : compareTermData a b = 0) :
    a.term = b.term ∧ a.data.id = b.data.id ∧ a.data.position = b.data.position := by
  rw [compareTermData] at same
  by_cases term : strcmp a.term b.term ≠ 0
  · rw [if_pos term] at same
    exact absurd same term
  · rw [if_neg term] at same
    have equal := strcmp_zero.mp (Decidable.not_not.mp term)
    by_cases id : a.data.id ≠ b.data.id
    · rw [if_pos id] at same
      split at same <;> cases same
    · rw [if_neg id] at same
      by_cases position : a.data.position ≠ b.data.position
      · rw [if_pos position] at same
        split at same <;> cases same
      · exact ⟨equal,Decidable.not_not.mp id,Decidable.not_not.mp position⟩

theorem compare_less {a b : TermRecord} (less : compareTermData a b < 0) :
    strcmp a.term b.term < 0 ∨ a.term = b.term ∧ Before a.data b.data := by
  rw [compareTermData] at less
  by_cases term : strcmp a.term b.term ≠ 0
  · rw [if_pos term] at less
    exact .inl less
  · rw [if_neg term] at less
    have equal := strcmp_zero.mp (Decidable.not_not.mp term)
    by_cases id : a.data.id ≠ b.data.id
    · rw [if_pos id] at less
      split at less
      · exact .inr ⟨equal,.inl (by assumption)⟩
      · omega
    · rw [if_neg id] at less
      by_cases position : a.data.position ≠ b.data.position
      · rw [if_pos position] at less
        split at less
        · exact .inr ⟨equal,.inr ⟨Decidable.not_not.mp id,by assumption⟩⟩
        · omega
      · rw [if_neg position] at less
        omega

/-- The postings of a run are in order, each once. -/
theorem run_delivered (strict : Strict compareTermData delivered) (accepted : ∀ r ∈ delivered, Accepted r.data)
    (member : run ∈ runs TermRecord.term delivered) : Delivered (postingsOf run) := by
  constructor
  · intro d inside
    obtain ⟨r,held,rfl⟩ := List.mem_map.mp inside
    exact accepted r (run_subset member r held)
  · refine List.pairwise_map.mpr ((strict.sublist (run_sublist member)).imp_of_mem fun {a b} first second less => ?_)
    rcases compare_less less with smaller | ⟨_,before⟩
    · rw [run_key member first second,strcmp_total.refl] at smaller
      exact absurd smaller (Int.lt_irrefl 0)
    · exact before

/-- Every term has its place in the image. -/
theorem image_lists (strict : Strict compareTermData delivered) (accepted : ∀ r ∈ delivered, Accepted r.data)
    (free : ∀ r ∈ delivered, 0 ∉ r.term) (limits : WithinLimits delivered) :
    List.Forall₂ (Lists (acSearchBuilderImageInit (acSearchBuilderDestroy delivered))) (runs TermRecord.term delivered)
      (acSearchBuilderImageInit (acSearchBuilderDestroy delivered)).terms := by
  have start : Laid [] [] ⟨4,[],[]⟩ := ⟨rfl,.nil,rfl,rfl⟩
  obtain ⟨entries,laid⟩ := start.all (fun run (member : run ∈ runs TermRecord.term delivered) => run_ne_nil member)
    (fun run member r first r' second => run_key member first second) limits.terms limits.whole
  rw [List.nil_append] at laid
  have files : acSearchBuilderDestroy delivered = (runs TermRecord.term delivered).foldl writeTerm ⟨4,[],[]⟩ := rfl
  rw [← files] at laid
  have freeEntries : ∀ e ∈ entries, 0 ∉ e.term := by
    intro e member
    obtain ⟨run,inRuns,indexes⟩ := (mem_forall₂ laid.entries).2 e member
    obtain ⟨r,rs,rfl,_⟩ := run_shape inRuns
    rw [← indexes.term r (by simp)]
    exact free r (run_subset inRuns r (by simp))
  have places := indexTerms_spec (acSearchBuilderDestroy delivered).termIdx [] entries laid.index freeEntries
  refine (forall₂_trans laid.entries places).imp fun run p both => ?_
  obtain ⟨inRuns,e,inEntries,indexes,after,here⟩ := both
  have freeEntry := freeEntries e inEntries
  have string : stringAt (acSearchBuilderDestroy delivered).termIdx p = e.term := by
    rw [stringAt,here,entryBytes,List.append_assoc,List.append_assoc,List.append_assoc,List.takeWhile_append_of_pos]
    · simp
    · intro c member
      have nonzero : c ≠ 0 := fun zero => freeEntry (by rwa [← zero])
      simpa using nonzero
  refine ⟨fun r member => by rw [indexes.term r member]; exact string,?_⟩
  obtain ⟨gs,encoded,ascend,exact_⟩ := encodeTerm_groups (run_delivered strict accepted inRuns) (limits.groups run inRuns)
  have offs : number (((acSearchBuilderDestroy delivered).termIdx.drop (p + e.term.length + 1)).take 8) = e.offs := by
    have split : p + e.term.length + 1 = p + (e.term ++ [0]).length := by
      rw [List.length_append,List.length_singleton]
      omega
    rw [split,← List.drop_drop,here,entryBytes,List.append_assoc,List.append_assoc,List.drop_left,
      List.take_left' (bytes_length 8 _),number_bytes]
    exact Nat.mod_eq_of_lt indexes.small
  obtain ⟨rest,stored⟩ := indexes.stored
  rw [encoded,List.append_assoc] at stored
  have short := limits.terms run inRuns
  rw [encoded] at short
  have at' := fillTerm_at indexes.large (by omega) stored.symm ascend
  refine ⟨(ids gs).map Prod.fst,List.pairwise_map.mpr (ascending_ids ascend),fun id => ?_,fun fuel enough => ?_⟩
  · rw [List.mem_map,exact_ id]
    constructor
    · rintro ⟨d,member,same⟩
      obtain ⟨r,held,rfl⟩ := List.mem_map.mp member
      exact ⟨r,held,same⟩
    · rintro ⟨r,held,same⟩
      exact ⟨r.data,List.mem_map_of_mem held,same⟩
  · rw [List.length_map] at enough
    rw [← enumerate_all at' enough,acSearchBuilderFillTerm]
    have same : stringAt (acSearchBuilderImageInit (acSearchBuilderDestroy delivered)).termIdx p = e.term := string
    simp only [same]
    exact congrArg (fun o => enumerate fuel (fillTerm (acSearchBuilderDestroy delivered).termData o)) offs

/-! ## Lookups -/

variable {lib : Bsearch} {img : Image} {term : Text}

theorem searchStrings_spec (lib : Bsearch) (ordered : img.terms.Pairwise fun p q => strcmp (stringAt img.termIdx p) (stringAt img.termIdx q) < 0)
    (term : Text) :
    (∀ p, searchStrings lib img term = some p → p ∈ img.terms ∧ stringAt img.termIdx p = term) ∧
      (searchStrings lib img term = none → ∀ p ∈ img.terms, stringAt img.termIdx p ≠ term) := by
  cases found : lib.search (fun p => strcmp term (stringAt img.termIdx p)) img.terms with
  | none =>
    refine ⟨fun p some_ => ?_,fun _ p member same => ?_⟩
    · rw [searchStrings,found] at some_
      cases some_
    · refine lib.missed _ _ (ordered.imp fun less upTo => strcmp_total.lt_of_le_of_lt upTo less) found p member ?_
      exact strcmp_zero.mpr same.symm
  | some i =>
    obtain ⟨q,here,same⟩ := lib.found _ _ _ found
    have returned : searchStrings lib img term = some q := by
      rw [searchStrings,found]
      exact here
    rw [returned]
    refine ⟨fun p some_ => ?_,fun none_ => by cases none_⟩
    cases some_
    exact ⟨List.mem_of_getElem? here,(strcmp_zero.mp same).symm⟩

/-- What a lookup of a string finds of the records that were written. -/
structure Finds (lib : Bsearch) (img : Image) (records : List TermRecord) (term : Text) : Prop where
  missed : searchStrings lib img term = none → ∀ r ∈ records, r.term ≠ term
  found : ∀ p, searchStrings lib img term = some p → (∃ r ∈ records, r.term = term) ∧
    ∃ listed : List Nat, listed.Pairwise (· < ·) ∧ (∀ id, id ∈ listed ↔ ∃ r ∈ records, r.term = term ∧ r.data.id = id) ∧
      ∀ fuel, listed.length < fuel → enumerate fuel (acSearchBuilderFillTerm img p) = some listed

theorem lookup_finds (lib : Bsearch) (sorts : Sorts records delivered) (accepted : ∀ r ∈ records, Accepted r.data)
    (free : ∀ r ∈ records, 0 ∉ r.term) (limits : WithinLimits delivered) (term : Text) :
    Finds lib (acSearchBuilderImageInit (acSearchBuilderDestroy delivered)) records term := by
  have lists := image_lists sorts.strict (fun r member => accepted r (sorts.some_ r member))
    (fun r member => free r (sorts.some_ r member)) limits
  have sorted : delivered.Pairwise fun a b => a.term = b.term ∨ strcmp a.term b.term < 0 :=
    sorts.strict.imp fun {a b} less => (compare_less less).elim .inr fun both => .inl both.1
  have trans : ∀ a b c : Text, strcmp a b < 0 → strcmp b c < 0 → strcmp a c < 0 := fun a b c first second =>
    strcmp_total.lt_of_lt_of_le first (Int.le_of_lt second)
  have irrefl : ∀ a : Text, ¬ strcmp a a < 0 := fun a less => by
    rw [strcmp_total.refl] at less
    exact Int.lt_irrefl 0 less
  have ordered : (acSearchBuilderImageInit (acSearchBuilderDestroy delivered)).terms.Pairwise fun p q =>
      strcmp (stringAt (acSearchBuilderImageInit (acSearchBuilderDestroy delivered)).termIdx p)
        (stringAt (acSearchBuilderImageInit (acSearchBuilderDestroy delivered)).termIdx q) < 0 := by
    have withMembers := (runs_ascending (fun a b => strcmp a b < 0) trans sorted).imp_of_mem
      (S := fun a b : List TermRecord => ∃ r ∈ a, ∃ s ∈ b, strcmp r.term s.term < 0) fun {a b} first second less => by
        obtain ⟨r,rs,rfl,_⟩ := run_shape first
        obtain ⟨s,ss,rfl,_⟩ := run_shape second
        exact ⟨r,by simp,s,by simp,less r (by simp) s (by simp)⟩
    refine pairwise_forall₂ lists withMembers fun a a' p q left right less => ?_
    obtain ⟨r,here,s,there,smaller⟩ := less
    rw [left.term r here,right.term s there]
    exact smaller
  obtain ⟨hit,miss⟩ := searchStrings_spec lib ordered term
  constructor
  case missed =>
    intro none_ r member same
    obtain ⟨d,inDelivered,zero⟩ := sorts.all r member
    obtain ⟨run,inRuns,inRun⟩ := exists_run TermRecord.term inDelivered
    obtain ⟨p,inTerms,listed⟩ := (mem_forall₂ lists).1 run inRuns
    refine miss none_ p inTerms ?_
    rw [listed.term d inRun,(compare_same zero).1,same]
  case found =>
    intro p some_
    obtain ⟨inTerms,string⟩ := hit p some_
    obtain ⟨run,inRuns,listed⟩ := (mem_forall₂ lists).2 p inTerms
    obtain ⟨first,others,shape,_⟩ := run_shape inRuns
    have inRun : first ∈ run := by rw [shape]; simp
    have firstTerm : first.term = term := (listed.term first inRun).symm.trans string
    obtain ⟨ids,ascending,exact_,all⟩ := listed.ids
    refine ⟨⟨first,sorts.some_ first (run_subset inRuns first inRun),firstTerm⟩,ids,ascending,fun id => ?_,all⟩
    rw [exact_ id]
    constructor
    · rintro ⟨r,held,same⟩
      refine ⟨r,sorts.some_ r (run_subset inRuns r held),?_,same⟩
      rw [← listed.term r held,string]
    · rintro ⟨r,member,same,id_⟩
      obtain ⟨d,inDelivered,zero⟩ := sorts.all r member
      obtain ⟨sameTerm,sameId,_⟩ := compare_same zero
      refine ⟨d,run_all (fun a b => strcmp a b < 0) trans irrefl sorted inRuns inRun inDelivered ?_,by rw [sameId,id_]⟩
      rw [sameTerm,same,firstTerm]

/-! ## Prefixes -/

variable {adds : List TermRecord} {sp : Nat} {spare : UInt8} {w : Text}

/-- The query `w*` succeeds if a term that was added starts with `w`, and then delivers the
    ids of these terms once each in ascending order. -/
def PrefixExact (lib : Bsearch) (img : Image) (adds : List TermRecord) (w : Text) : Prop :=
  ((acSearchBuilderImageTerm lib img (w ++ [42])).isSome ↔ ∃ a ∈ adds, w <+: a.term) ∧
    ∀ t, acSearchBuilderImageTerm lib img (w ++ [42]) = some t → ∃ listed : List Nat, listed.Pairwise (· < ·) ∧
      (∀ id, id ∈ listed ↔ ∃ a ∈ adds, a.data.id = id ∧ w <+: a.term) ∧
      ∀ fuel, listed.length < fuel → enumerate fuel t = some listed

/-- The records with a `*` after `w` are those of the terms that start with `w`. -/
theorem mem_written_starred (stored : ∀ a ∈ adds, Stored a) (plain : ∀ a ∈ adds, 42 ∉ a.term) (long : sp ≤ w.length)
    {id : Nat} : (∃ r ∈ written sp spare adds, r.term = w ++ [42] ∧ r.data.id = id) ↔ ∃ a ∈ adds, a.data.id = id ∧ w <+: a.term := by
  rw [written_spec stored]
  constructor
  · rintro ⟨r,member,term,rfl⟩
    obtain ⟨a,added,inside⟩ := List.mem_flatMap.mp member
    rcases List.mem_cons.mp inside with rfl | beginning
    · exact absurd (by rw [term]; simp) (plain r added)
    · obtain ⟨s,starred_,rfl⟩ := List.mem_map.mp beginning
      obtain ⟨k,_,_,rfl⟩ := mem_starred.mp starred_
      have same : a.term.take k = w := (List.append_inj' term rfl).1
      exact ⟨a,added,rfl,same ▸ List.take_prefix k a.term⟩
  · rintro ⟨a,added,rfl,starts⟩
    refine ⟨⟨a.data,w ++ [42]⟩,List.mem_flatMap.mpr ⟨a,added,List.mem_cons_of_mem _ ?_⟩,rfl,rfl⟩
    refine List.mem_map.mpr ⟨w ++ [42],mem_starred.mpr ⟨w.length,long,?_,?_⟩,rfl⟩
    · have := starts.length_le
      omega
    · rw [List.prefix_iff_eq_take.mp starts |>.symm]

theorem written_stored (stored : ∀ a ∈ adds, Stored a) :
    ∀ r ∈ written sp spare adds, Accepted r.data ∧ 0 ∉ r.term := by
  intro r member
  rw [written_spec stored] at member
  obtain ⟨a,added,inside⟩ := List.mem_flatMap.mp member
  have held := stored a added
  rcases List.mem_cons.mp inside with rfl | beginning
  · exact ⟨held.accepted,held.free⟩
  · obtain ⟨s,starred_,rfl⟩ := List.mem_map.mp beginning
    obtain ⟨k,_,_,rfl⟩ := mem_starred.mp starred_
    refine ⟨held.accepted,fun zero => ?_⟩
    rcases List.mem_append.mp zero with early | star
    · exact held.free (List.mem_of_mem_take early)
    · simp at star

/-- Where the string without its `*` was added as a term, so was the string with it. -/
theorem not_written (stored : ∀ a ∈ adds, Stored a) (long : sp ≤ w.length) (noStar : 42 ∉ w)
    (none_ : ∀ a ∈ adds, ¬ w <+: a.term) : ∀ r ∈ written sp spare adds, r.term ≠ w := by
  intro r member same
  rw [written_spec stored] at member
  obtain ⟨a,added,inside⟩ := List.mem_flatMap.mp member
  rcases List.mem_cons.mp inside with rfl | beginning
  · exact none_ r added (same ▸ List.prefix_rfl)
  · obtain ⟨s,starred_,rfl⟩ := List.mem_map.mp beginning
    obtain ⟨k,_,_,rfl⟩ := mem_starred.mp starred_
    exact noStar (by rw [← same]; simp)

/-- Terms that are stored, of which none has a `*`, and a prefix without one. -/
theorem prefix_query_exact (lib : Bsearch) (stored : ∀ a ∈ adds, Stored a) (plain : ∀ a ∈ adds, 42 ∉ a.term)
    (sorts : Sorts (written sp spare adds) delivered) (limits : WithinLimits delivered) (long : sp ≤ w.length) (noStar : 42 ∉ w) :
    PrefixExact lib (acSearchBuilderImageInit (acSearchBuilderDestroy delivered)) adds w := by
  have records : ∀ r ∈ written sp spare adds, Accepted r.data ∧ 0 ∉ r.term := written_stored stored
  have finds := fun term => lookup_finds lib sorts (fun r member => (records r member).1) (fun r member => (records r member).2)
    limits term
  have starts : ∀ id, (∃ r ∈ written sp spare adds, r.term = w ++ [42] ∧ r.data.id = id) ↔
      ∃ a ∈ adds, a.data.id = id ∧ w <+: a.term := fun id => mem_written_starred stored plain long
  cases direct : searchStrings lib (acSearchBuilderImageInit (acSearchBuilderDestroy delivered)) (w ++ [42]) with
  | some p =>
    obtain ⟨⟨r,member,term⟩,listed,ascending,exact_,all⟩ := (finds (w ++ [42])).found p direct
    have returned : acSearchBuilderImageTerm lib (acSearchBuilderImageInit (acSearchBuilderDestroy delivered)) (w ++ [42]) =
        some (acSearchBuilderFillTerm (acSearchBuilderImageInit (acSearchBuilderDestroy delivered)) p) := by
      rw [acSearchBuilderImageTerm,direct]
    obtain ⟨a,added,_,begins⟩ := (starts r.data.id).mp ⟨r,member,term,rfl⟩
    rw [PrefixExact,returned]
    refine ⟨⟨fun _ => ⟨a,added,begins⟩,fun _ => rfl⟩,fun t same => ?_⟩
    cases same
    exact ⟨listed,ascending,fun id => (exact_ id).trans (starts id),all⟩
  | none =>
    have noTerm : ∀ a ∈ adds, ¬ w <+: a.term := by
      intro a added begins
      obtain ⟨r,member,term,_⟩ := (starts a.data.id).mpr ⟨a,added,rfl,begins⟩
      exact (finds (w ++ [42])).missed direct r member term
    have stripped : searchStrings lib (acSearchBuilderImageInit (acSearchBuilderDestroy delivered)) w = none := by
      cases found : searchStrings lib (acSearchBuilderImageInit (acSearchBuilderDestroy delivered)) w with
      | none => rfl
      | some p =>
        obtain ⟨⟨r,member,term⟩,_⟩ := (finds w).found p found
        exact absurd term (not_written stored long noStar noTerm r member)
    have returned : acSearchBuilderImageTerm lib (acSearchBuilderImageInit (acSearchBuilderDestroy delivered)) (w ++ [42]) = none := by
      rw [acSearchBuilderImageTerm,direct,List.dropLast_concat,stripped]
      simp
    rw [PrefixExact,returned]
    refine ⟨⟨(fun no => by cases no),fun some_ => ?_⟩,(fun t no => by cases no)⟩
    obtain ⟨a,added,begins⟩ := some_
    exact absurd begins (noTerm a added)

end

/-- The terms `ab` and `a` of two documents. -/
def twoTerms : List TermRecord := [⟨⟨7,0,0⟩,[97,98]⟩,⟨⟨3,0,0⟩,[97]⟩]

def twoTermsSorted : List TermRecord :=
  [⟨⟨3,0,0⟩,[97]⟩,⟨⟨3,0,0⟩,[97,42]⟩,⟨⟨7,0,0⟩,[97,42]⟩,⟨⟨7,0,0⟩,[97,98]⟩,⟨⟨7,0,0⟩,[97,98,42]⟩]

theorem twoTerms_stored : ∀ a ∈ twoTerms, Stored a := by
  intro a member
  simp only [twoTerms,List.mem_cons,List.not_mem_nil,or_false] at member
  rcases member with rfl | rfl <;> exact ⟨by decide,⟨by decide,by decide,by decide⟩,by decide⟩

theorem twoTerms_sorts : Sorts (written 1 0 twoTerms) twoTermsSorted :=
  ⟨by unfold Strict; decide,by decide,by decide⟩

theorem twoTerms_limits : WithinLimits twoTermsSorted := by
  have shape : runs TermRecord.term twoTermsSorted = [[⟨⟨3,0,0⟩,[97]⟩],[⟨⟨3,0,0⟩,[97,42]⟩,⟨⟨7,0,0⟩,[97,42]⟩],
      [⟨⟨7,0,0⟩,[97,98]⟩],[⟨⟨7,0,0⟩,[97,98,42]⟩]] := by
    simp [runs,twoTermsSorted]
  constructor
  case groups =>
    intro run member g inside
    simp only [shape,List.mem_cons,List.not_mem_nil,or_false] at member
    rcases member with rfl | rfl | rfl | rfl <;> simp [runs,postingsOf,groupOf] at inside <;> subst inside <;>
      simp [groupSize,runs,subId,idSize,valueSize]
  case terms =>
    intro run member
    simp only [shape,List.mem_cons,List.not_mem_nil,or_false] at member
    rcases member with rfl | rfl | rfl | rfl <;>
      simp [runs,postingsOf,groupOf,encodeTerm,encodeGroup,encodeLength,groupBody,subId,encodeId,encodeValue]
  case whole =>
    simp [shape,runs,postingsOf,groupOf,encodeTerm,encodeGroup,encodeLength,groupBody,subId,encodeId,encodeValue]

/-- Both documents have a term that starts with `a`. -/
theorem prefix_query_exact_two :
    PrefixExact linearSearch (acSearchBuilderImageInit (acSearchBuilderDestroy twoTermsSorted)) twoTerms [97] :=
  prefix_query_exact linearSearch twoTerms_stored (by decide) twoTerms_sorts twoTerms_limits (by decide) (by decide)

/-- A term at a position that is dropped, and one at a position that is taken. -/
def farTerm : TermRecord := ⟨⟨1,0x4000,0⟩,[97]⟩

def oneTerm : TermRecord := ⟨⟨1,0,0⟩,[97]⟩

theorem oneTerm_limits : WithinLimits [oneTerm,⟨⟨1,0,0⟩,[97,42]⟩] := by
  have shape : runs TermRecord.term [oneTerm,⟨⟨1,0,0⟩,[97,42]⟩] = [[oneTerm],[⟨⟨1,0,0⟩,[97,42]⟩]] := by
    simp [runs,oneTerm]
  constructor
  case groups =>
    intro run member g inside
    simp only [shape,List.mem_cons,List.not_mem_nil,or_false] at member
    rcases member with rfl | rfl <;> simp [runs,postingsOf,groupOf,oneTerm] at inside <;> subst inside <;>
      simp [groupSize,runs,subId,idSize,valueSize]
  case terms =>
    intro run member
    simp only [shape,List.mem_cons,List.not_mem_nil,or_false] at member
    rcases member with rfl | rfl <;>
      simp [runs,postingsOf,groupOf,oneTerm,encodeTerm,encodeGroup,encodeLength,groupBody,subId,encodeId,encodeValue]
  case whole =>
    simp [runs,postingsOf,groupOf,oneTerm,encodeTerm,encodeGroup,encodeLength,groupBody,subId,encodeId,encodeValue]

/-- A document with the term `a`, added at a position that is dropped, is not found; and
    with the term added, a query for what starts with `a*` succeeds. -/
theorem prefix_query_fails :
    (Sorts (written 1 0 [farTerm]) [] ∧ WithinLimits [] ∧
      ¬ PrefixExact linearSearch (acSearchBuilderImageInit (acSearchBuilderDestroy [])) [farTerm] [97]) ∧
    Sorts (written 1 0 [oneTerm]) [oneTerm,⟨⟨1,0,0⟩,[97,42]⟩] ∧ WithinLimits [oneTerm,⟨⟨1,0,0⟩,[97,42]⟩] ∧
      ¬ PrefixExact linearSearch (acSearchBuilderImageInit (acSearchBuilderDestroy [oneTerm,⟨⟨1,0,0⟩,[97,42]⟩])) [oneTerm] [97,42] := by
  have sorts : Sorts (written 1 0 [oneTerm]) [oneTerm,⟨⟨1,0,0⟩,[97,42]⟩] := ⟨by unfold Strict; decide,by decide,by decide⟩
  refine ⟨⟨⟨.nil,by decide,by decide⟩,⟨by simp [runs],by simp [runs],by simp [runs]⟩,fun exact_ => ?_⟩,sorts,oneTerm_limits,
    fun exact_ => ?_⟩
  · have none_ : acSearchBuilderImageTerm linearSearch (acSearchBuilderImageInit (acSearchBuilderDestroy [])) [97,42] = none := by
      simp [acSearchBuilderImageTerm,searchStrings,acSearchBuilderImageInit,acSearchBuilderDestroy,runs,indexTerms,linearSearch]
    have found := exact_.1.mpr ⟨farTerm,by simp,List.prefix_rfl⟩
    rw [List.cons_append,List.nil_append,none_] at found
    cases found
  · have stored : ∀ a ∈ [oneTerm], Stored a := by
      intro a member
      rw [List.mem_singleton.mp member]
      exact ⟨by decide,⟨by decide,by decide,by decide⟩,by decide⟩
    have records : ∀ r ∈ written 1 0 [oneTerm], Accepted r.data ∧ 0 ∉ r.term := written_stored stored
    have finds := lookup_finds linearSearch sorts (fun r member => (records r member).1) (fun r member => (records r member).2)
      oneTerm_limits [97,42]
    have succeeds : (acSearchBuilderImageTerm linearSearch (acSearchBuilderImageInit (acSearchBuilderDestroy
        [oneTerm,⟨⟨1,0,0⟩,[97,42]⟩])) ([97,42] ++ [42])).isSome := by
      rw [acSearchBuilderImageTerm]
      split
      case h_1 => rfl
      case h_2 =>
        rw [if_pos (by decide),List.dropLast_concat,Option.isSome_map]
        cases found : searchStrings linearSearch (acSearchBuilderImageInit (acSearchBuilderDestroy
            [oneTerm,⟨⟨1,0,0⟩,[97,42]⟩])) [97,42] with
        | some p => rfl
        | none => exact absurd rfl (finds.missed found ⟨⟨1,0,0⟩,[97,42]⟩ (by decide))
    obtain ⟨a,added,begins⟩ := exact_.1.mp succeeds
    rw [List.mem_singleton.mp added] at begins
    revert begins
    decide

end AnotherC.PrefixQuery
