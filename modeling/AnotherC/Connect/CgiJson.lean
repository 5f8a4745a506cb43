import AnotherC.Connect.Cgi
import AnotherC.Json.Edits
import AnotherC.Json.Encode
import AnotherC.Lib.Multimap
import AnotherC.Lib.Rows

/-!
# `ac_cgi_to_json`

The pairs of a query string are inserted into an object one after the other. The value of a key
is a string, which becomes the first element of an array when the key occurs again. The string is
cut in place; `decode_returns` says what `ac_cgi_decode` makes of a value.
-/
namespace AnotherC.CgiJson
open AnotherC.AcJson (acJsonEncode)
open AnotherC.JsonArray (Jsona acJsona acJsonaAppend)
open AnotherC.JsonObject (Library Jsono Key Inv acJsono acJsonoFind acJsonoInsert lookup listLibrary)
open AnotherC.Cgi (decodedString)
open AnotherC.PoolCells (write)
open AnotherC.Lib.Chain (Link Linked)
open AnotherC.Lib.Multimap
open AnotherC.Lib.Rows
open AnotherC.Lib.Text
open AnotherC.Lib.Steps
set_option linter.unusedVariables false

/-! ## The code -/

/-- A string, with its length, or an array. -/
inductive Value where
  | str (value : Text) (length : Nat)
  | array (a : Jsona)

/-- `ac_json_str`. -/
def acJsonStr (s : Text) : Value := .str s (s.length % 2 ^ 32)

/-- The object and the values, whose addresses are their places. -/
structure Doc (lib : Library) where
  o : Jsono lib
  values : List Value

variable {lib : Library}

/-- What is done with an encoded value; `memory` is what the pool has where a node is allocated. -/
def addValue (memory : Nat → Option Nat) (doc : Doc lib) (key : Key) (encoded : Text) : Option (Doc lib) := do
  let fresh := doc.values.length
  match ← acJsonoFind doc.o key with
  | (none,o) => do
    let inserted ← acJsonoInsert o key (some fresh)
    some ⟨inserted.2,doc.values ++ [acJsonStr encoded]⟩
  | (some ko,o) => do
    let link ← o.nodes[ko]?
    match ← doc.values[link.item.2]? with
    | .str _ _ => do
      let a ← acJsonaAppend (acJsona fresh [] o.parent) (some link.item.2) (memory fresh)
      let a ← acJsonaAppend a (some (fresh + 1)) (memory fresh)
      let inserted ← acJsonoInsert o key (some fresh)
      some ⟨inserted.2,doc.values ++ [.array a,acJsonStr encoded]⟩
    | .array a => do
      let a ← acJsonaAppend a (some fresh) (memory fresh)
      some ⟨o,doc.values.set link.item.2 (.array a) ++ [acJsonStr encoded]⟩

/-- `add_key_value_to_json` for the string at `kv`. -/
def addKeyValueToJson (memory : Nat → Option Nat) (bytes : List UInt8) (doc : Doc lib) (kv : Nat) : Option (List UInt8 × Doc lib) := do
  let first ← bytes[kv]?
  if first = 0 then some (bytes,doc)
  else if first = 61 then some (bytes,doc)
  else do
    let p := kv + ((bytes.drop kv).takeWhile fun c => c ≠ 0 ∧ c ≠ 61).length
    let c ← bytes[p]?
    if c ≠ 61 then some (bytes,doc)
    else do
      let bytes ← write bytes p 0
      let doc ← addValue memory doc (stringAt bytes kv) (acJsonEncode (decodedString (stringAt bytes (p + 1))))
      some (bytes,doc)

/-- At the beginning of a piece, and in it. -/
inductive Label where
  | piece
  | scan
deriving Repr, DecidableEq

structure State (lib : Library) where
  label : Label
  bytes : List UInt8
  p : Nat
  sp : Nat
  doc : Doc lib

/-- One round of the loops of `ac_cgi_to_json`. -/
def step (memory : Nat → Option Nat) (state : State lib) : Option (Next (State lib) (Doc lib)) := do
  let c ← state.bytes[state.p]?
  match state.label with
  | .piece => if c = 0 then some (.returned state.doc) else some (.goto { state with label := .scan, sp := state.p })
  | .scan =>
    if c ≠ 0 ∧ c ≠ 38 then some (.goto { state with p := state.p + 1 })
    else if c = 38 then do
      let bytes ← write state.bytes state.p 0
      let added ← addKeyValueToJson memory bytes state.doc state.sp
      some (.goto { state with label := .piece, bytes := added.1, p := state.p + 1, doc := added.2 })
    else do
      let added ← addKeyValueToJson memory state.bytes state.doc state.sp
      some (.goto { state with label := .piece, bytes := added.1, doc := added.2 })

/-- `strchr(p, '?')`. -/
def query (q : Text) : Nat := if 63 ∈ q then q.idxOf 63 + 1 else 0

/-- `ac_cgi_to_json` before the loop: a copy of the string, and an object at `self`. -/
def begin (lib : Library) (self : Nat) (q : Text) : State lib :=
  ⟨.piece,q ++ [0],query q,query q,⟨acJsono lib self [] fun _ => none,[]⟩⟩

/-! ## The pairs of a query string -/

/-- The key and the value of a piece that has both. -/
def keyValue (piece : Text) : Option (Key × Text) :=
  if piece.takeWhile (· ≠ 61) ≠ [] ∧ 61 ∈ piece then some (piece.takeWhile (· ≠ 61),(piece.dropWhile (· ≠ 61)).tail) else none

def pairs (q : Text) : List (Key × Text) := ((q.drop (query q)).splitOn 38).filterMap keyValue

/-- The elements of an array, from its head on, by their nodes. -/
structure Lists (a : Jsona) (elements : List (Nat × Nat)) : Prop where
  chain : ∃ before, Linked a.nodes before (elements.map Prod.fst) (elements.map Prod.snd)
  head : a.head = (elements.map Prod.fst).head?
  tail : a.tail = (elements.map Prod.fst).getLast?

/-- The node of a value that was decoded and encoded. -/
def node (v : Text) : Value := acJsonStr (acJsonEncode (decodedString v))

/-- What an entry has for its value: a string for one value, and an array for more. -/
def Represents (values : List Value) (item : Nat) : List Text → Prop
  | [] => False
  | [v] => values[item]? = some (node v)
  | vs => ∃ a elements, values[item]? = some (.array a) ∧ Lists a elements ∧
    List.Forall₂ (fun e v => values[e.2]? = some (node v)) elements vs

/-- The object has these entries, with the values collected by their keys. -/
structure Holds (doc : Doc lib) (entries : List (Nat × Key × Nat)) (groups : List (Key × List Text)) : Prop where
  inv : Inv doc.o entries
  items : (entries.map fun e => e.2.2).Nodup
  groups : List.Forall₂ (fun e g => e.2.1 = g.1 ∧ Represents doc.values e.2.2 g.2) entries groups

/-! ## Values -/

section
variable {a : Jsona} {elements : List (Nat × Nat)} {values values' : List Value} {item : Nat} {v : Text} {vs : List Text}

theorem append_lists (lists : Lists a elements) (item : Nat) (memory : Option Nat) :
    ∃ a', acJsonaAppend a (some item) memory = some a' ∧ Lists a' (elements ++ [(a.nodes.length,item)]) := by
  obtain ⟨⟨before,chain⟩,head,tail⟩ := lists
  unfold acJsonaAppend
  rcases List.eq_nil_or_concat' elements with rfl | ⟨front,last,rfl⟩
  · rw [List.map_nil,List.head?_nil] at head
    rw [head]
    refine ⟨_,rfl,⟨memory,?_⟩,rfl,rfl⟩
    simp [Linked]
  · have some_ : front ++ [last] ≠ [] := by simp
    obtain ⟨t,nodes,isTail,set,longer⟩ := chain.hang_last some_ item
    obtain ⟨h,isHead⟩ : ∃ h, a.head = some h := by
      rw [head]
      cases front with
      | nil => exact ⟨last.1,rfl⟩
      | cons e front => exact ⟨e.1,rfl⟩
    simp only [isHead,tail,isTail,Option.bind_eq_bind,Option.bind_some,set]
    refine ⟨_,rfl,⟨before,longer⟩,?_,?_⟩
    · show some h = _
      rw [List.map_append,List.head?_append,← head,isHead]
      rfl
    · rw [List.map_append,List.getLast?_append]
      rfl

/-- What is there stays, but for one place. -/
def Keeps (values values' : List Value) (except : Nat) : Prop := ∀ i x, i ≠ except → values[i]? = some x → values'[i]? = some x

theorem Represents.inside (represents : Represents values item vs) : item < values.length := by
  rcases vs with _ | ⟨v,_ | ⟨w,vs⟩⟩
  · exact represents.elim
  · exact (List.getElem?_eq_some_iff.mp represents).1
  · obtain ⟨a,elements,array,-⟩ := represents
    exact (List.getElem?_eq_some_iff.mp array).1

/-- The values of an entry stay when no string is written over and its own place stays. -/
theorem Represents.keeps (represents : Represents values item vs) {except : Nat} (other : item ≠ except)
    (noString : ∀ v, values[except]? ≠ some (node v)) (keeps : Keeps values values' except) : Represents values' item vs := by
  rcases vs with _ | ⟨v,_ | ⟨w,vs⟩⟩
  · exact represents
  · exact keeps item _ other represents
  · obtain ⟨a,elements,array,lists,strings⟩ := represents
    refine ⟨a,elements,keeps item _ other array,lists,strings.imp fun e v there => keeps e.2 _ ?_ there⟩
    intro same
    exact noString v (same ▸ there)

theorem keeps_append (values more : List Value) : Keeps values (values ++ more) values.length := by
  intro i x other there
  rw [List.getElem?_append_left (List.getElem?_eq_some_iff.mp there).1,there]

theorem Represents.append (represents : Represents values item vs) (more : List Value) : Represents (values ++ more) item vs := by
  refine represents.keeps (Nat.ne_of_lt represents.inside) (fun v => ?_) (keeps_append values more)
  rw [List.getElem?_eq_none (Nat.le_refl _)]
  exact (Option.some_ne_none _).symm

/-- The element that was appended is a string behind the values. -/
theorem new_value (values more : List Value) (x : Value) : (values ++ x :: more)[values.length]? = some x := by
  rw [List.getElem?_append_right (Nat.le_refl _),Nat.sub_self]
  rfl

end

/-! ## A value more -/

section
variable {doc : Doc lib} {entries : List (Nat × Key × Nat)} {groups : List (Key × List Text)} {key : Key}
  {values : List Value} {item : Nat} {vs : List Text}

theorem Holds.keys (holds : Holds doc entries groups) : groups.map Prod.fst = entries.map fun e => e.2.1 := by
  have each := holds.groups
  clear holds
  induction each with
  | nil => rfl
  | cons first rest ih => rw [List.map_cons,List.map_cons,ih,first.1]

/-- The item of an entry has values. -/
theorem Holds.represents (holds : Holds doc entries groups) {e : Nat × Key × Nat} (member : e ∈ entries) :
    ∃ vs, Represents doc.values e.2.2 vs := by
  obtain ⟨i,here⟩ := List.mem_iff_getElem?.mp member
  rcases forall₂_getElem? holds.groups i with ⟨none_,-⟩ | ⟨d,g,here',-,-,represents⟩
  · rw [here] at none_
    cases none_
  · rw [here] at here'
    cases here'
    exact ⟨g.2,represents⟩

theorem Holds.inside (holds : Holds doc entries groups) {e : Nat × Key × Nat} (member : e ∈ entries) : e.2.2 < doc.values.length := by
  obtain ⟨vs,represents⟩ := holds.represents member
  exact represents.inside

theorem Holds.append_new (holds : Holds doc entries groups) (absent : lookup entries key = none) (memory : Nat → Option Nat) (v : Text) :
    ∃ doc' entries', addValue memory doc key (acJsonEncode (decodedString v)) = some doc' ∧ Holds doc' entries' (groups ++ [(key,[v])]) := by
  obtain ⟨root,found,inv,-⟩ := AnotherC.JsonObject.find_inv holds.inv key
  rw [absent,Option.map_none] at found
  obtain ⟨o',inserted,inv'⟩ := AnotherC.JsonObject.insert_new inv absent doc.values.length
  refine ⟨⟨o',doc.values ++ [node v]⟩,_,?_,inv',?_,?_⟩
  · simp only [addValue,found,Option.bind_eq_bind,Option.bind_some,inserted]
    rfl
  · rw [List.map_append,List.map_singleton]
    refine List.nodup_append.mpr ⟨holds.items,List.nodup_singleton _,?_⟩
    rintro i member j last rfl
    obtain ⟨e,inside,rfl⟩ := List.mem_map.mp member
    exact absurd (holds.inside inside) (by rw [List.mem_singleton.mp last]; exact Nat.lt_irrefl _)
  · refine forall₂_snoc (holds.groups.imp fun e g both => ⟨both.1,both.2.append _⟩) ⟨rfl,?_⟩
    exact new_value doc.values [] (node v)

theorem Represents.string (represents : Represents values item vs) {t : Text} {n : Nat}
    (string : values[item]? = some (.str t n)) : ∃ w, vs = [w] ∧ values[item]? = some (node w) := by
  rcases vs with _ | ⟨w,_ | ⟨w',vs⟩⟩
  · exact represents.elim
  · exact ⟨w,rfl,represents⟩
  · obtain ⟨a,elements,array,-⟩ := represents
    rw [string] at array
    cases array

theorem Represents.elements (represents : Represents values item vs) {a : Jsona}
    (array : values[item]? = some (.array a)) : ∃ w w' more elements, vs = w :: w' :: more ∧ Lists a elements ∧
      List.Forall₂ (fun e v => values[e.2]? = some (node v)) elements vs := by
  rcases vs with _ | ⟨w,_ | ⟨w',vs⟩⟩
  · exact represents.elim
  · have string : values[item]? = some (node w) := represents
    rw [array] at string
    cases string
  · obtain ⟨a',elements,array',lists,strings⟩ := represents
    rw [array] at array'
    cases array'
    exact ⟨w,w',vs,elements,rfl,lists,strings⟩

theorem Represents.value (represents : Represents values item vs) : (∃ t n, values[item]? = some (.str t n)) ∨ ∃ a, values[item]? = some (.array a) := by
  rcases vs with _ | ⟨w,_ | ⟨w',vs⟩⟩
  · exact represents.elim
  · exact .inl ⟨_,_,represents⟩
  · obtain ⟨a,elements,array,-⟩ := represents
    exact .inr ⟨a,array⟩

/-- The array that a second value makes. -/
theorem Represents.pair {t : Text} {n : Nat} (represents : Represents values item vs) (string : values[item]? = some (.str t n)) (v : Text)
    (parent : Nat → Option Nat) (memory : Option Nat) : ∃ a a', acJsonaAppend (acJsona values.length [] parent) (some item) memory = some a ∧
      acJsonaAppend a (some (values.length + 1)) memory = some a' ∧
      Represents (values ++ [.array a',node v]) values.length (vs ++ [v]) := by
  obtain ⟨w,rfl,isNode⟩ := represents.string string
  have empty : Lists (acJsona values.length [] parent) [] := ⟨⟨none,trivial⟩,rfl,rfl⟩
  obtain ⟨a,made,one⟩ := append_lists empty item memory
  obtain ⟨a',made',two⟩ := append_lists one (values.length + 1) memory
  refine ⟨a,a',made,made',a',_,new_value values _ _,two,?_⟩
  refine .cons ?_ (.cons ?_ .nil)
  · exact (Represents.append (show Represents values item [w] from isNode) _ : Represents _ item [w])
  · rw [List.getElem?_append_right (Nat.le_succ _),Nat.succ_sub (Nat.le_refl _),Nat.sub_self]
    rfl

/-- An array with one value more. -/
theorem Represents.longer {a : Jsona} (represents : Represents values item vs) (array : values[item]? = some (.array a)) (v : Text)
    (memory : Option Nat) : ∃ a', acJsonaAppend a (some values.length) memory = some a' ∧
      Represents (values.set item (.array a') ++ [node v]) item (vs ++ [v]) := by
  obtain ⟨w,w',more,elements,rfl,lists,strings⟩ := represents.elements array
  obtain ⟨a',made,lists'⟩ := append_lists lists values.length memory
  have inside := represents.inside
  have length : (values.set item (.array a')).length = values.length := List.length_set
  refine ⟨a',made,a',_,?_,lists',?_⟩
  · rw [List.getElem?_append_left (length.symm ▸ inside),List.getElem?_set_self inside]
  · refine forall₂_snoc (strings.imp fun e v there => ?_) ?_
    · have other : item ≠ e.2 := by
        rintro rfl
        rw [array] at there
        cases there
      rw [List.getElem?_append_left (length.symm ▸ (List.getElem?_eq_some_iff.mp there).1),List.getElem?_set_ne other,there]
    · rw [← length]
      exact new_value _ [] (node v)

/-- A value for a key that has an entry already. -/
theorem Holds.append_old (holds : Holds doc entries groups) {e : Nat × Key × Nat} (there : lookup entries key = some e)
    (memory : Nat → Option Nat) (v : Text) : ∃ doc' entries', addValue memory doc key (acJsonEncode (decodedString v)) = some doc' ∧
      Holds doc' entries' (groups.map fun g => if g.1 = key then (g.1,g.2 ++ [v]) else g) := by
  obtain ⟨root,found,inv,-⟩ := AnotherC.JsonObject.find_inv holds.inv key
  rw [there,Option.map_some] at found
  obtain ⟨member,isKey⟩ := (AnotherC.JsonObject.lookup_iff holds.inv.distinct).mp there
  obtain ⟨link,linked,isItem⟩ := AnotherC.Lib.Chain.link_of holds.inv.chain member
  have item : link.item.2 = e.2.2 := congrArg Prod.snd isItem
  have same : ∀ d ∈ entries, d.2.1 = key → d = e := by
    intro d inside dKey
    have again := (AnotherC.JsonObject.lookup_iff holds.inv.distinct).mpr ⟨inside,dKey⟩
    rw [there] at again
    exact (Option.some.inj again).symm
  obtain ⟨g,represents⟩ := holds.represents member
  rcases represents.value with ⟨t,n,string⟩ | ⟨a,array⟩
  · obtain ⟨a,a',made,made',-⟩ := represents.pair string v doc.o.parent (memory doc.values.length)
    obtain ⟨o',inserted,inv'⟩ := AnotherC.JsonObject.insert_old inv there doc.values.length
    refine ⟨⟨o',doc.values ++ [.array a',node v]⟩,_,?_,inv',?_,?_⟩
    · simp only [addValue,found,Option.bind_eq_bind,Option.bind_some,linked,item,string,made,made',inserted]
      rfl
    · rw [List.map_map]
      refine holds.items.of_map.map_on fun d inside d' inside' equal => ?_
      simp only [Function.comp_apply] at equal
      split at equal
      case isTrue isKey' =>
        split at equal
        case isTrue isKey'' => rw [same d inside isKey',same d' inside' isKey'']
        case isFalse => exact absurd (holds.inside inside') (Nat.not_lt_of_ge (Nat.le_of_eq equal))
      case isFalse =>
        split at equal
        case isTrue => exact absurd (holds.inside inside) (Nat.not_lt_of_ge (Nat.le_of_eq equal.symm))
        case isFalse => exact List.inj_on_of_nodup_map holds.items inside inside' equal
    · refine forall₂_map_both holds.groups fun d inside h _ both => ?_
      obtain ⟨dKey,dItem⟩ := both
      by_cases isKey' : d.2.1 = key
      · obtain rfl := same d inside isKey'
        rw [if_pos isKey',if_pos (dKey.symm.trans isKey')]
        obtain ⟨b,b',made₂,made₂',pair⟩ := dItem.pair string v doc.o.parent (memory doc.values.length)
        rw [made] at made₂
        cases made₂
        rw [made'] at made₂'
        cases made₂'
        exact ⟨dKey,pair⟩
      · rw [if_neg isKey',if_neg fun isKey => isKey' (dKey.trans isKey)]
        exact ⟨dKey,dItem.append _⟩
  · obtain ⟨a',made,-⟩ := represents.longer array v (memory doc.values.length)
    refine ⟨⟨{ doc.o with root := root, numSortedEntries := 0 },doc.values.set e.2.2 (.array a') ++ [node v]⟩,entries,?_,inv,holds.items,?_⟩
    · simp only [addValue,found,Option.bind_eq_bind,Option.bind_some,linked,item,array,made]
      rfl
    · have noString : ∀ w, doc.values[e.2.2]? ≠ some (node w) := by
        intro w string
        rw [array] at string
        cases string
      have keeps : Keeps doc.values (doc.values.set e.2.2 (.array a')) e.2.2 := by
        intro i x other there
        rw [List.getElem?_set_ne other.symm,there]
      have rows : List.Forall₂ (fun d h => d.2.1 = h.1 ∧ Represents (doc.values.set e.2.2 (.array a') ++ [node v]) d.2.2 h.2) (entries.map id)
          (groups.map fun g => if g.1 = key then (g.1,g.2 ++ [v]) else g) := by
        refine forall₂_map_both holds.groups fun d inside h _ both => ?_
        obtain ⟨dKey,dItem⟩ := both
        by_cases isKey' : d.2.1 = key
        · obtain rfl := same d inside isKey'
          rw [if_pos (dKey.symm.trans isKey')]
          obtain ⟨b,made',longer⟩ := dItem.longer array v (memory doc.values.length)
          rw [made] at made'
          cases made'
          exact ⟨dKey,longer⟩
        · have apart : d.2.2 ≠ e.2.2 := by
            intro equal
            have whole := List.inj_on_of_nodup_map holds.items inside member equal
            exact isKey' (whole ▸ isKey)
          rw [if_neg fun isKey => isKey' (dKey.trans isKey)]
          exact ⟨dKey,(dItem.keeps apart noString keeps).append _⟩
      rwa [List.map_id] at rows

/-- A value is added to those of its key. -/
theorem Holds.add (holds : Holds doc entries groups) (memory : Nat → Option Nat) (key : Key) (v : Text) :
    ∃ doc' entries', addValue memory doc key (acJsonEncode (decodedString v)) = some doc' ∧ Holds doc' entries' (added groups key v) := by
  rw [added,holds.keys]
  cases there : lookup entries key with
  | none =>
    have absent : key ∉ entries.map fun e => e.2.1 := by
      intro member
      obtain ⟨e,inside,isKey⟩ := List.mem_map.mp member
      exact AnotherC.JsonObject.lookup_none.mp there e inside isKey
    rw [if_neg absent]
    exact holds.append_new there memory v
  | some e =>
    obtain ⟨member,isKey⟩ := (AnotherC.JsonObject.lookup_iff holds.inv.distinct).mp there
    rw [if_pos (List.mem_map.mpr ⟨e,member,isKey⟩)]
    exact holds.append_old there memory v

end

/-! ## The loop -/

section
variable {doc : Doc lib} {entries : List (Nat × Key × Nat)} {groups : List (Key × List Text)} {front piece more rest w : List UInt8}

theorem takeWhile_key {k : Text} (free : 61 ∉ k) (v : Text) : (k ++ 61 :: v).takeWhile (· ≠ 61) = k := by
  rw [List.takeWhile_append_of_pos,List.takeWhile_cons_of_neg (by simp),List.append_nil]
  exact fun c inside => decide_eq_true fun same => free (same ▸ inside)

theorem keyValue_pair {k : Text} (free : 61 ∉ k) (v : Text) : keyValue (k ++ 61 :: v) = if k = [] then none else some (k,v) := by
  have behind : (k ++ 61 :: v).dropWhile (· ≠ 61) = 61 :: v := by
    rw [List.dropWhile_append_of_pos,List.dropWhile_cons_of_neg (by simp)]
    exact fun c inside => decide_eq_true fun same => free (same ▸ inside)
  rw [keyValue,takeWhile_key free,behind]
  simp

theorem keyValue_none (absent : 61 ∉ piece) : keyValue piece = none := by
  rw [keyValue,if_neg fun both => absurd both.2 absent]

/-- The bytes up to the end of a string or an equals sign. -/
theorem key_length {k : Text} (free : 61 ∉ k) (clean : 0 ∉ k) {c : UInt8} (stops : c = 0 ∨ c = 61) (rest : List UInt8) :
    ((front ++ k ++ c :: rest).drop front.length).takeWhile (fun c => c ≠ 0 ∧ c ≠ 61) = k := by
  rw [List.append_assoc,List.drop_left,List.takeWhile_append_of_pos,List.takeWhile_cons_of_neg (by rcases stops with rfl | rfl <;> simp),
    List.append_nil]
  refine fun c inside => decide_eq_true ⟨?_,?_⟩
  · exact fun same => clean (same ▸ inside)
  · exact fun same => free (same ▸ inside)

theorem stringAt_piece (clean : 0 ∉ piece) : stringAt (front ++ piece ++ 0 :: more) front.length = piece :=
  (AnotherC.Lib.InPlace.Cut.here front clean more).stringAt

/-- `add_key_value_to_json` for a piece. -/
theorem addKeyValue_spec {ps : List (Key × Text)} (holds : Holds doc entries (collected ps)) (free : 0 ∉ piece) (memory : Nat → Option Nat) :
    ∃ front' doc' entries', addKeyValueToJson memory (front ++ piece ++ 0 :: more) doc front.length = some (front' ++ 0 :: more,doc') ∧
      front'.length = front.length + piece.length ∧ Holds doc' entries' (collected (ps ++ (keyValue piece).toList)) := by
  have nothing (none_ : keyValue piece = none)
      (same : addKeyValueToJson memory (front ++ piece ++ 0 :: more) doc front.length = some (front ++ piece ++ 0 :: more,doc)) :
      ∃ front' doc' entries', addKeyValueToJson memory (front ++ piece ++ 0 :: more) doc front.length = some (front' ++ 0 :: more,doc') ∧
        front'.length = front.length + piece.length ∧ Holds doc' entries' (collected (ps ++ (keyValue piece).toList)) := by
    rw [none_,Option.toList_none,List.append_nil]
    exact ⟨front ++ piece,doc,entries,same,List.length_append,holds⟩
  have first : (front ++ piece ++ 0 :: more)[front.length]? = (piece ++ 0 :: more)[0]? := by
    rw [List.append_assoc,List.getElem?_append_right (Nat.le_refl _),Nat.sub_self]
  by_cases equals : 61 ∈ piece
  · obtain ⟨k,v,rfl,apart⟩ := List.eq_append_cons_of_mem equals
    have clean : 0 ∉ k := fun inside => free (List.mem_append_left _ inside)
    have clean' : 0 ∉ v := fun inside => free (List.mem_append_right _ (List.mem_cons_of_mem _ inside))
    cases k with
    | nil =>
      refine nothing (keyValue_pair apart v) ?_
      rw [addKeyValueToJson,first]
      rfl
    | cons c k =>
      have nonzero : c ≠ 0 := fun zero => clean (zero ▸ List.mem_cons_self)
      have noEquals : c ≠ 61 := fun same => apart (same ▸ List.mem_cons_self)
      have bytes : front ++ (c :: k ++ 61 :: v) ++ 0 :: more = front ++ (c :: k) ++ 61 :: (v ++ 0 :: more) := by simp
      obtain ⟨doc',entries',added,holds'⟩ := holds.add memory (c :: k) v
      refine ⟨front ++ (c :: k) ++ 0 :: v,doc',entries',?_,by simp,?_⟩
      · have here : stringAt (front ++ (c :: k) ++ 0 :: (v ++ 0 :: more)) front.length = c :: k := stringAt_piece clean
        have value : stringAt (front ++ (c :: k) ++ 0 :: (v ++ 0 :: more)) (front.length + (c :: k).length + 1) = v := by
          have behind := @stringAt_piece (front ++ (c :: k) ++ [0]) v more clean'
          have length : (front ++ (c :: k) ++ [0]).length = front.length + (c :: k).length + 1 := by
            rw [List.length_append,List.length_append,List.length_singleton]
          rw [length] at behind
          simpa using behind
        rw [addKeyValueToJson,first]
        simp only [List.cons_append,List.getElem?_cons_zero,Option.bind_eq_bind,Option.bind_some,nonzero,noEquals,if_false]
        rw [← List.cons_append,bytes,key_length apart clean (.inr rfl),AnotherC.PoolCells.read_word]
        simp only [Option.bind_some,ne_eq,not_true_eq_false,if_false,AnotherC.PoolCells.write_word,here,value,added]
        simp
      · rw [keyValue_pair apart v,if_neg (List.cons_ne_nil c k),Option.toList_some,collected_append]
        exact holds'
  · refine nothing (keyValue_none equals) ?_
    cases piece with
    | nil =>
      rw [addKeyValueToJson,first]
      rfl
    | cons c cs =>
      have nonzero : c ≠ 0 := fun zero => free (zero ▸ List.mem_cons_self)
      have noEquals : c ≠ 61 := fun same => equals (same ▸ List.mem_cons_self)
      rw [addKeyValueToJson,first]
      simp only [List.cons_append,List.getElem?_cons_zero,Option.bind_eq_bind,Option.bind_some,nonzero,noEquals,if_false]
      rw [key_length equals free (.inl rfl),AnotherC.PoolCells.read_word]
      rfl

/-- What the loop leads to from a state. -/
def Collects (memory : Nat → Option Nat) (state : State lib) (ps : List (Key × Text)) : Prop :=
  ∃ doc entries, Returns (step memory) state doc ∧ Holds doc entries (collected ps)

theorem Collects.after {memory : Nat → Option Nat} {state state' : State lib} {ps : List (Key × Text)}
    (stepped : step memory state = some (.goto state')) (later : Collects memory state' ps) : Collects memory state ps := by
  obtain ⟨doc,entries,returns,holds⟩ := later
  exact ⟨doc,entries,Returns.after stepped returns,holds⟩

theorem collects_end {ps : List (Key × Text)} (holds : Holds doc entries (collected ps)) (memory : Nat → Option Nat) {bytes : List UInt8} {p sp : Nat}
    (ends : bytes[p]? = some 0) : Collects memory ⟨.piece,bytes,p,sp,doc⟩ ps := by
  refine ⟨doc,entries,Returns.now ?_,holds⟩
  simp only [step,ends,Option.bind_eq_bind,Option.bind_some,if_true]

theorem filterMap_single {ps : List (Key × Text)} (inPiece : 38 ∉ w) :
    ps ++ (w.splitOn 38).filterMap keyValue = ps ++ (keyValue w).toList := by
  rw [List.splitOn_eq_singleton inPiece,List.filterMap_cons,List.filterMap_nil]
  cases keyValue w with
  | none => rfl
  | some pair => rfl

/-- At the beginning of a piece it is scanned, unless the string is at its end. -/
theorem piece_run {ps : List (Key × Text)} (holds : Holds doc entries (collected ps)) {memory : Nat → Option Nat} (free : 0 ∉ rest)
    (scan : Collects memory ⟨.scan,front ++ (rest ++ [0]),front.length,front.length,doc⟩ (ps ++ (rest.splitOn 38).filterMap keyValue))
    (sp : Nat) : Collects memory ⟨.piece,front ++ (rest ++ [0]),front.length,sp,doc⟩ (ps ++ (rest.splitOn 38).filterMap keyValue) := by
  have read : (front ++ (rest ++ [0]))[front.length]? = (rest ++ [0])[0]? := by
    rw [List.getElem?_append_right (Nat.le_refl _),Nat.sub_self]
  cases rest with
  | nil =>
    have none_ : keyValue [] = none := rfl
    rw [filterMap_single List.not_mem_nil,none_,Option.toList_none,List.append_nil]
    exact collects_end holds memory read
  | cons d rest =>
    have nonzero : d ≠ 0 := fun zero => free (zero ▸ List.mem_cons_self)
    refine Collects.after ?_ scan
    rw [List.cons_append,List.getElem?_cons_zero] at read
    simp only [step,List.cons_append,read,Option.bind_eq_bind,Option.bind_some,nonzero,if_false]

theorem step_ampersand {memory : Nat → Option Nat} {bytes : List UInt8} {doc' : Doc lib} (behind : List UInt8)
    (added : addKeyValueToJson memory (front ++ w ++ 0 :: behind) doc front.length = some (bytes,doc')) :
    step memory ⟨.scan,front ++ w ++ 38 :: behind,front.length + w.length,front.length,doc⟩ =
      some (.goto ⟨.piece,bytes,front.length + w.length + 1,front.length,doc'⟩) := by
  have stops : ¬ ((38 : UInt8) ≠ 0 ∧ (38 : UInt8) ≠ 38) := by decide
  simp only [step,AnotherC.PoolCells.read_word,Option.bind_eq_bind,Option.bind_some,if_neg stops,if_true,AnotherC.PoolCells.write_word,added]

theorem step_last {memory : Nat → Option Nat} {bytes : List UInt8} {doc' : Doc lib}
    (added : addKeyValueToJson memory (front ++ w ++ [0]) doc front.length = some (bytes,doc')) :
    step memory ⟨.scan,front ++ w ++ [0],front.length + w.length,front.length,doc⟩ =
      some (.goto ⟨.piece,bytes,front.length + w.length,front.length,doc'⟩) := by
  have stops : ¬ ((0 : UInt8) ≠ 0 ∧ (0 : UInt8) ≠ 38) := by decide
  have other : ¬ ((0 : UInt8) = 38) := by decide
  simp only [step,AnotherC.PoolCells.read_word,Option.bind_eq_bind,Option.bind_some,if_neg stops,if_neg other,added]

/-- What is left of the string, when some of a piece was passed. -/
theorem scan_run {ps : List (Key × Text)} (holds : Holds doc entries (collected ps)) (memory : Nat → Option Nat) (free : 0 ∉ rest)
    (clean : 0 ∉ w) (inPiece : 38 ∉ w) : Collects memory ⟨.scan,front ++ w ++ (rest ++ [0]),front.length + w.length,front.length,doc⟩
      (ps ++ ((w ++ rest).splitOn 38).filterMap keyValue) := by
  induction rest generalizing w front doc entries ps with
  | nil =>
    obtain ⟨front',doc',entries',added,length,holds'⟩ := @addKeyValue_spec lib doc entries front w [] ps holds clean memory
    rw [List.append_nil,filterMap_single inPiece,List.nil_append]
    refine Collects.after (step_last added) (collects_end holds' memory ?_)
    rw [← length,List.getElem?_append_right (Nat.le_refl _),Nat.sub_self]
    rfl
  | cons c rest ih =>
    have nonzero : c ≠ 0 := fun zero => free (zero ▸ List.mem_cons_self)
    have free' : 0 ∉ rest := fun inside => free (List.mem_cons_of_mem _ inside)
    by_cases ends : c = 38
    · subst ends
      obtain ⟨front',doc',entries',added,length,holds'⟩ := @addKeyValue_spec lib doc entries front w (rest ++ [0]) ps holds clean memory
      have bytes : front' ++ 0 :: (rest ++ [0]) = front' ++ [0] ++ (rest ++ [0]) := by simp
      have next : front.length + w.length + 1 = (front' ++ [0]).length := by
        rw [List.length_append,List.length_singleton,length]
      have scan := @ih doc' entries' (front' ++ [0]) [] _ holds' free' List.not_mem_nil List.not_mem_nil
      rw [List.append_nil,List.nil_append,List.length_nil,Nat.add_zero] at scan
      have pieces : ps ++ ((w ++ 38 :: rest).splitOn 38).filterMap keyValue =
          ps ++ (keyValue w).toList ++ (rest.splitOn 38).filterMap keyValue := by
        rw [List.splitOn_append_cons_self_of_not_mem inPiece,← List.singleton_append,List.filterMap_append,← List.append_assoc,
          ← List.splitOn_eq_singleton inPiece,filterMap_single inPiece]
      refine Collects.after (step_ampersand (rest ++ [0]) added) ?_
      rw [next,bytes,pieces]
      exact piece_run holds' free' scan _
    · have more_ : front ++ w ++ (c :: rest ++ [0]) = front ++ (w ++ [c]) ++ (rest ++ [0]) := by simp
      have whole : w ++ c :: rest = w ++ [c] ++ rest := by simp
      have length : (w ++ [c]).length = w.length + 1 := by rw [List.length_append,List.length_singleton]
      have later := @ih doc entries front (w ++ [c]) ps holds free' (by simp [clean,nonzero.symm]) (by simp [inPiece,Ne.symm ends])
      rw [whole]
      refine Collects.after ?_ later
      rw [← more_,length]
      have read := AnotherC.PoolCells.read_word front w c (rest ++ [0])
      simp only [step,List.cons_append,read,Option.bind_eq_bind,Option.bind_some,nonzero,ends,ne_eq,not_false_eq_true,and_self,if_true]
      rfl

end

/-- The object of a query string has one entry for each key, in the order of the first pairs, with the
    encoded values of the key. -/
theorem to_json_collects (lib : Library) (self : Nat) (memory : Nat → Option Nat) {q : Text} (free : 0 ∉ q) :
    ∃ doc entries, Returns (step memory) (begin lib self q) doc ∧ Holds doc entries (collected (pairs q)) := by
  have empty : Holds (⟨acJsono lib self [] fun _ => none,[]⟩ : Doc lib) [] (collected []) :=
    ⟨(AnotherC.JsonObject.Start.created self [] _).inv,.nil,.nil⟩
  have inside : query q ≤ q.length := by
    rw [query]
    split
    case isTrue member => exact List.idxOf_lt_length_of_mem member
    case isFalse => exact Nat.zero_le _
  have length : (q.take (query q)).length = query q := List.length_take_of_le inside
  have split : q ++ [0] = q.take (query q) ++ (q.drop (query q) ++ [0]) := by rw [← List.append_assoc,List.take_append_drop]
  have free' : 0 ∉ q.drop (query q) := fun member => free (List.mem_of_mem_drop member)
  have scan := @scan_run lib _ [] (q.take (query q)) (q.drop (query q)) [] [] empty memory free' List.not_mem_nil List.not_mem_nil
  rw [List.append_nil,List.nil_append,List.length_nil,Nat.add_zero] at scan
  have piece := piece_run empty free' scan (query q)
  rw [length,← split] at piece
  exact piece

/-- `a=1&b&a=2`. -/
theorem to_json_collects_two : ∃ (doc : Doc listLibrary) (entries : List (Nat × Key × Nat)),
    Returns (step fun _ => none) (begin listLibrary 0 [97,61,49,38,98,38,97,61,50]) doc ∧
      Holds doc entries (collected (pairs [97,61,49,38,98,38,97,61,50])) :=
  to_json_collects listLibrary 0 (fun _ => none) (by decide)

example : collected (pairs [97,61,49,38,98,38,97,61,50]) = [([97],[[49],[50]])] := by decide

end AnotherC.CgiJson
