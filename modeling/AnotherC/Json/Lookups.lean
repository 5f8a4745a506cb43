import AnotherC.Json.Objects

/-!
# The five lookups of a parsed object

`ac_jsono_get` and `ac_jsono_get_node` search the sorted array, and `ac_jsono_find` puts a
tree in its place and sets the count of the array to zero, after which the other two search
an array of no entries. `ac_jsono_get_node` dereferences the result of its search.
-/
namespace AnotherC.JsonObject
open AnotherC.Lib.Chain
set_option linter.unusedVariables false

inductive Lookup where
  | get (key : Key)
  | getNode (key : Key)
  | find (key : Key)
  | scan (key : Key)
  | scanr (key : Key)
deriving Repr, DecidableEq

variable {lib : Library}

/-- A call and what it leaves. -/
def answer (o : Jsono lib) : Lookup → Option (Option Nat × Jsono lib)
  | .get key => acJsonoGet o key
  | .getNode key => acJsonoGetNode o key
  | .find key => acJsonoFind o key
  | .scan key => (acJsonoScan o key).map fun value => (value,o)
  | .scanr key => (acJsonoScanr o key).map fun value => (value,o)

/-- The value of the key, or its node. -/
def expected (entries : List (Nat × Key × Nat)) : Lookup → Option Nat
  | .get key => (lookup entries key).map fun e => e.2.2
  | .getNode key => (lookup entries key).map Prod.fst
  | .find key => (lookup entries key).map Prod.fst
  | .scan key => (lookup entries key).map fun e => e.2.2
  | .scanr key => (lookup entries key).map fun e => e.2.2

/-- The list of keys and values is the same. -/
def SameList (o o' : Jsono lib) : Prop :=
  o'.nodes = o.nodes ∧ o'.head = o.head ∧ o'.tail = o.tail ∧ o'.numEntries = o.numEntries

/-- Every call returns what is expected and leaves the list as it is. -/
def Agree : Jsono lib → List (Nat × Key × Nat) → List Lookup → Prop
  | _, _, [] => True
  | o, entries, op :: ops => ∃ o', answer o op = some (expected entries op,o') ∧ SameList o o' ∧ Agree o' entries ops

def Lookup.isFind : Lookup → Bool
  | .find _ => true
  | _ => false

/-- When a call is right behind those before it. -/
def Fits (entries : List (Nat × Key × Nat)) (earlier : List Lookup) : Lookup → Prop
  | .get key => if earlier.any Lookup.isFind = true then lookup entries key = none else entries.length + 1 < 2 ^ 32
  | .getNode key =>
    entries = [] ∨ earlier.any Lookup.isFind = false ∧ (lookup entries key).isSome = true ∧ entries.length + 1 < 2 ^ 32
  | _ => True

def Root.isTree {Tree : Type} : Root Tree → Bool
  | .tree _ => true
  | _ => false

def Root.isArray {Tree : Type} : Root Tree → Bool
  | .array _ => true
  | _ => false

/-- A tree was built if and only if there was a find; an array was built in enough room. -/
structure Stage (o : Jsono lib) (entries : List (Nat × Key × Nat)) (found : Bool) : Prop where
  inv : Inv o entries
  tree : entries ≠ [] → o.root.isTree = found
  array : o.root.isArray = true → entries.length + 1 < 2 ^ 32

section
variable {o : Jsono lib} {entries : List (Nat × Key × Nat)} {found : Bool}

/-! ## The sorted array -/

theorem fill_inv (inv : Inv o entries) (some_ : entries ≠ []) (room : entries.length + 1 < 2 ^ 32) :
    acJsonoFill o =
      some { o with root := .array (lib.sort (keyOf o.nodes) (entries.map Prod.fst)), numSortedEntries := entries.length } := by
  have all : gather o.nodes Link.next ((o.numEntries + 1) % 2 ^ 32) _ = _ := inv.chain.gather_next (by
    rw [List.length_map,inv.count,Nat.mod_eq_of_lt (Nat.lt_of_succ_lt room),Nat.mod_eq_of_lt room]
    exact Nat.le_succ _)
  rw [← inv.head] at all
  rw [acJsonoFill,all]
  cases entries with
  | nil => exact absurd rfl some_
  | cons e entries => simp only [Option.bind_eq_bind,Option.bind_some,List.map_cons,List.length_cons,List.length_map]

/-- The array that is allocated is too short for a list with as many entries. -/
theorem fill_none (inv : Inv o entries) (full : ¬ entries.length + 1 < 2 ^ 32) : acJsonoFill o = none := by
  have short : gather o.nodes Link.next ((o.numEntries + 1) % 2 ^ 32) _ = none := inv.chain.gather_short (by
    rw [List.length_map,inv.count]
    have less := Nat.mod_lt (entries.length % 2 ^ 32 + 1) (Nat.two_pow_pos 32)
    by_cases last : entries.length + 1 = 2 ^ 32
    · rw [Nat.mod_eq_of_lt (a := entries.length) (by omega),last,Nat.mod_self]
      omega
    · omega)
  rw [← inv.head] at short
  rw [acJsonoFill,short]
  rfl

theorem array_cells (inv : Inv o entries) :
    (Root.array (lib.sort (keyOf o.nodes) (entries.map Prod.fst)) : Root lib.Tree).cells entries.length =
      some (lib.sort (keyOf o.nodes) (entries.map Prod.fst)) := by
  have length : (lib.sort (keyOf o.nodes) (entries.map Prod.fst)).length = entries.length := by
    rw [lib.sort_perm.length_eq,List.length_map]
  rw [Root.cells,if_pos (Nat.le_of_eq length.symm),List.take_of_length_le (Nat.le_of_eq length)]

/-- What the beginning of `ac_jsono_get` leaves, if it goes on: an array that is right, or
    one of no entries where the tree is. -/
theorem sorted_cases (stage : Stage o entries found) :
    (entries = [] ∧ sorted o = some none) ∨
    (entries ≠ [] ∧ found = false ∧ entries.length + 1 < 2 ^ 32 ∧ ∃ o', sorted o = some (some o') ∧ SameList o o' ∧
      Stage o' entries false ∧ o'.root.cells o'.numSortedEntries = some (lib.sort (keyOf o'.nodes) (entries.map Prod.fst))) ∨
    (entries ≠ [] ∧ found = false ∧ ¬ entries.length + 1 < 2 ^ 32 ∧ sorted o = none) ∨
    (entries ≠ [] ∧ found = true ∧ sorted o = some (some o) ∧ o.root.cells o.numSortedEntries = some []) := by
  obtain ⟨inv,tree,array⟩ := stage
  have root := inv.root
  unfold RootHolds at root
  by_cases none_ : entries = []
  · subst none_
    refine .inl ⟨rfl,?_⟩
    cases isRoot : o.root with
    | null => simp only [sorted,isRoot,inv.head_none]
    | array cells =>
      rw [isRoot] at root
      exact absurd rfl root.1
    | tree t =>
      rw [isRoot] at root
      exact absurd rfl root.1
  obtain ⟨h,isHead⟩ := inv.head_some none_
  have isFound := tree none_
  cases isRoot : o.root with
  | null =>
    rw [isRoot] at isFound
    have goes : sorted o = (acJsonoFill o).map some := by simp only [sorted,isRoot,isHead]
    rw [goes]
    by_cases room : entries.length + 1 < 2 ^ 32
    · refine .inr (.inl ⟨none_,isFound.symm,room,
        { o with root := .array (lib.sort (keyOf o.nodes) (entries.map Prod.fst)), numSortedEntries := entries.length },
        by rw [fill_inv inv none_ room]; rfl,⟨rfl,rfl,rfl,rfl⟩,⟨⟨inv.chain,inv.head,inv.tail,inv.count,inv.distinct,inv.parents,none_,rfl,rfl⟩,fun _ => rfl,fun _ => room⟩,?_⟩)
      exact array_cells inv
    · exact .inr (.inr (.inl ⟨none_,isFound.symm,room,by rw [fill_none inv room]; rfl⟩))
  | array cells =>
    rw [isRoot] at isFound root
    have room := array (by rw [isRoot]; rfl)
    refine .inr (.inl ⟨none_,isFound.symm,room,o,by simp only [sorted,isRoot],⟨rfl,rfl,rfl,rfl⟩,
      ⟨inv,fun _ => by rw [isRoot]; rfl,array⟩,?_⟩)
    rw [isRoot,root.2.1,root.2.2]
    exact array_cells inv
  | tree t =>
    rw [isRoot] at isFound root
    refine .inr (.inr (.inr ⟨none_,isFound.symm,by simp only [sorted,isRoot],?_⟩))
    rw [root.2.1]
    rfl

theorem search_nothing (nodes : Nat → Key) (key : Key) : lib.search nodes [] key = none := by
  rw [lib.search_eq List.Pairwise.nil]
  rfl

/-! ## One call -/

theorem get_spec (stage : Stage o entries found) (key : Key) :
    if found = true ∧ entries ≠ [] then acJsonoGet o key = some (none,o)
    else if entries.length + 1 < 2 ^ 32 then
      ∃ o', acJsonoGet o key = some (expected entries (.get key),o') ∧ SameList o o' ∧ Stage o' entries found
    else acJsonoGet o key = none := by
  unfold acJsonoGet
  rcases sorted_cases stage with ⟨rfl,goes⟩ | ⟨some_,rfl,room,o',goes,same,stage',cells⟩ | ⟨some_,rfl,full,goes⟩ | ⟨some_,rfl,goes,cells⟩
  · rw [if_neg (fun both => both.2 rfl),if_pos (by decide),goes]
    exact ⟨o,rfl,⟨rfl,rfl,rfl,rfl⟩,stage⟩
  · rw [if_neg (fun both => absurd both.1 (by decide)),if_pos room,goes]
    simp only [Option.bind_eq_bind,Option.bind_some,cells,array_find stage'.inv]
    refine ⟨o',?_,same,stage'⟩
    have value : (lookup entries key).map (fun e => e.2.2) = ((lookup entries key).map Prod.fst).map (valueOf o'.nodes) :=
      stage'.inv.value
    cases found : lookup entries key with
    | none =>
      rw [expected,found]
      rfl
    | some e =>
      obtain ⟨link,there,item⟩ := link_of stage'.inv.chain ((lookup_iff stage'.inv.distinct).mp found).1
      rw [expected,found]
      simp only [Option.map_some,there,Option.bind_some,item]
  · rw [if_neg (fun both => absurd both.1 (by decide)),if_neg full,goes]
    rfl
  · rw [if_pos ⟨rfl,some_⟩,goes]
    simp only [Option.bind_eq_bind,Option.bind_some,cells,search_nothing]

theorem getNode_spec (stage : Stage o entries found) (key : Key) :
    if entries = [] then acJsonoGetNode o key = some (none,o)
    else if found = false ∧ (lookup entries key).isSome = true ∧ entries.length + 1 < 2 ^ 32 then
      ∃ o', acJsonoGetNode o key = some (expected entries (.getNode key),o') ∧ SameList o o' ∧ Stage o' entries found
    else acJsonoGetNode o key = none := by
  unfold acJsonoGetNode
  rcases sorted_cases stage with ⟨rfl,goes⟩ | ⟨some_,rfl,room,o',goes,same,stage',cells⟩ | ⟨some_,rfl,full,goes⟩ | ⟨some_,rfl,goes,cells⟩
  · rw [if_pos rfl,goes]
    rfl
  · rw [if_neg some_,goes]
    simp only [Option.bind_eq_bind,Option.bind_some,cells,array_find stage'.inv]
    cases found : lookup entries key with
    | none =>
      rw [if_neg (fun both => absurd both.2.1 (by decide))]
      rfl
    | some e =>
      rw [if_pos ⟨trivial,rfl,room⟩,expected,found]
      exact ⟨o',rfl,same,stage'⟩
  · rw [if_neg some_,if_neg (fun both => full both.2.2),goes]
    rfl
  · rw [if_neg some_,if_neg (fun both => absurd both.1 (by decide)),goes]
    simp only [Option.bind_eq_bind,Option.bind_some,cells,search_nothing]
    rfl

/-- A find is always right, and leaves a tree. -/
theorem find_spec (stage : Stage o entries found) (key : Key) :
    ∃ o', acJsonoFind o key = some (expected entries (.find key),o') ∧ SameList o o' ∧ Stage o' entries true := by
  obtain ⟨root,returns,inv',shape⟩ := find_inv stage.inv key
  refine ⟨_,returns,⟨rfl,rfl,rfl,rfl⟩,inv',?_,?_⟩
  · intro some_
    rcases shape with ⟨none_,-⟩ | ⟨t,rfl,-⟩
    · exact absurd none_ some_
    · rfl
  · rcases shape with ⟨-,rfl⟩ | ⟨t,rfl,-⟩
    · nofun
    · nofun

theorem lookup_nil (key : Key) : lookup [] key = none := rfl

/-- One call is right if and only if it fits, and then the next one finds a stage again. -/
theorem answer_iff (earlier : List Lookup) (stage : Stage o entries (earlier.any Lookup.isFind)) (op : Lookup) :
    (Fits entries earlier op → ∃ o', answer o op = some (expected entries op,o') ∧ SameList o o' ∧
      Stage o' entries ((earlier ++ [op]).any Lookup.isFind)) ∧
    (¬ Fits entries earlier op → ∀ o', answer o op ≠ some (expected entries op,o')) := by
  have any (other : op.isFind = false) : (earlier ++ [op]).any Lookup.isFind = earlier.any Lookup.isFind := by
    rw [List.any_append,List.any_cons,other,List.any_nil,Bool.or_self,Bool.or_false]
  cases op with
  | get key =>
    have spec := get_spec stage key
    rw [any rfl]
    simp only [Fits]
    by_cases searched : earlier.any Lookup.isFind = true ∧ entries ≠ []
    · rw [if_pos searched] at spec
      rw [if_pos searched.1]
      constructor
      · intro absent
        refine ⟨o,?_,⟨rfl,rfl,rfl,rfl⟩,stage⟩
        rw [answer,spec,expected,absent]
        rfl
      · intro present o' returns
        rw [answer,spec] at returns
        cases lookedUp : lookup entries key with
        | none => exact present lookedUp
        | some e =>
          rw [expected,lookedUp] at returns
          cases returns
    · rw [if_neg searched] at spec
      by_cases room : entries.length + 1 < 2 ^ 32
      · rw [if_pos room] at spec
        refine ⟨fun _ => spec,fun unfit => absurd ?_ unfit⟩
        split
        case isTrue isFound =>
          have none_ : entries = [] := by
            by_contra some_
            exact searched ⟨isFound,some_⟩
          rw [none_]
          rfl
        case isFalse => exact room
      · rw [if_neg room] at spec
        have isFound : ¬ earlier.any Lookup.isFind = true := by
          intro isFound
          refine searched ⟨isFound,?_⟩
          rintro rfl
          exact room (by decide)
        rw [if_neg isFound]
        refine ⟨fun fits => absurd fits room,fun _ o' returns => ?_⟩
        rw [answer,spec] at returns
        cases returns
  | getNode key =>
    have spec := getNode_spec stage key
    rw [any rfl]
    simp only [Fits]
    by_cases none_ : entries = []
    · rw [if_pos none_] at spec
      refine ⟨fun _ => ⟨o,?_,⟨rfl,rfl,rfl,rfl⟩,stage⟩,fun unfit => absurd (.inl none_) unfit⟩
      rw [answer,spec,none_]
      rfl
    · rw [if_neg none_] at spec
      by_cases fits : earlier.any Lookup.isFind = false ∧ (lookup entries key).isSome = true ∧ entries.length + 1 < 2 ^ 32
      · rw [if_pos fits] at spec
        exact ⟨fun _ => spec,fun unfit => absurd (.inr fits) unfit⟩
      · rw [if_neg fits] at spec
        refine ⟨fun either => absurd (either.resolve_left none_) fits,fun _ o' returns => ?_⟩
        rw [answer,spec] at returns
        cases returns
  | find key =>
    have isFound : (earlier ++ [Lookup.find key]).any Lookup.isFind = true := by
      rw [List.any_append]
      exact Bool.or_true _
    rw [isFound]
    exact ⟨fun _ => find_spec stage key,fun unfit => absurd trivial unfit⟩
  | scan key =>
    rw [any rfl]
    refine ⟨fun _ => ⟨o,?_,⟨rfl,rfl,rfl,rfl⟩,stage⟩,fun unfit => absurd trivial unfit⟩
    rw [answer,scan_inv stage.inv]
    rfl
  | scanr key =>
    rw [any rfl]
    refine ⟨fun _ => ⟨o,?_,⟨rfl,rfl,rfl,rfl⟩,stage⟩,fun unfit => absurd trivial unfit⟩
    rw [answer,scanr_inv stage.inv]
    rfl

/-! ## Sequences -/

theorem splits_cons {α : Type} {x : α} {xs : List α} {P : List α → α → Prop} :
    (∀ before y after, x :: xs = before ++ y :: after → P before y) ↔
      P [] x ∧ ∀ before y after, xs = before ++ y :: after → P (x :: before) y := by
  constructor
  · intro all
    refine ⟨all [] x xs rfl,?_⟩
    rintro before y after rfl
    exact all (x :: before) y after rfl
  · rintro ⟨first,later⟩ before y after split
    cases before with
    | nil =>
      cases split
      exact first
    | cons b before =>
      cases split
      exact later before y after rfl

theorem agree_iff (earlier : List Lookup) {ops : List Lookup} (stage : Stage o entries (earlier.any Lookup.isFind)) :
    Agree o entries ops ↔ ∀ before op after, ops = before ++ op :: after → Fits entries (earlier ++ before) op := by
  induction ops generalizing o earlier with
  | nil => exact iff_of_true trivial fun before op after split => by cases before <;> cases split
  | cons op ops ih =>
    obtain ⟨right,wrong⟩ := answer_iff earlier stage op
    rw [splits_cons,List.append_nil]
    by_cases fits : Fits entries earlier op
    · obtain ⟨o',returns,same,stage'⟩ := right fits
      have later := ih (earlier ++ [op]) stage'
      simp only [List.append_assoc,List.singleton_append] at later
      rw [← later]
      constructor
      · rintro ⟨o'',returns',-,agree⟩
        cases returns.symm.trans returns'
        exact ⟨fits,agree⟩
      · exact fun both => ⟨o',returns,same,both.2⟩
    · refine iff_of_false ?_ fun both => fits both.1
      rintro ⟨o',returns,-⟩
      exact wrong fits o' returns

theorem parsed_stage (parsed : Parsed o entries) (distinct : (entries.map fun e => e.2.1).Nodup) : Stage o entries false := by
  have inv := parsed.inv distinct
  obtain ⟨⟨fuel,text,r,b,s,json,-,-,-,rfl⟩,-,-⟩ := parsed
  exact ⟨inv,fun _ => rfl,nofun⟩

/-- The lookups of a parsed object with distinct keys agree if and only if there is no
    `ac_jsono_get` of a present key and no `ac_jsono_get_node` behind an `ac_jsono_find`,
    every `ac_jsono_get_node` is for a present key, and these two find less than 2^32 - 1
    entries. In an empty object they agree always. -/
theorem lookups_agree_iff (parsed : Parsed o entries) (distinct : (entries.map fun e => e.2.1).Nodup) (ops : List Lookup) :
    Agree o entries ops ↔ ∀ before op after, ops = before ++ op :: after → Fits entries before op :=
  agree_iff [] (parsed_stage parsed distinct)

/-- A present key and an absent one, the finds last. -/
theorem lookups_agree_one : ∃ o : Jsono listLibrary,
    Agree o [(0,[97],1)] [.scan [97],.getNode [97],.get [98],.get [97],.find [97],.scanr [98]] := by
  obtain ⟨o,parsed⟩ := parsed_one listLibrary
  refine ⟨o,(lookups_agree_iff parsed (by decide) _).mpr ?_⟩
  rw [splits_cons,splits_cons,splits_cons,splits_cons,splits_cons,splits_cons]
  refine ⟨trivial,.inr ⟨rfl,rfl,by decide⟩,?_,?_,trivial,trivial,fun before op after split => by cases before <;> cases split⟩
  · show 1 + 1 < 2 ^ 32
    decide
  · show 1 + 1 < 2 ^ 32
    decide

/-- After `ac_jsono_find` of its only key, `ac_jsono_get` returns NULL for it. -/
theorem get_behind_find : ¬ ∀ (o : Jsono listLibrary) (entries : List (Nat × Key × Nat)), Parsed o entries →
    (entries.map fun e => e.2.1).Nodup → ∀ ops, Agree o entries ops := by
  intro all
  obtain ⟨o,parsed⟩ := parsed_one listLibrary
  have agree := all o _ parsed (by decide) [.find [97],.get [97]]
  obtain ⟨o₁,returns,-,o₂,returns',-⟩ := agree
  have fits := (answer_iff [] (parsed_stage parsed (by decide)) (.find [97])).1 trivial
  obtain ⟨o',isAnswer,-,stage⟩ := fits
  cases returns.symm.trans isAnswer
  have unfit : ¬ Fits [(0,[97],1)] [.find [97]] (.get [97]) := nofun
  exact (answer_iff [.find [97]] stage (.get [97])).2 unfit o₂ returns'

end
end AnotherC.JsonObject
