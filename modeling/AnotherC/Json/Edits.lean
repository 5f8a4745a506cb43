import AnotherC.Json.Objects

/-!
# Objects as maps in the order of insertion

`ac_jsono_insert`, `ac_jsono_find` and `ac_jsono_erase` in any order. The tree is absent, or
holds the nodes of the list: this is `RootHolds`, and every edit keeps it.
-/
namespace AnotherC.JsonObject
open AnotherC.Lib.Chain
set_option linter.unusedVariables false

inductive Edit where
  | insert (key : Key) (item : Option Nat)
  | find (key : Key)
  | erase (n : Nat)
deriving Repr, DecidableEq

variable {lib : Library}

/-- A call with the node that it returns. -/
def edit (o : Jsono lib) : Edit → Option (Option Nat × Jsono lib)
  | .insert key item => acJsonoInsert o key item
  | .find key => acJsonoFind o key
  | .erase n => (acJsonoErase o n).map fun o => (none,o)

/-- The value of a key is replaced, or the key becomes the last one. -/
def inserted (fresh : Nat) (entries : List (Nat × Key × Nat)) (key : Key) (item : Nat) : List (Nat × Key × Nat) :=
  if (lookup entries key).isSome = true then entries.map fun e => if e.2.1 = key then (e.1,e.2.1,item) else e
  else entries ++ [(fresh,key,item)]

/-- The map after an edit; a new node has the next address. -/
def edited (fresh : Nat) (entries : List (Nat × Key × Nat)) : Edit → List (Nat × Key × Nat)
  | .insert key (some item) => inserted fresh entries key item
  | .insert _ none => entries
  | .find _ => entries
  | .erase n => entries.filter (·.1 ≠ n)

/-- What an edit returns: the node that the key had. -/
def returned (entries : List (Nat × Key × Nat)) : Edit → Option Nat
  | .insert key (some _) => (lookup entries key).map Prod.fst
  | .insert _ none => none
  | .find key => (lookup entries key).map Prod.fst
  | .erase _ => none

/-- A node that is erased is in the object. -/
def Held (entries : List (Nat × Key × Nat)) : Edit → Prop
  | .erase n => n ∈ entries.map Prod.fst
  | _ => True

/-- The object is this map: its list in both directions, one entry for a key, what every
    find returns, and the length in 32 bits. -/
structure IsMap (o : Jsono lib) (entries : List (Nat × Key × Nat)) : Prop where
  forward : gather o.nodes Link.next entries.length o.head = some (entries.map Prod.fst)
  backward : gather o.nodes Link.previous entries.length o.tail = some (entries.map Prod.fst).reverse
  items : ∀ e ∈ entries, ∃ link, o.nodes[e.1]? = some link ∧ link.item = e.2
  once : (entries.map fun e => e.2.1).Nodup
  find : ∀ key, (acJsonoFind o key).map Prod.fst = some ((lookup entries key).map Prod.fst)
  count : o.numEntries = entries.length % 2 ^ 32

def AllHeld : Jsono lib → List (Nat × Key × Nat) → List Edit → Prop
  | _, _, [] => True
  | o, entries, op :: ops =>
    Held entries op ∧ ∀ node o', edit o op = some (node,o') → AllHeld o' (edited o.nodes.length entries op) ops

/-- Every state that is reached is its map, and every edit returns what it should. -/
def StaysMap : Jsono lib → List (Nat × Key × Nat) → List Edit → Prop
  | o, entries, [] => IsMap o entries
  | o, entries, op :: ops =>
    IsMap o entries ∧ ∃ o', edit o op = some (returned entries op,o') ∧ StaysMap o' (edited o.nodes.length entries op) ops

section
variable {o : Jsono lib} {entries front behind : List (Nat × Key × Nat)} {e : Nat × Key × Nat} {key : Key}

theorem Inv.isMap (inv : Inv o entries) : IsMap o entries := by
  have whole : gather o.nodes Link.previous entries.length _ = _ :=
    inv.chain.gather_previous (k := entries.length) (by rw [List.length_map]) (Nat.le_refl _)
  rw [List.take_of_length_le (by rw [List.length_map]),← inv.tail] at whole
  refine ⟨?_,whole,fun e inside => link_of inv.chain inside,inv.distinct,fun key => ?_,inv.count⟩
  · rw [inv.head]
    exact inv.chain.gather_next (by rw [List.length_map])
  · obtain ⟨root,returns,-⟩ := find_inv inv key
    rw [returns]
    rfl

/-! ## Insert -/

/-- The keys of a chain are those of its entries. -/
theorem keyOf_chain {nodes : List (Link (Key × Nat))} (chain : Linked nodes none (entries.map Prod.fst) (entries.map Prod.snd))
    (inside : e ∈ entries) : keyOf nodes e.1 = e.2.1 := by
  obtain ⟨link,found,item⟩ := link_of chain inside
  rw [keyOf,found,Option.map_some,item]
  rfl

/-- The appended list, before the new node is in the tree. -/
theorem append_list (inv : Inv o entries) (key : Key) (item : Nat) :
    ∃ nodes head, acJsonoAppend o key item =
        some { o with
          numEntries := (o.numEntries + 1) % 2 ^ 32, head := head, tail := some o.nodes.length, nodes := nodes,
          parent := fun v => if v = item then some o.self else o.parent v } ∧
      Linked nodes none ((entries ++ [(o.nodes.length,key,item)]).map Prod.fst) ((entries ++ [(o.nodes.length,key,item)]).map Prod.snd) ∧
      head = ((entries ++ [(o.nodes.length,key,item)]).map Prod.fst).head? := by
  unfold acJsonoAppend
  by_cases none_ : entries = []
  · subst none_
    rw [inv.head_none]
    exact ⟨_,_,rfl,Linked.single o.nodes (key,item),rfl⟩
  · obtain ⟨h,isHead⟩ := inv.head_some none_
    obtain ⟨t,nodes,isTail,set,chain⟩ := inv.chain.hang_last none_ (key,item)
    simp only [isHead,inv.tail,isTail,Option.bind_eq_bind,Option.bind_some,set]
    refine ⟨_,_,rfl,chain,?_⟩
    rw [List.map_append,List.head?_append,← inv.head,isHead]
    rfl

theorem parents_set (inv : Inv o entries) (item : Nat) {entries' : List (Nat × Key × Nat)}
    (values : ∀ e ∈ entries', e.2.2 = item ∨ ∃ d ∈ entries, d.2.2 = e.2.2) :
    ∀ e ∈ entries', (if e.2.2 = item then some o.self else o.parent e.2.2) = some o.self := by
  intro e inside
  split
  case isTrue => rfl
  case isFalse other =>
    obtain ⟨d,member,same⟩ := (values e inside).resolve_left other
    rw [← same]
    exact inv.parents d member

theorem insert_new (inv : Inv o entries) (absent : lookup entries key = none) (item : Nat) :
    ∃ o', acJsonoInsert o key (some item) = some (none,o') ∧ Inv o' (entries ++ [(o.nodes.length,key,item)]) := by
  obtain ⟨root,returns,inv',shape⟩ := find_inv inv key
  obtain ⟨nodes,head,made,chain,isHead⟩ := append_list inv' key item
  dsimp only at made chain isHead
  have counted : (o.numEntries + 1) % 2 ^ 32 = (entries ++ [(o.nodes.length,key,item)]).length % 2 ^ 32 := by
    rw [inv.count,List.length_append,List.length_singleton,Nat.mod_add_mod]
  have distinct : ((entries ++ [(o.nodes.length,key,item)]).map fun e => e.2.1).Nodup := by
    rw [List.map_append,List.nodup_append]
    refine ⟨inv.distinct,List.nodup_singleton _,?_⟩
    rintro k inside k' isKey rfl
    obtain ⟨d,member,rfl⟩ := List.mem_map.mp inside
    exact lookup_none.mp absent d member (List.mem_singleton.mp isKey)
  have same : ∀ n ∈ entries.map Prod.fst, keyOf o.nodes n = keyOf nodes n := by
    intro n inside
    obtain ⟨d,member,rfl⟩ := List.mem_map.mp inside
    rw [inv.named member,keyOf_chain chain (List.mem_append_left _ member)]
  have newKey : keyOf nodes o.nodes.length = key := keyOf_chain chain (List.mem_append_right _ List.mem_cons_self)
  obtain ⟨t,isTree,has⟩ : ∃ t : lib.Tree, root.asTree = some t ∧ lib.Has (keyOf nodes) t (entries.map Prod.fst) := by
    rcases shape with ⟨rfl,rfl⟩ | ⟨t,rfl,some_⟩
    · exact ⟨lib.null,rfl,lib.has_null⟩
    · exact ⟨t,rfl,lib.has_congr inv'.root.2.2 same⟩
  have more : lib.Has (keyOf nodes) (lib.insert (keyOf nodes) t o.nodes.length) (o.nodes.length :: entries.map Prod.fst) := by
    refine lib.has_insert has fun n inside isKey => ?_
    obtain ⟨d,member,rfl⟩ := List.mem_map.mp inside
    rw [newKey,← same _ inside,inv.named member] at isKey
    exact lookup_none.mp absent d member isKey
  have whole := lib.has_perm more (List.perm_append_singleton _ _).symm
  unfold acJsonoInsert
  simp only [returns,absent,Option.map_none,Option.bind_eq_bind,Option.bind_some,made,isTree]
  refine ⟨_,rfl,chain,isHead,?_,counted,distinct,?_,?_⟩
  · rw [List.map_append,List.getLast?_append]
    rfl
  · refine parents_set inv item fun d member => ?_
    rcases List.mem_append.mp member with old | new
    · exact .inr ⟨d,old,rfl⟩
    · exact .inl (congrArg (fun e => e.2.2) (List.mem_singleton.mp new))
  · rw [ofTree_some whole (by simp)]
    refine ⟨by simp,rfl,?_⟩
    rw [List.map_append]
    exact whole

theorem insert_old (inv : Inv o entries) (found : lookup entries key = some e) (item : Nat) :
    ∃ o', acJsonoInsert o key (some item) = some (some e.1,o') ∧
      Inv o' (entries.map fun e => if e.2.1 = key then (e.1,e.2.1,item) else e) := by
  obtain ⟨root,returns,inv',shape⟩ := find_inv inv key
  obtain ⟨member,isKey⟩ := (lookup_iff inv.distinct).mp found
  obtain ⟨link,there,isItem⟩ := link_of inv.chain member
  obtain ⟨nodes,set,length,get⟩ := setItem_spec (List.getElem?_eq_some_iff.mp there).1 (link.item.1,item)
  have named : link.item.1 = key := by rw [isItem,isKey]
  have places : (entries.map fun e => if e.2.1 = key then (e.1,e.2.1,item) else e).map Prod.fst = entries.map Prod.fst := by
    rw [List.map_map]
    refine List.map_congr_left fun d inside => ?_
    show (if d.2.1 = key then (d.1,d.2.1,item) else d).1 = d.1
    split <;> rfl
  have items : (entries.map fun e => if e.2.1 = key then (e.1,e.2.1,item) else e).map Prod.snd =
      entries.map fun d => if e.1 = d.1 then (link.item.1,item) else d.2 := by
    rw [List.map_map]
    refine List.map_congr_left fun d inside => ?_
    show (if d.2.1 = key then (d.1,d.2.1,item) else d).2 = _
    by_cases same : d.2.1 = key
    · have isEntry : lookup entries key = some d := (lookup_iff inv.distinct).mpr ⟨inside,same⟩
      rw [found] at isEntry
      cases isEntry
      rw [if_pos same,if_pos rfl,named,same]
    · have other : e.1 ≠ d.1 := by
        intro place
        have first := inv.named member
        rw [place,inv.named inside,isKey] at first
        exact same first
      rw [if_neg same,if_neg other]
  have keys : (entries.map fun e => if e.2.1 = key then (e.1,e.2.1,item) else e).map (fun e => e.2.1) = entries.map fun e => e.2.1 := by
    rw [List.map_map]
    refine List.map_congr_left fun d inside => ?_
    show (if d.2.1 = key then (d.1,d.2.1,item) else d).2.1 = d.2.1
    split <;> rfl
  have chain := inv.chain.update get
  rw [← items,← places] at chain
  have same : ∀ n, keyOf o.nodes n = keyOf nodes n := by
    intro n
    rw [keyOf,keyOf,get,Option.map_map]
    by_cases here : e.1 = n
    · subst here
      rw [there]
      simp
    · simp only [here,if_false]
      rfl
  unfold acJsonoInsert
  simp only [returns,found,Option.map_some,Option.bind_eq_bind,Option.bind_some,there,set]
  refine ⟨_,rfl,chain,?_,?_,?_,?_,?_,?_⟩
  · rw [places]
    exact inv.head
  · rw [places]
    exact inv.tail
  · rw [List.length_map]
    exact inv.count
  · rw [keys]
    exact inv.distinct
  · refine parents_set inv item fun d inside => ?_
    obtain ⟨c,old,rfl⟩ := List.mem_map.mp inside
    split
    · exact .inl rfl
    · exact .inr ⟨c,old,rfl⟩
  · obtain ⟨t,rfl⟩ : ∃ t, root = .tree t := by
      rcases shape with ⟨rfl,-⟩ | ⟨t,isTree,-⟩
      · cases member
      · exact ⟨t,isTree⟩
    obtain ⟨some_,-,has⟩ := inv'.root
    have some' : (entries.map fun e => if e.2.1 = key then (e.1,e.2.1,item) else e) ≠ [] := by simpa using some_
    refine ⟨some',rfl,?_⟩
    rw [places]
    exact lib.has_congr has fun n inside => same n

/-! ## Erase -/

/-- What is left at `root` holds the nodes that are left. -/
theorem eraseRoot_holds (inv : Inv o (front ++ e :: behind)) :
    ∃ root, eraseRoot o e.1 = some root ∧ ∀ o' : Jsono lib, o'.root = root.1 → o'.numSortedEntries = root.2 →
      (∀ n ∈ (front ++ behind).map Prod.fst, keyOf o.nodes n = keyOf o'.nodes n) → RootHolds o' (front ++ behind) := by
  have root := inv.root
  unfold RootHolds at root
  cases isRoot : o.root with
  | null =>
    rw [isRoot] at root
    refine ⟨(.null,0),by simp only [eraseRoot,isRoot,show o.numSortedEntries = 0 from root],fun o' isRoot' sorted same => ?_⟩
    rw [RootHolds,isRoot']
    exact sorted
  | array cells =>
    rw [isRoot] at root
    obtain ⟨n,positive⟩ : ∃ n, o.numSortedEntries = n + 1 := by
      rw [root.2.1,List.length_append,List.length_cons]
      exact ⟨_,rfl⟩
    refine ⟨(.null,0),by simp only [eraseRoot,isRoot,positive],fun o' isRoot' sorted same => ?_⟩
    rw [RootHolds,isRoot']
    exact sorted
  | tree t =>
    rw [isRoot] at root
    obtain ⟨-,zero,has⟩ := root
    refine ⟨(Root.ofTree (lib.erase (keyOf o.nodes) t e.1),0),by simp only [eraseRoot,isRoot,zero],fun o' isRoot' sorted same => ?_⟩
    have moved : ((front ++ e :: behind).map Prod.fst).Perm (e.1 :: (front ++ behind).map Prod.fst) := by
      rw [List.map_append,List.map_cons,List.map_append]
      exact List.perm_middle
    have rest := lib.has_erase (lib.has_perm has moved) ((moved.map (keyOf o.nodes)).nodup_iff.mp inv.nodup)
    rw [RootHolds,isRoot']
    by_cases none_ : front ++ behind = []
    · rw [none_] at rest
      have null : Root.ofTree (lib.erase (keyOf o.nodes) t e.1) = .null := if_pos ((lib.isNull_iff rest).mpr rfl)
      rw [null]
      exact sorted
    · rw [ofTree_some rest (by simpa using none_)]
      exact ⟨none_,sorted,lib.has_congr rest same⟩

theorem erased_inv (inv : Inv o (front ++ e :: behind)) {root : Root lib.Tree × Nat} {nodes : List (Link (Key × Nat))}
    {head tail : Option Nat}
    (holds : ∀ o' : Jsono lib, o'.root = root.1 → o'.numSortedEntries = root.2 →
      (∀ n ∈ (front ++ behind).map Prod.fst, keyOf o.nodes n = keyOf o'.nodes n) → RootHolds o' (front ++ behind))
    (small : (front ++ e :: behind).length % 2 ^ 32 = o.numEntries)
    (chain : Linked nodes none ((front ++ behind).map Prod.fst) ((front ++ behind).map Prod.snd))
    (isHead : head = ((front ++ behind).map Prod.fst).head?) (isTail : tail = ((front ++ behind).map Prod.fst).getLast?) :
    Inv (erased o root nodes head tail) (front ++ behind) := by
  have inside {d : Nat × Key × Nat} (member : d ∈ front ++ behind) : d ∈ front ++ e :: behind := by
    rcases List.mem_append.mp member with first | later
    · exact List.mem_append_left _ first
    · exact List.mem_append_right _ (List.mem_cons_of_mem _ later)
  have counted : (o.numEntries + (2 ^ 32 - 1)) % 2 ^ 32 = (front ++ behind).length % 2 ^ 32 := by
    rw [← small]
    simp only [List.length_append,List.length_cons]
    omega
  have parents : ∀ d ∈ front ++ behind, o.parent d.2.2 = some o.self := fun d member => inv.parents d (inside member)
  have keys : ∀ n ∈ (front ++ behind).map Prod.fst, keyOf o.nodes n = keyOf nodes n := by
    intro n there
    obtain ⟨d,member,rfl⟩ := List.mem_map.mp there
    rw [inv.named (inside member)]
    exact (keyOf_chain chain member).symm
  have isRoot := holds (erased o root nodes head tail) rfl rfl keys
  unfold erased at isRoot ⊢
  refine ⟨chain,isHead,isTail,counted,?_,parents,isRoot⟩
  refine inv.distinct.sublist ?_
  rw [List.map_append,List.map_append,List.map_cons]
  exact List.Sublist.append_left (List.sublist_cons_self _ _) _

/-- What erasing does to the list. -/
theorem erase_takeOut {n : Nat} {node : Link (Key × Nat)} {root : Root lib.Tree × Nat} (found : o.nodes[n]? = some node)
    (isRoot : eraseRoot o n = some root) (parent : o.parent node.item.2 = some o.self) :
    acJsonoErase o n = (takeOut o.nodes o.head o.tail node).map fun made => erased o root made.1 made.2.1 made.2.2 := by
  obtain ⟨item,next,previous⟩ := node
  unfold acJsonoErase takeOut
  simp only [found,Option.bind_eq_bind,Option.bind_some,isRoot,parent]
  rw [if_neg (fun other => other rfl)]
  cases previous with
  | none =>
    cases next with
    | none => rfl
    | some q =>
      dsimp only
      cases setPrevious o.nodes q none <;> rfl
  | some p =>
    cases next with
    | none =>
      dsimp only
      cases setNext o.nodes p none <;> rfl
    | some q =>
      dsimp only
      cases setNext o.nodes p (some q) with
      | none => rfl
      | some nodes =>
        rw [Option.bind_some,Option.bind_some]
        cases setPrevious nodes q (some p) <;> rfl

theorem erase_inv (inv : Inv o entries) {n : Nat} (member : n ∈ entries.map Prod.fst) :
    ∃ o', acJsonoErase o n = some o' ∧ Inv o' (entries.filter (·.1 ≠ n)) := by
  obtain ⟨e,inside,rfl⟩ := List.mem_map.mp member
  obtain ⟨front,behind,rfl⟩ := List.append_of_mem inside
  rw [filter_out inv.chain.nodup]
  obtain ⟨found,-⟩ := inv.chain.without
  obtain ⟨root,isRoot,holds⟩ := eraseRoot_holds inv
  obtain ⟨nodes,taken,-,chain⟩ := inv.chain.takeOut
  refine ⟨_,?_,erased_inv inv holds inv.count.symm chain rfl rfl⟩
  rw [erase_takeOut found isRoot (inv.parents e inside),inv.head,inv.tail,taken]
  rfl

/-! ## Runs -/

theorem edit_inv (inv : Inv o entries) {op : Edit} (held : Held entries op) :
    ∃ o', edit o op = some (returned entries op,o') ∧ Inv o' (edited o.nodes.length entries op) := by
  cases op with
  | insert key item =>
    cases item with
    | none => exact ⟨o,rfl,inv⟩
    | some item =>
      rw [edit,returned,edited,inserted]
      cases found : lookup entries key with
      | none =>
        rw [if_neg (by decide)]
        exact insert_new inv found item
      | some e =>
        rw [if_pos (by rfl)]
        exact insert_old inv found item
  | find key =>
    obtain ⟨root,returns,inv',-⟩ := find_inv inv key
    exact ⟨_,returns,inv'⟩
  | erase n =>
    obtain ⟨o',made,inv'⟩ := erase_inv inv held
    exact ⟨o',by rw [edit,made]; rfl,inv'⟩

theorem stays_map (inv : Inv o entries) {ops : List Edit} (held : AllHeld o entries ops) : StaysMap o entries ops := by
  induction ops generalizing o entries with
  | nil => exact inv.isMap
  | cons op ops ih =>
    obtain ⟨o',made,inv'⟩ := edit_inv inv held.1
    exact ⟨inv.isMap,o',made,ih inv' (held.2 _ o' made)⟩

/-- A new object, or one that was parsed and has distinct keys. -/
inductive Start : Jsono lib → List (Nat × Key × Nat) → Prop where
  | created (self : Nat) (nodes : List (Link (Key × Nat))) (parent : Nat → Option Nat) : Start (acJsono lib self nodes parent) []
  | parsed {o : Jsono lib} {entries : List (Nat × Key × Nat)} (parsed : Parsed o entries)
      (distinct : (entries.map fun e => e.2.1).Nodup) : Start o entries

theorem Start.inv (start : Start o entries) : Inv o entries := by
  cases start with
  | created self nodes parent => exact ⟨trivial,rfl,rfl,rfl,List.nodup_nil,nofun,rfl⟩
  | parsed parsed distinct => exact parsed.inv distinct

/-- Every run of edits keeps the object a map in the order of insertion, whose length is
    counted in 32 bits. -/
theorem object_stays_map {ops : List Edit} (start : Start o entries) (held : AllHeld o entries ops) : StaysMap o entries ops :=
  stays_map start.inv held

/-- A key is inserted twice, and its node is taken out. -/
theorem object_stays_map_one : StaysMap (acJsono listLibrary 0 [] fun _ => none) []
    [.insert [97] (some 5),.insert [97] (some 6),.find [98],.erase 0] := by
  refine object_stays_map (.created 0 [] _) ⟨trivial,fun node o made => ⟨trivial,fun node o made => ⟨trivial,fun node o made => ?_⟩⟩⟩
  exact ⟨List.mem_cons_self,fun _ _ _ => trivial⟩

/-! ## The count -/

/-- The object and the map after a run. -/
def reach : Jsono lib → List (Nat × Key × Nat) → List Edit → Option (Jsono lib × List (Nat × Key × Nat))
  | o, entries, [] => some (o,entries)
  | o, entries, op :: ops => do
    let made ← edit o op
    reach made.2 (edited o.nodes.length entries op) ops

theorem reach_append (ops : List Edit) {op : Edit} {o₁ o₂ : Jsono lib} {entries₁ : List (Nat × Key × Nat)} {node : Option Nat}
    (first : reach o entries ops = some (o₁,entries₁)) (last : edit o₁ op = some (node,o₂)) :
    reach o entries (ops ++ [op]) = some (o₂,edited o₁.nodes.length entries₁ op) := by
  induction ops generalizing o entries with
  | nil =>
    cases first
    rw [List.nil_append,reach,last]
    rfl
  | cons head ops ih =>
    obtain ⟨made,isMade,first⟩ := Option.bind_eq_some_iff.mp first
    rw [List.cons_append,reach,isMade]
    exact ih first

/-- Five bytes for a number, none of them NUL. -/
def keyAt (i : Nat) : Key :=
  [UInt8.ofNat (1 + i % 128),UInt8.ofNat (1 + i / 128 % 128),UInt8.ofNat (1 + i / 16384 % 128),UInt8.ofNat (1 + i / 2097152 % 128),
    UInt8.ofNat (1 + i / 268435456 % 128)]

theorem keyAt_inj {i j : Nat} (small : i < 2 ^ 35) (small' : j < 2 ^ 35) (same : keyAt i = keyAt j) : i = j := by
  have digit {m n : Nat} (eq : UInt8.ofNat (1 + m % 128) = UInt8.ofNat (1 + n % 128)) : m % 128 = n % 128 := by
    have value := congrArg UInt8.toNat eq
    rw [UInt8.toNat_ofNat',UInt8.toNat_ofNat'] at value
    omega
  simp only [keyAt,List.cons.injEq,and_true] at same
  obtain ⟨a,b,c,d,e⟩ := same
  have := digit a
  have := digit b
  have := digit c
  have := digit d
  have := digit e
  omega

def inserts (n : Nat) : List Edit := (List.range n).map fun i => .insert (keyAt i) (some i)

/-- So many keys are inserted into a new object. -/
theorem inserts_reach (lib : Library) (n : Nat) (small : n ≤ 2 ^ 32) :
    ∃ o entries, reach (acJsono lib 0 [] fun _ => none) [] (inserts n) = some (o,entries) ∧ Inv o entries ∧
      entries.map (fun e => e.2.1) = (List.range n).map keyAt := by
  induction n with
  | zero => exact ⟨_,_,rfl,Start.inv (.created 0 [] _),rfl⟩
  | succ n ih =>
    obtain ⟨o,entries,ran,inv,keys⟩ := ih (Nat.le_of_succ_le small)
    have absent : lookup entries (keyAt n) = none := by
      refine lookup_none.mpr fun e inside isKey => ?_
      have member : keyAt n ∈ entries.map fun e => e.2.1 := List.mem_map.mpr ⟨e,inside,isKey⟩
      rw [keys] at member
      obtain ⟨i,below,same⟩ := List.mem_map.mp member
      have less := List.mem_range.mp below
      have := keyAt_inj (by omega) (by omega) same
      omega
    obtain ⟨o',made,inv'⟩ := insert_new inv absent n
    have grown : edited o.nodes.length entries (.insert (keyAt n) (some n)) = entries ++ [(o.nodes.length,keyAt n,n)] := by
      rw [edited,inserted,absent]
      rfl
    refine ⟨o',_,?_,inv',?_⟩
    · rw [inserts,List.range_succ,List.map_append,← grown]
      exact reach_append _ ran made
    · rw [List.map_append,keys,List.range_succ,List.map_append]
      rfl

theorem held_inserts {ops : List Edit} (inserts_ : ∀ op ∈ ops, ∃ key item, op = .insert key item) : AllHeld o entries ops := by
  induction ops generalizing o entries with
  | nil => trivial
  | cons op ops ih =>
    obtain ⟨key,item,rfl⟩ := inserts_ op List.mem_cons_self
    exact ⟨trivial,fun _ _ _ => ih fun op inside => inserts_ op (List.mem_cons_of_mem _ inside)⟩

theorem held_all (n : Nat) : AllHeld o entries (inserts n) := by
  apply held_inserts
  intro op inside
  obtain ⟨i,-,rfl⟩ := List.mem_map.mp inside
  exact ⟨_,_,rfl⟩

/-- With 2^32 keys the count is zero. -/
theorem count_wraps : ¬ ∀ ops (o : Jsono listLibrary) entries, AllHeld (acJsono listLibrary 0 [] fun _ => none) [] ops →
    reach (acJsono listLibrary 0 [] fun _ => none) [] ops = some (o,entries) → o.numEntries = entries.length := by
  intro all
  have full : 2 ^ 32 ≤ 2 ^ 32 := by omega
  obtain ⟨o,entries,ran,inv,keys⟩ := inserts_reach listLibrary (2 ^ 32) full
  have length := congrArg List.length keys
  rw [List.length_map,List.length_map,List.length_range] at length
  have count := all _ o entries (held_all (2 ^ 32)) ran
  rw [inv.count,length] at count
  cases count

end
end AnotherC.JsonObject
