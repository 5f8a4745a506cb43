import AnotherC.Json.Arrays
import AnotherC.Lib.Text
import Mathlib.Data.List.Find

/-!
# Objects: lookups, insert and erase

An object is a doubly linked list of keys and values with one more field, `root`: NULL,
an array of the nodes in the order of their keys, or a search tree of the nodes. The count
`num_sorted_entries` tells the last two apart. The tree, the sort and the binary search are
the ones of a library (`Library`).
-/
namespace AnotherC.JsonObject
open AnotherC.AcJson (JsonType Json Pool Entry acJsonParse)
open AnotherC.Lib.Chain
open AnotherC.Lib.Text (strcmp strcmp_zero strcmp_total stringAt)
set_option linter.unusedVariables false

abbrev Key := List UInt8

/-- What the code uses of `macro_map`, `macro_sort` and `macro_bsearch_first_kv`. `Has` is
    the set of nodes that a tree holds; an empty tree is NULL. -/
structure Library where
  Tree : Type
  null : Tree
  isNull : Tree → Bool
  insert : (Nat → Key) → Tree → Nat → Tree
  find : (Nat → Key) → Tree → Key → Option Nat
  erase : (Nat → Key) → Tree → Nat → Tree
  sort : (Nat → Key) → List Nat → List Nat
  search : (Nat → Key) → List Nat → Key → Option Nat
  Has : (Nat → Key) → Tree → List Nat → Prop
  has_null {key : Nat → Key} : Has key null []
  has_perm {key : Nat → Key} {t : Tree} {ns ms : List Nat} : Has key t ns → ns.Perm ms → Has key t ms
  has_congr {key key' : Nat → Key} {t : Tree} {ns : List Nat} : Has key t ns → (∀ n ∈ ns, key n = key' n) → Has key' t ns
  isNull_iff {key : Nat → Key} {t : Tree} {ns : List Nat} : Has key t ns → (isNull t = true ↔ ns = [])
  has_insert {key : Nat → Key} {t : Tree} {ns : List Nat} {n : Nat} :
    Has key t ns → (∀ m ∈ ns, key m ≠ key n) → Has key (insert key t n) (n :: ns)
  has_erase {key : Nat → Key} {t : Tree} {ns : List Nat} {n : Nat} :
    Has key t (n :: ns) → ((n :: ns).map key).Nodup → Has key (erase key t n) ns
  find_eq {key : Nat → Key} {t : Tree} {ns : List Nat} {k : Key} :
    Has key t ns → (ns.map key).Nodup → find key t k = ns.find? fun n => strcmp k (key n) = 0
  sort_perm {key : Nat → Key} {ns : List Nat} : (sort key ns).Perm ns
  sort_sorted {key : Nat → Key} {ns : List Nat} : (sort key ns).Pairwise fun a b => strcmp (key a) (key b) ≤ 0
  search_eq {key : Nat → Key} {ns : List Nat} {k : Key} :
    ns.Pairwise (fun a b => strcmp (key a) (key b) ≤ 0) → search key ns k = ns.find? fun n => strcmp k (key n) = 0

/-! ## The functions -/

/-- The pointer `root`, by what lies there. -/
inductive Root (Tree : Type) where
  | null
  | array (cells : List Nat)
  | tree (t : Tree)

/-- `_ac_jsono_t` at its address, the nodes in the pool with their keys and the addresses of
    their values, and the parents of these. -/
structure Jsono (lib : Library) where
  self : Nat
  numEntries : Nat
  root : Root lib.Tree
  numSortedEntries : Nat
  head : Option Nat
  tail : Option Nat
  nodes : List (Link (Key × Nat))
  parent : Nat → Option Nat

def acJsono (lib : Library) (self : Nat) (nodes : List (Link (Key × Nat))) (parent : Nat → Option Nat) : Jsono lib :=
  { self := self, numEntries := 0, root := .null, numSortedEntries := 0, head := none, tail := none, nodes := nodes, parent := parent }

variable {lib : Library}

def keyOf (nodes : List (Link (Key × Nat))) (n : Nat) : Key := (nodes[n]?.map fun link => link.item.1).getD []

/-- The first so many pointers at `root`. -/
def Root.cells (root : Root lib.Tree) (n : Nat) : Option (List Nat) :=
  match root with
  | .array cells => if n ≤ cells.length then some (cells.take n) else none
  | _ => if n = 0 then some [] else none

/-- The tree at `root`. -/
def Root.asTree (root : Root lib.Tree) : Option lib.Tree :=
  match root with
  | .null => some lib.null
  | .array _ => none
  | .tree t => some t

def Root.ofTree (t : lib.Tree) : Root lib.Tree := if lib.isNull t = true then .null else .tree t

/-- `_ac_jsono_fill`: one pointer more than the count is allocated, and a list that is longer
    is written behind them. -/
def acJsonoFill (o : Jsono lib) : Option (Jsono lib) := do
  let all ← gather o.nodes Link.next ((o.numEntries + 1) % 2 ^ 32) o.head
  match all with
  | [] => some { o with root := .null, numSortedEntries := 0 }
  | _ :: _ => some { o with root := .array (lib.sort (keyOf o.nodes) all), numSortedEntries := all.length }

/-- The beginning of `ac_jsono_get_node` and `ac_jsono_get`: `none` inside is a return of NULL. -/
def sorted (o : Jsono lib) : Option (Option (Jsono lib)) :=
  match o.root, o.head with
  | .null, none => some none
  | .null, some _ => (acJsonoFill o).map some
  | _, _ => some (some o)

/-- The result of the search is dereferenced. -/
def acJsonoGetNode (o : Jsono lib) (key : Key) : Option (Option Nat × Jsono lib) := do
  match ← sorted o with
  | none => some (none,o)
  | some o => do
    let cells ← o.root.cells o.numSortedEntries
    let node ← lib.search (keyOf o.nodes) cells key
    some (some node,o)

def acJsonoGet (o : Jsono lib) (key : Key) : Option (Option Nat × Jsono lib) := do
  match ← sorted o with
  | none => some (none,o)
  | some o => do
    let cells ← o.root.cells o.numSortedEntries
    match lib.search (keyOf o.nodes) cells key with
    | none => some (none,o)
    | some node => do
      let link ← o.nodes[node]?
      some (some link.item.2,o)

/-- The loops of `ac_jsono_scan` and `ac_jsono_scanr`. -/
def scanAlong (nodes : List (Link (Key × Nat))) (pointer : Link (Key × Nat) → Option Nat) (key : Key) : Nat → Option Nat → Option (Option Nat)
  | _, none => some none
  | 0, some _ => none
  | fuel + 1, some r => do
    let link ← nodes[r]?
    if strcmp link.item.1 key = 0 then some (some link.item.2) else scanAlong nodes pointer key fuel (pointer link)

def acJsonoScan (o : Jsono lib) (key : Key) : Option (Option Nat) := scanAlong o.nodes Link.next key o.nodes.length o.head

def acJsonoScanr (o : Jsono lib) (key : Key) : Option (Option Nat) := scanAlong o.nodes Link.previous key o.nodes.length o.tail

/-- `_ac_jsono_fill_tree`. -/
def acJsonoFillTree (o : Jsono lib) : Option (Jsono lib) := do
  let all ← gather o.nodes Link.next o.nodes.length o.head
  some { o with root := Root.ofTree (all.foldl (lib.insert (keyOf o.nodes)) lib.null), numSortedEntries := 0 }

def acJsonoFind (o : Jsono lib) (key : Key) : Option (Option Nat × Jsono lib) :=
  match o.root, o.numSortedEntries, o.head with
  | .tree t, 0, _ => some (lib.find (keyOf o.nodes) t key,o)
  | .array _, 0, _ => none
  | _, _, none => some (none,o)
  | _, _, some _ => do
    let o ← acJsonoFillTree o
    let t ← o.root.asTree
    some (lib.find (keyOf o.nodes) t key,o)

/-- `ac_jsono_append`; a copy of the key is the same key. -/
def acJsonoAppend (o : Jsono lib) (key : Key) (item : Nat) : Option (Jsono lib) :=
  match o.head with
  | none => some
    { o with
      numEntries := (o.numEntries + 1) % 2 ^ 32, head := some o.nodes.length, tail := some o.nodes.length,
      nodes := o.nodes ++ [⟨(key,item),none,none⟩], parent := fun v => if v = item then some o.self else o.parent v }
  | some _ => do
    let tail ← o.tail
    let nodes ← setNext o.nodes tail (some o.nodes.length)
    some
      { o with
        numEntries := (o.numEntries + 1) % 2 ^ 32, tail := some o.nodes.length, nodes := nodes ++ [⟨(key,item),none,some tail⟩],
        parent := fun v => if v = item then some o.self else o.parent v }

def acJsonoInsert (o : Jsono lib) (key : Key) (item : Option Nat) : Option (Option Nat × Jsono lib) :=
  match item with
  | none => some (none,o)
  | some item => do
    match ← acJsonoFind o key with
    | (some res,o) => do
      let link ← o.nodes[res]?
      let nodes ← setItem o.nodes res (link.item.1,item)
      some (some res,{ o with nodes := nodes, parent := fun v => if v = item then some o.self else o.parent v })
    | (none,o) => do
      let o ← acJsonoAppend o key item
      let t ← o.root.asTree
      let tail ← o.tail
      some (none,{ o with root := Root.ofTree (lib.insert (keyOf o.nodes) t tail) })

/-- The tree or the sorted array without a node. -/
def eraseRoot (o : Jsono lib) (n : Nat) : Option (Root lib.Tree × Nat) :=
  match o.root, o.numSortedEntries with
  | .null, sorted => some (.null,sorted)
  | .array _, 0 => none
  | .tree t, 0 => some (Root.ofTree (lib.erase (keyOf o.nodes) t n),0)
  | _, _ + 1 => some (.null,0)

/-- One entry less, with these members. -/
def erased (o : Jsono lib) (root : Root lib.Tree × Nat) (nodes : List (Link (Key × Nat))) (head tail : Option Nat) : Jsono lib :=
  { o with
    numEntries := (o.numEntries + (2 ^ 32 - 1)) % 2 ^ 32, root := root.1, numSortedEntries := root.2, nodes := nodes,
    head := head, tail := tail }

/-- `ac_jsono_erase` of a node of this object. -/
def acJsonoErase (o : Jsono lib) (n : Nat) : Option (Jsono lib) := do
  let node ← o.nodes[n]?
  let root ← eraseRoot o n
  if o.parent node.item.2 ≠ some o.self then none
  else
    match node.previous with
    | some p => do
      let nodes ← setNext o.nodes p node.next
      match node.next with
      | some q => do
        let nodes ← setPrevious nodes q node.previous
        some (erased o root nodes o.head o.tail)
      | none => some (erased o root nodes o.head node.previous)
    | none =>
      match node.next with
      | some q => do
        let nodes ← setPrevious o.nodes q none
        some (erased o root nodes node.next o.tail)
      | none => some (erased o root o.nodes none none)

/-! ## The invariant -/

/-- The entry with a key. -/
def lookup (entries : List (Nat × Key × Nat)) (key : Key) : Option (Nat × Key × Nat) := entries.find? fun e => e.2.1 = key

/-- What lies at `root` is what the count says, and holds the nodes of the list. -/
def RootHolds (o : Jsono lib) (entries : List (Nat × Key × Nat)) : Prop :=
  match o.root with
  | .null => o.numSortedEntries = 0
  | .array cells => entries ≠ [] ∧ o.numSortedEntries = entries.length ∧ cells = lib.sort (keyOf o.nodes) (entries.map Prod.fst)
  | .tree t => entries ≠ [] ∧ o.numSortedEntries = 0 ∧ lib.Has (keyOf o.nodes) t (entries.map Prod.fst)

/-- The list has these entries in order, as nodes with keys and values. -/
structure Inv (o : Jsono lib) (entries : List (Nat × Key × Nat)) : Prop where
  chain : Linked o.nodes none (entries.map Prod.fst) (entries.map Prod.snd)
  head : o.head = (entries.map Prod.fst).head?
  tail : o.tail = (entries.map Prod.fst).getLast?
  count : o.numEntries = entries.length % 2 ^ 32
  distinct : (entries.map fun e => e.2.1).Nodup
  parents : ∀ e ∈ entries, o.parent e.2.2 = some o.self
  root : RootHolds o entries

section
variable {o o' : Jsono lib} {entries : List (Nat × Key × Nat)} {key : Key}

theorem Inv.named (inv : Inv o entries) {e : Nat × Key × Nat} (inside : e ∈ entries) : keyOf o.nodes e.1 = e.2.1 := by
  obtain ⟨link,found,item⟩ := link_of inv.chain inside
  rw [keyOf,found,Option.map_some,item]
  rfl

theorem Inv.keys (inv : Inv o entries) : (entries.map Prod.fst).map (keyOf o.nodes) = entries.map fun e => e.2.1 := by
  rw [List.map_map]
  exact List.map_congr_left fun e inside => inv.named inside

theorem Inv.nodup (inv : Inv o entries) : ((entries.map Prod.fst).map (keyOf o.nodes)).Nodup := inv.keys ▸ inv.distinct

theorem Inv.head_some (inv : Inv o entries) (some_ : entries ≠ []) : ∃ h, o.head = some h := by
  cases entries with
  | nil => exact absurd rfl some_
  | cons e entries => exact ⟨e.1,inv.head⟩

theorem Inv.head_none (inv : Inv o []) : o.head = none := inv.head

/-! ### Finding by key -/

theorem lookup_iff (distinct : (entries.map fun e => e.2.1).Nodup) {e : Nat × Key × Nat} :
    lookup entries key = some e ↔ e ∈ entries ∧ e.2.1 = key := by
  unfold lookup
  induction entries with
  | nil => simp
  | cons first entries ih =>
    obtain ⟨other,distinct⟩ := List.nodup_cons.mp distinct
    by_cases same : first.2.1 = key
    · rw [List.find?_cons_of_pos (by simpa using same),Option.some.injEq]
      constructor
      · rintro rfl
        exact ⟨List.mem_cons_self,same⟩
      · rintro ⟨inside,isKey⟩
        rcases List.mem_cons.mp inside with rfl | later
        · rfl
        · exact absurd (List.mem_map.mpr ⟨e,later,isKey.trans same.symm⟩) other
    · rw [List.find?_cons_of_neg (by simpa using same),ih distinct]
      constructor
      · exact fun both => ⟨List.mem_cons_of_mem _ both.1,both.2⟩
      · rintro ⟨inside,isKey⟩
        rcases List.mem_cons.mp inside with rfl | later
        · exact absurd isKey same
        · exact ⟨later,isKey⟩

theorem lookup_none : lookup entries key = none ↔ ∀ e ∈ entries, e.2.1 ≠ key := by
  rw [lookup,List.find?_eq_none]
  simp

/-- The nodes in any order are searched with the same result. -/
theorem find_perm (inv : Inv o entries) {ns : List Nat} (perm : ns.Perm (entries.map Prod.fst)) {p : Nat → Bool}
    (matches_ : ∀ n ∈ ns, p n = true ↔ keyOf o.nodes n = key) : ns.find? p = (lookup entries key).map Prod.fst := by
  cases found : lookup entries key with
  | none =>
    rw [Option.map_none,List.find?_eq_none]
    intro n inside isKey
    obtain ⟨e,member,rfl⟩ := List.mem_map.mp (perm.mem_iff.mp inside)
    exact lookup_none.mp found e member ((inv.named member).symm.trans ((matches_ _ inside).mp isKey))
  | some e =>
    obtain ⟨member,isKey⟩ := (lookup_iff inv.distinct).mp found
    have inside : e.1 ∈ ns := perm.mem_iff.mpr (List.mem_map_of_mem member)
    cases first : ns.find? p with
    | none =>
      have other := List.find?_eq_none.mp first e.1 inside
      exact absurd ((matches_ _ inside).mpr ((inv.named member).trans isKey)) other
    | some n =>
      have there := List.mem_of_find?_eq_some first
      have isKey' := (matches_ n there).mp (List.find?_some first)
      obtain ⟨e',member',rfl⟩ := List.mem_map.mp (perm.mem_iff.mp there)
      rw [inv.named member'] at isKey'
      have same := (lookup_iff inv.distinct).mpr ⟨member',isKey'⟩
      rw [found] at same
      cases same
      rfl

theorem strcmp_key (n : Nat) : decide (strcmp key (keyOf o.nodes n) = 0) = true ↔ keyOf o.nodes n = key := by
  rw [decide_eq_true_eq,strcmp_zero]
  exact eq_comm

theorem tree_find (inv : Inv o entries) {t : lib.Tree} (has : lib.Has (keyOf o.nodes) t (entries.map Prod.fst)) :
    lib.find (keyOf o.nodes) t key = (lookup entries key).map Prod.fst := by
  rw [lib.find_eq has inv.nodup]
  exact find_perm inv (List.Perm.refl _) fun n inside => strcmp_key n

theorem array_find (inv : Inv o entries) :
    lib.search (keyOf o.nodes) (lib.sort (keyOf o.nodes) (entries.map Prod.fst)) key = (lookup entries key).map Prod.fst := by
  rw [lib.search_eq lib.sort_sorted]
  exact find_perm inv lib.sort_perm fun n inside => strcmp_key n

/-! ### The tree -/

/-- Nodes with other keys than those of a tree, and of one another, are inserted. -/
theorem insert_all {key : Nat → Key} {t : lib.Tree} {ns : List Nat} (has : lib.Has key t ns) (all : List Nat)
    (distinct : ((ns ++ all).map key).Nodup) : lib.Has key (all.foldl (lib.insert key) t) (ns ++ all) := by
  induction all generalizing t ns with
  | nil =>
    rw [List.append_nil]
    exact has
  | cons n all ih =>
    have moved : (n :: ns ++ all).Perm (ns ++ n :: all) := List.perm_middle.symm
    have distinct' : ((n :: ns ++ all).map key).Nodup := (moved.map key).nodup_iff.mpr distinct
    have fresh : ∀ m ∈ ns, key m ≠ key n := by
      intro m inside same
      exact (List.nodup_cons.mp distinct').1 (List.mem_map.mpr ⟨m,List.mem_append_left _ inside,same⟩)
    exact lib.has_perm (ih (lib.has_insert has fresh) distinct') moved

theorem ofTree_some {key : Nat → Key} {t : lib.Tree} {ns : List Nat} (has : lib.Has key t ns) (some_ : ns ≠ []) :
    Root.ofTree t = .tree t := if_neg fun null => some_ ((lib.isNull_iff has).mp null)

/-- The tree is built, or was there. -/
theorem find_inv (inv : Inv o entries) (key : Key) :
    ∃ root, acJsonoFind o key = some ((lookup entries key).map Prod.fst,{ o with root := root, numSortedEntries := 0 }) ∧
      Inv { o with root := root, numSortedEntries := 0 } entries ∧
      ((entries = [] ∧ root = .null) ∨ ∃ t, root = .tree t ∧ entries ≠ []) := by
  have root := inv.root
  unfold RootHolds at root
  have filled : entries ≠ [] → ∃ t, acJsonoFillTree o = some { o with root := .tree t, numSortedEntries := 0 } ∧
      lib.Has (keyOf o.nodes) t (entries.map Prod.fst) := by
    intro some_
    have all := inv.chain.gather_next inv.chain.length_le
    rw [← inv.head] at all
    have null : lib.Has (keyOf o.nodes) lib.null [] := lib.has_null
    have has := insert_all null (entries.map Prod.fst) inv.nodup
    refine ⟨_,?_,has⟩
    rw [acJsonoFillTree,all]
    simp only [Option.bind_eq_bind,Option.bind_some]
    rw [ofTree_some has (by simpa using some_)]
  have keeps {t : lib.Tree} (some_ : entries ≠ []) (has : lib.Has (keyOf o.nodes) t (entries.map Prod.fst)) :
      Inv { o with root := .tree t, numSortedEntries := 0 } entries :=
    ⟨inv.chain,inv.head,inv.tail,inv.count,inv.distinct,inv.parents,some_,rfl,has⟩
  cases isRoot : o.root with
  | null =>
    rw [isRoot] at root
    by_cases none_ : entries = []
    · subst none_
      refine ⟨.null,?_,⟨inv.chain,inv.head,inv.tail,inv.count,inv.distinct,inv.parents,rfl⟩,.inl ⟨rfl,rfl⟩⟩
      have same : o = { o with root := .null, numSortedEntries := 0 } := by
        rw [← isRoot,← (show o.numSortedEntries = 0 from root)]
      rw [← same]
      simp only [acJsonoFind,isRoot,inv.head_none]
      rfl
    · obtain ⟨t,made,has⟩ := filled none_
      obtain ⟨h,isHead⟩ := inv.head_some none_
      refine ⟨.tree t,?_,keeps none_ has,.inr ⟨t,rfl,none_⟩⟩
      simp only [acJsonoFind,isRoot,isHead,made,Root.asTree,Option.bind_eq_bind,Option.bind_some,tree_find inv has]
  | array cells =>
    rw [isRoot] at root
    obtain ⟨some_,sorted,-⟩ := root
    obtain ⟨t,made,has⟩ := filled some_
    obtain ⟨h,isHead⟩ := inv.head_some some_
    obtain ⟨n,positive⟩ : ∃ n, o.numSortedEntries = n + 1 :=
      ⟨o.numSortedEntries - 1,by have := List.length_pos_iff.mpr some_; omega⟩
    refine ⟨.tree t,?_,keeps some_ has,.inr ⟨t,rfl,some_⟩⟩
    simp only [acJsonoFind,isRoot,positive,isHead,made,Root.asTree,Option.bind_eq_bind,Option.bind_some,tree_find inv has]
  | tree t =>
    rw [isRoot] at root
    obtain ⟨some_,sorted,has⟩ := root
    refine ⟨.tree t,?_,keeps some_ has,.inr ⟨t,rfl,some_⟩⟩
    have same : o = { o with root := .tree t, numSortedEntries := 0 } := by rw [← isRoot,← sorted]
    rw [← same]
    simp only [acJsonoFind,isRoot,sorted,tree_find inv has]

/-! ### The scans -/

def valueOf (nodes : List (Link (Key × Nat))) (n : Nat) : Nat := (nodes[n]?.map fun link => link.item.2).getD 0

theorem scanAlong_gather {nodes : List (Link (Key × Nat))} {pointer : Link (Key × Nat) → Option Nat} {fuel : Nat}
    {place : Option Nat} {all : List Nat} (gathered : gather nodes pointer fuel place = some all) :
    scanAlong nodes pointer key fuel place =
      some ((all.find? fun n => strcmp (keyOf nodes n) key = 0).map (valueOf nodes)) := by
  induction fuel generalizing place all with
  | zero =>
    cases place with
    | none =>
      cases gathered
      rfl
    | some r => cases gathered
  | succ fuel ih =>
    cases place with
    | none =>
      cases gathered
      rfl
    | some r =>
      obtain ⟨link,found,gathered⟩ := Option.bind_eq_some_iff.mp gathered
      obtain ⟨rest,later,gathered⟩ := Option.bind_eq_some_iff.mp gathered
      cases gathered
      have isKey : keyOf nodes r = link.item.1 := by rw [keyOf,found]; rfl
      have isValue : valueOf nodes r = link.item.2 := by rw [valueOf,found]; rfl
      rw [scanAlong,found]
      simp only [Option.bind_eq_bind,Option.bind_some]
      by_cases same : strcmp link.item.1 key = 0
      · rw [if_pos same,List.find?_cons_of_pos (by rw [isKey]; exact decide_eq_true same),Option.map_some,isValue]
      · rw [if_neg same,List.find?_cons_of_neg (by rw [isKey]; exact fun isSame => same (of_decide_eq_true isSame))]
        exact ih later

theorem Inv.value (inv : Inv o entries) : (lookup entries key).map (fun e => e.2.2) =
    ((lookup entries key).map Prod.fst).map (valueOf o.nodes) := by
  cases found : lookup entries key with
  | none => rfl
  | some e =>
    obtain ⟨link,there,item⟩ := link_of inv.chain ((lookup_iff inv.distinct).mp found).1
    rw [Option.map_some,Option.map_some,Option.map_some,valueOf,there,Option.map_some,item]
    rfl

theorem strcmp_key' (n : Nat) : decide (strcmp (keyOf o.nodes n) key = 0) = true ↔ keyOf o.nodes n = key := by
  rw [decide_eq_true_eq,strcmp_zero]

theorem scan_inv (inv : Inv o entries) (key : Key) : acJsonoScan o key = some ((lookup entries key).map fun e => e.2.2) := by
  have all := inv.chain.gather_next inv.chain.length_le
  rw [← inv.head] at all
  rw [acJsonoScan,scanAlong_gather all,inv.value,find_perm inv (List.Perm.refl _) fun n inside => strcmp_key' n]

theorem scanr_inv (inv : Inv o entries) (key : Key) : acJsonoScanr o key = some ((lookup entries key).map fun e => e.2.2) := by
  have all := inv.chain.gather_previous (Nat.le_refl _) inv.chain.length_le
  rw [List.take_length,← inv.tail] at all
  rw [acJsonoScanr,scanAlong_gather all,inv.value,find_perm inv (List.reverse_perm _) fun n inside => strcmp_key' n]

end

/-! ## From the parser -/

/-- The object at `b` in what a call of the parser has allocated. -/
def parsedObject (lib : Library) (bytes : List UInt8) (pool : Pool) (b : Nat) (json : Json) : Jsono lib where
  self := b
  numEntries := json.numEntries
  root := .null
  numSortedEntries := 0
  head := json.head
  tail := json.tail
  nodes := pool.entries.map fun link => ⟨((link.item.1.map (stringAt bytes)).getD [],link.item.2),link.next,link.previous⟩
  parent v := pool.values[v]?.bind Json.parent

/-- An object of a parsed text, with what its list has from the head on. -/
structure Parsed (o : Jsono lib) (entries : List (Nat × Key × Nat)) : Prop where
  object : ∃ fuel text r b s json, acJsonParse fuel text = some (.returned (some r) s) ∧ s.pool.values[b]? = some json ∧
    json.type = .object ∧ o = parsedObject lib s.bytes s.pool b json
  list : gather o.nodes Link.next o.nodes.length o.head = some (entries.map Prod.fst)
  items : ∀ e ∈ entries, ∃ link, o.nodes[e.1]? = some link ∧ link.item = e.2

theorem Parsed.inv {o : Jsono lib} {entries : List (Nat × Key × Nat)} (parsed : Parsed o entries)
    (distinct : (entries.map fun e => e.2.1).Nodup) : Inv o entries := by
  obtain ⟨⟨fuel,text,r,b,s,json,ran,found,isObject,rfl⟩,list,values⟩ := parsed
  obtain ⟨places,items,head,tail,chain,count,-,-,children⟩ := ((JsonArray.parsed_wellFormed ran).2 b json found).2 (.inl isObject)
  have mapped := chain.map fun item : Entry => ((item.1.map (stringAt s.bytes)).getD [],item.2)
  have list : gather (parsedObject lib s.bytes s.pool b json).nodes Link.next _ json.head = _ := list
  rw [head] at list
  obtain ⟨rfl,isItems⟩ := mapped.gathered list values
  rw [isItems] at mapped
  refine ⟨mapped,head,tail,?_,distinct,?_,rfl⟩
  · have length := congrArg List.length isItems
    rw [List.length_map,List.length_map] at length
    rw [← length]
    exact count
  · intro e inside
    have member : e.2 ∈ items.map fun item : Entry => ((item.1.map (stringAt s.bytes)).getD [],item.2) := by
      rw [isItems]
      exact List.mem_map_of_mem inside
    obtain ⟨entry,isEntry,same⟩ := List.mem_map.mp member
    obtain ⟨-,child,isChild,up⟩ := children entry isEntry
    have isValue : entry.2 = e.2.2 := congrArg Prod.snd same
    rw [isValue] at isChild
    show (s.pool.values[e.2.2]?).bind Json.parent = some b
    rw [isChild]
    exact up

/-! ## A library, and an object -/

/-- Lists of nodes as trees. -/
def listLibrary : Library where
  Tree := List Nat
  null := []
  isNull := List.isEmpty
  insert key t n := n :: t
  find key t k := t.find? fun n => strcmp k (key n) = 0
  erase key t n := t.erase n
  sort key ns := ns.mergeSort fun a b => strcmp (key a) (key b) ≤ 0
  search key ns k := ns.find? fun n => strcmp k (key n) = 0
  Has key t ns := t.Perm ns
  has_null := List.Perm.refl []
  has_perm := List.Perm.trans
  has_congr has same := has
  isNull_iff has := by
    rw [List.isEmpty_iff]
    exact ⟨fun none_ => List.nil_perm.mp (none_ ▸ has),fun none_ => List.perm_nil.mp (none_ ▸ has)⟩
  has_insert has other := has.cons _
  has_erase {key t ns n} has distinct := by
    have rest := has.erase n
    rwa [List.erase_cons_head] at rest
  find_eq {key t ns k} has distinct := by
    refine List.find?_eq_find?_of_perm has fun a first b second => ?_
    have isKey := strcmp_zero.mp (of_decide_eq_true first.2)
    have isKey' := strcmp_zero.mp (of_decide_eq_true second.2)
    exact List.inj_on_of_nodup_map distinct (has.mem_iff.mp first.1) (has.mem_iff.mp second.1) (isKey.symm.trans isKey')
  sort_perm := List.mergeSort_perm _ _
  sort_sorted {key ns} := by
    have sorted : (ns.mergeSort fun a b => strcmp (key a) (key b) ≤ 0).Pairwise fun a b => decide (strcmp (key a) (key b) ≤ 0) = true := by
      refine List.pairwise_mergeSort (fun a b c ab bc => ?_) (fun a b => ?_) ns
      · exact decide_eq_true (strcmp_total.trans _ _ _ (of_decide_eq_true ab) (of_decide_eq_true bc))
      · rw [Bool.or_eq_true,decide_eq_true_eq,decide_eq_true_eq]
        have swap := strcmp_total.swap (key b) (key a)
        omega
    exact sorted.imp of_decide_eq_true
  search_eq sorted := rfl

/-- The object of `{"a":1}` after it was parsed. -/
theorem parsed_one (lib : Library) : ∃ o : Jsono lib, Parsed o [(0,[97],1)] := by
  obtain ⟨s,json,ran,found,isObject,entries,key⟩ : ∃ s json, acJsonParse 20 [123,34,97,34,58,49,125] = some (.returned (some 0) s) ∧
      s.pool.values[0]? = some json ∧ json.type = .object ∧ (s.pool.entries = [⟨(some 2,1),none,none⟩] ∧ json.head = some 0) ∧
      stringAt s.bytes 2 = [97] := ⟨_,_,rfl,rfl,rfl,⟨rfl,rfl⟩,rfl⟩
  have nodes : (parsedObject lib s.bytes s.pool 0 json).nodes = [⟨([97],1),none,none⟩] := by
    rw [parsedObject,entries.1,← key]
    rfl
  refine ⟨_,⟨20,_,0,0,s,json,ran,found,isObject,rfl⟩,?_,?_⟩
  · rw [nodes,show (parsedObject lib s.bytes s.pool 0 json).head = some 0 from entries.2]
    rfl
  · intro e inside
    obtain rfl := List.mem_singleton.mp inside
    exact ⟨_,by rw [nodes]; rfl,rfl⟩

end AnotherC.JsonObject
