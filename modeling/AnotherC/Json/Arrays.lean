import AnotherC.Json.Safety
import AnotherC.Json.Scan

/-!
# Arrays: `ac_jsona_append`, `ac_jsona_erase`, and the three ways to read

An array is a doubly linked list, its length, and an index that is built by the first
access and then kept, shifted or dropped. `ac_jsona_append` does not set the `previous`
of a node that becomes the first one, and takes it from the memory of the pool.
-/
namespace AnotherC.JsonArray
open AnotherC.AcJson (JsonType Json Pool Entry acJsonParse)
open AnotherC.Lib.Chain
set_option linter.unusedVariables false

/-! ## The functions -/

/-- `_ac_jsona_t` at its address, the nodes in the pool, whose items are the addresses of
    the values, and the parents of these. `array` is what lies behind the pointer. -/
structure Jsona where
  self : Nat
  numEntries : Nat
  array : Option (List Nat)
  head : Option Nat
  tail : Option Nat
  nodes : List (Link Nat)
  parent : Nat → Option Nat

def acJsona (self : Nat) (nodes : List (Link Nat)) (parent : Nat → Option Nat) : Jsona :=
  { self := self, numEntries := 0, array := none, head := none, tail := none, nodes := nodes, parent := parent }

/-- `_ac_jsona_fill`; a list that is longer than the new index is written behind it. -/
def fill (a : Jsona) : Option Jsona := do
  let all ← gather a.nodes Link.next a.numEntries a.head
  some { a with array := some all, numEntries := all.length % 2 ^ 32 }

def filled (a : Jsona) : Option Jsona :=
  match a.array with
  | none => fill a
  | some _ => some a

def acJsonaNthNode (a : Jsona) (nth : Nat) : Option (Option Nat × Jsona) :=
  if nth ≥ a.numEntries then some (none,a)
  else do
    let a ← filled a
    let array ← a.array
    let node ← array[nth]?
    some (some node,a)

def acJsonaNth (a : Jsona) (nth : Nat) : Option (Option Nat × Jsona) :=
  if nth ≥ a.numEntries then some (none,a)
  else do
    let a ← filled a
    let array ← a.array
    let node ← array[nth]?
    let link ← a.nodes[node]?
    some (some link.item,a)

def acJsonaScan (a : Jsona) (nth : Nat) : Option (Option Nat) :=
  if nth ≥ a.numEntries then some none
  else do
    let n ← (if 2 * nth % 2 ^ 32 > a.numEntries then walk a.nodes Link.previous (a.numEntries - nth - 1) a.tail
      else walk a.nodes Link.next nth a.head)
    let node ← n
    let link ← a.nodes[node]?
    some (some link.item)

/-- `ac_jsona_append`: `memory` is what the pool has at `previous` of the new node. -/
def acJsonaAppend (a : Jsona) (item : Option Nat) (memory : Option Nat) : Option Jsona :=
  match item with
  | none => some a
  | some item =>
    match a.head with
    | none => some
      { a with
        numEntries := (a.numEntries + 1) % 2 ^ 32, array := none, head := some a.nodes.length, tail := some a.nodes.length,
        nodes := a.nodes ++ [⟨item,none,memory⟩], parent := fun v => if v = item then some a.self else a.parent v }
    | some _ => do
      let tail ← a.tail
      let nodes ← setNext a.nodes tail (some a.nodes.length)
      some
        { a with
          numEntries := (a.numEntries + 1) % 2 ^ 32, array := none, tail := some a.nodes.length,
          nodes := nodes ++ [⟨item,none,some tail⟩], parent := fun v => if v = item then some a.self else a.parent v }

/-- `ac_jsona_erase` of a node of this array. -/
def acJsonaErase (a : Jsona) (n : Nat) : Option Jsona := do
  let node ← a.nodes[n]?
  if a.parent node.item ≠ some a.self then none
  else
    match node.previous with
    | some p => do
      let nodes ← setNext a.nodes p node.next
      match node.next with
      | some q => do
        let nodes ← setPrevious nodes q node.previous
        some { a with numEntries := (a.numEntries + (2 ^ 32 - 1)) % 2 ^ 32, nodes := nodes, array := none }
      | none => some { a with numEntries := (a.numEntries + (2 ^ 32 - 1)) % 2 ^ 32, nodes := nodes, tail := node.previous }
    | none =>
      match node.next with
      | some q => do
        let nodes ← setPrevious a.nodes q none
        some { a with
          numEntries := (a.numEntries + (2 ^ 32 - 1)) % 2 ^ 32, head := node.next, nodes := nodes, array := a.array.map List.tail }
      | none => some { a with numEntries := (a.numEntries + (2 ^ 32 - 1)) % 2 ^ 32, head := none, tail := none, array := none }

/-! ## Runs -/

inductive Op where
  | append (item : Option Nat) (memory : Option Nat)
  | erase (n : Nat)
  | nth (i : Nat)
  | nthNode (i : Nat)
  | scan (i : Nat)
deriving Repr, DecidableEq

def step (a : Jsona) : Op → Option Jsona
  | .append item memory => acJsonaAppend a item memory
  | .erase n => acJsonaErase a n
  | .nth i => (acJsonaNth a i).map Prod.snd
  | .nthNode i => (acJsonaNthNode a i).map Prod.snd
  | .scan i => (acJsonaScan a i).map fun _ => a

/-- The elements after a step, as nodes with their values; a new node has the next address. -/
def elements (fresh : Nat) (entries : List (Nat × Nat)) : Op → List (Nat × Nat)
  | .append (some item) _ => entries ++ [(fresh,item)]
  | .erase n => entries.filter (·.1 ≠ n)
  | _ => entries

/-- A node that is erased is in the array, and an index is an `int` that is not negative. -/
def Legal (entries : List (Nat × Nat)) : Op → Prop
  | .append _ _ => True
  | .erase n => n ∈ entries.map Prod.fst
  | .nth i => i < 2 ^ 31
  | .nthNode i => i < 2 ^ 31
  | .scan i => i < 2 ^ 31

/-- A node that becomes the first finds NULL in its memory, and the new length has 32 bits. -/
def Clean (a : Jsona) : Op → Prop
  | .append (some _) memory => (a.head = none → memory = none) ∧ a.numEntries + 1 < 2 ^ 32
  | _ => True

/-- Both directions of the list, its ends, the length, and what the three reads return. -/
structure Shows (a : Jsona) (entries : List (Nat × Nat)) : Prop where
  forward : gather a.nodes Link.next entries.length a.head = some (entries.map Prod.fst)
  backward : gather a.nodes Link.previous entries.length a.tail = some (entries.map Prod.fst).reverse
  first : ∀ p link, a.head = some p → a.nodes[p]? = some link → link.previous = none
  last : ∀ p link, a.tail = some p → a.nodes[p]? = some link → link.next = none
  count : a.numEntries = entries.length
  nth : ∀ i < 2 ^ 31, (acJsonaNth a i).map Prod.fst = some (entries[i]?.map Prod.snd)
  nthNode : ∀ i < 2 ^ 31, (acJsonaNthNode a i).map Prod.fst = some (entries[i]?.map Prod.fst)
  scan : ∀ i < 2 ^ 31, acJsonaScan a i = some (entries[i]?.map Prod.snd)

def AllLegal : Jsona → List (Nat × Nat) → List Op → Prop
  | _, _, [] => True
  | a, entries, op :: ops =>
    Legal entries op ∧ ∀ a', step a op = some a' → AllLegal a' (elements a.nodes.length entries op) ops

def AllClean : Jsona → List Op → Prop
  | _, [] => True
  | a, op :: ops => Clean a op ∧ ∀ a', step a op = some a' → AllClean a' ops

/-- No step is undefined, and every state that is reached shows the elements. -/
def Keeps : Jsona → List (Nat × Nat) → List Op → Prop
  | a, entries, [] => Shows a entries
  | a, entries, op :: ops =>
    Shows a entries ∧ ∃ a', step a op = some a' ∧ Keeps a' (elements a.nodes.length entries op) ops

/-! ## The invariant -/

structure Inv (a : Jsona) (entries : List (Nat × Nat)) : Prop where
  chain : Linked a.nodes none (entries.map Prod.fst) (entries.map Prod.snd)
  head : a.head = (entries.map Prod.fst).head?
  tail : a.tail = (entries.map Prod.fst).getLast?
  count : a.numEntries = entries.length % 2 ^ 32
  array : ∀ array, a.array = some array → entries.map Prod.fst <+: array
  parents : ∀ e ∈ entries, a.parent e.2 = some a.self

section
variable {a a' : Jsona} {entries : List (Nat × Nat)}

theorem Inv.length (inv : Inv a entries) (small : entries.length < 2 ^ 32) : a.numEntries = entries.length := by
  rw [inv.count,Nat.mod_eq_of_lt small]

/-- The link of an element. -/
theorem Inv.link (inv : Inv a entries) {i : Nat} {e : Nat × Nat} (here : entries[i]? = some e) :
    ∃ link, a.nodes[e.1]? = some link ∧ link.item = e.2 := by
  have place : (entries.map Prod.fst)[i]? = some e.1 := by rw [List.getElem?_map,here]; rfl
  obtain ⟨item,isItem,found⟩ := inv.chain.get place
  rw [List.getElem?_map,here] at isItem
  exact ⟨_,found,(Option.some.inj isItem).symm⟩

/-! ### Reading -/

theorem filled_inv (inv : Inv a entries) (small : entries.length < 2 ^ 32) :
    ∃ a' array, filled a = some a' ∧ Inv a' entries ∧ a'.array = some array ∧ a'.nodes = a.nodes := by
  unfold filled
  cases isArray : a.array with
  | some array => exact ⟨a,array,rfl,inv,isArray,rfl⟩
  | none =>
    have all : gather a.nodes Link.next a.numEntries _ = _ := inv.chain.gather_next (by rw [inv.length small,List.length_map])
    rw [← inv.head] at all
    refine ⟨{ a with array := some (entries.map Prod.fst), numEntries := (entries.map Prod.fst).length % 2 ^ 32 },_,
      by simp only [fill,all]; rfl,⟨inv.chain,inv.head,inv.tail,?_,?_,inv.parents⟩,rfl,rfl⟩
    · simp only [List.length_map]
    · rintro array same
      cases same
      exact List.prefix_rfl

theorem array_get {array : List Nat} (indexed : entries.map Prod.fst <+: array) {i : Nat} {e : Nat × Nat}
    (here : entries[i]? = some e) : array[i]? = some e.1 := by
  obtain ⟨more,rfl⟩ := indexed
  obtain ⟨below,same⟩ := List.getElem?_eq_some_iff.mp here
  rw [List.getElem?_append_left (by rwa [List.length_map]),List.getElem?_map,here]
  rfl

theorem nthNode_inv (inv : Inv a entries) (small : entries.length < 2 ^ 32) (i : Nat) :
    ∃ a', acJsonaNthNode a i = some (entries[i]?.map Prod.fst,a') ∧ Inv a' entries ∧ a'.nodes = a.nodes := by
  unfold acJsonaNthNode
  rw [inv.length small]
  by_cases outside : i ≥ entries.length
  · rw [if_pos outside,List.getElem?_eq_none outside]
    exact ⟨a,rfl,inv,rfl⟩
  · obtain ⟨a',array,isFilled,inv',isArray,nodes⟩ := filled_inv inv small
    have here : entries[i]? = some entries[i] := List.getElem?_eq_getElem (Nat.not_le.mp outside)
    rw [if_neg outside,isFilled]
    simp only [Option.bind_eq_bind,Option.bind_some,isArray,array_get (inv'.array array isArray) here]
    exact ⟨a',by rw [here]; rfl,inv',nodes⟩

theorem nth_inv (inv : Inv a entries) (small : entries.length < 2 ^ 32) (i : Nat) :
    ∃ a', acJsonaNth a i = some (entries[i]?.map Prod.snd,a') ∧ Inv a' entries ∧ a'.nodes = a.nodes := by
  unfold acJsonaNth
  rw [inv.length small]
  by_cases outside : i ≥ entries.length
  · rw [if_pos outside,List.getElem?_eq_none outside]
    exact ⟨a,rfl,inv,rfl⟩
  · obtain ⟨a',array,isFilled,inv',isArray,nodes⟩ := filled_inv inv small
    have here : entries[i]? = some entries[i] := List.getElem?_eq_getElem (Nat.not_le.mp outside)
    obtain ⟨link,found,item⟩ := inv'.link here
    rw [if_neg outside,isFilled]
    simp only [Option.bind_eq_bind,Option.bind_some,isArray,array_get (inv'.array array isArray) here,found,item]
    exact ⟨a',by rw [here]; rfl,inv',nodes⟩

/-- `nth << 1` loses no bit as an unsigned number. -/
theorem scan_inv (inv : Inv a entries) (small : entries.length < 2 ^ 32) {i : Nat} (int : i < 2 ^ 31) :
    acJsonaScan a i = some (entries[i]?.map Prod.snd) := by
  unfold acJsonaScan
  rw [inv.length small]
  by_cases outside : i ≥ entries.length
  · rw [if_pos outside,List.getElem?_eq_none outside]
    rfl
  · have below := Nat.not_le.mp outside
    have here : entries[i]? = some entries[i] := List.getElem?_eq_getElem below
    have place : (entries.map Prod.fst)[i]? = some entries[i].1 := by rw [List.getElem?_map,here]; rfl
    obtain ⟨link,found,item⟩ := inv.link here
    have reached : (if 2 * i % 2 ^ 32 > entries.length then walk a.nodes Link.previous (entries.length - i - 1) a.tail
        else walk a.nodes Link.next i a.head) = some (some entries[i].1) := by
      split
      · have atEnd : (entries.map Prod.fst)[i + (entries.length - i - 1)]? = a.tail := by
          rw [inv.tail,List.getLast?_eq_getElem?,List.length_map]
          congr 1
          omega
        cases tail : a.tail with
        | none =>
          rw [tail] at atEnd
          have late := List.getElem?_eq_none_iff.mp atEnd
          rw [List.length_map] at late
          omega
        | some t =>
          rw [tail] at atEnd
          rw [inv.chain.walk_previous atEnd,place]
      · cases head : a.head with
        | none =>
          rw [inv.head,List.head?_eq_none_iff,List.map_eq_nil_iff] at head
          rw [head] at below
          cases below
        | some h =>
          have first : (entries.map Prod.fst)[0]? = some h := by rw [← head,inv.head,List.head?_eq_getElem?]
          rw [inv.chain.walk_next first (by rw [List.length_map]; omega),Nat.zero_add,place]
    rw [if_neg outside,reached]
    simp only [Option.bind_eq_bind,Option.bind_some,found,item]
    rw [here]
    rfl

/-- The invariant gives all that can be seen. -/
theorem Inv.shows (inv : Inv a entries) (small : entries.length < 2 ^ 32) : Shows a entries := by
  have whole : gather a.nodes Link.previous entries.length _ = _ :=
    inv.chain.gather_previous (k := entries.length) (by rw [List.length_map]) (Nat.le_refl _)
  rw [List.take_of_length_le (by rw [List.length_map])] at whole
  refine ⟨?_,?_,?_,?_,inv.length small,?_,?_,fun i int => scan_inv inv small int⟩
  · rw [inv.head]
    exact inv.chain.gather_next (by rw [List.length_map])
  · rw [inv.tail]
    exact whole
  · intro p link head found
    have first : (entries.map Prod.fst)[0]? = some p := by rw [← head,inv.head,List.head?_eq_getElem?]
    obtain ⟨item,-,found'⟩ := inv.chain.get first
    cases found.symm.trans found'
    rfl
  · intro p link tail found
    rw [inv.tail,List.getLast?_eq_getElem?] at tail
    obtain ⟨item,-,found'⟩ := inv.chain.get tail
    cases found.symm.trans found'
    exact List.getElem?_eq_none (by omega)
  · intro i int
    obtain ⟨a',read,-⟩ := nth_inv inv small i
    rw [read]
    rfl
  · intro i int
    obtain ⟨a',read,-⟩ := nthNode_inv inv small i
    rw [read]
    rfl

/-! ### Writing -/

theorem Inv.empty (inv : Inv a entries) (head : a.head = none) : entries = [] := by
  rw [inv.head,List.head?_eq_none_iff,List.map_eq_nil_iff] at head
  exact head

theorem parents_set (inv : Inv a entries) (fresh item : Nat) :
    ∀ e ∈ entries ++ [(fresh,item)], (if e.2 = item then some a.self else a.parent e.2) = some a.self := by
  intro e inside
  split
  case isTrue => rfl
  case isFalse other =>
    rcases List.mem_append.mp inside with old | new
    · exact inv.parents e old
    · cases List.mem_singleton.mp new
      exact absurd rfl other

theorem append_inv (inv : Inv a entries) (item : Nat) {memory : Option Nat} (clean : a.head = none → memory = none) :
    ∃ a', acJsonaAppend a (some item) memory = some a' ∧ Inv a' (entries ++ [(a.nodes.length,item)]) := by
  have counted : (a.numEntries + 1) % 2 ^ 32 = (entries ++ [(a.nodes.length,item)]).length % 2 ^ 32 := by
    rw [inv.count,List.length_append,List.length_singleton,Nat.mod_add_mod]
  unfold acJsonaAppend
  cases head : a.head with
  | none =>
    obtain rfl := inv.empty head
    obtain rfl := clean head
    exact ⟨_,rfl,Linked.single a.nodes item,rfl,rfl,counted,nofun,parents_set inv _ item⟩
  | some h =>
    have some_ : entries ≠ [] := by
      rintro rfl
      rw [inv.head] at head
      cases head
    obtain ⟨t,nodes,isTail,set,chain⟩ := inv.chain.hang_last some_ item
    simp only [inv.tail,isTail,Option.bind_eq_bind,Option.bind_some,set]
    refine ⟨_,rfl,chain,?_,?_,counted,nofun,parents_set inv _ item⟩
    · show some h = _
      rw [List.map_append,List.head?_append,← inv.head,head]
      rfl
    · rw [List.map_append,List.getLast?_append]
      rfl

/-- What erasing does to the list. -/
theorem erase_takeOut {n : Nat} {node : Link Nat} (found : a.nodes[n]? = some node) (parent : a.parent node.item = some a.self) :
    ∃ array, acJsonaErase a n = (takeOut a.nodes a.head a.tail node).map (fun made =>
      { a with numEntries := (a.numEntries + (2 ^ 32 - 1)) % 2 ^ 32, nodes := made.1, head := made.2.1, tail := made.2.2, array := array }) ∧
      (array = none ∨ (node.next = none ∧ array = a.array) ∨ (node.previous = none ∧ array = a.array.map List.tail)) := by
  obtain ⟨item,next,previous⟩ := node
  unfold acJsonaErase takeOut
  simp only [found,Option.bind_eq_bind,Option.bind_some,parent]
  rw [if_neg (fun other => other rfl)]
  cases previous with
  | none =>
    cases next with
    | none => exact ⟨none,rfl,.inl rfl⟩
    | some q =>
      refine ⟨a.array.map List.tail,?_,.inr (.inr ⟨rfl,rfl⟩)⟩
      dsimp only
      cases setPrevious a.nodes q none <;> rfl
  | some p =>
    cases next with
    | none =>
      refine ⟨a.array,?_,.inr (.inl ⟨rfl,rfl⟩)⟩
      dsimp only
      cases setNext a.nodes p none <;> rfl
    | some q =>
      refine ⟨none,?_,.inl rfl⟩
      dsimp only
      cases setNext a.nodes p (some q) with
      | none => rfl
      | some nodes =>
        rw [Option.bind_some,Option.bind_some]
        cases setPrevious nodes q (some p) <;> rfl

theorem erase_inv (inv : Inv a entries) (small : entries.length < 2 ^ 32) {n : Nat} (member : n ∈ entries.map Prod.fst) :
    ∃ a', acJsonaErase a n = some a' ∧ Inv a' (entries.filter (·.1 ≠ n)) ∧ a'.nodes.length = a.nodes.length := by
  obtain ⟨e,inside,rfl⟩ := List.mem_map.mp member
  obtain ⟨front,behind,rfl⟩ := List.append_of_mem inside
  rw [filter_out inv.chain.nodup]
  obtain ⟨found,-⟩ := inv.chain.without
  obtain ⟨nodes,taken,length,chain⟩ := inv.chain.takeOut
  obtain ⟨array,made,kept⟩ := erase_takeOut found (inv.parents e inside)
  rw [← inv.head,← inv.tail] at taken
  have counted : (a.numEntries + (2 ^ 32 - 1)) % 2 ^ 32 = (front ++ behind).length % 2 ^ 32 := by
    rw [inv.length small]
    simp only [List.length_append,List.length_cons] at small ⊢
    omega
  have parents : ∀ e ∈ front ++ behind, a.parent e.2 = some a.self := by
    intro e inside
    refine inv.parents e ?_
    rcases List.mem_append.mp inside with first | later
    · exact List.mem_append_left _ first
    · exact List.mem_append_right _ (List.mem_cons_of_mem _ later)
  have indexed : ∀ array, a.array = some array → front.map Prod.fst ++ e.1 :: behind.map Prod.fst <+: array := by
    intro array isArray
    have whole := inv.array array isArray
    rwa [List.map_append,List.map_cons] at whole
  rw [taken,Option.map_some] at made
  dsimp only at made
  refine ⟨_,made,⟨chain,rfl,rfl,counted,?_,parents⟩,length⟩
  intro cells isArray
  rcases kept with rfl | ⟨last,rfl⟩ | ⟨first,rfl⟩
  · cases isArray
  · obtain rfl : behind = [] := List.map_eq_nil_iff.mp (List.head?_eq_none_iff.mp last)
    rw [List.append_nil]
    exact (List.prefix_append _ _).trans (indexed cells isArray)
  · obtain rfl : front = [] := List.map_eq_nil_iff.mp (List.getLast?_eq_none_iff.mp first)
    obtain ⟨whole,isWhole,rfl⟩ := Option.map_eq_some_iff.mp isArray
    obtain ⟨more,rfl⟩ := indexed whole isWhole
    exact ⟨more,rfl⟩

/-! ### Runs -/

theorem append_count {item : Nat} {memory : Option Nat} (made : acJsonaAppend a (some item) memory = some a') :
    a'.numEntries = (a.numEntries + 1) % 2 ^ 32 := by
  unfold acJsonaAppend at made
  cases head : a.head with
  | none =>
    rw [head] at made
    cases made
    rfl
  | some h =>
    rw [head] at made
    obtain ⟨tail,-,made⟩ := Option.bind_eq_some_iff.mp made
    obtain ⟨nodes,-,made⟩ := Option.bind_eq_some_iff.mp made
    cases made
    rfl

/-- A clean step keeps the invariant. -/
theorem step_inv (inv : Inv a entries) (small : entries.length < 2 ^ 32) {op : Op} (legal : Legal entries op) (clean : Clean a op) :
    ∃ a', step a op = some a' ∧ Inv a' (elements a.nodes.length entries op) ∧ (elements a.nodes.length entries op).length < 2 ^ 32 := by
  cases op with
  | append item memory =>
    cases item with
    | none => exact ⟨a,rfl,inv,small⟩
    | some item =>
      obtain ⟨a',made,inv'⟩ := append_inv inv item clean.1
      refine ⟨a',made,inv',?_⟩
      have room := clean.2
      rw [inv.length small] at room
      simpa [elements] using room
  | erase n =>
    obtain ⟨a',made,inv',-⟩ := erase_inv inv small legal
    exact ⟨a',made,inv',Nat.lt_of_le_of_lt (List.length_filter_le ..) small⟩
  | nth i =>
    obtain ⟨a',read,inv',-⟩ := nth_inv inv small i
    exact ⟨a',by rw [step,read]; rfl,inv',small⟩
  | nthNode i =>
    obtain ⟨a',read,inv',-⟩ := nthNode_inv inv small i
    exact ⟨a',by rw [step,read]; rfl,inv',small⟩
  | scan i => exact ⟨a,by rw [step,scan_inv inv small legal]; rfl,inv,small⟩

/-- Any other step is an append, after which the array does not show its elements. -/
theorem unclean_lost (inv : Inv a entries) (small : entries.length < 2 ^ 32) {op : Op} (unclean : ¬ Clean a op)
    (made : step a op = some a') : ¬ Shows a' (elements a.nodes.length entries op) := by
  intro shows
  cases op with
  | append item memory =>
    cases item with
    | none => exact unclean trivial
    | some item =>
      have count := shows.count
      rw [append_count made,inv.length small] at count
      refine unclean ⟨fun head => ?_,?_⟩
      · unfold step acJsonaAppend at made
        rw [head] at made
        cases made
        exact shows.first _ ⟨item,none,memory⟩ rfl (List.getElem?_concat_length ..)
      · have less := Nat.mod_lt (entries.length + 1) (Nat.two_pow_pos 32)
        rw [count] at less
        rw [inv.length small]
        simpa [elements] using less
  | erase n => exact unclean trivial
  | nth i => exact unclean trivial
  | nthNode i => exact unclean trivial
  | scan i => exact unclean trivial

theorem Keeps.shows {ops : List Op} (keeps : Keeps a entries ops) : Shows a entries := by
  cases ops with
  | nil => exact keeps
  | cons op ops => exact keeps.1

theorem keeps_iff (inv : Inv a entries) (small : entries.length < 2 ^ 32) {ops : List Op} (legal : AllLegal a entries ops) :
    Keeps a entries ops ↔ AllClean a ops := by
  induction ops generalizing a entries with
  | nil => exact iff_of_true (inv.shows small) trivial
  | cons op ops ih =>
    by_cases clean : Clean a op
    · obtain ⟨a',made,inv',small'⟩ := step_inv inv small legal.1 clean
      have later := ih inv' small' (legal.2 a' made)
      constructor
      · rintro ⟨-,a'',made',keeps⟩
        cases made.symm.trans made'
        refine ⟨clean,fun a'' made' => ?_⟩
        cases made.symm.trans made'
        exact later.mp keeps
      · rintro ⟨-,all⟩
        exact ⟨inv.shows small,a',made,later.mpr (all a' made)⟩
    · refine iff_of_false ?_ fun all => clean all.1
      rintro ⟨-,a',made,keeps⟩
      exact unclean_lost inv small clean made keeps.shows

end

/-! ## From the parser -/

/-- The array at `b` in what a call of the parser has allocated. -/
def parsedArray (pool : Pool) (b : Nat) (json : Json) : Jsona where
  self := b
  numEntries := json.numEntries
  array := none
  head := json.head
  tail := json.tail
  nodes := pool.entries.map fun link => ⟨link.item.2,link.next,link.previous⟩
  parent v := pool.values[v]?.bind Json.parent

/-- A new array in a pool with any contents, or an array of a parsed text with what its
    list has from the head on. -/
inductive Start : Jsona → List (Nat × Nat) → Prop where
  | created (self : Nat) (nodes : List (Link Nat)) (parent : Nat → Option Nat) : Start (acJsona self nodes parent) []
  | parsed {fuel : Nat} {text : List UInt8} {r b : Nat} {s : AcJson.State} {json : Json} {entries : List (Nat × Nat)}
      (ran : acJsonParse fuel text = some (.returned (some r) s)) (found : s.pool.values[b]? = some json)
      (isArray : json.type = .array)
      (list : gather (parsedArray s.pool b json).nodes Link.next s.pool.entries.length json.head = some (entries.map Prod.fst))
      (values : ∀ e ∈ entries, ∃ link, (parsedArray s.pool b json).nodes[e.1]? = some link ∧ link.item = e.2) :
      Start (parsedArray s.pool b json) entries

section
variable {a : Jsona} {entries : List (Nat × Nat)}

/-- What a call returns is well formed. -/
theorem parsed_wellFormed {fuel r : Nat} {text : List UInt8} {s : AcJson.State}
    (ran : acJsonParse fuel text = some (.returned (some r) s)) : AcJson.WellFormed text.length s.bytes s.pool r := by
  cases closing : AcJson.closesFirst text with
  | true =>
    obtain stuck | ⟨t,goes⟩ := AcJson.closes_runs closing fuel
    · rw [ran] at stuck
      cases stuck
    · rw [ran] at goes
      cases goes
  | false =>
    obtain ⟨fuel',result,ran',returns⟩ := AcJson.opens_safe closing
    have isFinal : result.final := by
      cases result with
      | goto _ _ => exact returns
      | returned _ _ => trivial
      | badCharacter _ => trivial
    obtain rfl := AcJson.run_unique ran ran' trivial isFinal
    obtain ⟨value,same,formed⟩ := returns
    cases same
    exact formed

/-- A list that is followed from its head is the chain that is there. -/
theorem parsed_inv {fuel : Nat} {text : List UInt8} {r b : Nat} {s : AcJson.State} {json : Json}
    (ran : acJsonParse fuel text = some (.returned (some r) s)) (found : s.pool.values[b]? = some json) (isArray : json.type = .array)
    (list : gather (parsedArray s.pool b json).nodes Link.next s.pool.entries.length json.head = some (entries.map Prod.fst))
    (values : ∀ e ∈ entries, ∃ link, (parsedArray s.pool b json).nodes[e.1]? = some link ∧ link.item = e.2) :
    Inv (parsedArray s.pool b json) entries := by
  obtain ⟨places,items,head,tail,chain,count,-,-,children⟩ := ((parsed_wellFormed ran).2 b json found).2 (.inr isArray)
  have mapped : Linked (parsedArray s.pool b json).nodes none places (items.map Prod.snd) := chain.map Prod.snd
  have nodes : (parsedArray s.pool b json).nodes.length = s.pool.entries.length := List.length_map ..
  rw [head,← nodes] at list
  obtain ⟨rfl,isItems⟩ := mapped.gathered list values
  rw [isItems] at mapped
  refine ⟨mapped,head,tail,?_,nofun,?_⟩
  · have length := congrArg List.length isItems
    rw [List.length_map,List.length_map] at length
    rw [← length]
    exact count
  · intro e inside
    have member : e.2 ∈ items.map Prod.snd := by
      rw [isItems]
      exact List.mem_map_of_mem inside
    obtain ⟨entry,isEntry,same⟩ := List.mem_map.mp member
    obtain ⟨-,child,isChild,up⟩ := children entry isEntry
    rw [same] at isChild
    show (s.pool.values[e.2]?).bind Json.parent = some b
    rw [isChild]
    exact up

theorem Start.inv (start : Start a entries) : Inv a entries := by
  cases start with
  | created self nodes parent => exact ⟨trivial,rfl,rfl,rfl,nofun,nofun⟩
  | parsed ran found isArray list values => exact parsed_inv ran found isArray list values

/-- In a run, every state shows the elements of the array if and only if they are fewer
    than 2^32 throughout, and every node that becomes the first one finds NULL in the
    memory for its `previous`. -/
theorem array_keeps_iff {ops : List Op} (start : Start a entries) (legal : AllLegal a entries ops) :
    Keeps a entries ops ↔ entries.length < 2 ^ 32 ∧ AllClean a ops := by
  have inv := start.inv
  by_cases small : entries.length < 2 ^ 32
  · rw [keeps_iff inv small legal]
    exact (and_iff_right small).symm
  · refine iff_of_false (fun keeps => ?_) fun both => small both.1
    have count := keeps.shows.count
    rw [inv.count] at count
    exact small (count ▸ Nat.mod_lt _ (Nat.two_pow_pos 32))

/-- Two values are appended, and the first is taken out. -/
theorem array_keeps_two : Keeps (acJsona 0 [] fun _ => none) [] [.append (some 5) none,.append (some 6) (some 9),.erase 0] := by
  have legal : AllLegal (acJsona 0 [] fun _ => none) [] [.append (some 5) none,.append (some 6) (some 9),.erase 0] := by
    refine ⟨trivial,fun a made => ?_⟩
    obtain rfl := Option.some.inj made
    refine ⟨trivial,fun a made => ?_⟩
    obtain rfl := Option.some.inj made
    exact ⟨List.mem_cons_self,fun _ _ => trivial⟩
  have clean : AllClean (acJsona 0 [] fun _ => none) [.append (some 5) none,.append (some 6) (some 9),.erase 0] := by
    refine ⟨⟨fun _ => rfl,by decide⟩,fun a made => ?_⟩
    obtain rfl := Option.some.inj made
    exact ⟨⟨nofun,by decide⟩,fun _ _ => ⟨trivial,fun _ _ => trivial⟩⟩
  exact (array_keeps_iff (.created 0 [] _) legal).mpr ⟨by decide,clean⟩

/-- The first node has what was in the memory of the pool as its `previous`. -/
theorem first_previous : ¬ ∀ ops, AllLegal (acJsona 0 [] fun _ => none) [] ops → Keeps (acJsona 0 [] fun _ => none) [] ops := by
  intro all
  have keeps := all [.append (some 5) (some 9)] ⟨trivial,fun a made => trivial⟩
  obtain ⟨-,a,made,shows⟩ := keeps
  cases made
  cases shows.first 0 ⟨5,none,some 9⟩ rfl rfl

end
end AnotherC.JsonArray
