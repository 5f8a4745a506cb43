import Mathlib.Data.List.Sort
import Mathlib.Data.List.Perm.Subperm
import Mathlib.Algebra.Order.BigOperators.Group.List
import Mathlib.Algebra.Order.Ring.Nat
import AnotherC.Lib.Text

/-!
# Maps of strings to offsets: `ac_string_map_t`

The strings that were added, each with the payload it came with first, are
written to a buffer in order, and `ac_string_map_find` gives the offset of a
string there. Offset 0 stands for a string that was not added. Nothing but the
empty string may lie at 0, and nothing keeps the first string away from there, so
the offsets are handles only if the empty string was added as well
(`usable_iff`).
-/
namespace AnotherC.StringMap
open AnotherC.Lib.Order (Total)
open AnotherC.Lib.Text (Text strcmp strcmp_total strcmp_zero stringAt)
set_option linter.unusedVariables false

/-! ## The operations -/

/-- A C string: no byte of it is the NUL. -/
structure CString where
  text : Text
  free : 0 ∉ text
deriving DecidableEq

/-- A payload, whose length is a `uint32_t`. -/
@[ext] structure Payload where
  data : List UInt8
  short : data.length < 2 ^ 32

instance : DecidableEq Payload := fun _ _ => decidable_of_iff _ Payload.ext_iff.symm

/-- The arguments of `ac_string_map_add_with_payload`. -/
structure Addition where
  s : CString
  payload : Payload
deriving DecidableEq

/-- `string_node_t`, with the bytes that follow it. -/
structure Node where
  offs : Nat
  payload : Nat
  bytes : List UInt8
deriving Repr, DecidableEq

/-- The node at an address; the pool gives out the addresses one after the other. -/
def node (nodes : List Node) (n : Nat) : Node := nodes.getD n ⟨0,0,[]⟩

/-- The string of a node, as the comparison functions read it. -/
def string (nodes : List Node) (n : Nat) : Text := stringAt (node nodes n).bytes 0

def Ascending (key : Nat → Text) (ns : List Nat) : Prop := ns.Pairwise (fun m n => strcmp (key m) (key n) < 0)

/-- The macro library's ordered map. It links nodes at their addresses and reads
    their strings by `key`; `toList` is `macro_map_first` and then `macro_map_next`
    to the end. -/
structure MacroMap where
  Root : Type
  empty : Root
  find : Root → (Nat → Text) → Text → Option Nat
  insert : Root → (Nat → Text) → Nat → Root
  toList : Root → List Nat
  empty_toList : toList empty = []
  find_iff : ∀ root key s n, Ascending key (toList root) → (find root key s = some n ↔ n ∈ toList root ∧ key n = s)
  insert_ascending : ∀ root key n, Ascending key (toList root) → (∀ m ∈ toList root, key m ≠ key n) →
    Ascending key (toList (insert root key n))
  insert_perm : ∀ root key n, Ascending key (toList root) → (∀ m ∈ toList root, key m ≠ key n) →
    (toList (insert root key n)).Perm (n :: toList root)

section
variable (map : MacroMap)

/-- `struct ac_string_map_s`; `nodes` is what the pool holds. -/
structure StringMap where
  nodes : List Node
  root : map.Root

def acStringMapInit : StringMap map := ⟨[],map.empty⟩

variable {map}

def acStringMapAddWithPayload (h : StringMap map) (s : CString) (payload : Payload) : StringMap map :=
  match map.find h.root (string h.nodes) s.text with
  | some _ => h
  | none =>
    let nodes := h.nodes ++ [⟨0,payload.data.length,s.text ++ 0 :: payload.data⟩]
    { nodes := nodes, root := map.insert h.root (string nodes) h.nodes.length }

def acStringMapAdd (h : StringMap map) (s : CString) : StringMap map :=
  acStringMapAddWithPayload h s ⟨[],by decide⟩

/-- What `ac_string_map_order` appends for a node. -/
def written (nodes : List Node) (n : Nat) : List UInt8 :=
  (node nodes n).bytes.take ((string nodes n).length + 1 + (node nodes n).payload)

/-- The offset is a `uint32_t`, the length of the buffer a `size_t`. -/
def orderLoop : List Nat → List Node → List UInt8 → List Node × List UInt8
  | [], nodes, bh => (nodes,bh)
  | n :: ns, nodes, bh =>
    orderLoop ns (nodes.set n { node nodes n with offs := bh.length % 2 ^ 32 }) (bh ++ written nodes n)

def acStringMapOrder (h : StringMap map) (bh : List UInt8) : StringMap map × List UInt8 :=
  let after := orderLoop (map.toList h.root) h.nodes bh
  ({ h with nodes := after.1 },after.2)

def acStringMapFind (h : StringMap map) (s : CString) : Nat :=
  match map.find h.root (string h.nodes) s.text with
  | none => 0
  | some n => (node h.nodes n).offs

def acStringMapEstimate (h : StringMap map) : Nat :=
  (map.toList h.root).foldl (fun total n => total + (string h.nodes n).length + 1 + (node h.nodes n).payload) 0

variable (map)

/-- A map after any additions. -/
def added (adds : List Addition) : StringMap map :=
  adds.foldl (fun h a => acStringMapAddWithPayload h a.s a.payload) (acStringMapInit map)

/-! ## What the additions say -/

/-- The additions that brought a string for the first time. -/
def firsts : List Addition → List Addition
  | [] => []
  | a :: adds => a :: (firsts adds).filter (fun b => b.s ≠ a.s)

/-- The payload that a string came with first. -/
def payloadOf (adds : List Addition) (s : CString) : Option Payload :=
  (adds.find? (fun a => a.s = s)).map Addition.payload

def entry (a : Addition) : List UInt8 := a.s.text ++ 0 :: a.payload.data

def Before (a b : Addition) : Prop := strcmp a.s.text b.s.text < 0

instance (a b : Addition) : Decidable (Before a b) := inferInstanceAs (Decidable (_ < _))

/-- The entries one after the other, in the order of their strings. -/
def image (adds : List Addition) : List UInt8 :=
  ((firsts adds).insertionSort (fun a b => ¬ Before b a)).flatMap entry

/-- How many bytes the entries before a string take. -/
def place (adds : List Addition) (s : CString) : Nat :=
  (((firsts adds).filter (fun a => strcmp a.s.text s.text < 0)).map (fun a => (entry a).length)).sum

variable {map}

theorem firsts_mem {adds : List Addition} {s : CString} : (∃ a ∈ firsts adds, a.s = s) ↔ ∃ a ∈ adds, a.s = s := by
  induction adds with
  | nil => simp [firsts]
  | cons a adds ih =>
    by_cases same : a.s = s
    · simp [firsts,same]
    · constructor
      · rintro ⟨b,member,isString⟩
        rcases List.mem_cons.mp member with here | later
        · exact absurd (here ▸ isString) same
        · obtain ⟨c,inside,isC⟩ := ih.mp ⟨b,(List.mem_filter.mp later).1,isString⟩
          exact ⟨c,List.mem_cons_of_mem a inside,isC⟩
      · rintro ⟨b,member,isString⟩
        rcases List.mem_cons.mp member with here | later
        · exact absurd (here ▸ isString) same
        · obtain ⟨c,inside,isC⟩ := ih.mpr ⟨b,later,isString⟩
          refine ⟨c,List.mem_cons_of_mem a (List.mem_filter.mpr ⟨inside,?_⟩),isC⟩
          simpa [isC] using fun equal : s = a.s => same equal.symm

theorem payloadOf_iff {adds : List Addition} {s : CString} {payload : Payload} :
    payloadOf adds s = some payload ↔ (⟨s,payload⟩ : Addition) ∈ firsts adds := by
  induction adds with
  | nil => simp [payloadOf,firsts]
  | cons a adds ih =>
    by_cases same : a.s = s
    · simp only [payloadOf,firsts,List.find?_cons,same,decide_true,Option.map_some,Option.some.injEq,List.mem_cons,
        List.mem_filter]
      constructor
      · intro isPayload
        left
        rw [← same,← isPayload]
      · rintro (here | ⟨-,different⟩)
        · rw [← here]
        · simp at different
    · have notFirst : (⟨s,payload⟩ : Addition) ≠ a := fun equal => same (by rw [← equal])
      have different : s ≠ a.s := fun equal => same equal.symm
      simp only [payloadOf] at ih
      simp [payloadOf,firsts,same,notFirst,different,ih]

theorem firsts_nodup (adds : List Addition) : ((firsts adds).map Addition.s).Nodup := by
  induction adds with
  | nil => exact List.nodup_nil
  | cons a adds ih =>
    rw [firsts,List.map_cons,List.nodup_cons]
    refine ⟨?_,ih.sublist (List.filter_sublist.map _)⟩
    intro member
    obtain ⟨b,inside,isString⟩ := List.mem_map.mp member
    simpa [isString] using (List.mem_filter.mp inside).2

theorem firsts_append (adds : List Addition) (a : Addition) :
    firsts (adds ++ [a]) = if ∃ b ∈ adds, b.s = a.s then firsts adds else firsts adds ++ [a] := by
  induction adds with
  | nil => simp [firsts]
  | cons b adds ih =>
    rw [List.cons_append,firsts,ih,firsts]
    by_cases same : b.s = a.s
    · have either : ∃ c ∈ b :: adds, c.s = a.s := ⟨b,List.mem_cons_self,same⟩
      rw [if_pos either]
      split
      · rfl
      · simp [same]
    · by_cases later : ∃ c ∈ adds, c.s = a.s
      · obtain ⟨c,inside,isString⟩ := later
        rw [if_pos ⟨c,inside,isString⟩,if_pos ⟨c,List.mem_cons_of_mem b inside,isString⟩]
      · have neither : ¬ ∃ c ∈ b :: adds, c.s = a.s := by
          rintro ⟨c,member,isString⟩
          rcases List.mem_cons.mp member with here | inside
          · exact same (here ▸ isString)
          · exact later ⟨c,inside,isString⟩
        have different : a.s ≠ b.s := fun equal => same equal.symm
        rw [if_neg later,if_neg neither]
        simp [different]

/-! ## What the additions leave -/

/-- The node that an addition makes. -/
def fresh (a : Addition) : Node := ⟨0,a.payload.data.length,entry a⟩

theorem stringAt_entry (a : Addition) : stringAt (entry a) 0 = a.s.text := by
  rw [stringAt,List.drop_zero,entry,List.takeWhile_append_of_pos]
  · simp
  · intro c member
    have nonzero : c ≠ 0 := fun zero => a.s.free (by rwa [← zero])
    simpa using nonzero

theorem CString.ext {s t : CString} (same : s.text = t.text) : s = t := by
  cases s
  cases t
  simpa using same

/-- The nodes are those of the first additions, and the map holds them all, in order. -/
structure Holds (adds : List Addition) (h : StringMap map) : Prop where
  nodes : h.nodes = (firsts adds).map fresh
  ascending : Ascending (string h.nodes) (map.toList h.root)
  all : (map.toList h.root).Perm (List.range h.nodes.length)

theorem string_fresh {adds : List Addition} {n : Nat} {a : Addition} (isNode : adds[n]? = some a) :
    string (adds.map fresh) n = a.s.text := by
  rw [string,node,List.getD_eq_getElem?_getD,List.getElem?_map,isNode]
  exact stringAt_entry a

theorem string_append {nodes : List Node} {n : Nat} (inside : n < nodes.length) (last : Node) :
    string (nodes ++ [last]) n = string nodes n := by
  rw [string,string,node,node,List.getD_eq_getElem?_getD,List.getD_eq_getElem?_getD,List.getElem?_append_left inside]

theorem Holds.inside {adds : List Addition} {h : StringMap map} (holds : Holds adds h) {n : Nat}
    (member : n ∈ map.toList h.root) : n < h.nodes.length := List.mem_range.mp (holds.all.mem_iff.mp member)

/-- A string is found at the node of its first addition. -/
theorem Holds.find {adds : List Addition} {h : StringMap map} (holds : Holds adds h) (s : CString) (n : Nat) :
    map.find h.root (string h.nodes) s.text = some n ↔ ∃ a, (firsts adds)[n]? = some a ∧ a.s = s := by
  rw [map.find_iff h.root (string h.nodes) s.text n holds.ascending,holds.all.mem_iff,List.mem_range,holds.nodes,
    List.length_map]
  constructor
  · rintro ⟨inside,isString⟩
    have isNode := List.getElem?_eq_getElem inside
    rw [string_fresh isNode] at isString
    exact ⟨_,isNode,CString.ext isString⟩
  · rintro ⟨a,isNode,rfl⟩
    exact ⟨(List.getElem?_eq_some_iff.mp isNode).1,string_fresh isNode⟩

theorem Holds.missed {adds : List Addition} {h : StringMap map} (holds : Holds adds h) (s : CString) :
    map.find h.root (string h.nodes) s.text = none ↔ ¬ ∃ a ∈ adds, a.s = s := by
  rw [← firsts_mem,Option.eq_none_iff_forall_not_mem]
  constructor
  · rintro nowhere ⟨a,member,isString⟩
    obtain ⟨n,isNode⟩ := List.mem_iff_getElem?.mp member
    exact nowhere n ((holds.find s n).mpr ⟨a,isNode,isString⟩)
  · rintro notAdded n found
    obtain ⟨a,isNode,isString⟩ := (holds.find s n).mp found
    exact notAdded ⟨a,List.mem_of_getElem? isNode,isString⟩

theorem Holds.step {adds : List Addition} {h : StringMap map} (holds : Holds adds h) (a : Addition) :
    Holds (adds ++ [a]) (acStringMapAddWithPayload h a.s a.payload) := by
  have appended := firsts_append adds a
  rw [acStringMapAddWithPayload]
  cases lookup : map.find h.root (string h.nodes) a.s.text with
  | some n =>
    obtain ⟨b,isNode,isString⟩ := (holds.find a.s n).mp lookup
    rw [if_pos (firsts_mem.mp ⟨b,List.mem_of_getElem? isNode,isString⟩)] at appended
    exact ⟨by rw [appended]; exact holds.nodes,holds.ascending,holds.all⟩
  | none =>
    have notAdded := (holds.missed a.s).mp lookup
    rw [if_neg notAdded] at appended
    have nodes : h.nodes ++ [fresh a] = (firsts (adds ++ [a])).map fresh := by
      rw [appended,holds.nodes,List.map_append,List.map_singleton]
    have ascending : Ascending (string (h.nodes ++ [fresh a])) (map.toList h.root) := by
      refine holds.ascending.imp_of_mem fun {m n} first second less => ?_
      rwa [string_append (holds.inside first),string_append (holds.inside second)]
    have isString : string (h.nodes ++ [fresh a]) h.nodes.length = a.s.text := by
      rw [nodes]
      apply string_fresh
      rw [appended,holds.nodes,List.length_map,List.getElem?_concat_length]
    have isNew : ∀ m ∈ map.toList h.root,
        string (h.nodes ++ [fresh a]) m ≠ string (h.nodes ++ [fresh a]) h.nodes.length := by
      intro m member same
      rw [isString,string_append (holds.inside member)] at same
      have found := (map.find_iff h.root (string h.nodes) a.s.text m holds.ascending).mpr ⟨member,same⟩
      rw [lookup] at found
      cases found
    refine ⟨nodes,map.insert_ascending _ _ _ ascending isNew,(map.insert_perm _ _ _ ascending isNew).trans ?_⟩
    rw [List.length_append,List.length_singleton,List.range_succ]
    exact (holds.all.cons _).trans (List.perm_append_singleton _ _).symm

variable (map) in
theorem added_holds (adds : List Addition) : Holds adds (added map adds) := by
  induction adds using List.reverseRecOn with
  | nil =>
    have none : map.toList map.empty = [] := map.empty_toList
    exact ⟨rfl,by simp [added,acStringMapInit,none,Ascending],by simp [added,acStringMapInit,none]⟩
  | append_singleton adds a ih =>
    rw [added,List.foldl_append]
    exact ih.step a

/-! ## What the order writes -/

theorem node_set {nodes : List Node} {n : Nat} (inside : n < nodes.length) (other : Node) (m : Nat) :
    node (nodes.set n other) m = if n = m then other else node nodes m := by
  rw [node,node,List.getD_eq_getElem?_getD,List.getD_eq_getElem?_getD,List.getElem?_set]
  by_cases same : n = m
  · simp [same,same ▸ inside]
  · simp [same]

/-- Setting the offset of a node leaves its string and what is written for it. -/
theorem set_offs {nodes : List Node} {n : Nat} (inside : n < nodes.length) (offs m : Nat) :
    string (nodes.set n { node nodes n with offs := offs }) m = string nodes m ∧
      written (nodes.set n { node nodes n with offs := offs }) m = written nodes m := by
  rw [written,written,string,string,node_set inside]
  by_cases same : n = m
  · rw [if_pos same,same]
    exact ⟨rfl,rfl⟩
  · rw [if_neg same]
    exact ⟨rfl,rfl⟩

/-- What `order` leaves when it goes through the nodes `ns`: the buffer holds
    their entries, and each of them has the length of the buffer before it. -/
structure Ordered (ns : List Nat) (nodes : List Node) (bh : List UInt8) (after : List Node × List UInt8) : Prop where
  buffer : after.2 = bh ++ ns.flatMap (written nodes)
  strings : ∀ m, string after.1 m = string nodes m
  others : ∀ m, m ∉ ns → node after.1 m = node nodes m
  offs : ∀ front n back, ns = front ++ n :: back →
    (node after.1 n).offs = (bh ++ front.flatMap (written nodes)).length % 2 ^ 32

theorem orderLoop_spec (ns : List Nat) (nodes : List Node) (bh : List UInt8) (nodup : ns.Nodup)
    (inside : ∀ n ∈ ns, n < nodes.length) : Ordered ns nodes bh (orderLoop ns nodes bh) := by
  induction ns generalizing nodes bh with
  | nil => exact ⟨by simp [orderLoop],fun m => rfl,fun m _ => rfl,by simp⟩
  | cons n ns ih =>
    obtain ⟨notLater,nodup⟩ := List.nodup_cons.mp nodup
    have here := inside n List.mem_cons_self
    have same := set_offs here (bh.length % 2 ^ 32)
    have rest := ih (nodes.set n { node nodes n with offs := bh.length % 2 ^ 32 }) (bh ++ written nodes n) nodup
      (fun m member => by rw [List.length_set]; exact inside m (List.mem_cons_of_mem n member))
    have writes : (written (nodes.set n { node nodes n with offs := bh.length % 2 ^ 32 })) = written nodes :=
      funext fun m => (same m).2
    rw [orderLoop]
    refine ⟨?_,fun m => (rest.strings m).trans (same m).1,?_,?_⟩
    · rw [rest.buffer,writes,List.flatMap_cons,List.append_assoc]
    · intro m other
      rw [List.mem_cons,not_or] at other
      rw [rest.others m other.2,node_set here,if_neg (fun equal => other.1 equal.symm)]
    · intro front m back split
      cases front with
      | nil =>
        obtain ⟨rfl,rfl⟩ := List.cons.inj split
        rw [rest.others n notLater,node_set here,if_pos rfl]
        simp
      | cons first front =>
        obtain ⟨rfl,later⟩ := List.cons.inj split
        rw [rest.offs front m back later,writes,List.flatMap_cons,List.append_assoc]

theorem node_fresh {adds : List Addition} {n : Nat} {a : Addition} (isNode : adds[n]? = some a) :
    node (adds.map fresh) n = fresh a := by
  rw [node,List.getD_eq_getElem?_getD,List.getElem?_map,isNode]
  rfl

/-- The nodes in the map's order are those of the first additions in the order of
    their strings. -/
theorem Holds.sorted {adds : List Addition} {h : StringMap map} (holds : Holds adds h) :
    ∃ addition : Nat → Addition, (∀ n ∈ map.toList h.root, (firsts adds)[n]? = some (addition n)) ∧
      ((map.toList h.root).map addition).Perm (firsts adds) ∧ ((map.toList h.root).map addition).Pairwise Before := by
  let addition := fun n => (firsts adds).getD n ⟨⟨[],by simp⟩,⟨[],by decide⟩⟩
  have isNode : ∀ n ∈ map.toList h.root, (firsts adds)[n]? = some (addition n) := by
    intro n member
    have inside := holds.inside member
    rw [holds.nodes,List.length_map] at inside
    simp only [addition,List.getD_eq_getElem?_getD,List.getElem?_eq_getElem inside,Option.getD_some]
  have whole : (List.range h.nodes.length).map addition = firsts adds := by
    rw [holds.nodes,List.length_map]
    apply List.ext_getElem?
    intro k
    rw [List.getElem?_map]
    by_cases inside : k < (firsts adds).length
    · simp [addition,inside]
    · simp [inside]
  refine ⟨addition,isNode,by simpa only [whole] using holds.all.map addition,?_⟩
  rw [List.pairwise_map]
  refine holds.ascending.imp_of_mem fun {m n} left right less => ?_
  rwa [holds.nodes,string_fresh (isNode m left),string_fresh (isNode n right)] at less

theorem insertionSort_eq {es adds : List Addition} (perm : es.Perm adds) (ascending : es.Pairwise Before) :
    adds.insertionSort (fun a b => ¬ Before b a) = es := by
  have order : IsTrans Addition (fun a b => ¬ Before b a) := by
    refine ⟨fun a b c ab bc => ?_⟩
    have upTo := strcmp_total.trans a.s.text b.s.text c.s.text
      ((strcmp_total.le_iff _ _).mpr (Int.not_lt.mp ab)) ((strcmp_total.le_iff _ _).mpr (Int.not_lt.mp bc))
    exact Int.not_lt.mpr ((strcmp_total.le_iff _ _).mp upTo)
  have both : Std.Total (fun a b : Addition => ¬ Before b a) := by
    refine ⟨fun a b => ?_⟩
    have := strcmp_total.swap a.s.text b.s.text
    unfold Before
    omega
  have sorted := List.pairwise_insertionSort (fun a b : Addition => ¬ Before b a) adds
  have weak : es.Pairwise (fun a b => ¬ Before b a) := by
    refine ascending.imp fun {a b} less => ?_
    have := strcmp_total.swap a.s.text b.s.text
    unfold Before at *
    omega
  have same := (List.perm_insertionSort (fun a b : Addition => ¬ Before b a) adds).trans perm.symm
  have apart : es.Pairwise (fun a b => Before a b ∨ Before b a) := ascending.imp Or.inl
  have symmetric : Std.Symm (fun a b => Before a b ∨ Before b a) := ⟨fun _ _ => Or.symm⟩
  refine same.eq_of_pairwise (fun a b left right ab ba => ?_) sorted weak
  by_contra different
  rcases apart.forall (same.mem_iff.mp left) right different with less | more
  · exact ba less
  · exact ab more

theorem written_fresh {nodes : List Node} {n : Nat} {a : Addition} (isNode : node nodes n = fresh a) :
    written nodes n = entry a := by
  have isString : string nodes n = a.s.text := by rw [string,isNode]; exact stringAt_entry a
  rw [written,isString,isNode]
  apply List.take_of_length_le
  simp [fresh,entry]
  omega

/-- The entries before one in order are those of the lesser strings. -/
theorem place_eq {adds front back : List Addition} {e : Addition} (perm : (front ++ e :: back).Perm (firsts adds))
    (ascending : (front ++ e :: back).Pairwise Before) : place adds e.s = (front.flatMap entry).length := by
  have parts := (List.pairwise_append.mp ascending)
  have later := (List.pairwise_cons.mp parts.2.1).1
  have first : front.filter (fun a => strcmp a.s.text e.s.text < 0) = front :=
    List.filter_eq_self.mpr fun a member => decide_eq_true (parts.2.2 a member e List.mem_cons_self)
  have rest : (e :: back).filter (fun a => strcmp a.s.text e.s.text < 0) = [] := by
    refine List.filter_eq_nil_iff.mpr fun a member => ?_
    rw [decide_eq_true_eq]
    rcases List.mem_cons.mp member with here | behind
    · rw [here,strcmp_total.refl]
      decide
    · have := (strcmp_total.swap _ _).mp (later a behind)
      omega
  rw [place,(((perm.filter _).map _).sum_nat).symm,List.filter_append,first,rest,List.append_nil,List.length_flatMap]

/-- The buffer and the offsets after any additions. -/
structure Written (adds : List Addition) (ordered : StringMap map × List UInt8) : Prop where
  buffer : ordered.2 = image adds
  found : ∀ a ∈ adds, acStringMapFind ordered.1 a.s = place adds a.s % 2 ^ 32
  missed : ∀ s, (¬ ∃ a ∈ adds, a.s = s) → acStringMapFind ordered.1 s = 0
  entries : ∀ e ∈ firsts adds, entry e <+: (image adds).drop (place adds e.s)

variable (map) in
theorem order_written (adds : List Addition) : Written adds (acStringMapOrder (added map adds) []) := by
  have holds := added_holds map adds
  obtain ⟨addition,isNode,perm,ascending⟩ := holds.sorted
  have nodup : (map.toList (added map adds).root).Nodup := holds.all.nodup_iff.mpr List.nodup_range
  have ordered := orderLoop_spec (map.toList (added map adds).root) (added map adds).nodes [] nodup
    (fun n member => holds.inside member)
  have writes : ∀ n ∈ map.toList (added map adds).root, written (added map adds).nodes n = entry (addition n) := by
    intro n member
    apply written_fresh
    rw [holds.nodes]
    exact node_fresh (isNode n member)
  have isImage : image adds = ((map.toList (added map adds).root).map addition).flatMap entry := by
    rw [image,insertionSort_eq perm ascending]
  have strings : string (acStringMapOrder (added map adds) []).1.nodes = string (added map adds).nodes :=
    funext ordered.strings
  have found : ∀ front n back, map.toList (added map adds).root = front ++ n :: back →
      (front.map addition).flatMap entry = front.flatMap (written (added map adds).nodes) ∧
        place adds (addition n).s = ((front.map addition).flatMap entry).length := by
    intro front n back split
    rw [split,List.map_append,List.map_cons] at perm ascending
    refine ⟨?_,place_eq perm ascending⟩
    rw [List.flatMap_map]
    exact List.flatMap_congr fun m member => (writes m (by rw [split]; simp [member])).symm
  refine ⟨?_,?_,?_,?_⟩
  · rw [isImage,List.flatMap_map]
    exact ordered.buffer.trans (List.flatMap_congr writes)
  · intro a member
    obtain ⟨e,inFirsts,isString⟩ := firsts_mem.mpr ⟨a,member,rfl⟩
    obtain ⟨n,inside,rfl⟩ := List.mem_map.mp (perm.mem_iff.mpr inFirsts)
    obtain ⟨front,back,split⟩ := List.append_of_mem inside
    have lookup := (holds.find a.s n).mpr ⟨_,isNode n inside,isString⟩
    rw [acStringMapFind,strings]
    simp only [acStringMapOrder]
    rw [lookup,← isString,(found front n back split).2,(found front n back split).1]
    exact ordered.offs front n back split
  · intro s notAdded
    rw [acStringMapFind,strings]
    simp only [acStringMapOrder]
    rw [(holds.missed s).mpr notAdded]
  · intro e member
    rw [← perm.mem_iff,List.mem_map] at member
    obtain ⟨n,inside,rfl⟩ := member
    obtain ⟨front,back,split⟩ := List.append_of_mem inside
    rw [(found front n back split).2,isImage,split,List.map_append,List.flatMap_append,List.drop_left,List.map_cons,
      List.flatMap_cons]
    exact List.prefix_append _ _

theorem estimate_length (adds : List Addition) :
    acStringMapEstimate (added map adds) = (acStringMapOrder (added map adds) []).2.length := by
  have holds := added_holds map adds
  obtain ⟨addition,isNode,-,-⟩ := holds.sorted
  have nodup : (map.toList (added map adds).root).Nodup := holds.all.nodup_iff.mpr List.nodup_range
  have buffer := (orderLoop_spec (map.toList (added map adds).root) (added map adds).nodes [] nodup
    (fun n member => holds.inside member)).buffer
  have sizes : ∀ (ns : List Nat) (total : Nat), (∀ n ∈ ns, n ∈ map.toList (added map adds).root) →
      ns.foldl (fun total n => total + (string (added map adds).nodes n).length + 1 +
        (node (added map adds).nodes n).payload) total =
        total + (ns.flatMap (written (added map adds).nodes)).length := by
    intro ns
    induction ns with
    | nil => simp
    | cons n ns ih =>
      intro total inside
      have isFresh : node (added map adds).nodes n = fresh (addition n) := by
        rw [holds.nodes]
        exact node_fresh (isNode n (inside n List.mem_cons_self))
      rw [List.foldl_cons,ih _ (fun m member => inside m (List.mem_cons_of_mem n member)),List.flatMap_cons,
        List.length_append,written_fresh isFresh,string,isFresh]
      simp only [fresh,stringAt_entry]
      rw [entry,List.length_append,List.length_cons]
      omega
  rw [acStringMapEstimate,sizes _ 0 (fun _ member => member),acStringMapOrder,buffer,List.nil_append,Nat.zero_add]

/-! ## When the offsets are handles -/

variable (map) in
/-- What the offsets are for, after `ac_string_map_order` on an empty buffer. -/
structure Usable (adds : List Addition) : Prop where
  nonzero : ∀ s : CString, s.text ≠ [] →
    (acStringMapFind (acStringMapOrder (added map adds) []).1 s ≠ 0 ↔ ∃ a ∈ adds, a.s = s)
  contents : ∀ s payload, payloadOf adds s = some payload →
    s.text ++ 0 :: payload.data <+: (acStringMapOrder (added map adds) []).2.drop
      (acStringMapFind (acStringMapOrder (added map adds) []).1 s)
  increasing : ∀ a ∈ adds, ∀ b ∈ adds, strcmp a.s.text b.s.text < 0 →
    acStringMapFind (acStringMapOrder (added map adds) []).1 a.s <
      acStringMapFind (acStringMapOrder (added map adds) []).1 b.s

/-- The empty string is there to take offset 0. -/
def Reserved (adds : List Addition) : Prop := adds = [] ∨ ∃ a ∈ adds, a.s.text = []

/-- The image has a copy of the entry of `s` where the offset of `s`, reduced to 32 bits,
    points, and this is behind the reduced offsets of the strings before `s`. -/
def Copied (adds : List Addition) (e : Addition) : Prop :=
  entry e <+: (image adds).drop (place adds e.s % 2 ^ 32) ∧
    ∀ b ∈ firsts adds, strcmp b.s.text e.s.text < 0 → place adds b.s % 2 ^ 32 < place adds e.s % 2 ^ 32

theorem strcmp_nil {s : Text} : strcmp [] s < 0 ↔ s ≠ [] := by
  cases s <;> simp [strcmp]

theorem entry_length (a : Addition) : 0 < (entry a).length := by
  rw [entry,List.length_append,List.length_cons]
  omega

/-- The entry of a lesser string is one of those before. -/
theorem place_less {adds : List Addition} {a : Addition} {s : CString} (member : a ∈ firsts adds)
    (less : strcmp a.s.text s.text < 0) : place adds a.s + (entry a).length ≤ place adds s := by
  have nodup : (firsts adds).Nodup := (firsts_nodup adds).of_map
  have distinct : (a :: (firsts adds).filter (fun b => strcmp b.s.text a.s.text < 0)).Nodup := by
    refine List.nodup_cons.mpr ⟨?_,nodup.filter _⟩
    intro inside
    have itself := of_decide_eq_true (List.mem_filter.mp inside).2
    rw [strcmp_total.refl] at itself
    omega
  have inside : a :: (firsts adds).filter (fun b => strcmp b.s.text a.s.text < 0) ⊆
      (firsts adds).filter (fun b => strcmp b.s.text s.text < 0) := by
    intro b either
    rcases List.mem_cons.mp either with here | before
    · rw [here]
      exact List.mem_filter.mpr ⟨member,decide_eq_true less⟩
    · obtain ⟨inFirsts,lessToo⟩ := List.mem_filter.mp before
      exact List.mem_filter.mpr ⟨inFirsts,decide_eq_true
        (strcmp_total.lt_of_lt_of_le (of_decide_eq_true lessToo) (Int.le_of_lt less))⟩
  obtain ⟨others,perm,sublist⟩ := List.subperm_of_subset distinct inside
  have total := (perm.map (fun b => (entry b).length)).sum_nat
  have most := (sublist.map (fun b => (entry b).length)).sum_le_sum fun _ _ => Nat.zero_le _
  rw [List.map_cons,List.sum_cons] at total
  rw [place,place]
  omega

/-- Some string has nothing before it. -/
theorem Holds.least {adds : List Addition} {h : StringMap map} (holds : Holds adds h) (nonempty : adds ≠ []) :
    ∃ e ∈ firsts adds, place adds e.s = 0 := by
  obtain ⟨addition,-,perm,ascending⟩ := holds.sorted
  cases order : (map.toList h.root).map addition with
  | nil =>
    rw [order] at perm
    cases adds with
    | nil => exact absurd rfl nonempty
    | cons a adds => simp [firsts] at perm
  | cons e rest =>
    rw [order] at perm ascending
    have first := place_eq (show ([] ++ e :: rest).Perm (firsts adds) from perm) ascending
    exact ⟨e,perm.mem_iff.mp List.mem_cons_self,first⟩

theorem Usable.reserved {adds : List Addition} (usable : Usable map adds) : Reserved adds := by
  have ordered := order_written map adds
  by_cases none : adds = []
  · exact .inl none
  · right
    obtain ⟨e,inFirsts,atZero⟩ := (added_holds map adds).least none
    obtain ⟨a,member,isString⟩ := firsts_mem.mp ⟨e,inFirsts,rfl⟩
    refine ⟨a,member,?_⟩
    by_contra nonempty
    apply (usable.nonzero a.s nonempty).mpr ⟨a,member,rfl⟩
    rw [ordered.found a member,isString,atZero,Nat.zero_mod]

theorem Usable.copied {adds : List Addition} (usable : Usable map adds) {e : Addition} (member : e ∈ firsts adds) :
    Copied adds e := by
  have ordered := order_written map adds
  obtain ⟨a,inAdds,isString⟩ := firsts_mem.mp ⟨e,member,rfl⟩
  constructor
  · have contents := usable.contents e.s e.payload (payloadOf_iff.mpr member)
    rw [← isString] at contents
    rwa [ordered.buffer,ordered.found a inAdds,isString] at contents
  · intro b inFirsts less
    obtain ⟨c,cInAdds,isB⟩ := firsts_mem.mp ⟨b,inFirsts,rfl⟩
    have increasing := usable.increasing c cInAdds a inAdds (by rw [isB,isString]; exact less)
    rwa [ordered.found c cInAdds,ordered.found a inAdds,isB,isString] at increasing

/-- Where no entry is out of reach without a copy, offsets keep the order of the strings. -/
theorem offsets_less {adds : List Addition} (copied : ∀ e ∈ firsts adds, 2 ^ 32 ≤ place adds e.s → Copied adds e)
    {a b : Addition} (first : a ∈ firsts adds) (second : b ∈ firsts adds) (less : strcmp a.s.text b.s.text < 0) :
    place adds a.s % 2 ^ 32 < place adds b.s % 2 ^ 32 := by
  have before := place_less first less
  have filled := entry_length a
  by_cases inReach : place adds b.s < 2 ^ 32
  · rw [Nat.mod_eq_of_lt inReach,Nat.mod_eq_of_lt (by omega)]
    omega
  · exact (copied b second (Nat.not_lt.mp inReach)).2 a first less

/-- The offsets can be used exactly if the empty string was added too, or nothing at
    all, and no entry begins beyond the first 2^32 bytes, but for one with a copy. -/
theorem usable_iff (adds : List Addition) :
    Usable map adds ↔ Reserved adds ∧ ∀ e ∈ firsts adds, 2 ^ 32 ≤ place adds e.s → Copied adds e := by
  have ordered := order_written map adds
  constructor
  · intro usable
    exact ⟨usable.reserved,fun e member _ => usable.copied member⟩
  · rintro ⟨reserved,copied⟩
    refine ⟨?_,?_,?_⟩
    · intro s nonempty
      constructor
      · intro nonzero
        by_contra notAdded
        exact nonzero (ordered.missed s notAdded)
      · rintro ⟨a,member,rfl⟩
        rw [ordered.found a member]
        rcases reserved with none | ⟨b,inAdds,isEmpty⟩
        · rw [none] at member
          cases member
        · obtain ⟨e,eFirst,isA⟩ := firsts_mem.mpr ⟨a,member,rfl⟩
          obtain ⟨c,cFirst,isB⟩ := firsts_mem.mpr ⟨b,inAdds,rfl⟩
          have less := offsets_less copied cFirst eFirst (by rw [isB,isEmpty,isA]; exact strcmp_nil.mpr nonempty)
          rw [isA] at less
          omega
    · intro s payload isPayload
      have inFirsts := payloadOf_iff.mp isPayload
      obtain ⟨a,member,isString⟩ := firsts_mem.mp ⟨_,inFirsts,rfl⟩
      have offset := ordered.found a member
      rw [isString] at offset
      rw [ordered.buffer,offset]
      by_cases inReach : place adds s < 2 ^ 32
      · rw [Nat.mod_eq_of_lt inReach]
        exact ordered.entries _ inFirsts
      · exact (copied _ inFirsts (Nat.not_lt.mp inReach)).1
    · intro a first b second less
      rw [ordered.found a first,ordered.found b second]
      obtain ⟨c,cFirst,isA⟩ := firsts_mem.mpr ⟨a,first,rfl⟩
      obtain ⟨d,dFirst,isB⟩ := firsts_mem.mpr ⟨b,second,rfl⟩
      rw [← isA,← isB]
      exact offsets_less copied cFirst dFirst (by rw [isA,isB]; exact less)

end

/-! ## A map to run -/

/-- A map as the list of its nodes with their strings. -/
def insertAt (key : Nat → Text) (n : Nat) : List Nat → List Nat
  | [] => [n]
  | m :: ns => if strcmp (key n) (key m) < 0 then n :: m :: ns else m :: insertAt key n ns

theorem insertAt_perm (key : Nat → Text) (n : Nat) (ns : List Nat) : (insertAt key n ns).Perm (n :: ns) := by
  induction ns with
  | nil => exact List.Perm.refl _
  | cons m ns ih =>
    rw [insertAt]
    split
    · exact List.Perm.refl _
    · exact (ih.cons m).trans (List.Perm.swap n m ns)

theorem insertAt_ascending {key : Nat → Text} {n : Nat} {ns : List Nat} (ascending : Ascending key ns)
    (isNew : ∀ m ∈ ns, key m ≠ key n) : Ascending key (insertAt key n ns) := by
  induction ns with
  | nil => exact List.pairwise_singleton _ _
  | cons m ns ih =>
    obtain ⟨first,rest⟩ := List.pairwise_cons.mp ascending
    rw [insertAt]
    split
    case isTrue less =>
      refine List.pairwise_cons.mpr ⟨fun k member => ?_,ascending⟩
      rcases List.mem_cons.mp member with here | later
      · rwa [here]
      · exact strcmp_total.lt_of_lt_of_le less (Int.le_of_lt (first k later))
    case isFalse notLess =>
      refine List.pairwise_cons.mpr ⟨fun k member => ?_,ih rest fun k inside => isNew k (List.mem_cons_of_mem m inside)⟩
      rcases List.mem_cons.mp ((insertAt_perm key n ns).mem_iff.mp member) with here | later
      · have different : strcmp (key m) (key n) ≠ 0 := fun same => isNew m List.mem_cons_self (strcmp_zero.mp same)
        have upTo := (strcmp_total.le_iff (key m) (key n)).mpr (Int.not_lt.mp notLess)
        rw [here]
        omega
      · exact first k later

def orderedNodes : MacroMap where
  Root := List Nat
  empty := []
  find root key s := root.find? (fun n => key n = s)
  insert root key n := insertAt key n root
  toList root := root
  empty_toList := rfl
  find_iff root key s n ascending := by
    constructor
    · intro found
      exact ⟨List.mem_of_find?_eq_some found,by simpa using List.find?_some found⟩
    · rintro ⟨member,rfl⟩
      cases found : root.find? (fun m => key m = key n) with
      | none => simpa using List.find?_eq_none.mp found n member
      | some m =>
        have same : key m = key n := by simpa using List.find?_some found
        have symmetric : Std.Symm (fun a b => strcmp (key a) (key b) ≠ 0) :=
          ⟨fun _ _ other zero => other (strcmp_total.zero_swap.mp zero)⟩
        have apart : root.Pairwise (fun a b => strcmp (key a) (key b) ≠ 0) := ascending.imp fun less => by omega
        by_contra different
        exact apart.forall (List.mem_of_find?_eq_some found) member (fun equal => different (by rw [equal]))
          (strcmp_zero.mpr same)
  insert_ascending root key n ascending isNew := insertAt_ascending ascending isNew
  insert_perm root key n _ _ := insertAt_perm key n root

/-- The only string is at offset 0, as if it had not been added. -/
theorem first_at_zero : ¬ ∀ (map : MacroMap) (adds : List Addition), Usable map adds := by
  intro all
  have nonzero := (all orderedNodes [⟨⟨[97,98,99],by decide⟩,⟨[],by decide⟩⟩]).nonzero ⟨[97,98,99],by decide⟩ (by decide)
  exact nonzero.mpr ⟨_,List.mem_singleton_self _,rfl⟩ (by decide)

end AnotherC.StringMap
