import AnotherC.Json.Parse

/-!
# What the pool holds

The nodes as a reader of the tree sees them: a container has its entries as a list.
`Holds` says that the linked lists of the pool give these, and that every value
knows its container. The two ways to allocate a value keep it.
-/
namespace AnotherC.AcJson
open AnotherC.Lib
open AnotherC.Lib.Chain (Link Linked)

structure Node where
  type : JsonType
  parent : Option Nat := none
  value : Option Text := none
  length : Nat := 0
  entries : List Entry := []
deriving Repr, DecidableEq

/-- The members of a node give its type, its parent and its entries, and they count these. -/
def Stands (links : List (Link Entry)) (json : Json) (node : Node) : Prop :=
  (json.type = node.type ∧ json.parent = node.parent ∧ json.value = node.value ∧ json.length = node.length) ∧
  json.numEntries = node.entries.length % 2 ^ 32 ∧
  ∃ places, places.Pairwise (· < ·) ∧ json.head = places.head? ∧ json.tail = places.getLast? ∧
    Linked links none places node.entries

/-- The entries of the node at `a` are behind it and have it as their parent. -/
def Belongs (nodes : List Node) (a : Nat) (node : Node) : Prop :=
  ∀ entry ∈ node.entries, a < entry.2 ∧ ∃ child, nodes[entry.2]? = some child ∧ child.parent = some a

structure Holds (pool : Pool) (nodes : List Node) : Prop where
  size : pool.values.length = nodes.length
  stands : ∀ {a : Nat} {json node}, pool.values[a]? = some json → nodes[a]? = some node → Stands pool.entries json node
  belongs : ∀ {a : Nat} {node}, nodes[a]? = some node → Belongs nodes a node

/-- A new node becomes the last entry of the one at `a`. -/
def adopt (nodes : List Node) (a : Nat) (key : Option Nat) (child : Node) : List Node :=
  nodes.modify a (fun node => { node with entries := node.entries ++ [⟨key,nodes.length⟩] }) ++
    [{ child with parent := some a }]

/-- A node as it is allocated: without entries. -/
def Json.fresh (json : Json) : Prop := json.numEntries = 0 ∧ json.head = none ∧ json.tail = none

def Json.node (json : Json) : Node := { type := json.type, parent := json.parent, value := json.value, length := json.length }

variable {pool pool' : Pool} {nodes : List Node} {a : Nat} {json : Json} {node : Node}

theorem Json.fresh.stands (fresh : json.fresh) (links : List (Link Entry)) : Stands links json json.node := by
  obtain ⟨count,head,tail⟩ := fresh
  exact ⟨⟨rfl,rfl,rfl,rfl⟩,by simp [count,Json.node],[],List.Pairwise.nil,by simp [head],by simp [tail],trivial⟩

theorem holds_one (links : List (Link Entry)) (fresh : json.fresh) : Holds ⟨[json],links⟩ [json.node] := by
  refine ⟨rfl,?_,?_⟩
  · rintro (_ | a) j n found same
    · cases found
      cases same
      exact fresh.stands links
    · cases found
  · rintro (_ | a) n found
    · cases found
      nofun
    · cases found

theorem Holds.found (holds : Holds pool nodes) (found : nodes[a]? = some node) :
    ∃ json, pool.values[a]? = some json ∧ Stands pool.entries json node := by
  obtain ⟨below,-⟩ := List.getElem?_eq_some_iff.mp found
  obtain ⟨json,there⟩ : ∃ json, pool.values[a]? = some json := ⟨_,List.getElem?_eq_getElem (holds.size ▸ below)⟩
  exact ⟨json,there,holds.stands there found⟩

theorem adopt_length (nodes : List Node) (a : Nat) (key : Option Nat) (child : Node) :
    (adopt nodes a key child).length = nodes.length + 1 := by simp [adopt]

theorem adopt_old {key : Option Nat} {child : Node} {b : Nat} (other : b ≠ a) (below : b < nodes.length) :
    (adopt nodes a key child)[b]? = nodes[b]? := by
  rw [adopt,List.getElem?_append_left (by simpa using below),List.getElem?_modify]
  simp [Ne.symm other]

theorem adopt_self {key : Option Nat} {child : Node} (found : nodes[a]? = some node) :
    (adopt nodes a key child)[a]? = some { node with entries := node.entries ++ [⟨key,nodes.length⟩] } := by
  rw [adopt,List.getElem?_append_left (by simpa using (List.getElem?_eq_some_iff.mp found).1),List.getElem?_modify,found]
  simp

theorem adopt_new (nodes : List Node) (a : Nat) (key : Option Nat) (child : Node) :
    (adopt nodes a key child)[nodes.length]? = some { child with parent := some a } := by
  rw [adopt,List.getElem?_append_right (by simp)]
  simp

/-- The nodes after an adoption: the parent, an older one, or the new one. -/
theorem adopt_cases {key : Option Nat} {child new : Node} {b : Nat}
    (found : (adopt nodes a key child)[b]? = some new) (parent : nodes[a]? = some node) :
    (b = a ∧ new = { node with entries := node.entries ++ [⟨key,nodes.length⟩] }) ∨
    (b ≠ a ∧ nodes[b]? = some new) ∨ (b = nodes.length ∧ new = { child with parent := some a }) := by
  obtain ⟨below,-⟩ := List.getElem?_eq_some_iff.mp found
  rw [adopt_length] at below
  by_cases last : b = nodes.length
  · subst last
    rw [adopt_new] at found
    exact .inr (.inr ⟨rfl,(Option.some.inj found).symm⟩)
  by_cases self : b = a
  · subst self
    rw [adopt_self parent] at found
    exact .inl ⟨rfl,(Option.some.inj found).symm⟩
  · rw [adopt_old self (by omega)] at found
    exact .inr (.inl ⟨self,found⟩)

/-- An adoption changes no parent. -/
theorem adopt_parent (a : Nat) (key : Option Nat) (child : Node) {old : Node} {b : Nat} (found : nodes[b]? = some old) :
    ∃ new, (adopt nodes a key child)[b]? = some new ∧ new.parent = old.parent ∧ new.type = old.type := by
  by_cases self : b = a
  · subst self
    exact ⟨_,adopt_self found,rfl,rfl⟩
  · exact ⟨old,by rw [adopt_old self (List.getElem?_eq_some_iff.mp found).1,found],rfl,rfl⟩

theorem Holds.adopt_belongs (holds : Holds pool nodes) (parent : nodes[a]? = some node) {key : Option Nat}
    {child new : Node} {b : Nat} (bare : child.entries = []) (found : (adopt nodes a key child)[b]? = some new) :
    Belongs (adopt nodes a key child) b new := by
  have old : ∀ {c : Nat} {n}, nodes[c]? = some n → Belongs (adopt nodes a key child) c n := by
    intro c n there entry inside
    obtain ⟨behind,kid,at_kid,up⟩ := holds.belongs there entry inside
    obtain ⟨kid',there',up',-⟩ := adopt_parent a key child at_kid
    exact ⟨behind,kid',there',up'.trans up⟩
  obtain ⟨rfl,rfl⟩ | ⟨-,there⟩ | ⟨-,rfl⟩ := adopt_cases found parent
  · intro entry inside
    obtain inside | inside := List.mem_append.mp inside
    · exact old parent entry inside
    · cases List.mem_singleton.mp inside
      exact ⟨(List.getElem?_eq_some_iff.mp parent).1,_,adopt_new ..,rfl⟩
  · exact old there
  · intro entry inside
    simp [bare] at inside

/-! ### Linking -/

/-- What `link` has made: the entry hangs behind the others of its container. -/
theorem link_spec (pool : Pool) {o : Json} (found : pool.values[a]? = some o) (stands : Stands pool.entries o node) (entry : Entry) :
    ∃ o' links, link pool (some a) entry = some ⟨pool.values.set a o',links⟩ ∧
      Stands links o' { node with entries := node.entries ++ [entry] } ∧
      ∀ b < pool.entries.length, o.tail ≠ some b → links[b]? = pool.entries[b]? := by
  obtain ⟨same,count,places,sorted,head,tail,chain⟩ := stands
  have counted : (o.numEntries + 1) % 2 ^ 32 = (node.entries ++ [entry]).length % 2 ^ 32 := by
    rw [count,List.length_append,List.length_singleton,Nat.mod_add_mod]
  cases List.eq_nil_or_concat places with
  | inl bare =>
    subst bare
    have bare : node.entries = [] := List.length_eq_zero_iff.mp chain.length.symm
    refine ⟨{ o with numEntries := _, head := some pool.entries.length, tail := some pool.entries.length },_,
      by simp [link,found,head]; rfl,⟨same,counted,[pool.entries.length],?_,rfl,rfl,?_⟩,?_⟩
    · exact List.pairwise_singleton ..
    · rw [bare]
      exact Linked.single ..
    · intro b below _
      exact List.getElem?_append_left below
  | inr more =>
    obtain ⟨before,last,rfl⟩ := more
    simp only [List.concat_eq_append] at sorted head tail chain
    have at_last : last ∈ before ++ [last] := List.mem_append_right _ List.mem_cons_self
    obtain ⟨old,there,-⟩ := chain.holds at_last
    have once : last ∉ before := fun inside =>
      Nat.lt_irrefl _ ((List.pairwise_append.mp sorted).2.2 _ inside _ List.mem_cons_self)
    have hung : pool.entries.set last { old with next := some pool.entries.length } ++
        [⟨entry,none,some last⟩] = Chain.hang pool.entries last entry := by
      obtain ⟨below,rfl⟩ := List.getElem?_eq_some_iff.mp there
      rw [Chain.hang,List.modify_eq_set_getElem?,List.getElem?_eq_getElem below]
      rfl
    have headed : o.head ≠ none := by
      rw [head]
      cases before <;> simp
    obtain ⟨first,isFirst⟩ := Option.ne_none_iff_exists'.mp headed
    have ended : o.tail = some last := by simpa using tail
    refine ⟨{ o with numEntries := _, head := some first, tail := some pool.entries.length },_,
      by simp [link,found,isFirst,ended,there,hung]; rfl,⟨same,counted,before ++ [last] ++ [pool.entries.length],?_,?_,?_,?_⟩,?_⟩
    · refine List.pairwise_append.mpr ⟨sorted,List.pairwise_singleton ..,?_⟩
      intro b inside c isNew
      cases List.mem_singleton.mp isNew
      exact chain.lt inside
    · rw [isFirst] at head
      simp only [head]
      cases before <;> rfl
    · simp
    · exact chain.hang once
    · intro b below other
      exact Chain.hang_old (fun same => other (same ▸ ended)) below

/-- The chain of a container does not meet the tail of another. -/
theorem Holds.apart (holds : Holds pool nodes) {b : Nat} {o : Json} {node other : Node} (isO : pool.values[a]? = some o)
    (at_a : nodes[a]? = some node) (at_b : nodes[b]? = some other)
    (differ : b ≠ a) {places : List Nat} (chain : Linked pool.entries none places other.entries)
    {place : Nat} (inside : place ∈ places) : o.tail ≠ some place := by
  intro ended
  obtain ⟨-,-,own,-,-,tail,mine⟩ := holds.stands isO at_a
  have member : place ∈ own := List.mem_of_getLast? (tail ▸ ended)
  obtain ⟨l,there,inMine⟩ := mine.holds member
  obtain ⟨l',there',inOther⟩ := chain.holds inside
  obtain rfl := Option.some.inj (there.symm.trans there')
  obtain ⟨-,child,found,up⟩ := holds.belongs at_a _ inMine
  obtain ⟨-,child',found',up'⟩ := holds.belongs at_b _ inOther
  obtain rfl := Option.some.inj (found.symm.trans found')
  exact differ (Option.some.inj (up'.symm.trans up))

/-- A fresh value linked into a container. -/
theorem Holds.link (holds : Holds pool nodes) (parent : nodes[a]? = some node) (fresh : json.fresh) (key : Option Nat) :
    ∃ pool', AcJson.link ⟨pool.values ++ [{ json with parent := some a }],pool.entries⟩ (some a) ⟨key,pool.values.length⟩ =
      some pool' ∧ Holds pool' (adopt nodes a key json.node) := by
  obtain ⟨o,isO,stands⟩ := holds.found parent
  have below : a < pool.values.length := (List.getElem?_eq_some_iff.mp isO).1
  have isO' : (pool.values ++ [{ json with parent := some a }])[a]? = some o := by
    rw [List.getElem?_append_left below,isO]
  obtain ⟨o',links,linked,stands',kept⟩ :=
    link_spec ⟨pool.values ++ [{ json with parent := some a }],pool.entries⟩ isO' stands ⟨key,pool.values.length⟩
  refine ⟨_,linked,?_,?_,holds.adopt_belongs parent rfl⟩
  · simp [adopt_length,holds.size]
  intro b j new isJ found
  obtain ⟨rfl,rfl⟩ | ⟨differ,there⟩ | ⟨rfl,rfl⟩ := adopt_cases found parent
  · rw [List.getElem?_set_self (by simp; omega)] at isJ
    cases isJ
    rw [holds.size] at stands'
    exact stands'
  · rw [List.getElem?_set_ne (Ne.symm differ)] at isJ
    have before : b < pool.values.length := holds.size ▸ (List.getElem?_eq_some_iff.mp there).1
    rw [List.getElem?_append_left before] at isJ
    obtain ⟨same,count,places,sorted,head,tail,chain⟩ := holds.stands isJ there
    refine ⟨same,count,places,sorted,head,tail,chain.frame ?_⟩
    intro place inside
    exact kept place (chain.lt inside) (holds.apart isO parent there differ chain inside)
  · rw [← holds.size,List.getElem?_set_ne (by omega),List.getElem?_append_right (Nat.le_refl _)] at isJ
    simp only [Nat.sub_self,List.getElem?_cons_zero,Option.some.injEq] at isJ
    subst isJ
    have fresh' : Json.fresh { json with parent := some a } := fresh
    exact fresh'.stands links

/-! ### The two allocations -/

theorem Holds.addValue (holds : Holds pool nodes) (parent : nodes[a]? = some node) (fresh : json.fresh) :
    ∃ pool', AcJson.addValue pool (some a) json = some pool' ∧ Holds pool' (adopt nodes a none json.node) := holds.link parent fresh none

theorem Holds.append (holds : Holds pool nodes) (parent : nodes[a]? = some node) (fresh : json.fresh) (key : Option Nat) :
    ∃ pool', acJsonoAppend { pool with values := pool.values ++ [json] } (some a) key pool.values.length = some pool' ∧
      Holds pool' (adopt nodes a key json.node) := by
  obtain ⟨pool',linked,holds'⟩ := holds.link parent fresh key
  refine ⟨pool',?_,holds'⟩
  simpa [acJsonoAppend] using linked

end AnotherC.AcJson
