import Mathlib.Data.List.Nodup
import Mathlib.Data.List.Perm.Subperm

/-!
Doubly linked lists in a store: the links lie in a list, the address of a link is
its place there, and a new link is allocated behind all others.
-/
namespace AnotherC.Lib.Chain

structure Link (α : Type) where
  item : α
  next : Option Nat := none
  previous : Option Nat := none
deriving Repr, DecidableEq

variable {α : Type}

/-- The links at these places hold the items in order, and each names its two
    neighbours; the first has `before` in front of it. -/
def Linked (links : List (Link α)) : Option Nat → List Nat → List α → Prop
  | _, [], [] => True
  | before, place :: places, item :: items =>
    links[place]? = some ⟨item,places.head?,before⟩ ∧ Linked links (some place) places items
  | _, _, _ => False

/-- A new link behind the one at `tail`. -/
def hang (links : List (Link α)) (tail : Nat) (item : α) : List (Link α) :=
  links.modify tail (fun link => { link with next := some links.length }) ++ [⟨item,none,some tail⟩]

variable {links links' : List (Link α)} {before : Option Nat} {places : List Nat} {items : List α}

theorem Linked.length (chain : Linked links before places items) : places.length = items.length := by
  induction places generalizing before items with
  | nil => cases items <;> simp_all [Linked]
  | cons place places ih =>
    cases items with
    | nil => exact chain.elim
    | cons item items => simp [ih chain.2]

/-- A chain depends on its own links only. -/
theorem Linked.frame (chain : Linked links before places items)
    (same : ∀ place ∈ places, links'[place]? = links[place]?) : Linked links' before places items := by
  induction places generalizing before items with
  | nil => cases items <;> simp_all [Linked]
  | cons place places ih =>
    cases items with
    | nil => exact chain.elim
    | cons item items =>
      refine ⟨?_,ih chain.2 fun p inside => same p (List.mem_cons_of_mem _ inside)⟩
      rw [same place List.mem_cons_self]
      exact chain.1

/-- What lies at a place of the chain is one of its items. -/
theorem Linked.holds (chain : Linked links before places items) {place : Nat} (inside : place ∈ places) :
    ∃ link, links[place]? = some link ∧ link.item ∈ items := by
  induction places generalizing before items with
  | nil => cases inside
  | cons first places ih =>
    cases items with
    | nil => exact chain.elim
    | cons item items =>
      obtain rfl | later := List.mem_cons.mp inside
      · exact ⟨_,chain.1,List.mem_cons_self⟩
      · obtain ⟨link,found,mem⟩ := ih chain.2 later
        exact ⟨link,found,List.mem_cons_of_mem _ mem⟩

theorem Linked.lt (chain : Linked links before places items) {place : Nat} (inside : place ∈ places) :
    place < links.length := by
  obtain ⟨link,found,-⟩ := chain.holds inside
  exact (List.getElem?_eq_some_iff.mp found).1

/-- The first place determines a chain. -/
theorem Linked.unique {before' : Option Nat} {places' : List Nat} {items' : List α} (chain : Linked links before places items)
    (other : Linked links before' places' items') (head : places.head? = places'.head?) : items = items' := by
  induction places generalizing before items before' places' items' with
  | nil =>
    cases places' with
    | nil => cases items <;> cases items' <;> simp_all [Linked]
    | cons _ _ => cases head
  | cons place places ih =>
    cases places' with
    | nil => cases head
    | cons place' places' =>
      obtain rfl : place = place' := by simpa using head
      cases items with
      | nil => exact chain.elim
      | cons item items =>
        cases items' with
        | nil => exact other.elim
        | cons item' items' =>
          obtain ⟨found,rest⟩ := chain
          obtain ⟨found',rest'⟩ := other
          have same := Option.some.inj (found.symm.trans found')
          simp only [Link.mk.injEq] at same
          rw [same.1,ih rest rest' same.2.1]

theorem Linked.suffix {xs ys : List Nat} (chain : Linked links before (xs ++ ys) items) :
    ∃ before', Linked links before' ys (items.drop xs.length) := by
  induction xs generalizing before items with
  | nil => exact ⟨before,chain⟩
  | cons x xs ih =>
    cases items with
    | nil => exact chain.elim
    | cons item items => exact ih chain.2

/-- A chain comes to no place twice, for it would go on from there as before. -/
theorem Linked.nodup (chain : Linked links before places items) : places.Nodup := by
  induction places generalizing before items with
  | nil => exact List.nodup_nil
  | cons place places ih =>
    cases items with
    | nil => exact chain.elim
    | cons item items =>
      refine List.nodup_cons.mpr ⟨fun again => ?_,ih chain.2⟩
      obtain ⟨xs,ys,rfl⟩ := List.append_of_mem again
      obtain ⟨before',later⟩ := chain.2.suffix
      have same := congrArg List.length (chain.unique later rfl)
      have whole := chain.length
      have part := later.length
      simp only [List.length_cons,List.length_append,List.length_drop] at same whole part
      omega

theorem Linked.length_le (chain : Linked links before places items) : places.length ≤ links.length := by
  have inside : places ⊆ List.range links.length := fun place member => List.mem_range.mpr (chain.lt member)
  simpa using (List.Nodup.subperm chain.nodup inside).length_le

theorem Linked.map {β : Type} (f : α → β) (chain : Linked links before places items) :
    Linked (links.map fun link => ⟨f link.item,link.next,link.previous⟩) before places (items.map f) := by
  induction places generalizing before items with
  | nil =>
    cases items with
    | nil => trivial
    | cons _ _ => exact chain.elim
  | cons place places ih =>
    cases items with
    | nil => exact chain.elim
    | cons item items => exact ⟨by rw [List.getElem?_map,chain.1]; rfl,ih chain.2⟩

theorem Linked.single (links : List (Link α)) (item : α) :
    Linked (links ++ [⟨item,none,none⟩]) none [links.length] [item] := by
  simp [Linked]

theorem hang_old {tail place : Nat} {item : α} (other : place ≠ tail) (below : place < links.length) :
    (hang links tail item)[place]? = links[place]? := by
  rw [hang,List.getElem?_append_left (by simpa using below),List.getElem?_modify]
  simp [Ne.symm other]

/-- A link behind the last one lengthens the chain, when the chain does not meet
    its last link twice. -/
theorem Linked.hang {tail : Nat} {item : α} (chain : Linked links before (places ++ [tail]) items)
    (once : tail ∉ places) :
    Linked (hang links tail item) before (places ++ [tail] ++ [links.length]) (items ++ [item]) := by
  induction places generalizing before items with
  | nil =>
    cases items with
    | nil => exact chain.elim
    | cons last items =>
      obtain ⟨found,rest⟩ := chain
      cases items with
      | cons _ _ => exact rest.elim
      | nil =>
        have below : tail < links.length := (List.getElem?_eq_some_iff.mp found).1
        simp only [List.nil_append,List.singleton_append,Linked,List.head?_cons,List.head?_nil]
        refine ⟨?_,?_,trivial⟩
        · rw [Chain.hang,List.getElem?_append_left (by simpa using below),List.getElem?_modify]
          simp only [if_true]
          rw [found]
          rfl
        · simp [Chain.hang]
  | cons place places ih =>
    cases items with
    | nil => exact chain.elim
    | cons first items =>
      obtain ⟨found,rest⟩ := chain
      have other : place ≠ tail := fun same => once (same ▸ List.mem_cons_self)
      refine ⟨?_,ih rest fun inside => once (List.mem_cons_of_mem _ inside)⟩
      rw [hang_old other (List.getElem?_eq_some_iff.mp found).1,found]
      cases places <;> rfl

/-! ## Walks -/

/-- A link stands between its neighbours in the chain. -/
theorem Linked.middle {xs ys : List Nat} {p : Nat} (chain : Linked links before (xs ++ p :: ys) items) :
    ∃ item, items[xs.length]? = some item ∧ links[p]? = some ⟨item,ys.head?,xs.getLast?.or before⟩ := by
  induction xs generalizing before items with
  | nil =>
    cases items with
    | nil => exact chain.elim
    | cons item items => exact ⟨item,rfl,chain.1⟩
  | cons x xs ih =>
    cases items with
    | nil => exact chain.elim
    | cons first items =>
      obtain ⟨item,isItem,found⟩ := ih chain.2
      refine ⟨item,isItem,found.trans ?_⟩
      rw [List.getLast?_cons]
      cases xs.getLast? <;> rfl

theorem Linked.get (chain : Linked links none places items) {i p : Nat} (here : places[i]? = some p) :
    ∃ item, items[i]? = some item ∧ links[p]? = some ⟨item,places[i + 1]?,if i = 0 then none else places[i - 1]?⟩ := by
  obtain ⟨below,same⟩ := List.getElem?_eq_some_iff.mp here
  have split : places = places.take i ++ p :: places.drop (i + 1) := by
    rw [← same,List.getElem_cons_drop,List.take_append_drop]
  rw [split] at chain
  obtain ⟨item,isItem,found⟩ := chain.middle
  rw [List.length_take,Nat.min_eq_left (Nat.le_of_lt below)] at isItem
  refine ⟨item,isItem,found.trans ?_⟩
  rw [List.head?_drop,Option.or_none]
  cases i with
  | zero => rfl
  | succ k =>
    have previous : (places.take (k + 1)).getLast? = places[k]? := by
      rw [List.getLast?_eq_getElem?,List.length_take,Nat.min_eq_left (Nat.le_of_lt below),Nat.add_sub_cancel,
        List.getElem?_take_of_lt (Nat.lt_succ_self k)]
    rw [previous,if_neg (Nat.succ_ne_zero k),Nat.add_sub_cancel]

/-- So many steps along a pointer of the links; one from NULL is `none`. -/
def walk (links : List (Link α)) (pointer : Link α → Option Nat) : Nat → Option Nat → Option (Option Nat)
  | 0, place => some place
  | n + 1, some place => do
    let link ← links[place]?
    walk links pointer n (pointer link)
  | _ + 1, none => none

theorem Linked.walk_next (chain : Linked links none places items) {n k p : Nat} (here : places[k]? = some p)
    (inside : k + n < places.length) : walk links Link.next n (some p) = some places[k + n]? := by
  induction n generalizing k p with
  | zero => rw [walk,Nat.add_zero,here]
  | succ n ih =>
    obtain ⟨item,-,found⟩ := chain.get here
    have next : places[k + 1]? = some places[k + 1] := List.getElem?_eq_getElem (by omega)
    rw [walk,found]
    simp only [Option.bind_eq_bind,Option.bind_some]
    rw [next,ih next (by omega),Nat.add_assoc,Nat.add_comm 1 n]

theorem Linked.walk_previous (chain : Linked links none places items) {n k p : Nat} (here : places[k + n]? = some p) :
    walk links Link.previous n (some p) = some places[k]? := by
  induction n generalizing p with
  | zero => rw [walk,← here,Nat.add_zero]
  | succ n ih =>
    obtain ⟨item,-,found⟩ := chain.get here
    obtain ⟨below,-⟩ := List.getElem?_eq_some_iff.mp here
    have previous : places[k + n]? = some places[k + n] := List.getElem?_eq_getElem (by omega)
    rw [walk,found]
    simp only [Option.bind_eq_bind,Option.bind_some]
    rw [if_neg (by omega),show k + (n + 1) - 1 = k + n from by omega,previous,ih previous]

/-- The places along a pointer up to NULL, if they are no more than the fuel. -/
def gather (links : List (Link α)) (pointer : Link α → Option Nat) : Nat → Option Nat → Option (List Nat)
  | _, none => some []
  | 0, some _ => none
  | n + 1, some place => do
    let link ← links[place]?
    let rest ← gather links pointer n (pointer link)
    some (place :: rest)

theorem Linked.gather_next (chain : Linked links before places items) {fuel : Nat} (enough : places.length ≤ fuel) :
    gather links Link.next fuel places.head? = some places := by
  induction places generalizing before items fuel with
  | nil =>
    rw [List.head?_nil]
    cases fuel <;> rfl
  | cons place places ih =>
    cases items with
    | nil => exact chain.elim
    | cons item items =>
      cases fuel with
      | zero => cases enough
      | succ fuel =>
        rw [List.head?_cons,gather,chain.1]
        simp only [Option.bind_eq_bind,Option.bind_some]
        rw [ih chain.2 (Nat.le_of_succ_le_succ enough)]
        rfl

theorem Linked.gather_short (chain : Linked links before places items) {fuel : Nat} (short : fuel < places.length) :
    gather links Link.next fuel places.head? = none := by
  induction places generalizing before items fuel with
  | nil => cases short
  | cons place places ih =>
    cases items with
    | nil => exact chain.elim
    | cons item items =>
      cases fuel with
      | zero => rfl
      | succ fuel =>
        rw [List.head?_cons,gather,chain.1]
        simp only [Option.bind_eq_bind,Option.bind_some]
        rw [ih chain.2 (Nat.lt_of_succ_lt_succ short)]
        rfl

theorem Linked.gather_previous (chain : Linked links none places items) {fuel k : Nat} (inside : k ≤ places.length) (enough : k ≤ fuel) :
    gather links Link.previous fuel (places.take k).getLast? = some (places.take k).reverse := by
  induction k generalizing fuel with
  | zero =>
    rw [List.take_zero,List.getLast?_nil]
    cases fuel <;> rfl
  | succ k ih =>
    cases fuel with
    | zero => cases enough
    | succ fuel =>
      have here : places[k]? = some places[k] := List.getElem?_eq_getElem inside
      obtain ⟨item,-,found⟩ := chain.get here
      have shorter : (if k = 0 then none else places[k - 1]?) = (places.take k).getLast? := by
        rw [List.getLast?_eq_getElem?,List.length_take,Nat.min_eq_left (Nat.le_of_succ_le inside)]
        split
        case isTrue zero => simp [zero]
        case isFalse => rw [List.getElem?_take_of_lt (by omega)]
      rw [List.take_add_one,here,Option.toList_some,List.getLast?_append,List.getLast?_singleton,Option.some_or,gather,found]
      simp only [Option.bind_eq_bind,Option.bind_some]
      rw [shorter,ih (Nat.le_of_succ_le inside) (Nat.le_of_succ_le_succ enough),List.reverse_append]
      rfl

/-- A chain that is followed from its head has these items. -/
theorem Linked.gathered {entries : List (Nat × α)} (chain : Linked links none places items)
    (list : gather links Link.next links.length places.head? = some (entries.map Prod.fst))
    (values : ∀ e ∈ entries, ∃ link, links[e.1]? = some link ∧ link.item = e.2) :
    places = entries.map Prod.fst ∧ items = entries.map Prod.snd := by
  have isPlaces : places = entries.map Prod.fst := Option.some.inj ((chain.gather_next chain.length_le).symm.trans list)
  refine ⟨isPlaces,?_⟩
  subst isPlaces
  apply List.ext_getElem?
  intro i
  cases here : entries[i]? with
  | none =>
    have late := List.getElem?_eq_none_iff.mp here
    rw [List.getElem?_map,here,List.getElem?_eq_none (by rw [← chain.length,List.length_map]; exact late)]
    rfl
  | some e =>
    have place : (entries.map Prod.fst)[i]? = some e.1 := by rw [List.getElem?_map,here]; rfl
    obtain ⟨item,isItem,stands⟩ := chain.get place
    obtain ⟨link,there,same⟩ := values e (List.mem_of_getElem? here)
    rw [isItem,List.getElem?_map,here,Option.map_some,← same,← Option.some.inj (stands.symm.trans there)]

/-- The link of an entry. -/
theorem link_of {entries : List (Nat × α)} (chain : Linked links before (entries.map Prod.fst) (entries.map Prod.snd))
    {e : Nat × α} (inside : e ∈ entries) : ∃ link, links[e.1]? = some link ∧ link.item = e.2 := by
  induction entries generalizing before with
  | nil => cases inside
  | cons first entries ih =>
    rcases List.mem_cons.mp inside with rfl | later
    · exact ⟨_,chain.1,rfl⟩
    · exact ih chain.2 later

/-- Items may be changed place by place. -/
theorem Linked.update {entries : List (Nat × α)} {f : Nat → α → α}
    (chain : Linked links before (entries.map Prod.fst) (entries.map Prod.snd))
    (changed : ∀ place : Nat, links'[place]? = links[place]?.map fun l => ⟨f place l.item,l.next,l.previous⟩) :
    Linked links' before (entries.map Prod.fst) (entries.map fun e => f e.1 e.2) := by
  induction entries generalizing before with
  | nil => trivial
  | cons e entries ih => exact ⟨by rw [changed,chain.1]; rfl,ih chain.2⟩

/-! ## A link is taken out -/

/-- A pointer of a link is set; `none` is a link that is not in the store. -/
def setNext (links : List (Link α)) (place : Nat) (next : Option Nat) : Option (List (Link α)) := do
  let link ← links[place]?
  some (links.set place { link with next := next })

def setPrevious (links : List (Link α)) (place : Nat) (previous : Option Nat) : Option (List (Link α)) := do
  let link ← links[place]?
  some (links.set place { link with previous := previous })

/-- The neighbours of a link name one another. -/
def Joins (links links' : List (Link α)) (link : Link α) : Prop :=
  ∀ place : Nat, links'[place]? = links[place]?.map fun l =>
    ⟨l.item,if link.previous = some place then link.next else l.next,if link.next = some place then link.previous else l.previous⟩

theorem Joins.other {link : Link α} (joins : Joins links links' link) {place : Nat} (front : link.previous ≠ some place)
    (behind : link.next ≠ some place) : links'[place]? = links[place]? := by
  simp only [joins place,if_neg front,if_neg behind]
  cases links[place]? <;> rfl

theorem Linked.unlink {xs ys : List Nat} {p : Nat} {link : Link α} (chain : Linked links before (xs ++ p :: ys) items)
    (found : links[p]? = some link) (joins : Joins links links' link) (outside : ∀ b, before = some b → b ∉ xs ++ p :: ys) : Linked links' before (xs ++ ys) (items.eraseIdx xs.length) := by
  obtain ⟨item,-,isLink⟩ := chain.middle
  obtain rfl := Option.some.inj (found.symm.trans isLink)
  have distinct := chain.nodup
  induction xs generalizing before items with
  | nil =>
    cases items with
    | nil => exact chain.elim
    | cons first items =>
      rw [List.nil_append] at distinct outside
      rw [List.nil_append,List.length_nil,List.eraseIdx_zero,List.tail_cons]
      have away : ∀ q ∈ ys, before ≠ some q := fun q inside same => outside q same (List.mem_cons_of_mem _ inside)
      cases ys with
      | nil =>
        cases items with
        | nil => trivial
        | cons _ _ => exact chain.2.elim
      | cons r ys =>
        cases items with
        | nil => exact chain.2.elim
        | cons second items =>
          have once := (List.nodup_cons.mp (List.nodup_cons.mp distinct).2).1
          refine ⟨?_,chain.2.2.frame fun q inside => joins.other ?_ ?_⟩
          · rw [joins,chain.2.1,Option.map_some]
            simp only [List.getLast?_nil,Option.none_or,List.head?_cons,if_true,away r List.mem_cons_self,if_false]
          · exact away q (List.mem_cons_of_mem _ inside)
          · intro same
            cases same
            exact once inside
  | cons x xs ih =>
    cases items with
    | nil => exact chain.elim
    | cons first items =>
      obtain ⟨notLater,distinct⟩ := List.nodup_cons.mp distinct
      have same : (x :: xs).getLast?.or before = xs.getLast?.or (some x) := by
        rw [List.getLast?_cons]
        cases xs.getLast? <;> rfl
      rw [same] at found joins isLink
      refine ⟨?_,ih chain.2 (fun b isB => ?_) found isLink joins distinct⟩
      · rw [joins,chain.1,Option.map_some]
        have behind : ys.head? ≠ some x := fun isX =>
          notLater (List.mem_append_right _ (List.mem_cons_of_mem _ (List.mem_of_head? isX)))
        rw [if_neg behind]
        cases xs with
        | nil => simp
        | cons x' xs =>
          have front : (x' :: xs).getLast?.or (some x) ≠ some x := by
            intro isX
            rw [List.getLast?_cons,Option.some_or] at isX
            refine notLater (List.mem_append_left _ ?_)
            have last := List.getLast?_cons (a := x') (l := xs)
            rw [isX] at last
            exact List.mem_of_getLast? last
          rw [if_neg front]
          rfl
      · cases isB
        exact notLater

def setItem (links : List (Link α)) (place : Nat) (item : α) : Option (List (Link α)) := do
  let link ← links[place]?
  some (links.set place { link with item := item })

theorem setItem_spec {place : Nat} (below : place < links.length) (item : α) :
    ∃ links', setItem links place item = some links' ∧ links'.length = links.length ∧
      ∀ q : Nat, links'[q]? = links[q]?.map fun l => ⟨if place = q then item else l.item,l.next,l.previous⟩ := by
  have found : links[place]? = some links[place] := List.getElem?_eq_getElem below
  refine ⟨_,by rw [setItem,found]; rfl,List.length_set,fun q => ?_⟩
  rw [List.getElem?_set]
  split
  case isTrue same =>
    subst same
    rw [found,Option.map_some]
  case isFalse =>
    cases links[q]? <;> rfl

theorem setNext_spec {place : Nat} (below : place < links.length) (next : Option Nat) :
    ∃ links', setNext links place next = some links' ∧ links'.length = links.length ∧
      ∀ q : Nat, links'[q]? = links[q]?.map fun l => ⟨l.item,if place = q then next else l.next,l.previous⟩ := by
  have found : links[place]? = some links[place] := List.getElem?_eq_getElem below
  refine ⟨_,by rw [setNext,found]; rfl,List.length_set,fun q => ?_⟩
  rw [List.getElem?_set]
  split
  case isTrue same =>
    subst same
    rw [found,Option.map_some]
  case isFalse =>
    cases links[q]? <;> rfl

theorem setPrevious_spec {place : Nat} (below : place < links.length) (previous : Option Nat) :
    ∃ links', setPrevious links place previous = some links' ∧ links'.length = links.length ∧
      ∀ q : Nat, links'[q]? = links[q]?.map fun l => ⟨l.item,l.next,if place = q then previous else l.previous⟩ := by
  have found : links[place]? = some links[place] := List.getElem?_eq_getElem below
  refine ⟨_,by rw [setPrevious,found]; rfl,List.length_set,fun q => ?_⟩
  rw [List.getElem?_set]
  split
  case isTrue same =>
    subst same
    rw [found,Option.map_some]
  case isFalse =>
    cases links[q]? <;> rfl

/-- A new link behind the one at `tail`, as two writes. -/
theorem setNext_hang {tail : Nat} (below : tail < links.length) (item : α) :
    ∃ links', setNext links tail (some links.length) = some links' ∧ links' ++ [⟨item,none,some tail⟩] = hang links tail item := by
  have found : links[tail]? = some links[tail] := List.getElem?_eq_getElem below
  refine ⟨_,by rw [setNext,found]; rfl,?_⟩
  rw [hang,List.modify_eq_set_getElem?,found]
  rfl

/-- The two pointers around a link are set to one another. -/
theorem joins_both (link : Link α) {p q : Nat} (front : link.previous = some p) (behind : link.next = some q)
    (inside : p < links.length) (inside' : q < links.length) :
    ∃ links₁ links₂, setNext links p link.next = some links₁ ∧ setPrevious links₁ q link.previous = some links₂ ∧
      links₂.length = links.length ∧ Joins links links₂ link := by
  obtain ⟨links₁,set₁,length₁,get₁⟩ := setNext_spec inside link.next
  obtain ⟨links₂,set₂,length₂,get₂⟩ := setPrevious_spec (length₁.symm ▸ inside') link.previous
  refine ⟨links₁,links₂,set₁,set₂,length₂.trans length₁,fun place => ?_⟩
  rw [get₂,get₁,Option.map_map,front,behind]
  simp only [Option.some.injEq]
  rfl

theorem joins_front (link : Link α) {p : Nat} (front : link.previous = some p) (behind : link.next = none) (inside : p < links.length) :
    ∃ links', setNext links p link.next = some links' ∧ links'.length = links.length ∧ Joins links links' link := by
  obtain ⟨links',set,length,get⟩ := setNext_spec inside link.next
  refine ⟨links',set,length,fun place => ?_⟩
  rw [get,front,behind]
  simp

theorem joins_behind (link : Link α) {q : Nat} (front : link.previous = none) (behind : link.next = some q) (inside : q < links.length) :
    ∃ links', setPrevious links q none = some links' ∧ links'.length = links.length ∧ Joins links links' link := by
  obtain ⟨links',set,length,get⟩ := setPrevious_spec inside none
  refine ⟨links',set,length,fun place => ?_⟩
  rw [get,front,behind]
  simp

theorem joins_none {link : Link α} (front : link.previous = none) (behind : link.next = none) : Joins links links link := by
  intro place
  rw [front,behind]
  cases links[place]? <;> rfl

/-- The four ways to take a link out: its neighbours get its pointers, and where it has none
    the end of the list does. -/
def takeOut (links : List (Link α)) (head tail : Option Nat) (link : Link α) : Option (List (Link α) × Option Nat × Option Nat) :=
  match link.previous, link.next with
  | some p, some q => do
    let links ← setNext links p link.next
    let links ← setPrevious links q link.previous
    some (links,head,tail)
  | some p, none => do
    let links ← setNext links p link.next
    some (links,head,link.previous)
  | none, some q => do
    let links ← setPrevious links q link.previous
    some (links,link.next,tail)
  | none, none => some (links,link.next,link.previous)

/-! ## Chains as lists of places with their items -/

section
variable {entries front behind : List (Nat × α)} {e : Nat × α}

/-- A new link behind the last one. -/
theorem Linked.hang_last (chain : Linked links before (entries.map Prod.fst) (entries.map Prod.snd)) (some_ : entries ≠ []) (item : α) :
    ∃ tail links', (entries.map Prod.fst).getLast? = some tail ∧ setNext links tail (some links.length) = some links' ∧
      Linked (links' ++ [⟨item,none,some tail⟩]) before ((entries ++ [(links.length,item)]).map Prod.fst)
        ((entries ++ [(links.length,item)]).map Prod.snd) := by
  obtain ⟨front,e,rfl⟩ : ∃ front e, entries = front ++ [e] := (List.eq_nil_or_concat' entries).resolve_left some_
  rw [List.map_append,List.map_cons,List.map_nil] at chain
  have distinct := chain.nodup
  rw [List.nodup_append] at distinct
  have once : e.1 ∉ front.map Prod.fst := fun again => distinct.2.2 _ again _ List.mem_cons_self rfl
  obtain ⟨links',set,isHang⟩ := setNext_hang (chain.lt (List.mem_append_right _ List.mem_cons_self)) item
  refine ⟨e.1,links',by rw [List.map_append,List.getLast?_append]; rfl,set,?_⟩
  have longer : Linked (Chain.hang links e.1 item) before _ _ := chain.hang once
  rw [← isHang] at longer
  simp only [List.map_append,List.map_cons,List.map_nil] at longer ⊢
  exact longer

/-- The link of one entry, and the chain without it. -/
theorem Linked.without (chain : Linked links none ((front ++ e :: behind).map Prod.fst) ((front ++ e :: behind).map Prod.snd)) :
    links[e.1]? = some ⟨e.2,(behind.map Prod.fst).head?,(front.map Prod.fst).getLast?⟩ ∧
    (∀ links', Joins links links' ⟨e.2,(behind.map Prod.fst).head?,(front.map Prod.fst).getLast?⟩ →
      Linked links' none ((front ++ behind).map Prod.fst) ((front ++ behind).map Prod.snd)) := by
  rw [List.map_append,List.map_cons] at chain
  obtain ⟨item,isItem,found⟩ := chain.middle
  have same : item = e.2 := by
    rw [List.map_append,List.map_cons,List.getElem?_append_right (by simp)] at isItem
    simpa using isItem.symm
  subst same
  rw [Option.or_none] at found
  refine ⟨found,fun links' joins => ?_⟩
  have linked := chain.unlink found joins nofun
  rw [List.map_append,List.map_cons,List.eraseIdx_append_of_length_le (by simp),List.length_map,List.length_map,Nat.sub_self,
    List.eraseIdx_cons_zero] at linked
  rw [List.map_append,List.map_append]
  exact linked

/-- What an entry leaves when it is taken out by its place. -/
theorem filter_out (distinct : ((front ++ e :: behind).map Prod.fst).Nodup) :
    (front ++ e :: behind).filter (·.1 ≠ e.1) = front ++ behind := by
  rw [List.map_append,List.map_cons,List.nodup_append] at distinct
  have keeps (l : List (Nat × α)) (other : ∀ d ∈ l, d.1 ≠ e.1) : l.filter (·.1 ≠ e.1) = l :=
    List.filter_eq_self.mpr fun d inside => by simpa using other d inside
  rw [List.filter_append,List.filter_cons_of_neg (by simp),keeps front,keeps behind]
  · intro d inside same
    exact (List.nodup_cons.mp distinct.2.1).1 (List.mem_map.mpr ⟨d,inside,same⟩)
  · intro d inside same
    exact distinct.2.2 _ (List.mem_map.mpr ⟨d,inside,same⟩) _ List.mem_cons_self rfl

/-- The chain and its two ends after an entry has been taken out. -/
theorem Linked.takeOut (chain : Linked links none ((front ++ e :: behind).map Prod.fst) ((front ++ e :: behind).map Prod.snd)) :
    ∃ links', Chain.takeOut links ((front ++ e :: behind).map Prod.fst).head? ((front ++ e :: behind).map Prod.fst).getLast?
        ⟨e.2,(behind.map Prod.fst).head?,(front.map Prod.fst).getLast?⟩ =
          some (links',((front ++ behind).map Prod.fst).head?,((front ++ behind).map Prod.fst).getLast?) ∧
      links'.length = links.length ∧ Linked links' none ((front ++ behind).map Prod.fst) ((front ++ behind).map Prod.snd) := by
  obtain ⟨-,taken⟩ := chain.without
  have within (p : Nat) (member : p ∈ front.map Prod.fst ∨ p ∈ behind.map Prod.fst) : p < links.length := by
    refine chain.lt ?_
    rw [List.map_append,List.map_cons]
    rcases member with first | later
    · exact List.mem_append_left _ first
    · exact List.mem_append_right _ (List.mem_cons_of_mem _ later)
  rcases List.eq_nil_or_concat' front with rfl | ⟨front,p,rfl⟩
  · cases behind with
    | nil => exact ⟨links,rfl,rfl,taken _ (joins_none rfl rfl)⟩
    | cons q behind =>
      obtain ⟨links',set,length,joins⟩ := joins_behind ⟨e.2,some q.1,none⟩ rfl rfl (within q.1 (.inr List.mem_cons_self))
      refine ⟨links',?_,length,taken _ joins⟩
      simp only [Chain.takeOut,List.map_nil,List.getLast?_nil,List.map_cons,List.head?_cons,set,Option.bind_eq_bind,Option.bind_some,
        List.nil_append,List.getLast?_cons,Option.getD_some]
  · have isPrevious : ((front ++ [p]).map Prod.fst).getLast? = some p.1 := by rw [List.map_append,List.getLast?_append]; rfl
    have inFront : p.1 ∈ (front ++ [p]).map Prod.fst := List.mem_of_getLast? isPrevious
    have isHead (rest : List (Nat × α)) : ((front ++ [p] ++ rest).map Prod.fst).head? = ((front ++ [p]).map Prod.fst).head? := by
      rw [List.map_append,List.head?_append,List.map_append]
      cases front <;> rfl
    rw [isHead,isHead]
    cases behind with
    | nil =>
      obtain ⟨links',set,length,joins⟩ := joins_front ⟨e.2,none,some p.1⟩ rfl rfl (within p.1 (.inl inFront))
      rw [isPrevious] at taken ⊢
      refine ⟨links',?_,length,taken _ joins⟩
      simp only [Chain.takeOut,List.map_nil,List.head?_nil] at set ⊢
      simp only [set,Option.bind_eq_bind,Option.bind_some,List.append_nil,isPrevious]
    | cons q behind =>
      obtain ⟨links₁,links₂,set₁,set₂,length,joins⟩ := joins_both ⟨e.2,some q.1,some p.1⟩ rfl rfl
        (within p.1 (.inl inFront)) (within q.1 (.inr List.mem_cons_self))
      rw [isPrevious] at taken ⊢
      refine ⟨links₂,?_,length,taken _ joins⟩
      simp only [Chain.takeOut,List.map_cons,List.head?_cons] at set₁ set₂ ⊢
      simp only [set₁,set₂,Option.bind_eq_bind,Option.bind_some,List.map_append,List.map_cons,List.getLast?_append,List.getLast?_cons,
        Option.some_or]
      rfl

end
end AnotherC.Lib.Chain
