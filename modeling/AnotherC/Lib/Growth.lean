import Mathlib.Logic.Relation
import AnotherC.Lib.Walks

/-!
Forests whose nodes have links to the next and to the previous sibling, to the first child
and to the parent, as a scanner builds them: a node comes behind the tail or below it, and
the tail may go back up. Such steps build a forest (`Linked.forest`). A step that puts a
node in the place of another and makes it its parent, but not the parent of the siblings
that follow, leaves none, whatever steps follow (`Torn.not_forest`).
-/
namespace AnotherC.Lib.Growth
open AnotherC.Lib.Walks
open Relation (ReflTransGen)
set_option linter.unusedVariables false

structure Links where
  next : Option Nat
  prev : Option Nat
  child : Option Nat
  parent : Option Nat

inductive Down
  | next | child

inductive Up
  | prev | parent

def Links.down (links : Links) : Down → Option Nat
  | .next => links.next
  | .child => links.child

def Links.up (links : Links) : Up → Option Nat
  | .prev => links.prev
  | .parent => links.parent

/-- The nodes from `fresh` on are not in use. -/
structure State where
  links : Nat → Links
  fresh : Nat
  head : Option Nat
  tail : Option Nat

namespace State

def down (s : State) (a : Nat) : Down → Option Nat := (s.links a).down
def up (s : State) (a : Nat) : Up → Option Nat := (s.links a).up

/-- One kind of link on its own. -/
def parents (s : State) (a : Nat) (_ : Unit) : Option Nat := (s.links a).parent
def befores (s : State) (a : Nat) (_ : Unit) : Option Nat := (s.links a).prev

/-! ## Steps -/

/-- The tail goes up to its parent. -/
def climb (s : State) (p : Nat) : State := { s with tail := some p }

def addFirst (s : State) : State where
  links x := if x = s.fresh then ⟨none,none,none,none⟩ else s.links x
  fresh := s.fresh + 1
  head := some s.fresh
  tail := some s.fresh

def addChild (s : State) (a : Nat) : State where
  links x :=
    if x = s.fresh then ⟨none,none,none,some a⟩
    else if x = a then { s.links x with child := some s.fresh } else s.links x
  fresh := s.fresh + 1
  head := s.head
  tail := some s.fresh

def addSibling (s : State) (a : Nat) : State where
  links x :=
    if x = s.fresh then ⟨none,some a,none,(s.links a).parent⟩
    else if x = a then { s.links x with next := some s.fresh } else s.links x
  fresh := s.fresh + 1
  head := s.head
  tail := some s.fresh

/-- A new node takes the place of `a` behind the sibling before it, and becomes the parent
    of `a` alone. -/
def wrap (s : State) (a : Nat) : State where
  links x :=
    if x = s.fresh then ⟨none,(s.links a).prev,some a,(s.links a).parent⟩
    else if x = a then { s.links x with prev := none, parent := some s.fresh }
    else if (s.links a).prev = some x then { s.links x with next := some s.fresh } else s.links x
  fresh := s.fresh + 1
  head := s.head
  tail := some s.fresh

end State

open State

/-- The steps that build a forest. -/
inductive Step : State → State → Prop
  | climb {s : State} {a p : Nat} (tail : s.tail = some a) (parent : (s.links a).parent = some p) : Step s (s.climb p)
  | addFirst {s : State} (head : s.head = none) (tail : s.tail = none) : Step s s.addFirst
  | addChild {s : State} {a : Nat} (tail : s.tail = some a) (leaf : (s.links a).child = none) : Step s (s.addChild a)
  | addSibling {s : State} {a : Nat} (tail : s.tail = some a) : Step s (s.addSibling a)

/-- The step that does not: `a` is a sibling before the tail, and `b` the one behind it. -/
inductive Wraps : State → State → Prop
  | wrap {s : State} {tail a b : Nat} (at_ : s.tail = some tail) (before : Reaches s.befores tail b)
      (prev : (s.links b).prev = some a) : Wraps s (s.wrap a)

/-! ## Around the tail -/

/-- The nodes that the links back lead to from the tail: no step writes another one. -/
def Near (s : State) (a : Nat) : Prop := ∃ tail, s.tail = some tail ∧ Reaches s.up tail a

/-- The tail, its parent, and so on. -/
def Above (s : State) (a : Nat) : Prop := ∃ tail, s.tail = some tail ∧ Reaches s.parents tail a

/-- What holds in every state. -/
structure Spine (s : State) : Prop where
  inside : ∀ a l b, a < s.fresh → s.down a l = some b → b < s.fresh
  head : ∀ a, s.head = some a → a < s.fresh
  both : s.head = none ↔ s.tail = none
  near : ∀ a, Near s a → a < s.fresh
  parent : ∀ a p, Near s a → (s.links a).parent = some p → p < a
  prev : ∀ a q, Near s a → (s.links a).prev = some q → q < a ∧ (s.links q).next = some a ∧ (s.links q).parent = (s.links a).parent
  last : ∀ a, Above s a → (s.links a).next = none

section
variable {s s' : State} {a b p : Nat}

theorem Near.tail (tail : s.tail = some a) : Near s a := ⟨a,tail,Reaches.refl⟩

theorem Above.tail (tail : s.tail = some a) : Above s a := ⟨a,tail,Reaches.refl⟩

theorem Near.parent (near : Near s a) (parent : (s.links a).parent = some p) : Near s p := by
  obtain ⟨tail,at_,reached⟩ := near
  exact ⟨tail,at_,reached.edge (l := .parent) parent⟩

theorem Near.prev (near : Near s a) (prev : (s.links a).prev = some b) : Near s b := by
  obtain ⟨tail,at_,reached⟩ := near
  exact ⟨tail,at_,reached.edge (l := .prev) prev⟩

theorem Above.parent (above : Above s a) (parent : (s.links a).parent = some p) : Above s p := by
  obtain ⟨tail,at_,reached⟩ := above
  exact ⟨tail,at_,reached.edge (l := ()) parent⟩

theorem Above.near (above : Above s a) : Near s a := by
  obtain ⟨tail,at_,reached⟩ := above
  refine reached.all (Near.tail at_) ?_
  intro b _ c _ near parent
  exact near.parent parent

/-- What holds at the tail and goes over the links back holds of all that is near. -/
theorem Near.all {q : Nat → Prop} (start : ∀ a, s.tail = some a → q a)
    (step : ∀ a b, q a → (s.links a).parent = some b ∨ (s.links a).prev = some b → q b) (near : Near s a) : q a := by
  obtain ⟨tail,at_,reached⟩ := near
  refine reached.all (start tail at_) ?_
  intro b l c _ holds edge
  cases l with
  | prev => exact step b c holds (.inr edge)
  | parent => exact step b c holds (.inl edge)

theorem Above.all {q : Nat → Prop} (start : ∀ a, s.tail = some a → q a)
    (step : ∀ a b, q a → (s.links a).parent = some b → q b) (above : Above s a) : q a := by
  obtain ⟨tail,at_,reached⟩ := above
  refine reached.all (start tail at_) ?_
  intro b _ c _ holds edge
  exact step b c holds edge

end

/-! ## What a step writes -/

section
variable {s : State} {a x : Nat}

@[simp] theorem addChild_fresh : (s.addChild a).links s.fresh = ⟨none,none,none,some a⟩ := if_pos rfl

@[simp] theorem addSibling_fresh : (s.addSibling a).links s.fresh = ⟨none,some a,none,(s.links a).parent⟩ := if_pos rfl

@[simp] theorem wrap_fresh : (s.wrap a).links s.fresh = ⟨none,(s.links a).prev,some a,(s.links a).parent⟩ := if_pos rfl

theorem addChild_here (old : a < s.fresh) : (s.addChild a).links a = { s.links a with child := some s.fresh } :=
  (if_neg (Nat.ne_of_lt old)).trans (if_pos rfl)

theorem addChild_other (old : x < s.fresh) (other : x ≠ a) : (s.addChild a).links x = s.links x :=
  (if_neg (Nat.ne_of_lt old)).trans (if_neg other)

theorem addSibling_here (old : a < s.fresh) : (s.addSibling a).links a = { s.links a with next := some s.fresh } :=
  (if_neg (Nat.ne_of_lt old)).trans (if_pos rfl)

theorem addSibling_other (old : x < s.fresh) (other : x ≠ a) : (s.addSibling a).links x = s.links x :=
  (if_neg (Nat.ne_of_lt old)).trans (if_neg other)

/-- Only the child of `a` changes. -/
theorem addChild_keeps (old : x < s.fresh) : ((s.addChild a).links x).next = (s.links x).next ∧
    ((s.addChild a).links x).prev = (s.links x).prev ∧ ((s.addChild a).links x).parent = (s.links x).parent := by
  by_cases same : x = a
  · subst same
    rw [addChild_here old]
    exact ⟨rfl,rfl,rfl⟩
  · rw [addChild_other old same]
    exact ⟨rfl,rfl,rfl⟩

theorem addSibling_keeps (old : x < s.fresh) : ((s.addSibling a).links x).child = (s.links x).child ∧
    ((s.addSibling a).links x).prev = (s.links x).prev ∧ ((s.addSibling a).links x).parent = (s.links x).parent := by
  by_cases same : x = a
  · subst same
    rw [addSibling_here old]
    exact ⟨rfl,rfl,rfl⟩
  · rw [addSibling_other old same]
    exact ⟨rfl,rfl,rfl⟩

theorem wrap_here (old : a < s.fresh) :
    (s.wrap a).links a = { s.links a with prev := none, parent := some s.fresh } :=
  (if_neg (Nat.ne_of_lt old)).trans (if_pos rfl)

theorem wrap_before (old : x < s.fresh) (other : x ≠ a) (prev : (s.links a).prev = some x) :
    (s.wrap a).links x = { s.links x with next := some s.fresh } :=
  (if_neg (Nat.ne_of_lt old)).trans ((if_neg other).trans (if_pos prev))

theorem wrap_other (old : x < s.fresh) (other : x ≠ a) (prev : (s.links a).prev ≠ some x) :
    (s.wrap a).links x = s.links x :=
  (if_neg (Nat.ne_of_lt old)).trans ((if_neg other).trans (if_neg prev))

theorem wrap_keeps (old : x < s.fresh) (other : x ≠ a) : ((s.wrap a).links x).child = (s.links x).child ∧
    ((s.wrap a).links x).prev = (s.links x).prev ∧ ((s.wrap a).links x).parent = (s.links x).parent := by
  by_cases prev : (s.links a).prev = some x
  · rw [wrap_before old other prev]
    exact ⟨rfl,rfl,rfl⟩
  · rw [wrap_other old other prev]
    exact ⟨rfl,rfl,rfl⟩

end

/-! ## What is near after a step -/

section
variable {s : State} {a b p x : Nat}

theorem near_climb (tail : s.tail = some a) (parent : (s.links a).parent = some p) (near : Near (s.climb p) x) : Near s x := by
  refine near.all (q := Near s) ?_ ?_
  · rintro b ⟨⟩
    exact (Near.tail tail).parent parent
  · intro b c near edge
    rcases edge with edge | edge
    · exact near.parent edge
    · exact near.prev edge

theorem above_climb (tail : s.tail = some a) (parent : (s.links a).parent = some p) (above : Above (s.climb p) x) : Above s x := by
  refine above.all (q := Above s) ?_ ?_
  · rintro b ⟨⟩
    exact (Above.tail tail).parent parent
  · intro b c above edge
    exact above.parent edge

theorem near_addChild (spine : Spine s) (tail : s.tail = some a) (near : Near (s.addChild a) x) : x = s.fresh ∨ Near s x := by
  refine near.all (q := fun x => x = s.fresh ∨ Near s x) ?_ ?_
  · rintro b ⟨⟩
    exact .inl rfl
  · intro b c here edge
    rcases here with rfl | here
    · simp only [addChild_fresh,reduceCtorEq,or_false,Option.some.injEq] at edge
      exact .inr (edge ▸ Near.tail tail)
    · obtain ⟨-,prev,parent⟩ := addChild_keeps (a := a) (spine.near b here)
      rw [prev,parent] at edge
      rcases edge with edge | edge
      · exact .inr (here.parent edge)
      · exact .inr (here.prev edge)

theorem above_addChild (spine : Spine s) (tail : s.tail = some a) (above : Above (s.addChild a) x) : x = s.fresh ∨ Above s x := by
  refine above.all (q := fun x => x = s.fresh ∨ Above s x) ?_ ?_
  · rintro b ⟨⟩
    exact .inl rfl
  · intro b c here edge
    rcases here with rfl | here
    · simp only [addChild_fresh,Option.some.injEq] at edge
      exact .inr (edge ▸ Above.tail tail)
    · rw [(addChild_keeps (spine.near b here.near)).2.2] at edge
      exact .inr (here.parent edge)

theorem near_addSibling (spine : Spine s) (tail : s.tail = some a) (near : Near (s.addSibling a) x) : x = s.fresh ∨ Near s x := by
  refine near.all (q := fun x => x = s.fresh ∨ Near s x) ?_ ?_
  · rintro b ⟨⟩
    exact .inl rfl
  · intro b c here edge
    rcases here with rfl | here
    · simp only [addSibling_fresh,Option.some.injEq] at edge
      rcases edge with edge | rfl
      · exact .inr ((Near.tail tail).parent edge)
      · exact .inr (Near.tail tail)
    · obtain ⟨-,prev,parent⟩ := addSibling_keeps (a := a) (spine.near b here)
      rw [prev,parent] at edge
      rcases edge with edge | edge
      · exact .inr (here.parent edge)
      · exact .inr (here.prev edge)

/-- The old tail is not above the new one. -/
theorem above_addSibling (spine : Spine s) (tail : s.tail = some a) (above : Above (s.addSibling a) x) :
    x = s.fresh ∨ (Above s x ∧ x < a) := by
  have start : Above s a := Above.tail tail
  refine above.all (q := fun x => x = s.fresh ∨ (Above s x ∧ x < a)) ?_ ?_
  · rintro b ⟨⟩
    exact .inl rfl
  · intro b c here edge
    rcases here with rfl | ⟨here,below⟩
    · simp only [addSibling_fresh] at edge
      exact .inr ⟨start.parent edge,spine.parent a c start.near edge⟩
    · rw [(addSibling_keeps (spine.near b here.near)).2.2] at edge
      exact .inr ⟨here.parent edge,Nat.lt_trans (spine.parent b c here.near edge) below⟩

theorem near_wrap (spine : Spine s) (at_ : Near s a) (near : Near (s.wrap a) x) : x = s.fresh ∨ (Near s x ∧ x < a) := by
  refine near.all (q := fun x => x = s.fresh ∨ (Near s x ∧ x < a)) ?_ ?_
  · rintro b ⟨⟩
    exact .inl rfl
  · intro b c here edge
    rcases here with rfl | ⟨here,below⟩
    · simp only [wrap_fresh] at edge
      rcases edge with edge | edge
      · exact .inr ⟨at_.parent edge,spine.parent a c at_ edge⟩
      · exact .inr ⟨at_.prev edge,(spine.prev a c at_ edge).1⟩
    · obtain ⟨-,prev,parent⟩ := wrap_keeps (spine.near b here) (Nat.ne_of_lt below)
      rw [prev,parent] at edge
      rcases edge with edge | edge
      · exact .inr ⟨here.parent edge,Nat.lt_trans (spine.parent b c here edge) below⟩
      · exact .inr ⟨here.prev edge,Nat.lt_trans (spine.prev b c here edge).1 below⟩

/-- A sibling before the tail is near, and has the parent of the tail. -/
theorem before_tail (spine : Spine s) (tail : s.tail = some a) (before : Reaches s.befores a b) :
    Near s b ∧ (s.links b).parent = (s.links a).parent := by
  refine before.all (p := fun b => Near s b ∧ (s.links b).parent = (s.links a).parent) ⟨Near.tail tail,rfl⟩ ?_
  rintro c _ d - ⟨near,parent⟩ edge
  exact ⟨near.prev edge,(spine.prev c d near edge).2.2.trans parent⟩

theorem above_wrap {tail : Nat} (spine : Spine s) (at_ : s.tail = some tail) (before : Reaches s.befores tail a)
    (above : Above (s.wrap a) x) : x = s.fresh ∨ (Above s x ∧ x < a) := by
  obtain ⟨near,same⟩ := before_tail spine at_ before
  refine above.all (q := fun x => x = s.fresh ∨ (Above s x ∧ x < a)) ?_ ?_
  · rintro b ⟨⟩
    exact .inl rfl
  · intro b c here edge
    rcases here with rfl | ⟨here,below⟩
    · simp only [wrap_fresh] at edge
      exact .inr ⟨(Above.tail at_).parent (same ▸ edge),spine.parent a c near edge⟩
    · rw [(wrap_keeps (spine.near b here.near) (Nat.ne_of_lt below)).2.2] at edge
      exact .inr ⟨here.parent edge,Nat.lt_trans (spine.parent b c here.near edge) below⟩

end

/-! ## What every step keeps -/

section
variable {s s' : State} {a p : Nat}

/-- A new node has no links down but to old ones, and of the links of the old nodes only those
    to the new node are new. -/
theorem inside_grown (inside : ∀ x l y, x < s.fresh → s.down x l = some y → y < s.fresh) (size : s'.fresh = s.fresh + 1)
    (fresh : ∀ l y, s'.down s.fresh l = some y → y < s.fresh)
    (old : ∀ x l y, x < s.fresh → s'.down x l = some y → s.down x l = some y ∨ y = s.fresh) :
    ∀ x l y, x < s'.fresh → s'.down x l = some y → y < s'.fresh := by
  intro x l y below edge
  rw [size] at below ⊢
  rcases Nat.lt_succ_iff_lt_or_eq.mp below with below | rfl
  · rcases old x l y below edge with edge | rfl
    · have := inside x l y below edge
      omega
    · omega
  · have := fresh l y edge
    omega

theorem down_addChild {x y : Nat} {l : Down} (below : x < s.fresh) (edge : (s.addChild a).down x l = some y) :
    s.down x l = some y ∨ y = s.fresh := by
  by_cases same : x = a
  · subst same
    rw [State.down,addChild_here below] at edge
    cases l with
    | next => exact .inl edge
    | child =>
      cases edge
      exact .inr rfl
  · rw [State.down,addChild_other below same] at edge
    exact .inl edge

theorem down_addSibling {x y : Nat} {l : Down} (below : x < s.fresh) (edge : (s.addSibling a).down x l = some y) :
    s.down x l = some y ∨ y = s.fresh := by
  by_cases same : x = a
  · subst same
    rw [State.down,addSibling_here below] at edge
    cases l with
    | next =>
      cases edge
      exact .inr rfl
    | child => exact .inl edge
  · rw [State.down,addSibling_other below same] at edge
    exact .inl edge

theorem down_wrap {x y : Nat} {l : Down} (below : x < s.fresh) (edge : (s.wrap a).down x l = some y) :
    s.down x l = some y ∨ y = s.fresh := by
  by_cases same : x = a
  · subst same
    rw [State.down,wrap_here below] at edge
    cases l with
    | next => exact .inl edge
    | child => exact .inl edge
  · by_cases prev : (s.links a).prev = some x
    · rw [State.down,wrap_before below same prev] at edge
      cases l with
      | next =>
        cases edge
        exact .inr rfl
      | child => exact .inl edge
    · rw [State.down,wrap_other below same prev] at edge
      exact .inl edge

theorem spine_climb (spine : Spine s) (tail : s.tail = some a) (parent : (s.links a).parent = some p) : Spine (s.climb p) where
  inside := spine.inside
  head := spine.head
  both := by
    refine ⟨fun empty => ?_,nofun⟩
    rw [spine.both.mp empty] at tail
    cases tail
  near x near := spine.near x (near_climb tail parent near)
  parent x q near := spine.parent x q (near_climb tail parent near)
  prev x q near := spine.prev x q (near_climb tail parent near)
  last x above := spine.last x (above_climb tail parent above)

theorem spine_addFirst (spine : Spine s) (head : s.head = none) : Spine s.addFirst := by
  have fresh : s.addFirst.links s.fresh = ⟨none,none,none,none⟩ := if_pos rfl
  have only : ∀ x, Near s.addFirst x → x = s.fresh := by
    intro x near
    refine near.all (q := fun x => x = s.fresh) ?_ ?_
    · rintro b ⟨⟩
      rfl
    · rintro b c rfl edge
      simp only [fresh,reduceCtorEq,or_false] at edge
  refine ⟨inside_grown spine.inside rfl ?_ ?_,?_,⟨nofun,nofun⟩,?_,?_,?_,?_⟩
  · intro l y edge
    rw [State.down,fresh] at edge
    cases l <;> cases edge
  · intro x l y below edge
    have same : s.addFirst.links x = s.links x := if_neg (Nat.ne_of_lt below)
    rw [State.down,same] at edge
    exact .inl edge
  · rintro x ⟨⟩
    exact Nat.lt_succ_self _
  · intro x near
    rw [only x near]
    exact Nat.lt_succ_self _
  · intro x q near edge
    rw [only x near,fresh] at edge
    cases edge
  · intro x q near edge
    rw [only x near,fresh] at edge
    cases edge
  · intro x above
    rw [only x above.near,fresh]

theorem both_kept (spine : Spine s) (tail : s.tail = some a) (head : s'.head = s.head) (some_ : s'.tail = some p) :
    s'.head = none ↔ s'.tail = none := by
  rw [head,some_,spine.both,tail]
  exact ⟨nofun,nofun⟩

theorem spine_addChild (spine : Spine s) (tail : s.tail = some a) : Spine (s.addChild a) := by
  refine ⟨inside_grown spine.inside rfl ?_ fun x l y => down_addChild,?_,both_kept spine tail rfl rfl,?_,?_,?_,?_⟩
  · intro l y edge
    rw [State.down,addChild_fresh] at edge
    cases l <;> cases edge
  · intro x head
    exact Nat.lt_succ_of_lt (spine.head x head)
  · intro x near
    rcases near_addChild spine tail near with rfl | near
    · exact Nat.lt_succ_self _
    · exact Nat.lt_succ_of_lt (spine.near x near)
  · intro x q near edge
    rcases near_addChild spine tail near with rfl | near
    · rw [addChild_fresh] at edge
      cases edge
      exact spine.near _ (Near.tail tail)
    · rw [(addChild_keeps (spine.near x near)).2.2] at edge
      exact spine.parent x q near edge
  · intro x q near edge
    rcases near_addChild spine tail near with rfl | near
    · rw [addChild_fresh] at edge
      cases edge
    · obtain ⟨-,prev,parent⟩ := addChild_keeps (a := a) (spine.near x near)
      rw [prev] at edge
      obtain ⟨below,next,same⟩ := spine.prev x q near edge
      obtain ⟨next',-,parent'⟩ := addChild_keeps (a := a) (spine.near q (near.prev edge))
      exact ⟨below,next'.trans next,(parent'.trans same).trans parent.symm⟩
  · intro x above
    rcases above_addChild spine tail above with rfl | above
    · rw [addChild_fresh]
    · rw [(addChild_keeps (spine.near x above.near)).1]
      exact spine.last x above

theorem spine_addSibling (spine : Spine s) (tail : s.tail = some a) : Spine (s.addSibling a) := by
  have start : Near s a := Near.tail tail
  have none_ : (s.links a).next = none := spine.last a (Above.tail tail)
  refine ⟨inside_grown spine.inside rfl ?_ fun x l y => down_addSibling,?_,both_kept spine tail rfl rfl,?_,?_,?_,?_⟩
  · intro l y edge
    rw [State.down,addSibling_fresh] at edge
    cases l <;> cases edge
  · intro x head
    exact Nat.lt_succ_of_lt (spine.head x head)
  · intro x near
    rcases near_addSibling spine tail near with rfl | near
    · exact Nat.lt_succ_self _
    · exact Nat.lt_succ_of_lt (spine.near x near)
  · intro x q near edge
    rcases near_addSibling spine tail near with rfl | near
    · rw [addSibling_fresh] at edge
      exact Nat.lt_trans (spine.parent a q start edge) (spine.near a start)
    · rw [(addSibling_keeps (spine.near x near)).2.2] at edge
      exact spine.parent x q near edge
  · intro x q near edge
    rcases near_addSibling spine tail near with rfl | near
    · rw [addSibling_fresh] at edge ⊢
      cases edge
      rw [addSibling_here (spine.near a start)]
      exact ⟨spine.near a start,rfl,rfl⟩
    · obtain ⟨-,prev,parent⟩ := addSibling_keeps (a := a) (spine.near x near)
      rw [prev] at edge
      obtain ⟨below,next,same⟩ := spine.prev x q near edge
      have other : q ≠ a := by
        rintro rfl
        cases none_.symm.trans next
      rw [addSibling_other (spine.near q (near.prev edge)) other,parent]
      exact ⟨below,next,same⟩
  · intro x above
    rcases above_addSibling spine tail above with rfl | ⟨above,below⟩
    · rw [addSibling_fresh]
    · rw [addSibling_other (spine.near x above.near) (Nat.ne_of_lt below)]
      exact spine.last x above

theorem spine_wrap {tail : Nat} (spine : Spine s) (at_ : s.tail = some tail) (before : Reaches s.befores tail a) :
    Spine (s.wrap a) := by
  obtain ⟨start,same⟩ := before_tail spine at_ before
  have old := spine.near a start
  refine ⟨inside_grown spine.inside rfl ?_ fun x l y => down_wrap,?_,both_kept spine at_ rfl rfl,?_,?_,?_,?_⟩
  · intro l y edge
    rw [State.down,wrap_fresh] at edge
    cases l with
    | next => cases edge
    | child =>
      cases edge
      exact old
  · intro x head
    exact Nat.lt_succ_of_lt (spine.head x head)
  · intro x near
    rcases near_wrap spine start near with rfl | ⟨near,-⟩
    · exact Nat.lt_succ_self _
    · exact Nat.lt_succ_of_lt (spine.near x near)
  · intro x q near edge
    rcases near_wrap spine start near with rfl | ⟨near,below⟩
    · rw [wrap_fresh] at edge
      exact Nat.lt_trans (spine.parent a q start edge) old
    · rw [(wrap_keeps (spine.near x near) (Nat.ne_of_lt below)).2.2] at edge
      exact spine.parent x q near edge
  · intro x q near edge
    rcases near_wrap spine start near with rfl | ⟨near,below⟩
    · rw [wrap_fresh] at edge ⊢
      obtain ⟨lower,-,parents⟩ := spine.prev a q start edge
      rw [wrap_before (Nat.lt_trans lower old) (Nat.ne_of_lt lower) edge]
      exact ⟨Nat.lt_trans lower old,rfl,parents⟩
    · obtain ⟨-,prev,parent⟩ := wrap_keeps (spine.near x near) (Nat.ne_of_lt below)
      rw [prev] at edge
      obtain ⟨lower,next,parents⟩ := spine.prev x q near edge
      have apart : (s.links a).prev ≠ some q := by
        intro edge'
        cases next.symm.trans (spine.prev a q start edge').2.1
        exact Nat.lt_irrefl _ below
      rw [wrap_other (Nat.lt_trans lower (spine.near x near)) (Nat.ne_of_lt (Nat.lt_trans lower below)) apart,parent]
      exact ⟨lower,next,parents⟩
  · intro x above
    rcases above_wrap spine at_ before above with rfl | ⟨above,below⟩
    · rw [wrap_fresh]
    · have last := spine.last x above
      have apart : (s.links a).prev ≠ some x := by
        intro edge
        cases last.symm.trans (spine.prev a x start edge).2.1
      rw [wrap_other (spine.near x above.near) (Nat.ne_of_lt below) apart]
      exact last

theorem spine_step (spine : Spine s) (step : Step s s') : Spine s' := by
  cases step with
  | climb tail parent => exact spine_climb spine tail parent
  | addFirst head tail => exact spine_addFirst spine head
  | addChild tail leaf => exact spine_addChild spine tail
  | addSibling tail => exact spine_addSibling spine tail

theorem spine_steps (spine : Spine s) (steps : ReflTransGen Step s s') : Spine s' := by
  induction steps with
  | refl => exact spine
  | tail _ step ih => exact spine_step ih step

theorem spine_wraps (spine : Spine s) (wraps : Wraps s s') : Spine s' := by
  cases wraps with
  | wrap at_ before prev => exact spine_wrap spine at_ (before.edge (l := ()) prev)

theorem spine_empty (links : Nat → Links) : Spine ⟨links,0,none,none⟩ where
  inside a l b below := nomatch below
  head := nofun
  both := ⟨fun _ => rfl,fun _ => rfl⟩
  near := by
    rintro a ⟨tail,⟨⟩,-⟩
  parent := by
    rintro a p ⟨tail,⟨⟩,-⟩
  prev := by
    rintro a q ⟨tail,⟨⟩,-⟩
  last := by
    rintro a ⟨tail,⟨⟩,-⟩

end

/-! ## What the steps build -/

/-- What the nodes that are reached from `root` make: the links back are right, siblings
    have one parent, and each node is reached in one way. -/
structure Forest (s : State) (root : Nat) : Prop where
  next : ∀ a b, Reaches s.down root a → (s.links a).next = some b → (s.links b).prev = some a
  siblings : ∀ a b, Reaches s.down root a → (s.links a).next = some b → (s.links b).parent = (s.links a).parent
  child : ∀ a b, Reaches s.down root a → (s.links a).child = some b → (s.links b).parent = some a
  once : ∀ a xs ys, walk s.down root xs = some a → walk s.down root ys = some a → xs = ys

/-- Where a node with such links back is met from. -/
def origin (links : Links) : Option (Nat × Down) :=
  match links.prev, links.parent with
  | some q, _ => some (q,.next)
  | none, some p => some (p,.child)
  | none, none => none

structure Linked (s : State) : Prop where
  root : ∀ a, s.head = some a → origin (s.links a) = none
  next : ∀ a b, a < s.fresh → (s.links a).next = some b → (s.links b).prev = some a ∧ (s.links b).parent = (s.links a).parent
  child : ∀ a b, a < s.fresh → (s.links a).child = some b → (s.links b).prev = none ∧ (s.links b).parent = some a
  met : ∀ a, a < s.fresh → ∃ root, s.head = some root ∧ Reaches s.down root a

section
variable {s s' : State} {a b p root : Nat}

theorem reached_below (spine : Spine s) (head : s.head = some root) (reached : Reaches s.down root a) : a < s.fresh := by
  refine reached.all (p := fun a => a < s.fresh) (spine.head root head) ?_
  intro b l c _ below edge
  exact spine.inside b l c below edge

theorem Linked.forest (spine : Spine s) (linked : Linked s) (head : s.head = some root) : Forest s root where
  next a b reached edge := (linked.next a b (reached_below spine head reached) edge).1
  siblings a b reached edge := (linked.next a b (reached_below spine head reached) edge).2
  child a b reached edge := (linked.child a b (reached_below spine head reached) edge).2
  once a xs ys first second := by
    refine walk_unique (fun b => origin (s.links b)) (linked.root root head) ?_ first second
    intro b l c reached edge
    have below := reached_below spine head reached
    cases l with
    | next => rw [origin,(linked.next b c below edge).1]
    | child =>
      obtain ⟨prev,parent⟩ := linked.child b c below edge
      rw [origin,prev,parent]

/-- What is reached stays so where every old link down is a walk. -/
theorem reaches_kept (spine : Spine s) (edges : ∀ x l y, x < s.fresh → s.down x l = some y → Reaches s'.down x y)
    (head : s.head = some root) (reached : Reaches s.down root a) : Reaches s'.down root a := by
  refine reached.mono ?_
  intro x l y here edge
  exact edges x l y (reached_below spine head here) edge

theorem edge_reaches {x y : Nat} {l : Down} (edge : s.down x l = some y) : Reaches s.down x y := Reaches.refl.edge edge

theorem edges_addChild (leaf : (s.links a).child = none) (x : Nat) (l : Down) (y : Nat) (below : x < s.fresh)
    (edge : s.down x l = some y) : Reaches (s.addChild a).down x y := by
  refine edge_reaches (l := l) ?_
  by_cases same : x = a
  · subst same
    rw [State.down,addChild_here below]
    cases l with
    | next => exact edge
    | child => cases leaf.symm.trans edge
  · rw [State.down,addChild_other below same]
    exact edge

theorem edges_addSibling (last : (s.links a).next = none) (x : Nat) (l : Down) (y : Nat) (below : x < s.fresh)
    (edge : s.down x l = some y) : Reaches (s.addSibling a).down x y := by
  refine edge_reaches (l := l) ?_
  by_cases same : x = a
  · subst same
    rw [State.down,addSibling_here below]
    cases l with
    | next => cases last.symm.trans edge
    | child => exact edge
  · rw [State.down,addSibling_other below same]
    exact edge

/-- From the sibling before, `a` is still reached over the new node. -/
theorem edges_wrap (spine : Spine s) (start : Near s a) (x : Nat) (l : Down) (y : Nat) (below : x < s.fresh)
    (edge : s.down x l = some y) : Reaches (s.wrap a).down x y := by
  by_cases same : x = a
  · subst same
    refine edge_reaches (l := l) ?_
    rw [State.down,wrap_here below]
    cases l with
    | next => exact edge
    | child => exact edge
  · by_cases prev : (s.links a).prev = some x
    · have here := wrap_before below same prev
      cases l with
      | next =>
        cases (spine.prev a x start prev).2.1.symm.trans edge
        have first : (s.wrap a).down x .next = some s.fresh := by
          rw [State.down,here]
          rfl
        have second : (s.wrap a).down s.fresh .child = some a := by
          rw [State.down,wrap_fresh]
          rfl
        exact (edge_reaches first).edge second
      | child =>
        refine edge_reaches (l := .child) ?_
        rw [State.down,here]
        exact edge
    · refine edge_reaches (l := l) ?_
      rw [State.down,wrap_other below same prev]
      exact edge

theorem linked_first (linked : Linked s) (head : s.head = none) : Linked s.addFirst := by
  have fresh : s.addFirst.links s.fresh = ⟨none,none,none,none⟩ := if_pos rfl
  have empty : ∀ x, ¬ x < s.fresh := by
    intro x below
    obtain ⟨root,some_,-⟩ := linked.met x below
    rw [head] at some_
    cases some_
  have only : ∀ x, x < s.addFirst.fresh → x = s.fresh := by
    intro x below
    exact (Nat.lt_succ_iff_lt_or_eq.mp below).resolve_left (empty x)
  refine ⟨?_,?_,?_,?_⟩
  · rintro x ⟨⟩
    rw [fresh]
    rfl
  · intro x y below edge
    rw [only x below,fresh] at edge
    cases edge
  · intro x y below edge
    rw [only x below,fresh] at edge
    cases edge
  · intro x below
    rw [only x below]
    exact ⟨s.fresh,rfl,Reaches.refl⟩

theorem linked_addChild (spine : Spine s) (linked : Linked s) (tail : s.tail = some a) (leaf : (s.links a).child = none) :
    Linked (s.addChild a) := by
  have old : a < s.fresh := spine.near a (Near.tail tail)
  refine ⟨?_,?_,?_,?_⟩
  · intro x head
    obtain ⟨-,prev,parent⟩ := addChild_keeps (a := a) (spine.head x head)
    rw [origin,prev,parent]
    exact linked.root x head
  · intro x y below edge
    rcases Nat.lt_succ_iff_lt_or_eq.mp below with below | rfl
    · obtain ⟨next,-,parent⟩ := addChild_keeps (a := a) below
      rw [next] at edge
      obtain ⟨-,prev',parent'⟩ := addChild_keeps (a := a) (spine.inside x .next y below edge)
      rw [prev',parent',parent]
      exact linked.next x y below edge
    · rw [addChild_fresh] at edge
      cases edge
  · intro x y below edge
    rcases Nat.lt_succ_iff_lt_or_eq.mp below with below | rfl
    · by_cases same : x = a
      · subst same
        rw [addChild_here old] at edge
        cases edge
        rw [addChild_fresh]
        exact ⟨rfl,rfl⟩
      · rw [addChild_other below same] at edge
        obtain ⟨-,prev',parent'⟩ := addChild_keeps (a := a) (spine.inside x .child y below edge)
        rw [prev',parent']
        exact linked.child x y below edge
    · rw [addChild_fresh] at edge
      cases edge
  · intro x below
    rcases Nat.lt_succ_iff_lt_or_eq.mp below with below | rfl
    · obtain ⟨root,head,reached⟩ := linked.met x below
      exact ⟨root,head,reaches_kept spine (edges_addChild leaf) head reached⟩
    · obtain ⟨root,head,reached⟩ := linked.met a old
      refine ⟨root,head,(reaches_kept spine (edges_addChild leaf) head reached).edge (l := .child) ?_⟩
      rw [State.down,addChild_here old]
      rfl

theorem linked_addSibling (spine : Spine s) (linked : Linked s) (tail : s.tail = some a) : Linked (s.addSibling a) := by
  have old : a < s.fresh := spine.near a (Near.tail tail)
  have last : (s.links a).next = none := spine.last a (Above.tail tail)
  refine ⟨?_,?_,?_,?_⟩
  · intro x head
    obtain ⟨-,prev,parent⟩ := addSibling_keeps (a := a) (spine.head x head)
    rw [origin,prev,parent]
    exact linked.root x head
  · intro x y below edge
    rcases Nat.lt_succ_iff_lt_or_eq.mp below with below | rfl
    · by_cases same : x = a
      · subst same
        rw [addSibling_here old] at edge ⊢
        cases edge
        rw [addSibling_fresh]
        exact ⟨rfl,rfl⟩
      · rw [addSibling_other below same] at edge ⊢
        obtain ⟨-,prev',parent'⟩ := addSibling_keeps (a := a) (spine.inside x .next y below edge)
        rw [prev',parent']
        exact linked.next x y below edge
    · rw [addSibling_fresh] at edge
      cases edge
  · intro x y below edge
    rcases Nat.lt_succ_iff_lt_or_eq.mp below with below | rfl
    · rw [(addSibling_keeps below).1] at edge
      obtain ⟨-,prev',parent'⟩ := addSibling_keeps (a := a) (spine.inside x .child y below edge)
      rw [prev',parent']
      exact linked.child x y below edge
    · rw [addSibling_fresh] at edge
      cases edge
  · intro x below
    rcases Nat.lt_succ_iff_lt_or_eq.mp below with below | rfl
    · obtain ⟨root,head,reached⟩ := linked.met x below
      exact ⟨root,head,reaches_kept spine (edges_addSibling last) head reached⟩
    · obtain ⟨root,head,reached⟩ := linked.met a old
      refine ⟨root,head,(reaches_kept spine (edges_addSibling last) head reached).edge (l := .next) ?_⟩
      rw [State.down,addSibling_here old]
      rfl

theorem linked_step (spine : Spine s) (linked : Linked s) (step : Step s s') : Linked s' := by
  cases step with
  | climb tail parent => exact ⟨linked.root,linked.next,linked.child,linked.met⟩
  | addFirst head tail => exact linked_first linked head
  | addChild tail leaf => exact linked_addChild spine linked tail leaf
  | addSibling tail => exact linked_addSibling spine linked tail

theorem linked_steps (spine : Spine s) (linked : Linked s) (steps : ReflTransGen Step s s') : Linked s' := by
  induction steps with
  | refl => exact linked
  | tail steps step ih => exact linked_step (spine_steps spine steps) ih step

theorem linked_empty (links : Nat → Links) : Linked ⟨links,0,none,none⟩ :=
  ⟨nofun,fun _ _ below => (nomatch below),fun _ _ below => (nomatch below),fun _ below => (nomatch below)⟩

end

/-! ## Torn siblings -/

/-- Two siblings with two parents, out of reach of every step. -/
structure Torn (s : State) : Prop where
  pair : ∃ root a b, s.head = some root ∧ Reaches s.down root a ∧ (s.links a).next = some b ∧
    (s.links b).parent ≠ (s.links a).parent ∧ ¬ Near s a ∧ ¬ Near s b

section
variable {s s' : State}

theorem Torn.not_forest (torn : Torn s) : ∃ root, s.head = some root ∧ ¬ Forest s root := by
  obtain ⟨root,a,b,head,reached,next,apart,-,-⟩ := torn.pair
  exact ⟨root,head,fun forest => apart (forest.siblings a b reached next)⟩

/-- A step that writes only to what is near leaves the pair torn. -/
theorem torn_kept (spine : Spine s) (torn : Torn s) (head : s'.head = s.head)
    (edges : ∀ x l y, x < s.fresh → s.down x l = some y → Reaches s'.down x y)
    (near : ∀ x, Near s' x → x = s.fresh ∨ Near s x)
    (kept : ∀ x, x < s.fresh → ¬ Near s x → (s'.links x).next = (s.links x).next ∧ (s'.links x).parent = (s.links x).parent) :
    Torn s' := by
  obtain ⟨root,a,b,some_,reached,next,apart,far,far'⟩ := torn.pair
  have old : a < s.fresh := reached_below spine some_ reached
  have old' : b < s.fresh := spine.inside a .next b old next
  obtain ⟨next',parent⟩ := kept a old far
  obtain ⟨-,parent'⟩ := kept b old' far'
  refine ⟨root,a,b,head.trans some_,reaches_kept spine edges some_ reached,next'.trans next,?_,?_,?_⟩
  · rw [parent,parent']
    exact apart
  · intro here
    exact (near a here).elim (Nat.ne_of_lt old) far
  · intro here
    exact (near b here).elim (Nat.ne_of_lt old') far'

theorem torn_step (spine : Spine s) (torn : Torn s) (step : Step s s') : Torn s' := by
  cases step with
  | climb tail parent =>
    obtain ⟨root,a,b,head,reached,next,apart,far,far'⟩ := torn.pair
    exact ⟨root,a,b,head,reached,next,apart,fun near => far (near_climb tail parent near),
      fun near => far' (near_climb tail parent near)⟩
  | addFirst head tail =>
    obtain ⟨root,a,b,some_,-⟩ := torn.pair
    rw [head] at some_
    cases some_
  | addChild tail leaf =>
    refine torn_kept spine torn rfl (edges_addChild leaf) (fun x => near_addChild spine tail) ?_
    intro x below _
    exact ⟨(addChild_keeps below).1,(addChild_keeps below).2.2⟩
  | addSibling tail =>
    refine torn_kept spine torn rfl (edges_addSibling (spine.last _ (Above.tail tail))) (fun x => near_addSibling spine tail) ?_
    intro x below far
    have other : x ≠ _ := fun same => far (same ▸ Near.tail tail)
    rw [addSibling_other below other]
    exact ⟨rfl,rfl⟩

theorem torn_steps (spine : Spine s) (torn : Torn s) (steps : ReflTransGen Step s s') : Torn s' := by
  induction steps with
  | refl => exact torn
  | tail steps step ih => exact torn_step (spine_steps spine steps) ih step

theorem torn_wraps (spine : Spine s) (torn : Torn s) (wraps : Wraps s s') : Torn s' := by
  cases wraps with
  | @wrap tail a b at_ before prev =>
    obtain ⟨start,-⟩ := before_tail spine at_ (before.edge (l := ()) prev)
    refine torn_kept spine torn rfl (edges_wrap spine start) (fun x near => (near_wrap spine start near).imp_right And.left) ?_
    intro x below far
    have other : x ≠ a := fun same => far (same ▸ start)
    have apart : (s.links a).prev ≠ some x := fun edge => far (start.prev edge)
    rw [wrap_other below other apart]
    exact ⟨rfl,rfl⟩

/-- The new node is the parent of `a`, and not of `b`. -/
theorem wraps_torn (spine : Spine s) (linked : Linked s) (wraps : Wraps s s') : Torn s' := by
  cases wraps with
  | @wrap tail a b at_ before prev =>
    obtain ⟨near,-⟩ := before_tail spine at_ before
    have start : Near s a := near.prev prev
    obtain ⟨lower,next,same⟩ := spine.prev b a near prev
    have old := spine.near a start
    have old' := spine.near b near
    obtain ⟨root,head,reached⟩ := linked.met a old
    have behind : (s.links a).prev ≠ some b := by
      intro edge
      exact Nat.lt_asymm lower (spine.prev a b start edge).1
    refine ⟨root,a,b,head,reaches_kept spine (edges_wrap spine start) head reached,?_,?_,?_,?_⟩
    · rw [wrap_here old]
      exact next
    · rw [wrap_here old,wrap_other old' (Nat.ne_of_gt lower) behind]
      intro edge
      exact Nat.lt_asymm (spine.parent b s.fresh near edge) old'
    · intro here
      rcases near_wrap spine start here with rfl | ⟨-,below⟩
      · exact Nat.lt_irrefl _ old
      · exact Nat.lt_irrefl _ below
    · intro here
      rcases near_wrap spine start here with rfl | ⟨-,below⟩
      · exact Nat.lt_irrefl _ old'
      · exact Nat.lt_asymm lower below

end

end AnotherC.Lib.Growth
