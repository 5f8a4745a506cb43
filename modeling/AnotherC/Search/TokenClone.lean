import Mathlib.Data.List.Basic
import AnotherC.Search.Token

/-!
# Cloning a token: `ac_token_clone`

A dictionary hands out clones of its tokens, as a query rewrites its own in place.
The clone of a token copies its text, its attributes and the tokens under `attr`
and after it, and sets `child` to null: a clone is the copy of what it is made from
exactly where no token of it has a child.
-/
namespace AnotherC.TokenClone
open AnotherC.Lib.Text (Text)
open AnotherC.Tokens (TokenType)
set_option linter.unusedVariables false

/-- `ac_token_cb_t`. -/
inductive Answer
  | normal | skip | next | global | number
  deriving DecidableEq

/-- `struct ac_token_s`, with the addresses of its text, its attributes and its
    neighbours. -/
structure Token where
  type : TokenType
  token : Nat
  attrType : Answer
  noParams : Bool
  attrs : Option Nat
  numAttrs : Nat
  attr : Option Nat
  next : Option Nat
  prev : Option Nat
  child : Option Nat
  parent : Option Nat
  deriving DecidableEq

/-- What the addresses of a pool stand for: tokens, strings and arrays of strings,
    each array up to the null pointer that ends it. The addresses from `fresh` on
    are free. -/
structure Pool where
  tokens : Nat → Token
  strings : Nat → Text
  arrays : Nat → List Nat
  fresh : Nat

namespace Pool

def set (pool : Pool) (a : Nat) (t : Token) : Pool := { pool with tokens := Function.update pool.tokens a t }

def setAttrs (pool : Pool) (a array num : Nat) : Pool :=
  pool.set a { pool.tokens a with attrs := some array, numAttrs := num }
def setAttr (pool : Pool) (a : Nat) (p : Option Nat) : Pool := pool.set a { pool.tokens a with attr := p }
def setNext (pool : Pool) (a : Nat) (p : Option Nat) : Pool := pool.set a { pool.tokens a with next := p }
def setPrev (pool : Pool) (a : Nat) (p : Option Nat) : Pool := pool.set a { pool.tokens a with prev := p }
def setChild (pool : Pool) (a : Nat) (p : Option Nat) : Pool := pool.set a { pool.tokens a with child := p }

/-- `ac_pool_dup` of a token, with the links the clone starts with; its text is the
    string behind it. -/
def dup (pool : Pool) (t : Nat) (parent : Option Nat) : Pool :=
  { pool with
    tokens := Function.update pool.tokens pool.fresh
      { pool.tokens t with token := pool.fresh + 1, parent := parent, child := none, next := none, prev := none }
    strings := Function.update pool.strings (pool.fresh + 1) (pool.strings (pool.tokens t).token)
    fresh := pool.fresh + 2 }

/-- `ac_pool_calloc` of an array: no entry is set. -/
def calloc (pool : Pool) : Pool :=
  { pool with arrays := Function.update pool.arrays pool.fresh [], fresh := pool.fresh + 1 }

/-- `array[i] = ac_pool_strdup(s)`, where the entries before `i` are set. -/
def strdup (pool : Pool) (array s : Nat) : Pool :=
  { pool with
    strings := Function.update pool.strings pool.fresh (pool.strings s)
    arrays := Function.update pool.arrays array (pool.arrays array ++ [pool.fresh])
    fresh := pool.fresh + 1 }

end Pool

/-! ## `_ac_token_clone` -/

/-- The loop over the attributes. -/
def fill (array : Nat) : Pool → List Nat → Pool
  | pool, [] => pool
  | pool, s :: ss => fill array (pool.strdup array s) ss

/-- The attributes of `t`, for its clone; `none` where `t->attrs` is null. -/
def cloneAttrs (pool : Pool) (t clone : Nat) : Option Pool :=
  if (pool.tokens t).numAttrs = 0 then some pool
  else match (pool.tokens t).attrs with
    | none => none
    | some attrs =>
      let array := pool.fresh
      let filled := fill array pool.calloc ((pool.arrays attrs).take (pool.tokens t).numAttrs)
      some (filled.setAttrs clone array (pool.tokens t).numAttrs)

/-- `parent->child = clone`, where `t` is the first child of its own parent. -/
def hang (pool : Pool) (t clone : Nat) : Option Nat → Pool
  | none => pool
  | some parent =>
    match (pool.tokens t).parent with
    | none => pool
    | some p => if (pool.tokens p).child = some t then pool.setChild parent (some clone) else pool

/-- `_ac_token_clone`. -/
def cloneUnder : Nat → Pool → Nat → Option Nat → Option (Nat × Pool)
  | 0, _, _, _ => none
  | fuel + 1, pool, t, parent => do
    let clone := pool.fresh
    let pool ← cloneAttrs (hang (pool.dup t parent) t clone parent) t clone
    let pool ← match (pool.tokens t).attr with
      | none => some pool
      | some attr => do
        let (copy,pool) ← cloneUnder fuel pool attr none
        some (pool.setAttr clone (some copy))
    match (pool.tokens t).next with
    | none => some (clone,pool)
    | some next => do
      let (copy,pool) ← cloneUnder fuel pool next parent
      some (clone,(pool.setNext clone (some copy)).setPrev copy (some clone))

/-- `ac_token_clone`. -/
def clone (fuel : Nat) (pool : Pool) (t : Nat) : Option (Nat × Pool) := cloneUnder fuel pool t none

/-! ## Trees of tokens -/

/-- What a token says by itself. -/
structure Word where
  type : TokenType
  token : Text
  attrType : Answer
  noParams : Bool
  attrs : List Text
  deriving DecidableEq

/-- A token with the tokens under `attr`, its children and the siblings after it. -/
inductive Tree
  | null
  | token (word : Word) (attr child next : Tree)
  deriving DecidableEq

namespace Tree

def size : Tree → Nat
  | null => 0
  | token word attr child next => attr.size + child.size + next.size + 1

/-- What a clone keeps. -/
def strip : Tree → Tree
  | null => null
  | token word attr child next => token word attr.strip null next.strip

/-- No token has a child, from the first one on through `attr` and `next`. -/
def Childless : Tree → Prop
  | null => True
  | token word attr child next => child = null ∧ attr.Childless ∧ next.Childless

theorem strip_eq_iff {t : Tree} : t.strip = t ↔ t.Childless := by
  induction t with
  | null => simp [strip,Childless]
  | token word attr child next attrFix childFix nextFix =>
    simp only [strip,Childless,token.injEq,true_and,attrFix,nextFix]
    constructor
    · intro same
      exact ⟨same.2.1.symm,same.1,same.2.2⟩
    · intro same
      exact ⟨same.2.1,same.1.symm,same.2.2⟩

end Tree

section
variable (own : Nat → Prop)

/-- The attributes of a token, at addresses of `own`; without attributes, there is
    no array. -/
def SaysAttrs (pool : Pool) (tok : Token) (attrs : List Text) : Prop :=
  tok.numAttrs = attrs.length ∧
    match tok.attrs with
    | none => attrs = []
    | some array => own array ∧ attrs ≠ [] ∧ (∀ s ∈ pool.arrays array, own s) ∧
        (pool.arrays array).map pool.strings = attrs

/-- The token says `word`, with what it points to at addresses of `own`. -/
structure Says (pool : Pool) (tok : Token) (word : Word) : Prop where
  type : tok.type = word.type
  attrType : tok.attrType = word.attrType
  noParams : tok.noParams = word.noParams
  owns : own tok.token
  token : pool.strings tok.token = word.token
  attrs : SaysAttrs own pool tok word.attrs

/-- The tokens from an address on are the tree, all of it at addresses of `own`. -/
def Reads (pool : Pool) : Option Nat → Tree → Prop
  | first, .null => first = none
  | first, .token word attr child next => ∃ a, first = some a ∧ own a ∧ Says own pool (pool.tokens a) word ∧
      Reads pool (pool.tokens a).attr attr ∧ Reads pool (pool.tokens a).child child ∧
      Reads pool (pool.tokens a).next next

end

/-- The parent and the previous sibling of each token of a tree. -/
def Links (pool : Pool) : Option Nat → Tree → Option Nat → Option Nat → Prop
  | _, .null, _, _ => True
  | first, .token word attr child next, parent, prev => ∃ a, first = some a ∧
      (pool.tokens a).parent = parent ∧ (pool.tokens a).prev = prev ∧
      Links pool (pool.tokens a).attr attr none none ∧ Links pool (pool.tokens a).child child (some a) none ∧
      Links pool (pool.tokens a).next next parent (some a)

/-- The addresses given out between two states of a pool. -/
def New (pool after : Pool) (a : Nat) : Prop := pool.fresh ≤ a ∧ a < after.fresh

/-- `copy` is the tree again, with consistent links and at new addresses only, and
    what was in the pool before is as it was. -/
structure Copies (pool after : Pool) (t : Tree) (copy : Nat) : Prop where
  same : Reads (New pool after) after (some copy) t
  links : Links after (some copy) t none none
  tokens : ∀ a < pool.fresh, after.tokens a = pool.tokens a
  strings : ∀ a < pool.fresh, after.strings a = pool.strings a
  arrays : ∀ a < pool.fresh, after.arrays a = pool.arrays a

/-! ## What stays as it is -/

/-- The two states agree at the addresses of `own`. -/
structure Agrees (own : Nat → Prop) (pool after : Pool) : Prop where
  tokens : ∀ a, own a → after.tokens a = pool.tokens a
  strings : ∀ a, own a → after.strings a = pool.strings a
  arrays : ∀ a, own a → after.arrays a = pool.arrays a

section
variable {own wide : Nat → Prop} {pool after : Pool}

theorem Agrees.trans {last : Pool} (first : Agrees own pool after) (second : Agrees own after last) :
    Agrees own pool last := by
  constructor
  · intro a inside
    rw [second.tokens a inside,first.tokens a inside]
  · intro a inside
    rw [second.strings a inside,first.strings a inside]
  · intro a inside
    rw [second.arrays a inside,first.arrays a inside]

theorem Agrees.narrow (agrees : Agrees wide pool after) (sub : ∀ a, own a → wide a) : Agrees own pool after :=
  ⟨fun a inside => agrees.tokens a (sub a inside),fun a inside => agrees.strings a (sub a inside),
    fun a inside => agrees.arrays a (sub a inside)⟩

/-- A token is written outside `own`. -/
theorem Agrees.set {a : Nat} (outside : ¬ own a) (t : Token) : Agrees own pool (pool.set a t) := by
  refine ⟨?_,fun _ _ => rfl,fun _ _ => rfl⟩
  intro b inside
  have other : b ≠ a := by
    intro same
    exact outside (same ▸ inside)
  simp [Pool.set,other]

theorem SaysAttrs.frame {tok : Token} {attrs : List Text} (tells : SaysAttrs own pool tok attrs)
    (agrees : Agrees own pool after) (sub : ∀ a, own a → wide a) : SaysAttrs wide after tok attrs := by
  obtain ⟨num,tells⟩ := tells
  refine ⟨num,?_⟩
  cases held : tok.attrs with
  | none => simpa [held] using tells
  | some array =>
    rw [held] at tells
    obtain ⟨inside,some,owns,texts⟩ := tells
    refine ⟨sub _ inside,some,?_,?_⟩
    · rw [agrees.arrays _ inside]
      exact fun s member => sub _ (owns s member)
    · rw [agrees.arrays _ inside, ← texts]
      apply List.map_congr_left
      intro s member
      exact agrees.strings s (owns s member)

theorem Says.frame {tok : Token} {word : Word} (tells : Says own pool tok word)
    (agrees : Agrees own pool after) (sub : ∀ a, own a → wide a) : Says wide after tok word where
  type := tells.type
  attrType := tells.attrType
  noParams := tells.noParams
  owns := sub _ tells.owns
  token := (agrees.strings _ tells.owns).trans tells.token
  attrs := tells.attrs.frame agrees sub

theorem SaysAttrs.unique {tok : Token} {attrs others : List Text} (tells : SaysAttrs own pool tok attrs)
    (again : SaysAttrs wide pool tok others) : attrs = others := by
  obtain ⟨_,tells⟩ := tells
  obtain ⟨_,again⟩ := again
  cases held : tok.attrs with
  | none =>
    rw [held] at tells again
    exact tells.trans again.symm
  | some array =>
    rw [held] at tells again
    exact tells.2.2.2.symm.trans again.2.2.2

theorem Says.unique {tok : Token} {word other : Word} (tells : Says own pool tok word)
    (again : Says wide pool tok other) : word = other := by
  obtain ⟨type,token,attrType,noParams,attrs⟩ := word
  obtain ⟨type',token',attrType',noParams',attrs'⟩ := other
  congr
  · exact tells.type.symm.trans again.type
  · exact tells.token.symm.trans again.token
  · exact tells.attrType.symm.trans again.attrType
  · exact tells.noParams.symm.trans again.noParams
  · exact tells.attrs.unique again.attrs

theorem Reads.frame {t : Tree} : ∀ {first : Option Nat}, Reads own pool first t →
    Agrees own pool after → (∀ a, own a → wide a) → Reads wide after first t := by
  induction t with
  | null => exact fun reads _ _ => reads
  | token word attr child next attrFix childFix nextFix =>
    intro first reads agrees sub
    obtain ⟨a,here,inside,tells,atAttr,atChild,atNext⟩ := reads
    refine ⟨a,here,sub a inside,?_⟩
    rw [agrees.tokens a inside]
    exact ⟨tells.frame agrees sub,attrFix atAttr agrees sub,childFix atChild agrees sub,
      nextFix atNext agrees sub⟩

/-- An address stands for one tree only. -/
theorem Reads.unique {t : Tree} : ∀ {first : Option Nat} {u : Tree}, Reads own pool first t →
    Reads wide pool first u → t = u := by
  induction t with
  | null =>
    intro first u reads again
    cases u with
    | null => rfl
    | token word attr child next =>
      obtain ⟨a,here,_⟩ := again
      rw [Reads] at reads
      rw [reads] at here
      cases here
  | token word attr child next attrFix childFix nextFix =>
    intro first u reads again
    obtain ⟨a,here,_,tells,atAttr,atChild,atNext⟩ := reads
    cases u with
    | null =>
      rw [Reads] at again
      rw [again] at here
      cases here
    | token other attr' child' next' =>
      obtain ⟨b,there,_,tells',atAttr',atChild',atNext'⟩ := again
      rw [here] at there
      obtain rfl := Option.some.inj there
      rw [attrFix atAttr atAttr',childFix atChild atChild',nextFix atNext atNext']
      congr
      exact tells.unique tells'

end

/-! ## The attributes of a clone -/

/-- The loop over the attributes adds a copy of each string to the array. -/
structure Filled (array : Nat) (pool after : Pool) (ss : List Nat) (copies : List Nat) : Prop where
  grows : pool.fresh ≤ after.fresh
  tokens : after.tokens = pool.tokens
  strings : ∀ s < pool.fresh, after.strings s = pool.strings s
  arrays : ∀ a, a ≠ array → after.arrays a = pool.arrays a
  array : after.arrays array = pool.arrays array ++ copies
  news : ∀ c ∈ copies, New pool after c
  texts : copies.map after.strings = ss.map pool.strings

theorem filled_fill (array : Nat) : ∀ (ss : List Nat) (pool : Pool), (∀ s ∈ ss, s < pool.fresh) →
    ∃ copies, Filled array pool (fill array pool ss) ss copies := by
  intro ss
  induction ss with
  | nil =>
    intro pool _
    refine ⟨[],Nat.le_refl _,rfl,fun _ _ => rfl,fun _ _ => rfl,?_,nofun,rfl⟩
    rw [List.append_nil]
    rfl
  | cons s ss further =>
    intro pool inside
    obtain ⟨copies,filled⟩ := further (pool.strdup array s) (by
      intro r member
      have := inside r (List.mem_cons_of_mem s member)
      simp only [Pool.strdup]
      omega)
    have more : pool.fresh + 1 ≤ (fill array (pool.strdup array s) ss).fresh := filled.grows
    have first : (fill array (pool.strdup array s) ss).strings pool.fresh = pool.strings s := by
      rw [filled.strings _ (by simp [Pool.strdup])]
      simp [Pool.strdup]
    have kept : ∀ r < pool.fresh, (pool.strdup array s).strings r = pool.strings r := by
      intro r before
      have other : r ≠ pool.fresh := by omega
      simp [Pool.strdup,other]
    refine ⟨pool.fresh :: copies,?_,?_,?_,?_,?_,?_,?_⟩
    · change pool.fresh ≤ (fill array (pool.strdup array s) ss).fresh
      omega
    · exact filled.tokens
    · intro r before
      exact (filled.strings r (by simp only [Pool.strdup]; omega)).trans (kept r before)
    · intro a other
      refine (filled.arrays a other).trans ?_
      simp [Pool.strdup,other]
    · refine filled.array.trans ?_
      simp [Pool.strdup]
    · intro c member
      cases member with
      | head => exact ⟨Nat.le_refl _,more⟩
      | tail _ member =>
        have new := filled.news c member
        simp only [New,Pool.strdup] at new
        refine ⟨?_,new.2⟩
        omega
    · simp only [List.map_cons]
      change (fill array (pool.strdup array s) ss).strings pool.fresh :: _ = _
      rw [first]
      congr 1
      refine filled.texts.trans ?_
      apply List.map_congr_left
      intro r member
      exact kept r (inside r (List.mem_cons_of_mem s member))

/-- A clone under way: its text and its attributes are copied, and it has no links
    yet. -/
structure Base (pool after : Pool) (word : Word) : Prop where
  grows : pool.fresh + 1 < after.fresh
  agrees : Agrees (· < pool.fresh) pool after
  tells : Says (New pool after) after (after.tokens pool.fresh) word
  parent : (after.tokens pool.fresh).parent = none
  prev : (after.tokens pool.fresh).prev = none
  child : (after.tokens pool.fresh).child = none
  next : (after.tokens pool.fresh).next = none

theorem agrees_dup (pool : Pool) (t : Nat) (parent : Option Nat) :
    Agrees (· < pool.fresh) pool (pool.dup t parent) := by
  refine ⟨?_,?_,fun _ _ => rfl⟩
  · intro a (before : a < pool.fresh)
    have other : a ≠ pool.fresh := by omega
    simp [Pool.dup,other]
  · intro a (before : a < pool.fresh)
    have other : a ≠ pool.fresh + 1 := by omega
    simp [Pool.dup,other]

/-- The text and the attributes of a token are copied. -/
theorem base_cloneAttrs {pool : Pool} {t : Nat} {word : Word} (inside : t < pool.fresh)
    (tells : Says (· < pool.fresh) pool (pool.tokens t) word) :
    ∃ after, cloneAttrs (pool.dup t none) t pool.fresh = some after ∧ Base pool after word ∧
      (after.tokens pool.fresh).attr = (pool.tokens t).attr := by
  have original : (pool.dup t none).tokens t = pool.tokens t := (agrees_dup pool t none).tokens t inside
  have fresh : (pool.dup t none).fresh = pool.fresh + 2 := rfl
  have copy : (pool.dup t none).tokens pool.fresh = { pool.tokens t with
      token := pool.fresh + 1, parent := none, child := none, next := none, prev := none } := by
    simp [Pool.dup]
  have text : (pool.dup t none).strings (pool.fresh + 1) = word.token := by
    simp [Pool.dup,tells.token]
  obtain ⟨num,attrs⟩ := tells.attrs
  unfold cloneAttrs
  rw [original]
  cases held : (pool.tokens t).attrs with
  | none =>
    rw [held] at attrs
    have zero : (pool.tokens t).numAttrs = 0 := by rw [num,attrs]; rfl
    rw [if_pos zero]
    refine ⟨_,rfl,?_,?_⟩
    · constructor
      case grows => rw [fresh]; omega
      case agrees => exact agrees_dup pool t none
      case tells =>
        rw [copy]
        refine ⟨tells.type,tells.attrType,tells.noParams,⟨by simp,by rw [fresh]; simp⟩,text,?_⟩
        refine ⟨num,?_⟩
        simp only [held]
        exact attrs
      all_goals rw [copy]
    · rw [copy]
  | some array =>
    rw [held] at attrs
    obtain ⟨arrayInside,nonempty,owns,texts⟩ := attrs
    have positive : (pool.tokens t).numAttrs ≠ 0 := by
      rw [num]
      intro zero
      exact nonempty (List.length_eq_zero_iff.mp zero)
    rw [if_neg positive]
    have all : ((pool.dup t none).arrays array).take (pool.tokens t).numAttrs = pool.arrays array := by
      have same : (pool.dup t none).arrays array = pool.arrays array := rfl
      rw [same,num, ← texts,List.length_map,List.take_length]
    simp only [all]
    obtain ⟨copies,filled⟩ := filled_fill (pool.dup t none).fresh (pool.arrays array) (pool.dup t none).calloc (by
      intro s member
      have := owns s member
      simp only [Pool.calloc,fresh]
      omega)
    generalize fill (pool.dup t none).fresh (pool.dup t none).calloc (pool.arrays array) = after at filled
    have grows : pool.fresh + 3 ≤ after.fresh := filled.grows
    have here : after.tokens pool.fresh = (pool.dup t none).tokens pool.fresh := by
      rw [filled.tokens]
      rfl
    have tok : (after.setAttrs pool.fresh (pool.dup t none).fresh (pool.tokens t).numAttrs).tokens pool.fresh =
        { pool.tokens t with
          token := pool.fresh + 1, parent := none, child := none, next := none, prev := none
          attrs := some (pool.fresh + 2) } := by
      simp [Pool.setAttrs,Pool.set,here,copy,fresh]
    refine ⟨_,rfl,?_,?_⟩
    · constructor
      case grows => change pool.fresh + 1 < after.fresh; omega
      case agrees =>
        refine Agrees.trans ?_ (Agrees.set (by omega) _)
        refine (agrees_dup pool t none).trans ⟨?_,?_,?_⟩
        · intro a _
          rw [filled.tokens]
          rfl
        · intro s (before : s < pool.fresh)
          exact filled.strings s (by simp only [Pool.calloc,fresh]; omega)
        · intro a (before : a < pool.fresh)
          have other : a ≠ (pool.dup t none).fresh := by rw [fresh]; omega
          refine (filled.arrays a other).trans ?_
          simp [Pool.calloc,other]
      case tells =>
        rw [tok]
        refine ⟨tells.type,tells.attrType,tells.noParams,?_,?_,?_⟩
        · exact ⟨by simp,by change pool.fresh + 1 < after.fresh; omega⟩
        · refine (filled.strings _ (by simp [Pool.calloc,fresh])).trans text
        · have entries : after.arrays (pool.fresh + 2) = copies := by
            refine filled.array.trans ?_
            simp [Pool.calloc]
          refine ⟨num,?_,nonempty,?_,?_⟩
          · exact ⟨by omega,by change pool.fresh + 2 < after.fresh; omega⟩
          · intro s member
            have new := filled.news s (entries ▸ member)
            simp only [New,Pool.calloc,fresh] at new
            exact ⟨by omega,new.2⟩
          · change (after.arrays (pool.fresh + 2)).map after.strings = word.attrs
            rw [entries,filled.texts, ← texts]
            apply List.map_congr_left
            intro s member
            have := owns s member
            have other : s ≠ pool.fresh + 1 := by omega
            simp [Pool.calloc,Pool.dup,other]
      all_goals rw [tok]
    · rw [tok]

/-! ## The clone -/

/-- The tokens from an address on are the tree, with their links, each at an address
    before those of the tokens that it leads to. -/
def Built (pool : Pool) (high : Nat) : Nat → Option Nat → Tree → Option Nat → Option Nat → Prop
  | low, first, .null, parent, prev => first = none
  | low, first, .token word attr child next, parent, prev => ∃ a, first = some a ∧ low ≤ a ∧ a < high ∧
      Says (fun s => low ≤ s ∧ s < high) pool (pool.tokens a) word ∧
      (pool.tokens a).parent = parent ∧ (pool.tokens a).prev = prev ∧
      Built pool high (a + 1) (pool.tokens a).attr attr none none ∧
      Built pool high (a + 1) (pool.tokens a).child child (some a) none ∧
      Built pool high (a + 1) (pool.tokens a).next next parent (some a)

section
variable {pool after : Pool} {high wide : Nat}

theorem Built.reads {own : Nat → Prop} {t : Tree} : ∀ {low : Nat} {first parent prev : Option Nat},
    Built pool high low first t parent prev → (∀ a, low ≤ a → a < high → own a) → Reads own pool first t := by
  induction t with
  | null => exact fun built _ => built
  | token word attr child next attrFix childFix nextFix =>
    intro low first parent prev built inside
    obtain ⟨a,here,above,below,tells,_,_,atAttr,atChild,atNext⟩ := built
    have later : ∀ b, a + 1 ≤ b → b < high → own b := by
      intro b after below
      exact inside b (by omega) below
    refine ⟨a,here,inside a above below,?_,attrFix atAttr later,childFix atChild later,nextFix atNext later⟩
    exact tells.frame ⟨fun _ _ => rfl,fun _ _ => rfl,fun _ _ => rfl⟩ (fun s bounds => inside s bounds.1 bounds.2)

theorem Built.links {t : Tree} : ∀ {low : Nat} {first parent prev : Option Nat},
    Built pool high low first t parent prev → Links pool first t parent prev := by
  induction t with
  | null => exact fun _ => trivial
  | token word attr child next attrFix childFix nextFix =>
    intro low first parent prev built
    obtain ⟨a,here,_,_,_,isParent,isPrev,atAttr,atChild,atNext⟩ := built
    exact ⟨a,here,isParent,isPrev,attrFix atAttr,childFix atChild,nextFix atNext⟩

theorem Built.frame {t : Tree} : ∀ {low lower : Nat} {first parent prev : Option Nat},
    Built pool high low first t parent prev → lower ≤ low → high ≤ wide →
    Agrees (fun a => low ≤ a ∧ a < high) pool after → Built after wide lower first t parent prev := by
  induction t with
  | null => exact fun built _ _ _ => built
  | token word attr child next attrFix childFix nextFix =>
    intro low lower first parent prev built less more agrees
    obtain ⟨a,here,above,below,tells,isParent,isPrev,atAttr,atChild,atNext⟩ := built
    have later : Agrees (fun b => a + 1 ≤ b ∧ b < high) pool after :=
      agrees.narrow (fun b bounds => ⟨by omega,bounds.2⟩)
    refine ⟨a,here,by omega,by omega,?_⟩
    rw [agrees.tokens a ⟨above,below⟩]
    refine ⟨tells.frame agrees (fun s bounds => ⟨by omega,by omega⟩),isParent,isPrev,?_,?_,?_⟩
    · exact attrFix atAttr (Nat.le_refl _) more later
    · exact childFix atChild (Nat.le_refl _) more later
    · exact nextFix atNext (Nat.le_refl _) more later

/-- The first token of a tree gets a previous sibling. -/
theorem Built.setPrev {t : Tree} {low a : Nat} {parent : Option Nat} (prev : Option Nat)
    (built : Built pool high low (some a) t parent none) :
    Built (pool.setPrev a prev) high low (some a) t parent prev := by
  cases t with
  | null => exact built
  | token word attr child next =>
    obtain ⟨b,here,above,below,tells,isParent,_,atAttr,atChild,atNext⟩ := built
    obtain rfl := Option.some.inj here
    have later : Agrees (fun b => a + 1 ≤ b ∧ b < high) pool (pool.setPrev a prev) := Agrees.set (by omega) _
    have tok : (pool.setPrev a prev).tokens a = { pool.tokens a with prev := prev } := by
      simp [Pool.setPrev,Pool.set]
    refine ⟨a,rfl,above,below,?_⟩
    rw [tok]
    refine ⟨?_,isParent,rfl,?_,?_,?_⟩
    · exact ⟨tells.type,tells.attrType,tells.noParams,tells.owns,tells.token,tells.attrs⟩
    · exact atAttr.frame (Nat.le_refl _) (Nat.le_refl _) later
    · exact atChild.frame (Nat.le_refl _) (Nat.le_refl _) later
    · exact atNext.frame (Nat.le_refl _) (Nat.le_refl _) later

theorem Base.frame {last : Pool} {word : Word} (base : Base pool after word) (more : after.fresh ≤ last.fresh)
    (agrees : Agrees (· < after.fresh) after last) : Base pool last word := by
  have grows := base.grows
  have here : last.tokens pool.fresh = after.tokens pool.fresh := agrees.tokens _ (by omega)
  constructor
  case grows => omega
  case agrees => exact base.agrees.trans (agrees.narrow (fun a (before : a < pool.fresh) => by omega))
  case tells =>
    rw [here]
    exact base.tells.frame (agrees.narrow (fun a new => new.2)) (fun a new => ⟨new.1,by have := new.2; omega⟩)
  case parent => rw [here]; exact base.parent
  case prev => rw [here]; exact base.prev
  case child => rw [here]; exact base.child
  case next => rw [here]; exact base.next

theorem Base.setAttr {word : Word} (base : Base pool after word) (p : Option Nat) :
    Base pool (after.setAttr pool.fresh p) word := by
  have here : (after.setAttr pool.fresh p).tokens pool.fresh = { after.tokens pool.fresh with attr := p } := by
    simp [Pool.setAttr,Pool.set]
  have tells := base.tells
  constructor
  case grows => exact base.grows
  case agrees => exact base.agrees.trans (Agrees.set (by omega) _)
  case tells =>
    rw [here]
    exact ⟨tells.type,tells.attrType,tells.noParams,tells.owns,tells.token,tells.attrs⟩
  case parent => rw [here]; exact base.parent
  case prev => rw [here]; exact base.prev
  case child => rw [here]; exact base.child
  case next => rw [here]; exact base.next

/-- A clone with nothing after it is done. -/
theorem Base.built {word : Word} {attr : Tree} (base : Base pool after word)
    (atAttr : Built after after.fresh (pool.fresh + 1) (after.tokens pool.fresh).attr attr none none) :
    Built after after.fresh pool.fresh (some pool.fresh) (.token word attr .null .null) none none := by
  have grows := base.grows
  exact ⟨pool.fresh,rfl,Nat.le_refl _,by omega,base.tells,base.parent,base.prev,atAttr,base.child,base.next⟩

end

/-- A clone holds what it is made from without the children, at the next addresses;
    the induction is on the tree, along `attr` and `next`. -/
theorem cloned_strip {t : Tree} : ∀ {a : Nat} {pool : Pool}, Reads (· < pool.fresh) pool (some a) t →
    ∃ after, (∀ fuel, t.size ≤ fuel → cloneUnder fuel pool a none = some (pool.fresh,after)) ∧
      pool.fresh < after.fresh ∧ Agrees (· < pool.fresh) pool after ∧
      Built after after.fresh pool.fresh (some pool.fresh) t.strip none none := by
  induction t with
  | null =>
    intro a pool reads
    cases reads
  | token word attr child next attrFix _ nextFix =>
    intro a pool reads
    obtain ⟨b,here,inside,tells,atAttr,atChild,atNext⟩ := reads
    obtain rfl := Option.some.inj here
    obtain ⟨first,attrsDone,base,sameAttr⟩ := base_cloneAttrs inside tells
    have grows := base.grows
    -- The clone with its `attr`.
    obtain ⟨second,attrDone,base,attrBuilt⟩ : ∃ second, (∀ fuel, attr.size ≤ fuel →
        (match (first.tokens a).attr with
          | none => some first
          | some attr => do
            let (copy,last) ← cloneUnder fuel first attr none
            some (last.setAttr pool.fresh (some copy))) = some second) ∧ Base pool second word ∧
        Built second second.fresh (pool.fresh + 1) (second.tokens pool.fresh).attr attr.strip none none := by
      have original : (first.tokens a).attr = (pool.tokens a).attr := by rw [base.agrees.tokens a inside]
      cases leads : (pool.tokens a).attr with
      | none =>
        rw [original,leads]
        refine ⟨first,fun _ _ => rfl,base,?_⟩
        rw [sameAttr,leads]
        rw [leads] at atAttr
        cases attr with
        | null => rfl
        | token => obtain ⟨_,null,_⟩ := atAttr; cases null
      | some x =>
        rw [original,leads]
        rw [leads] at atAttr
        obtain ⟨last,run,more,agrees,built⟩ :=
          attrFix (atAttr.frame base.agrees (fun a (before : a < pool.fresh) => by omega))
        refine ⟨last.setAttr pool.fresh (some first.fresh),?_,(base.frame (by omega) agrees).setAttr _,?_⟩
        · intro fuel enough
          simp only [run fuel enough,bind,Option.bind]
        have led : ((last.setAttr pool.fresh (some first.fresh)).tokens pool.fresh).attr = some first.fresh := by
          simp [Pool.setAttr,Pool.set]
        rw [led]
        exact built.frame (by omega) (Nat.le_refl _) (Agrees.set (by omega) _)
    have grows := base.grows
    have step : ∀ fuel, attr.size ≤ fuel → cloneUnder (fuel + 1) pool a none =
        (match (second.tokens a).next with
          | none => some (pool.fresh,second)
          | some next => do
            let (copy,last) ← cloneUnder fuel second next none
            some (pool.fresh,(last.setNext pool.fresh (some copy)).setPrev copy (some pool.fresh))) := by
      intro fuel enough
      replace attrDone := attrDone fuel enough
      rw [cloneUnder]
      simp only [hang,attrsDone,bind,Option.bind]
      cases leads : (first.tokens a).attr with
      | none =>
        rw [leads] at attrDone
        obtain rfl := Option.some.inj attrDone
        rfl
      | some x =>
        rw [leads] at attrDone
        cases run : cloneUnder fuel first x none with
        | none => simp [run] at attrDone
        | some p =>
          simp only [run,bind,Option.bind] at attrDone
          obtain rfl := Option.some.inj attrDone
          simp only [run]
    have original : (second.tokens a).next = (pool.tokens a).next := by rw [base.agrees.tokens a inside]
    cases leads : (pool.tokens a).next with
    | none =>
      rw [leads] at atNext
      cases next with
      | null =>
        refine ⟨second,?_,by omega,base.agrees,base.built attrBuilt⟩
        intro fuel enough
        simp only [Tree.size] at enough
        obtain ⟨fuel,rfl⟩ : ∃ less, fuel = less + 1 := ⟨fuel - 1,by omega⟩
        rw [step fuel (by omega),original,leads]
      | token => obtain ⟨_,null,_⟩ := atNext; cases null
    | some x =>
      rw [leads] at atNext
      obtain ⟨last,run,more,agrees,built⟩ :=
        nextFix (atNext.frame base.agrees (fun a (before : a < pool.fresh) => by omega))
      have base := base.frame (by omega) agrees
      generalize linked : last.setNext pool.fresh (some second.fresh) = joined
      have first : joined.tokens pool.fresh = { last.tokens pool.fresh with next := some second.fresh } := by
        simp [← linked,Pool.setNext,Pool.set]
      have outside : Agrees (· ≠ pool.fresh) last joined := by
        rw [← linked]
        exact Agrees.set (by simp) _
      have same : joined.fresh = last.fresh := by rw [← linked]; rfl
      have after : Agrees (· ≠ second.fresh) joined (joined.setPrev second.fresh (some pool.fresh)) :=
        Agrees.set (by simp) _
      refine ⟨joined.setPrev second.fresh (some pool.fresh),?_,?_,?_,?_⟩
      · intro fuel enough
        simp only [Tree.size] at enough
        obtain ⟨fuel,rfl⟩ : ∃ less, fuel = less + 1 := ⟨fuel - 1,by omega⟩
        rw [step fuel (by omega),original,leads]
        simp only [run fuel (by omega),bind,Option.bind,linked]
      · change pool.fresh < joined.fresh
        omega
      · refine base.agrees.trans ((outside.narrow ?_).trans (after.narrow ?_))
        · intro a (before : a < pool.fresh)
          omega
        · intro a (before : a < pool.fresh)
          omega
      · have nextBuilt : Built (joined.setPrev second.fresh (some pool.fresh)) last.fresh (pool.fresh + 1)
            (some second.fresh) next.strip none (some pool.fresh) := by
          have built := built.frame (Nat.le_refl _) (Nat.le_refl _)
            (outside.narrow (fun a bounds => by omega))
          exact (built.setPrev (some pool.fresh)).frame (by omega) (Nat.le_refl _)
            ⟨fun _ _ => rfl,fun _ _ => rfl,fun _ _ => rfl⟩
        have here := after.tokens pool.fresh (by omega)
        have kept := agrees.tokens pool.fresh (by omega)
        have attrBuilt : Built (joined.setPrev second.fresh (some pool.fresh)) last.fresh (pool.fresh + 1)
            (last.tokens pool.fresh).attr attr.strip none none := by
          rw [kept]
          refine attrBuilt.frame (Nat.le_refl _) (by omega) ?_
          refine (agrees.narrow ?_).trans ((outside.narrow ?_).trans (after.narrow ?_)) <;>
            (intro a bounds; omega)
        have tells : Says (fun s => pool.fresh ≤ s ∧ s < joined.fresh) (joined.setPrev second.fresh (some pool.fresh))
            (last.tokens pool.fresh) word := by
          have tells := base.tells
          rw [← linked]
          exact ⟨tells.type,tells.attrType,tells.noParams,tells.owns,tells.token,tells.attrs⟩
        have fresh : (joined.setPrev second.fresh (some pool.fresh)).fresh = last.fresh := same
        refine ⟨pool.fresh,rfl,Nat.le_refl _,by change pool.fresh < joined.fresh; omega,?_⟩
        rw [here,first,fresh]
        refine ⟨⟨tells.type,tells.attrType,tells.noParams,?_,tells.token,?_⟩,base.parent,base.prev,attrBuilt,?_,
          nextBuilt⟩
        · exact same ▸ tells.owns
        · exact same ▸ tells.attrs
        · exact base.child

/-- `ac_token_clone` returns a copy of a tree of tokens exactly where no token of it
    has a child, through `attr` and `next` from the first one on. -/
theorem clone_copies_iff {pool : Pool} {root : Nat} {t : Tree} (original : Reads (· < pool.fresh) pool (some root) t) :
    ∃ copy after, (∀ fuel, t.size ≤ fuel → clone fuel pool root = some (copy,after)) ∧
      (Copies pool after t copy ↔ t.Childless) := by
  obtain ⟨after,run,grows,agrees,built⟩ := cloned_strip original
  refine ⟨pool.fresh,after,?_,?_⟩
  · intro fuel enough
    unfold clone
    exact run fuel enough
  · have reads : Reads (New pool after) after (some pool.fresh) t.strip := built.reads fun a low high => ⟨low,high⟩
    rw [← Tree.strip_eq_iff]
    constructor
    · intro copies
      exact reads.unique copies.same
    · intro same
      rw [same] at reads built
      exact ⟨reads,built.links,agrees.tokens,agrees.strings,agrees.arrays⟩

/-! ## Two clones -/

/-- A token without links. -/
def plain (type : TokenType) (token : Nat) : Token :=
  ⟨type,token,.normal,false,none,0,none,none,none,none,none⟩

/-- The word `a` with the attribute `b`, and after it the word `c`. -/
def twoWords : Pool where
  tokens a := if a = 0 then { plain .token 2 with attrs := some 4, numAttrs := 1, next := some 1 } else plain .token 5
  strings a := if a = 2 then [97] else if a = 3 then [98] else [99]
  arrays _ := [3]
  fresh := 6

def twoWordsTree : Tree :=
  .token ⟨.token,[97],.normal,false,[[98]]⟩ .null .null (.token ⟨.token,[99],.normal,false,[]⟩ .null .null .null)

theorem clone_copies_iff_twoWords : ∃ copy after,
    (∀ fuel, 2 ≤ fuel → clone fuel twoWords 0 = some (copy,after)) ∧
      (Copies twoWords after twoWordsTree copy ↔ twoWordsTree.Childless) := by
  have original : Reads (· < twoWords.fresh) twoWords (some 0) twoWordsTree :=
    ⟨0,rfl,by decide,⟨rfl,rfl,rfl,by decide,rfl,rfl,by decide,by decide,by decide,rfl⟩,rfl,rfl,
      1,rfl,by decide,⟨rfl,rfl,rfl,by decide,rfl,rfl,rfl⟩,rfl,rfl,rfl⟩
  exact clone_copies_iff original

/-- What is left of `(a)`: a group and its child. -/
def group : Pool where
  tokens a := if a = 0 then { plain .openParen 2 with child := some 1 } else { plain .token 3 with parent := some 0 }
  strings a := if a = 2 then [40] else [97]
  arrays _ := []
  fresh := 4

def groupTree : Tree :=
  .token ⟨.openParen,[40],.normal,false,[]⟩ .null (.token ⟨.token,[97],.normal,false,[]⟩ .null .null .null) .null

/-- The clone of a group is an empty group. -/
theorem clone_loses_child : Reads (· < group.fresh) group (some 0) groupTree ∧ Links group (some 0) groupTree none none ∧
    ∃ after, clone 2 group 0 = some (4,after) ∧ (after.tokens 4).child = none ∧ ¬ Copies group after groupTree 4 := by
  refine ⟨?_,?_,_,rfl,rfl,?_⟩
  · exact ⟨0,rfl,by decide,⟨rfl,rfl,rfl,by decide,rfl,rfl,rfl⟩,rfl,
      ⟨1,rfl,by decide,⟨rfl,rfl,rfl,by decide,rfl,rfl,rfl⟩,rfl,rfl,rfl⟩,rfl⟩
  · exact ⟨0,rfl,rfl,rfl,trivial,⟨1,rfl,rfl,rfl,trivial,trivial,trivial⟩,trivial⟩
  · intro copies
    obtain ⟨a,here,_,_,_,⟨b,child,_⟩,_⟩ := copies.same
    obtain rfl := Option.some.inj here
    cases child

end AnotherC.TokenClone
