import AnotherC.Lib.Growth
import AnotherC.Search.LexerReads

/-!
# What the scanner builds

A token that is made goes below the tail or behind it, and what closes goes up from there, so that
the tokens are a forest (`Lib.Growth`). Two branches of `__token_init` are not like that: a comparison
behind another one is merged into it, and the old token, which is the pool's, goes to `free`; and
behind a ternary a parenthesis becomes the parent of the first token only, not of those behind that
one. The tokens are a forest exactly where no call comes to one of the two (`forest_iff`).
-/
namespace AnotherC.Lexer
open AnotherC.Tokens (TokenType Token Pool Addr)
open AnotherC.Lib.Text (Text)
open AnotherC.Lib.Walks
open AnotherC.Lib.Growth
open Relation (ReflTransGen)
set_option linter.unusedVariables false

def links (t : Token) : Links := ⟨t.next,t.prev,t.child,t.parent⟩

/-- The links of all tokens. -/
def shape (th : Head) : State := ⟨fun a => links (th.pool.cells a),th.pool.fresh,th.head,th.tail⟩

/-- The call comes to `token_merge`. -/
def Merges (th : Head) (call : Call) : Prop :=
  sign th call.s call.p = .ok none ∧ call.type = .comparison ∧ tailType th = .comparison

/-- Behind a `:`, with the siblings of a ternary before it. -/
def AfterTernary (th : Head) : Prop :=
  ∃ tail, th.tail = some tail ∧ (th.pool.cells tail).type = .colon ∧ (ternary th.pool tail).isSome

/-- The call makes a token there. -/
def Groups (th : Head) (call : Call) : Prop :=
  sign th call.s call.p = .ok none ∧ settle th call.type = none ∧ AfterTernary th

/-! ## The calls of a run -/

/-- Each call with what it finds. -/
def made (th : Head) : List Call → List (Head × Call)
  | [] => []
  | call :: calls => (th,call) ::
    match emit th call with
    | .ok th => made th calls
    | .error _ => []

/-- The calls of the scanner, in their order. -/
def trace (text : Text) : Nat → Head → Nat → Option Nat → List (Head × Call)
  | 0, _, _, _ => []
  | fuel + 1, th, s, tokenStart =>
    match char text s with
    | .error _ => []
    | .ok c =>
      if c = 0 then made th (pending text s tokenStart .token)
      else match turn text th s tokenStart with
        | .error _ => []
        | .ok (calls,s,tokenStart) => made th calls ++
          match calls.foldlM emit th with
          | .ok th => trace text fuel th s tokenStart
          | .error _ => []

def callsOf (text : Text) : List (Head × Call) := trace text (text.length + 1) initial 0 none

def Clean (th : Head) (call : Call) : Prop := ¬ Merges th call ∧ ¬ Groups th call

/-! ## Shapes -/

section
variable {th th' : Head} {a tail : Addr} {root : Option Addr} {t : Token}

theorem setToken_shape (th : Head) (a : Addr) (token : Text) : shape (setToken th a token) = shape th := by
  have same : ∀ x, links ((setToken th a token).pool.cells x) = links (th.pool.cells x) := by
    intro x
    show links (Function.update th.pool.cells a _ x) = _
    by_cases here : x = a
    · subst here
      rw [Function.update_self]
      rfl
    · rw [Function.update_of_ne here]
  exact congrArg (State.mk · th.pool.fresh th.head th.tail) (funext same)

theorem set_cells (pool : Pool) (a : Addr) (t : Token) (x : Addr) : (pool.set a t).cells x = if x = a then t else pool.cells x :=
  Function.update_apply _ _ _ _

theorem alloc_cells (pool : Pool) (t : Token) (x : Addr) :
    (pool.alloc t).cells x = if x = pool.fresh then t else pool.cells x := Function.update_apply _ _ _ _

/-- A new token, and a new link of an old one. -/
theorem cells_made (old : a < th.pool.fresh) (u : Token) (x : Addr) : ((th.pool.alloc t).set a u).cells x =
    if x = th.pool.fresh then t else if x = a then u else th.pool.cells x := by
  rw [set_cells,alloc_cells]
  by_cases fresh : x = th.pool.fresh
  · rw [if_pos fresh,if_neg (fun here => Nat.ne_of_lt old (here.symm.trans fresh)),if_pos fresh]
  · rw [if_neg fresh,if_neg fresh]

theorem alloc_old (old : a < th.pool.fresh) : (th.pool.alloc t).cells a = th.pool.cells a :=
  Function.update_of_ne (Nat.ne_of_lt old) _ _

/-- The links after that, where they are known one by one. -/
theorem made_links (old : a < th.pool.fresh) {u : Token} {k : Addr → Links} (new : k th.pool.fresh = links t) (here : k a = links u)
    (other : ∀ x, x ≠ th.pool.fresh → x ≠ a → k x = links (th.pool.cells x)) :
    (fun x => links (((th.pool.alloc t).set a u).cells x)) = k := by
  funext x
  rw [cells_made old]
  by_cases fresh : x = th.pool.fresh
  · rw [if_pos fresh,fresh,new]
  · rw [if_neg fresh]
    by_cases same : x = a
    · rw [if_pos same,same,here]
    · rw [if_neg same,other x fresh same]

theorem child_shape (attrs : Addr → List Text) (head : th.head = root) (old : tail < th.pool.fresh)
    (new : links t = ⟨none,none,none,some tail⟩) :
    shape ⟨(th.pool.alloc t).setChild tail (some th.pool.fresh),root,some th.pool.fresh,attrs⟩ = (shape th).addChild tail := by
  subst head
  have first : ((shape th).addChild tail).links th.pool.fresh = links t := (addChild_fresh (s := shape th)).trans new.symm
  refine congrArg (State.mk · _ _ _) (made_links old first ?_ ?_)
  · rw [alloc_old old]
    exact addChild_here old
  · intro x fresh other
    exact (if_neg fresh).trans (if_neg other)

theorem sibling_shape (attrs : Addr → List Text) (head : th.head = root) (old : tail < th.pool.fresh)
    (new : links t = ⟨none,some tail,none,(th.pool.cells tail).parent⟩) :
    shape ⟨(th.pool.alloc t).setNext tail (some th.pool.fresh),root,some th.pool.fresh,attrs⟩ = (shape th).addSibling tail := by
  subst head
  have first : ((shape th).addSibling tail).links th.pool.fresh = links t := (addSibling_fresh (s := shape th)).trans new.symm
  refine congrArg (State.mk · _ _ _) (made_links old first ?_ ?_)
  · rw [alloc_old old]
    exact addSibling_here old
  · intro x fresh other
    exact (if_neg fresh).trans (if_neg other)

theorem first_shape (attrs : Addr → List Text) (new : links t = ⟨none,none,none,none⟩) :
    shape ⟨th.pool.alloc t,some th.pool.fresh,some th.pool.fresh,attrs⟩ = (shape th).addFirst := by
  refine congrArg (State.mk · _ _ _) (funext fun x => ?_)
  show links (Function.update th.pool.cells th.pool.fresh t x) = _
  by_cases fresh : x = th.pool.fresh
  · subst fresh
    rw [Function.update_self]
    exact new.trans (if_pos rfl).symm
  · rw [Function.update_of_ne fresh]
    exact (if_neg fresh).symm

end

/-! ## The ternary -/

section
variable {th : Head} {a b tail colon first q : Addr} {n : Nat}

/-- The first token of a ternary and the parenthesis over it, before the sibling in front is linked. -/
def wrapped (pool : Pool) (first : Addr) : Pool :=
  ((pool.alloc { pool.cells first with token := [40], type := .openParen, child := some first, next := none }).setParent first
    (some pool.fresh)).setPrev first none

theorem wrapped_cells (old : first < th.pool.fresh) (x : Addr) : links ((wrapped th.pool first).cells x) =
    if x = th.pool.fresh then ⟨none,(th.pool.cells first).prev,some first,(th.pool.cells first).parent⟩
    else if x = first then ⟨(th.pool.cells first).next,none,(th.pool.cells first).child,some th.pool.fresh⟩
    else links (th.pool.cells x) := by
  have apart : first ≠ th.pool.fresh := Nat.ne_of_lt old
  simp only [wrapped,Pool.setPrev,Pool.setParent,set_cells,alloc_cells,if_true,if_neg apart]
  by_cases fresh : x = th.pool.fresh
  · subst fresh
    rw [if_neg apart.symm,if_neg apart.symm,if_pos rfl,if_pos rfl]
    rfl
  · by_cases here : x = first
    · rw [if_pos here,if_neg fresh,if_pos here]
      rfl
    · rw [if_neg here,if_neg here,if_neg fresh,if_neg fresh,if_neg here]

theorem group_shape (at_ : th.tail = some tail) (prev : (th.pool.cells tail).prev = some colon)
    (found : ternary th.pool colon = some first) (old : first < th.pool.fresh)
    (before : ∀ q, (th.pool.cells first).prev = some q → q < first) : shape (group th) = (shape th).wrap first := by
  have cells := wrapped_cells old
  have above : ((wrapped th.pool first).cells th.pool.fresh).prev = (th.pool.cells first).prev := by
    have := congrArg Links.prev (cells th.pool.fresh)
    rwa [if_pos rfl] at this
  have grouped : group th =
      { th with
        pool := linkFront (wrapped th.pool first) th.pool.fresh
        tail := some th.pool.fresh
        attrs := Function.update th.attrs th.pool.fresh (th.attrs first) } := by
    unfold group
    rw [at_,Option.bind_some,prev,Option.bind_some,found]
    rfl
  rw [grouped,linkFront,above]
  have spread : ∀ x (k : Links), k = (if x = th.pool.fresh then ⟨none,(th.pool.cells first).prev,some first,(th.pool.cells first).parent⟩
      else if x = first then ⟨(th.pool.cells first).next,none,(th.pool.cells first).child,some th.pool.fresh⟩
      else if (th.pool.cells first).prev = some x then { links (th.pool.cells x) with next := some th.pool.fresh }
      else links (th.pool.cells x)) → k = ((shape th).wrap first).links x := by
    rintro x k rfl
    by_cases fresh : x = th.pool.fresh
    · rw [if_pos fresh]
      exact (if_pos fresh).symm
    · rw [if_neg fresh]
      refine Eq.trans ?_ (if_neg fresh).symm
      by_cases here : x = first
      · subst here
        rw [if_pos rfl]
        exact (if_pos rfl).symm
      · rw [if_neg here]
        exact (if_neg here).symm
  cases front : (th.pool.cells first).prev with
  | none =>
    refine congrArg (State.mk · _ _ _) (funext fun x => spread x _ ?_)
    rw [front,if_neg (show ¬ (none : Option Addr) = some x from nofun)]
    exact (cells x).trans (by rw [front])
  | some q =>
    have lower := before q front
    refine congrArg (State.mk · _ _ _) (funext fun x => spread x _ ?_)
    show links (((wrapped th.pool first).setNext q (some th.pool.fresh)).cells x) = _
    rw [Pool.setNext,set_cells]
    by_cases here : x = q
    · subst here
      have other : ¬ x = first := Nat.ne_of_lt lower
      have below : ¬ x = th.pool.fresh := Nat.ne_of_lt (Nat.lt_trans lower old)
      have kept := cells x
      rw [if_neg below,if_neg other] at kept
      rw [if_pos rfl,if_neg below,if_neg other,if_pos front,← kept]
      rfl
    · have apart : ¬ (th.pool.cells first).prev = some x := by
        rw [front]
        exact fun same => here (Option.some.inj same).symm
      rw [if_neg here,cells x,if_neg apart]

end

section
variable {th th₁ : Head} {pool : Pool} {a b c tail colon first : Addr} {n : Nat} {type : TokenType} {token : Text}

theorem back_near (near : Near (shape th) a) (found : back th.pool n a = some b) : Near (shape th) b := by
  induction n generalizing a with
  | zero =>
    cases found
    exact near
  | succ n ih =>
    rw [back,Option.bind_eq_some_iff] at found
    obtain ⟨c,prev,found⟩ := found
    exact ih (near.prev prev) found

theorem back_reaches (found : back th.pool n a = some b) : Reaches (shape th).befores a b := by
  induction n generalizing a with
  | zero =>
    cases found
    exact Reaches.refl
  | succ n ih =>
    rw [back,Option.bind_eq_some_iff] at found
    obtain ⟨c,prev,found⟩ := found
    exact (Reaches.refl.edge (l := ()) prev).trans (ih found)

theorem back_succ : back pool (n + 1) a = (back pool n a).bind fun b => (pool.cells b).prev := by
  induction n generalizing a with
  | zero =>
    rw [back,back,Option.bind_some]
    exact Option.bind_fun_some _
  | succ n ih =>
    rw [back,back,Option.bind_assoc]
    exact congrArg _ (funext fun b => ih)

/-- Where the old tokens keep their links to the sibling before. -/
theorem back_kept (kept : ∀ x, Near (shape th) x → (pool.cells x).prev = (th.pool.cells x).prev) (near : Near (shape th) a) :
    back pool n a = back th.pool n a := by
  induction n generalizing a with
  | zero => rfl
  | succ n ih =>
    rw [back,back,kept a near]
    cases prev : (th.pool.cells a).prev with
    | none => rfl
    | some c => exact ih (near.prev prev)

theorem ternary_kept (kept : ∀ x, Near (shape th) x → (pool.cells x).prev = (th.pool.cells x).prev)
    (types : ∀ x, Near (shape th) x → (pool.cells x).type = (th.pool.cells x).type) (near : Near (shape th) colon) :
    ternary pool colon = ternary th.pool colon := by
  rw [ternary,ternary,back_kept kept near,back_kept kept near,back_kept kept near]
  cases second : back th.pool 2 colon with
  | none => rfl
  | some question =>
    cases fourth : back th.pool 4 colon with
    | none => rfl
    | some comparison =>
      cases back th.pool 5 colon with
      | none => rfl
      | some first =>
        simp only [Option.bind_eq_bind,Option.bind_some,types question (back_near near second),
          types comparison (back_near near fourth)]

theorem ternary_first (found : ternary pool colon = some first) :
    ∃ comparison, back pool 4 colon = some comparison ∧ (pool.cells comparison).prev = some first := by
  rw [ternary] at found
  simp only [Option.bind_eq_bind,Option.bind_eq_some_iff] at found
  obtain ⟨question,-,comparison,fourth,first',fifth,same⟩ := found
  rw [back_succ,fourth,Option.bind_some] at fifth
  split at same
  · cases same
    exact ⟨comparison,fourth,fifth⟩
  · cases same

/-- What `group` does behind a `:`. -/
theorem group_wraps (spine : Spine (shape th)) (at_ : th.tail = some tail) (prev : (th.pool.cells tail).prev = some colon)
    (found : ternary th.pool colon = some first) : Wraps (shape th) (shape (group th)) := by
  have near : Near (shape th) tail := Near.tail at_
  obtain ⟨comparison,fourth,last⟩ := ternary_first found
  have near' := back_near (near.prev prev) fourth
  have start : Near (shape th) first := near'.prev last
  have before : ∀ q, (th.pool.cells first).prev = some q → q < first := fun q edge => (spine.prev first q start edge).1
  rw [group_shape at_ prev found (spine.near first start) before]
  exact Wraps.wrap at_ ((Reaches.refl.edge (l := ()) prev).trans (back_reaches fourth)) last

theorem group_none (at_ : th.tail = some tail) (prev : (th.pool.cells tail).prev = some colon) (missing : ternary th.pool colon = none) :
    group th = th := by
  unfold group
  rw [at_,Option.bind_some,prev,Option.bind_some,missing]

theorem takes_leaf {cell : Token} (under : takes cell = true) : cell.child = none :=
  Option.isNone_iff_eq_none.mp (Bool.and_eq_true_iff.mp under).1

theorem takes_colon {cell : Token} (under : takes cell = true) : cell.type ≠ .colon := by
  intro colon
  rw [takes,colon] at under
  simp at under

theorem sibling_prev (type : TokenType) (token : Text) (old : tail < th.pool.fresh) :
    (((th.pool.alloc ⟨type,token,none,some tail,none,(th.pool.cells tail).parent⟩).setNext tail (some th.pool.fresh)).cells
      th.pool.fresh).prev = some tail := by
  rw [Pool.setNext,cells_made old,if_pos rfl]

/-- A new sibling behind the `:` changes nothing before it. -/
theorem sibling_ternary (type : TokenType) (token : Text) (spine : Spine (shape th)) (at_ : th.tail = some tail) (old : tail < th.pool.fresh) :
    ternary ((th.pool.alloc ⟨type,token,none,some tail,none,(th.pool.cells tail).parent⟩).setNext tail (some th.pool.fresh))
      tail = ternary th.pool tail := by
  have cell : ∀ x, Near (shape th) x →
      ((th.pool.alloc ⟨type,token,none,some tail,none,(th.pool.cells tail).parent⟩).setNext tail (some th.pool.fresh)).cells x =
        if x = tail then { th.pool.cells tail with next := some th.pool.fresh } else th.pool.cells x := by
    intro x near
    have other : x ≠ th.pool.fresh := Nat.ne_of_lt (spine.near x near)
    rw [Pool.setNext,cells_made old,if_neg other,alloc_old old]
  refine ternary_kept ?_ ?_ (Near.tail at_)
  · intro x near
    rw [cell x near]
    split
    · next here => rw [here]
    · rfl
  · intro x near
    rw [cell x near]
    split
    · next here => rw [here]
    · rfl

theorem attach_made (spine : Spine (shape th)) (token : Text) (type : TokenType) : ∃ t th', attach th token type = .ok (some t,th') ∧
    (¬ AfterTernary th → Step (shape th) (shape th')) ∧
    (AfterTernary th → ∃ mid, Step (shape th) mid ∧ Wraps mid (shape th')) := by
  unfold attach
  cases head : th.head with
  | none =>
    have empty : th.tail = none := spine.both.mp head
    refine ⟨_,_,rfl,fun _ => ?_,?_⟩
    · rw [first_shape _ rfl]
      exact Step.addFirst head empty
    · rintro ⟨tail,at_,-⟩
      rw [empty] at at_
      cases at_
  | some root =>
    cases at_ : th.tail with
    | none => cases head.symm.trans (spine.both.mpr at_)
    | some tail =>
      have old : tail < th.pool.fresh := spine.near tail (Near.tail at_)
      have behind : AfterTernary th ↔ (th.pool.cells tail).type = .colon ∧ (ternary th.pool tail).isSome := by
        constructor
        · rintro ⟨other,same,rest⟩
          cases at_.symm.trans same
          exact rest
        · intro rest
          exact ⟨tail,at_,rest⟩
      dsimp only
      by_cases under : takes (th.pool.cells tail) = true
      · rw [if_pos under]
        refine ⟨_,_,rfl,fun _ => ?_,fun after => ?_⟩
        · rw [child_shape _ head old rfl]
          exact Step.addChild at_ (takes_leaf under)
        · exact absurd (behind.mp after).1 (takes_colon under)
      · rw [if_neg under]
        have shaped : shape ⟨(th.pool.alloc ⟨type,token,none,some tail,none,(th.pool.cells tail).parent⟩).setNext tail
            (some th.pool.fresh),some root,some th.pool.fresh,Function.update th.attrs th.pool.fresh []⟩ =
            (shape th).addSibling tail := sibling_shape _ head old rfl
        have added : Step (shape th) ((shape th).addSibling tail) := Step.addSibling at_
        refine ⟨_,_,rfl,?_⟩
        by_cases colon : (th.pool.cells tail).type = .colon
        · rw [if_pos colon]
          have prev := sibling_prev type token old
          have same := sibling_ternary type token spine at_ old
          cases found : ternary th.pool tail with
          | none =>
            rw [group_none rfl prev (same.trans found),shaped]
            refine ⟨fun _ => added,fun after => ?_⟩
            rw [behind,found] at after
            cases after.2
          | some first =>
            refine ⟨fun plain => absurd (behind.mpr ⟨colon,found ▸ rfl⟩) plain,fun _ => ?_⟩
            have wraps := group_wraps (shaped ▸ spine_step spine added) rfl prev (same.trans found)
            rw [shaped] at wraps
            exact ⟨_,added,wraps⟩
        · rw [if_neg colon,shaped]
          exact ⟨fun _ => added,fun after => absurd (behind.mp after).1 colon⟩

end

/-! ## A call -/

section
variable {th th' : Head} {call : Call} {p : Addr} {opener type : TokenType}

theorem up_step (some_ : parent th = some p) : Step (shape th) (shape (up th)) := by
  have shaped : shape (up th) = (shape th).climb p := by
    show State.mk _ _ _ (parent th) = _
    rw [some_]
    rfl
  obtain ⟨tail,at_,edge⟩ := Option.bind_eq_some_iff.mp some_
  rw [shaped]
  exact Step.climb at_ edge

theorem addNull_steps (spine : Spine (shape th)) (leaf : childless th) : ReflTransGen Step (shape th) (shape (addNull th)) := by
  unfold addNull
  cases at_ : th.tail with
  | none => exact .refl
  | some tail =>
    have old : tail < th.pool.fresh := spine.near tail (Near.tail at_)
    rw [childless,at_] at leaf
    have none_ : (th.pool.cells tail).child = none := Option.isNone_iff_eq_none.mp leaf
    have shaped : shape ⟨(th.pool.alloc ⟨.null,[],none,none,none,some tail⟩).setChild tail (some th.pool.fresh),th.head,some tail,
        Function.update th.attrs th.pool.fresh []⟩ = ((shape th).addChild tail).climb tail :=
      congrArg (fun s => State.climb s tail) (child_shape (Function.update th.attrs th.pool.fresh []) rfl old rfl)
    dsimp only
    rw [shaped]
    refine (ReflTransGen.single (Step.addChild at_ none_)).tail (Step.climb rfl ?_)
    rw [addChild_fresh]

theorem close_steps (spine : Spine (shape th)) (opener : TokenType) : ReflTransGen Step (shape th) (shape (close th opener)) := by
  unfold close
  by_cases inner : parentType th = some opener
  · rw [if_pos inner]
    obtain ⟨p,some_,-⟩ := Option.map_eq_some_iff.mp inner
    exact .single (up_step some_)
  · rw [if_neg inner]
    by_cases empty : tailType th = opener ∧ childless th
    · rw [if_pos empty]
      exact addNull_steps spine empty.2
    · rw [if_neg empty]

theorem settle_steps (spine : Spine (shape th)) (settled : settle th type = some th') :
    ReflTransGen Step (shape th) (shape th') := by
  cases type
  case closeParen =>
    cases settled
    exact close_steps spine _
  case closeBrace =>
    cases settled
    exact close_steps spine _
  case closeBracket =>
    cases settled
    exact close_steps spine _
  case dquote =>
    simp only [settle] at settled
    by_cases inner : parentType th = some .dquote
    · rw [if_pos inner] at settled
      cases settled
      obtain ⟨p,some_,-⟩ := Option.map_eq_some_iff.mp inner
      exact .single (up_step some_)
    · rw [if_neg inner] at settled
      split at settled
      · cases settled
        exact .refl
      · cases settled
  case space =>
    cases settled
    by_cases value : inValue th = true
    · rw [if_pos value]
      obtain ⟨p,some_,-⟩ := (Option.any_eq_true _ _).mp value
      exact .single (up_step some_)
    · rw [if_neg value]
  case comma =>
    simp only [settle] at settled
    split at settled
    · cases settled
      exact .refl
    · cases settled
  all_goals cases settled

theorem alone_ok {s : Text} {p : Nat} (start : p < s.length) (c : UInt8) : ∃ found, alone s p c = .ok found := by
  obtain ⟨a,read⟩ := char_ok (Nat.le_of_lt start)
  obtain ⟨b,next⟩ := char_ok (show p + 1 ≤ s.length from start)
  rw [alone,read,ok_bind]
  split
  · rw [next,ok_bind]
    exact ⟨_,rfl⟩
  · exact ⟨false,rfl⟩

/-- The first tests change a text at most. -/
theorem sign_keeps (th : Head) {s : Text} {p : Nat} (start : p < s.length) :
    sign th s p = .ok none ∨ ∃ th', sign th s p = .ok (some th') ∧ shape th' = shape th := by
  unfold sign
  cases th.tail with
  | none => exact .inl rfl
  | some tail =>
    obtain ⟨minus,read⟩ := alone_ok start 45
    obtain ⟨plus,read'⟩ := alone_ok start 43
    dsimp only
    rw [read,ok_bind,read',ok_bind]
    split
    · exact .inr ⟨_,rfl,setToken_shape _ _ _⟩
    split
    · exact .inr ⟨_,rfl,rfl⟩
    split
    · exact .inr ⟨_,rfl,setToken_shape _ _ _⟩
    split
    · exact .inr ⟨_,rfl,rfl⟩
    · exact .inl rfl

/-- A parameter is no sign. -/
theorem sign_param (th : Head) {s : Text} {p : Nat} {c : UInt8} (start : p < s.length) (next : char s (p + 1) = .ok c) (more : c ≠ 0) :
    sign th s p = .ok none := by
  have none_ : ∀ d, alone s p d = .ok false := by
    intro d
    obtain ⟨a,read⟩ := char_ok (Nat.le_of_lt start)
    rw [alone,read,ok_bind]
    split
    · rw [next,ok_bind,decide_eq_false more]
    · rfl
  unfold sign
  cases th.tail with
  | none => rfl
  | some tail =>
    dsimp only
    rw [none_,ok_bind,none_,ok_bind]
    simp

end

section
variable {th th' : Head} {call : Call}

theorem relink_fresh {back : Token → Option Addr} (set : Pool → Addr → Option Addr → Pool)
    (keeps : ∀ pool a link, (set pool a link).fresh = pool.fresh) (pool : Pool) (link : Option Addr) (old t : Addr) :
    (relink pool link back set old t).fresh = pool.fresh := by
  unfold relink
  cases link with
  | none => rfl
  | some a =>
    dsimp only
    split
    · exact keeps pool a _
    · rfl

/-- The token that is merged is one of the pool. -/
theorem tokenMerge_frees (spine : Spine (shape th)) (comparison : tailType th = .comparison) (p : Text) (type : TokenType) :
    tokenMerge th p type = .error .free := by
  unfold tokenMerge
  cases at_ : th.tail with
  | none =>
    rw [tailType,at_] at comparison
    cases comparison
  | some tail =>
    have old : tail < th.pool.fresh := spine.near tail (Near.tail at_)
    dsimp only
    rw [free,relink_fresh Pool.setPrev (fun _ _ _ => rfl),relink_fresh Pool.setNext (fun _ _ _ => rfl),
      relink_fresh Pool.setParent (fun _ _ _ => rfl),relink_fresh Pool.setChild (fun _ _ _ => rfl)]
    exact congrArg (fun freed : Except Fault Unit => freed >>= _) (if_pos (Nat.lt_succ_of_lt old))

theorem emit_merges (spine : Spine (shape th)) (legal : Legal call) (merges : Merges th call) : emit th call = .error .free := by
  obtain ⟨signed,kind,comparison⟩ := merges
  obtain ⟨token,copied⟩ := copy_ok legal.inside
  rw [emit,tokenInit,signed,ok_bind]
  dsimp only
  rw [if_pos ⟨kind,comparison⟩,copied,ok_bind,tokenMerge_frees spine comparison,error_bind,error_bind]

/-- A call that comes to the end of `__token_init`. -/
theorem emit_attaches (spine : Spine (shape th)) (legal : Legal call) (signed : sign th call.s call.p = .ok none)
    (apart : ¬ (call.type = .comparison ∧ tailType th = .comparison)) (unsettled : settle th call.type = none) :
    ∃ th', emit th call = .ok th' ∧ (¬ AfterTernary th → Step (shape th) (shape th')) ∧
      (AfterTernary th → ∃ mid, Step (shape th) mid ∧ Wraps mid (shape th')) := by
  obtain ⟨token,copied⟩ := copy_ok legal.inside
  obtain ⟨t,th',attached,plain,after⟩ := attach_made spine token call.type
  rw [emit,tokenInit,signed,ok_bind]
  dsimp only
  rw [if_neg apart,unsettled]
  dsimp only
  rw [copied,ok_bind,attached,ok_bind]
  dsimp only
  by_cases none_ : call.attrs = []
  · rw [if_pos none_]
    exact ⟨th',rfl,plain,after⟩
  · rw [if_neg none_]
    exact ⟨_,rfl,plain,after⟩

theorem emit_groups (spine : Spine (shape th)) (legal : Legal call) (groups : Groups th call) :
    ∃ th' mid, emit th call = .ok th' ∧ Step (shape th) mid ∧ Wraps mid (shape th') := by
  obtain ⟨signed,unsettled,after⟩ := groups
  have apart : ¬ (call.type = .comparison ∧ tailType th = .comparison) := by
    rintro ⟨-,comparison⟩
    obtain ⟨tail,at_,colon,-⟩ := after
    rw [tailType,at_] at comparison
    cases colon.symm.trans comparison
  obtain ⟨th',emitted,-,wraps⟩ := emit_attaches spine legal signed apart unsettled
  obtain ⟨mid,step,wrap⟩ := wraps after
  exact ⟨th',mid,emitted,step,wrap⟩

/-- Every other call builds on the forest. -/
theorem emit_clean (spine : Spine (shape th)) (legal : Legal call) (clean : Clean th call) :
    ∃ th', emit th call = .ok th' ∧ ReflTransGen Step (shape th) (shape th') := by
  have bare : (∃ c, char call.s (call.p + 1) = .ok c ∧ c ≠ 0) → sign th call.s call.p = .ok none := by
    rintro ⟨c,next,more⟩
    exact sign_param th legal.start next more
  rcases sign_keeps th legal.start with signed | ⟨th',signed,same⟩
  · have apart : ¬ (call.type = .comparison ∧ tailType th = .comparison) := fun both => clean.1 ⟨signed,both⟩
    cases settled : settle th call.type with
    | none =>
      obtain ⟨th',emitted,step,-⟩ := emit_attaches spine legal signed apart settled
      exact ⟨th',emitted,.single (step fun after => clean.2 ⟨signed,settled,after⟩)⟩
    | some th' =>
      have none_ : call.attrs = [] := by
        by_contra attrs
        rw [(legal.param attrs).1] at settled
        cases settled
      refine ⟨th',?_,settle_steps spine settled⟩
      rw [emit,tokenInit,signed,ok_bind]
      dsimp only
      rw [if_neg apart,settled]
      dsimp only
      rw [ok_bind]
      exact if_pos none_
  · have none_ : call.attrs = [] := by
      by_contra attrs
      cases signed.symm.trans (bare (legal.param attrs).2)
    refine ⟨th',?_,same ▸ .refl⟩
    rw [emit,tokenInit,signed,ok_bind]
    dsimp only
    rw [ok_bind]
    exact if_pos none_

end

/-! ## Runs -/

section
variable {th th' : Head} {call : Call} {calls : List Call} {text : Text} {s fuel : Nat} {tokenStart : Option Nat}

theorem climbs_ends (spine : Spine (shape th)) {t : Addr} (type : TokenType) (near : Near (shape th) t) (turns : t < fuel) :
    ∃ found, climbs th.pool type fuel t = .ok found := by
  induction fuel generalizing t with
  | zero => cases turns
  | succ fuel ih =>
    rw [climbs]
    cases edge : (th.pool.cells t).parent with
    | none => exact ⟨false,rfl⟩
    | some p =>
      dsimp only
      have lower : p < t := spine.parent t p near edge
      split
      · exact ⟨true,rfl⟩
      · exact ih (near.parent edge) (Nat.lt_of_lt_of_le lower (Nat.le_of_lt_succ turns))

theorem hasParent_ends (spine : Spine (shape th)) (type : TokenType) : ∃ found, hasParent th type = .ok found := by
  unfold hasParent
  cases at_ : th.tail with
  | none => exact ⟨false,rfl⟩
  | some t =>
    dsimp only
    split
    · exact ⟨true,rfl⟩
    · exact climbs_ends spine type (Near.tail at_) (Nat.lt_succ_of_lt (spine.near t (Near.tail at_)))

/-- The tokens so far are a forest. -/
structure Sound (th : Head) : Prop where
  spine : Spine (shape th)
  linked : Linked (shape th)

/-- They are none, and never will be. -/
structure Spoiled (th : Head) : Prop where
  spine : Spine (shape th)
  torn : Torn (shape th)

def Holds (made : Except Fault Head) : Prop := ∃ th, made = .ok th ∧ Sound th

def Fails (made : Except Fault Head) : Prop := made = .error .free ∨ ∃ th, made = .ok th ∧ Spoiled th

theorem emit_sound (sound : Sound th) (legal : Legal call) (clean : Clean th call) : Holds (emit th call) := by
  obtain ⟨th',emitted,steps⟩ := emit_clean sound.spine legal clean
  exact ⟨th',emitted,spine_steps sound.spine steps,linked_steps sound.spine sound.linked steps⟩

theorem emit_spoiled (spoiled : Spoiled th) (legal : Legal call) : Fails (emit th call) := by
  by_cases merges : Merges th call
  · exact .inl (emit_merges spoiled.spine legal merges)
  by_cases groups : Groups th call
  · obtain ⟨th',mid,emitted,step,wraps⟩ := emit_groups spoiled.spine legal groups
    have spine := spine_step spoiled.spine step
    exact .inr ⟨th',emitted,spine_wraps spine wraps,torn_wraps spine (torn_step spoiled.spine spoiled.torn step) wraps⟩
  · obtain ⟨th',emitted,steps⟩ := emit_clean spoiled.spine legal ⟨merges,groups⟩
    exact .inr ⟨th',emitted,spine_steps spoiled.spine steps,torn_steps spoiled.spine spoiled.torn steps⟩

theorem emit_spoils (sound : Sound th) (legal : Legal call) (unclean : ¬ Clean th call) : Fails (emit th call) := by
  by_cases merges : Merges th call
  · exact .inl (emit_merges sound.spine legal merges)
  have groups : Groups th call := by
    by_contra plain
    exact unclean ⟨merges,plain⟩
  obtain ⟨th',mid,emitted,step,wraps⟩ := emit_groups sound.spine legal groups
  have spine := spine_step sound.spine step
  exact .inr ⟨th',emitted,spine_wraps spine wraps,wraps_torn spine (linked_step sound.spine sound.linked step) wraps⟩

/-- No call finds one of the two branches. -/
def AllClean (steps : List (Head × Call)) : Prop := ∀ step ∈ steps, Clean step.1 step.2

theorem made_cons (emitted : emit th call = .ok th') : made th (call :: calls) = (th,call) :: made th' calls := by
  rw [made,emitted]

theorem made_sound (sound : Sound th) (legal : ∀ call ∈ calls, Legal call) (clean : AllClean (made th calls)) :
    Holds (calls.foldlM emit th) := by
  induction calls generalizing th with
  | nil => exact ⟨th,rfl,sound⟩
  | cons call calls ih =>
    obtain ⟨first,rest⟩ := List.forall_mem_cons.mp legal
    obtain ⟨th',emitted,sound'⟩ := emit_sound sound first (clean (th,call) (List.mem_cons_self ..))
    rw [AllClean,made_cons emitted] at clean
    rw [List.foldlM_cons,emitted,ok_bind]
    exact ih sound' rest (List.forall_mem_cons.mp clean).2

theorem made_spoiled (spoiled : Spoiled th) (legal : ∀ call ∈ calls, Legal call) : Fails (calls.foldlM emit th) := by
  induction calls generalizing th with
  | nil => exact .inr ⟨th,rfl,spoiled⟩
  | cons call calls ih =>
    obtain ⟨first,rest⟩ := List.forall_mem_cons.mp legal
    rw [List.foldlM_cons]
    rcases emit_spoiled spoiled first with freed | ⟨th',emitted,spoiled'⟩
    · rw [freed]
      exact .inl rfl
    · rw [emitted,ok_bind]
      exact ih spoiled' rest

theorem made_spoils (sound : Sound th) (legal : ∀ call ∈ calls, Legal call) (unclean : ¬ AllClean (made th calls)) :
    Fails (calls.foldlM emit th) := by
  induction calls generalizing th with
  | nil => exact absurd (fun step member => nomatch member) unclean
  | cons call calls ih =>
    obtain ⟨first,rest⟩ := List.forall_mem_cons.mp legal
    rw [List.foldlM_cons]
    by_cases clean : Clean th call
    · obtain ⟨th',emitted,sound'⟩ := emit_sound sound first clean
      rw [emitted,ok_bind]
      refine ih sound' rest fun later => unclean ?_
      rw [AllClean,made_cons emitted]
      exact List.forall_mem_cons.mpr ⟨clean,later⟩
    · rcases emit_spoils sound first clean with freed | ⟨th',emitted,spoiled⟩
      · rw [freed]
        exact .inl rfl
      · rw [emitted,ok_bind]
        exact made_spoiled spoiled rest

theorem fails_bind {made : Except Fault Head} {rest : Head → Except Fault Head} (fails : Fails made)
    (later : ∀ th, Spoiled th → Fails (rest th)) : Fails (made >>= rest) := by
  rcases fails with freed | ⟨th,emitted,spoiled⟩
  · rw [freed]
    exact .inl rfl
  · rw [emitted]
    exact later th spoiled

theorem scan_spoiled (spoiled : Spoiled th) (stand : Stand text s tokenStart) (turns : text.length < s + fuel) :
    Fails (scan text fuel th s tokenStart) := by
  induction fuel generalizing th s tokenStart with
  | zero =>
    have := stand.inside
    omega
  | succ fuel ih =>
    obtain ⟨c,read⟩ := char_ok stand.inside
    rw [scan,read,ok_bind]
    by_cases ends : c = 0
    · rw [if_pos ends]
      exact made_spoiled spoiled (pending_legal stand)
    · rw [if_neg ends]
      obtain ⟨calls,s',tokenStart',turned,later,stand',legal⟩ := turn_reads stand read ends (hasParent_ends spoiled.spine)
      rw [turned,ok_bind]
      refine fails_bind (made_spoiled spoiled legal) fun th' spoiled' => ih spoiled' stand' ?_
      omega

/-- How the trace of a run goes on. -/
theorem trace_turn {c : UInt8} {s' : Nat} {tokenStart' : Option Nat} (read : char text s = .ok c) (more : c ≠ 0)
    (turned : turn text th s tokenStart = .ok (calls,s',tokenStart')) (emitted : calls.foldlM emit th = .ok th') :
    trace text (fuel + 1) th s tokenStart = made th calls ++ trace text fuel th' s' tokenStart' := by
  rw [trace,read]
  dsimp only
  rw [if_neg more,turned]
  dsimp only
  rw [emitted]

theorem scan_sound (sound : Sound th) (stand : Stand text s tokenStart) (turns : text.length < s + fuel)
    (clean : AllClean (trace text fuel th s tokenStart)) : Holds (scan text fuel th s tokenStart) := by
  induction fuel generalizing th s tokenStart with
  | zero =>
    have := stand.inside
    omega
  | succ fuel ih =>
    obtain ⟨c,read⟩ := char_ok stand.inside
    rw [scan,read,ok_bind]
    by_cases ends : c = 0
    · rw [if_pos ends]
      rw [trace,read] at clean
      dsimp only at clean
      rw [if_pos ends] at clean
      exact made_sound sound (pending_legal stand) clean
    · rw [if_neg ends]
      obtain ⟨calls,s',tokenStart',turned,later,stand',legal⟩ := turn_reads stand read ends (hasParent_ends sound.spine)
      have first : AllClean (made th calls) := by
        intro step member
        refine clean step ?_
        rw [trace,read]
        dsimp only
        rw [if_neg ends,turned]
        exact List.mem_append_left _ member
      obtain ⟨th',emitted,sound'⟩ := made_sound sound legal first
      rw [turned,ok_bind]
      dsimp only
      rw [emitted,ok_bind]
      rw [trace_turn read ends turned emitted] at clean
      exact ih sound' stand' (by omega) fun step member => clean step (List.mem_append_right _ member)

theorem scan_spoils (sound : Sound th) (stand : Stand text s tokenStart) (turns : text.length < s + fuel)
    (unclean : ¬ AllClean (trace text fuel th s tokenStart)) : Fails (scan text fuel th s tokenStart) := by
  induction fuel generalizing th s tokenStart with
  | zero =>
    have := stand.inside
    omega
  | succ fuel ih =>
    obtain ⟨c,read⟩ := char_ok stand.inside
    rw [scan,read,ok_bind]
    by_cases ends : c = 0
    · rw [if_pos ends]
      rw [trace,read] at unclean
      dsimp only at unclean
      rw [if_pos ends] at unclean
      exact made_spoils sound (pending_legal stand) unclean
    · rw [if_neg ends]
      obtain ⟨calls,s',tokenStart',turned,later,stand',legal⟩ := turn_reads stand read ends (hasParent_ends sound.spine)
      rw [turned,ok_bind]
      dsimp only
      by_cases first : AllClean (made th calls)
      · obtain ⟨th',emitted,sound'⟩ := made_sound sound legal first
        rw [emitted,ok_bind]
        refine ih sound' stand' (by omega) fun clean => unclean ?_
        rw [trace_turn read ends turned emitted]
        intro step member
        exact (List.mem_append.mp member).elim (first step) (clean step)
      · refine fails_bind (made_spoils sound legal first) fun th' spoiled => scan_spoiled spoiled stand' ?_
        omega

end

/-! ## The whole text -/

section
variable (text : Text)

theorem initial_sound : Sound initial := ⟨spine_empty _,linked_empty _⟩

theorem initial_stand : Stand text 0 none := ⟨Nat.zero_le _,nofun⟩

/-- The scanner returns, and what is reached from the head is a forest. -/
def Builds (text : Text) : Prop :=
  ∃ th, parseExpression text = .ok th ∧ ∀ root, th.head = some root → Forest (shape th) root

/-- Whatever the text is, the scanner ends, reads nothing behind the terminator and follows no null pointer: the
    one thing that it may do is to free a token of the pool. -/
theorem parseExpression_ends : (∃ th, parseExpression text = .ok th) ∨ parseExpression text = .error .free := by
  by_cases clean : AllClean (callsOf text)
  · obtain ⟨th,parsed,-⟩ := scan_sound initial_sound (initial_stand text) (by omega) clean
    exact .inl ⟨th,parsed⟩
  · rcases scan_spoils initial_sound (initial_stand text) (by omega) clean with freed | ⟨th,parsed,-⟩
    · exact .inr freed
    · exact .inl ⟨th,parsed⟩

/-- The tokens are a forest exactly where no comparison is merged and no ternary is grouped. -/
theorem forest_iff : Builds text ↔ ∀ step ∈ callsOf text, ¬ Merges step.1 step.2 ∧ ¬ Groups step.1 step.2 := by
  constructor
  · rintro ⟨th,parsed,forest⟩
    by_contra unclean
    rcases scan_spoils initial_sound (initial_stand text) (by omega) unclean with freed | ⟨th',parsed',spoiled⟩
    · cases parsed.symm.trans freed
    · cases parsed.symm.trans parsed'
      obtain ⟨root,head,broken⟩ := spoiled.torn.not_forest
      exact broken (forest root head)
  · intro clean
    obtain ⟨th,parsed,sound⟩ := scan_sound initial_sound (initial_stand text) (by omega) clean
    exact ⟨th,parsed,fun root head => sound.linked.forest sound.spine head⟩

end

/-- `a > b ? c : d`: the new parenthesis is the parent of `a`, and not of the `>` behind it. -/
example : (parseExpression [97,32,62,32,98,32,63,32,99,32,58,32,100]).toOption.map (fun th =>
    (th.head,(th.pool.cells 0).next,(th.pool.cells 0).parent,(th.pool.cells 1).parent)) = some (some 0,some 1,some 7,none) := by
  decide +kernel

/-- `>=`. -/
theorem merge_frees : ¬ Builds [62,61] := by
  rintro ⟨th,parsed,-⟩
  have freed : parseExpression [62,61] = .error .free := by rfl
  cases parsed.symm.trans freed

end AnotherC.Lexer
