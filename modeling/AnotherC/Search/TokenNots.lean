import Mathlib.Data.List.Flatten
import Mathlib.Data.List.Perm.Subperm
import AnotherC.Search.TokenReading

/-!
`fix_nots` on siblings that `fix_ors` has left: where the `not`s are fine, the
operands that are not negated hold and the negated ones do not
(`nots_denotes`); elsewhere a `not` stays among the words (`nots_stays`).
-/
namespace AnotherC.Tokens
open AnotherC.Lib.Text (Text)
set_option linter.unusedVariables false

/-! ## Reading a tree -/

theorem denoteEach_eq (holds : Addr → Bool) (ts : List Tree) :
    Tree.denoteEach holds ts = ts.map (Tree.denote holds) := by
  induction ts with
  | nil => rfl
  | cons t ts ih => rw [Tree.denoteEach,ih,List.map_cons]

section
variable (holds : Addr → Bool) (a : Addr) (token : Text) {child : List Tree}

theorem denote_group (nonempty : child ≠ []) :
    (Tree.node a .openParen token child).denote holds = child.all (Tree.denote holds) := by
  rw [Tree.denote,if_neg (by simpa using nonempty),denoteEach_eq]
  simp

theorem denote_or (nonempty : child ≠ []) :
    (Tree.node a .or token child).denote holds = child.any (Tree.denote holds) := by
  rw [Tree.denote,if_neg (by simpa using nonempty),denoteEach_eq]
  simp

theorem denote_not (neg pos : Tree) :
    (Tree.node a .not token [neg,pos]).denote holds = (pos.denote holds && !neg.denote holds) := by
  simp [Tree.denote,denoteEach_eq]

end

theorem leavesEach_eq (ts : List Tree) : Tree.leavesEach ts = ts.flatMap Tree.leaves := by
  induction ts with
  | nil => rfl
  | cons t ts ih => rw [Tree.leavesEach,ih,List.flatMap_cons]

theorem leavesEach_append (ts us : List Tree) :
    Tree.leavesEach (ts ++ us) = Tree.leavesEach ts ++ Tree.leavesEach us := by
  simp [leavesEach_eq]

theorem leaves_leaf {t : Tree} (leaf : t.child = []) : t.leaves = [t] := by
  cases t with
  | node a type token child =>
    obtain rfl : child = [] := leaf
    rfl

theorem leaves_node {a : Addr} {type : TokenType} {token : Text} {child : List Tree} (nonempty : child ≠ []) :
    (Tree.node a type token child).leaves = Tree.leavesEach child := by
  rw [Tree.leaves,if_neg (by simpa using nonempty)]

theorem mem_leavesEach {ts : List Tree} {x : Tree} : x ∈ Tree.leavesEach ts ↔ ∃ t ∈ ts, x ∈ t.leaves := by
  rw [leavesEach_eq,List.mem_flatMap]

/-! ## Sorting the siblings -/

/-- The operands that are not negated, and the ones that are. -/
def positives (seg : List Tree) : List Tree := ((signed seg).filter fun s => !s.1).map Prod.snd
def negatives (seg : List Tree) : List Tree := ((signed seg).filter fun s => s.1).map Prod.snd

theorem segmentReads_sorted (holds : Addr → Bool) (seg : List Tree) : segmentReads holds seg =
    ((positives seg).all (Tree.reading holds) && !(negatives seg).any (Tree.reading holds)) := by
  rw [segmentReads,positives,negatives]
  induction signed seg with
  | nil => rfl
  | cons s rest ih =>
    obtain ⟨negated,t⟩ := s
    rw [List.all_cons,ih]
    cases negated with
    | false => simp [Bool.and_assoc]
    | true =>
      simp only [List.filter_cons,Bool.not_true,if_true,if_false,List.map_cons,List.any_cons,Bool.not_or,
        Bool.bne_true,Bool.false_eq_true]
      cases t.reading holds <;> simp

theorem Segment.positives_nonempty {seg : List Tree} (segment : Segment seg) : positives seg ≠ [] := by
  obtain ⟨t,member⟩ := segment.positive
  have inside : t ∈ positives seg := List.mem_map.mpr ⟨(false,t),List.mem_filter.mpr ⟨member,rfl⟩,rfl⟩
  exact List.ne_nil_of_mem inside

/-- A tree as `fix_ors` leaves it, however the operators stand. -/
inductive Formed : Tree → Prop
  | leaf (a : Addr) (type : TokenType) (token : Text) : Formed (.node a type token [])
  | group (a : Addr) (token : Text) {child : List Tree} (nonempty : child ≠ []) (each : ∀ t ∈ child, Formed t) :
    Formed (.node a .openParen token child)
  | either (a : Addr) (token : Text) {child : List Tree} (nonempty : child ≠ []) (each : ∀ t ∈ child, Formed t) :
    Formed (.node a .or token child)

theorem formed_isNot {t : Tree} (formed : Formed t) : t.isNot = (t.mark ()).isNot := by
  rw [Tree.mark_isNot]
  cases formed with
  | leaf => simp [Tree.child]
  | group => simp [Tree.isNot,isNot]
  | either => simp [Tree.isNot,isNot]

theorem Lifted.formed {t : Tree} (lifted : Lifted t) : Formed t := by
  induction lifted with
  | leaf => exact .leaf ..
  | group a token segment each ih => exact .group a token segment.nonempty ih
  | either a token nonempty operands each ih => exact .either a token nonempty ih

/-- What may stand in a segment: every token is a `not` or an operand. -/
theorem operand_of_plain {t : Tree} (plain : orMark t = false) (other : (t.mark ()).isNot = false) :
    t.operand = true := by
  rw [orMark] at plain
  simp [Tree.operand,plain,other]

section
variable {ts : List Tree}

/-- `ts` is or-free, and a `not` among its tokens has no children. -/
structure Sorts (ts : List Tree) : Prop where
  plain : ∀ t ∈ ts, orMark t = false
  negation : ∀ t ∈ ts, t.isNot = (t.mark ()).isNot

theorem Sorts.tail {t : Tree} (sorts : Sorts (t :: ts)) : Sorts ts :=
  ⟨fun u member => sorts.plain u (by simp [member]),fun u member => sorts.negation u (by simp [member])⟩

theorem doubled_tail {t : Tree} (single : doubled (kinds (t :: ts)) = false) : doubled (kinds ts) = false := by
  cases ts with
  | nil => rfl
  | cons u us =>
    simp only [kinds_cons,doubled,Bool.or_eq_false_iff] at single
    exact single.2

theorem sortNots_pair {t : Tree} (negation : t.isNot = true) (u : Tree) (us : List Tree) :
    sortNots (t :: u :: us) = (u :: (sortNots us).1,(sortNots us).2) := if_pos negation

theorem sortNots_last {t : Tree} (negation : t.isNot = true) : sortNots [t] = ([],[]) := if_pos negation

theorem sortNots_other {t : Tree} (other : t.isNot = false) (us : List Tree) :
    sortNots (t :: us) = ((sortNots us).1,t :: (sortNots us).2) := by
  cases us <;> exact if_neg (by rw [other]; simp)

/-- Where no `not` follows another, the loop finds the signs. -/
theorem sortNots_eq (sorts : Sorts ts) (single : doubled (kinds ts) = false) :
    sortNots ts = (negatives ts,positives ts) := by
  induction ts using sortNots.induct with
  | case1 => rfl
  | case2 t negation =>
    rw [sortNots_last negation,negatives,positives,
      signed_last ((sorts.negation t (by simp)).symm.trans negation)]
    rfl
  | case3 t negation u us ih =>
    have first : (t.mark ()).isNot = true := (sorts.negation t (by simp)).symm.trans negation
    have second : (u.mark ()).isNot = false := by
      simp only [kinds_cons,doubled,Bool.or_eq_false_iff,first,Bool.true_and] at single
      exact single.1
    have item := operand_of_plain (sorts.plain u (by simp)) second
    rw [sortNots_pair negation,ih sorts.tail.tail (doubled_tail (doubled_tail single)),negatives,positives,
      negatives,positives,signed_pair first item]
    rfl
  | case4 t us other ih =>
    have first : (t.mark ()).isNot = false :=
      (sorts.negation t (by simp)).symm.trans (by simpa using other)
    have item := operand_of_plain (sorts.plain t (by simp)) first
    rw [sortNots_other (by simpa using other),ih sorts.tail (doubled_tail single),negatives,positives,negatives,positives,
      signed_item item]
    rfl

theorem sortNots_member {x : Tree} (member : x ∈ (sortNots ts).1 ∨ x ∈ (sortNots ts).2) : x ∈ ts := by
  induction ts using sortNots.induct with
  | case1 => simp [sortNots] at member
  | case2 t negation => simp [sortNots,negation] at member
  | case3 t negation u us ih =>
    rw [sortNots_pair negation] at member
    simp only [List.mem_cons] at member ⊢
    rcases member with (rfl | member) | member
    · simp
    · exact .inr (.inr (ih (.inl member)))
    · exact .inr (.inr (ih (.inr member)))
  | case4 t us other ih =>
    rw [sortNots_other (by simpa using other)] at member
    simp only [List.mem_cons] at member ⊢
    rcases member with member | rfl | member
    · exact .inr (ih (.inl member))
    · exact .inl rfl
    · exact .inr (ih (.inr member))

/-- Two `not`s in a row leave one of them among the negated. -/
theorem sortNots_doubled (sorts : Sorts ts) (twice : doubled (kinds ts) = true) :
    ∃ t ∈ (sortNots ts).1, (t.mark ()).isNot = true := by
  induction ts using sortNots.induct with
  | case1 => simp [kinds,doubled] at twice
  | case2 t negation => simp [kinds,doubled] at twice
  | case3 t negation u us ih =>
    rw [sortNots_pair negation]
    cases second : (u.mark ()).isNot with
    | true => exact ⟨u,by simp,second⟩
    | false =>
      have inner : doubled (kinds us) = true := by
        cases us with
        | nil => simp [kinds,doubled,second] at twice
        | cons v vs => simpa [kinds_cons,doubled,second] using twice
      obtain ⟨v,member,negation⟩ := ih sorts.tail.tail inner
      exact ⟨v,by simp [member],negation⟩
  | case4 t us other ih =>
    have first : (t.mark ()).isNot = false :=
      (sorts.negation t (by simp)).symm.trans (by simpa using other)
    have inner : doubled (kinds us) = true := by
      cases us with
      | nil => simp [kinds,doubled] at twice
      | cons u us => simpa [kinds_cons,doubled,first] using twice
    rw [sortNots_other (by simpa using other)]
    exact ih sorts.tail inner

end

/-! ## The first loop -/

/-- A token and what `fix_nots` makes of it, up to the new addresses. -/
def Turned (t u : Tree) : Prop := ∃ n, u = (t.nots n).2

theorem nots_isNot (t : Tree) (n : Addr) : (t.nots n).2.isNot = t.isNot := by
  cases t with
  | node a type token child =>
    rw [Tree.nots]
    split <;> rfl

theorem nots_leaf {t : Tree} (leaf : t.child = []) (n : Addr) : t.nots n = (n,t) := by
  cases t with
  | node a type token child =>
    obtain rfl : child = [] := leaf
    rfl

theorem nots_node {a : Addr} {type : TokenType} {token : Text} {child : List Tree} (nonempty : child ≠ [])
    (other : type ≠ .dquote) (n : Addr) :
    (Tree.node a type token child).nots n = ((nots n child).1,.node a type token (nots n child).2) := by
  rw [Tree.nots,if_neg (by simp [nonempty,other])]
  rfl

theorem notsEach_pair (n : Addr) {t : Tree} (negation : t.isNot = true) (u : Tree) (us : List Tree) :
    notsEach n (t :: u :: us) = ((notsEach (t.nots n).1 us).1,(t.nots n).2 :: u :: (notsEach (t.nots n).1 us).2) :=
  if_pos negation

theorem notsEach_last (n : Addr) {t : Tree} (negation : t.isNot = true) :
    notsEach n [t] = ((t.nots n).1,[(t.nots n).2]) := if_pos negation

theorem notsEach_other (n : Addr) {t : Tree} (other : t.isNot = false) (us : List Tree) :
    notsEach n (t :: us) = ((notsEach (t.nots n).1 us).1,(t.nots n).2 :: (notsEach (t.nots n).1 us).2) := by
  cases us <;> exact if_neg (by rw [other]; simp)

/-- The negated operands are as before, the others have been turned. -/
theorem sortNots_notsEach (n : Addr) (ts : List Tree) : (sortNots (notsEach n ts).2).1 = (sortNots ts).1 ∧
    List.Forall₂ Turned (sortNots ts).2 (sortNots (notsEach n ts).2).2 := by
  induction ts using sortNots.induct generalizing n with
  | case1 => exact ⟨rfl,.nil⟩
  | case2 t negation =>
    rw [notsEach_last n negation,sortNots_last negation,sortNots_last ((nots_isNot t n).trans negation)]
    exact ⟨rfl,.nil⟩
  | case3 t negation u us ih =>
    rw [notsEach_pair n negation,sortNots_pair negation,sortNots_pair ((nots_isNot t n).trans negation)]
    obtain ⟨same,turned⟩ := ih (t.nots n).1
    exact ⟨by rw [same],turned⟩
  | case4 t us other ih =>
    have other : t.isNot = false := by simpa using other
    rw [notsEach_other n other,sortNots_other other,sortNots_other ((nots_isNot t n).trans other)]
    obtain ⟨same,turned⟩ := ih (t.nots n).1
    exact ⟨same,.cons ⟨n,rfl⟩ turned⟩

theorem sortNots_others (n : Addr) {ts : List Tree} (others : ∀ t ∈ ts, t.isNot = false) :
    sortNots (notsEach n ts).2 = ([],(notsEach n ts).2) := by
  induction ts generalizing n with
  | nil => rfl
  | cons t ts ih =>
    have first := others t (by simp)
    rw [notsEach_other n first,sortNots_other ((nots_isNot t n).trans first),
      ih _ fun u member => others u (by simp [member])]

theorem notsEach_leaf (n : Addr) {ts : List Tree} {t : Tree} (member : t ∈ ts) (leaf : t.child = []) :
    t ∈ (notsEach n ts).2 := by
  induction ts using sortNots.induct generalizing n with
  | case1 => cases member
  | case2 u negation =>
    obtain rfl := List.mem_singleton.mp member
    rw [notsEach_last n negation,nots_leaf leaf]
    simp
  | case3 u negation v vs ih =>
    rw [notsEach_pair n negation]
    rcases List.mem_cons.mp member with rfl | member
    · rw [nots_leaf leaf]
      simp
    · rcases List.mem_cons.mp member with rfl | member
      · simp
      · simp [ih _ member]
  | case4 u us other ih =>
    rw [notsEach_other n (by simpa using other)]
    rcases List.mem_cons.mp member with rfl | member
    · rw [nots_leaf leaf]
      simp
    · simp [ih _ member]

theorem notsEach_length (n : Addr) (ts : List Tree) : (notsEach n ts).2.length = ts.length := by
  induction ts using sortNots.induct generalizing n with
  | case1 => rfl
  | case2 t negation => rw [notsEach_last n negation]; rfl
  | case3 t negation u us ih => simp [notsEach_pair n negation,ih]
  | case4 t us other ih => simp [notsEach_other n (t := t) (by simpa using other),ih]

/-! ## Siblings whose `not`s are fine -/

section
variable {ts : List Tree}

theorem Segment.sorts (segment : Segment ts) (lifted : ∀ t ∈ ts, Lifted t) : Sorts ts :=
  ⟨segment.plain,fun t member => formed_isNot (lifted t member).formed⟩

theorem signed_operands (operands : ∀ t ∈ ts, t.operand = true) : signed ts = ts.map fun t => (false,t) := by
  induction ts with
  | nil => rfl
  | cons t ts ih =>
    rw [signed_item (operands t (by simp)),ih fun u member => operands u (by simp [member])]
    rfl

theorem positives_operands (operands : ∀ t ∈ ts, t.operand = true) : positives ts = ts ∧ negatives ts = [] := by
  rw [positives,negatives,signed_operands operands]
  constructor
  · induction ts with
    | nil => rfl
    | cons t ts ih => simpa using ih fun u member => operands u (by simp [member])
  · simp [List.filter_map]

theorem operands_of_quiet (plain : ∀ t ∈ ts, orMark t = false) (quiet : (kinds ts).any Piece.isNot = false) :
    ∀ t ∈ ts, t.operand = true := by
  intro t member
  refine operand_of_plain (plain t member) ?_
  simpa using List.any_eq_false.mp quiet (t.mark ()) (List.mem_map.mpr ⟨t,member,rfl⟩)

/-- A `not` that dangles where none is negated is not fine. -/
theorem operands_of_fine (sorts : Sorts ts) (single : doubled (kinds ts) = false)
    (ends : (kinds ts).getLast?.any Piece.isNot = false) (none : negatives ts = []) :
    ∀ t ∈ ts, t.operand = true := by
  induction ts using sortNots.induct with
  | case1 => exact nofun
  | case2 t negation =>
    have first : (t.mark ()).isNot = true := (sorts.negation t (by simp)).symm.trans negation
    simp [kinds,first] at ends
  | case3 t negation u us ih =>
    have first : (t.mark ()).isNot = true := (sorts.negation t (by simp)).symm.trans negation
    have second : (u.mark ()).isNot = false := by
      simp only [kinds_cons,doubled,Bool.or_eq_false_iff,first,Bool.true_and] at single
      exact single.1
    rw [negatives,signed_pair first (operand_of_plain (sorts.plain u (by simp)) second)] at none
    simp at none
  | case4 t us other ih =>
    have first : (t.mark ()).isNot = false :=
      (sorts.negation t (by simp)).symm.trans (by simpa using other)
    have item := operand_of_plain (sorts.plain t (by simp)) first
    intro u member
    rcases List.mem_cons.mp member with rfl | member
    · exact item
    · refine ih sorts.tail (doubled_tail single) ?_ ?_ u member
      · cases us with
        | nil => rfl
        | cons v vs => simpa [kinds_cons,List.getLast?_cons_cons] using ends
      · rw [negatives,signed_item item] at none
        simpa [negatives] using none

/-- What is below the operands is fine where it is fine below each. -/
theorem notsRegularEach_sorted (sorts : Sorts ts) (single : doubled (kinds ts) = false) (within : Bool) :
    Tree.notsRegularEach within false ts =
      ((positives ts).all (Tree.notsRegular within) && (negatives ts).all (Tree.notsRegular true)) := by
  induction ts using sortNots.induct with
  | case1 => rfl
  | case2 t negation =>
    have first : (t.mark ()).isNot = true := (sorts.negation t (by simp)).symm.trans negation
    simp [Tree.notsRegularEach,notsRegular_leaf (leaf_of_not first),positives,negatives,signed_last first]
  | case3 t negation u us ih =>
    have first : (t.mark ()).isNot = true := (sorts.negation t (by simp)).symm.trans negation
    have second : (u.mark ()).isNot = false := by
      simp only [kinds_cons,doubled,Bool.or_eq_false_iff,first,Bool.true_and] at single
      exact single.1
    have ih := ih sorts.tail.tail (doubled_tail (doubled_tail single))
    rw [Tree.notsRegularEach,Tree.notsRegularEach,notsRegular_leaf (leaf_of_not first),first,second,Bool.or_true,ih,
      positives,negatives,positives,negatives,signed_pair first (operand_of_plain (sorts.plain u (by simp)) second)]
    simp only [List.filter_cons,Bool.not_true,if_true,if_false,List.map_cons,List.all_cons,Bool.false_eq_true]
    cases u.notsRegular true <;> simp
  | case4 t us other ih =>
    have first : (t.mark ()).isNot = false :=
      (sorts.negation t (by simp)).symm.trans (by simpa using other)
    have ih := ih sorts.tail (doubled_tail single)
    rw [Tree.notsRegularEach,first,Bool.or_false,ih,positives,negatives,positives,negatives,
      signed_item (operand_of_plain (sorts.plain t (by simp)) first)]
    simp [Bool.and_assoc]

end

/-! ## The tree that stands for the siblings -/

theorem rootOf_wrapped (n : Addr) (type : TokenType) (token : Text) {ts : List Tree} (nonempty : ts ≠ []) :
    ∃ t, (rootOf n type token ts).2 = [t] ∧ Wrapped type token ts t := by
  match ts with
  | [t] => exact ⟨t,rfl,.single t⟩
  | t :: u :: us => exact ⟨_,rfl,.group n _⟩

section
variable {holds : Addr → Bool} {seg : List Tree} {t : Tree}

theorem Wrapped.denote_any (wrapped : Wrapped .or orText seg t) (nonempty : seg ≠ []) :
    t.denote holds = seg.any (Tree.denote holds) := by
  cases wrapped with
  | single => simp
  | group n => exact denote_or holds _ _ nonempty

theorem Wrapped.denote_all (wrapped : Wrapped .openParen parenText seg t) (nonempty : seg ≠ []) :
    t.denote holds = seg.all (Tree.denote holds) := by
  cases wrapped with
  | single => simp
  | group n => exact denote_group holds _ _ nonempty

theorem Wrapped.leaves {type : TokenType} {token : Text} (wrapped : Wrapped type token seg t) (nonempty : seg ≠ []) :
    t.leaves = Tree.leavesEach seg := by
  cases wrapped with
  | single => simp [Tree.leavesEach]
  | group n => exact leaves_node nonempty

end

/-- Two kinds of siblings: there is one token, an operand without the others. -/
theorem joinNots_both (n : Addr) {ts : List Tree} (some : (sortNots ts).1 ≠ []) (others : (sortNots ts).2 ≠ []) :
    ∃ m neg pos, (joinNots n ts).2 = [.node m .not notText [neg,pos]] ∧
      Wrapped .or orText (sortNots ts).1 neg ∧ Wrapped .openParen parenText (sortNots ts).2 pos := by
  obtain ⟨neg,left,negative⟩ := rootOf_wrapped n .or orText some
  obtain ⟨pos,right,positive⟩ := rootOf_wrapped (rootOf n .or orText (sortNots ts).1).1 .openParen parenText others
  refine ⟨(rootOf (rootOf n .or orText (sortNots ts).1).1 .openParen parenText (sortNots ts).2).1,neg,pos,?_,
    negative,positive⟩
  rw [joinNots,if_neg (by simp [some,others])]
  simp only [left,right]
  rfl

theorem joinNots_both_leaves (n : Addr) {ts : List Tree} (some : (sortNots ts).1 ≠ [])
    (others : (sortNots ts).2 ≠ []) : Tree.leavesEach (joinNots n ts).2 =
      Tree.leavesEach (sortNots ts).1 ++ Tree.leavesEach (sortNots ts).2 := by
  obtain ⟨m,neg,pos,result,left,right⟩ := joinNots_both n some others
  rw [result,Tree.leavesEach,Tree.leavesEach,List.append_nil,leaves_node (by simp),Tree.leavesEach,Tree.leavesEach,
    Tree.leavesEach,List.append_nil,left.leaves some,right.leaves others]

theorem joinNots_one (n : Addr) {ts : List Tree} (one : (sortNots ts).1 = [] ∨ (sortNots ts).2 = []) :
    joinNots n ts = (n,ts) := by
  rw [joinNots,if_pos]
  rcases one with one | one <;> simp [one]

/-- Below a negated operand nothing is turned, and nothing needs to be. -/
theorem quiet_denotes {t : Tree} (lifted : Lifted t) (quiet : t.notsRegular true = true) (holds : Addr → Bool) :
    t.denote holds = t.reading holds := by
  induction lifted with
  | leaf => rfl
  | group a token segment each ih =>
    rename_i child
    rw [notsRegular_node segment.nonempty,NotsRegular,notsFineWithin,Bool.and_eq_true] at quiet
    have operands := operands_of_quiet segment.plain (by simpa using quiet.1)
    have below : ∀ t ∈ child, t.notsRegular true = true := by
      have all := notsRegular_operands operands true
      rw [NotsRegular,notsFineWithin,quiet.1,quiet.2] at all
      exact List.all_eq_true.mp all.symm
    rw [denote_group holds _ _ segment.nonempty,Tree.reading,if_neg (by simpa using segment.nonempty),
      if_neg (by simp)]
    change _ = reads holds child
    rw [reads_segment segment.plain segment.nonempty,segmentReads_sorted,(positives_operands operands).1,
      (positives_operands operands).2,Bool.eq_iff_iff]
    simp only [List.all_eq_true,List.any_nil,Bool.not_false,Bool.and_true]
    exact forall_congr' fun t => forall_congr' fun member => by rw [ih t member (below t member)]
  | either a token nonempty operands each ih =>
    rename_i child
    rw [notsRegular_node nonempty,notsRegular_operands operands,List.all_eq_true] at quiet
    rw [denote_or holds _ _ nonempty,Tree.reading,if_neg (by simpa using nonempty),if_pos rfl,readEach_eq,
      List.any_map,Bool.eq_iff_iff]
    simp only [List.any_eq_true,Function.comp_apply]
    refine exists_congr fun t => and_congr_right fun member => ?_
    rw [Tree.mark_item (operands t member),ih t member (quiet t member)]
    rfl

section
variable {ts : List Tree}

/-- `fix_nots` gives siblings their reading, where it does so below each of them. -/
theorem Segment.denotes (segment : Segment ts) (lifted : ∀ t ∈ ts, Lifted t)
    (regular : NotsRegular false ts = true) (holds : Addr → Bool)
    (each : ∀ t ∈ ts, t.notsRegular false = true → ∀ n, (t.nots n).2.denote holds = t.reading holds) (n : Addr) :
    (nots n ts).2.all (Tree.denote holds) = reads holds ts := by
  have sorts := segment.sorts lifted
  rw [NotsRegular,notsFineWithin_segment segment.plain segment.nonempty,if_neg (by simp),Bool.and_eq_true,notsFine,
    Bool.and_eq_true,Bool.not_eq_true'] at regular
  obtain ⟨⟨single,ends⟩,below⟩ := regular
  rw [notsRegularEach_sorted sorts single,Bool.and_eq_true,List.all_eq_true,List.all_eq_true] at below
  have sorted := sortNots_eq sorts single
  obtain ⟨same,turned⟩ := sortNots_notsEach n ts
  rw [sorted] at same turned
  have inside (x) (member : x ∈ negatives ts ∨ x ∈ positives ts) : x ∈ ts :=
    sortNots_member (by rw [sorted]; exact member)
  have pos : (sortNots (notsEach n ts).2).2.all (Tree.denote holds) = (positives ts).all (Tree.reading holds) := by
    refine forall₂_all turned fun t member u turns => ?_
    obtain ⟨m,rfl⟩ := turns
    exact (each t (inside t (.inr member)) (below.1 t member) m).symm
  have neg : (negatives ts).any (Tree.denote holds) = (negatives ts).any (Tree.reading holds) := by
    rw [Bool.eq_iff_iff,List.any_eq_true,List.any_eq_true]
    refine exists_congr fun t => and_congr_right fun member => ?_
    rw [quiet_denotes (lifted t (inside t (.inl member))) (below.2 t member)]
  rw [reads_segment segment.plain segment.nonempty,segmentReads_sorted,nots]
  by_cases none : negatives ts = []
  · have last : (kinds ts).getLast?.any Piece.isNot = false := by
      have unsigned : (signs (kinds ts)).any (fun s => s.1) = false := by
        rw [signs_kinds,List.any_map]
        rw [negatives,List.map_eq_nil_iff,List.filter_eq_nil_iff] at none
        exact List.any_eq_false.mpr none
      simpa [unsigned] using ends
    have operands := operands_of_fine sorts single last none
    have whole := sortNots_others n fun t member => by
      rw [sorts.negation t member,isNot_of_operand (operands t member)]
    rw [joinNots_one _ (.inl (by rw [whole])),none,← pos,whole]
    simp
  · have others : (sortNots (notsEach n ts).2).2 ≠ [] := by
      intro empty
      rw [empty] at turned
      exact segment.positives_nonempty (List.forall₂_nil_right_iff.mp turned)
    have some : (sortNots (notsEach n ts).2).1 ≠ [] := by rw [same]; exact none
    obtain ⟨m,l,r,result,left,right⟩ := joinNots_both (notsEach n ts).1 some others
    rw [result,List.all_cons,List.all_nil,Bool.and_true,denote_not,left.denote_any some,right.denote_all others,same,
      pos,neg]

end

theorem joinNots_nonempty (n : Addr) {ts : List Tree} (nonempty : ts ≠ []) : (joinNots n ts).2 ≠ [] := by
  rw [joinNots]
  split
  · exact nonempty
  · simp

theorem nots_nonempty (n : Addr) {ts : List Tree} (nonempty : ts ≠ []) : (nots n ts).2 ≠ [] := by
  refine joinNots_nonempty _ fun empty => nonempty ?_
  rw [← List.length_eq_zero_iff,← notsEach_length n ts,empty]
  rfl

/-- Operands alone are turned one by one. -/
theorem nots_operands {ts : List Tree} (lifted : ∀ t ∈ ts, Lifted t) (operands : ∀ t ∈ ts, t.operand = true)
    (n : Addr) : List.Forall₂ Turned ts (nots n ts).2 := by
  have others : ∀ t ∈ ts, t.isNot = false := fun t member => by
    rw [formed_isNot (lifted t member).formed,isNot_of_operand (operands t member)]
  have whole := sortNots_others n others
  have turned := (sortNots_notsEach n ts).2
  have before : sortNots ts = ([],ts) := by
    rw [sortNots_eq ⟨fun t member => isOr_of_operand (operands t member),
      fun t member => formed_isNot (lifted t member).formed⟩ (doubled_operands operands),(positives_operands operands).1,
      (positives_operands operands).2]
  rw [nots,joinNots_one _ (.inl (by rw [whole]))]
  rw [whole,before] at turned
  exact turned

/-- Where the `not`s are fine, what `fix_nots` makes of a token finds what the
    token reads. -/
theorem nots_denotes {t : Tree} (lifted : Lifted t) (regular : t.notsRegular false = true) (holds : Addr → Bool)
    (n : Addr) : (t.nots n).2.denote holds = t.reading holds := by
  induction lifted generalizing n with
  | leaf => rfl
  | group a token segment each ih =>
    rename_i child
    rw [notsRegular_node segment.nonempty] at regular
    rw [nots_node segment.nonempty (by simp),denote_group holds _ _ (nots_nonempty n segment.nonempty),
      segment.denotes each regular holds (fun t member fine m => ih t member fine m) n,Tree.reading,
      if_neg (by simpa using segment.nonempty),if_neg (by simp),reads]
  | either a token nonempty operands each ih =>
    rename_i child
    rw [notsRegular_node nonempty,notsRegular_operands operands,List.all_eq_true] at regular
    rw [nots_node nonempty (by simp),denote_or holds _ _ (nots_nonempty n nonempty),Tree.reading,
      if_neg (by simpa using nonempty),if_pos rfl,readEach_eq,List.any_map]
    refine forall₂_any (nots_operands each operands n) fun t member u turns => ?_
    obtain ⟨m,rfl⟩ := turns
    rw [Function.comp_apply,Tree.mark_item (operands t member),Piece.value,ih t member (regular t member)]

/-! ## Elsewhere a `not` stays -/

/-- A `not` among the words. -/
def NotStays (leaves : List Tree) : Prop := ∃ x ∈ leaves, (x.mark ()).isNot = true

theorem notStays_child {ts : List Tree} {t : Tree} (member : t ∈ ts) (stays : NotStays t.leaves) :
    NotStays (Tree.leavesEach ts) := by
  obtain ⟨x,inside,negation⟩ := stays
  exact ⟨x,mem_leavesEach.mpr ⟨t,member,inside⟩,negation⟩

theorem notStays_token {ts : List Tree} {t : Tree} (member : t ∈ ts) (negation : (t.mark ()).isNot = true) :
    NotStays (Tree.leavesEach ts) :=
  notStays_child member ⟨t,by simp [leaves_leaf (leaf_of_not negation)],negation⟩

/-- Below a token that is passed over, every `not` stays. -/
theorem quiet_stays {t : Tree} (lifted : Lifted t) (loud : t.notsRegular true = false) : NotStays t.leaves := by
  induction lifted with
  | leaf => cases loud
  | group a token segment each ih =>
    rename_i child
    rw [leaves_node segment.nonempty]
    by_cases quiet : (kinds child).any Piece.isNot = true
    · obtain ⟨p,member,negation⟩ := List.any_eq_true.mp quiet
      obtain ⟨t,inside,rfl⟩ := List.mem_map.mp member
      exact notStays_token inside negation
    · have operands := operands_of_quiet segment.plain (by simpa using quiet)
      rw [notsRegular_node segment.nonempty,notsRegular_operands operands,List.all_eq_false] at loud
      obtain ⟨t,member,below⟩ := loud
      exact notStays_child member (ih t member (by simpa using below))
  | either a token nonempty operands each ih =>
    rw [notsRegular_node nonempty,notsRegular_operands operands,List.all_eq_false] at loud
    obtain ⟨t,member,below⟩ := loud
    rw [leaves_node nonempty]
    exact notStays_child member (ih t member (by simpa using below))

/-- What the loops sort is still there after `fix_nots`. -/
theorem joinNots_leaves (n : Addr) {ts : List Tree} {t : Tree} (member : t ∈ (sortNots ts).1 ∨ t ∈ (sortNots ts).2)
    {x : Tree} (inside : x ∈ t.leaves) : x ∈ Tree.leavesEach (joinNots n ts).2 := by
  by_cases one : (sortNots ts).1 = [] ∨ (sortNots ts).2 = []
  · rw [joinNots_one n one]
    exact mem_leavesEach.mpr ⟨t,sortNots_member member,inside⟩
  · rw [not_or] at one
    rw [joinNots_both_leaves n one.1 one.2,List.mem_append]
    exact member.imp (fun member => mem_leavesEach.mpr ⟨t,member,inside⟩)
      fun member => mem_leavesEach.mpr ⟨t,member,inside⟩

theorem Segment.stays {ts : List Tree} (segment : Segment ts) (lifted : ∀ t ∈ ts, Lifted t)
    (loud : NotsRegular false ts = false)
    (each : ∀ t ∈ ts, t.notsRegular false = false → ∀ n, NotStays (t.nots n).2.leaves) (n : Addr) :
    NotStays (Tree.leavesEach (nots n ts).2) := by
  have sorts := segment.sorts lifted
  obtain ⟨same,turned⟩ := sortNots_notsEach n ts
  have left {t : Tree} (member : t ∈ (sortNots ts).1) (stays : NotStays t.leaves) :
      NotStays (Tree.leavesEach (nots n ts).2) := by
    obtain ⟨x,inside,negation⟩ := stays
    exact ⟨x,joinNots_leaves _ (.inl (same ▸ member)) inside,negation⟩
  cases twice : doubled (kinds ts) with
  | true =>
    obtain ⟨t,member,negation⟩ := sortNots_doubled sorts twice
    exact left member ⟨t,by simp [leaves_leaf (leaf_of_not negation)],negation⟩
  | false =>
    have sorted := sortNots_eq sorts twice
    rw [sorted] at turned same left
    have inside (x) (member : x ∈ negatives ts ∨ x ∈ positives ts) : x ∈ ts :=
      sortNots_member (by rw [sorted]; exact member)
    rw [NotsRegular,notsFineWithin_segment segment.plain segment.nonempty,if_neg (by simp),notsFine,twice,
      notsRegularEach_sorted sorts twice,signs_kinds,List.any_map] at loud
    simp only [Bool.not_false,Bool.true_and,Bool.and_eq_false_iff,Bool.or_eq_false_iff,Bool.not_eq_false',
      List.all_eq_false,Bool.not_eq_true] at loud
    rcases loud with ⟨ends,unsigned⟩ | ⟨t,member,below⟩ | ⟨t,member,below⟩
    · have none : (sortNots (notsEach n ts).2).1 = [] := by
        rw [same]
        simpa [negatives] using unsigned
      obtain ⟨p,last,negation⟩ := (Option.any_eq_true _ _).mp ends
      obtain ⟨t,member,rfl⟩ := List.mem_map.mp (List.mem_of_getLast? last)
      rw [nots,joinNots_one _ (.inl none)]
      exact notStays_token (notsEach_leaf n member (leaf_of_not negation)) negation
    · obtain ⟨u,member',m,rfl⟩ := forall₂_image turned member
      obtain ⟨x,within,negation⟩ := each t (inside t (.inr member)) below m
      exact ⟨x,joinNots_leaves _ (.inr member') within,negation⟩
    · exact left member (quiet_stays (lifted t (inside t (.inl member))) below)

theorem nots_stays {t : Tree} (lifted : Lifted t) (loud : t.notsRegular false = false) (n : Addr) :
    NotStays (t.nots n).2.leaves := by
  induction lifted generalizing n with
  | leaf => cases loud
  | group a token segment each ih =>
    rw [notsRegular_node segment.nonempty] at loud
    rw [nots_node segment.nonempty (by simp),leaves_node (nots_nonempty n segment.nonempty)]
    exact segment.stays each loud (fun t member below m => ih t member below m) n
  | either a token nonempty operands each ih =>
    rename_i child
    rw [notsRegular_node nonempty,notsRegular_operands operands,List.all_eq_false] at loud
    obtain ⟨t,member,below⟩ := loud
    rw [nots_node nonempty (by simp),leaves_node (nots_nonempty n nonempty)]
    obtain ⟨u,inside,m,rfl⟩ := forall₂_image (nots_operands each operands n) member
    exact notStays_child inside (ih t member (by simpa using below) m)

/-! ## The words that are left -/

theorem sortNots_subperm (ts : List Tree) : ((sortNots ts).1 ++ (sortNots ts).2).Subperm ts := by
  induction ts using sortNots.induct with
  | case1 => exact .refl _
  | case2 t negation =>
    rw [sortNots_last negation]
    exact List.nil_subperm
  | case3 t negation u us ih =>
    rw [sortNots_pair negation]
    exact ((List.subperm_cons u).mpr ih).trans (List.sublist_cons_self _ _).subperm
  | case4 t us other ih =>
    rw [sortNots_other (by simpa using other)]
    exact List.perm_middle.subperm.trans ((List.subperm_cons t).mpr ih)

/-- What the loops sort comes from the siblings, each token once. -/
theorem sortNots_flatMap {α : Type} (f : Tree → List α) (ts : List Tree) :
    ((sortNots ts).1.flatMap f ++ (sortNots ts).2.flatMap f).Subperm (ts.flatMap f) := by
  obtain ⟨l,perm,sublist⟩ := sortNots_subperm ts
  rw [← List.flatMap_append]
  exact (perm.symm.flatMap_right f).subperm.trans (sublist.flatMap f).subperm

theorem sortNots_leaves (ts : List Tree) :
    (Tree.leavesEach (sortNots ts).1 ++ Tree.leavesEach (sortNots ts).2).Subperm (Tree.leavesEach ts) := by
  simpa only [leavesEach_eq] using sortNots_flatMap Tree.leaves ts

theorem joinNots_subperm (n : Addr) (ts : List Tree) :
    (Tree.leavesEach (joinNots n ts).2).Subperm (Tree.leavesEach ts) := by
  by_cases one : (sortNots ts).1 = [] ∨ (sortNots ts).2 = []
  · rw [joinNots_one n one]
  · rw [not_or] at one
    rw [joinNots_both_leaves n one.1 one.2]
    exact sortNots_leaves ts

theorem notsEach_subperm {ts : List Tree} (each : ∀ t ∈ ts, ∀ n, (t.nots n).2.leaves.Subperm t.leaves) (n : Addr) :
    (Tree.leavesEach (notsEach n ts).2).Subperm (Tree.leavesEach ts) := by
  induction ts using sortNots.induct generalizing n with
  | case1 => exact .refl _
  | case2 t negation =>
    rw [notsEach_last n negation]
    exact (each t (by simp) n).append (.refl _)
  | case3 t negation u us ih =>
    rw [notsEach_pair n negation]
    exact (each t (by simp) n).append ((List.Subperm.refl _).append (ih (fun v member => each v (by simp [member])) _))
  | case4 t us other ih =>
    rw [notsEach_other n (by simpa using other)]
    exact (each t (by simp) n).append (ih (fun v member => each v (by simp [member])) _)

/-- `fix_nots` adds no word and doubles none. -/
theorem nots_subperm (t : Tree) (n : Addr) : (t.nots n).2.leaves.Subperm t.leaves := by
  induction t using Tree.induct generalizing n with
  | node a type token child ih =>
    by_cases same : child = [] ∨ type = .dquote
    · rw [Tree.nots,if_pos (by rcases same with same | same <;> simp [same])]
    · rw [not_or] at same
      rw [nots_node same.1 same.2,leaves_node same.1,leaves_node (nots_nonempty n same.1)]
      exact (joinNots_subperm _ _).trans (notsEach_subperm ih n)

theorem notsAll_subperm (ts : List Tree) (n : Addr) :
    (Tree.leavesEach (nots n ts).2).Subperm (Tree.leavesEach ts) :=
  (joinNots_subperm _ _).trans (notsEach_subperm (fun t member => nots_subperm t) n)

theorem sortNots_cover {ts : List Tree} {t : Tree} (member : t ∈ ts) (other : t.isNot = false) :
    t ∈ (sortNots ts).1 ∨ t ∈ (sortNots ts).2 := by
  induction ts using sortNots.induct with
  | case1 => cases member
  | case2 u negation =>
    obtain rfl := List.mem_singleton.mp member
    simp [other] at negation
  | case3 u negation v vs ih =>
    rw [sortNots_pair negation]
    simp only [List.mem_cons] at member ⊢
    rcases member with rfl | rfl | member
    · simp [other] at negation
    · exact .inl (.inl rfl)
    · exact (ih member).imp .inr id
  | case4 u us plain ih =>
    rw [sortNots_other (by simpa using plain)]
    simp only [List.mem_cons] at member ⊢
    rcases member with rfl | member
    · exact .inr (.inl rfl)
    · exact (ih member).imp id .inr

theorem notsEach_image (n : Addr) {ts : List Tree} {t : Tree} (member : t ∈ ts) :
    ∃ u ∈ (notsEach n ts).2, u = t ∨ Turned t u := by
  induction ts using sortNots.induct generalizing n with
  | case1 => cases member
  | case2 v negation =>
    obtain rfl := List.mem_singleton.mp member
    rw [notsEach_last n negation]
    exact ⟨_,by simp,.inr ⟨n,rfl⟩⟩
  | case3 v negation w ws ih =>
    rw [notsEach_pair n negation]
    rcases List.mem_cons.mp member with rfl | member
    · exact ⟨_,by simp,.inr ⟨n,rfl⟩⟩
    · rcases List.mem_cons.mp member with rfl | member
      · exact ⟨t,by simp,.inl rfl⟩
      · obtain ⟨u,inside,either⟩ := ih (v.nots n).1 member
        exact ⟨u,by simp [inside],either⟩
  | case4 v us other ih =>
    rw [notsEach_other n (by simpa using other)]
    rcases List.mem_cons.mp member with rfl | member
    · exact ⟨_,by simp,.inr ⟨n,rfl⟩⟩
    · obtain ⟨u,inside,either⟩ := ih (v.nots n).1 member
      exact ⟨u,by simp [inside],either⟩

/-- A word that is not a `not` stays among the siblings. -/
theorem notsAll_keeps {ts : List Tree} {x : Tree} (formed : ∀ t ∈ ts, Formed t)
    (word : (x.mark ()).isNot = false) (each : ∀ t ∈ ts, x ∈ t.leaves → ∀ n, x ∈ (t.nots n).2.leaves) (n : Addr)
    (inside : x ∈ Tree.leavesEach ts) : x ∈ Tree.leavesEach (nots n ts).2 := by
  obtain ⟨t,member,below⟩ := mem_leavesEach.mp inside
  have other : t.isNot = false := by
    rw [formed_isNot (formed t member)]
    by_contra negation
    rw [Bool.not_eq_false] at negation
    rw [leaves_leaf (leaf_of_not negation),List.mem_singleton] at below
    rw [below,negation] at word
    cases word
  obtain ⟨u,there,same | ⟨m,same⟩⟩ := notsEach_image n member
  · exact joinNots_leaves _ (sortNots_cover there (by rw [same,other])) (by rw [same]; exact below)
  · refine joinNots_leaves _ (sortNots_cover there (by rw [same,nots_isNot,other])) ?_
    rw [same]
    exact each t member below m

theorem nots_keeps {t x : Tree} (formed : Formed t) (word : (x.mark ()).isNot = false) (inside : x ∈ t.leaves)
    (n : Addr) : x ∈ (t.nots n).2.leaves := by
  induction formed generalizing n with
  | leaf => exact inside
  | group a token nonempty each ih =>
    rw [leaves_node nonempty] at inside
    rw [nots_node nonempty (by simp),leaves_node (nots_nonempty n nonempty)]
    exact notsAll_keeps each word ih n inside
  | either a token nonempty each ih =>
    rw [leaves_node nonempty] at inside
    rw [nots_node nonempty (by simp),leaves_node (nots_nonempty n nonempty)]
    exact notsAll_keeps each word ih n inside

end AnotherC.Tokens
