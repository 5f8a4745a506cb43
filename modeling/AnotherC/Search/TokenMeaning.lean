import Mathlib.Data.List.Perm.Subperm
import AnotherC.Search.TokenNots

/-!
The reading of a query is a function that needs each of its operands, and the tree
is one that needs each of its words, since no word occurs in it twice. So the two
agree only where the words that are left are the operands, and that is where the
query is regular (`regroup_keeps_iff`).
-/
namespace AnotherC.Tokens
open AnotherC.Lib.Text (Text)
open AnotherC.Lib.Dependence
set_option linter.unusedVariables false

/-! ## The words after `fix_ors` -/

/-- The siblings that `fix_ors` keeps. -/
def keptTrees (ts : List Tree) : List Tree :=
  if (splitTrees [] [] [] ts).2.2.isEmpty then (splitTrees [] [] [] ts).1 else (starts ts).flatten

theorem splitTrees_sublist (ts whole cur : List Tree) (segs : List (List Tree)) :
    (splitTrees whole cur segs ts).1.Sublist (whole ++ ts) ∧
      ((splitTrees whole cur segs ts).2.2.flatten ++ (splitTrees whole cur segs ts).2.1).Sublist
        (segs.flatten ++ cur ++ ts) := by
  induction ts generalizing whole cur segs with
  | nil => simp [splitTrees]
  | cons t ts ih =>
    cases either : t.isOr with
    | false =>
      rw [splitTrees_other either]
      simpa using ih (whole ++ [t]) (cur ++ [t]) segs
    | true =>
      cases ts with
      | nil => cases cur <;> simp [splitTrees,either]
      | cons u us =>
        cases cur with
        | nil =>
          rw [splitTrees_skip either]
          obtain ⟨first,second⟩ := ih (whole ++ [t]) [] segs
          refine ⟨by simpa using first,second.trans ?_⟩
          simp
        | cons c cs =>
          rw [splitTrees_push either _ (by simp)]
          obtain ⟨first,second⟩ := ih whole [] (segs ++ [c :: cs])
          refine ⟨first.trans (by simp),second.trans ?_⟩
          simp

theorem splitTrees_segs {ts whole cur : List Tree} {segs : List (List Tree)} (nonempty : ∀ seg ∈ segs, seg ≠ []) :
    ∀ seg ∈ (splitTrees whole cur segs ts).2.2, seg ≠ [] := by
  induction ts generalizing whole cur segs with
  | nil => exact nonempty
  | cons t ts ih =>
    cases either : t.isOr with
    | false =>
      rw [splitTrees_other either]
      exact ih nonempty
    | true =>
      cases ts with
      | nil => cases cur <;> simpa [splitTrees,either] using nonempty
      | cons u us =>
        cases cur with
        | nil =>
          rw [splitTrees_skip either]
          exact ih nonempty
        | cons c cs =>
          rw [splitTrees_push either _ (by simp)]
          refine ih fun seg member => ?_
          rcases List.mem_append.mp member with member | member
          · exact nonempty seg member
          · rw [List.mem_singleton.mp member]
            simp

theorem splitTrees_whole_nonempty {ts whole cur : List Tree} {segs : List (List Tree)}
    (nonempty : whole ≠ [] ∨ cur = [] ∧ ts ≠ []) : (splitTrees whole cur segs ts).1 ≠ [] := by
  induction ts generalizing whole cur segs with
  | nil => simpa [splitTrees] using nonempty
  | cons t ts ih =>
    cases either : t.isOr with
    | false =>
      rw [splitTrees_other either]
      exact ih (.inl (by simp))
    | true =>
      cases ts with
      | nil => cases cur <;> simp_all [splitTrees]
      | cons u us =>
        cases cur with
        | nil =>
          rw [splitTrees_skip either]
          exact ih (.inl (by simp))
        | cons c cs =>
          rw [splitTrees_push either _ (by simp)]
          exact ih (.inl (by simpa using nonempty))

theorem starts_nonempty (ts : List Tree) : ∀ seg ∈ starts ts, seg ≠ [] := by
  have complete : ∀ seg ∈ (splitTrees [] [] [] ts).2.2, seg ≠ [] := splitTrees_segs (by simp)
  rw [starts]
  split
  · exact complete
  case isFalse more =>
    intro seg member
    rcases List.mem_append.mp member with member | member
    · exact complete seg member
    · rw [List.mem_singleton.mp member]
      simpa using more

theorem starts_flatten (ts : List Tree) : (starts ts).flatten =
    (splitTrees [] [] [] ts).2.2.flatten ++ (splitTrees [] [] [] ts).2.1 := by
  rw [starts]
  split
  case isTrue none =>
    rw [List.isEmpty_iff] at none
    simp [none]
  · simp

theorem starts_some {ts : List Tree} (some : (splitTrees [] [] [] ts).2.2 ≠ []) : starts ts ≠ [] := by
  rw [starts]
  split
  · exact some
  · simp

theorem keptTrees_sublist (ts : List Tree) : (keptTrees ts).Sublist ts := by
  obtain ⟨whole,parts⟩ := splitTrees_sublist ts [] [] []
  rw [keptTrees]
  split
  · exact whole
  · rw [starts_flatten]
    exact parts

theorem wrapEach_leaves (n : Addr) {segs : List (List Tree)} (nonempty : ∀ seg ∈ segs, seg ≠ []) :
    Tree.leavesEach (wrapEach n segs).2 = Tree.leavesEach segs.flatten := by
  have wrapped := wrapEach_wrapped n segs
  generalize (wrapEach n segs).2 = kids at wrapped
  induction wrapped with
  | nil => rfl
  | cons first rest ih =>
    rw [Tree.leavesEach,List.flatten_cons,leavesEach_append,first.leaves (nonempty _ (by simp)),
      ih fun seg member => nonempty seg (by simp [member])]

theorem joinOrs_nonempty (n : Addr) {ts : List Tree} (nonempty : ts ≠ []) : (joinOrs n ts).2 ≠ [] := by
  rw [joinOrs]
  split
  · exact splitTrees_whole_nonempty (.inr ⟨rfl,nonempty⟩)
  · simp

theorem wrapEach_nonempty (n : Addr) {segs : List (List Tree)} (nonempty : segs ≠ []) : (wrapEach n segs).2 ≠ [] := by
  intro empty
  have wrapped := wrapEach_wrapped n segs
  rw [empty] at wrapped
  exact nonempty (List.forall₂_nil_right_iff.mp wrapped)

theorem joinOrs_leaves (n : Addr) (ts : List Tree) :
    Tree.leavesEach (joinOrs n ts).2 = Tree.leavesEach (keptTrees ts) := by
  rw [joinOrs,keptTrees]
  split
  · rfl
  case isFalse some =>
    have nonempty := starts_some (by simpa using some)
    rw [Tree.leavesEach,Tree.leavesEach,List.append_nil,leaves_node (wrapEach_nonempty _ nonempty),
      wrapEach_leaves _ (starts_nonempty ts)]

theorem leavesEach_sublist {ts us : List Tree} (sublist : ts.Sublist us) :
    (Tree.leavesEach ts).Sublist (Tree.leavesEach us) := by
  rw [leavesEach_eq,leavesEach_eq]
  exact sublist.flatMap _

theorem orsEach_nonempty (n : Addr) {ts : List Tree} (nonempty : ts ≠ []) : (orsEach n ts).2 ≠ [] := by
  cases ts with
  | nil => exact absurd rfl nonempty
  | cons t ts => simp [orsEach]

theorem ors_nonempty (n : Addr) {ts : List Tree} (nonempty : ts ≠ []) : (ors n ts).2 ≠ [] :=
  joinOrs_nonempty _ (orsEach_nonempty n nonempty)

theorem orsEach_sublist {ts : List Tree} (each : ∀ t ∈ ts, ∀ n, (t.ors n).2.leaves.Sublist t.leaves) (n : Addr) :
    (Tree.leavesEach (orsEach n ts).2).Sublist (Tree.leavesEach ts) := by
  induction ts generalizing n with
  | nil => exact .refl _
  | cons t ts ih => exact (each t (by simp) n).append (ih (fun u member => each u (by simp [member])) _)

/-- `fix_ors` adds no word and doubles none. -/
theorem ors_sublist (t : Tree) (n : Addr) : (t.ors n).2.leaves.Sublist t.leaves := by
  induction t using Tree.induct generalizing n with
  | node a type token child ih =>
    by_cases same : child = [] ∨ type = .dquote
    · rw [Tree.ors,if_pos (by rcases same with same | same <;> simp [same])]
    · rw [not_or] at same
      rw [ors_node same.1 same.2,leaves_node same.1,leaves_node (ors_nonempty n same.1),ors,joinOrs_leaves]
      exact (leavesEach_sublist (keptTrees_sublist _)).trans (orsEach_sublist ih n)

theorem orsAll_sublist (ts : List Tree) (n : Addr) :
    (Tree.leavesEach (ors n ts).2).Sublist (Tree.leavesEach ts) := by
  rw [ors,joinOrs_leaves]
  exact (leavesEach_sublist (keptTrees_sublist _)).trans (orsEach_sublist (fun t member => ors_sublist t) n)

/-! ## Where an `or` is not fine -/

/-- The operands among the words. -/
def count (ts : List Tree) : Nat := (Tree.leavesEach ts).countP Tree.operand

theorem count_cons (t : Tree) (ts : List Tree) : count (t :: ts) = t.leaves.countP Tree.operand + count ts := by
  rw [count,Tree.leavesEach,List.countP_append,count]

theorem count_append (ts us : List Tree) : count (ts ++ us) = count ts + count us := by
  rw [count,leavesEach_append,List.countP_append,count,count]

theorem count_sublist {ts us : List Tree} (sublist : ts.Sublist us) : count ts ≤ count us :=
  (leavesEach_sublist sublist).countP_le

/-- What a part of the siblings leaves out has no operand where it has as many. -/
theorem mem_of_count {ts us : List Tree} (sublist : ts.Sublist us) (all : count us ≤ count ts) {t : Tree}
    (member : t ∈ us) (operand : 0 < t.leaves.countP Tree.operand) : t ∈ ts := by
  induction sublist with
  | slnil => cases member
  | cons u rest ih =>
    have fewer := count_sublist rest
    rw [count_cons] at all
    rcases List.mem_cons.mp member with rfl | member
    · omega
    · exact ih (by omega) member
  | cons_cons u rest ih =>
    rw [count_cons,count_cons] at all
    rcases List.mem_cons.mp member with rfl | member
    · simp
    · exact List.mem_cons_of_mem _ (ih (by omega) member)

/-- Where no token gains operands, and the siblings lose none, no token does. -/
theorem count_pointwise {R : Tree → Tree → Prop} {ts us : List Tree} (related : List.Forall₂ R ts us)
    (fewer : ∀ t u, R t u → u.leaves.countP Tree.operand ≤ t.leaves.countP Tree.operand) :
    count us ≤ count ts ∧ (count ts ≤ count us →
      List.Forall₂ (fun t u => u.leaves.countP Tree.operand = t.leaves.countP Tree.operand ∧ R t u) ts us) := by
  induction related with
  | nil => exact ⟨le_rfl,fun _ => .nil⟩
  | cons first rest ih =>
    have one := fewer _ _ first
    rw [count_cons,count_cons]
    refine ⟨by omega,fun all => .cons ⟨by omega,first⟩ (ih.2 (by omega))⟩

/-- A group has an operand, at some depth. -/
theorem query_operand {t : Tree} (query : t.query = true) (operand : t.operand = true) :
    0 < t.leaves.countP Tree.operand := by
  induction t using Tree.induct with
  | node a type token child ih =>
    by_cases empty : child = []
    · rw [leaves_leaf (t := .node a type token child) empty]
      simp [operand]
    · obtain ⟨rfl,ground,each⟩ := query_node empty query
      obtain ⟨some,segments⟩ := segments_of_grounded ground
      obtain ⟨seg,member⟩ := List.exists_mem_of_ne_nil _ some
      obtain ⟨t,positive⟩ := (segments seg member).positive
      have sorted : t ∈ seg ∧ t.operand = true := signed_member positive
      have inside := (segments_member member sorted.1).1
      have below := ih t inside (each t inside) sorted.2
      rw [leaves_node empty]
      obtain ⟨x,within,operand⟩ := List.countP_pos_iff.mp below
      exact List.countP_pos_iff.mpr ⟨x,mem_leavesEach.mpr ⟨t,inside,within⟩,operand⟩

/-- What `fix_ors` keeps of a token, however its operators stand. -/
theorem ors_mark (t : Tree) (n : Addr) : (t.ors n).2.mark () = t.mark () ∧ (t.ors n).2.isOr = t.isOr := by
  cases t with
  | node a type token child =>
    by_cases same : child = [] ∨ type = .dquote
    · rw [Tree.ors,if_pos (by rcases same with same | same <;> simp [same])]
      simp
    · rw [not_or] at same
      rw [ors_node same.1 same.2]
      simp [Tree.mark,Tree.child,same.1,ors_nonempty n same.1,Tree.isOr]

theorem orsEach_kinds (n : Addr) (ts : List Tree) : kinds (orsEach n ts).2 = kinds ts := by
  induction ts generalizing n with
  | nil => rfl
  | cons t ts ih => rw [orsEach,kinds_cons,kinds_cons,ih,(ors_mark t n).1]

/-- No `or` is left among the words. -/
def OrFree (leaves : List Tree) : Prop := ∀ x ∈ leaves, orMark x = false

/-- Siblings keep their operands, and no `or`, only where their `or`s are fine. -/
theorem orsFine_of_kept {ts : List Tree} (plain : Plain ts) (ground : grounded (kinds ts) = true)
    (operands : ∀ t ∈ ts, t.operand = true → 0 < t.leaves.countP Tree.operand)
    (all : count ts ≤ count (keptTrees ts)) (free : OrFree (Tree.leavesEach (keptTrees ts))) :
    orsFine (kinds ts) = true := by
  have empty := splitTrees_empty plain [] [] []
  simp only [List.isEmpty_nil,Bool.not_true,true_and] at empty
  rw [orsFine]
  cases separates : separated false (kinds ts) with
  | true =>
    rw [if_pos rfl]
    by_contra alone
    have alone : endsAlone false (kinds ts) = true := by simpa using alone
    rw [separates] at empty
    obtain ⟨none,lost,parts⟩ := splitTrees_lost plain [] [] [] (by simpa using alone)
    have kept : keptTrees ts = (splitTrees [] [] [] ts).2.2.flatten := by
      rw [keptTrees,if_neg (by simpa using empty),starts_flatten,none,List.append_nil]
    have whole : (segments orMark ts).flatten = keptTrees ts ++ lost := by
      rw [segments,kept]
      rw [List.nil_append] at parts
      rw [parts]
      simp
    have segment := (segments_of_grounded ground).2 lost (by rw [segments]; rw [List.nil_append] at parts; simp [parts])
    obtain ⟨t,positive⟩ := segment.positive
    obtain ⟨member,operand⟩ := signed_member positive
    have lostOne : 0 < count lost := by
      have inside : t ∈ ts := by
        have flat : t ∈ (segments orMark ts).flatten := by simp [whole,member]
        rw [segments_flatten] at flat
        exact (List.mem_filter.mp flat).1
      obtain ⟨x,below,word⟩ := List.countP_pos_iff.mp (operands t inside operand)
      exact List.countP_pos_iff.mpr ⟨x,mem_leavesEach.mpr ⟨t,member,below⟩,word⟩
    have fewer : count (segments orMark ts).flatten ≤ count ts := by
      rw [segments_flatten]
      exact count_sublist List.filter_sublist
    rw [whole,count_append] at fewer
    omega
  | false =>
    rw [if_neg (by simp)]
    by_contra first
    have none := empty.mpr separates
    cases ts with
    | nil => simp [kinds] at first
    | cons t us =>
      have either : orMark t = true := by simpa [kinds,orMark] using first
      have kept : t ∈ keptTrees (t :: us) := by
        rw [keptTrees,if_pos (by simp [none]),splitTrees_whole plain [] [] [] none]
        cases us with
        | nil => simp [endsAlone_single]
        | cons u us =>
          rw [List.nil_append]
          split <;> simp
      have stays := free t (mem_leavesEach.mpr ⟨t,kept,by simp [leaves_leaf (leaf_of_or either)]⟩)
      rw [either] at stays
      cases stays

section
variable {ts : List Tree}

theorem orsAll_exact (ground : grounded (kinds ts) = true) (query : ∀ t ∈ ts, t.query = true) (n : Addr)
    (all : count ts ≤ count (ors n ts).2) (free : OrFree (Tree.leavesEach (ors n ts).2))
    (each : ∀ t ∈ ts, ∀ n, t.leaves.countP Tree.operand ≤ (t.ors n).2.leaves.countP Tree.operand →
      OrFree (t.ors n).2.leaves → t.orsRegular = true) :
    orsFine (kinds ts) = true ∧ ∀ t ∈ ts, t.orsRegular = true := by
  have result : Tree.leavesEach (ors n ts).2 = Tree.leavesEach (keptTrees (orsEach n ts).2) := joinOrs_leaves _ _
  have same : count (ors n ts).2 = count (keptTrees (orsEach n ts).2) := by rw [count,result,count]
  rw [result] at free
  rw [same] at all
  have fixes := orsEach_fixes n ts
  have sublist := keptTrees_sublist (orsEach n ts).2
  have pointwise := count_pointwise fixes fun t u related => by
    obtain ⟨m,rfl⟩ := related
    exact (ors_sublist t m).countP_le
  have fewer := count_sublist sublist
  have both := pointwise.2 (by omega)
  have full : count (orsEach n ts).2 ≤ count (keptTrees (orsEach n ts).2) := by omega
  constructor
  · have plain : Plain (orsEach n ts).2 := by
      intro u member
      obtain ⟨t,inside,m,rfl⟩ := forall₂_mem fixes member
      rw [(ors_mark t m).2,orMark,(ors_mark t m).1]
      exact query_isOr (query t inside)
    rw [← orsEach_kinds n ts]
    refine orsFine_of_kept plain (by rwa [orsEach_kinds]) (fun u member operand => ?_) full free
    obtain ⟨t,inside,equal,m,rfl⟩ := forall₂_mem both member
    rw [equal]
    refine query_operand (query t inside) ?_
    rwa [Tree.operand,(ors_mark t m).1] at operand
  · intro t member
    obtain ⟨u,inside,equal,m,rfl⟩ := forall₂_image both member
    rcases t.mark_cases with either | negation | item
    · cases t with
      | node a type token child =>
        obtain rfl : child = [] := leaf_of_or either
        rfl
    · cases t with
      | node a type token child =>
        obtain rfl : child = [] := leaf_of_not negation
        rfl
    · have kept := mem_of_count sublist full inside (by rw [equal]; exact query_operand (query t member) item)
      refine each t member m equal.ge fun x within => free x ?_
      exact mem_leavesEach.mpr ⟨_,kept,within⟩

end

theorem ors_exact (t : Tree) (query : t.query = true) (n : Addr)
    (all : t.leaves.countP Tree.operand ≤ (t.ors n).2.leaves.countP Tree.operand)
    (free : OrFree (t.ors n).2.leaves) : t.orsRegular = true := by
  induction t using Tree.induct generalizing n with
  | node a type token child ih =>
    by_cases empty : child = []
    · rw [empty]
      rfl
    · obtain ⟨rfl,ground,each⟩ := query_node empty query
      rw [ors_node empty (by simp),leaves_node (ors_nonempty n empty)] at all free
      rw [leaves_node empty] at all
      obtain ⟨fine,below⟩ := orsAll_exact ground each n all free fun t member m => ih t member (each t member) m
      rw [Tree.orsRegular,fine,orsRegularEach_iff.mpr below]
      simp

/-! ## The variables of a tree -/

/-- The variables of the words of a tree. -/
def wordsOf (t : Tree) : List Addr := t.leaves.map Tree.addr

/-- The variables of the operands of a token. -/
def operandsOf (t : Tree) : List Addr := (t.leaves.filter Tree.operand).map Tree.addr

theorem words_flatMap (ts : List Tree) : ts.flatMap wordsOf = (Tree.leavesEach ts).map Tree.addr := by
  rw [leavesEach_eq,List.map_flatMap]
  rfl

theorem operands_flatMap (ts : List Tree) :
    ts.flatMap operandsOf = ((Tree.leavesEach ts).filter Tree.operand).map Tree.addr := by
  rw [leavesEach_eq,List.filter_flatMap,List.map_flatMap]
  rfl

/-- A tree whose tokens have the children that they need to be read. -/
inductive Proper : Tree → Prop
  | leaf (a : Addr) (type : TokenType) (token : Text) : Proper (.node a type token [])
  | group (a : Addr) (token : Text) {child : List Tree} (nonempty : child ≠ []) (each : ∀ t ∈ child, Proper t) :
    Proper (.node a .openParen token child)
  | either (a : Addr) (token : Text) {child : List Tree} (nonempty : child ≠ []) (each : ∀ t ∈ child, Proper t) :
    Proper (.node a .or token child)
  | minus (a : Addr) (token : Text) {neg pos : Tree} (negative : Proper neg) (positive : Proper pos) :
    Proper (.node a .not token [neg,pos])

/-- Without a repetition, a tree needs all of its words. -/
theorem Proper.essential {t : Tree} (proper : Proper t) (distinct : (wordsOf t).Nodup) :
    Essential (fun holds => t.denote holds) (wordsOf t) := by
  have below {child : List Tree} (distinct : (child.flatMap wordsOf).Nodup) {t : Tree} (member : t ∈ child) :
      (wordsOf t).Nodup := (List.nodup_flatMap.mp distinct).1 t member
  induction proper with
  | leaf a => exact Essential.var a
  | group a token nonempty each ih =>
    rw [wordsOf,leaves_node nonempty,← words_flatMap] at distinct ⊢
    simp only [denote_group _ a token nonempty]
    exact Essential.all nonempty (fun t member => ih t member (below distinct member)) distinct
  | either a token nonempty each ih =>
    rw [wordsOf,leaves_node nonempty,← words_flatMap] at distinct ⊢
    simp only [denote_or _ a token nonempty]
    exact Essential.any nonempty (fun t member => ih t member (below distinct member)) distinct
  | minus a token negative positive left right =>
    rename_i neg pos
    rw [wordsOf,leaves_node (by simp),← words_flatMap] at distinct ⊢
    simp only [denote_not _ a token]
    simp only [List.flatMap_cons,List.flatMap_nil,List.append_nil] at distinct ⊢
    rw [List.nodup_append] at distinct
    obtain ⟨first,second,apart⟩ := distinct
    refine ((right second).both (left first).neg fun v inside also => ?_).congr (fun _ => rfl) fun v => ?_
    · exact apart v also v inside rfl
    · rw [List.mem_append,List.mem_append,or_comm]

theorem signed_trees {seg : List Tree} (plain : ∀ t ∈ seg, orMark t = false) :
    (signed seg).map Prod.snd = seg.filter Tree.operand := by
  induction seg with
  | nil => rfl
  | cons t seg ih =>
    have ih := ih fun u member => plain u (by simp [member])
    cases first : (t.mark ()).isNot with
    | false =>
      have item := operand_of_plain (plain t (by simp)) first
      rw [signed_item item,List.map_cons,ih,List.filter_cons,if_pos item]
    | true =>
      have other : t.operand = false := by simp [Tree.operand,first]
      rw [List.filter_cons,if_neg (by simp [other]),← ih]
      cases seg with
      | nil => simp [signed_last first]
      | cons u us =>
        cases second : (u.mark ()).isNot with
        | false =>
          have item := operand_of_plain (plain u (by simp)) second
          rw [signed_pair first item,signed_item item]
          rfl
        | true => simp only [signed,List.map_cons,Tree.mark_not first,Tree.mark_not second,signs]

theorem operandsOf_other {t : Tree} (leaf : t.child = []) (other : t.operand = false) : operandsOf t = [] := by
  simp [operandsOf,leaves_leaf leaf,other]

theorem operandsOf_skip {t : Tree} (other : t.operand = false) : operandsOf t = [] := by
  rcases t.mark_cases with either | negation | item
  · exact operandsOf_other (leaf_of_or either) other
  · exact operandsOf_other (leaf_of_not negation) other
  · rw [item] at other
    cases other

theorem operands_filter (ts : List Tree) : (ts.filter Tree.operand).flatMap operandsOf = ts.flatMap operandsOf := by
  induction ts with
  | nil => rfl
  | cons t ts ih =>
    rw [List.filter_cons,List.flatMap_cons,← ih]
    split
    · rfl
    case isFalse other => rw [operandsOf_skip (by simpa using other),List.nil_append]

theorem operands_signed {seg : List Tree} (plain : ∀ t ∈ seg, orMark t = false) :
    (signed seg).flatMap (fun s => operandsOf s.2) = seg.flatMap operandsOf := by
  rw [← operands_filter seg,← signed_trees plain,List.flatMap_map]

theorem operands_segments (ts : List Tree) :
    (segments orMark ts).flatMap (fun seg => seg.flatMap operandsOf) = ts.flatMap operandsOf := by
  have flat : (segments orMark ts).flatMap (fun seg => seg.flatMap operandsOf) =
      (segments orMark ts).flatten.flatMap operandsOf := by
    induction segments orMark ts with
    | nil => rfl
    | cons seg segs ih => simp [ih]
  rw [flat,segments_flatten,← operands_filter ts,← operands_filter (ts.filter _),List.filter_filter]
  congr 1
  refine List.filter_congr fun t _ => ?_
  cases item : t.operand with
  | false => rfl
  | true => simp [isOr_of_operand item]

/-- The reading of siblings needs all operands, where it does below each. -/
theorem essential_reads {ts : List Tree} (ground : grounded (kinds ts) = true)
    (each : ∀ t ∈ ts, t.operand = true → Essential (fun holds => t.reading holds) (operandsOf t))
    (distinct : (ts.flatMap operandsOf).Nodup) :
    Essential (fun holds => reads holds ts) (ts.flatMap operandsOf) := by
  obtain ⟨some,segment⟩ := segments_of_grounded ground
  rw [← operands_segments] at distinct ⊢
  simp only [reads_eq]
  refine Essential.any some (fun seg member => ?_) distinct
  have plain := (segment seg member).plain
  have apart : (seg.flatMap operandsOf).Nodup := (List.nodup_flatMap.mp distinct).1 seg member
  rw [← operands_signed plain] at apart ⊢
  obtain ⟨t,positive⟩ := (segment seg member).positive
  refine Essential.all (f := fun s holds => s.2.reading holds != s.1) (List.ne_nil_of_mem positive)
    (fun s inside => ?_) apart
  obtain ⟨negated,u⟩ := s
  obtain ⟨within,operand⟩ := signed_member inside
  have one := each u (segments_member member within).1 operand
  cases negated with
  | false => simpa using one
  | true => simpa using one.neg

theorem query_essential {t : Tree} (query : t.query = true) (operand : t.operand = true)
    (distinct : (operandsOf t).Nodup) : Essential (fun holds => t.reading holds) (operandsOf t) := by
  induction t using Tree.induct with
  | node a type token child ih =>
    by_cases empty : child = []
    · subst empty
      simp only [operandsOf,Tree.leaves,List.isEmpty_nil,if_true,List.filter_cons,operand,List.filter_nil,
        List.map_cons,List.map_nil]
      exact Essential.var a
    · obtain ⟨rfl,ground,each⟩ := query_node empty query
      rw [operandsOf,leaves_node empty,← operands_flatMap] at distinct ⊢
      have whole := essential_reads ground (fun t member item => ih t member (each t member) item
        ((List.nodup_flatMap.mp distinct).1 t member)) distinct
      refine whole.congr (fun holds => ?_) fun _ => Iff.rfl
      rw [Tree.reading,if_neg (by simpa using empty),if_neg (by simp),reads]

/-! ## The trees of the passes -/

theorem Formed.proper {t : Tree} (formed : Formed t) : Proper t := by
  induction formed with
  | leaf => exact .leaf ..
  | group a token nonempty each ih => exact .group a token nonempty ih
  | either a token nonempty each ih => exact .either a token nonempty ih

theorem joinOrs_formed {ts : List Tree} (each : ∀ t ∈ ts, Formed t) (n : Addr) :
    ∀ t ∈ (joinOrs n ts).2, Formed t := by
  obtain ⟨whole,parts⟩ := splitTrees_sublist ts [] [] []
  rw [joinOrs]
  split
  · exact fun t member => each t (whole.subset member)
  case isFalse some =>
    have nonempty := starts_some (by simpa using some)
    rw [← starts_flatten] at parts
    intro t member
    rw [List.mem_singleton.mp member]
    refine .either _ _ (wrapEach_nonempty _ nonempty) fun kid inside => ?_
    obtain ⟨seg,within,wrapped⟩ := forall₂_mem (wrapEach_wrapped _ _) inside
    have below (u) (inside : u ∈ seg) : Formed u :=
      each u (parts.subset (List.mem_flatten.mpr ⟨seg,within,inside⟩))
    cases wrapped with
    | single => exact below kid (by simp)
    | group m => exact .group m _ (starts_nonempty ts seg within) below

theorem orsAll_formed {ts : List Tree} (each : ∀ t ∈ ts, ∀ n, Formed (t.ors n).2) (n : Addr) :
    ∀ t ∈ (ors n ts).2, Formed t := by
  refine joinOrs_formed (fun u member => ?_) _
  obtain ⟨t,inside,m,rfl⟩ := forall₂_mem (orsEach_fixes n ts) member
  exact each t inside m

theorem ors_formed {t : Tree} (query : t.query = true) (n : Addr) : Formed (t.ors n).2 := by
  induction t using Tree.induct generalizing n with
  | node a type token child ih =>
    by_cases empty : child = []
    · rw [empty]
      exact .leaf a type token
    · obtain ⟨rfl,-,each⟩ := query_node empty query
      rw [ors_node empty (by simp)]
      exact .group a token (ors_nonempty n empty) (orsAll_formed (fun t member m => ih t member (each t member) m) n)

theorem wrapped_proper {type : TokenType} {token : Text} {seg : List Tree} {t : Tree}
    (wrapped : Wrapped type token seg t) (kinds : type = .openParen ∨ type = .or) (nonempty : seg ≠ [])
    (each : ∀ u ∈ seg, Proper u) : Proper t := by
  cases wrapped with
  | single => exact each t (by simp)
  | group m =>
    rcases kinds with rfl | rfl
    · exact .group m token nonempty each
    · exact .either m token nonempty each

theorem joinNots_proper {ts : List Tree} (each : ∀ t ∈ ts, Proper t) (n : Addr) :
    ∀ t ∈ (joinNots n ts).2, Proper t := by
  by_cases one : (sortNots ts).1 = [] ∨ (sortNots ts).2 = []
  · rw [joinNots_one n one]
    exact each
  · rw [not_or] at one
    obtain ⟨m,neg,pos,result,left,right⟩ := joinNots_both n one.1 one.2
    intro t member
    rw [result] at member
    rw [List.mem_singleton.mp member]
    apply Proper.minus
    · exact wrapped_proper left (.inr rfl) one.1 fun u inside => each u (sortNots_member (.inl inside))
    · exact wrapped_proper right (.inl rfl) one.2 fun u inside => each u (sortNots_member (.inr inside))

theorem notsEach_source (n : Addr) {ts : List Tree} {u : Tree} (member : u ∈ (notsEach n ts).2) :
    ∃ t ∈ ts, u = t ∨ Turned t u := by
  induction ts using sortNots.induct generalizing n with
  | case1 => cases member
  | case2 t negation =>
    rw [notsEach_last n negation,List.mem_singleton] at member
    exact ⟨t,by simp,.inr ⟨n,member⟩⟩
  | case3 t negation v vs ih =>
    rw [notsEach_pair n negation] at member
    rcases List.mem_cons.mp member with rfl | member
    · exact ⟨t,by simp,.inr ⟨n,rfl⟩⟩
    · rcases List.mem_cons.mp member with rfl | member
      · exact ⟨u,by simp,.inl rfl⟩
      · obtain ⟨w,inside,either⟩ := ih _ member
        exact ⟨w,by simp [inside],either⟩
  | case4 t us other ih =>
    rw [notsEach_other n (by simpa using other)] at member
    rcases List.mem_cons.mp member with rfl | member
    · exact ⟨t,by simp,.inr ⟨n,rfl⟩⟩
    · obtain ⟨w,inside,either⟩ := ih _ member
      exact ⟨w,by simp [inside],either⟩

theorem notsAll_proper {ts : List Tree} (formed : ∀ t ∈ ts, Formed t) (each : ∀ t ∈ ts, ∀ n, Proper (t.nots n).2)
    (n : Addr) : ∀ t ∈ (nots n ts).2, Proper t := by
  refine joinNots_proper (fun u member => ?_) _
  obtain ⟨t,inside,rfl | ⟨m,rfl⟩⟩ := notsEach_source n member
  · exact (formed u inside).proper
  · exact each t inside m

theorem nots_proper {t : Tree} (formed : Formed t) (n : Addr) : Proper (t.nots n).2 := by
  induction formed generalizing n with
  | leaf a type token => exact .leaf a type token
  | group a token nonempty each ih =>
    rw [nots_node nonempty (by simp)]
    exact .group a token (nots_nonempty n nonempty) (notsAll_proper each ih n)
  | either a token nonempty each ih =>
    rw [nots_node nonempty (by simp)]
    exact .either a token (nots_nonempty n nonempty) (notsAll_proper each ih n)

section
variable {ts : List Tree} {n : Addr}

theorem groupAll_denote (nonempty : ts ≠ []) (holds : Addr → Bool) :
    (groupAll n ts).denote holds = ts.all (Tree.denote holds) := by
  match ts with
  | [t] => simp [groupAll]
  | t :: u :: us => exact denote_group holds n _ nonempty

theorem groupAll_leaves (nonempty : ts ≠ []) : (groupAll n ts).leaves = Tree.leavesEach ts := by
  match ts with
  | [t] => simp [groupAll,Tree.leavesEach]
  | t :: u :: us => exact leaves_node nonempty

theorem groupAll_proper (nonempty : ts ≠ []) (each : ∀ t ∈ ts, Proper t) : Proper (groupAll n ts) := by
  match ts with
  | [t] => exact each t (by simp)
  | t :: u :: us => exact .group n _ nonempty each

end

/-! ## The passes keep the reading where the query is regular -/

theorem Query.parts {ts : List Tree} (query : Query ts) :
    grounded (kinds ts) = true ∧ ∀ t ∈ ts, t.query = true := by
  rw [Query,Bool.and_eq_true,queryEach_iff] at query
  exact query

theorem Query.nonempty {ts : List Tree} (query : Query ts) : ts ≠ [] := by
  rintro rfl
  exact (segments_of_grounded query.parts.1).1 rfl

theorem regular_iff (ts : List Tree) : Regular ts ↔
    (orsFine (kinds ts) = true ∧ ∀ t ∈ ts, t.orsRegular = true) ∧ NotsRegular false ts = true := by
  rw [Regular,Bool.and_eq_true,Bool.and_eq_true,orsRegularEach_iff,NotsRegular]

theorem regroup_of_regular {ts : List Tree} (query : Query ts) (regular : Regular ts) (n : Addr)
    (holds : Addr → Bool) : (regroup n ts).denote holds = reads holds ts := by
  obtain ⟨⟨fine,below⟩,notsRegular⟩ := (regular_iff ts).mp regular
  have joined := ors_joined ⟨query.parts.1,query.parts.2,fine,below⟩ n
  rw [regroup,groupAll_denote (nots_nonempty _ joined.segment.nonempty),joined.segment.denotes joined.lifted
    (by rw [joined.regular,notsRegular]) holds (fun t member fine m => nots_denotes (joined.lifted t member) fine holds m),
    joined.reading]

/-- The words that are left: they are among those of the query, and none twice. -/
theorem regroup_words {ts : List Tree} (query : Query ts) (n : Addr) :
    (regroup n ts).leaves = Tree.leavesEach (nots (ors n ts).1 (ors n ts).2).2 ∧ Proper (regroup n ts) := by
  have some := nots_nonempty (ors n ts).1 (ors_nonempty n query.nonempty)
  have formed := orsAll_formed (fun t member m => ors_formed (query.parts.2 t member) m) n
  have proper := notsAll_proper formed (fun t member m => nots_proper (formed t member) m) (ors n ts).1
  exact ⟨groupAll_leaves some,groupAll_proper some proper⟩

theorem regular_of_regroup {ts : List Tree} (query : Query ts)
    (distinct : ((Tree.leavesEach ts).map Tree.addr).Nodup) (n : Addr)
    (same : ∀ holds, (regroup n ts).denote holds = reads holds ts) : Regular ts := by
  obtain ⟨ground,each⟩ := query.parts
  obtain ⟨leaves,proper⟩ := regroup_words query n
  have setSub := notsAll_subperm (ors n ts).2 (ors n ts).1
  have liftSub := orsAll_sublist ts n
  have sub : (regroup n ts).leaves.Subperm (Tree.leavesEach ts) := by
    rw [leaves]
    exact setSub.trans liftSub.subperm
  have words : (wordsOf (regroup n ts)).Nodup := by
    obtain ⟨l,perm,sublist⟩ := sub
    exact (perm.map Tree.addr).nodup_iff.mp ((sublist.map Tree.addr).nodup distinct)
  have operands : (ts.flatMap operandsOf).Nodup := by
    rw [operands_flatMap]
    exact (List.filter_sublist.map _).nodup distinct
  have reading := essential_reads ground (fun t member item => query_essential (each t member) item
    ((List.nodup_flatMap.mp operands).1 t member)) operands
  have vars := ((proper.essential words).congr same fun _ => Iff.rfl).unique reading
  have unique {x y : Tree} (first : x ∈ Tree.leavesEach ts) (second : y ∈ Tree.leavesEach ts)
      (addr : x.addr = y.addr) : x = y := List.inj_on_of_nodup_map distinct first second addr
  simp only [operands_flatMap,wordsOf] at vars
  -- every word that is left is an operand, and every operand is left
  have operandOf : ∀ x ∈ (regroup n ts).leaves, x.operand = true := by
    intro x member
    obtain ⟨y,inside,addr⟩ := List.mem_map.mp ((vars x.addr).mp (List.mem_map_of_mem member))
    obtain ⟨within,operand⟩ := List.mem_filter.mp inside
    rwa [unique (sub.subset member) within addr.symm]
  have stays : ∀ x ∈ Tree.leavesEach ts, x.operand = true → x ∈ (regroup n ts).leaves := by
    intro x member operand
    obtain ⟨y,inside,addr⟩ := List.mem_map.mp ((vars x.addr).mpr
      (List.mem_map_of_mem (List.mem_filter.mpr ⟨member,operand⟩)))
    rwa [← unique (sub.subset inside) member addr]
  have formed := orsAll_formed (fun t member m => ors_formed (each t member) m) n
  have free : OrFree (Tree.leavesEach (ors n ts).2) := by
    intro x member
    by_contra either
    rw [Bool.not_eq_false] at either
    have kept := notsAll_keeps formed (isNot_of_or either) (fun t inside within m =>
      nots_keeps (formed t inside) (isNot_of_or either) within m) (ors n ts).1 member
    rw [← leaves] at kept
    rw [isOr_of_operand (operandOf x kept)] at either
    cases either
  have all : count ts ≤ count (ors n ts).2 := by
    rw [count,count,List.countP_eq_length_filter,List.countP_eq_length_filter]
    have once : ((Tree.leavesEach ts).filter Tree.operand).Nodup := (List.Nodup.of_map _ distinct).filter _
    refine (once.subperm fun x member => ?_).length_le
    obtain ⟨inside,operand⟩ := List.mem_filter.mp member
    have kept := stays x inside operand
    rw [leaves] at kept
    exact List.mem_filter.mpr ⟨setSub.subset kept,operand⟩
  obtain ⟨fine,below⟩ := orsAll_exact ground each n all free fun t member => ors_exact t (each t member)
  have joined := ors_joined ⟨ground,each,fine,below⟩ n
  refine (regular_iff ts).mpr ⟨⟨fine,below⟩,?_⟩
  rw [← joined.regular]
  by_contra loud
  obtain ⟨x,member,negation⟩ := joined.segment.stays joined.lifted (by simpa using loud)
    (fun t inside below m => nots_stays (joined.lifted t inside) below m) (ors n ts).1
  rw [← leaves] at member
  rw [isNot_of_operand (operandOf x member)] at negation
  cases negation

/-- The tree finds what the query reads exactly where the query is regular. -/
theorem regroup_keeps_iff {ts : List Tree} (query : Query ts)
    (distinct : ((Tree.leavesEach ts).map Tree.addr).Nodup) (n : Addr) :
    (∀ holds, (regroup n ts).denote holds = reads holds ts) ↔ Regular ts :=
  ⟨regular_of_regroup query distinct n,fun regular => regroup_of_regular query regular n⟩

end AnotherC.Tokens
