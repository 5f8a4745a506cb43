import AnotherC.Search.TokenUnlinks

/-!
# The meaning of a query

The cursor of a tree in memory finds what the tree denotes (`cursorOpen_spec`), and
the tree that the passes leave is the one that `regroup` gives (`reorganize_spec`).
So it has the infix reading of the query exactly where the query is regular.
-/
namespace AnotherC.Tokens
open AnotherC.Lib.Text (Text)
open Tree (addrsEach)
set_option linter.unusedVariables false

/-! ## The cursor of a tree -/

section
variable {pool : Pool} (holds : Addr → Bool)

/-- The cursor of a token finds what its tree denotes, with enough fuel. -/
def Opens (pool : Pool) (holds : Addr → Bool) (t : Tree) : Prop :=
  ∀ {fuel : Nat} {parent prev : Option Addr}, Stored pool.cells Free Free parent prev t →
    2 * t.addrs.length ≤ fuel → cursorOpen holds fuel pool t.addr = some (t.denote holds)

variable {holds} {ts : List Tree} {fuel : Nat} {parent prev p : Option Addr}

theorem cursorAll_spec (each : ∀ t ∈ ts, Opens pool holds t)
    (chain : Chain pool.cells Free Free parent prev p none ts) (enough : 2 * (addrsEach ts).length + 1 ≤ fuel) :
    cursorAll holds fuel pool p = some ((Tree.denoteEach holds ts).all id) := by
  induction ts generalizing fuel prev p with
  | nil =>
    obtain ⟨fuel,rfl⟩ := exists_succ enough
    obtain rfl : p = none := chain
    rfl
  | cons t ts ih =>
    obtain ⟨fuel,rfl⟩ := exists_succ enough
    obtain ⟨rfl,stored,rest⟩ := chain
    have more : 0 < t.addrs.length := by rw [addrs_eq]; simp
    rw [addrsEach,List.length_append] at enough
    have first := each t (by simp) stored (show 2 * t.addrs.length ≤ fuel by omega)
    have later := ih (fun u member => each u (by simp [member])) rest
      (show 2 * (addrsEach ts).length + 1 ≤ fuel by omega)
    rw [cursorAll,first,later]
    rfl

theorem cursorAny_spec (each : ∀ t ∈ ts, Opens pool holds t)
    (chain : Chain pool.cells Free Free parent prev p none ts) (enough : 2 * (addrsEach ts).length + 1 ≤ fuel) :
    cursorAny holds fuel pool p = some ((Tree.denoteEach holds ts).any id) := by
  induction ts generalizing fuel prev p with
  | nil =>
    obtain ⟨fuel,rfl⟩ := exists_succ enough
    obtain rfl : p = none := chain
    rfl
  | cons t ts ih =>
    obtain ⟨fuel,rfl⟩ := exists_succ enough
    obtain ⟨rfl,stored,rest⟩ := chain
    have more : 0 < t.addrs.length := by rw [addrs_eq]; simp
    rw [addrsEach,List.length_append] at enough
    have first := each t (by simp) stored (show 2 * t.addrs.length ≤ fuel by omega)
    have later := ih (fun u member => each u (by simp [member])) rest
      (show 2 * (addrsEach ts).length + 1 ≤ fuel by omega)
    rw [cursorAny,first,later]
    rfl

theorem cursorOpen_spec (t : Tree) : Opens pool holds t := by
  induction t using Tree.induct with
  | node a type token child each =>
    intro fuel parent prev stored enough
    rw [Tree.addrs,List.length_cons] at enough
    obtain ⟨fuel,rfl⟩ : ∃ k, fuel = k + 1 := ⟨fuel - 1,by omega⟩
    obtain ⟨⟨kind,-,-⟩,deep⟩ := stored
    have short : 2 * (addrsEach child).length + 1 ≤ fuel := by omega
    clear enough
    rw [Tree.addr,cursorOpen,kind,Tree.denote.eq_def]
    cases child with
    | nil =>
      have none : (pool.cells a).child = none := deep
      rw [none]
      rfl
    | cons c cs =>
      have first : (pool.cells a).child = some c.addr := deep.1
      rw [first] at deep ⊢
      simp only [List.isEmpty_cons,Bool.false_eq_true,if_false]
      cases type
      case openParen => exact cursorAll_spec each deep short
      case or => exact cursorAny_spec each deep short
      case not =>
        obtain ⟨-,negated,rest⟩ := deep
        rw [addrsEach,List.length_append] at short
        cases cs with
        | nil =>
          have last : (pool.cells c.addr).next = none := rest
          simp only [last]
          rfl
        | cons d ds =>
          obtain ⟨next,stored,-⟩ := rest
          rw [addrsEach,List.length_append] at short
          have neg := each c (by simp) negated (show 2 * c.addrs.length ≤ fuel by omega)
          have pos := each d (by simp) stored (show 2 * d.addrs.length ≤ fuel by omega)
          simp only [next,pos,neg]
          rfl
      all_goals rfl

end

/-! ## The whole -/

theorem groupAnd_spec {pool : Pool} {parent : Option Addr} {p : Addr} {ts : List Tree}
    (chain : Chain pool.cells Free Free parent none (some p) none ts) (used : Used pool.fresh (addrsEach ts))
    (holds : Addr → Bool) : denotes (groupAnd pool p).1 (groupAnd pool p).2 holds =
      some ((groupAll pool.fresh ts).denote holds) := by
  match ts, chain with
  | [], chain => cases chain
  | [t], chain =>
    obtain ⟨first,stored,last⟩ := chain
    cases first
    have last : (pool.cells t.addr).next = none := last
    have small := used.length_le
    rw [addrsEach,addrsEach,List.append_nil] at small
    rw [groupAnd,if_pos (by rw [last]; rfl)]
    exact cursorOpen_spec t stored (show 2 * t.addrs.length ≤ turns pool by rw [turns]; omega)
  | t :: u :: us, chain =>
    have small := used.length_le
    have inT : t.addr ∈ addrsEach (t :: u :: us) := mem_addrsEach (by simp) (addr_mem t)
    have inUse := used.below _ inT
    have ⟨first,stored,next,rest⟩ := chain
    cases first
    let pool1 := pool.alloc ⟨.openParen,parenText,none,none,some t.addr,none⟩
    let pool' := pool1.setParent t.addr (some pool.fresh)
    have atT : pool'.cells t.addr = { pool.cells t.addr with parent := some pool.fresh } := by
      rw [Pool.setParent_at,Pool.alloc_off _ _ (Nat.ne_of_lt inUse)]
    have atNew : pool'.cells pool.fresh = ⟨.openParen,parenText,none,none,some t.addr,none⟩ := by
      rw [Pool.setParent_off _ _ _ (Nat.ne_of_gt inUse),Pool.alloc_at]
    have off (x) (member : x ∈ addrsEach (t :: u :: us)) (other : x ≠ t.addr) : pool'.cells x = pool.cells x := by
      rw [Pool.setParent_off _ _ _ other,Pool.alloc_off _ _ (Nat.ne_of_lt (used.below x member))]
    have once := used.once
    rw [addrsEach] at once
    have chain' : Chain pool'.cells Free Free (some pool.fresh) none (some t.addr) none (t :: u :: us) := by
      refine ⟨rfl,?_,?_⟩
      · refine stored_touch stored (by rw [atT]) (by rw [atT]) (by rw [atT]) trivial fun x member => off x ?_ ?_
        · simp [addrsEach,addrs_eq,member]
        · exact addr_notMem_child (List.nodup_append.mp once).1 member
      · rw [atT]
        refine chain_free (chain_frame (fun x member => off x ?_ ?_) ⟨next,rest⟩)
        · rw [addrsEach]
          exact List.mem_append_right _ member
        · exact (ne_of_nodup once (addr_mem t) member).symm
    have root : Stored pool'.cells Free Free none none (groupAll pool.fresh (t :: u :: us)) := by
      rw [groupAll,Stored,atNew]
      · exact ⟨⟨rfl,rfl,trivial⟩,chain'⟩
      · simp
    rw [groupAnd,if_neg (by rw [next]; simp)]
    refine cursorOpen_spec (groupAll pool.fresh (t :: u :: us)) root ?_
    change 2 * (addrsEach (t :: u :: us)).length.succ ≤ 2 * (pool.fresh + 1) + 2
    omega

/-- The tokens of a query are reorganized into the tree that `regroup` gives. -/
theorem reorganize_spec {pool : Pool} {head : Addr} {ts : List Tree} (nonempty : ts ≠ [])
    (chain : Chain pool.cells Exact Exact none none (some head) none ts) (used : Used pool.fresh (addrsEach ts)) :
    ∃ pool' root, reorganize pool head = some (pool',root) ∧
      ∀ holds, denotes pool' root holds = some ((regroup pool.fresh ts).denote holds) := by
  have small := used.length_le
  obtain ⟨pool1,p1,run1,fresh1,chain1,-⟩ := fixOrs_spec (turns pool) pool none head ts nonempty chain used (by simp)
    (by rw [turns]; omega)
  have ownsOr : Owns pool.fresh (ors pool.fresh ts).1 (addrsEach ts) (addrsEach (ors pool.fresh ts).2) := by
    have fixed := orsAll_owns used
    exact fixed.trans (joinOrs_owns (fixed.used used))
  have used1 := ownsOr.used used
  rw [← fresh1] at used1
  have some1 := ors_nonempty pool.fresh nonempty
  have small1 := used1.length_le
  obtain ⟨pool2,p2,run2,fresh2,chain2,-⟩ := fixNots_spec (turns pool1) pool1 none p1 _ some1 chain1 used1 (by simp)
    (by rw [turns]; omega)
  have ownsNot : Owns pool1.fresh (nots pool1.fresh (ors pool.fresh ts).2).1 (addrsEach (ors pool.fresh ts).2)
      (addrsEach (nots pool1.fresh (ors pool.fresh ts).2).2) := by
    have fixed := notsAll_owns used1
    exact fixed.trans (joinNots_owns (fixed.used used1))
  have used2 := ownsNot.used used1
  rw [← fresh2] at used2
  refine ⟨(groupAnd pool2 p2).1,(groupAnd pool2 p2).2,?_,fun holds => ?_⟩
  · rw [reorganize,run1]
    simp only [Option.bind_eq_bind,Option.bind_some,run2]
  · rw [groupAnd_spec chain2 used2,regroup,← fresh1,← fresh2]

theorem leavesEach_addrs {ts : List Tree} (each : ∀ t ∈ ts, (t.leaves.map Tree.addr).Sublist t.addrs) :
    ((Tree.leavesEach ts).map Tree.addr).Sublist (addrsEach ts) := by
  induction ts with
  | nil => exact .refl _
  | cons t ts ih =>
    rw [Tree.leavesEach,List.map_append,addrsEach]
    exact (each t (by simp)).append (ih fun u member => each u (by simp [member]))

theorem leaves_addrs (t : Tree) : (t.leaves.map Tree.addr).Sublist t.addrs := by
  induction t using Tree.induct with
  | node a type token child ih =>
    by_cases empty : child = []
    · rw [empty]
      exact .refl _
    · rw [leaves_node empty,Tree.addrs]
      exact (leavesEach_addrs ih).cons a

/-- A query in memory: the siblings from `head` on, linked as the parser leaves
    them, at addresses in use. -/
structure Linked (pool : Pool) (head : Addr) (ts : List Tree) : Prop where
  chain : Chain pool.cells Exact Exact none none (some head) none ts
  used : Used pool.fresh (addrsEach ts)

/-- The tree of a query denotes its infix reading, whatever words hold, exactly
    where the query is regular. -/
theorem query_meaning_iff {pool : Pool} {head : Addr} {ts : List Tree} (linked : Linked pool head ts)
    (query : Query ts) : ∃ pool' root, reorganize pool head = some (pool',root) ∧
      ((∀ holds, denotes pool' root holds = some (reads holds ts)) ↔ Regular ts) := by
  obtain ⟨pool',root,run,found⟩ := reorganize_spec query.nonempty linked.chain linked.used
  have distinct := (leavesEach_addrs fun t (_ : t ∈ ts) => leaves_addrs t).nodup linked.used.once
  refine ⟨pool',root,run,?_⟩
  rw [← regroup_keeps_iff query distinct pool.fresh]
  constructor
  · intro same holds
    exact Option.some.inj ((found holds).symm.trans (same holds))
  · intro same holds
    rw [found,same]

/-- Tokens in a row. -/
def ofWords (words : List Text) : Pool :=
  ⟨fun a => ⟨.token,words.getD a [],if a + 1 < words.length then some (a + 1) else none,
    if a = 0 then none else some (a - 1),none,none⟩,words.length⟩

/-- `a or b` -/
def alternatives : List Tree :=
  [.node 0 .token [97] [],.node 1 .token orText [],.node 2 .token [98] []]

theorem alternatives_meaning : Linked (ofWords [[97],orText,[98]]) 0 alternatives ∧ Query alternatives ∧
    ∃ pool' root, reorganize (ofWords [[97],orText,[98]]) 0 = some (pool',root) ∧
      ((∀ holds, denotes pool' root holds = some (reads holds alternatives)) ↔ Regular alternatives) := by
  have linked : Linked (ofWords [[97],orText,[98]]) 0 alternatives := by
    constructor
    case chain =>
      exact ⟨rfl,⟨⟨rfl,rfl,rfl,rfl⟩,rfl⟩,rfl,⟨⟨rfl,rfl,rfl,rfl⟩,rfl⟩,rfl,⟨⟨rfl,rfl,rfl,rfl⟩,rfl⟩,rfl⟩
    case used => exact ⟨by decide,by decide⟩
  have query : Query alternatives := rfl
  exact ⟨linked,query,query_meaning_iff linked query⟩

/-- `a or b or` -/
def trailingOr : List Tree :=
  [.node 0 .token [97] [],.node 1 .token orText [],.node 2 .token [98] [],.node 3 .token orText []]

/-- The `or` at the end takes the operand before it along. -/
theorem trailing_or_loses : Linked (ofWords [[97],orText,[98],orText]) 0 trailingOr ∧ Query trailingOr ∧
    reads (· = 2) trailingOr = true ∧
      (reorganize (ofWords [[97],orText,[98],orText]) 0).bind (fun r => denotes r.1 r.2 (· = 2)) = some false := by
  refine ⟨?_,rfl,by decide,by decide⟩
  constructor
  case chain =>
    exact ⟨rfl,⟨⟨rfl,rfl,rfl,rfl⟩,rfl⟩,rfl,⟨⟨rfl,rfl,rfl,rfl⟩,rfl⟩,rfl,⟨⟨rfl,rfl,rfl,rfl⟩,rfl⟩,rfl,
      ⟨⟨rfl,rfl,rfl,rfl⟩,rfl⟩,rfl⟩
  case used => exact ⟨by decide,by decide⟩

end AnotherC.Tokens
