import AnotherC.Search.TokenLinks
import AnotherC.Search.TokenMeaning

/-!
# The addresses of the tokens that a pass leaves

Every token that a pass leaves is one that it was given or a new one, and none
stands at two places. So what a pass writes is apart from the rest of the pool.
-/
namespace AnotherC.Tokens
open AnotherC.Lib.Text (Text)
open Tree (addrsEach)
set_option linter.unusedVariables false

/-! ## Addresses that the passes use -/

/-- Distinct addresses that are in use. -/
structure Used (n : Nat) (l : List Nat) : Prop where
  once : l.Nodup
  below : ∀ a ∈ l, a < n

/-- The addresses of a result: old ones, and new ones from `n` to `m`. -/
structure Owns (n m : Nat) (old new : List Nat) : Prop where
  grows : n ≤ m
  once : new.Nodup
  source : ∀ a ∈ new, a ∈ old ∨ (n ≤ a ∧ a < m)

section
variable {n m k : Nat} {old new last other : List Nat}

theorem Used.subperm (used : Used n old) (sub : new.Subperm old) : Used n new := by
  obtain ⟨l,perm,sublist⟩ := sub
  exact ⟨perm.nodup_iff.mp (used.once.sublist sublist),fun a member => used.below a (sublist.subset (perm.mem_iff.mpr member))⟩

theorem Used.sublist (used : Used n old) (sub : new.Sublist old) : Used n new := used.subperm sub.subperm

theorem Used.left (used : Used n (old ++ other)) : Used n old := used.sublist (List.sublist_append_left _ _)

theorem Used.right (used : Used n (old ++ other)) : Used n other := used.sublist (List.sublist_append_right _ _)

theorem Used.refl (used : Used n old) : Owns n n old old := ⟨le_rfl,used.once,fun a member => .inl member⟩

theorem Used.owns (used : Used n new) (sub : ∀ a ∈ new, a ∈ old) : Owns n n old new :=
  ⟨le_rfl,used.once,fun a member => .inl (sub a member)⟩

theorem Owns.used (owns : Owns n m old new) (used : Used n old) : Used m new := by
  refine ⟨owns.once,fun a member => ?_⟩
  rcases owns.source a member with inside | inside
  · exact Nat.lt_of_lt_of_le (used.below a inside) owns.grows
  · exact inside.2

theorem Owns.trans (first : Owns n m old new) (second : Owns m k new last) : Owns n k old last := by
  refine ⟨first.grows.trans second.grows,second.once,fun a member => ?_⟩
  have one := first.grows
  have two := second.grows
  rcases second.source a member with inside | inside
  · rcases first.source a inside with inside | inside
    · exact .inl inside
    · exact .inr ⟨inside.1,by omega⟩
  · exact .inr ⟨by omega,inside.2⟩

/-- A result does not own a token in use that it was not given. -/
theorem Owns.notMem (owns : Owns n m old new) {a : Nat} (inUse : a < n) (outside : a ∉ old) : a ∉ new := by
  intro member
  rcases owns.source a member with inside | inside
  · exact outside inside
  · exact Nat.lt_irrefl _ (Nat.lt_of_lt_of_le inUse inside.1)

/-- What a result owns is apart from what else is in use. -/
theorem Owns.apart (owns : Owns n m old new) (used : Used n (old ++ other)) : ∀ a ∈ new, a ∉ other := by
  intro a member also
  have inUse := used.below a (by simp [also])
  rcases owns.source a member with inside | inside
  · exact List.nodup_append.mp used.once |>.2.2 a inside a also rfl
  · omega

theorem Owns.append (owns : Owns n m old new) (used : Used n (old ++ other)) :
    Owns n m (old ++ other) (new ++ other) := by
  refine ⟨owns.grows,?_,fun a member => ?_⟩
  · exact List.nodup_append.mpr ⟨owns.once,used.right.once,fun a member b also same =>
      owns.apart used a member (same ▸ also)⟩
  · rcases List.mem_append.mp member with member | member
    · exact (owns.source a member).imp (fun inside => by simp [inside]) id
    · exact .inl (by simp [member])

theorem Owns.perm {old' new' : List Nat} (owns : Owns n m old new) (before : old.Perm old') (after : new.Perm new') :
    Owns n m old' new' :=
  ⟨owns.grows,after.nodup_iff.mp owns.once,fun a member =>
    (owns.source a (after.mem_iff.mpr member)).imp before.mem_iff.mp id⟩

theorem Owns.prepend (owns : Owns n m old new) (used : Used n (other ++ old)) :
    Owns n m (other ++ old) (other ++ new) := by
  have swapped : Used n (old ++ other) := used.subperm List.perm_append_comm.subperm
  exact (owns.append swapped).perm List.perm_append_comm List.perm_append_comm

/-- A new token over what a result owns. -/
theorem Owns.cons (owns : Owns (n + 1) m old new) (used : Used n old) : Owns n m old (n :: new) := by
  have grows := owns.grows
  refine ⟨by omega,List.nodup_cons.mpr ⟨fun member => ?_,owns.once⟩,fun a member => ?_⟩
  · rcases owns.source n member with inside | inside
    · exact Nat.lt_irrefl _ (used.below n inside)
    · omega
  · rcases List.mem_cons.mp member with rfl | member
    · exact .inr ⟨le_rfl,by omega⟩
    · exact (owns.source a member).imp id fun inside => ⟨by omega,inside.2⟩

theorem Used.grow (used : Used n old) (grows : n ≤ m) : Used m old :=
  ⟨used.once,fun a member => Nat.lt_of_lt_of_le (used.below a member) grows⟩

theorem Used.length_le {n : Nat} {l : List Nat} (used : Used n l) : l.length ≤ n := by
  have sub : l.Subperm (List.range n) := used.once.subperm fun a member => List.mem_range.mpr (used.below a member)
  simpa using sub.length_le

theorem ne_of_nodup {l k : List Addr} (once : (l ++ k).Nodup) {a b : Addr} (left : a ∈ l) (right : b ∈ k) : a ≠ b :=
  (List.nodup_append.mp once).2.2 a left b right

end

theorem Used.trees_le {n : Addr} {ts : List Tree} (used : Used n (addrsEach ts)) : ts.length ≤ n :=
  (length_addrsEach ts).trans used.length_le

theorem exists_succ {n m : Nat} (more : m < n) : ∃ k, n = k + 1 := ⟨n - 1,by omega⟩

/-! ### `fix_ors` -/

theorem wrapEach_owns {n : Addr} {segs : List (List Tree)} (used : Used n (addrsEach segs.flatten)) :
    Owns n (wrapEach n segs).1 (addrsEach segs.flatten) (addrsEach (wrapEach n segs).2) := by
  have group (n : Addr) (seg : List Tree) (segs : List (List Tree)) (used : Used n (addrsEach (seg :: segs).flatten))
      (rest : Owns (n + 1) (wrapEach (n + 1) segs).1 (addrsEach segs.flatten) (addrsEach (wrapEach (n + 1) segs).2)) :
      Owns n (wrapEach (n + 1) segs).1 (addrsEach (seg :: segs).flatten)
        (addrsEach (.node n .openParen parenText seg :: (wrapEach (n + 1) segs).2)) := by
    rw [List.flatten_cons,addrsEach_append] at used ⊢
    rw [addrsEach,Tree.addrs,List.cons_append]
    exact (rest.prepend (used.grow (Nat.le_succ n))).cons used
  induction segs generalizing n with
  | nil => exact used.refl
  | cons seg segs ih =>
    have later : Used n (addrsEach segs.flatten) := by
      rw [List.flatten_cons,addrsEach_append] at used
      exact used.right
    match seg with
    | [] => exact group n [] segs used (ih (later.grow (Nat.le_succ n)))
    | [t] =>
      rw [List.flatten_cons,addrsEach_append] at used ⊢
      have rest := ih later
      rw [wrapEach,addrsEach]
      simpa [addrsEach] using rest.prepend used
    | t :: u :: us => exact group n (t :: u :: us) segs used (ih (later.grow (Nat.le_succ n)))

theorem joinOrs_owns {n : Addr} {ts : List Tree} (used : Used n (addrsEach ts)) :
    Owns n (joinOrs n ts).1 (addrsEach ts) (addrsEach (joinOrs n ts).2) := by
  obtain ⟨whole,parts⟩ := splitTrees_sublist ts [] [] []
  rw [joinOrs]
  split
  · exact (used.sublist (addrsEach_sublist whole)).owns (addrsEach_sublist whole).subset
  · rw [← starts_flatten] at parts
    have inside := addrsEach_sublist parts
    have some : Used n (addrsEach (starts ts).flatten) := used.sublist inside
    have wrapped := wrapEach_owns (some.grow (Nat.le_succ n))
    rw [addrsEach,addrsEach,List.append_nil,Tree.addrs]
    exact (some.owns inside.subset).trans (wrapped.cons some)

theorem orsEach_owns {ts : List Tree} (each : ∀ t ∈ ts, ∀ n, Used n t.addrs → Owns n (t.ors n).1 t.addrs (t.ors n).2.addrs)
    {n : Addr} (used : Used n (addrsEach ts)) :
    Owns n (orsEach n ts).1 (addrsEach ts) (addrsEach (orsEach n ts).2) := by
  induction ts generalizing n with
  | nil => exact used.refl
  | cons t ts ih =>
    have first := (each t (by simp) n used.left).append used
    have later : Used (t.ors n).1 ((t.ors n).2.addrs ++ addrsEach ts) := first.used used
    exact first.trans ((ih (fun u member => each u (by simp [member])) later.right).prepend later)

theorem ors_owns (t : Tree) {n : Addr} (used : Used n t.addrs) : Owns n (t.ors n).1 t.addrs (t.ors n).2.addrs := by
  induction t using Tree.induct generalizing n with
  | node a type token child ih =>
    by_cases same : child = [] ∨ type = .dquote
    · rw [Tree.ors,if_pos (by rcases same with same | same <;> simp [same])]
      exact used.refl
    · rw [not_or] at same
      rw [ors_node same.1 same.2]
      have below : Used n ([a] ++ addrsEach child) := used
      have fixed := orsEach_owns (fun t member m => ih t member) below.right
      exact (fixed.trans (joinOrs_owns (fixed.used below.right))).prepend below

theorem orsAll_owns {n : Addr} {ts : List Tree} (used : Used n (addrsEach ts)) :
    Owns n (orsEach n ts).1 (addrsEach ts) (addrsEach (orsEach n ts).2) :=
  orsEach_owns (fun t member m => ors_owns t) used

/-! ### `fix_nots` -/

theorem rootOf_owns {n : Addr} (type : TokenType) (token : Text) {ts : List Tree} (used : Used n (addrsEach ts)) :
    Owns n (rootOf n type token ts).1 (addrsEach ts) (addrsEach (rootOf n type token ts).2) := by
  match ts with
  | [] => exact used.refl
  | [t] => exact used.refl
  | t :: u :: us =>
    have root : addrsEach (rootOf n type token (t :: u :: us)).2 = n :: addrsEach (t :: u :: us) := by
      simp [rootOf,addrsEach,Tree.addrs]
    rw [root]
    exact (used.grow (Nat.le_succ n)).refl.cons used

theorem joinNots_owns {n : Addr} {ts : List Tree} (used : Used n (addrsEach ts)) :
    Owns n (joinNots n ts).1 (addrsEach ts) (addrsEach (joinNots n ts).2) := by
  rw [joinNots]
  split
  · exact used.refl
  · have sub : (addrsEach (sortNots ts).1 ++ addrsEach (sortNots ts).2).Subperm (addrsEach ts) := by
      simpa only [addrsEach_eq] using sortNots_flatMap Tree.addrs ts
    have sorted := used.subperm sub
    have first := (rootOf_owns .or orText sorted.left).append sorted
    have later := first.used sorted
    have both := first.trans ((rootOf_owns .openParen parenText later.right).prepend later)
    have after := both.used sorted
    rw [addrsEach,addrsEach,List.append_nil,Tree.addrs,addrsEach_append]
    exact (sorted.owns sub.subset).trans (both.trans ((after.grow (Nat.le_succ _)).refl.cons after))

theorem notsEach_owns {ts : List Tree}
    (each : ∀ t ∈ ts, ∀ n, Used n t.addrs → Owns n (t.nots n).1 t.addrs (t.nots n).2.addrs)
    {n : Addr} (used : Used n (addrsEach ts)) :
    Owns n (notsEach n ts).1 (addrsEach ts) (addrsEach (notsEach n ts).2) := by
  induction ts using sortNots.induct generalizing n with
  | case1 => exact used.refl
  | case2 t negation =>
    rw [notsEach_last n negation]
    exact (each t (by simp) n used.left).append used
  | case3 t negation u us ih =>
    rw [notsEach_pair n negation]
    have first := (each t (by simp) n used.left).append used
    have later : Used (t.nots n).1 ((t.nots n).2.addrs ++ (u.addrs ++ addrsEach us)) := first.used used
    have rest := (ih (fun v member => each v (by simp [member])) later.right.right).prepend later.right
    exact first.trans (rest.prepend later)
  | case4 t us other ih =>
    rw [notsEach_other n (by simpa using other)]
    have first := (each t (by simp) n used.left).append used
    have later : Used (t.nots n).1 ((t.nots n).2.addrs ++ addrsEach us) := first.used used
    exact first.trans ((ih (fun u member => each u (by simp [member])) later.right).prepend later)

theorem nots_owns (t : Tree) {n : Addr} (used : Used n t.addrs) : Owns n (t.nots n).1 t.addrs (t.nots n).2.addrs := by
  induction t using Tree.induct generalizing n with
  | node a type token child ih =>
    by_cases same : child = [] ∨ type = .dquote
    · rw [Tree.nots,if_pos (by rcases same with same | same <;> simp [same])]
      exact used.refl
    · rw [not_or] at same
      rw [nots_node same.1 same.2]
      have below : Used n ([a] ++ addrsEach child) := used
      have fixed := notsEach_owns (fun t member m => ih t member) below.right
      exact (fixed.trans (joinNots_owns (fixed.used below.right))).prepend below

theorem notsAll_owns {n : Addr} {ts : List Tree} (used : Used n (addrsEach ts)) :
    Owns n (notsEach n ts).1 (addrsEach ts) (addrsEach (notsEach n ts).2) :=
  notsEach_owns (fun t member m => nots_owns t) used

end AnotherC.Tokens
