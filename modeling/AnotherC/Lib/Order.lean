import Mathlib.Data.List.SplitBy
import AnotherC.Lib.Heap

/-!
Comparison functions in the manner of C: `compare a b` is negative, zero or
positive. `Total` are the laws of a total preorder, `Sorted` a non-decreasing
and `Strict` a strictly increasing list, so one with one element per key.
`Groups` are the elements of a list sorted into groups of one key each, `runs`
the maximal runs of adjacent equal elements.
-/
namespace AnotherC.Lib.Order
open AnotherC.Lib.Heap (Weak)

section
variable {ρ : Type}

/-- The sign of a comparison says how a total preorder relates its arguments. -/
structure Total (compare : ρ → ρ → Int) : Prop where
  swap : ∀ a b, compare a b < 0 ↔ 0 < compare b a
  trans : ∀ a b c, compare a b ≤ 0 → compare b c ≤ 0 → compare a c ≤ 0

variable (compare : ρ → ρ → Int)

/-- Non-decreasing. -/
def Sorted (xs : List ρ) : Prop := xs.Pairwise (fun a b => compare a b ≤ 0)

/-- Strictly increasing: sorted, and no key twice. -/
def Strict (xs : List ρ) : Prop := xs.Pairwise (fun a b => compare a b < 0)

/-- The elements with the key of `key`. -/
def sameKey (key : ρ) (xs : List ρ) : List ρ := xs.filter (fun a => compare key a = 0)

variable {compare}

theorem Strict.sorted {xs : List ρ} (strict : Strict compare xs) : Sorted compare xs :=
  strict.imp (fun less => Int.le_of_lt less)

namespace Total
variable (total : Total compare)
include total

theorem refl (a : ρ) : compare a a = 0 := by
  have := total.swap a a
  omega

theorem le_iff (a b : ρ) : compare a b ≤ 0 ↔ 0 ≤ compare b a := by
  have := total.swap b a
  omega

theorem zero_swap {a b : ρ} : compare a b = 0 ↔ compare b a = 0 := by
  have := total.swap a b
  have := total.swap b a
  omega

theorem zero_trans {a b c : ρ} (ab : compare a b = 0) (bc : compare b c = 0) : compare a c = 0 := by
  have forth := total.trans a b c (by omega) (by omega)
  have back := total.trans c b a (by have := total.zero_swap.mp bc; omega) (by have := total.zero_swap.mp ab; omega)
  have := total.le_iff c a
  omega

theorem lt_of_lt_of_le {a b c : ρ} (ab : compare a b < 0) (bc : compare b c ≤ 0) : compare a c < 0 := by
  rcases Int.lt_or_le (compare a c) 0 with less | notLess
  · exact less
  · have ca := (total.le_iff c a).mpr notLess
    have ba := total.trans b c a bc ca
    have := (total.swap a b).mp ab
    omega

theorem lt_of_le_of_lt {a b c : ρ} (ab : compare a b ≤ 0) (bc : compare b c < 0) : compare a c < 0 := by
  rcases Int.lt_or_le (compare a c) 0 with less | notLess
  · exact less
  · have ca := (total.le_iff c a).mpr notLess
    have cb := total.trans c a b ca ab
    have := (total.swap b c).mp bc
    omega

theorem lt_of_zero_of_lt {a b c : ρ} (ab : compare a b = 0) (bc : compare b c < 0) : compare a c < 0 :=
  total.lt_of_le_of_lt (by omega) bc

/-- "Comes before" by a total preorder is a strict weak order. -/
theorem weak {α : Type} (key : α → ρ) : Weak fun a b => decide (compare (key a) (key b) < 0) where
  asymm a b less := by
    have := (total.swap (key a) (key b)).mp (by simpa using less)
    simp only [decide_eq_false_iff_not]
    omega
  trans a b c ab bc := by
    simp only [decide_eq_false_iff_not,Int.not_lt] at *
    rw [← total.le_iff] at *
    exact total.trans _ _ _ bc ab

end Total

theorem sameKey_perm {key : ρ} {xs ys : List ρ} (perm : xs.Perm ys) :
    (sameKey compare key xs).Perm (sameKey compare key ys) := perm.filter _

theorem sameKey_all {key : ρ} {xs : List ρ} (all : ∀ a ∈ xs, compare key a = 0) : sameKey compare key xs = xs :=
  List.filter_eq_self.mpr (by simpa using all)

theorem sameKey_none {key : ρ} {xs : List ρ} (none : ∀ a ∈ xs, compare key a ≠ 0) : sameKey compare key xs = [] :=
  List.filter_eq_nil_iff.mpr (by simpa using none)

/-! ### Groups by key -/

variable (compare) in
/-- The elements of `xs` in groups: one group for each key, holding the elements
    of `xs` with that key, and the keys in ascending order. -/
structure Groups (xs : List ρ) (groups : List (List ρ)) : Prop where
  whole : groups.flatten.Perm xs
  oneKey : ∀ group ∈ groups, ∃ key ∈ group, group.Perm (sameKey compare key xs)
  ascending : groups.Pairwise (fun group later => ∀ a ∈ group, ∀ b ∈ later, compare a b < 0)

theorem Groups.nil : Groups compare ([] : List ρ) [] := ⟨List.Perm.refl _,by simp,List.Pairwise.nil⟩

theorem Groups.perm {xs ys : List ρ} {groups : List (List ρ)} (perm : xs.Perm ys) (grouped : Groups compare xs groups) :
    Groups compare ys groups where
  whole := grouped.whole.trans perm
  oneKey group member := by
    obtain ⟨key,inGroup,isKey⟩ := grouped.oneKey group member
    exact ⟨key,inGroup,isKey.trans (sameKey_perm perm)⟩
  ascending := grouped.ascending

/-- A group of the least key in front of the groups of what is left. -/
theorem Groups.cons (total : Total compare) {xs group rest : List ρ} {groups : List (List ρ)} {first : ρ}
    (perm : xs.Perm (group ++ rest)) (member : first ∈ group) (same : ∀ x ∈ group, compare first x = 0)
    (later : ∀ x ∈ rest, compare first x < 0) (grouped : Groups compare rest groups) :
    Groups compare xs (group :: groups) where
  whole := (grouped.whole.append_left group).trans perm.symm
  oneKey g inside := by
    rcases List.mem_cons.mp inside with rfl | inRest
    · refine ⟨first,member,List.Perm.symm ?_⟩
      refine (sameKey_perm perm).trans ?_
      rw [sameKey,List.filter_append]
      have none : sameKey compare first rest = [] :=
        sameKey_none (fun x inside => Int.ne_of_lt (later x inside))
      have all := sameKey_all same
      simp only [sameKey] at none all
      rw [none,all,List.append_nil]
    · obtain ⟨key,inGroup,isKey⟩ := grouped.oneKey g inRest
      have keyInRest : key ∈ rest := grouped.whole.mem_iff.mp (List.mem_flatten.mpr ⟨g,inRest,inGroup⟩)
      refine ⟨key,inGroup,isKey.trans (List.Perm.symm ?_)⟩
      refine (sameKey_perm perm).trans ?_
      rw [sameKey,List.filter_append]
      have none : sameKey compare key group = [] := by
        refine sameKey_none (fun x inside => ?_)
        have back := total.zero_swap.mp (same x inside)
        have less := total.lt_of_le_of_lt (Int.le_of_eq back) (later key keyInRest)
        exact Int.ne_of_gt ((total.swap x key).mp less)
      simp only [sameKey] at none
      rw [none,List.nil_append]
      exact List.Perm.refl _
  ascending := by
    refine List.pairwise_cons.mpr ⟨fun g inside a inGroup b inG => ?_,grouped.ascending⟩
    have inRest : b ∈ rest := grouped.whole.mem_iff.mp (List.mem_flatten.mpr ⟨g,inside,inG⟩)
    exact total.lt_of_le_of_lt (Int.le_of_eq (total.zero_swap.mp (same a inGroup))) (later b inRest)

/-! ### Runs of adjacent equal elements -/

variable (compare) in
/-- Comparing equal is an equivalence among the elements of `xs`. -/
structure EquivalenceOn (xs : List ρ) : Prop where
  refl : ∀ a ∈ xs, compare a a = 0
  symm : ∀ a ∈ xs, ∀ b ∈ xs, compare a b = 0 → compare b a = 0
  trans : ∀ a ∈ xs, ∀ b ∈ xs, ∀ c ∈ xs, compare a b = 0 → compare b c = 0 → compare a c = 0

theorem EquivalenceOn.mono {xs ys : List ρ} (same : EquivalenceOn compare xs) (sub : ∀ a ∈ ys, a ∈ xs) :
    EquivalenceOn compare ys where
  refl a inA := same.refl a (sub a inA)
  symm a inA b inB := same.symm a (sub a inA) b (sub b inB)
  trans a inA b inB c inC := same.trans a (sub a inA) b (sub b inB) c (sub c inC)

variable (compare) in
/-- The maximal runs of adjacent equal elements. -/
def runs (xs : List ρ) : List (List ρ) := xs.splitBy fun a b => compare a b = 0

@[simp] theorem runs_nil : runs compare [] = [] := rfl

variable (compare) in
/-- The elements up to the first that differs from `first`, and the rest. -/
def spanRun (first : ρ) : List ρ → List ρ × List ρ
  | [] => ([],[])
  | x :: xs =>
    if compare first x = 0 then (x :: (spanRun first xs).1,(spanRun first xs).2)
    else ([],x :: xs)

theorem spanRun_same_cons {first x : ρ} (same : compare first x = 0) (xs : List ρ) :
    spanRun compare first (x :: xs) = (x :: (spanRun compare first xs).1,(spanRun compare first xs).2) := if_pos same

theorem spanRun_differs {first x : ρ} (differs : compare first x ≠ 0) (xs : List ρ) :
    spanRun compare first (x :: xs) = ([],x :: xs) := if_neg differs

variable (compare) in
theorem spanRun_append (first : ρ) (xs : List ρ) : (spanRun compare first xs).1 ++ (spanRun compare first xs).2 = xs := by
  induction xs with
  | nil => rfl
  | cons x xs ih =>
    simp only [spanRun]
    split
    · simpa using ih
    · rfl

variable (compare) in
theorem spanRun_same (first : ρ) (xs : List ρ) : ∀ x ∈ (spanRun compare first xs).1, compare first x = 0 := by
  induction xs with
  | nil => simp [spanRun]
  | cons x xs ih =>
    simp only [spanRun]
    split
    case isTrue same =>
      intro y member
      rcases List.mem_cons.mp member with rfl | later
      · exact same
      · exact ih y later
    case isFalse => simp

variable (compare) in
theorem spanRun_head (first : ρ) (xs : List ρ) : ∀ x ∈ (spanRun compare first xs).2.head?, compare first x ≠ 0 := by
  induction xs with
  | nil => simp [spanRun]
  | cons x xs ih =>
    simp only [spanRun]
    split
    case isTrue => exact ih
    case isFalse differs => simpa using differs

variable (compare) in
theorem spanRun_length (first : ρ) (xs : List ρ) : (spanRun compare first xs).2.length ≤ xs.length := by
  have whole := congrArg List.length (spanRun_append compare first xs)
  rw [List.length_append] at whole
  omega

/-- The first maximal run holds what is equal to the first element. -/
theorem runs_cons {x : ρ} {xs : List ρ} (same : EquivalenceOn compare (x :: xs)) :
    runs compare (x :: xs) = (x :: (spanRun compare x xs).1) :: runs compare (spanRun compare x xs).2 := by
  have whole := spanRun_append compare x xs
  have equal : ∀ a ∈ x :: (spanRun compare x xs).1, a ∈ x :: xs ∧ compare x a = 0 := by
    intro a member
    rcases List.mem_cons.mp member with rfl | later
    · exact ⟨by simp,same.refl a (by simp)⟩
    · refine ⟨List.mem_cons_of_mem _ ?_,spanRun_same compare x xs a later⟩
      rw [← whole]
      exact List.mem_append_left _ later
  have chain : (x :: (spanRun compare x xs).1).IsChain fun a b => decide (compare a b = 0) := by
    refine List.Pairwise.isChain (List.Pairwise.imp_of_mem ?_ (List.pairwise_of_forall (fun _ _ => trivial)))
    intro a b inA inB _
    obtain ⟨memberA,sameA⟩ := equal a inA
    obtain ⟨memberB,sameB⟩ := equal b inB
    simp only [decide_eq_true_eq]
    exact same.trans a memberA x (by simp) b memberB (same.symm x (by simp) a memberA sameA) sameB
  have split := List.splitBy_append (r := fun a b => decide (compare a b = 0))
    (l := x :: (spanRun compare x xs).1) (m := (spanRun compare x xs).2) ?_
  · rw [List.cons_append,whole] at split
    rw [runs,split,List.splitBy_of_isChain (by simp) chain]
    rfl
  · intro a last y head
    have inRun := equal a (List.mem_of_mem_getLast? last)
    have inXs : y ∈ x :: xs := by
      refine List.mem_cons_of_mem _ ?_
      rw [← whole]
      exact List.mem_append_right _ (List.mem_of_mem_head? head)
    have differs := spanRun_head compare x xs y head
    simp only [decide_eq_false_iff_not]
    exact fun equalY => differs (same.trans x (by simp) a inRun.1 y inXs inRun.2 equalY)

theorem Total.equivalenceOn (total : Total compare) (xs : List ρ) : EquivalenceOn compare xs :=
  ⟨fun a _ => total.refl a,fun _ _ _ _ => total.zero_swap.mp,fun _ _ _ _ _ _ => total.zero_trans⟩

/-- The runs of a sorted list are its groups by key. -/
theorem runs_groups (total : Total compare) {xs : List ρ} (sorted : Sorted compare xs) :
    Groups compare xs (runs compare xs) := by
  induction size : xs.length using Nat.strongRecOn generalizing xs with
  | ind size ih =>
    cases xs with
    | nil => exact Groups.nil
    | cons x xs =>
      have whole := spanRun_append compare x xs
      have fewer := spanRun_length compare x xs
      obtain ⟨least,rest⟩ := List.pairwise_cons.mp sorted
      rw [List.length_cons] at size
      rw [runs_cons (total.equivalenceOn _)]
      have restSorted : Sorted compare (spanRun compare x xs).2 := by
        rw [← whole] at rest
        exact (List.pairwise_append.mp rest).2.1
      refine Groups.cons total (by rw [List.cons_append,whole]) (List.mem_cons_self (a := x)) ?_ ?_
        (ih (spanRun compare x xs).2.length (by omega) restSorted rfl)
      · intro a member
        rcases List.mem_cons.mp member with rfl | later
        · exact total.refl a
        · exact spanRun_same compare x xs a later
      · intro a member
        cases left : (spanRun compare x xs).2 with
        | nil => simp [left] at member
        | cons y ys =>
          rw [left] at member restSorted
          have differs := spanRun_head compare x xs y (by rw [left]; rfl)
          have inXs : y ∈ xs := by
            rw [← whole,left]
            exact List.mem_append_right _ (by simp)
          have less : compare x y < 0 := by
            have := least y inXs
            omega
          rcases List.mem_cons.mp member with rfl | later
          · exact less
          · exact total.lt_of_lt_of_le less ((List.pairwise_cons.mp restSorted).1 a later)

/-! ### One element for each key -/

variable (compare) in
/-- `xs` are elements of `ys`, and every key of `ys` is there. -/
structure SameKeys (xs ys : List ρ) : Prop where
  sub : ∀ x ∈ xs, x ∈ ys
  cover : ∀ y ∈ ys, ∃ x ∈ xs, compare x y = 0

namespace SameKeys
variable (total : Total compare)
include total

theorem of_perm {xs ys : List ρ} (perm : xs.Perm ys) : SameKeys compare xs ys :=
  ⟨fun _ => perm.mem_iff.mp,fun y member => ⟨y,perm.mem_iff.mpr member,total.refl y⟩⟩

theorem trans {xs ys zs : List ρ} (first : SameKeys compare xs ys) (second : SameKeys compare ys zs) :
    SameKeys compare xs zs := by
  refine ⟨fun x member => second.sub x (first.sub x member),fun z member => ?_⟩
  obtain ⟨y,inY,yz⟩ := second.cover z member
  obtain ⟨x,inX,xy⟩ := first.cover y inY
  exact ⟨x,inX,total.zero_trans xy yz⟩

omit total in
theorem append {xs ys xs' ys' : List ρ} (first : SameKeys compare xs ys) (second : SameKeys compare xs' ys') :
    SameKeys compare (xs ++ xs') (ys ++ ys') := by
  refine ⟨fun x member => ?_,fun y member => ?_⟩
  · rcases List.mem_append.mp member with left | right
    · exact List.mem_append_left _ (first.sub x left)
    · exact List.mem_append_right _ (second.sub x right)
  · rcases List.mem_append.mp member with left | right
    · obtain ⟨x,inX,same⟩ := first.cover y left
      exact ⟨x,List.mem_append_left _ inX,same⟩
    · obtain ⟨x,inX,same⟩ := second.cover y right
      exact ⟨x,List.mem_append_right _ inX,same⟩

end SameKeys

theorem heads_length (groups : List (List ρ)) : (groups.filterMap List.head?).length ≤ groups.flatten.length := by
  induction groups with
  | nil => simp
  | cons group groups ih =>
    cases group with
    | nil => exact ih
    | cons x xs =>
      simp only [List.filterMap_cons,List.head?_cons,List.length_cons,List.flatten_cons,List.length_append]
      omega

/-- The heads of the groups are one element for each key, in ascending order. -/
theorem Groups.heads (total : Total compare) {xs : List ρ} {groups : List (List ρ)} (grouped : Groups compare xs groups) :
    Strict compare (groups.filterMap List.head?) ∧ SameKeys compare (groups.filterMap List.head?) xs := by
  refine ⟨?_,fun x member => ?_,fun y member => ?_⟩
  · refine List.Pairwise.filterMap _ (fun group later ascending a headA b headB => ?_) grouped.ascending
    exact ascending a (List.mem_of_mem_head? headA) b (List.mem_of_mem_head? headB)
  · obtain ⟨group,inGroups,head⟩ := List.mem_filterMap.mp member
    exact grouped.whole.mem_iff.mp (List.mem_flatten.mpr ⟨group,inGroups,List.mem_of_mem_head? head⟩)
  · obtain ⟨group,inGroups,inGroup⟩ := List.mem_flatten.mp (grouped.whole.mem_iff.mpr member)
    obtain ⟨key,_,isKey⟩ := grouped.oneKey group inGroups
    have sameAsKey : ∀ a ∈ group, compare key a = 0 := fun a inside => by
      simpa using (List.mem_filter.mp (isKey.mem_iff.mp inside)).2
    cases group with
    | nil => cases inGroup
    | cons head more =>
      refine ⟨head,List.mem_filterMap.mpr ⟨_,inGroups,rfl⟩,?_⟩
      exact total.zero_trans (total.zero_swap.mp (sameAsKey head (by simp))) (sameAsKey y inGroup)

/-! ### Runs of what equals the first element -/

variable (compare) in
/-- A list cut into runs, for any comparison: a run goes on as long as what comes next
    equals its first element. -/
def firstRuns : List ρ → List (List ρ)
  | [] => []
  | x :: xs => (x :: (spanRun compare x xs).1) :: firstRuns (spanRun compare x xs).2
termination_by xs => xs.length
decreasing_by exact Nat.lt_succ_of_le (spanRun_length compare x xs)

variable (compare) in
/-- The groups are the list cut into such runs: none is empty, none holds an element
    that differs from its first one, and none could go on. -/
structure Partitions (xs : List ρ) (groups : List (List ρ)) : Prop where
  whole : groups.flatten = xs
  nonempty : ∀ group ∈ groups, group ≠ []
  equal : ∀ group ∈ groups, ∀ first ∈ group.head?, ∀ x ∈ group.tail, compare first x = 0
  maximal : groups.IsChain fun group next => ∀ first ∈ group.head?, ∀ x ∈ next.head?, compare first x ≠ 0

theorem firstRuns_cons (x : ρ) (xs : List ρ) :
    firstRuns compare (x :: xs) = (x :: (spanRun compare x xs).1) :: firstRuns compare (spanRun compare x xs).2 := by
  rw [firstRuns]

theorem firstRuns_head (xs : List ρ) : ∀ next ∈ (firstRuns compare xs).head?, next.head? = xs.head? := by
  intro next member
  cases xs with
  | nil => simp [firstRuns] at member
  | cons x xs =>
    rw [firstRuns_cons,List.head?_cons,Option.mem_some_iff] at member
    rw [← member]
    rfl

theorem firstRuns_partition (xs : List ρ) : Partitions compare xs (firstRuns compare xs) := by
  induction size : xs.length using Nat.strongRecOn generalizing xs with
  | ind size ih =>
    cases xs with
    | nil => exact ⟨by rw [firstRuns]; rfl,by simp [firstRuns],by simp [firstRuns],by rw [firstRuns]; exact .nil⟩
    | cons x xs =>
      have fewer := spanRun_length compare x xs
      rw [List.length_cons] at size
      have rest := ih (spanRun compare x xs).2.length (by omega) (spanRun compare x xs).2 rfl
      rw [firstRuns_cons]
      refine ⟨?_,?_,?_,?_⟩
      · rw [List.flatten_cons,rest.whole,List.cons_append,spanRun_append]
      · intro group member
        rcases List.mem_cons.mp member with rfl | later
        · exact List.cons_ne_nil _ _
        · exact rest.nonempty group later
      · intro group member
        rcases List.mem_cons.mp member with rfl | later
        · intro first isFirst y inside
          cases isFirst
          exact spanRun_same compare x xs y inside
        · exact rest.equal group later
      · refine List.isChain_cons.mpr ⟨fun next isNext first isFirst y isHead => ?_,rest.maximal⟩
        cases isFirst
        rw [firstRuns_head _ next isNext] at isHead
        exact spanRun_head compare x xs y isHead

end
end AnotherC.Lib.Order
