import Mathlib.Data.List.Sort
import Mathlib.Data.List.Nodup
import Mathlib.Order.Basic
import Mathlib.Algebra.GroupWithZero.Nat

/-!
# The best items: `ac_top_n`

A buffer for twice as many items as are wanted: when it is full, it is sorted and
cut in half. Where `macro_sort` sorts, the items delivered are the best ones only
as long as nothing better comes after the buffer has filled, and all items that
fill it have one weight (`top_n_correct_iff`): the item that finds the buffer full
is dropped, and the comparator orders no two items of different weights.
-/
namespace AnotherC.TopN
set_option linter.unusedVariables false
universe u

/-- `ac_top_n_item_t`. -/
structure Item (Weight : Type u) where
  id : Nat
  weight : Weight

/-- `ac_top_n_t`: `iw` holds the slots written so far, the pointers are offsets. -/
structure TopN (Weight : Type u) where
  iw : List (Item Weight)
  split : Nat
  p : Nat
  ep : Nat

variable {Weight : Type u} [LinearOrder Weight]

/-- `compare_ac_top_n_item`: the function returns a `bool`, so -1 becomes true. -/
def compareItem (a b : Item Weight) : Bool :=
  if a.weight ≠ b.weight then
    let c : Int := if a.weight < b.weight then 1 else -1
    c ≠ 0
  else a.id < b.id

/-- `ac_top_n_init`, where `size * 2` is a `uint32_t`. -/
def acTopNInit (size : Nat) : TopN Weight :=
  let size := size * 2 % 2 ^ 32
  ⟨[],size,0,size⟩

/-- `*p = x; p++`. -/
def TopN.put (t : TopN Weight) (x : Item Weight) : TopN Weight :=
  { t with iw := t.iw.take t.p ++ x :: t.iw.drop (t.p + 1), p := t.p + 1 }

/-- What `sort_ac_top_n_item` does to the items of an array. -/
abbrev SortItems (Weight : Type u) := List (Item Weight) → List (Item Weight)

def acTopNAdd (sort : SortItems Weight) (t : TopN Weight) (x : Item Weight) : TopN Weight :=
  if t.p < t.split then t.put x
  else if t.p < t.ep then
    if (t.iw[t.split]?).any fun s => s.weight < x.weight then t.put x else t
  else if t.split = t.ep then
    { t with iw := sort t.iw, split := t.ep / 2, p := t.ep / 2 }
  else { t with iw := sort t.iw, p := t.split }

/-- `ac_top_n_finish`: the items from `iw` to `p`, sorted. -/
def acTopNFinish (sort : SortItems Weight) (t : TopN Weight) : List (Item Weight) := sort (t.iw.take t.p)

/-- What is delivered after the items have been added. -/
def delivered (sort : SortItems Weight) (size : Nat) (xs : List (Item Weight)) : List (Item Weight) :=
  acTopNFinish sort (xs.foldl (acTopNAdd sort) (acTopNInit size))

/-! ## Sorting -/

/-- The comparator is a strict weak order on the items. -/
structure WeakOrder (l : List (Item Weight)) : Prop where
  irrefl : ∀ a ∈ l, compareItem a a = false
  trans : ∀ a ∈ l, ∀ b ∈ l, ∀ c ∈ l, compareItem a b = true → compareItem b c = true → compareItem a c = true
  incomparable : ∀ a ∈ l, ∀ b ∈ l, ∀ c ∈ l, compareItem a b = false → compareItem b a = false →
    compareItem b c = false → compareItem c b = false → compareItem a c = false ∧ compareItem c a = false

/-- `macro_sort`: the items are rearranged, and sorted where the comparator is a
    strict weak order on them. -/
structure Sorts (sort : SortItems Weight) : Prop where
  perm : ∀ l, (sort l).Perm l
  sorted : ∀ l, WeakOrder l → (sort l).Pairwise fun a b => compareItem b a = false

/-- By weight descending, then by id. -/
def before (a b : Item Weight) : Bool := b.weight < a.weight || (a.weight = b.weight && a.id ≤ b.id)

/-- The best `n` items. -/
def best (n : Nat) (xs : List (Item Weight)) : List (Item Weight) := (xs.mergeSort before).take n

/-- The weights of all items are the same. -/
def Uniform (l : List (Item Weight)) : Prop := ∀ a ∈ l, ∀ b ∈ l, a.weight = b.weight

/-- The items that fill the buffer have one weight, and each that comes after them
    is worse than `n` of them. -/
def Flat (n : Nat) (xs : List (Item Weight)) : Prop :=
  Uniform (xs.take (n * 2 % 2 ^ 32)) ∧
    (xs.length ≤ n * 2 % 2 ^ 32 ∨ n * 2 < 2 ^ 32 ∧
      ∀ x ∈ xs.drop (n * 2), n ≤ (xs.take (n * 2)).countP fun a => before a x)

theorem before_iff (a b : Item Weight) : before a b = true ↔ b.weight < a.weight ∨ a.weight = b.weight ∧ a.id ≤ b.id := by
  simp [before]

theorem before_total (a b : Item Weight) : (before a b || before b a) = true := by
  rw [Bool.or_eq_true,before_iff,before_iff]
  rcases lt_trichotomy a.weight b.weight with less | equal | more
  · exact .inr (.inl less)
  · rcases Nat.le_total a.id b.id with first | second
    · exact .inl (.inr ⟨equal,first⟩)
    · exact .inr (.inr ⟨equal.symm,second⟩)
  · exact .inl (.inl more)

theorem before_trans (a b c : Item Weight) (first : before a b = true) (second : before b c = true) :
    before a c = true := by
  rw [before_iff] at *
  rcases first with first | ⟨same,first⟩ <;> rcases second with second | ⟨same',second⟩
  · exact .inl (second.trans first)
  · exact .inl (same' ▸ first)
  · exact .inl (same ▸ second)
  · exact .inr ⟨same.trans same',first.trans second⟩

theorem before_antisymm {a b : Item Weight} (first : before a b = true) (second : before b a = true) : a = b := by
  rw [before_iff] at *
  rcases first with first | ⟨same,first⟩ <;> rcases second with second | ⟨same',second⟩
  · exact absurd first second.asymm
  · exact absurd same' first.ne
  · exact absurd same second.ne
  · obtain ⟨id,weight⟩ := a
    obtain ⟨id',weight'⟩ := b
    rw [Item.mk.injEq]
    exact ⟨Nat.le_antisymm first second,same⟩

theorem before_weight {a b : Item Weight} (first : before a b = true) : b.weight ≤ a.weight := by
  rw [before_iff] at first
  rcases first with first | ⟨same,-⟩
  · exact first.le
  · exact same.ge

/-- There is one way to sort. -/
theorem mergeSort_unique {l sorted : List (Item Weight)} (perm : sorted.Perm l)
    (ordered : sorted.Pairwise fun a b => before a b = true) : l.mergeSort before = sorted := by
  have sorts : (l.mergeSort before).Pairwise fun a b => before a b = true :=
    List.pairwise_mergeSort before_trans before_total l
  exact List.Perm.eq_of_pairwise (fun a b _ _ => before_antisymm) sorts ordered
    ((List.mergeSort_perm l before).trans perm.symm)

theorem mergeSort_ordered (l : List (Item Weight)) : (l.mergeSort before).Pairwise fun a b => before a b = true :=
  List.pairwise_mergeSort before_trans before_total l

/-! ## Items of one weight -/

section
variable {l : List (Item Weight)} {sort : SortItems Weight}

theorem Uniform.compare (uniform : Uniform l) {a b : Item Weight} (left : a ∈ l) (right : b ∈ l) :
    compareItem a b = decide (a.id < b.id) := by
  rw [compareItem,if_neg (by simpa using uniform a left b right)]

theorem Uniform.weakOrder (uniform : Uniform l) : WeakOrder l := by
  constructor
  case irrefl =>
    intro a left
    simp [uniform.compare left left]
  case trans =>
    intro a left b middle c right first second
    rw [uniform.compare left middle,decide_eq_true_eq] at first
    rw [uniform.compare middle right,decide_eq_true_eq] at second
    rw [uniform.compare left right,decide_eq_true_eq]
    omega
  case incomparable =>
    intro a left b middle c right ab ba bc cb
    rw [uniform.compare left middle,decide_eq_false_iff_not] at ab
    rw [uniform.compare middle left,decide_eq_false_iff_not] at ba
    rw [uniform.compare middle right,decide_eq_false_iff_not] at bc
    rw [uniform.compare right middle,decide_eq_false_iff_not] at cb
    rw [uniform.compare left right,uniform.compare right left]
    simp only [decide_eq_false_iff_not]
    omega

/-- Of two items of different weights each comes before the other. -/
theorem WeakOrder.uniform (weak : WeakOrder l) : Uniform l := by
  intro a left b right
  by_contra other
  have forward : compareItem a b = true := by
    rw [compareItem,if_pos other]
    split <;> rfl
  have back : compareItem b a = true := by
    rw [compareItem,if_pos (Ne.symm other)]
    split <;> rfl
  have same := weak.trans a left b right a left forward back
  rw [weak.irrefl a left] at same
  cases same

theorem Sorts.uniform (sorts : Sorts sort) (uniform : Uniform l) : sort l = l.mergeSort before := by
  refine (mergeSort_unique (sorts.perm l) ?_).symm
  refine (sorts.sorted l uniform.weakOrder).imp_of_mem fun {a b} left right ordered => ?_
  have left := (sorts.perm l).mem_iff.mp left
  have right := (sorts.perm l).mem_iff.mp right
  rw [uniform.compare right left,decide_eq_false_iff_not] at ordered
  exact (before_iff a b).mpr (.inr ⟨uniform a left b right,Nat.le_of_not_lt ordered⟩)

theorem Uniform.subset {k : List (Item Weight)} (uniform : Uniform l) (sub : ∀ a ∈ k, a ∈ l) : Uniform k :=
  fun a left b right => uniform a (sub a left) b (sub b right)

theorem mergeSort_take (l : List (Item Weight)) (n : Nat) :
    ((l.mergeSort before).take n).mergeSort before = (l.mergeSort before).take n :=
  mergeSort_unique (.refl _) ((mergeSort_ordered l).sublist (List.take_sublist _ _))

end

/-! ## The best items -/

section
variable {n : Nat} {xs ys : List (Item Weight)}

theorem best_drop (n : Nat) (xs : List (Item Weight)) : (best n xs ++ (xs.mergeSort before).drop n).Perm xs := by
  rw [best,List.take_append_drop]
  exact List.mergeSort_perm xs before

theorem best_rest (n : Nat) (xs : List (Item Weight)) :
    ∀ x ∈ best n xs, ∀ y ∈ (xs.mergeSort before).drop n, before x y = true := by
  have ordered := mergeSort_ordered xs
  rw [← List.take_append_drop n (xs.mergeSort before),List.pairwise_append] at ordered
  exact ordered.2.2

theorem length_best (enough : n ≤ xs.length) : (best n xs).length = n := by
  rw [best,List.length_take,List.length_mergeSort,Nat.min_eq_left enough]

/-- The best of a list are the best of its beginning where the others are worse. -/
theorem best_append (enough : n ≤ xs.length) :
    best n (xs ++ ys) = best n xs ↔ ∀ y ∈ ys, ∀ x ∈ best n xs, before x y = true := by
  constructor
  · intro same y member x top
    have whole := best_drop n (xs ++ ys)
    rw [same] at whole
    have others : (((xs ++ ys).mergeSort before).drop n).Perm ((xs.mergeSort before).drop n ++ ys) := by
      refine (List.perm_append_left_iff (best n xs)).mp (whole.trans ?_)
      rw [← List.append_assoc]
      exact ((best_drop n xs).append_right ys).symm
    refine best_rest n (xs ++ ys) x (same ▸ top) y (others.mem_iff.mpr ?_)
    exact List.mem_append_right _ member
  · intro worse
    have sorted : (xs ++ ys).mergeSort before = best n xs ++ ((xs.mergeSort before).drop n ++ ys).mergeSort before := by
      apply mergeSort_unique
      · refine ((List.mergeSort_perm _ before).append_left _).trans ?_
        rw [← List.append_assoc]
        exact (best_drop n xs).append_right ys
      · rw [List.pairwise_append]
        refine ⟨(mergeSort_ordered xs).sublist (List.take_sublist _ _),mergeSort_ordered _,fun x top y other => ?_⟩
        rcases List.mem_append.mp (List.mem_mergeSort.mp other) with other | other
        · exact best_rest n xs x top y other
        · exact worse y other x top
    rw [best,sorted,List.take_left' (length_best enough)]

/-- An item is worse than the best where it is worse than as many. -/
theorem best_before (enough : n ≤ xs.length) (y : Item Weight) :
    (∀ x ∈ best n xs, before x y = true) ↔ n ≤ xs.countP fun x => before x y := by
  have ordered := mergeSort_ordered xs
  have count (k : Nat) : xs.countP (fun x => before x y) =
      ((xs.mergeSort before).take k).countP (fun x => before x y) +
        ((xs.mergeSort before).drop k).countP fun x => before x y := by
    rw [← List.countP_append,List.take_append_drop,(List.mergeSort_perm xs before).countP_eq]
  constructor
  · intro worse
    have all : (best n xs).countP (fun x => before x y) = (best n xs).length := List.countP_eq_length.mpr worse
    rw [length_best enough] at all
    rw [count n,← best,all]
    exact Nat.le_add_right _ _
  · intro many x top
    by_contra other
    obtain ⟨i,short,rfl⟩ := List.getElem_of_mem top
    rw [length_best enough] at short
    have bound : i < (xs.mergeSort before).length := by
      rw [List.length_mergeSort]
      omega
    have later : ((xs.mergeSort before).drop i).countP (fun x => before x y) = 0 := by
      rw [List.countP_eq_zero]
      intro z member after
      refine other ?_
      have tail := ordered.sublist (List.drop_sublist i _)
      rw [List.drop_eq_getElem_cons bound] at member tail
      have here : (best n xs)[i] = (xs.mergeSort before)[i] := List.getElem_take
      rw [here]
      rcases List.mem_cons.mp member with rfl | member
      · exact after
      · exact before_trans _ _ _ (List.rel_of_pairwise_cons tail member) after
    have few : ((xs.mergeSort before).take i).countP (fun x => before x y) ≤ i :=
      List.countP_le_length.trans (by rw [List.length_take]; omega)
    rw [count i,later] at many
    omega

end

/-! ## The buffer -/

section
variable {sort : SortItems Weight} {size : Nat} {xs : List (Item Weight)}

theorem put_end (iw : List (Item Weight)) (split ep : Nat) (x : Item Weight) :
    (TopN.mk iw split iw.length ep).put x = ⟨iw ++ [x],split,iw.length + 1,ep⟩ := by
  simp [TopN.put,List.drop_eq_nil_of_le]

/-- As long as the buffer is not full, every item is kept. -/
theorem fill (short : xs.length ≤ size) (iw : List (Item Weight)) (room : iw.length + xs.length ≤ size) :
    xs.foldl (acTopNAdd sort) ⟨iw,size,iw.length,size⟩ = ⟨iw ++ xs,size,iw.length + xs.length,size⟩ := by
  induction xs generalizing iw with
  | nil => simp
  | cons x xs ih =>
    rw [List.length_cons] at room short
    have next := ih (by omega) (iw ++ [x]) (by rw [List.length_append,List.length_singleton]; omega)
    rw [List.length_append,List.length_singleton] at next
    have first : iw.length < size := by omega
    rw [List.foldl_cons,acTopNAdd,if_pos first,put_end,next,List.append_assoc,List.length_cons]
    simp [Nat.add_assoc,Nat.add_comm 1]

/-- The buffer after it has been sorted for the first time. -/
def halved (sort : SortItems Weight) (size : Nat) (xs : List (Item Weight)) : TopN Weight :=
  ⟨sort xs,size / 2,size / 2,size⟩

/-- The item that finds the buffer full is dropped. -/
theorem add_full (full : xs.length = size) (x : Item Weight) :
    acTopNAdd sort ⟨xs,size,xs.length,size⟩ x = halved sort size xs := by
  rw [acTopNAdd,if_neg (by simp [full]),if_neg (by simp [full]),if_pos rfl]
  rfl

theorem init_fill (n : Nat) (short : xs.length ≤ n * 2 % 2 ^ 32) :
    xs.foldl (acTopNAdd sort) (acTopNInit n) = ⟨xs,n * 2 % 2 ^ 32,xs.length,n * 2 % 2 ^ 32⟩ := by
  have run := @fill _ _ sort _ _ short [] (by simpa using short)
  rw [List.nil_append,List.length_nil,Nat.zero_add] at run
  exact run

theorem delivered_short {n : Nat} (short : xs.length ≤ n * 2 % 2 ^ 32) : delivered sort n xs = sort xs := by
  rw [delivered,init_fill n short,acTopNFinish,List.take_length]

theorem delivered_long {n : Nat} (long : n * 2 % 2 ^ 32 < xs.length) :
    delivered sort n xs = acTopNFinish sort ((xs.drop (n * 2 % 2 ^ 32 + 1)).foldl (acTopNAdd sort)
      (halved sort (n * 2 % 2 ^ 32) (xs.take (n * 2 % 2 ^ 32)))) := by
  have full : (xs.take (n * 2 % 2 ^ 32)).length = n * 2 % 2 ^ 32 := by
    rw [List.length_take]
    exact Nat.min_eq_left long.le
  have parts : xs = xs.take (n * 2 % 2 ^ 32) ++ xs[n * 2 % 2 ^ 32] :: xs.drop (n * 2 % 2 ^ 32 + 1) := by
    rw [← List.drop_eq_getElem_cons long,List.take_append_drop]
  conv_lhs => rw [parts]
  rw [delivered,List.foldl_append,init_fill n full.le,List.foldl_cons,add_full full]

/-! ### While nothing better comes -/

theorem add_worse {t : TopN Weight} {s x : Item Weight} (here : t.p = t.split) (room : t.split < t.ep)
    (threshold : t.iw[t.split]? = some s) (worse : x.weight ≤ s.weight) : acTopNAdd sort t x = t := by
  rw [acTopNAdd,if_neg (by omega),if_pos (by omega),threshold,Option.any_some,if_neg (by simpa using worse)]

theorem adds_worse {t : TopN Weight} {s : Item Weight} (here : t.p = t.split) (room : t.split < t.ep)
    (threshold : t.iw[t.split]? = some s) (worse : ∀ x ∈ xs, x.weight ≤ s.weight) :
    xs.foldl (acTopNAdd sort) t = t := by
  induction xs with
  | nil => rfl
  | cons x xs ih =>
    rw [List.foldl_cons,add_worse here room threshold (worse x (by simp)),ih fun y member => worse y (by simp [member])]

/-- Where the items that fill the buffer have one weight, and no later one has a
    larger one, the better half of the former is delivered. -/
theorem delivered_flat (sorts : Sorts sort) {n : Nat} (positive : 0 < n * 2 % 2 ^ 32) (long : n * 2 % 2 ^ 32 < xs.length)
    (uniform : Uniform (xs.take (n * 2 % 2 ^ 32)))
    (worse : ∀ x ∈ xs.drop (n * 2 % 2 ^ 32 + 1), ∀ a ∈ xs.take (n * 2 % 2 ^ 32), x.weight ≤ a.weight) :
    delivered sort n xs = best (n * 2 % 2 ^ 32 / 2) (xs.take (n * 2 % 2 ^ 32)) := by
  have sorted := sorts.uniform uniform
  have length : ((xs.take (n * 2 % 2 ^ 32)).mergeSort before).length = n * 2 % 2 ^ 32 := by
    rw [List.length_mergeSort,List.length_take]
    exact Nat.min_eq_left long.le
  have half : n * 2 % 2 ^ 32 / 2 < n * 2 % 2 ^ 32 := by omega
  have inside : n * 2 % 2 ^ 32 / 2 < ((xs.take (n * 2 % 2 ^ 32)).mergeSort before).length := by omega
  rw [delivered_long long,adds_worse (t := halved sort _ _) rfl half
    (by rw [halved,sorted]; exact List.getElem?_eq_getElem inside)
    fun x member => worse x member _ (List.mem_mergeSort.mp (List.getElem_mem inside))]
  rw [acTopNFinish,halved,sorted]
  have top : Uniform (((xs.take (n * 2 % 2 ^ 32)).mergeSort before).take (n * 2 % 2 ^ 32 / 2)) :=
    uniform.subset fun a member => List.mem_mergeSort.mp (List.mem_of_mem_take member)
  rw [sorts.uniform top,mergeSort_take]
  rfl

end

/-! ## A sort that reverses what the comparator does not order -/

open Classical in
/-- Ascending, unless the comparator is a strict weak order. -/
noncomputable def contrary : SortItems Weight :=
  fun l => if Uniform l then l.mergeSort before else (l.mergeSort before).reverse

theorem contrary_sorts : Sorts (contrary : SortItems Weight) := by
  constructor
  case perm =>
    intro l
    rw [contrary]
    split
    · exact List.mergeSort_perm l before
    · exact (List.reverse_perm _).trans (List.mergeSort_perm l before)
  case sorted =>
    intro l weak
    have uniform := weak.uniform
    rw [contrary,if_pos uniform]
    refine (mergeSort_ordered l).imp_of_mem fun {a b} left right ordered => ?_
    have left := List.mem_mergeSort.mp left
    have right := List.mem_mergeSort.mp right
    rw [uniform.compare right left,decide_eq_false_iff_not,Nat.not_lt]
    rcases (before_iff a b).mp ordered with less | ⟨-,ordered⟩
    · exact absurd (uniform b right a left) less.ne
    · exact ordered

/-- Then the item in front has the least weight. -/
theorem contrary_head {l : List (Item Weight)} {a : Item Weight} (head : (contrary l).head? = some a) :
    ∀ b ∈ l, a.weight ≤ b.weight := by
  intro b member
  rw [contrary] at head
  have inside : a ∈ l := by
    split at head
    · exact List.mem_mergeSort.mp (List.mem_of_mem_head? head)
    · exact List.mem_mergeSort.mp (List.mem_reverse.mp (List.mem_of_mem_head? head))
  split at head
  case isTrue uniform => exact (uniform a inside b member).le
  case isFalse =>
    rw [List.head?_reverse] at head
    have ordered := mergeSort_ordered l
    obtain ⟨front,shape⟩ := List.getLast?_eq_some_iff.mp head
    rw [shape,List.pairwise_append] at ordered
    have member : b ∈ front ++ [a] := shape ▸ List.mem_mergeSort.mpr member
    rcases List.mem_append.mp member with member | member
    · exact before_weight (ordered.2.2 b member a (by simp))
    · rw [List.mem_singleton.mp member]

/-- The item in front is outdone by one of those added, and stays in front. -/
structure Spoiled (xs : List (Item Weight)) (t : TopN Weight) : Prop where
  length : t.iw.length = t.ep
  positive : 0 < t.split
  room : t.split < t.ep
  low : t.split ≤ t.p
  high : t.p ≤ t.ep
  outdone : ∃ a, t.iw.head? = some a ∧ ∃ y ∈ xs, a.weight < y.weight

section
variable {xs ys : List (Item Weight)} {t : TopN Weight}

theorem outdone_contrary {l : List (Item Weight)} (outdone : ∃ a, l.head? = some a ∧ ∃ y ∈ xs, a.weight < y.weight) :
    ∃ a, (contrary l).head? = some a ∧ ∃ y ∈ xs, a.weight < y.weight := by
  obtain ⟨a,front,y,member,less⟩ := outdone
  have inside := List.mem_of_mem_head? front
  cases head : (contrary l).head? with
  | none =>
    have perm := contrary_sorts.perm l
    rw [List.head?_eq_none_iff.mp head] at perm
    rw [List.nil_perm.mp perm] at inside
    cases inside
  | some b => exact ⟨b,rfl,y,member,(contrary_head head a inside).trans_lt less⟩

theorem Spoiled.put (spoiled : Spoiled xs t) (room : t.p < t.ep) (x : Item Weight) : Spoiled xs (t.put x) := by
  have low := spoiled.low
  have length := spoiled.length
  have positive := spoiled.positive
  constructor
  case length =>
    simp only [TopN.put,List.length_append,List.length_take,List.length_cons,List.length_drop]
    omega
  case positive => exact positive
  case room => exact spoiled.room
  case low => exact Nat.le_succ_of_le low
  case high => exact room
  case outdone =>
    obtain ⟨a,front,worse⟩ := spoiled.outdone
    refine ⟨a,?_,worse⟩
    obtain ⟨k,here⟩ : ∃ k, t.p = k + 1 := ⟨t.p - 1,by omega⟩
    cases items : t.iw with
    | nil => simp [items] at front
    | cons b rest =>
      rw [items] at front
      simpa [TopN.put,items,here] using front

theorem Spoiled.add (spoiled : Spoiled xs t) (x : Item Weight) : Spoiled xs (acTopNAdd contrary t x) := by
  have low := spoiled.low
  have room := spoiled.room
  rw [acTopNAdd,if_neg (Nat.not_lt.mpr low)]
  split
  case isTrue free =>
    split
    · exact spoiled.put free x
    · exact spoiled
  case isFalse =>
    rw [if_neg room.ne]
    constructor
    case length => exact ((contrary_sorts.perm t.iw).length_eq).trans spoiled.length
    case positive => exact spoiled.positive
    case room => exact room
    case low => exact le_rfl
    case high => exact room.le
    case outdone => exact outdone_contrary spoiled.outdone

theorem Spoiled.adds (spoiled : Spoiled xs t) (ys : List (Item Weight)) :
    Spoiled xs (ys.foldl (acTopNAdd contrary) t) := by
  induction ys generalizing t with
  | nil => exact spoiled
  | cons y ys ih => exact ih (spoiled.add y)

theorem Spoiled.finish (spoiled : Spoiled xs t) :
    ∃ a, (acTopNFinish contrary t).head? = some a ∧ ∃ y ∈ xs, a.weight < y.weight := by
  refine outdone_contrary ?_
  obtain ⟨a,front,worse⟩ := spoiled.outdone
  refine ⟨a,?_,worse⟩
  have low := spoiled.low
  have positive := spoiled.positive
  rw [List.head?_take,if_neg (by omega),front]

theorem best_head {n : Nat} {a : Item Weight} (head : (best n xs).head? = some a) : ∀ y ∈ xs, y.weight ≤ a.weight := by
  intro y member
  have ordered := mergeSort_ordered xs
  have member : y ∈ xs.mergeSort before := List.mem_mergeSort.mpr member
  have front : (xs.mergeSort before).head? = some a := by
    rw [best,List.head?_take] at head
    split at head
    · cases head
    · exact head
  obtain ⟨rest,shape⟩ := List.head?_eq_some_iff.mp front
  rw [shape] at ordered member
  rcases List.mem_cons.mp member with rfl | member
  · exact le_rfl
  · exact before_weight (List.rel_of_pairwise_cons ordered member)

/-- What is delivered are the best items. -/
def Right (sort : SortItems Weight) (n : Nat) (xs : List (Item Weight)) : Prop :=
  (delivered sort n xs).take (min n xs.length) = best n xs

theorem not_right_of_outdone {sort : SortItems Weight} {n : Nat} (positive : 1 ≤ n)
    (outdone : ∃ a, (delivered sort n xs).head? = some a ∧ ∃ y ∈ xs, a.weight < y.weight) : ¬Right sort n xs := by
  intro right
  obtain ⟨a,front,y,member,less⟩ := outdone
  have added : 0 < xs.length := List.length_pos_of_mem member
  have head : (best n xs).head? = some a := by
    rw [← right,List.head?_take,if_neg (by omega),front]
  exact absurd (best_head head y member) (not_le.mpr less)

end

/-! ## Where the best items are delivered -/

section
variable {n : Nat} {xs : List (Item Weight)}

theorem take_min (n : Nat) (xs : List (Item Weight)) :
    (xs.mergeSort before).take (min n xs.length) = best n xs := by
  rw [best,List.take_eq_take_iff,List.length_mergeSort]
  omega

theorem right_of_flat (positive : 1 ≤ n) {sort : SortItems Weight} (sorts : Sorts sort) (flat : Flat n xs) :
    Right sort n xs := by
  obtain ⟨uniform,rest⟩ := flat
  by_cases few : xs.length ≤ n * 2 % 2 ^ 32
  · rw [List.take_of_length_le few] at uniform
    rw [Right,delivered_short few,sorts.uniform uniform,take_min]
  · obtain ⟨small,worse⟩ := rest.resolve_left few
    have long := Nat.lt_of_not_le few
    have lighter : ∀ x ∈ xs.drop (n * 2 % 2 ^ 32 + 1), ∀ a ∈ xs.take (n * 2 % 2 ^ 32), x.weight ≤ a.weight := by
      intro x member a inside
      rw [Nat.mod_eq_of_lt small] at member inside uniform
      have later : x ∈ xs.drop (n * 2) := (List.drop_sublist_drop_left xs (Nat.le_succ _)).subset member
      obtain ⟨b,within,better⟩ := List.countP_pos_iff.mp (Nat.lt_of_lt_of_le positive (worse x later))
      exact (before_weight better).trans (uniform b within a inside).le
    have result := delivered_flat sorts (by rw [Nat.mod_eq_of_lt small]; omega) long uniform lighter
    rw [Nat.mod_eq_of_lt small,Nat.mul_div_cancel n (by decide)] at result
    rw [Nat.mod_eq_of_lt small] at long
    have enough : n ≤ (xs.take (n * 2)).length := by
      rw [List.length_take]
      omega
    have same : best n xs = best n (xs.take (n * 2)) := by
      conv_lhs => rw [← List.take_append_drop (n * 2) xs]
      exact (best_append enough).mpr fun y member => (best_before enough y).mpr (worse y member)
    rw [Right,result,same,List.take_of_length_le]
    rw [length_best enough]
    omega

theorem outdone_of_mixed {l : List (Item Weight)} (mixed : ¬Uniform l) :
    ∃ a, (contrary l).head? = some a ∧ ∃ y ∈ l, a.weight < y.weight := by
  simp only [Uniform,not_forall] at mixed
  obtain ⟨a,left,b,right,other⟩ := mixed
  cases head : (contrary l).head? with
  | none =>
    have perm := contrary_sorts.perm l
    rw [List.head?_eq_none_iff.mp head] at perm
    rw [List.nil_perm.mp perm] at left
    cases left
  | some c =>
    have least := contrary_head head
    rcases lt_or_gt_of_ne other with less | more
    · exact ⟨c,rfl,b,right,(least a left).trans_lt less⟩
    · exact ⟨c,rfl,a,left,(least b right).trans_lt more⟩

/-- No more items are delivered than the buffer has room for. -/
theorem adds_bound {sort : SortItems Weight} {t : TopN Weight} (xs : List (Item Weight)) (split : t.split ≤ t.ep)
    (low : t.p ≤ t.ep) : (xs.foldl (acTopNAdd sort) t).p ≤ t.ep := by
  induction xs generalizing t with
  | nil => exact low
  | cons x xs ih =>
    have one : (acTopNAdd sort t x).ep = t.ep ∧ (acTopNAdd sort t x).split ≤ t.ep ∧ (acTopNAdd sort t x).p ≤ t.ep := by
      rw [acTopNAdd]
      split
      case isTrue first => exact ⟨rfl,split,Nat.lt_of_lt_of_le first split⟩
      split
      case isTrue second =>
        split
        · exact ⟨rfl,split,second⟩
        · exact ⟨rfl,split,low⟩
      split
      · exact ⟨rfl,Nat.div_le_self _ _,Nat.div_le_self _ _⟩
      · exact ⟨rfl,split,split⟩
    have rest := ih (t := acTopNAdd sort t x) (one.1 ▸ one.2.1) (one.1 ▸ one.2.2)
    rwa [one.1] at rest

theorem length_delivered {sort : SortItems Weight} (sorts : Sorts sort) (n : Nat) (xs : List (Item Weight)) :
    (delivered sort n xs).length ≤ n * 2 % 2 ^ 32 := by
  rw [delivered,acTopNFinish,(sorts.perm _).length_eq,List.length_take]
  exact (Nat.min_le_left _ _).trans (adds_bound xs le_rfl (Nat.zero_le _))

theorem halved_spoiled (large : 1 < n * 2 % 2 ^ 32) (long : n * 2 % 2 ^ 32 ≤ xs.length)
    (outdone : ∃ a, (contrary (xs.take (n * 2 % 2 ^ 32))).head? = some a ∧ ∃ y ∈ xs, a.weight < y.weight) :
    Spoiled xs (halved contrary (n * 2 % 2 ^ 32) (xs.take (n * 2 % 2 ^ 32))) := by
  constructor
  case length =>
    rw [halved,(contrary_sorts.perm _).length_eq,List.length_take]
    exact Nat.min_eq_left long
  case positive =>
    rw [halved]
    exact Nat.div_pos large (by decide)
  case room =>
    rw [halved]
    exact Nat.div_lt_self (by omega) (by decide)
  case low => exact le_rfl
  case high => exact Nat.div_le_self _ _
  case outdone => exact outdone

theorem flat_of_right (positive : 1 ≤ n) (bound : n < 2 ^ 32) (right : Right contrary n xs) : Flat n xs := by
  by_cases few : xs.length ≤ n * 2 % 2 ^ 32
  · refine ⟨?_,.inl few⟩
    rw [List.take_of_length_le few]
    by_contra mixed
    refine not_right_of_outdone positive ?_ right
    rw [delivered_short few]
    exact outdone_of_mixed mixed
  have long := Nat.lt_of_not_le few
  have small : n * 2 < 2 ^ 32 := by
    -- the buffer would be too small for the items that are wanted
    by_contra large
    have length := congrArg List.length right
    rw [List.length_take,best,List.length_take,List.length_mergeSort] at length
    have most := length_delivered contrary_sorts n xs
    omega
  have spoil (outdone : ∃ a, (contrary (xs.take (n * 2 % 2 ^ 32))).head? = some a ∧ ∃ y ∈ xs, a.weight < y.weight) :
      False := by
    refine not_right_of_outdone positive ?_ right
    rw [delivered_long long]
    exact ((halved_spoiled (by rw [Nat.mod_eq_of_lt small]; omega) long.le outdone).adds _).finish
  have uniform : Uniform (xs.take (n * 2 % 2 ^ 32)) := by
    by_contra mixed
    obtain ⟨a,head,y,member,less⟩ := outdone_of_mixed mixed
    exact spoil ⟨a,head,y,List.mem_of_mem_take member,less⟩
  have lighter : ∀ x ∈ xs.drop (n * 2 % 2 ^ 32 + 1), ∀ a ∈ xs.take (n * 2 % 2 ^ 32), x.weight ≤ a.weight := by
    intro x member a inside
    by_contra heavier
    cases head : (contrary (xs.take (n * 2 % 2 ^ 32))).head? with
    | none =>
      have perm := contrary_sorts.perm (xs.take (n * 2 % 2 ^ 32))
      rw [List.head?_eq_none_iff.mp head] at perm
      rw [List.nil_perm.mp perm] at inside
      cases inside
    | some c =>
      exact spoil ⟨c,head,x,List.mem_of_mem_drop member,(contrary_head head a inside).trans_lt (not_le.mp heavier)⟩
  have result := delivered_flat contrary_sorts (by rw [Nat.mod_eq_of_lt small]; omega) long uniform lighter
  refine ⟨uniform,.inr ⟨small,?_⟩⟩
  rw [Nat.mod_eq_of_lt small] at result long
  rw [Nat.mul_div_cancel n (by decide)] at result
  have enough : n ≤ (xs.take (n * 2)).length := by
    rw [List.length_take]
    omega
  have same : best n xs = best n (xs.take (n * 2)) := by
    rw [Right,result,List.take_of_length_le] at right
    · exact right.symm
    · rw [length_best enough]
      omega
  intro x member
  refine (best_before enough x).mp ((best_append enough).mp ?_ x member)
  rw [List.take_append_drop]
  exact same

/-- The best items are delivered, whatever the sort does with a comparator that is
    no strict weak order, exactly where the items that fill the buffer have one
    weight and nothing better comes after them. -/
theorem top_n_correct_iff (positive : 1 ≤ n) (bound : n < 2 ^ 32) (xs : List (Item Weight)) :
    (∀ sort, Sorts sort → (delivered sort n xs).take (min n xs.length) = best n xs) ↔ Flat n xs :=
  ⟨fun right => flat_of_right positive bound (right contrary contrary_sorts),
    fun flat sort sorts => right_of_flat positive sorts flat⟩

end

theorem mergeSort_sorts : Sorts fun l : List (Item Weight) => l.mergeSort before := by
  constructor
  case perm => exact fun l => List.mergeSort_perm l before
  case sorted =>
    intro l weak
    have sorted := contrary_sorts.sorted l weak
    rwa [contrary,if_pos weak.uniform] at sorted

def ties : List (Item Nat) := [⟨3,7⟩,⟨2,7⟩,⟨1,7⟩]

theorem two_ties : Flat 1 (ties.drop 1) ∧ ∀ sort, Sorts sort →
    (delivered sort 1 (ties.drop 1)).take (min 1 (ties.drop 1).length) = best 1 (ties.drop 1) := by
  have flat : Flat 1 (ties.drop 1) := ⟨by simp [Uniform,ties],.inl (by decide)⟩
  exact ⟨flat,(top_n_correct_iff le_rfl (by decide) (ties.drop 1)).mpr flat⟩

/-- The third item finds the buffer full, and is the best one. -/
theorem full_buffer_loses : Sorts (fun l : List (Item Nat) => l.mergeSort before) ∧ ∀ sort, Sorts sort →
    (delivered sort 1 ties).take (min 1 ties.length) ≠ best 1 ties := by
  refine ⟨mergeSort_sorts,fun sort sorts => ?_⟩
  have two : (ties.take 2).mergeSort before = [⟨2,7⟩,⟨3,7⟩] :=
    mergeSort_unique (List.Perm.swap _ _ _) (by simp [before])
  have three : ties.mergeSort before = [⟨1,7⟩,⟨2,7⟩,⟨3,7⟩] :=
    mergeSort_unique (List.reverse_perm ties) (by simp [before])
  have uniform : Uniform (ties.take (1 * 2 % 2 ^ 32)) := by simp [Uniform,ties]
  have result : delivered sort 1 ties = best 1 (ties.take 2) :=
    delivered_flat sorts (by decide) (by decide) uniform (by simp [ties])
  rw [result,best,best,two,three]
  simp [ties]

end AnotherC.TopN
