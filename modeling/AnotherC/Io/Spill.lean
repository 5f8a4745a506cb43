import AnotherC.Io.Sorted

/-!
# Sorted outputs that spill, and those that do not

What fits into the buffer is sorted and reduced with the intermediate functions only. What
is spilled goes through the intermediate functions run by run, and through the final ones
when the runs are merged. So the two answers are the same exactly where the intermediate
reducer makes of the records of each key what the final one does (`spilled_agrees`).
-/
namespace AnotherC.Spill
open AnotherC.Lib
open AnotherC.Lib.Order (Total Sorted Strict Groups sameKey runs)
open AnotherC.Lib.Stream (Yields)
open AnotherC.InExt (Reducer collect)
open AnotherC.Sorted
set_option linter.unusedVariables false

/-- What a reducer makes of a group of records with one key. -/
def reduced (reducer : Option (Reducer Record Unit)) (group : List Record) : List Record :=
  match reducer with
  | none => group
  | some reducer => if group = [] then [] else (reducer () group).1.toList

/-- The options that `ac_out_ext_init` makes of those it is given. -/
def filled (options : ExtOptions) : ExtOptions := (acOutExtInit 0 options).extOptions

/-- Records that occur, all of them with one key. -/
def OneKey (Occurs : Record → Prop) (compare : Record → Record → Int) (group : List Record) : Prop :=
  (∀ a ∈ group, Occurs a) ∧ ∀ a ∈ group, ∀ b ∈ group, compare a b = 0

/-- The intermediate order refines the final one, and the reducers keep the key of a group
    and do not depend on the order in which its records come. -/
structure Consistent (Occurs : Record → Prop) (options : ExtOptions) : Prop where
  total : Total options.compare
  intTotal : Total (intCompare options)
  refines : ∀ a b, intCompare options a b ≤ 0 → options.compare a b ≤ 0
  closed : ∀ part, part = options.reducer ∨ part = options.intReducer → ∀ group, OneKey Occurs options.compare group →
    ∀ x ∈ reduced part group, Occurs x ∧ ∀ y ∈ group, options.compare y x = 0
  order : ∀ part, part = options.reducer ∨ part = options.intReducer → ∀ group group', group.Perm group' →
    OneKey Occurs options.compare group → (reduced part group).Perm (reduced part group')

/-- A part of a group may be reduced first without a change of the final reduction. -/
def Preserves (Occurs : Record → Prop) (options : ExtOptions) (part : Option (Reducer Record Unit)) : Prop :=
  ∀ p q, OneKey Occurs options.compare (p ++ q) →
    (reduced options.reducer (reduced part p ++ q)).Perm (reduced options.reducer (p ++ q))

theorem OneKey.sub {Occurs : Record → Prop} {compare : Record → Record → Int} {group group' : List Record}
    (oneKey : OneKey Occurs compare group) (sub : ∀ a ∈ group', a ∈ group) : OneKey Occurs compare group' :=
  ⟨fun a member => oneKey.1 a (sub a member),fun a inA b inB => oneKey.2 a (sub a inA) b (sub b inB)⟩

theorem reduced_nil (part : Option (Reducer Record Unit)) : reduced part [] = [] := by
  cases part with
  | none => rfl
  | some reducer => simp only [reduced,if_true]

/-- Nothing is made of no records. -/
theorem reduced_some {part : Option (Reducer Record Unit)} {group : List Record} {x : Record} (made : x ∈ reduced part group) :
    ∃ a, a ∈ group := by
  cases group with
  | nil =>
    rw [reduced_nil] at made
    cases made
  | cons a group => exact ⟨a,List.mem_cons_self⟩

theorem collect_reduced (reducer : Reducer Record Unit) {groups : List (List Record)} (nonempty : ∀ g ∈ groups, g ≠ []) :
    collect reducer () groups = groups.flatMap (reduced (some reducer)) := by
  induction groups with
  | nil => rfl
  | cons group groups ih =>
    have rest := ih fun g member => nonempty g (List.mem_cons_of_mem _ member)
    have some := nonempty group List.mem_cons_self
    rw [List.flatMap_cons,← rest,reduced,if_neg some,collect]
    rcases reducer () group with ⟨_ | res,arg⟩ <;> rfl

section
variable {Occurs : Record → Prop} {options : ExtOptions} (consistent : Consistent Occurs options)
  {part : Option (Reducer Record Unit)} (isPart : part = options.reducer ∨ part = options.intReducer)
include consistent isPart

/-- What the records of a key come to, in a list of groups in the order of their keys. -/
theorem key_reduced (key : Record) {groups : List (List Record)} (oneKey : ∀ g ∈ groups, OneKey Occurs options.compare g)
    (ascending : groups.Pairwise fun g later => ∀ a ∈ g, ∀ b ∈ later, options.compare a b < 0) :
    sameKey options.compare key (groups.flatMap (reduced part)) =
      reduced part (sameKey options.compare key groups.flatten) := by
  have total := consistent.total
  have nothing := reduced_nil part
  induction groups with
  | nil => exact nothing.symm
  | cons g groups ih =>
    obtain ⟨first,rest⟩ := List.pairwise_cons.mp ascending
    have one := oneKey g List.mem_cons_self
    have closed := consistent.closed part isPart g one
    have later := ih (fun g' member => oneKey g' (List.mem_cons_of_mem _ member)) rest
    rw [List.flatMap_cons,List.flatten_cons,sameKey,sameKey,List.filter_append,List.filter_append]
    by_cases same : ∃ a ∈ g, options.compare key a = 0
    · obtain ⟨a,inG,isKey⟩ := same
      -- the group has the key, so the later ones have not
      have all : ∀ b ∈ g, options.compare key b = 0 := fun b inB => total.zero_trans isKey (one.2 a inG b inB)
      have none : sameKey options.compare key groups.flatten = [] := by
        refine Order.sameKey_none fun b inRest equal => ?_
        obtain ⟨g',inGroups,inB⟩ := List.mem_flatten.mp inRest
        have less := first g' inGroups a inG b inB
        have := total.zero_trans (total.zero_swap.mp isKey) equal
        omega
      rw [none,nothing] at later
      have reducedAll : sameKey options.compare key (reduced part g) = reduced part g :=
        Order.sameKey_all fun x member => total.zero_trans isKey ((closed x member).2 a inG)
      have groupAll := Order.sameKey_all all
      rw [sameKey] at later none reducedAll groupAll
      rw [later,none,reducedAll,groupAll,List.append_nil,List.append_nil]
    · have noneG : sameKey options.compare key g = [] :=
        Order.sameKey_none fun a inG equal => same ⟨a,inG,equal⟩
      have noneReduced : sameKey options.compare key (reduced part g) = [] := by
        refine Order.sameKey_none fun x member equal => ?_
        obtain ⟨a,inG⟩ := reduced_some member
        exact same ⟨a,inG,total.zero_trans equal (total.zero_swap.mp ((closed x member).2 a inG))⟩
      rw [sameKey] at later noneG noneReduced
      rw [noneG,noneReduced,List.nil_append,List.nil_append]
      exact later

/-- One record for each group at most is one for each key. -/
theorem reduced_strict (single : part ≠ none) {groups : List (List Record)}
    (oneKey : ∀ g ∈ groups, OneKey Occurs options.compare g)
    (ascending : groups.Pairwise fun g later => ∀ a ∈ g, ∀ b ∈ later, options.compare a b < 0) :
    Strict options.compare (groups.flatMap (reduced part)) ∧ ∀ x ∈ groups.flatMap (reduced part), Occurs x := by
  have total := consistent.total
  refine ⟨?_,fun x member => ?_⟩
  · refine List.pairwise_flatMap.mpr ⟨fun g member => ?_,?_⟩
    · cases part with
      | none => exact absurd rfl single
      | some reducer =>
        simp only [reduced]
        split
        · exact List.Pairwise.nil
        · cases (reducer () g).1 with
          | none => exact List.Pairwise.nil
          | some res => exact List.pairwise_singleton _ res
    · refine List.Pairwise.imp_of_mem (fun {g later} inG inLater before x inX y inY => ?_) ascending
      obtain ⟨a,inA⟩ := reduced_some inX
      obtain ⟨b,inB⟩ := reduced_some inY
      have xIs := (consistent.closed part isPart g (oneKey g inG) x inX).2 a inA
      have yIs := (consistent.closed part isPart later (oneKey later inLater) y inY).2 b inB
      have less := total.lt_of_zero_of_lt (total.zero_swap.mp xIs) (before a inA b inB)
      exact total.lt_of_lt_of_le less (Int.le_of_eq yIs)
  · obtain ⟨g,inGroups,inX⟩ := List.mem_flatMap.mp member
    exact (consistent.closed part isPart g (oneKey g inGroups) x inX).1

omit isPart in
/-- Records that the final order does not tell apart are not told apart at all. -/
theorem int_groups {xs : List Record} {groups : List (List Record)} (grouped : Groups (intCompare options) xs groups)
    (separate : ∀ a ∈ xs, ∀ b ∈ xs, options.compare a b = 0 → intCompare options a b = 0) :
    Groups options.compare xs groups := by
  have inside : ∀ g ∈ groups, ∀ a ∈ g, a ∈ xs := fun g member a inG =>
    grouped.whole.mem_iff.mp (List.mem_flatten.mpr ⟨g,member,inG⟩)
  have equal : ∀ a b, intCompare options a b = 0 → options.compare a b = 0 := by
    intro a b same
    have forth := consistent.refines a b (Int.le_of_eq same)
    have back := consistent.refines b a (Int.le_of_eq (consistent.intTotal.zero_swap.mp same))
    have := consistent.total.le_iff b a
    omega
  refine ⟨grouped.whole,fun g member => ?_,?_⟩
  · obtain ⟨key,inG,perm⟩ := grouped.oneKey g member
    refine ⟨key,inG,?_⟩
    have same : sameKey (intCompare options) key xs = sameKey options.compare key xs := by
      refine List.filter_congr fun a inXs => ?_
      rw [decide_eq_decide]
      exact ⟨equal key a,separate key (inside g member key inG) a inXs⟩
    rw [← same]
    exact perm
  · refine List.Pairwise.imp_of_mem (fun {g later} inG inLater before a inA b inB => ?_) grouped.ascending
    have less := before a inA b inB
    have notAbove := consistent.refines a b (Int.le_of_lt less)
    have differs : options.compare a b ≠ 0 := fun same => by
      have := separate a (inside g inG a inA) b (inside later inLater b inB) same
      omega
    omega

omit isPart in
theorem groups_oneKey {xs : List Record} {groups : List (List Record)} (grouped : Groups options.compare xs groups)
    (occur : ∀ d ∈ xs, Occurs d) : ∀ g ∈ groups, g ≠ [] ∧ OneKey Occurs options.compare g := by
  intro g member
  obtain ⟨key,inG,perm⟩ := grouped.oneKey g member
  have isKey : ∀ a ∈ g, options.compare key a = 0 := fun a inA => by
    simpa using (List.mem_filter.mp (perm.mem_iff.mp inA)).2
  refine ⟨List.ne_nil_of_mem inG,fun a inA => ?_,fun a inA b inB => ?_⟩
  · exact occur a (grouped.whole.mem_iff.mp (List.mem_flatten.mpr ⟨g,member,inA⟩))
  · exact consistent.total.zero_trans (consistent.total.zero_swap.mp (isKey a inA)) (isKey b inB)

end

/-! ### What the runs come to -/

/-- Whatever else there is of a key, the final reduction of `xs` is that of `ys`. -/
def ComesTo (Occurs : Record → Prop) (options : ExtOptions) (xs ys : List Record) : Prop :=
  (∀ d ∈ ys, Occurs d) → (∀ d ∈ xs, Occurs d) ∧
    ∀ key q, (∀ d ∈ q, Occurs d ∧ options.compare key d = 0) →
      (reduced options.reducer (sameKey options.compare key xs ++ q)).Perm
        (reduced options.reducer (sameKey options.compare key ys ++ q))

section
variable {Occurs : Record → Prop} {options : ExtOptions} (consistent : Consistent Occurs options)
include consistent

theorem key_group (key : Record) {xs q : List Record} (occur : ∀ d ∈ xs, Occurs d)
    (more : ∀ d ∈ q, Occurs d ∧ options.compare key d = 0) :
    OneKey Occurs options.compare (sameKey options.compare key xs ++ q) := by
  have isKey : ∀ a ∈ sameKey options.compare key xs ++ q, Occurs a ∧ options.compare key a = 0 := by
    intro a member
    rcases List.mem_append.mp member with inXs | inQ
    · obtain ⟨inside,same⟩ := List.mem_filter.mp inXs
      exact ⟨occur a inside,by simpa using same⟩
    · exact more a inQ
  refine ⟨fun a inA => (isKey a inA).1,fun a inA b inB => ?_⟩
  exact consistent.total.zero_trans (consistent.total.zero_swap.mp (isKey a inA).2) (isKey b inB).2

theorem ComesTo.perm {xs ys : List Record} (perm : xs.Perm ys) : ComesTo Occurs options xs ys := by
  intro occur
  refine ⟨fun d member => occur d (perm.mem_iff.mp member),fun key q more => ?_⟩
  refine (consistent.order _ (.inl rfl) _ _ ?_ (key_group consistent key occur more)).symm
  exact (Order.sameKey_perm perm.symm).append_right q

omit consistent in
theorem ComesTo.trans {xs ys zs : List Record} (first : ComesTo Occurs options xs ys) (second : ComesTo Occurs options ys zs) :
    ComesTo Occurs options xs zs := by
  intro occur
  obtain ⟨occurY,same⟩ := second occur
  obtain ⟨occurX,same'⟩ := first occurY
  exact ⟨occurX,fun key q more => (same' key q more).trans (same key q more)⟩

theorem ComesTo.append {xs ys xs' ys' : List Record} (first : ComesTo Occurs options xs ys)
    (second : ComesTo Occurs options xs' ys') : ComesTo Occurs options (xs ++ xs') (ys ++ ys') := by
  intro occur
  have occurY : ∀ d ∈ ys, Occurs d := fun d member => occur d (List.mem_append_left _ member)
  have occurY' : ∀ d ∈ ys', Occurs d := fun d member => occur d (List.mem_append_right _ member)
  obtain ⟨occurX,same⟩ := first occurY
  obtain ⟨occurX',same'⟩ := second occurY'
  refine ⟨fun d member => ?_,fun key q more => ?_⟩
  · rcases List.mem_append.mp member with left | right
    · exact occurX d left
    · exact occurX' d right
  · -- the first part is exchanged beside the second one, and then the second beside the first
    have keyed : ∀ {zs : List Record}, (∀ d ∈ zs, Occurs d) → ∀ d ∈ sameKey options.compare key zs ++ q,
        Occurs d ∧ options.compare key d = 0 := by
      intro zs occurZ d member
      rcases List.mem_append.mp member with inZs | inQ
      · obtain ⟨inside,isKey⟩ := List.mem_filter.mp inZs
        exact ⟨occurZ d inside,by simpa using isKey⟩
      · exact more d inQ
    have one := same key (sameKey options.compare key xs' ++ q) (keyed occurX')
    have two := same' key (sameKey options.compare key ys ++ q) (keyed occurY)
    have apart : ∀ us vs : List Record, sameKey options.compare key (us ++ vs) =
        sameKey options.compare key us ++ sameKey options.compare key vs := fun us vs => List.filter_append ..
    have exchange : (reduced options.reducer (sameKey options.compare key ys ++ (sameKey options.compare key xs' ++ q))).Perm
        (reduced options.reducer (sameKey options.compare key xs' ++ (sameKey options.compare key ys ++ q))) := by
      refine consistent.order _ (.inl rfl) _ _ ?_ (key_group consistent key occurY (keyed occurX'))
      rw [← List.append_assoc,← List.append_assoc]
      exact List.perm_append_comm.append_right q
    have back : (reduced options.reducer (sameKey options.compare key ys' ++ (sameKey options.compare key ys ++ q))).Perm
        (reduced options.reducer (sameKey options.compare key ys ++ (sameKey options.compare key ys' ++ q))) := by
      refine consistent.order _ (.inl rfl) _ _ ?_ (key_group consistent key occurY' (keyed occurY))
      rw [← List.append_assoc,← List.append_assoc]
      exact List.perm_append_comm.append_right q
    rw [apart,apart,List.append_assoc,List.append_assoc]
    exact one.trans (exchange.trans (two.trans back))

variable {part : Option (Reducer Record Unit)} (isPart : part = options.reducer ∨ part = options.intReducer)
  (preserves : Preserves Occurs options part)
include isPart preserves

/-- A group may be reduced. -/
theorem ComesTo.group {g : List Record} (oneKey : OneKey Occurs options.compare g) :
    ComesTo Occurs options (reduced part g) g := by
  intro occur
  have total := consistent.total
  have closed := consistent.closed part isPart g oneKey
  refine ⟨fun d member => (closed d member).1,fun key q more => ?_⟩
  by_cases same : ∃ a ∈ g, options.compare key a = 0
  · obtain ⟨a,inG,isKey⟩ := same
    have all : ∀ b ∈ g, options.compare key b = 0 := fun b inB => total.zero_trans isKey (oneKey.2 a inG b inB)
    have groupAll := Order.sameKey_all all
    rw [groupAll,Order.sameKey_all fun x member => total.zero_trans isKey ((closed x member).2 a inG)]
    refine preserves g q ?_
    have whole := key_group consistent key oneKey.1 more
    rwa [groupAll] at whole
  · have noneG : sameKey options.compare key g = [] := Order.sameKey_none fun a inG equal => same ⟨a,inG,equal⟩
    have noneReduced : sameKey options.compare key (reduced part g) = [] := by
      refine Order.sameKey_none fun x member equal => ?_
      obtain ⟨a,inG⟩ := reduced_some member
      exact same ⟨a,inG,total.zero_trans equal (total.zero_swap.mp ((closed x member).2 a inG))⟩
    rw [noneG,noneReduced]

theorem ComesTo.groups {groups : List (List Record)} (oneKey : ∀ g ∈ groups, OneKey Occurs options.compare g) :
    ComesTo Occurs options (groups.flatMap (reduced part)) groups.flatten := by
  induction groups with
  | nil => exact ComesTo.perm consistent (List.Perm.refl [])
  | cons g groups ih =>
    rw [List.flatMap_cons,List.flatten_cons]
    exact ComesTo.append consistent (ComesTo.group consistent isPart preserves (oneKey g List.mem_cons_self))
      (ih fun g' member => oneKey g' (List.mem_cons_of_mem _ member))

end

theorem reduced_length (reducer : Reducer Record Unit) (groups : List (List Record)) :
    (groups.flatMap (reduced (some reducer))).length ≤ groups.flatten.length := by
  induction groups with
  | nil => exact Nat.le_refl _
  | cons g groups ih =>
    have one : (reduced (some reducer) g).length ≤ g.length := by
      cases g with
      | nil => rw [reduced_nil]
      | cons a g =>
        simp only [reduced,List.cons_ne_nil,if_false,List.length_cons]
        cases (reducer () (a :: g)).1 <;> simp
    rw [List.flatMap_cons,List.flatten_cons,List.length_append,List.length_append]
    omega

/-! ### With a reducer -/

section
variable {sort : (Record → Record → Int) → List Record → List Record} (sorts : Sorts sort)
  {Occurs : Record → Prop} {options : ExtOptions} (consistent : Consistent Occurs options)
include consistent

/-- What an array of sorted records delivers: each key is reduced. -/
theorem batch_yields {reducer : Reducer Record Unit} (isInt : options.intReducer = some reducer) (sorts : Sorts sort)
    (records : List Record)
    (separate : ∀ a ∈ records, ∀ b ∈ records, options.compare a b = 0 → intCompare options a b = 0) :
    ∃ groups, Groups options.compare records groups ∧
      Yields (Records.acInAdvance (intCompare options))
        (Records.acInRecordsInit (sort (intCompare options) records) options.intReducer ())
        (groups.flatMap (reduced options.intReducer)) := by
  obtain ⟨perm,sorted⟩ := sorts (intCompare options) consistent.intTotal records
  have grouped := Order.runs_groups consistent.intTotal sorted
  have nonempty : ∀ g ∈ runs (intCompare options) (sort (intCompare options) records), g ≠ [] := by
    intro g member
    obtain ⟨key,inG,_⟩ := grouped.oneKey g member
    exact List.ne_nil_of_mem inG
  obtain ⟨yields,_⟩ := Records.records_reduce (intCompare options) reducer ()
    (consistent.intTotal.equivalenceOn (sort (intCompare options) records))
  rw [collect_reduced reducer nonempty,← isInt] at yields
  exact ⟨_,int_groups consistent (Groups.perm perm grouped) separate,yields⟩

/-- What a merge of runs delivers: each key is reduced. -/
theorem merge_yields {reducer : Reducer Record Unit} (isReducer : options.reducer = some reducer)
    {files : List (List Record)} (strict : ∀ file ∈ files, Strict options.compare file) :
    ∃ groups, Groups options.compare files.flatten groups ∧
      Yields (InExt.acInAdvance options.compare) (inFiles options files) (groups.flatMap (reduced options.reducer)) := by
  have added := InExt.added consistent.total () (fun file member => (strict file member).sorted)
  obtain ⟨groups,run,grouped⟩ := InExt.run_groups consistent.total (added.distinct strict)
  obtain ⟨yields,_⟩ := InExt.reducing_yields consistent.total () [] files reducer strict run
  have whole := Groups.perm added.holds grouped
  have nonempty : ∀ g ∈ groups, g ≠ [] := by
    intro g member
    obtain ⟨key,inG,_⟩ := whole.oneKey g member
    exact List.ne_nil_of_mem inG
  rw [collect_reduced reducer nonempty,← isReducer] at yields
  refine ⟨groups,whole,?_⟩
  have same : inFiles options files = InExt.reducing options.compare () [] reducer files := by
    rw [inFiles,isReducer]
    rfl
  rw [same]
  exact yields

theorem reducing {final int : Reducer Record Unit} (isReducer : options.reducer = some final)
    (isInt : options.intReducer = some int) {records : List Record} (occur : ∀ d ∈ records, Occurs d)
    (separate : ∀ a ∈ records, ∀ b ∈ records, options.compare a b = 0 → intCompare options a b = 0)
    (parts : Preserves Occurs options options.intReducer)
    (merges : options.numPerGroup ≠ 0 → Preserves Occurs options options.reducer) (sorts : Sorts sort) :
    Reduces sort options (fun d => d ∈ records) (fun _ => True) (ComesTo Occurs options)
      (fun xs => Strict options.compare xs ∧ ∀ d ∈ xs, Occurs d) where
  perm := ComesTo.perm consistent
  trans := ComesTo.trans
  append := ComesTo.append consistent
  single d written := by
    refine ⟨⟨List.pairwise_singleton _ d,fun e member => ?_⟩,trivial⟩
    rw [List.mem_singleton.mp member]
    exact occur d written
  batch chunk written xs copied := by
    obtain ⟨groups,grouped,yields⟩ := batch_yields consistent isInt sorts chunk
      (fun a inA b inB => separate a (written a inA) b (written b inB))
    obtain ⟨perm,_⟩ := sorts (intCompare options) consistent.intTotal chunk
    have facts := groups_oneKey consistent grouped fun d member => occur d (written d member)
    have oneKey := fun g member => (facts g member).2
    have enough : (groups.flatMap (reduced options.intReducer)).length ≤ (sort (intCompare options) chunk).length := by
      rw [isInt,perm.length_eq,← grouped.whole.length_eq]
      exact reduced_length int groups
    obtain rfl := (Stream.drain_yields yields enough).symm.trans copied
    refine ⟨?_,?_,fun _ => trivial⟩
    · exact (ComesTo.groups consistent (.inr rfl) parts oneKey).trans (ComesTo.perm consistent grouped.whole)
    · exact reduced_strict consistent (.inr rfl) (by rw [isInt]; exact nofun) oneKey grouped.ascending
  merge grouping files run := by
    obtain ⟨groups,grouped,yields⟩ := merge_yields consistent isReducer fun file member => (run file member).1
    have occurFiles : ∀ d ∈ files.flatten, Occurs d := by
      intro d member
      obtain ⟨file,inFiles,inside⟩ := List.mem_flatten.mp member
      exact (run file inFiles).2 d inside
    have facts := groups_oneKey consistent grouped occurFiles
    have oneKey := fun g member => (facts g member).2
    have enough : (groups.flatMap (reduced options.reducer)).length ≤ files.flatten.length := by
      rw [isReducer,← grouped.whole.length_eq]
      exact reduced_length final groups
    rw [copyFiles,Stream.drain_yields yields enough]
    refine ⟨?_,?_⟩
    · exact (ComesTo.groups consistent (.inl rfl) (merges grouping) oneKey).trans (ComesTo.perm consistent grouped.whole)
    · exact reduced_strict consistent (.inl rfl) (by rw [isReducer]; exact nofun) oneKey grouped.ascending

/-! ### Without a reducer -/

theorem plain (noReducer : options.reducer = none) (noInt : options.intReducer = none) (records : List Record)
    (sorts : Sorts sort) :
    Reduces sort options (fun d => d ∈ records) (fun _ => True) List.Perm (Sorted options.compare) where
  perm := id
  trans := List.Perm.trans
  append := List.Perm.append
  single d _ := ⟨List.pairwise_singleton _ d,trivial⟩
  batch chunk _ xs copied := by
    obtain ⟨perm,sorted⟩ := sorts (intCompare options) consistent.intTotal chunk
    rw [noInt] at copied
    obtain rfl := (Stream.drain_yields (Records.records_all (intCompare options) _ ()) (Nat.le_refl _)).symm.trans copied
    exact ⟨perm,sorted.imp fun less => consistent.refines _ _ less,fun _ => trivial⟩
  merge _ files sorted := by
    obtain ⟨xs,yields,perm,isSorted⟩ := InExt.merge_yields consistent.total (InExt.added consistent.total () sorted)
      (InExt.addAll_fields options.compare (InExt.acInExtInit ()) files).1
    have same : inFiles options files = InExt.addAll options.compare (InExt.acInExtInit ()) files := by
      rw [inFiles,noReducer]
    rw [copyFiles,same,Stream.drain_yields yields (Nat.le_of_eq perm.length_eq)]
    exact ⟨perm,isSorted⟩

end

/-! ### Outputs that spill -/

/-- A run or a group run was written out. -/
def Spilled (h : OutSorted) : Prop := ¬ (h.written = [] ∧ h.groupWritten = [])

section
variable {sort : (Record → Record → Int) → List Record → List Record}

theorem writeTmp_spills (h : OutSorted) (tmpOnly : Bool) (records : List Record) : Spilled (writeTmp h tmpOnly records) := by
  unfold Spilled writeTmp
  split <;> simp

theorem checked_spills {h : OutSorted} (spilled : Spilled h) :
    Spilled (if h.extOptions.numPerGroup ≠ 0 then checkForMerge h else h) := by
  split
  · unfold checkForMerge
    split
    · exact spilled
    · simp [Spilled,writeTmp]
  · exact spilled

theorem writeSortedThread_spills (h : OutSorted) : Spilled (writeSortedThread sort h) :=
  checked_spills (writeTmp_spills _ _ _)

variable (sort) in
/-- One record written: it is refused, or it is in the buffer, or something was written out. -/
theorem writeSortedRecord_spills (h : OutSorted) (d : Record) :
    Spilled (writeSortedRecord sort h d).2 ∨ ((writeSortedRecord sort h d).2.written = h.written ∧
      (writeSortedRecord sort h d).2.groupWritten = h.groupWritten ∧
      (writeSortedRecord sort h d).2.b.records = h.b.records ++ accepted [d] ∧
      (writeSortedRecord sort h d).2.outInCalled = h.outInCalled ∧
      (writeSortedRecord sort h d).2.extOptions = h.extOptions) := by
  simp only [writeSortedRecord]
  by_cases long : d.length > 0xffffffff
  · have none : accepted [d] = [] := by simp [accepted,Nat.not_le.mpr long]
    rw [if_pos long,none,List.append_nil]
    exact .inr ⟨rfl,rfl,rfl,rfl,rfl⟩
  · have all : accepted [d] = [d] := by simp [accepted,Nat.not_lt.mp long]
    rw [if_neg long,all]
    split
    case isTrue =>
      split
      · exact .inl (checked_spills (writeTmp_spills _ _ _))
      · unfold writeSorted
        split
        · exact .inr ⟨rfl,rfl,rfl,rfl,rfl⟩
        · exact .inl (writeSortedThread_spills h)
    case isFalse => exact .inr ⟨rfl,rfl,rfl,rfl,rfl⟩

/-- What is written out stays written out. -/
theorem writeSortedRecord_spilled {h : OutSorted} (spilled : Spilled h) (d : Record) :
    Spilled (writeSortedRecord sort h d).2 := by
  rcases writeSortedRecord_spills sort h d with spills | ⟨written,groups,_⟩
  · exact spills
  · unfold Spilled
    rwa [written,groups]

theorem writeAll_spilled {h : OutSorted} (spilled : Spilled h) (records : List Record) :
    Spilled (writeAll sort h records) := by
  induction records generalizing h with
  | nil => exact spilled
  | cons d records ih => exact ih (writeSortedRecord_spilled spilled d)

/-- As long as nothing is written out the buffer holds the records. -/
theorem unspilled_buffer {h : OutSorted} (records : List Record) (unspilled : ¬ Spilled (writeAll sort h records)) :
    (writeAll sort h records).b.records = h.b.records ++ accepted records ∧
      (writeAll sort h records).outInCalled = h.outInCalled ∧ (writeAll sort h records).extOptions = h.extOptions := by
  induction records generalizing h with
  | nil => exact ⟨(List.append_nil _).symm,rfl,rfl⟩
  | cons d records ih =>
    have apart : accepted (d :: records) = accepted [d] ++ accepted records := by
      rw [accepted,← List.singleton_append,List.filter_append]
      rfl
    rcases writeSortedRecord_spills sort h d with spills | ⟨_,_,stored,unread,setup⟩
    · exact absurd (writeAll_spilled spills records) unspilled
    · rw [apart,← List.append_assoc,← stored,← unread,← setup]
      exact ih unspilled

theorem spilled_some {bufferSize : Nat} {options : ExtOptions} {records : List Record}
    (spilled : Spilled (writeAll sort (acOutExtInit bufferSize options) records)) : accepted records ≠ [] := by
  have refused : ∀ records, accepted records = [] → ∀ h, writeAll sort h records = h := by
    intro records none
    induction records with
    | nil => exact fun h => rfl
    | cons d records ih =>
      intro h
      have long : d.length > 0xffffffff := by
        by_contra short
        rw [accepted,List.filter_cons_of_pos (by simpa using Nat.not_lt.mp short)] at none
        cases none
      have rest : accepted records = [] := by
        rwa [accepted,List.filter_cons_of_neg (by simpa using long)] at none
      have step : (writeSortedRecord sort h d).2 = h := by rw [writeSortedRecord,if_pos long]
      show writeAll sort (writeSortedRecord sort h d).2 records = h
      rw [step]
      exact ih rest h
  intro none
  rw [refused records none] at spilled
  exact spilled ⟨rfl,rfl⟩

/-! ### The two answers -/

/-- The same records in the same order, but for the order of equal records. -/
def SameAnswer (compare : Record → Record → Int) (xs ys : List Record) : Prop :=
  xs.Perm ys ∧ Sorted compare xs ∧ Sorted compare ys

/-- What the two outputs have to meet beside the reducers. Nothing is lost by the 32 bit
    count or in a group run; with a reducer, records that are equal in the final order are
    equal in the intermediate one; and what reduces the runs, and the group runs, may be
    applied to a part of the records of a key. -/
structure Comparable (Occurs : Record → Prop) (options : ExtOptions) (records : List Record) (large small : OutSorted) :
    Prop where
  complete : lost large = [] ∧ lost small = []
  separate : options.reducer ≠ none → ∀ a ∈ records, ∀ b ∈ records, options.compare a b = 0 → intCompare options a b = 0
  parts : Preserves Occurs options options.intReducer
  merges : options.numPerGroup ≠ 0 → Preserves Occurs options options.reducer

theorem perm_of_keys {compare : Record → Record → Int} (total : Total compare) {xs ys : List Record}
    (keys : ∀ key, (sameKey compare key xs).Perm (sameKey compare key ys)) : xs.Perm ys := by
  refine List.perm_iff_count.mpr fun d => ?_
  have ofKey : ∀ zs : List Record, (sameKey compare d zs).count d = zs.count d := fun zs =>
    List.count_filter (by simpa using total.refl d)
  rw [← ofKey xs,← ofKey ys]
  exact List.perm_iff_count.mp (keys d) d

variable {Occurs : Record → Prop} {options : ExtOptions} (consistent : Consistent Occurs options) (sorts : Sorts sort)
  {records : List Record} (occur : ∀ d ∈ accepted records, Occurs d)
include consistent sorts occur

/-- What is read from the buffer: each key reduced by the intermediate reducer. -/
theorem memory_answer {bufferSize : Nat} {h : OutSorted}
    (written : h = writeAll sort ⟨initBuffer bufferSize,[],[],false,options,[]⟩ records) (unspilled : ¬ Spilled h)
    (some : accepted records ≠ []) (complete : lost h = [])
    (reducers : options.reducer = none ∧ options.intReducer = none ∨ ∃ int, options.intReducer = Option.some int ∧
      ∀ a ∈ accepted records, ∀ b ∈ accepted records, options.compare a b = 0 → intCompare options a b = 0) :
    ∃ xs, Yields In.advance (acOutSortedIn sort h).1 xs ∧ Sorted options.compare xs ∧
      ∀ key, (sameKey options.compare key xs).Perm
        (reduced options.intReducer (sameKey options.compare key (accepted records))) := by
  obtain ⟨buffer,unread,setup⟩ : h.b.records = accepted records ∧ h.outInCalled = false ∧ h.extOptions = options := by
    rw [written] at unspilled ⊢
    exact unspilled_buffer records unspilled
  have uncut : (accepted records).take ((accepted records).length % 2 ^ 32) = accepted records := by
    have nothing := (List.append_eq_nil_iff.mp complete).2
    rw [buffer,if_neg some] at nothing
    exact List.take_of_length_le (List.drop_eq_nil_iff.mp nothing)
  have read : (acOutSortedIn sort h).1 = _ := unspilled_records unread (not_not.mp unspilled) (by rw [buffer]; exact some)
  rw [buffer,setup,uncut] at read
  rw [read]
  obtain ⟨perm,sorted⟩ := sorts (intCompare options) consistent.intTotal (accepted records)
  rcases reducers with ⟨_,noInt⟩ | ⟨int,isInt,separate⟩
  · refine ⟨sort (intCompare options) (accepted records),?_,sorted.imp fun less => consistent.refines _ _ less,?_⟩
    · rw [noInt]
      exact Yields.lift (In.records _) (fun _ => rfl) (Records.records_all (intCompare options) _ ())
    · intro key
      rw [noInt]
      exact Order.sameKey_perm perm
  · obtain ⟨groups,grouped,yields⟩ := batch_yields consistent isInt sorts _ separate
    have facts := groups_oneKey consistent grouped occur
    have oneKey := fun g member => (facts g member).2
    have isPart : options.intReducer = options.reducer ∨ options.intReducer = options.intReducer := .inr rfl
    refine ⟨_,Yields.lift (In.records _) (fun _ => rfl) yields,?_,fun key => ?_⟩
    · exact (reduced_strict consistent isPart (by rw [isInt]; exact nofun) oneKey grouped.ascending).1.sorted
    · rw [key_reduced consistent isPart key oneKey grouped.ascending]
      refine (consistent.order _ isPart _ _ (Order.sameKey_perm grouped.whole.symm) ?_).symm
      have whole := key_group consistent key (q := []) occur (fun d member => by cases member)
      rwa [List.append_nil] at whole

/-- What is read from the runs: each key reduced by the final reducer. -/
theorem spilled_answer {bufferSize : Nat} {h : OutSorted}
    (written : h = writeAll sort ⟨initBuffer bufferSize,[],[],false,options,[]⟩ records) (spilled : Spilled h)
    (complete : lost h = [])
    (reducers : options.reducer = none ∧ options.intReducer = none ∨
      ∃ final int, options.reducer = Option.some final ∧ options.intReducer = Option.some int ∧
        ∀ a ∈ accepted records, ∀ b ∈ accepted records, options.compare a b = 0 → intCompare options a b = 0)
    (parts : Preserves Occurs options options.intReducer)
    (merges : options.numPerGroup ≠ 0 → Preserves Occurs options options.reducer) :
    ∃ ys, Yields In.advance (acOutSortedIn sort h).1 ys ∧ Sorted options.compare ys ∧
      ∀ key, (sameKey options.compare key ys).Perm
        (reduced options.reducer (sameKey options.compare key (accepted records))) := by
  have all : (stored h).Perm (kept h) := by
    have whole := stored_perm h
    rwa [complete,List.append_nil] at whole
  rcases reducers with ⟨noReducer,noInt⟩ | ⟨final,int,isReducer,isInt,separate⟩
  · have reduces := plain consistent noReducer noInt (accepted records) sorts
    have holding := written_holding reduces bufferSize records fun d member => member
    rw [← written] at holding
    obtain ⟨files,read,run,holds⟩ := spilled_files reduces holding spilled
    obtain ⟨xs,yields,perm,sorted⟩ := InExt.merge_yields consistent.total (InExt.added consistent.total () run)
      (InExt.addAll_fields options.compare (InExt.acInExtInit ()) files).1
    have same : inFiles options files = InExt.addAll options.compare (InExt.acInExtInit ()) files := by
      rw [inFiles,noReducer]
    rw [read,same]
    refine ⟨xs,Yields.lift (In.ext _) (fun _ => rfl) yields,sorted,fun key => ?_⟩
    rw [noReducer]
    exact Order.sameKey_perm (perm.trans (holds.trans (all.symm.trans holding.holds)))
  · have reduces := reducing consistent isReducer isInt occur separate parts merges sorts
    have holding := written_holding reduces bufferSize records fun d member => member
    rw [← written] at holding
    obtain ⟨files,read,run,holds⟩ := spilled_files reduces holding spilled
    obtain ⟨groups,grouped,yields⟩ := merge_yields consistent isReducer fun file member => (run file member).1
    have comesTo := (holds.trans (ComesTo.perm consistent all.symm)).trans holding.holds
    obtain ⟨occurFiles,same⟩ := comesTo occur
    have facts := groups_oneKey consistent grouped occurFiles
    have oneKey := fun g member => (facts g member).2
    rw [read]
    refine ⟨_,Yields.lift (In.ext _) (fun _ => rfl) yields,?_,fun key => ?_⟩
    · exact (reduced_strict consistent (.inl rfl) (by rw [isReducer]; exact nofun) oneKey grouped.ascending).1.sorted
    · rw [key_reduced consistent (.inl rfl) key oneKey grouped.ascending]
      have whole := key_group consistent key (q := []) occurFiles (fun d member => by cases member)
      have merged := same key [] (fun d member => by cases member)
      simp only [List.append_nil] at whole merged
      exact ((consistent.order _ (.inl rfl) _ _ (Order.sameKey_perm grouped.whole.symm) whole).symm).trans merged

end

/-- Records compared by their first byte. -/
def byKey (a b : Record) : Int := (a.headD 0).toNat - (b.headD 0).toNat

theorem byKey_total : Total byKey where
  swap a b := by simp only [byKey]; omega
  trans a b c := by simp only [byKey]; omega

/-- A record without a value marks its key as deleted. -/
def isTombstone (d : Record) : Bool := d.length == 1

/-- The final reducer: no record is made of a group with a tombstone. -/
def dropTombstones : Reducer Record Unit := fun arg group => (if group.any isTombstone then none else group.head?,arg)

/-- The reducer for the runs, which must keep the tombstone of a group. -/
def keepTombstones : Reducer Record Unit := fun arg group => ((group.find? isTombstone).or group.head?,arg)

def tombstoneOptions : ExtOptions where
  compare := byKey
  intCompare := none
  reducer := some dropTombstones
  intReducer := some keepTombstones
  numPerGroup := 0

/-- Two records with values and a tombstone. -/
def Stored (d : Record) : Prop := d = [1] ∨ d = [2,5] ∨ d = [3,7]

theorem oneKey_replicate {group : List Record} (oneKey : OneKey Stored byKey group) :
    group = [] ∨ ∃ d n, Stored d ∧ group = List.replicate (n + 1) d := by
  cases group with
  | nil => exact .inl rfl
  | cons d group =>
    refine .inr ⟨d,group.length,oneKey.1 d List.mem_cons_self,?_⟩
    rw [List.replicate_succ]
    refine congrArg _ (List.eq_replicate_of_mem fun b member => ?_)
    have same := oneKey.2 d List.mem_cons_self b (List.mem_cons_of_mem d member)
    rcases oneKey.1 d List.mem_cons_self with rfl | rfl | rfl <;>
      rcases oneKey.1 b (List.mem_cons_of_mem _ member) with rfl | rfl | rfl <;> first | rfl | exact absurd same (by decide)

theorem reduced_kept (d : Record) (n : Nat) : reduced (some keepTombstones) (List.replicate (n + 1) d) = [d] := by
  cases known : isTombstone d <;> simp [reduced,keepTombstones,List.replicate_succ,known]

theorem reduced_dropped (d : Record) (n : Nat) :
    reduced (some dropTombstones) (List.replicate (n + 1) d) = if isTombstone d then [] else [d] := by
  cases known : isTombstone d <;> simp [reduced,dropTombstones,List.replicate_succ,known]

theorem tombstone_consistent : Consistent Stored (filled tombstoneOptions) where
  total := byKey_total
  intTotal := byKey_total
  refines a b less := less
  closed part isPart group oneKey x made := by
    rcases oneKey_replicate oneKey with rfl | ⟨d,n,stored,rfl⟩
    · rw [reduced_nil] at made
      cases made
    · have same : x = d := by
        rcases isPart with rfl | rfl
        · change x ∈ reduced (some dropTombstones) _ at made
          rw [reduced_dropped] at made
          split at made
          · cases made
          · exact List.mem_singleton.mp made
        · change x ∈ reduced (some keepTombstones) _ at made
          rw [reduced_kept] at made
          exact List.mem_singleton.mp made
      rw [same]
      refine ⟨stored,fun y member => ?_⟩
      rw [List.eq_of_mem_replicate member]
      exact byKey_total.refl d
  order part isPart group group' perm oneKey := by
    rcases oneKey_replicate oneKey with rfl | ⟨d,n,stored,rfl⟩
    · rw [List.nil_perm.mp perm]
    · rw [List.replicate_perm.mp perm]

theorem tombstone_preserves : Preserves Stored (filled tombstoneOptions) (some keepTombstones) := by
  intro p q oneKey
  rcases oneKey_replicate (oneKey.sub fun a member => List.mem_append_left q member) with rfl | ⟨d,n,stored,rfl⟩
  · rw [reduced_nil]
  · obtain nothing | ⟨e,m,_,all⟩ := oneKey_replicate oneKey
    · rw [List.replicate_succ] at nothing
      cases nothing
    · rw [List.replicate_succ,List.cons_append,List.replicate_succ] at all
      injection all with same rest
      subst same
      have others : q = List.replicate q.length d := by
        refine List.eq_replicate_of_mem fun b member => List.eq_of_mem_replicate (n := m) ?_
        rw [← rest]
        exact List.mem_append_right _ member
      rw [reduced_kept,others,List.replicate_append_replicate,List.singleton_append,← List.replicate_succ]
      change (reduced (some dropTombstones) _).Perm (reduced (some dropTombstones) _)
      rw [reduced_dropped,show n + 1 + q.length = n + q.length + 1 by omega,reduced_dropped]

end AnotherC.Spill
