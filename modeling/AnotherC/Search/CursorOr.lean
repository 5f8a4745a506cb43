import AnotherC.Lib.Cursor
import AnotherC.Lib.Heap
import AnotherC.Lib.Rows
import Mathlib.Data.Finset.Sort
import Mathlib.Data.Finset.Union

/-!
# The OR cursor: `ac_cursor`

A heap holds the subs by the id they stand on, and the `active` array those that
stand on the id last returned. Driven by `advance` the cursor lists the union of
the sets of its subs in ascending order (`or_lists`).
-/
namespace AnotherC.CursorOr
open AnotherC.Lib AnotherC.Lib.Cursor AnotherC.Lib.Rows
set_option linter.unusedVariables false

/-- What the `advance` of an OR cursor is. -/
inductive OrCalls
  | init
  | or
  | empty

/-- `or_cursor_t` with the subs that its pointers point to; a pointer is the place of
    its sub in `subs`. The array `cursors` has `cursorSize` slots, and both
    `heap` and `active` have `slots`. -/
structure OrCursor (σ : Type) where
  subs : List σ
  cursors : List (Option Nat)
  numCursors : Nat
  cursorSize : Nat
  active : List Nat
  heap : List Nat
  slots : Nat
  current : Nat
  calls : OrCalls

section
variable {σ : Type}

def acCursorInitOr (σ : Type) : OrCursor σ where
  subs := []
  cursors := List.replicate 2 none
  numCursors := 0
  cursorSize := 2
  active := []
  heap := []
  slots := 0
  current := 0
  calls := .init

def orAdd (dest : OrCursor σ) (src : σ) : OrCursor σ :=
  let dest :=
    if dest.cursorSize ≤ dest.numCursors then
      let numCursors := (dest.cursorSize + 1) * 2
      { dest with
        cursorSize := numCursors
        cursors := dest.cursors.take dest.numCursors ++ List.replicate (numCursors - dest.numCursors) none }
    else dest
  { dest with
    subs := dest.subs ++ [src]
    cursors := dest.cursors.set dest.numCursors (some dest.subs.length)
    numCursors := dest.numCursors + 1 }

/-- `heap[i]->current`. -/
def currentOf (ops : Ops σ) (subs : List σ) (p : Nat) : Nat := (subs[p]?.map ops.current).getD 0

def before (ops : Ops σ) (subs : List σ) (p q : Nat) : Bool := decide (currentOf ops subs p < currentOf ops subs q)

/-- The heap starts at `heap[1]`; `none` when a push would leave the array. -/
def orPush (ops : Ops σ) (c : OrCursor σ) (src : Nat) : Option (OrCursor σ) :=
  if c.heap.length + 1 < c.slots then some { c with heap := Heap.push (before ops c.subs) c.heap src } else none

def orPop (ops : Ops σ) (c : OrCursor σ) : Option (Nat × OrCursor σ) :=
  (Heap.pop (before ops c.subs) c.heap).map fun (r,heap) => (r,{ c with heap := heap })

/-- The loops that advance subs and push those that have not run out. -/
def advanceAll (ops : Ops σ) : List (Option Nat) → OrCursor σ → Option (OrCursor σ)
  | [], c => some c
  | none :: _, _ => none
  | some p :: ps, c =>
    match c.subs[p]? with
    | none => none
    | some s =>
      match ops.advance s with
      | none => none
      | some (id,s') =>
        let c := { c with subs := c.subs.set p s' }
        if id ≠ 0 then
          match orPush ops c p with
          | none => none
          | some c => advanceAll ops ps c
        else advanceAll ops ps c

/-- `active[num_active] = p`, within the array. -/
def activate (c : OrCursor σ) (p : Nat) : Option (OrCursor σ) :=
  if c.active.length < c.slots then some { c with active := c.active ++ [p] } else none

/-- The loop that pops the subs that stand on `current`, at most as many as there are. -/
def popLevel (ops : Ops σ) (current : Nat) : Nat → OrCursor σ → Option (OrCursor σ)
  | 0, c => some c
  | num + 1, c =>
    match c.heap.head? with
    | none => some c
    | some top =>
      if currentOf ops c.subs top = current then
        match orPop ops c with
        | none => none
        | some (p,c) =>
          match activate c p with
          | none => none
          | some c => popLevel ops current num c
      else some c

/-- `ac_cursor_empty`. -/
def acCursorEmpty (c : OrCursor σ) : OrCursor σ := { c with current := 0, calls := .empty }

def advanceOr (ops : Ops σ) (c : OrCursor σ) : Option (Nat × OrCursor σ) :=
  match advanceAll ops (c.active.map some) c with
  | none => none
  | some c =>
    if c.heap.length = 0 then some (0,acCursorEmpty c)
    else
      match orPop ops c with
      | none => none
      | some (p,c) =>
        match activate { c with active := [] } p with
        | none => none
        | some c =>
          let current := currentOf ops c.subs p
          match popLevel ops current c.heap.length c with
          | none => none
          | some c => some (current,{ c with current := current })

def advanceOrInit (ops : Ops σ) (c : OrCursor σ) : Option (Nat × OrCursor σ) :=
  match advanceAll ops (c.cursors.take c.numCursors) { c with heap := [], active := [], slots := c.numCursors + 1 } with
  | none => none
  | some c => if c.heap.length = 0 then some (0,acCursorEmpty c) else advanceOr ops { c with calls := .or }

def advance (ops : Ops σ) (c : OrCursor σ) : Option (Nat × OrCursor σ) :=
  match c.calls with
  | .init => advanceOrInit ops c
  | .or => advanceOr ops c
  | .empty => some (0,c)

/-- Advances `k` times. -/
def advances (ops : Ops σ) : Nat → OrCursor σ → Option (List Nat × OrCursor σ)
  | 0, c => some ([],c)
  | k + 1, c =>
    match advance ops c with
    | none => none
    | some (id,c) => (advances ops k c).map fun (ids,c) => (id :: ids,c)

/-! ## The array of subs -/

/-- The pointers in use are those of the subs added, in this order. -/
structure Filled (c : OrCursor σ) : Prop where
  length : c.cursors.length = c.cursorSize
  room : c.numCursors ≤ c.cursorSize
  number : c.numCursors = c.subs.length
  used : c.cursors.take c.numCursors = (List.range c.numCursors).map some

theorem orAdd_filled {c : OrCursor σ} (filled : Filled c) (src : σ) : Filled (orAdd c src) := by
  obtain ⟨length,room,number,used⟩ := filled
  have put : ∀ (slots : List (Option Nat)), c.numCursors < slots.length → slots.take c.numCursors = c.cursors.take c.numCursors →
      (slots.set c.numCursors (some c.subs.length)).take (c.numCursors + 1) = (List.range (c.numCursors + 1)).map some := by
    intro slots inside same
    rw [List.take_add_one,List.take_set_of_le (Nat.le_refl _),same,used,List.getElem?_set_self inside,List.range_succ,
      List.map_append,number]
    rfl
  rw [orAdd]
  by_cases full : c.cursorSize ≤ c.numCursors
  · rw [if_pos full]
    refine ⟨?_,?_,by simp [number],put _ ?_ ?_⟩
    · simp
      omega
    · change c.numCursors + 1 ≤ (c.cursorSize + 1) * 2
      omega
    · simp
      omega
    · simp [length,room]
  · rw [if_neg full]
    exact ⟨by simp [length],by simp; omega,by simp [number],put c.cursors (by omega) rfl⟩

theorem orAdd_subs (c : OrCursor σ) (src : σ) : (orAdd c src).subs = c.subs ++ [src] ∧ (orAdd c src).calls = c.calls := by
  rw [orAdd]
  by_cases full : c.cursorSize ≤ c.numCursors
  · rw [if_pos full]
    exact ⟨rfl,rfl⟩
  · rw [if_neg full]
    exact ⟨rfl,rfl⟩

theorem orAdds {c : OrCursor σ} (filled : Filled c) (subs : List σ) :
    Filled (subs.foldl orAdd c) ∧ (subs.foldl orAdd c).subs = c.subs ++ subs ∧ (subs.foldl orAdd c).calls = c.calls := by
  induction subs generalizing c with
  | nil => exact ⟨filled,by simp,rfl⟩
  | cons s subs ih =>
    obtain ⟨filled',subs',calls'⟩ := ih (orAdd_filled filled s)
    obtain ⟨added,calls⟩ := orAdd_subs c s
    exact ⟨filled',by rw [List.foldl_cons,subs',added]; simp,calls'.trans calls⟩

theorem init_filled : Filled (acCursorInitOr σ) := ⟨rfl,Nat.zero_le 2,rfl,rfl⟩

/-! ## Filling the heap -/

/-- Where a sub stands that was advanced until it reached `id`. -/
def place (S : Finset Nat) (id : Nat) : Option Nat := (found (least S id)).2

variable {ops : Ops σ} {sets : List (Finset Nat)} {id : Nat} {ps : List Nat} {c : OrCursor σ}

theorem weak (ops : Ops σ) (subs : List σ) : Heap.Weak (before ops subs) := by
  constructor
  · intro a b less
    simp only [before,decide_eq_true_eq,decide_eq_false_iff_not] at less ⊢
    omega
  · intro a b c less less'
    simp only [before,decide_eq_false_iff_not] at less less' ⊢
    omega

theorem places_le {places : List Nat} {n : Nat} (nodup : places.Nodup) (inside : ∀ p ∈ places, p < n) : places.length ≤ n := by
  have within : places ⊆ List.range n := fun p member => List.mem_range.mpr (inside p member)
  have sub := nodup.subperm within
  simpa using sub.length_le

/-- While the subs at `ps` are still to be advanced past `id`, the heap holds those of
    the others that have not run out. -/
structure Filling (ops : Ops σ) (sets : List (Finset Nat)) (id : Nat) (ps : List Nat) (c : OrCursor σ) : Prop where
  subs : c.subs.length = sets.length
  waiting : ∀ p ∈ ps, ∀ s S, c.subs[p]? = some s → sets[p]? = some S → Meets ops S s (some id)
  moved : ∀ p ∉ ps, ∀ s S, c.subs[p]? = some s → sets[p]? = some S → Meets ops S s (place S (id + 1))
  nodup : (ps ++ c.heap).Nodup
  heap : ∀ p, p ∈ c.heap ↔ p ∉ ps ∧ ∃ S, sets[p]? = some S ∧ ∃ x ∈ S, id < x
  inside : ∀ p ∈ ps, p < sets.length
  ordered : Heap.Ordered (before ops c.subs) c.heap
  slots : c.slots = sets.length + 1

theorem currentOf_set {subs : List σ} {p q : Nat} (other : q ≠ p) (s : σ) :
    currentOf ops (subs.set p s) q = currentOf ops subs q := by
  rw [currentOf,currentOf,List.getElem?_set_ne (Ne.symm other)]

theorem Filling.inHeap (filling : Filling ops sets id ps c) {p : Nat} (member : p ∈ c.heap) : p < sets.length := by
  obtain ⟨_,S,found,_⟩ := (filling.heap p).mp member
  exact (List.getElem?_eq_some_iff.mp found).1

/-- One sub has been advanced. -/
theorem Filling.advanced {p id' : Nat} {S : Finset Nat} {s' : σ} {q : Option Nat} (filling : Filling ops sets id (p :: ps) c)
    (found : sets[p]? = some S) (finds : Finds S (id + 1) id' q) (meets : Meets ops S s' q) {heap : List Nat}
    (same : heap.Perm (if id' ≠ 0 then p :: c.heap else c.heap))
    (ordered : Heap.Ordered (before ops (c.subs.set p s')) heap) :
    Filling ops sets id ps { c with subs := c.subs.set p s', heap := heap } := by
  have nodup := filling.nodup
  rw [List.cons_append,List.nodup_cons] at nodup
  obtain ⟨fresh,nodup⟩ := nodup
  have away : p ∉ ps ∧ p ∉ c.heap := by simpa using fresh
  have place_eq : place S (id + 1) = q := congrArg Prod.snd (finds.found (Nat.succ_pos id))
  refine ⟨by simp [filling.subs],?_,?_,?_,?_,fun r member => filling.inside r (by simp [member]),ordered,filling.slots⟩
  · intro r member s T at' at''
    have other : r ≠ p := fun equal => away.1 (equal ▸ member)
    rw [List.getElem?_set_ne (Ne.symm other)] at at'
    exact filling.waiting r (by simp [member]) s T at' at''
  · intro r missing s T at' at''
    by_cases equal : r = p
    · subst equal
      have room : r < c.subs.length := by
        rw [filling.subs]
        exact (List.getElem?_eq_some_iff.mp found).1
      rw [List.getElem?_set_self room] at at'
      cases at'
      rw [found] at at''
      cases at''
      rw [place_eq]
      exact meets
    · rw [List.getElem?_set_ne (Ne.symm equal)] at at'
      exact filling.moved r (by simp [missing,equal]) s T at' at''
  · by_cases stands : id' ≠ 0
    · rw [if_pos stands] at same
      refine (same.append_left ps).nodup_iff.mpr ?_
      refine List.nodup_middle.mpr ?_
      rw [List.nodup_cons]
      exact ⟨fresh,nodup⟩
    · rw [if_neg stands] at same
      exact (same.append_left ps).nodup_iff.mpr nodup
  · intro r
    have more : (id' ≠ 0) ↔ ∃ x ∈ S, id < x := by
      rcases finds with ⟨zero,_,none⟩ | ⟨held,beyond,_,_⟩
      · exact iff_of_false (fun some_ => some_ zero) fun ⟨x,held,more⟩ => absurd (none x held) (by omega)
      · exact iff_of_true (by omega) ⟨id',held,beyond⟩
    have old := filling.heap r
    by_cases equal : r = p
    · subst equal
      have here : r ∈ heap ↔ id' ≠ 0 := by
        rw [same.mem_iff]
        by_cases stands : id' ≠ 0
        · simp [stands]
        · simp [stands,away.2]
      rw [here,more]
      constructor
      · exact fun some_ => ⟨away.1,S,found,some_⟩
      · rintro ⟨_,T,found',some_⟩
        rw [found] at found'
        cases found'
        exact some_
    · have here : r ∈ heap ↔ r ∈ c.heap := by
        rw [same.mem_iff]
        by_cases stands : id' ≠ 0
        · simp [stands,equal]
        · simp [stands]
      change r ∈ heap ↔ _
      rw [here,old]
      simp [equal]

theorem advanceAll_spec (filling : Filling ops sets id ps c) :
    ∃ subs heap, advanceAll ops (ps.map some) c = some { c with subs := subs, heap := heap } ∧
      Filling ops sets id [] { c with subs := subs, heap := heap } := by
  induction ps generalizing c with
  | nil => exact ⟨c.subs,c.heap,rfl,filling⟩
  | cons p ps ih =>
    have room := filling.inside p (by simp)
    have at' := List.getElem?_eq_getElem (l := c.subs) (i := p) (by rw [filling.subs]; exact room)
    have at'' := List.getElem?_eq_getElem (l := sets) (i := p) room
    obtain ⟨id',s',q,returned,finds,meets⟩ := (filling.waiting p (by simp) _ _ at' at'').advance
    have away : p ∉ c.heap := by
      have nodup := filling.nodup
      rw [List.cons_append,List.nodup_cons] at nodup
      exact fun member => nodup.1 (by simp [member])
    have ordered : Heap.Ordered (before ops (c.subs.set p s')) c.heap := by
      refine Heap.ordered_congr (fun a member b member' => ?_) filling.ordered
      have other : ∀ r ∈ c.heap, r ≠ p := by
        rintro r member rfl
        exact away member
      rw [before,before,currentOf_set (other a member),currentOf_set (other b member')]
    rw [List.map_cons,advanceAll]
    simp only [at',returned]
    by_cases stands : id' ≠ 0
    · have nodup : (p :: c.heap).Nodup := by
        have sub : (p :: c.heap).Sublist (p :: ps ++ c.heap) := (List.sublist_append_right ps c.heap).cons_cons p
        exact filling.nodup.sublist sub
      have few := places_le nodup (n := sets.length) (by
        intro r member
        rcases List.mem_cons.mp member with rfl | old
        · exact room
        · exact filling.inHeap old)
      rw [List.length_cons] at few
      have pushes := Heap.push_ordered (weak ops (c.subs.set p s')) ordered p
      rw [if_pos stands,orPush,if_pos (by rw [filling.slots]; exact Nat.lt_succ_of_le few)]
      have next := filling.advanced at'' finds meets (by rw [if_pos stands]; exact Heap.push_perm _ c.heap p) pushes
      obtain ⟨subs,heap,equal,filled⟩ := ih next
      exact ⟨subs,heap,equal,filled⟩
    · rw [if_neg stands]
      have same : c.heap.Perm (if id' ≠ 0 then p :: c.heap else c.heap) := by rw [if_neg stands]
      have next := filling.advanced at'' finds meets same ordered
      obtain ⟨subs,heap,equal,filled⟩ := ih next
      exact ⟨subs,heap,equal,filled⟩

/-! ## Taking a level -/

/-- The union of the sets. -/
def union (sets : List (Finset Nat)) : Finset Nat := sets.foldr (· ∪ ·) ∅

theorem mem_union (sets : List (Finset Nat)) (x : Nat) : x ∈ union sets ↔ ∃ S ∈ sets, x ∈ S := by
  induction sets with
  | nil => simp [union]
  | cons S sets ih =>
    change x ∈ S ∪ union sets ↔ _
    simp [ih]

/-- What holds when the cursor returns `id`: the subs that stand on it are active, and
    the others that have not run out are in the heap. -/
structure Stands (ops : Ops σ) (sets : List (Finset Nat)) (c : OrCursor σ) (id : Nat) : Prop where
  subs : List.Forall₂ (fun s S => Meets ops S s (place S id)) c.subs sets
  active : c.active.Nodup ∧ ∀ p, p ∈ c.active ↔ ∃ S, sets[p]? = some S ∧ id ∈ S
  heap : c.heap.Nodup ∧ ∀ p, p ∈ c.heap ↔ ∃ S, sets[p]? = some S ∧ id ∉ S ∧ ∃ x ∈ S, id < x
  ordered : Heap.Ordered (before ops c.subs) c.heap

/-- While the subs that stand on `current` are popped. -/
structure Level (ops : Ops σ) (all : List Nat) (current : Nat) (c : OrCursor σ) : Prop where
  perm : (c.active ++ c.heap).Perm all
  active : ∀ p ∈ c.active, currentOf ops c.subs p = current
  least : ∀ p ∈ all, current ≤ currentOf ops c.subs p
  ordered : Heap.Ordered (before ops c.subs) c.heap
  room : all.length < c.slots

theorem popLevel_spec {all : List Nat} {current num : Nat} (level : Level ops all current c) (enough : c.heap.length ≤ num) :
    ∃ active heap, popLevel ops current num c = some { c with active := active, heap := heap } ∧
      Level ops all current { c with active := active, heap := heap } ∧
      ∀ p ∈ heap, current < currentOf ops c.subs p := by
  induction num generalizing c with
  | zero =>
    have empty : c.heap = [] := List.length_eq_zero_iff.mp (Nat.le_zero.mp enough)
    refine ⟨c.active,c.heap,rfl,level,?_⟩
    simp [empty]
  | succ num ih =>
    rw [popLevel]
    cases shape : c.heap with
    | nil =>
      refine ⟨c.active,c.heap,?_,level,by simp [shape]⟩
      rfl
    | cons top rest =>
      rw [← shape]
      have head : c.heap.head? = some top := by rw [shape]; rfl
      simp only [head]
      by_cases on : currentOf ops c.subs top = current
      · rw [if_pos on]
        have some_ : c.heap ≠ [] := by simp [shape]
        obtain ⟨root,heap,popped⟩ := @Heap.pop_some _ (before ops c.subs) _ some_
        have root_eq : root = top := by
          have same := Heap.pop_head popped
          rw [head] at same
          exact (Option.some.inj same).symm
        have perm := Heap.pop_perm popped
        have moved : (c.active ++ [root] ++ heap).Perm all := by
          rw [List.append_assoc]
          exact (perm.append_left c.active).symm.trans level.perm
        have lengths := level.perm.length_eq
        have length := Heap.pop_length popped
        rw [List.length_append] at lengths
        have room := level.room
        simp only [orPop,popped,Option.map_some,activate]
        rw [if_pos (by omega)]
        refine ih (c := { c with heap := heap, active := c.active ++ [root] }) ?_ (by simp only; omega)
        refine ⟨moved,?_,level.least,Heap.pop_ordered (weak ops c.subs) popped level.ordered,room⟩
        intro p member
        rcases List.mem_append.mp member with old | new
        · exact level.active p old
        · rw [List.mem_singleton.mp new,root_eq]
          exact on
      · rw [if_neg on]
        refine ⟨c.active,c.heap,rfl,level,fun p member => ?_⟩
        have ordered := level.ordered
        have inside : ∀ q ∈ c.heap, q ∈ all := fun q member => level.perm.subset (by simp [member])
        have top_ := level.least top (inside top (by simp [shape]))
        have first : before ops c.subs p top = false := by
          rw [shape] at ordered member
          exact Heap.root_least (weak ops c.subs) ordered p member
        simp only [before,decide_eq_false_iff_not] at first
        omega

/-- The subs in the heap once all have been advanced past `id`. -/
theorem Filling.current (filling : Filling ops sets id [] c) {p : Nat} (member : p ∈ c.heap) :
    ∃ S, sets[p]? = some S ∧ currentOf ops c.subs p ∈ S ∧ id < currentOf ops c.subs p ∧
      ∀ x ∈ S, id < x → currentOf ops c.subs p ≤ x := by
  obtain ⟨_,S,at'',x,held,more⟩ := (filling.heap p).mp member
  have room : p < c.subs.length := by
    rw [filling.subs]
    exact filling.inHeap member
  have at' := List.getElem?_eq_getElem room
  have meets := filling.moved p (by simp) _ S at' at''
  have finds := least_finds (S := S) (Nat.succ_pos id)
  rw [place] at meets
  rcases finds with ⟨_,_,none⟩ | ⟨inside,beyond,stands,first⟩
  · exact absurd (none x held) (by omega)
  · rw [stands] at meets
    have shows : currentOf ops c.subs p = (found (least S (id + 1))).1 := by
      rw [currentOf,at']
      exact meets.current (by omega)
    rw [shows]
    exact ⟨S,at'',inside,beyond,first⟩

theorem place_skip {S : Finset Nat} {k m : Nat} (positive : 0 < k) (more : k ≤ m) (skipped : ∀ x ∈ S, k ≤ x → m ≤ x) :
    place S k = place S m := by
  have finds := least_finds (S := S) positive
  have finds' : Finds S m (found (least S k)).1 (found (least S k)).2 := by
    rcases finds with ⟨zero,ended,none⟩ | ⟨inside,beyond,stands,first⟩
    · exact .inl ⟨zero,ended,fun x held => Nat.lt_of_lt_of_le (none x held) more⟩
    · exact .inr ⟨inside,skipped _ inside beyond,stands,fun x held from_ => first x held (Nat.le_trans more from_)⟩
  rw [place,place,finds'.found (by omega)]

theorem Filling.none (filling : Filling ops sets id [] c) (empty : c.heap.length = 0) : ∀ x ∈ union sets, x < id + 1 := by
  intro x held
  obtain ⟨S,member,held⟩ := (mem_union sets x).mp held
  obtain ⟨p,at'⟩ := List.mem_iff_getElem?.mp member
  by_contra more
  have inside : p ∈ c.heap := (filling.heap p).mpr ⟨by simp,S,at',x,held,by omega⟩
  rw [List.length_eq_zero_iff.mp empty] at inside
  cases inside

/-- An OR cursor with its arrays, at a position. -/
def OrAt (ops : Ops σ) (sets : List (Finset Nat)) (c : OrCursor σ) : Option Nat → Prop
  | none => c.calls = .empty
  | some id => c.calls = .or ∧ c.slots = sets.length + 1 ∧ Stands ops sets c id

/-- What `advance_or` does once the heap is filled. -/
theorem advanceOr_level {subs : List σ} {heap : List Nat} (calls : c.calls = .or)
    (advanced : advanceAll ops (c.active.map some) c = some { c with subs := subs, heap := heap })
    (filling : Filling ops sets id [] { c with subs := subs, heap := heap }) :
    ∃ id' c' p, advanceOr ops c = some (id',c') ∧ Finds (union sets) (id + 1) id' p ∧ OrAt ops sets c' p := by
  have slots : c.slots = sets.length + 1 := filling.slots
  rw [advanceOr,advanced]
  simp only
  by_cases none : heap.length = 0
  · rw [if_pos none]
    exact ⟨0,_,.none,rfl,.inl ⟨rfl,rfl,filling.none none⟩,rfl⟩
  · rw [if_neg none]
    have some_ : heap ≠ [] := by rintro rfl; exact none rfl
    obtain ⟨top,rest,popped⟩ := @Heap.pop_some _ (before ops subs) _ some_
    have perm := Heap.pop_perm popped
    have nodup : heap.Nodup := by simpa using filling.nodup
    have few := places_le nodup (n := sets.length) fun r member => filling.inHeap member
    obtain ⟨m,m_eq⟩ : ∃ m, m = currentOf ops subs top := ⟨_,rfl⟩
    have level : Level ops heap m { c with subs := subs, heap := rest, active := [top] } := by
      refine ⟨perm.symm,?_,?_,Heap.pop_ordered (weak ops subs) popped filling.ordered,by simp only [slots]; omega⟩
      · intro p member
        rw [List.mem_singleton.mp member]
        exact m_eq.symm
      · intro p member
        have first := Heap.pop_least (weak ops subs) popped filling.ordered p member
        simp only [before,decide_eq_false_iff_not] at first
        change m ≤ currentOf ops subs p
        omega
    obtain ⟨active,left,taken,level',above⟩ := popLevel_spec level (Nat.le_refl rest.length)
    have room : 0 < c.slots := by omega
    simp only [orPop,popped,Option.map_some,activate,List.length_nil,room,if_true,List.nil_append,← m_eq,taken]
    have all : ∀ p, p ∈ heap ↔ p ∈ active ∨ p ∈ left := fun p => by rw [← level'.perm.mem_iff,List.mem_append]
    have unique : (active ++ left).Nodup := level'.perm.nodup_iff.mpr nodup
    have shows : ∀ p ∈ heap, ∃ S, sets[p]? = some S ∧ currentOf ops subs p ∈ S ∧ id < currentOf ops subs p ∧
        ∀ x ∈ S, id < x → currentOf ops subs p ≤ x := fun p member => filling.current member
    have topMember : top ∈ heap := perm.mem_iff.mpr (by simp)
    obtain ⟨T,atTop,inTop,more,_⟩ := shows top topMember
    rw [← m_eq] at inTop more
    have skipped : ∀ S ∈ sets, ∀ x ∈ S, id < x → m ≤ x := by
      intro S member x held more
      obtain ⟨p,at'⟩ := List.mem_iff_getElem?.mp member
      have inside : p ∈ heap := (filling.heap p).mpr ⟨by simp,S,at',x,held,more⟩
      obtain ⟨S',at'',_,_,first⟩ := shows p inside
      rw [at'] at at''
      cases at''
      exact Nat.le_trans (level.least p inside) (first x held more)
    have activeAt : ∀ p, p ∈ active → currentOf ops subs p = m := level'.active
    have leftAt : ∀ p, p ∈ left → m < currentOf ops subs p := above
    have one : ∀ p S, sets[p]? = some S → (p ∈ active ↔ m ∈ S) := by
      intro p S at'
      constructor
      · intro member
        obtain ⟨S',at'',held,_⟩ := shows p ((all p).mpr (.inl member))
        rw [at'] at at''
        cases at''
        rw [activeAt p member] at held
        exact held
      · intro held
        have inside : p ∈ heap := (filling.heap p).mpr ⟨by simp,S,at',m,held,more⟩
        rcases (all p).mp inside with member | member
        · exact member
        · obtain ⟨S',at'',_,_,first⟩ := shows p inside
          rw [at'] at at''
          cases at''
          exact absurd (first m held more) (Nat.not_le.mpr (leftAt p member))
    refine ⟨m,_,some m,rfl,.inr ⟨?_,more,rfl,?_⟩,calls,slots,?_,?_,?_,?_⟩
    · exact (mem_union sets m).mpr ⟨T,List.mem_of_getElem? atTop,inTop⟩
    · intro x held more
      obtain ⟨S,member,held⟩ := (mem_union sets x).mp held
      exact skipped S member x held more
    · refine forall₂_places filling.subs fun p s S at' at'' => ?_
      rw [← place_skip (Nat.succ_pos id) more (skipped S (List.mem_of_getElem? at''))]
      exact filling.moved p (by simp) s S at' at''
    · refine ⟨(List.nodup_append.mp unique).1,fun p => ⟨fun member => ?_,?_⟩⟩
      · obtain ⟨S,at',_⟩ := shows p ((all p).mpr (.inl member))
        exact ⟨S,at',(one p S at').mp member⟩
      · rintro ⟨S,at',held⟩
        exact (one p S at').mpr held
    · refine ⟨(List.nodup_append.mp unique).2.1,fun p => ⟨fun member => ?_,?_⟩⟩
      · obtain ⟨S,at',held,_⟩ := shows p ((all p).mpr (.inr member))
        refine ⟨S,at',fun on => ?_,_,held,leftAt p member⟩
        have active' := activeAt p ((one p S at').mpr on)
        exact absurd active' (by have := leftAt p member; omega)
      · rintro ⟨S,at',off,x,held,beyond⟩
        have inside : p ∈ heap := (filling.heap p).mpr ⟨by simp,S,at',x,held,by omega⟩
        rcases (all p).mp inside with member | member
        · exact absurd ((one p S at').mp member) off
        · exact member
    · exact level'.ordered

theorem Stands.filling (stands : Stands ops sets c id) (positive : 0 < id) (slots : c.slots = sets.length + 1) :
    Filling ops sets id c.active c := by
  have placed : ∀ (p : Nat) s S, c.subs[p]? = some s → sets[p]? = some S → Meets ops S s (place S id) := by
    intro p s S at' at''
    rcases forall₂_getElem? stands.subs p with ⟨none,_⟩ | ⟨s',S',found,found',meets⟩
    · rw [none] at at'
      cases at'
    · rw [found] at at'
      rw [found'] at at''
      cases at'
      cases at''
      exact meets
  refine ⟨stands.subs.length_eq,?_,?_,?_,?_,?_,stands.ordered,slots⟩
  · intro p member s S at' at''
    obtain ⟨S',here,held⟩ := (stands.active.2 p).mp member
    rw [at''] at here
    cases here
    have here : Finds S id id (some id) := .inr ⟨held,Nat.le_refl id,rfl,fun x _ from_ => from_⟩
    have meets := placed p s S at' at''
    rw [place,here.found positive] at meets
    exact meets
  · intro p missing s S at' at''
    rw [← place_skip positive (Nat.le_succ id) fun x held from_ => ?_]
    · exact placed p s S at' at''
    · refine Nat.lt_of_le_of_ne from_ ?_
      rintro rfl
      exact missing ((stands.active.2 _).mpr ⟨S,at'',held⟩)
  · refine List.nodup_append.mpr ⟨stands.active.1,stands.heap.1,?_⟩
    rintro p member _ member' rfl
    obtain ⟨S,at',held⟩ := (stands.active.2 p).mp member
    obtain ⟨S',at'',missing,_⟩ := (stands.heap.2 p).mp member'
    rw [at'] at at''
    cases at''
    exact missing held
  · intro p
    rw [stands.heap.2]
    constructor
    · rintro ⟨S,at',missing,some_⟩
      refine ⟨fun member => ?_,S,at',some_⟩
      obtain ⟨S',at'',held⟩ := (stands.active.2 p).mp member
      rw [at'] at at''
      cases at''
      exact missing held
    · rintro ⟨missing,S,at',some_⟩
      exact ⟨S,at',fun held => missing ((stands.active.2 p).mpr ⟨S,at',held⟩),some_⟩
  · intro p member
    obtain ⟨S,at',_⟩ := (stands.active.2 p).mp member
    exact (List.getElem?_eq_some_iff.mp at').1

theorem advance_step {p : Option Nat} (at' : OrAt ops sets c p) (positive : p ≠ some 0) :
    ∃ c', advance ops c = some ((answer (union sets) p .advance).1,c') ∧ OrAt ops sets c' (answer (union sets) p .advance).2 := by
  cases p with
  | none =>
    have calls : c.calls = .empty := at'
    exact ⟨c,by rw [advance,calls]; rfl,calls⟩
  | some id =>
    obtain ⟨calls,slots,stands⟩ := at'
    have filling := stands.filling (Nat.pos_of_ne_zero fun zero => positive (by rw [zero])) slots
    obtain ⟨subs,heap,advanced,filled⟩ := advanceAll_spec filling
    obtain ⟨id',c',p,returned,finds,at''⟩ := advanceOr_level calls advanced filled
    have spec := finds.found (Nat.succ_pos id)
    refine ⟨c',?_,?_⟩
    · rw [advance,calls,answer,spec]
      exact returned
    · rw [answer,spec]
      exact at''

/-- The first advance. -/
theorem advance_first (calls : c.calls = .init) (filled : Filled c)
    (meets : List.Forall₂ (fun s S => Meets ops S s (some 0)) c.subs sets) :
    ∃ c', advance ops c = some ((answer (union sets) (some 0) .advance).1,c') ∧
      OrAt ops sets c' (answer (union sets) (some 0) .advance).2 := by
  have lengths := meets.length_eq
  have number := filled.number
  have start : Filling ops sets 0 (List.range c.numCursors) { c with heap := [], active := [], slots := c.numCursors + 1 } := by
    refine ⟨lengths,?_,?_,by simp [List.nodup_range],?_,?_,Heap.ordered_nil _,by simp only; omega⟩
    · intro p member s S at' at''
      rcases forall₂_getElem? meets p with ⟨none,_⟩ | ⟨s',S',found,found',meets⟩
      · exact absurd none (by simp only at at'; simp [at'])
      · simp only at at'
        rw [found] at at'
        rw [found'] at at''
        cases at'
        cases at''
        exact meets
    · intro p missing s S at' at''
      have inside := (List.getElem?_eq_some_iff.mp at'').1
      exact absurd (List.mem_range.mpr (by omega)) missing
    · intro p
      refine iff_of_false (by simp) ?_
      rintro ⟨missing,S,at',_⟩
      have inside := (List.getElem?_eq_some_iff.mp at').1
      exact missing (List.mem_range.mpr (by omega))
    · intro p member
      have inside := List.mem_range.mp member
      omega
  obtain ⟨subs,heap,advanced,filling⟩ := advanceAll_spec start
  rw [advance,calls,answer]
  simp only [advanceOrInit,filled.used,advanced]
  by_cases empty : heap.length = 0
  · rw [if_pos empty]
    have finds : Finds (union sets) (0 + 1) 0 none := .inl ⟨rfl,rfl,filling.none empty⟩
    rw [finds.found (Nat.succ_pos 0)]
    exact ⟨_,rfl,rfl⟩
  · rw [if_neg empty]
    have filling' : Filling ops sets 0 [] { c with heap := heap, active := [], slots := c.numCursors + 1, subs := subs, calls := .or } :=
      ⟨filling.subs,filling.waiting,filling.moved,filling.nodup,filling.heap,filling.inside,filling.ordered,filling.slots⟩
    obtain ⟨id',c',p,returned,finds,at''⟩ :=
      advanceOr_level (c := { c with heap := heap, active := [], slots := c.numCursors + 1, subs := subs, calls := .or })
        rfl rfl filling'
    rw [finds.found (Nat.succ_pos 0)]
    exact ⟨c',returned,at''⟩

theorem advances_spec {p : Option Nat} (k : Nat) (at' : OrAt ops sets c p) (positive : p ≠ some 0) :
    ∃ c', advances ops k c = some ((answers (union sets) p (List.replicate k .advance)).1,c') ∧
      OrAt ops sets c' (answers (union sets) p (List.replicate k .advance)).2 := by
  induction k generalizing c p with
  | zero => exact ⟨c,rfl,at'⟩
  | succ k ih =>
    obtain ⟨c₁,returned,at₁⟩ := advance_step at' positive
    have positive' : (answer (union sets) p .advance).2 ≠ some 0 := by
      rcases advance_answer (union sets) p with ⟨_,ended⟩ | ⟨some_,stands⟩
      · rw [ended]
        simp
      · rw [stands]
        simpa using some_
    obtain ⟨c₂,rest,at₂⟩ := ih at₁ positive'
    refine ⟨c₂,?_,at₂⟩
    rw [advances,returned]
    simp only [rest,Option.map_some]
    rfl

/-- However often the cursor is advanced, it has listed the union in ascending order and
    then 0, and whenever it returns an id, its arrays hold what they should. -/
theorem or_lists {subs : List σ} (meets : List.Forall₂ (fun s S => Meets ops S s (some 0)) subs sets) (k : Nat) :
    ∃ ids c, advances ops k (subs.foldl orAdd (acCursorInitOr σ)) = some (ids,c) ∧
      ids = (((union sets).filter (0 < ·)).sort ++ List.replicate k 0).take k ∧
      ∀ id, ids.getLast? = some id → id ≠ 0 → Stands ops sets c id := by
  obtain ⟨filled,same,calls⟩ := orAdds (init_filled (σ := σ)) subs
  obtain ⟨ids,c,returned,equal,at'⟩ : ∃ ids c, advances ops k (subs.foldl orAdd (acCursorInitOr σ)) = some (ids,c) ∧
      ids = (answers (union sets) (some 0) (List.replicate k .advance)).1 ∧
      (k ≠ 0 → OrAt ops sets c (answers (union sets) (some 0) (List.replicate k .advance)).2) := by
    cases k with
    | zero => exact ⟨[],_,rfl,rfl,fun zero => absurd rfl zero⟩
    | succ k =>
      have meets' : List.Forall₂ (fun s S => Meets ops S s (some 0)) (subs.foldl orAdd (acCursorInitOr σ)).subs sets := by
        rw [same]
        exact meets
      obtain ⟨c₁,first,at₁⟩ := advance_first calls filled meets'
      have positive : (answer (union sets) (some 0) .advance).2 ≠ some 0 := by
        rcases advance_answer (union sets) (some 0) with ⟨_,ended⟩ | ⟨some_,stands⟩
        · rw [ended]
          simp
        · rw [stands]
          simpa using some_
      obtain ⟨c₂,rest,at₂⟩ := advances_spec k at₁ positive
      refine ⟨_,c₂,?_,rfl,fun _ => at₂⟩
      rw [advances,first]
      simp only [rest,Option.map_some]
      rfl
  refine ⟨ids,c,returned,equal.trans (advances_list _ k),fun id last positive => ?_⟩
  rw [equal] at last
  have stands := advances_last (union sets) last positive
  have some_ : k ≠ 0 := by
    rintro rfl
    cases last
  have at'' := at' some_
  rw [stands] at at''
  exact at''.2.2

/-- Subs of two sets, advanced four times. -/
theorem or_lists_run :
    ∃ ids c, advances setOps 4 ([({2,5},some 0),({5,3},some 0)].foldl orAdd (acCursorInitOr _)) = some (ids,c) ∧
      ids = (((union [{2,5},{5,3}]).filter (0 < ·)).sort ++ List.replicate 4 0).take 4 ∧
      ∀ id, ids.getLast? = some id → id ≠ 0 → Stands setOps [{2,5},{5,3}] c id :=
  or_lists (.cons (setOps_meets _ _) (.cons (setOps_meets _ _) .nil)) 4

end

end AnotherC.CursorOr
