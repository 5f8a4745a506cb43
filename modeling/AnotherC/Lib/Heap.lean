import Mathlib.Data.List.Basic

/-!
Binary min-heaps in an array, with positions from 1 as in `heap[1..num]`. The
order is a Boolean "comes before" that is a strict weak order. A push lets the
new entry rise, a pop takes the root, moves the last entry there and lets it
sink. Both keep the heap ordered (`push_ordered`, `pop_ordered`) and the entries
(`push_perm`, `pop_perm`), and a pop takes a least entry (`pop_least`).
-/
namespace AnotherC.Lib.Heap

/-- The laws of a comparison that comes from a total preorder. -/
structure Weak {α : Type} (before : α → α → Bool) : Prop where
  asymm : ∀ a b, before a b = true → before b a = false
  trans : ∀ a b c, before a b = false → before b c = false → before a c = false

section
variable {α : Type}

/-- The entry at a position, counted from 1. -/
def slot (heap : List α) (i : Nat) : Option α := if i = 0 then none else heap[i - 1]?

/-- Exchanges two entries. -/
def swap (heap : List α) (i j : Nat) : List α :=
  match slot heap i, slot heap j with
  | some a, some b => (heap.set (i - 1) b).set (j - 1) a
  | _, _ => heap

theorem slot_pos {heap : List α} {i : Nat} {a : α} (found : slot heap i = some a) : 0 < i := by
  rcases Nat.eq_zero_or_pos i with zero | pos
  · simp [slot,zero] at found
  · exact pos

theorem slot_inside {heap : List α} {i : Nat} {a : α} (found : slot heap i = some a) : i ≤ heap.length := by
  have pos := slot_pos found
  have : i ≠ 0 := by omega
  simp only [slot,this,if_false] at found
  have := (List.getElem?_eq_some_iff.mp found).1
  omega

theorem slot_of_inside {heap : List α} {i : Nat} (pos : 0 < i) (inside : i ≤ heap.length) :
    ∃ a, slot heap i = some a := by
  have : i ≠ 0 := by omega
  refine ⟨heap.get ⟨i - 1,by omega⟩,?_⟩
  simp only [slot,this,if_false]
  exact List.getElem?_eq_getElem _

theorem mem_of_slot {heap : List α} {i : Nat} {a : α} (found : slot heap i = some a) : a ∈ heap := by
  have : i ≠ 0 := by have := slot_pos found; omega
  simp only [slot,this,if_false] at found
  exact List.mem_of_getElem? found

theorem slot_of_mem {heap : List α} {a : α} (member : a ∈ heap) : ∃ i, slot heap i = some a := by
  obtain ⟨i,found⟩ := List.getElem?_of_mem member
  exact ⟨i + 1,by simpa [slot] using found⟩

theorem swap_eq {heap : List α} {i j : Nat} {a b : α} (atI : slot heap i = some a) (atJ : slot heap j = some b) :
    swap heap i j = (heap.set (i - 1) b).set (j - 1) a := by
  simp [swap,atI,atJ]

@[simp] theorem swap_length (heap : List α) (i j : Nat) : (swap heap i j).length = heap.length := by
  unfold swap
  split <;> simp

theorem swap_perm (heap : List α) (i j : Nat) : (swap heap i j).Perm heap := by
  unfold swap
  split
  case h_1 a b atI atJ =>
    have posI := slot_pos atI
    have posJ := slot_pos atJ
    have insideI := slot_inside atI
    have insideJ := slot_inside atJ
    have : i ≠ 0 := by omega
    have : j ≠ 0 := by omega
    simp only [slot, *,if_false] at atI atJ
    obtain ⟨_,rfl⟩ := List.getElem?_eq_some_iff.mp atI
    obtain ⟨_,rfl⟩ := List.getElem?_eq_some_iff.mp atJ
    exact List.set_set_perm (by omega) (by omega)
  case h_2 => exact List.Perm.refl _

/-- What stands where after an exchange of two different positions. -/
theorem slot_swap {heap : List α} {i j : Nat} {a b : α} (atI : slot heap i = some a) (atJ : slot heap j = some b)
    (differ : i ≠ j) (k : Nat) :
    slot (swap heap i j) k = if k = i then some b else if k = j then some a else slot heap k := by
  have posI := slot_pos atI
  have posJ := slot_pos atJ
  have insideI := slot_inside atI
  have insideJ := slot_inside atJ
  rw [swap_eq atI atJ]
  by_cases zero : k = 0
  · subst zero
    have : (0 : Nat) ≠ i := by omega
    have : (0 : Nat) ≠ j := by omega
    simp [slot, *]
  · simp only [slot,zero,if_false,List.getElem?_set,List.length_set]
    by_cases first : k = i
    · subst first
      have : ¬ j - 1 = k - 1 := by omega
      have : k - 1 < heap.length := by omega
      simp [*]
    · have : ¬ i - 1 = k - 1 := by omega
      by_cases second : k = j
      · subst second
        have : k - 1 < heap.length := by omega
        simp [*]
      · have : ¬ j - 1 = k - 1 := by omega
        simp [*]

variable (before : α → α → Bool)

/-- Whether the entry at `i` comes before the entry at `j`. -/
def less (heap : List α) (i j : Nat) : Bool :=
  match slot heap i, slot heap j with
  | some a, some b => before a b
  | _, _ => false

/-- The entry at `i` rises while it comes before its parent: one exchange for
    each unit of fuel, and `i` units are enough. -/
def rise : Nat → List α → Nat → List α
  | 0, heap, _ => heap
  | fuel + 1, heap, i =>
    if 0 < i / 2 ∧ less before heap i (i / 2) = true then rise fuel (swap heap i (i / 2)) (i / 2) else heap

/-- The child of `i` that comes first, the left one when they are level. -/
def child (heap : List α) (i : Nat) : Nat :=
  if 2 * i + 1 ≤ heap.length ∧ less before heap (2 * i + 1) (2 * i) = true then 2 * i + 1 else 2 * i

/-- The entry at `i` sinks while a child comes before it: one exchange for each
    unit of fuel, and as many units as there are entries are enough. -/
def sink : Nat → List α → Nat → List α
  | 0, heap, _ => heap
  | fuel + 1, heap, i =>
    if child before heap i ≤ heap.length ∧ less before heap (child before heap i) i = true then
      sink fuel (swap heap i (child before heap i)) (child before heap i)
    else heap

/-- Adds an entry. -/
def push (heap : List α) (entry : α) : List α :=
  rise before (heap.length + 1) (heap ++ [entry]) (heap.length + 1)

/-- Takes the root. -/
def pop : List α → Option (α × List α)
  | [] => none
  | root :: rest =>
    match rest.getLast? with
    | none => some (root,[])
    | some last => some (root,sink before rest.length (last :: rest.dropLast) 1)

/-- No entry comes before its parent. -/
def Ordered (heap : List α) : Prop :=
  ∀ k, 1 < k → less before heap k (k / 2) = false

theorem ordered_nil : Ordered before ([] : List α) := by
  intro k _
  simp [less,slot]

/-- Only the entry at `i` may come before its parent. -/
structure RiseReady (heap : List α) (i : Nat) : Prop where
  except : ∀ k, 1 < k → k ≠ i → less before heap k (k / 2) = false
  grand : 1 < i → ∀ k, k / 2 = i → less before heap k (i / 2) = false

/-- Only children of `i` may come before their parent. -/
structure SinkReady (heap : List α) (i : Nat) : Prop where
  except : ∀ k, 1 < k → k / 2 ≠ i → less before heap k (k / 2) = false
  grand : 1 < i → ∀ k, k / 2 = i → less before heap k (i / 2) = false

variable {before}

theorem less_eq {heap : List α} {i j : Nat} {a b : α} (atI : slot heap i = some a) (atJ : slot heap j = some b) :
    less before heap i j = before a b := by
  simp [less,atI,atJ]

theorem less_found {heap : List α} {i j : Nat} (isLess : less before heap i j = true) :
    ∃ a b, slot heap i = some a ∧ slot heap j = some b ∧ before a b = true := by
  unfold less at isLess
  split at isLess
  case h_1 a b atI atJ => exact ⟨a,b,atI,atJ,isLess⟩
  case h_2 => cases isLess

theorem less_false {heap : List α} {i j : Nat}
    (all : ∀ a b, slot heap i = some a → slot heap j = some b → before a b = false) :
    less before heap i j = false := by
  unfold less
  split
  case h_1 a b atI atJ => exact all a b atI atJ
  case h_2 => rfl

theorem Weak.irrefl (weak : Weak before) (a : α) : before a a = false := by
  cases same : before a a with
  | false => rfl
  | true => have := weak.asymm a a same; rw [same] at this; exact this

/-- What comes after something that another entry does not come before. -/
theorem Weak.before_of (weak : Weak before) {a b c : α} (ab : before a b = true) (cb : before c b = false) :
    before c a = false := by
  cases ca : before c a with
  | false => rfl
  | true =>
    have ac := weak.asymm c a ca
    have := weak.trans a c b ac cb
    rw [ab] at this
    cases this

theorem rise_step (weak : Weak before) {heap : List α} {i : Nat} (ready : RiseReady before heap i)
    (up : less before heap i (i / 2) = true) : RiseReady before (swap heap i (i / 2)) (i / 2) := by
  obtain ⟨a,b,atI,atP,ab⟩ := less_found up
  have posP := slot_pos atP
  have parentLess : i / 2 < i := by omega
  have at' := slot_swap atI atP (by omega)
  constructor
  · intro k big other
    apply less_false
    intro c d atK atParent
    rw [at' k] at atK
    rw [at' (k / 2)] at atParent
    by_cases self : k = i
    · rw [if_pos self] at atK
      subst self
      simp only [show k / 2 ≠ k by omega,if_false,if_true] at atParent
      cases atK; cases atParent
      exact weak.asymm _ _ ab
    · simp only [self,other,if_false] at atK
      by_cases below : k / 2 = i
      · rw [if_pos below] at atParent
        cases atParent
        have := ready.grand (by omega) k below
        rwa [less_eq atK atP] at this
      · rw [if_neg below] at atParent
        have kept := ready.except k big self
        by_cases sibling : k / 2 = i / 2
        · rw [if_pos sibling] at atParent
          cases atParent
          rw [sibling,less_eq atK atP] at kept
          exact weak.before_of ab kept
        · rw [if_neg sibling] at atParent
          rwa [less_eq atK atParent] at kept
  · intro big k below
    have parentKept := ready.except (i / 2) (by omega) (by omega)
    apply less_false
    intro c d atK atGrand
    rw [at' k] at atK
    rw [at' (i / 2 / 2)] at atGrand
    simp only [show i / 2 / 2 ≠ i by omega,show i / 2 / 2 ≠ i / 2 by omega,if_false] at atGrand
    rw [less_eq atP atGrand] at parentKept
    by_cases self : k = i
    · rw [if_pos self] at atK
      cases atK
      exact parentKept
    · rw [if_neg self,if_neg (show k ≠ i / 2 by omega)] at atK
      have kept := ready.except k (by omega) self
      rw [below,less_eq atK atP] at kept
      exact weak.trans _ _ _ kept parentKept

theorem rise_perm (fuel : Nat) (heap : List α) (i : Nat) : (rise before fuel heap i).Perm heap := by
  induction fuel generalizing heap i with
  | zero => exact List.Perm.refl _
  | succ fuel ih =>
    rw [rise]
    split
    · exact (ih _ _).trans (swap_perm _ _ _)
    · exact List.Perm.refl _

theorem rise_ordered (weak : Weak before) (fuel : Nat) (heap : List α) (i : Nat) (enough : i ≤ fuel)
    (ready : RiseReady before heap i) : Ordered before (rise before fuel heap i) := by
  induction fuel generalizing heap i with
  | zero =>
    intro k big
    exact ready.except k big (by omega)
  | succ fuel ih =>
    rw [rise]
    split
    case isTrue more => exact ih _ _ (by omega) (rise_step weak ready more.2)
    case isFalse stop =>
      intro k big
      by_cases self : k = i
      · subst self
        cases up : less before heap k (k / 2) with
        | false => rfl
        | true => exact absurd ⟨by omega,up⟩ stop
      · exact ready.except k big self

variable (before) in
theorem child_range (heap : List α) (i : Nat) : child before heap i = 2 * i ∨ child before heap i = 2 * i + 1 := by
  unfold child
  split
  · exact .inr rfl
  · exact .inl rfl

/-- No child comes before the one that is chosen. -/
theorem child_least (weak : Weak before) (heap : List α) {i k : Nat} (below : k / 2 = i) :
    less before heap k (child before heap i) = false := by
  have which : k = 2 * i ∨ k = 2 * i + 1 := by omega
  unfold child
  split
  case isTrue right =>
    obtain ⟨a,b,atR,atL,ab⟩ := less_found right.2
    rcases which with rfl | rfl
    · rw [less_eq atL atR]; exact weak.asymm _ _ ab
    · rw [less_eq atR atR]; exact weak.irrefl a
  case isFalse left =>
    apply less_false
    intro c d atK atL
    rcases which with rfl | rfl
    · rw [atK] at atL; cases atL; exact weak.irrefl c
    · have inside := slot_inside atK
      have : ¬ less before heap (2 * i + 1) (2 * i) = true := fun up => left ⟨inside,up⟩
      rw [less_eq atK atL] at this
      simpa using this

theorem sink_step (weak : Weak before) {heap : List α} {i : Nat} (pos : 0 < i) (ready : SinkReady before heap i)
    (down : less before heap (child before heap i) i = true) :
    SinkReady before (swap heap i (child before heap i)) (child before heap i) := by
  have range := child_range before heap i
  have least := fun k (below : k / 2 = i) => child_least weak heap below
  generalize child before heap i = c at *
  obtain ⟨a,b,atC,atI,ab⟩ := less_found down
  have at' := slot_swap atI atC (by omega)
  have parentOf : c / 2 = i := by omega
  constructor
  · intro k big other
    apply less_false
    intro x y atK atParent
    rw [at' k] at atK
    rw [at' (k / 2),if_neg other] at atParent
    by_cases self : k = i
    · subst self
      rw [if_pos rfl] at atK
      cases atK
      rw [if_neg (by omega)] at atParent
      have := ready.grand big c parentOf
      rwa [less_eq atC atParent] at this
    · rw [if_neg self] at atK
      by_cases sibling : k / 2 = i
      · rw [if_pos sibling] at atParent
        cases atParent
        by_cases chosen : k = c
        · rw [if_pos chosen] at atK
          cases atK
          exact weak.asymm _ _ ab
        · rw [if_neg chosen] at atK
          have := least k sibling
          rwa [less_eq atK atC] at this
      · rw [if_neg sibling] at atParent
        rw [if_neg (by intro same; omega)] at atK
        have := ready.except k big sibling
        rwa [less_eq atK atParent] at this
  · intro _ k below
    apply less_false
    intro x y atK atParent
    rw [at' k,if_neg (by omega),if_neg (by omega)] at atK
    rw [at' (c / 2),if_pos parentOf] at atParent
    cases atParent
    have := ready.except k (by omega) (by omega)
    rwa [below,less_eq atK atC] at this

theorem sink_perm (fuel : Nat) (heap : List α) (i : Nat) : (sink before fuel heap i).Perm heap := by
  induction fuel generalizing heap i with
  | zero => exact List.Perm.refl _
  | succ fuel ih =>
    rw [sink]
    split
    · exact (ih _ _).trans (swap_perm _ _ _)
    · exact List.Perm.refl _

theorem sink_ordered (weak : Weak before) (fuel : Nat) (heap : List α) (i : Nat) (pos : 0 < i)
    (enough : heap.length ≤ fuel + i) (ready : SinkReady before heap i) :
    Ordered before (sink before fuel heap i) := by
  -- Without a child in the heap every pair is in order.
  have leaf : ∀ (heap : List α) (i : Nat), heap.length < 2 * i → SinkReady before heap i →
      Ordered before heap := by
    intro heap i short ready k big
    by_cases below : k / 2 = i
    · apply less_false
      intro a b atK _
      have := slot_inside atK
      omega
    · exact ready.except k big below
  induction fuel generalizing heap i with
  | zero => exact leaf heap i (by omega) ready
  | succ fuel ih =>
    have range := child_range before heap i
    rw [sink]
    split
    case isTrue more =>
      refine ih _ _ (by omega) ?_ (sink_step weak pos ready more.2)
      rw [swap_length]
      omega
    case isFalse stop =>
      intro k big
      by_cases below : k / 2 = i
      · cases down : less before heap k (k / 2) with
        | false => rfl
        | true =>
          have chosen := child_least weak heap below
          obtain ⟨a,b,atK,atI,ab⟩ := less_found down
          have insideK := slot_inside atK
          rw [below] at atI
          have insideC : child before heap i ≤ heap.length := by
            unfold child
            split
            case isTrue right => exact right.1
            case isFalse => omega
          obtain ⟨c,atC⟩ := slot_of_inside (by omega) insideC
          rw [less_eq atK atC] at chosen
          have notDown : ¬ less before heap (child before heap i) i = true := fun up => stop ⟨insideC,up⟩
          rw [less_eq atC atI] at notDown
          have := weak.trans _ _ _ chosen (by simpa using notDown)
          rw [ab] at this
          cases this
      · exact ready.except k big below

/-! ### The operations -/

variable (before) in
theorem push_perm (heap : List α) (entry : α) : (push before heap entry).Perm (entry :: heap) :=
  (rise_perm _ _ _).trans (List.perm_append_singleton entry heap)

theorem push_length (heap : List α) (entry : α) : (push before heap entry).length = heap.length + 1 := by
  rw [(push_perm before heap entry).length_eq,List.length_cons]

theorem slot_append {heap : List α} {entry a : α} {k : Nat} (found : slot (heap ++ [entry]) k = some a)
    (other : k ≠ heap.length + 1) : slot heap k = some a := by
  have pos := slot_pos found
  have inside := slot_inside found
  rw [List.length_append,List.length_singleton] at inside
  simp only [slot,show k ≠ 0 by omega,if_false] at found ⊢
  rwa [List.getElem?_append_left (by omega)] at found

theorem push_ordered (weak : Weak before) {heap : List α} (ordered : Ordered before heap) (entry : α) :
    Ordered before (push before heap entry) := by
  apply rise_ordered weak _ _ _ (Nat.le_refl _)
  constructor
  · intro k big other
    apply less_false
    intro a b atK atParent
    have inside := slot_inside atK
    have first := slot_append atK other
    have insideFirst := slot_inside first
    have second := slot_append atParent (by omega)
    have := ordered k big
    rwa [less_eq first second] at this
  · intro big k below
    apply less_false
    intro a b atK _
    have := slot_inside atK
    rw [List.length_append,List.length_singleton] at this
    omega

theorem pop_none {heap : List α} : pop before heap = none ↔ heap = [] := by
  cases heap with
  | nil => simp [pop]
  | cons root rest =>
    simp only [pop]
    split <;> simp

theorem pop_some {heap : List α} (nonempty : heap ≠ []) : ∃ root rest, pop before heap = some (root,rest) := by
  cases popped : pop before heap with
  | none => exact absurd (pop_none.mp popped) nonempty
  | some pair => exact ⟨pair.1,pair.2,rfl⟩

/-- The root and the entries that a pop sinks. -/
theorem pop_cases {heap : List α} {root : α} {rest : List α} (popped : pop before heap = some (root,rest)) :
    ∃ tail, heap = root :: tail ∧
      ((tail = [] ∧ rest = []) ∨
        ∃ init last, tail = init ++ [last] ∧ rest = sink before tail.length (last :: init) 1) := by
  cases heap with
  | nil => simp [pop] at popped
  | cons head tail =>
    simp only [pop] at popped
    split at popped
    case h_1 none =>
      cases popped
      exact ⟨tail,rfl,.inl ⟨List.getLast?_eq_none_iff.mp none,rfl⟩⟩
    case h_2 last found =>
      cases popped
      refine ⟨tail,rfl,.inr ⟨tail.dropLast,last,?_,rfl⟩⟩
      obtain ⟨init,same⟩ := List.getLast?_eq_some_iff.mp found
      simp [same]

theorem pop_perm {heap : List α} {root : α} {rest : List α} (popped : pop before heap = some (root,rest)) :
    heap.Perm (root :: rest) := by
  obtain ⟨tail,rfl,⟨rfl,rfl⟩ | ⟨init,last,rfl,rfl⟩⟩ := pop_cases popped
  · exact List.Perm.refl _
  · exact List.Perm.cons root ((List.perm_append_singleton last init).trans (sink_perm _ _ _).symm)

theorem pop_ordered (weak : Weak before) {heap : List α} {root : α} {rest : List α}
    (popped : pop before heap = some (root,rest)) (ordered : Ordered before heap) : Ordered before rest := by
  obtain ⟨tail,rfl,⟨rfl,rfl⟩ | ⟨init,last,rfl,rfl⟩⟩ := pop_cases popped
  · exact ordered_nil before
  · refine sink_ordered weak _ _ _ (by omega) (by simp) ⟨?_,?_⟩
    · intro k big other
      -- Off the root the entries stand where they stood.
      have same : ∀ j a, 1 < j → slot (last :: init) j = some a → slot (root :: (init ++ [last])) j = some a := by
        intro j a big found
        have inside := slot_inside found
        simp only [List.length_cons] at inside
        obtain ⟨j,rfl⟩ : ∃ m, j = m + 2 := ⟨j - 2,by omega⟩
        simp only [slot,show j + 2 - 1 = j + 1 by omega,List.getElem?_cons_succ] at found ⊢
        simpa [List.getElem?_append_left (show j < init.length by omega)] using found
      apply less_false
      intro a b atK atParent
      have kept := ordered k big
      rwa [less_eq (same k a big atK) (same (k / 2) b (by omega) atParent)] at kept
    · intro big
      omega

/-- An order that agrees on the entries orders the heap too. -/
theorem ordered_congr {before' : α → α → Bool} {heap : List α} (same : ∀ a ∈ heap, ∀ b ∈ heap, before' a b = before a b)
    (ordered : Ordered before heap) : Ordered before' heap := by
  intro k big
  apply less_false
  intro a b atK atParent
  have kept := ordered k big
  rw [less_eq atK atParent] at kept
  rw [same a (mem_of_slot atK) b (mem_of_slot atParent),kept]

/-- Nothing in the heap comes before the root. -/
theorem root_least (weak : Weak before) {root : α} {tail : List α} (ordered : Ordered before (root :: tail)) :
    ∀ a ∈ root :: tail, before a root = false := by
  have all : ∀ k a, slot (root :: tail) k = some a → before a root = false := by
    intro k
    induction k using Nat.strongRecOn with
    | ind k ih =>
      intro a found
      have pos := slot_pos found
      by_cases one : k = 1
      · subst one
        simp [slot] at found
        subst found
        exact weak.irrefl _
      · have inside := slot_inside found
        have parentInside : k / 2 ≤ (root :: tail).length := by omega
        obtain ⟨b,atParent⟩ := slot_of_inside (by omega) parentInside
        have kept := ordered k (by omega)
        rw [less_eq found atParent] at kept
        exact weak.trans _ _ _ kept (ih (k / 2) (by omega) b atParent)
  intro a member
  obtain ⟨k,found⟩ := slot_of_mem member
  exact all k a found

theorem pop_least (weak : Weak before) {heap : List α} {root : α} {rest : List α}
    (popped : pop before heap = some (root,rest)) (ordered : Ordered before heap) :
    ∀ a ∈ heap, before a root = false := by
  obtain ⟨tail,rfl,_⟩ := pop_cases popped
  exact root_least weak ordered

/-- The entry a pop would take. -/
theorem pop_head {heap : List α} {root : α} {rest : List α} (popped : pop before heap = some (root,rest)) :
    heap.head? = some root := by
  obtain ⟨tail,rfl,_⟩ := pop_cases popped
  rfl

theorem pop_length {heap : List α} {root : α} {rest : List α} (popped : pop before heap = some (root,rest)) :
    heap.length = rest.length + 1 := by
  rw [(pop_perm popped).length_eq,List.length_cons]

end
end AnotherC.Lib.Heap
