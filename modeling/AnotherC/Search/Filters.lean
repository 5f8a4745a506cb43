import Mathlib.Data.List.DropRight
import AnotherC.Search.Phrase

/-!
# Filters by position and frequency: the filter cursor of `ac_s`

A filter cursor passes on the ids of another cursor whose positions pass all of its
filters (`filtered_meets`). The functions that attach a filter only wrap the cursors
of terms, and give back any other cursor as it is, one that filters as well: of
several filters the first alone takes effect (`first_filter`).
-/
namespace AnotherC.Filters
open AnotherC.Lib AnotherC.Lib.Cursor AnotherC.Phrase
set_option linter.unusedVariables false

/-! ## The filter functions -/

/-- The parameters in `filter_cursor_t`, which all filters of a cursor share. -/
structure Params where
  minPosition : Nat
  maxPosition : Nat
  position : Nat
  minFrequency : Nat
  maxFrequency : Nat
  frequency : Nat
deriving Repr, DecidableEq

/-- A `filter_cursor_cb`. -/
inductive FilterCb
  | minPosition
  | maxPosition
  | position
  | rangePosition
  | minFrequency
  | maxFrequency
  | frequency
  | rangeFrequency
deriving Repr, DecidableEq

/-! The list is what lies between `b->wp` and `b->ewp`. -/

def filterMinPosition (f : Params) (b : List Nat) : Bool := !(b.dropWhile (· < f.minPosition)).isEmpty

def filterMaxPosition (f : Params) (b : List Nat) : Bool := !(b.rdropWhile (· > f.maxPosition)).isEmpty

def filterPosition (f : Params) (b : List Nat) : Bool :=
  match b.dropWhile (· < f.position) with
  | [] => false
  | x :: _ => x == f.position

def filterRangePosition (f : Params) (b : List Nat) : Bool :=
  !((b.dropWhile (· < f.minPosition)).rdropWhile (· > f.maxPosition)).isEmpty

def filterMinFrequency (f : Params) (b : List Nat) : Bool := b.length ≥ f.minFrequency

def filterMaxFrequency (f : Params) (b : List Nat) : Bool := b.length ≤ f.maxFrequency

def filterFrequency (f : Params) (b : List Nat) : Bool := b.length == f.frequency

def filterRangeFrequency (f : Params) (b : List Nat) : Bool :=
  decide (b.length ≥ f.minFrequency) && decide (b.length ≤ f.maxFrequency)

def FilterCb.call : FilterCb → Params → List Nat → Bool
  | .minPosition => filterMinPosition
  | .maxPosition => filterMaxPosition
  | .position => filterPosition
  | .rangePosition => filterRangePosition
  | .minFrequency => filterMinFrequency
  | .maxFrequency => filterMaxFrequency
  | .frequency => filterFrequency
  | .rangeFrequency => filterRangeFrequency

/-! ## The filter cursor -/

section
variable {σ : Type}

/-- `filter_cursor_t`; `positions` is what lies between its own `wp` and `ewp`, `empty`
    whether `ac_s_empty_cursor` has replaced its callbacks. -/
structure FilterCursor (σ : Type) where
  c : σ
  params : Params
  filters : List FilterCb
  current : Nat
  positions : List Nat
  empty : Bool

/-- A cursor that a filter may be attached to: one with a type of its own, or a filter
    cursor, whose type is 2. -/
inductive AnyCursor (σ : Type)
  | plain (type : Nat) (c : σ)
  | filter (f : FilterCursor σ)

def AnyCursor.type : AnyCursor σ → Nat
  | .plain type _ => type
  | .filter _ => 2

variable (ops : Ops σ) (between : σ → List Nat)

/-- `filter_single_advance` and `filter_multi_advance`, which differ in the filters that
    they try. -/
def filterAdvance (test : FilterCursor σ → List Nat → Bool) : Nat → FilterCursor σ → Option (Nat × FilterCursor σ)
  | 0, _ => none
  | fuel + 1, f =>
    match ops.advance f.c with
    | none => none
    | some (id,c) =>
      if id = 0 then some (0,{ f with c := c, current := 0, empty := true })
      else if test f (between c) then
        some (ops.current c,{ f with c := c, current := ops.current c, positions := between c })
      else filterAdvance test fuel { f with c := c }

def filterAdvanceTo (test : FilterCursor σ → List Nat → Bool) (fuel : Nat) (f : FilterCursor σ) (id : Nat) :
    Option (Nat × FilterCursor σ) :=
  match ops.advanceTo f.c id with
  | none => none
  | some (id2,c) =>
    if id2 = 0 then some (0,{ f with c := c, current := 0, empty := true })
    else if test f (between c) then some (id2,{ f with c := c, current := id2, positions := between c })
    else filterAdvance ops between test fuel { f with c := c }

def singleTest (f : FilterCursor σ) (b : List Nat) : Bool :=
  match f.filters with
  | [] => false
  | cb :: _ => cb.call f.params b

def multiTest (f : FilterCursor σ) (b : List Nat) : Bool := f.filters.all fun cb => cb.call f.params b

def filterSingleAdvance (fuel : Nat) (f : FilterCursor σ) := filterAdvance ops between singleTest fuel f
def filterSingleAdvanceTo (fuel : Nat) (f : FilterCursor σ) (id : Nat) := filterAdvanceTo ops between singleTest fuel f id
def filterMultiAdvance (fuel : Nat) (f : FilterCursor σ) := filterAdvance ops between multiTest fuel f
def filterMultiAdvanceTo (fuel : Nat) (f : FilterCursor σ) (id : Nat) := filterAdvanceTo ops between multiTest fuel f id

/-- The callbacks that `filter_add` has set last, or `ac_s_empty_cursor` since. -/
def filterOps (fuel : Nat) : Ops (FilterCursor σ) where
  advance f :=
    if f.empty then some (0,f)
    else if f.filters.length = 1 then filterSingleAdvance ops between fuel f
    else filterMultiAdvance ops between fuel f
  advanceTo f id :=
    if f.empty then some (0,f)
    else if f.filters.length = 1 then filterSingleAdvanceTo ops between fuel f id
    else filterMultiAdvanceTo ops between fuel f id
  current := FilterCursor.current

def anyOps (fuel : Nat) : Ops (AnyCursor σ) where
  advance
    | .plain type c => (ops.advance c).map fun result => (result.1,.plain type result.2)
    | .filter f => ((filterOps ops between fuel).advance f).map fun result => (result.1,.filter result.2)
  advanceTo
    | .plain type c, id => (ops.advanceTo c id).map fun result => (result.1,.plain type result.2)
    | .filter f, id => ((filterOps ops between fuel).advanceTo f id).map fun result => (result.1,.filter result.2)
  current
    | .plain _ c => ops.current c
    | .filter f => f.current

def anyPositions : AnyCursor σ → List Nat
  | .plain _ c => between c
  | .filter f => f.positions

/-! ## Attaching a filter -/

def acSFilterCursor : AnyCursor σ → FilterCursor σ
  | .plain _ c => ⟨c,⟨0,0,0,0,0,0⟩,[],0,[],false⟩
  | .filter f => f

def filterAdd (f : FilterCursor σ) (cb : FilterCb) : FilterCursor σ := { f with filters := f.filters ++ [cb] }

/-- What the functions that follow have in common. -/
def attach (c : AnyCursor σ) (set : Params → Params) (cb : FilterCb) : AnyCursor σ :=
  if c.type ≠ 1 ∧ c.type ≠ 12 then c
  else
    let f := acSFilterCursor c
    .filter (filterAdd { f with params := set f.params } cb)

def acSFilterMinPosition (c : AnyCursor σ) (minPosition : UInt16) : AnyCursor σ :=
  attach c (fun f => { f with minPosition := minPosition.toNat }) .minPosition

def acSFilterMaxPosition (c : AnyCursor σ) (maxPosition : UInt16) : AnyCursor σ :=
  attach c (fun f => { f with maxPosition := maxPosition.toNat }) .maxPosition

def acSFilterPosition (c : AnyCursor σ) (position : UInt16) : AnyCursor σ :=
  attach c (fun f => { f with position := position.toNat }) .position

def acSFilterRangePosition (c : AnyCursor σ) (minPosition maxPosition : UInt16) : AnyCursor σ :=
  attach c (fun f => { f with minPosition := minPosition.toNat, maxPosition := maxPosition.toNat }) .rangePosition

def acSFilterMinFrequency (c : AnyCursor σ) (minFrequency : UInt32) : AnyCursor σ :=
  attach c (fun f => { f with minFrequency := minFrequency.toNat }) .minFrequency

def acSFilterMaxFrequency (c : AnyCursor σ) (maxFrequency : UInt32) : AnyCursor σ :=
  attach c (fun f => { f with maxFrequency := maxFrequency.toNat }) .maxFrequency

def acSFilterFrequency (c : AnyCursor σ) (frequency : UInt32) : AnyCursor σ :=
  attach c (fun f => { f with frequency := frequency.toNat }) .frequency

def acSFilterRangeFrequency (c : AnyCursor σ) (minFrequency maxFrequency : UInt32) : AnyCursor σ :=
  attach c (fun f => { f with minFrequency := minFrequency.toNat, maxFrequency := maxFrequency.toNat }) .rangeFrequency

/-! ## What a filter asks for -/

inductive Filter
  | minPosition (min : UInt16)
  | maxPosition (max : UInt16)
  | position (p : UInt16)
  | rangePosition (min max : UInt16)
  | minFrequency (min : UInt32)
  | maxFrequency (max : UInt32)
  | frequency (n : UInt32)
  | rangeFrequency (min max : UInt32)
deriving Repr, DecidableEq

/-- Some position in a range, or a number of positions in a range. -/
def Filter.Holds : Filter → List Nat → Prop
  | .minPosition min, l => ∃ x ∈ l, min.toNat ≤ x
  | .maxPosition max, l => ∃ x ∈ l, x ≤ max.toNat
  | .position p, l => p.toNat ∈ l
  | .rangePosition min max, l => ∃ x ∈ l, min.toNat ≤ x ∧ x ≤ max.toNat
  | .minFrequency min, l => min.toNat ≤ l.length
  | .maxFrequency max, l => l.length ≤ max.toNat
  | .frequency n, l => l.length = n.toNat
  | .rangeFrequency min max, l => min.toNat ≤ l.length ∧ l.length ≤ max.toNat

instance : (f : Filter) → (l : List Nat) → Decidable (f.Holds l)
  | .minPosition _, _ => inferInstanceAs (Decidable (∃ _, _ ∧ _))
  | .maxPosition _, _ => inferInstanceAs (Decidable (∃ _, _ ∧ _))
  | .position _, _ => inferInstanceAs (Decidable (_ ∈ _))
  | .rangePosition _ _, _ => inferInstanceAs (Decidable (∃ _, _ ∧ _))
  | .minFrequency _, _ => inferInstanceAs (Decidable (_ ≤ _))
  | .maxFrequency _, _ => inferInstanceAs (Decidable (_ ≤ _))
  | .frequency _, _ => inferInstanceAs (Decidable (_ = _))
  | .rangeFrequency _ _, _ => inferInstanceAs (Decidable (_ ∧ _))

def Filter.apply (c : AnyCursor σ) : Filter → AnyCursor σ
  | .minPosition min => acSFilterMinPosition c min
  | .maxPosition max => acSFilterMaxPosition c max
  | .position p => acSFilterPosition c p
  | .rangePosition min max => acSFilterRangePosition c min max
  | .minFrequency min => acSFilterMinFrequency c min
  | .maxFrequency max => acSFilterMaxFrequency c max
  | .frequency n => acSFilterFrequency c n
  | .rangeFrequency min max => acSFilterRangeFrequency c min max

variable {ops between}

variable {S : Finset Nat} {P : Nat → List Nat}

/-- The ids whose positions pass all filters. -/
def passing (params : Params) (filters : List FilterCb) (S : Finset Nat) (P : Nat → List Nat) : Finset Nat :=
  S.filter fun x => filters.all fun cb => cb.call params (P x)

/-- A filter cursor whose sub stands on `k`. -/
structure Over (ops : Ops σ) (between : σ → List Nat) (S : Finset Nat) (P : Nat → List Nat) (params : Params)
    (filters : List FilterCb) (f : FilterCursor σ) (k : Nat) : Prop where
  alive : f.empty = false
  same : f.params = params
  filters : f.filters = filters
  sub : MeetsWith ops between S P f.c (some k)

def FilterAt (ops : Ops σ) (between : σ → List Nat) (S : Finset Nat) (P : Nat → List Nat) (params : Params)
    (filters : List FilterCb) (f : FilterCursor σ) : Option Nat → Prop
  | none => f.empty = true
  | some k => Over ops between S P params filters f k ∧ f.current = k ∧
      (k ≠ 0 → k ∈ passing params filters S P ∧ f.positions = P k)

/-- Both tests ask whether the positions pass all filters. -/
def Tests (params : Params) (filters : List FilterCb) (test : FilterCursor σ → List Nat → Bool) : Prop :=
  ∀ f : FilterCursor σ, f.params = params → f.filters = filters → ∀ b,
    test f b = filters.all fun cb => cb.call params b

theorem multi_tests (params : Params) (filters : List FilterCb) : Tests (σ := σ) params filters multiTest := by
  rintro f rfl rfl b
  rfl

theorem single_tests (params : Params) {filters : List FilterCb} (one : filters.length = 1) :
    Tests (σ := σ) params filters singleTest := by
  rintro f rfl rfl b
  obtain ⟨cb,single⟩ := List.length_eq_one_iff.mp one
  rw [singleTest,single]
  simp

variable {params : Params} {filters : List FilterCb} {test : FilterCursor σ → List Nat → Bool} {f : FilterCursor σ}

theorem mem_passing {x : Nat} : x ∈ passing params filters S P ↔ x ∈ S ∧ (filters.all fun cb => cb.call params (P x)) = true :=
  Finset.mem_filter

theorem filterAdvance_spec {bound fuel k : Nat} (tests : Tests params filters test) (below : ∀ x ∈ S, x ≤ bound)
    (running : Over ops between S P params filters f k) (enough : bound + 1 - k + 1 ≤ fuel) :
    ∃ id f' p, filterAdvance ops between test fuel f = some (id,f') ∧ Finds (passing params filters S P) (k + 1) id p ∧
      FilterAt ops between S P params filters f' p := by
  induction fuel generalizing f k with
  | zero => omega
  | succ fuel ih =>
    obtain ⟨id,c,p,advanced,finds,sub⟩ := running.sub.advance
    rw [filterAdvance]
    simp only [advanced]
    rcases finds with ⟨rfl,rfl,none⟩ | ⟨member,beyond,rfl,least⟩
    · exact ⟨_,_,.none,rfl,.inl ⟨rfl,rfl,fun x inside => none x (mem_passing.mp inside).1⟩,rfl⟩
    · have positive : id ≠ 0 := by omega
      obtain ⟨current,shows⟩ := sub.shows positive
      have upTo := below id member
      rw [if_neg positive,tests f running.same running.filters,shows]
      by_cases passes : (filters.all fun cb => cb.call params (P id)) = true
      · rw [if_pos passes,current]
        have inside : id ∈ passing params filters S P := mem_passing.mpr ⟨member,passes⟩
        refine ⟨id,_,some id,rfl,.inr ⟨inside,beyond,rfl,fun x inside from_ => least x (mem_passing.mp inside).1 from_⟩,
          ⟨running.alive,running.same,running.filters,sub⟩,rfl,fun _ => ⟨inside,rfl⟩⟩
      · rw [if_neg passes]
        have running' : Over ops between S P params filters { f with c := c } id := ⟨running.alive,running.same,running.filters,sub⟩
        obtain ⟨id',f',p,returned,finds,at'⟩ := ih running' (by omega)
        refine ⟨id',f',p,returned,finds.widen (by omega) fun x inside from_ => ?_,at'⟩
        obtain ⟨inS,passesToo⟩ := mem_passing.mp inside
        have := least x inS from_
        have other : x ≠ id := by
          rintro rfl
          exact passes passesToo
        omega

/-- What a seek of the sub leads to. -/
theorem filterAdvanceTo_spec {bound fuel k id : Nat} (tests : Tests params filters test) (below : ∀ x ∈ S, x ≤ bound)
    (running : Over ops between S P params filters f k) (enough : bound + 2 ≤ fuel) (beyond : k < id) :
    ∃ id' f' p, filterAdvanceTo ops between test fuel f id = some (id',f') ∧
      Finds (passing params filters S P) id id' p ∧ FilterAt ops between S P params filters f' p := by
  obtain ⟨id2,c,p,sought,finds,sub⟩ := running.sub.advanceTo beyond
  rw [filterAdvanceTo]
  simp only [sought]
  rcases finds with ⟨rfl,rfl,none⟩ | ⟨member,further,rfl,least⟩
  · exact ⟨_,_,.none,rfl,.inl ⟨rfl,rfl,fun x inside => none x (mem_passing.mp inside).1⟩,rfl⟩
  · have positive : id2 ≠ 0 := by omega
    rw [if_neg positive,tests f running.same running.filters,(sub.shows positive).2]
    by_cases passes : (filters.all fun cb => cb.call params (P id2)) = true
    · rw [if_pos passes]
      have inside : id2 ∈ passing params filters S P := mem_passing.mpr ⟨member,passes⟩
      refine ⟨id2,_,some id2,rfl,.inr ⟨inside,further,rfl,fun x inside from_ => least x (mem_passing.mp inside).1 from_⟩,
        ⟨running.alive,running.same,running.filters,sub⟩,rfl,fun _ => ⟨inside,rfl⟩⟩
    · rw [if_neg passes]
      have running' : Over ops between S P params filters { f with c := c } id2 := ⟨running.alive,running.same,running.filters,sub⟩
      obtain ⟨id',f',p,returned,finds,at'⟩ := filterAdvance_spec tests below running' (show bound + 1 - id2 + 1 ≤ fuel by omega)
      refine ⟨id',f',p,returned,finds.widen (by omega) fun x inside from_ => ?_,at'⟩
      obtain ⟨inS,passesToo⟩ := mem_passing.mp inside
      have := least x inS from_
      have other : x ≠ id2 := by
        rintro rfl
        exact passes passesToo
      omega

/-- A seek to an id that has been reached. -/
theorem filterAdvanceTo_stay (fuel : Nat) {k id : Nat} (tests : Tests params filters test)
    (at' : FilterAt ops between S P params filters f (some k)) (positive : k ≠ 0) (reached : id ≤ k) :
    ∃ f', filterAdvanceTo ops between test fuel f id = some (k,f') ∧ FilterAt ops between S P params filters f' (some k) := by
  obtain ⟨running,current,stands⟩ := at'
  obtain ⟨inside,shown⟩ := stands positive
  obtain ⟨c,sought,sub⟩ := running.sub.stay positive reached
  have shows := (sub.shows positive).2
  refine ⟨{ f with c := c, current := k, positions := between c },?_,⟨running.alive,running.same,running.filters,sub⟩,rfl,
    fun _ => ⟨inside,shows⟩⟩
  rw [filterAdvanceTo]
  simp only [sought]
  rw [if_neg positive,tests f running.same running.filters,shows,if_pos (mem_passing.mp inside).2]

variable (ops between) in
/-- The callbacks of a filter cursor use one of the two tests. -/
theorem filterOps_test (params : Params) (filters : List FilterCb) : ∃ test : FilterCursor σ → List Nat → Bool,
    Tests params filters test ∧ ∀ fuel f, f.empty = false → f.filters = filters →
      (filterOps ops between fuel).advance f = filterAdvance ops between test fuel f ∧
      ∀ id, (filterOps ops between fuel).advanceTo f id = filterAdvanceTo ops between test fuel f id := by
  by_cases one : filters.length = 1
  · refine ⟨singleTest,single_tests params one,fun fuel f alive same => ?_⟩
    simp only [filterOps,alive,Bool.false_eq_true,if_false,same,one,if_true]
    exact ⟨rfl,fun id => rfl⟩
  · refine ⟨multiTest,multi_tests params filters,fun fuel f alive same => ?_⟩
    simp only [filterOps,alive,Bool.false_eq_true,if_false,same,one]
    exact ⟨rfl,fun id => rfl⟩

/-- A filter cursor is a cursor of the ids whose positions pass its filters, and shows
    their positions. -/
theorem filtered_meets {c : σ} (params : Params) (filters : List FilterCb) (sub : MeetsWith ops between S P c (some 0)) :
    ∃ enough, ∀ fuel, enough ≤ fuel →
      MeetsWith (filterOps ops between fuel) FilterCursor.positions (passing params filters S P) P
        ⟨c,params,filters,0,[],false⟩ (some 0) := by
  obtain ⟨test,tests,uses⟩ := filterOps_test ops between params filters
  have below : ∀ x ∈ S, x ≤ S.sup id := fun x inside => Finset.le_sup (f := id) inside
  refine ⟨S.sup id + 2,fun fuel enough => ?_⟩
  refine meetsWith_of (R := FilterAt ops between S P params filters) ?_ ?_
    ⟨⟨rfl,rfl,rfl,sub⟩,rfl,fun zero => absurd rfl zero⟩
  · rintro f id ⟨_,current,stands⟩ positive
    exact ⟨current,(stands positive).2⟩
  · rintro f (_ | k) call proper at'
    · have empty : f.empty = true := at'
      refine ⟨f,?_,empty⟩
      cases call <;> exact if_pos empty
    · have running := at'.1
      obtain ⟨advances,seeks⟩ := uses fuel f running.alive running.filters
      cases call with
      | advance =>
        obtain ⟨id,f',p,returned,finds,at''⟩ := filterAdvance_spec tests below running (show S.sup id + 1 - k + 1 ≤ fuel by omega)
        have spec := finds.found (Nat.succ_pos k)
        refine ⟨f',?_,?_⟩
        · rw [Ops.call,advances,returned,answer,spec]
        · rw [answer,spec]
          exact at''
      | advanceTo id =>
        by_cases reached : id ≤ k
        · have both := AnotherC.Cursor.stands proper reached
          obtain ⟨f',returned,at''⟩ := filterAdvanceTo_stay fuel tests at' both.1 reached
          refine ⟨f',?_,?_⟩
          · rw [Ops.call,seeks,returned,answer,if_pos both]
          · rw [answer,if_pos both]
            exact at''
        · have both : ¬ (k ≠ 0 ∧ id ≤ k) := fun both => reached both.2
          obtain ⟨id',f',p,returned,finds,at''⟩ := filterAdvanceTo_spec tests below running enough (Nat.not_le.mp reached)
          have spec := finds.found (by omega)
          refine ⟨f',?_,?_⟩
          · rw [Ops.call,seeks,returned,answer,if_neg both,spec]
          · rw [answer,if_neg both,spec]
            exact at''

/-! ## The filters of the functions -/

def Filter.cb : Filter → FilterCb
  | .minPosition _ => .minPosition
  | .maxPosition _ => .maxPosition
  | .position _ => .position
  | .rangePosition _ _ => .rangePosition
  | .minFrequency _ => .minFrequency
  | .maxFrequency _ => .maxFrequency
  | .frequency _ => .frequency
  | .rangeFrequency _ _ => .rangeFrequency

def Filter.set (params : Params) : Filter → Params
  | .minPosition min => { params with minPosition := min.toNat }
  | .maxPosition max => { params with maxPosition := max.toNat }
  | .position p => { params with position := p.toNat }
  | .rangePosition min max => { params with minPosition := min.toNat, maxPosition := max.toNat }
  | .minFrequency min => { params with minFrequency := min.toNat }
  | .maxFrequency max => { params with maxFrequency := max.toNat }
  | .frequency n => { params with frequency := n.toNat }
  | .rangeFrequency min max => { params with minFrequency := min.toNat, maxFrequency := max.toNat }

theorem apply_attach (c : AnyCursor σ) (f : Filter) : f.apply c = attach c (fun params => f.set params) f.cb := by
  cases f <;> rfl

theorem dropWhile_some {p : Nat → Bool} {l : List Nat} : (!(l.dropWhile p).isEmpty) = true ↔ ∃ x ∈ l, p x = false := by
  rw [Bool.not_eq_true',List.isEmpty_eq_false_iff,ne_eq,List.dropWhile_eq_nil_iff]
  simp

theorem rdropWhile_some {p : Nat → Bool} {l : List Nat} : (!(l.rdropWhile p).isEmpty) = true ↔ ∃ x ∈ l, p x = false := by
  rw [Bool.not_eq_true',List.isEmpty_eq_false_iff,ne_eq,List.rdropWhile_eq_nil_iff]
  simp

/-- What is left of an ascending list from a limit on. -/
theorem mem_skip {limit x : Nat} {l : List Nat} (positions : Positions l) : x ∈ skip limit l ↔ x ∈ l ∧ limit ≤ x := by
  have left := positions.suffix (skip_suffix limit l)
  constructor
  · intro member
    refine ⟨(skip_suffix limit l).subset member,?_⟩
    cases stops : skip limit l with
    | nil =>
      rw [stops] at member
      cases member
    | cons first later =>
      rw [stops] at member left
      exact Nat.le_trans (skip_head stops) (left.first x member)
  · rintro ⟨member,beyond⟩
    by_contra gone
    have := skip_dropped member gone
    omega

theorem filterMinPosition_iff (f : Params) (l : List Nat) : filterMinPosition f l = true ↔ ∃ x ∈ l, f.minPosition ≤ x := by
  rw [filterMinPosition,dropWhile_some]
  simp

theorem filterMaxPosition_iff (f : Params) (l : List Nat) : filterMaxPosition f l = true ↔ ∃ x ∈ l, x ≤ f.maxPosition := by
  rw [filterMaxPosition,rdropWhile_some]
  simp

theorem filterPosition_iff (f : Params) {l : List Nat} (positions : Positions l) :
    filterPosition f l = true ↔ f.position ∈ l := by
  have kept : f.position ∈ skip f.position l ↔ f.position ∈ l ∧ f.position ≤ f.position := mem_skip positions
  rw [filterPosition,show l.dropWhile (fun x => decide (x < f.position)) = skip f.position l from rfl]
  cases stops : skip f.position l with
  | nil =>
    rw [stops] at kept
    simp at kept
    simp [kept]
  | cons first later =>
    have left := positions.suffix (skip_suffix f.position l)
    rw [stops] at kept left
    have atLeast := skip_head stops
    rw [beq_iff_eq]
    constructor
    · rintro rfl
      exact (skip_suffix _ l).subset (by rw [stops]; exact List.mem_cons_self)
    · intro member
      have := left.first _ (kept.mpr ⟨member,Nat.le_refl _⟩)
      omega

theorem filterRangePosition_iff (f : Params) {l : List Nat} (positions : Positions l) :
    filterRangePosition f l = true ↔ ∃ x ∈ l, f.minPosition ≤ x ∧ x ≤ f.maxPosition := by
  rw [filterRangePosition,rdropWhile_some]
  constructor
  · rintro ⟨x,member,upTo⟩
    obtain ⟨inside,beyond⟩ := (mem_skip positions).mp member
    exact ⟨x,inside,beyond,by simpa using upTo⟩
  · rintro ⟨x,inside,beyond,upTo⟩
    exact ⟨x,(mem_skip positions).mpr ⟨inside,beyond⟩,by simpa using upTo⟩

/-- The filter functions test what the filter asks for. -/
theorem call_iff (f : Filter) (params : Params) {l : List Nat} (positions : Positions l) :
    f.cb.call (f.set params) l = true ↔ f.Holds l := by
  cases f with
  | minPosition min => exact filterMinPosition_iff _ l
  | maxPosition max => exact filterMaxPosition_iff _ l
  | position p => exact filterPosition_iff _ positions
  | rangePosition min max => exact filterRangePosition_iff _ positions
  | minFrequency min => exact decide_eq_true_iff
  | maxFrequency max => exact decide_eq_true_iff
  | frequency n => exact beq_iff_eq
  | rangeFrequency min max =>
    refine (Bool.and_eq_true _ _).to_iff.trans ?_
    exact and_congr decide_eq_true_iff decide_eq_true_iff

/-- Only the first filter is attached. -/
theorem apply_all {type : Nat} (isTerm : type = 1 ∨ type = 12) (c : σ) (f : Filter) (fs : List Filter) :
    (f :: fs).foldl Filter.apply (.plain type c) = .filter ⟨c,f.set ⟨0,0,0,0,0,0⟩,[f.cb],0,[],false⟩ := by
  have first : f.apply (.plain type c) = .filter ⟨c,f.set ⟨0,0,0,0,0,0⟩,[f.cb],0,[],false⟩ := by
    have isType : ¬ ((AnyCursor.plain type c).type ≠ 1 ∧ (AnyCursor.plain type c).type ≠ 12) := by
      simp only [AnyCursor.type]
      omega
    rw [apply_attach,attach,if_neg isType]
    rfl
  have others : ∀ g : FilterCursor σ, fs.foldl Filter.apply (.filter g) = .filter g := by
    intro g
    induction fs with
    | nil => rfl
    | cons h fs ih =>
      rw [List.foldl_cons,apply_attach,attach,if_pos (by simp [AnyCursor.type])]
      exact ih
  rw [List.foldl_cons,first,others]

/-- What a sequence of filters does: the first is applied. -/
theorem first_filter {type : Nat} (isTerm : type = 1 ∨ type = 12) {c : σ} (sub : MeetsWith ops between S P c (some 0))
    (positions : ∀ x ∈ S, Positions (P x)) (f : Filter) (fs : List Filter) :
    ∃ enough, ∀ fuel, enough ≤ fuel →
      MeetsWith (anyOps ops between fuel) (anyPositions between) (S.filter fun x => f.Holds (P x)) P
        ((f :: fs).foldl Filter.apply (.plain type c)) (some 0) := by
  obtain ⟨enough,meets⟩ := filtered_meets (f.set ⟨0,0,0,0,0,0⟩) [f.cb] sub
  have same : passing (f.set ⟨0,0,0,0,0,0⟩) [f.cb] S P = S.filter fun x => f.Holds (P x) := by
    refine Finset.filter_congr fun x inside => ?_
    simp [call_iff f _ (positions x inside)]
  refine ⟨enough,fun fuel more => ?_⟩
  rw [apply_all isTerm]
  have lifted := meets fuel more
  rw [same] at lifted
  refine lifted.lift AnyCursor.filter (fun g call => ?_) (fun g => rfl) (fun g => rfl)
  cases call <;> rfl

/-- The ids of a term whose positions satisfy all of some filters. -/
def satisfying (S : Finset Nat) (P : Nat → List Nat) (fs : List Filter) : Finset Nat :=
  S.filter fun x => ∀ f ∈ fs, f.Holds (P x)

end

end AnotherC.Filters
