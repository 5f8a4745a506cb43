import AnotherC.Lib.Cursor
import AnotherC.Lib.Rows

/-!
# Cursors that combine cursors: `ac_cursor`

The AND cursor of cursors of some sets is a cursor of the ids in all of them
(`and_meets`), and the NOT cursor of two is a cursor of the ids of the first that
are not in the second (`not_meets`).
-/
namespace AnotherC.Cursor
open AnotherC.Lib.Cursor AnotherC.Lib.Rows
set_option linter.unusedVariables false

section
variable {σ : Type}

/-! ## AND -/

/-- `and_cursor_t`; `empty` when `ac_cursor_empty` has replaced its callbacks. -/
structure AndCursor (σ : Type) where
  cursors : List σ
  current : Nat
  empty : Bool

/-- `ac_cursor_init_and` and an `and_add` for each sub. -/
def acCursorInitAnd (subs : List σ) : AndCursor σ := ⟨subs,0,false⟩

/-- The loop of `advance_and` and `advance_and_to`; `none` when it has not ended after
    `fuel` rounds. -/
def andLoop (ops : Ops σ) : Nat → List σ → Nat → Nat → Option (Nat × List σ)
  | 0, _, _, _ => none
  | fuel + 1, cursors, id, i =>
    if id ≠ 0 ∧ i < cursors.length then
      match cursors[i]? with
      | none => none
      | some c =>
        match ops.advanceTo c id with
        | none => none
        | some (id2,c') =>
          if id = id2 then andLoop ops fuel (cursors.set i c') id (i + 1)
          else andLoop ops fuel (cursors.set i c') id2 0
    else some (id,cursors)

/-- What both do after the loop. -/
def andResult (c : AndCursor σ) : Nat × List σ → Nat × AndCursor σ
  | (id,cursors) => if id = 0 then (0,⟨cursors,0,true⟩) else (id,{ c with cursors := cursors, current := id })

def advanceAnd (ops : Ops σ) (fuel : Nat) (c : AndCursor σ) : Option (Nat × AndCursor σ) :=
  match c.cursors with
  | [] => none
  | first :: rest =>
    match ops.advance first with
    | none => none
    | some (id,first') => (andLoop ops fuel (first' :: rest) id 1).map (andResult c)

def advanceAndTo (ops : Ops σ) (fuel : Nat) (c : AndCursor σ) (id : Nat) : Option (Nat × AndCursor σ) :=
  if id ≤ c.current then some (c.current,c) else (andLoop ops fuel c.cursors id 0).map (andResult c)

/-- The AND cursor as an object with callbacks. -/
def andOps (ops : Ops σ) (fuel : Nat) : Ops (AndCursor σ) where
  advance c := if c.empty then some (0,c) else advanceAnd ops fuel c
  advanceTo c id := if c.empty then some (0,c) else advanceAndTo ops fuel c id
  current := AndCursor.current

/-- The ids in all of the sets. -/
def inter : List (Finset Nat) → Finset Nat
  | [] => ∅
  | S :: sets => S.filter fun x => ∀ T ∈ sets, x ∈ T

theorem mem_inter {sets : List (Finset Nat)} (some : sets ≠ []) (x : Nat) : x ∈ inter sets ↔ ∀ S ∈ sets, x ∈ S := by
  cases sets with
  | nil => exact absurd rfl some
  | cons S sets => simp [inter]

variable {ops : Ops σ} {S : Finset Nat} {c : σ} {id : Nat}

/-- A sub that has not gone past `id`. -/
def Behind (ops : Ops σ) (id : Nat) (c : σ) (S : Finset Nat) : Prop :=
  ∃ k ≤ id, Meets ops S c (some k) ∧ (k ≠ 0 → k ∈ S)

theorem Behind.mono {id' : Nat} (behind : Behind ops id c S) (le : id ≤ id') : Behind ops id' c S := by
  obtain ⟨k,less,meets,inside⟩ := behind
  exact ⟨k,Nat.le_trans less le,meets,inside⟩

/-- Where a sub that is asked for `id` ends up. -/
theorem Behind.visit (behind : Behind ops id c S) (positive : id ≠ 0) :
    ∃ id2 c' p, ops.advanceTo c id = some (id2,c') ∧ Finds S id id2 p ∧ Meets ops S c' p := by
  obtain ⟨k,less,meets,inside⟩ := behind
  rcases Nat.lt_or_eq_of_le less with before | rfl
  · exact meets.advanceTo before
  · obtain ⟨c',returned,meets'⟩ := meets.stay positive (Nat.le_refl k)
    exact ⟨k,c',some k,returned,.inr ⟨inside positive,Nat.le_refl k,rfl,fun x member from_ => from_⟩,meets'⟩

theorem behind_at (meets : Meets ops S c (some id)) (inside : id ∈ S) : Behind ops id c S :=
  ⟨id,Nat.le_refl id,meets,fun _ => inside⟩

/-- What the loop keeps: no sub is past `id`, the first `i` stand on it, and it has
    skipped no common id from `low` on. -/
structure Search (ops : Ops σ) (sets : List (Finset Nat)) (low : Nat) (cursors : List σ) (id i : Nat) : Prop where
  behind : List.Forall₂ (Behind ops id) cursors sets
  matched : ∀ j < i, ∀ (c : σ) S, cursors[j]? = some c → sets[j]? = some S → Meets ops S c (some id) ∧ id ∈ S
  started : low ≤ id
  skipped : ∀ x, (∀ S ∈ sets, x ∈ S) → low ≤ x → id ≤ x

variable {sets : List (Finset Nat)} {cursors : List σ} {low i : Nat}

theorem Search.match_ {S : Finset Nat} {c' : σ} (search : Search ops sets low cursors id i) (at' : sets[i]? = some S)
    (meets : Meets ops S c' (some id)) (inside : id ∈ S) : Search ops sets low (cursors.set i c') id (i + 1) := by
  refine ⟨forall₂_set search.behind at' (behind_at meets inside),?_,search.started,search.skipped⟩
  intro j less c T held held'
  by_cases same : j = i
  · subst same
    rw [List.getElem?_set_self'] at held
    rw [at'] at held'
    cases held'
    cases found : cursors[j]? with
    | none => simp [found] at held
    | some c₀ =>
      simp only [found,Option.map_eq_map,Option.map_some,Function.const_apply,Option.some.injEq] at held
      subst held
      exact ⟨meets,inside⟩
  · rw [List.getElem?_set_ne (Ne.symm same)] at held
    exact search.matched j (by omega) c T held held'

theorem Search.restart {S : Finset Nat} {id2 : Nat} {c' : σ} (search : Search ops sets low cursors id i)
    (at' : sets[i]? = some S) (meets : Meets ops S c' (some id2)) (inside : id2 ∈ S) (beyond : id ≤ id2)
    (first : ∀ x ∈ S, id ≤ x → id2 ≤ x) : Search ops sets low (cursors.set i c') id2 0 := by
  refine ⟨?_,fun j less => absurd less (Nat.not_lt_zero j),Nat.le_trans search.started beyond,fun x all from_ => ?_⟩
  · exact forall₂_set (search.behind.imp fun c S behind => behind.mono beyond) at' (behind_at meets inside)
  · exact first x (all S (List.mem_of_getElem? at')) (search.skipped x all from_)

/-- The rounds that the loop may still take when no id is above `bound`. -/
def rounds (bound n id i : Nat) : Nat := (bound + 1 - id) * (n + 1) + (n - i) + 2

theorem rounds_match (bound id : Nat) {n i : Nat} (inside : i < n) : rounds bound n id (i + 1) + 1 = rounds bound n id i := by
  rw [rounds,rounds]
  omega

theorem rounds_restart {bound n id id2 i : Nat} (inside : i < n) (more : id < id2) (below : id2 ≤ bound) :
    rounds bound n id2 0 + 1 ≤ rounds bound n id i := by
  have fewer : bound + 1 - id2 + 1 ≤ bound + 1 - id := by omega
  have product := Nat.mul_le_mul_right (n + 1) fewer
  rw [Nat.add_mul] at product
  rw [rounds,rounds]
  omega

theorem andLoop_spec {bound : Nat} (bounded : ∀ S ∈ sets, ∀ x ∈ S, x ≤ bound) (some_ : sets ≠ []) {fuel : Nat}
    (positive : id ≠ 0) (search : Search ops sets low cursors id i) (inside : i ≤ cursors.length)
    (enough : rounds bound cursors.length id i ≤ fuel) :
    ∃ id' cursors' p, andLoop ops fuel cursors id i = some (id',cursors') ∧ Finds (inter sets) low id' p ∧
      (p ≠ none → List.Forall₂ (fun c S => Meets ops S c p) cursors' sets) := by
  induction fuel generalizing cursors id i with
  | zero => simp [rounds] at enough
  | succ fuel ih =>
    rw [andLoop]
    by_cases more : i < cursors.length
    · rw [if_pos ⟨positive,more⟩]
      obtain ⟨c,S,found,found',behind⟩ := forall₂_inside search.behind more
      obtain ⟨id2,c',p,returned,finds,meets⟩ := behind.visit positive
      have member := List.mem_of_getElem? found'
      simp only [found,returned]
      rcases finds with ⟨rfl,rfl,none⟩ | ⟨held,beyond,rfl,first⟩
      · -- the sub has run out, and with it the search
        rw [if_neg positive]
        have : 2 ≤ rounds bound cursors.length id i := by
          rw [rounds]
          omega
        cases fuel with
        | zero => omega
        | succ fuel =>
          refine ⟨0,_,.none,by rw [andLoop,if_neg (by simp)],.inl ⟨rfl,rfl,fun x inside => ?_⟩,by simp⟩
          have all := (mem_inter some_ x).mp inside
          by_contra from_
          have below := none x (all S member)
          exact absurd (search.skipped x all (by omega)) (by omega)
      · by_cases same : id = id2
        · subst same
          rw [if_pos rfl]
          have fewer := rounds_match bound id more
          have length : (cursors.set i c').length = cursors.length := List.length_set
          refine ih positive (search.match_ found' meets held) ?_ ?_
          · rw [length]
            omega
          · rw [length]
            omega
        · rw [if_neg same]
          have fewer := rounds_restart more (Nat.lt_of_le_of_ne beyond same) (bounded S member id2 held)
          have length : (cursors.set i c').length = cursors.length := List.length_set
          refine ih (by omega) (search.restart found' meets held beyond first) (Nat.zero_le _) ?_
          rw [length]
          omega
    · rw [if_neg (fun both => more both.2)]
      have all : ∀ (k : Nat) c S, cursors[k]? = some c → sets[k]? = some S → Meets ops S c (some id) ∧ id ∈ S := by
        intro k c S held held'
        have less := (List.getElem?_eq_some_iff.mp held).1
        exact search.matched k (by omega) c S held held'
      have places := forall₂_places search.behind.length_eq all
      refine ⟨id,cursors,some id,rfl,.inr ⟨?_,search.started,rfl,fun x inside from_ => ?_⟩,fun _ => places.imp fun c S both => both.1⟩
      · rw [mem_inter some_]
        intro S member
        obtain ⟨k,held'⟩ := List.mem_iff_getElem?.mp member
        rcases forall₂_getElem? places k with ⟨_,none⟩ | ⟨c,T,held,held'',both⟩
        · rw [none] at held'
          cases held'
        · rw [held''] at held'
          cases held'
          exact both.2
      · exact search.skipped x ((mem_inter some_ x).mp inside) from_

/-- A cursor that has reached the target stands on an id. -/
theorem stands {k id : Nat} (proper : Proper (some k) (.advanceTo id)) (reached : id ≤ k) : k ≠ 0 ∧ id ≤ k := by
  refine ⟨?_,reached⟩
  rintro rfl
  exact proper rfl (congrArg Call.advanceTo (Nat.le_zero.mp reached))

theorem bounded (sets : List (Finset Nat)) : ∃ bound, ∀ S ∈ sets, ∀ x ∈ S, x ≤ bound := by
  induction sets with
  | nil => exact ⟨0,by simp⟩
  | cons S sets ih =>
    obtain ⟨bound,below⟩ := ih
    refine ⟨max (S.sup id) bound,fun T member x inside => ?_⟩
    rcases List.mem_cons.mp member with rfl | rest
    · exact Nat.le_trans (Finset.le_sup (f := id) inside) (Nat.le_max_left _ _)
    · exact Nat.le_trans (below T rest x inside) (Nat.le_max_right _ _)

/-- An AND cursor at a position: all of its subs are there. -/
def AndAt (ops : Ops σ) (sets : List (Finset Nat)) (c : AndCursor σ) : Option Nat → Prop
  | none => c.empty = true
  | some k => c.empty = false ∧ c.current = k ∧ List.Forall₂ (fun c S => Meets ops S c (some k)) c.cursors sets ∧
      (k ≠ 0 → ∀ S ∈ sets, k ∈ S)

theorem andResult_at {c : AndCursor σ} {p : Option Nat} (some_ : sets ≠ []) (alive : c.empty = false) (positive : 0 < low)
    (finds : Finds (inter sets) low id p) (places : p ≠ none → List.Forall₂ (fun c S => Meets ops S c p) cursors sets) :
    ∃ c', andResult c (id,cursors) = (id,c') ∧ AndAt ops sets c' p := by
  rcases finds with ⟨rfl,rfl,none⟩ | ⟨inside,beyond,rfl,first⟩
  · exact ⟨_,rfl,rfl⟩
  · refine ⟨{ c with cursors := cursors, current := id },if_neg (by omega),alive,rfl,places (by simp),fun _ => ?_⟩
    exact (mem_inter some_ id).mp inside

/-- What a call does to an AND cursor at a position. -/
theorem AndAt.call {bound fuel : Nat} (below : ∀ S ∈ sets, ∀ x ∈ S, x ≤ bound) (some' : sets ≠ [])
    (enough : (bound + 1) * (sets.length + 1) + sets.length + 2 ≤ fuel) {c : AndCursor σ} {p : Option Nat} (call : Call)
    (proper : Proper p call) (at' : AndAt ops sets c p) :
    ∃ c', (andOps ops fuel).call c call = some ((answer (inter sets) p call).1,c') ∧
      AndAt ops sets c' (answer (inter sets) p call).2 := by
  have fuel_ : ∀ id i, rounds bound sets.length id i ≤ fuel := by
    intro id i
    have less : bound + 1 - id ≤ bound + 1 := Nat.sub_le _ _
    have product := Nat.mul_le_mul_right (sets.length + 1) less
    rw [rounds]
    omega
  rcases p with _ | k
  · have empty : c.empty = true := at'
    refine ⟨c,?_,empty⟩
    cases call <;> exact if_pos empty
  · obtain ⟨alive,current,places,inside⟩ := at'
    have alive' : ¬ c.empty = true := by simp [alive]
    have behind : ∀ id, k ≤ id → List.Forall₂ (Behind ops id) c.cursors sets := by
      intro id less
      refine forall₂_right places (fun S member => member) fun c S meets member => ⟨k,less,meets,fun positive => ?_⟩
      exact inside positive S member
    have length := places.length_eq
    cases call with
    | advance =>
      obtain ⟨first,rest,shape⟩ := List.exists_cons_of_length_pos (by rw [length]; exact List.length_pos_of_ne_nil some')
      obtain ⟨id,first',p,cursors',p',returned,loop,finds,places'⟩ : ∃ id first' p cursors' p',
          ops.advance first = some (id,first') ∧ andLoop ops fuel (first' :: rest) id 1 = some (p,cursors') ∧
            Finds (inter sets) (k + 1) p p' ∧
            (p' ≠ none → List.Forall₂ (fun c S => Meets ops S c p') cursors' sets) := by
        rw [shape] at places behind
        rcases List.forall₂_cons_left_iff.mp places with ⟨S,sets',head,tail,rfl⟩
        obtain ⟨id,first',p,returned,finds,meets⟩ := head.advance
        rcases finds with ⟨rfl,rfl,none⟩ | ⟨held,beyond,rfl,least⟩
        · obtain ⟨fuel,rfl⟩ : ∃ fuel', fuel = fuel' + 1 := ⟨fuel - 1,by omega⟩
          refine ⟨0,first',0,first' :: rest,.none,returned,by rw [andLoop,if_neg (by simp)],.inl ⟨rfl,rfl,?_⟩,by simp⟩
          intro x common
          exact none x ((mem_inter some' x).mp common S (by simp))
        · have search : Search ops (S :: sets') (k + 1) (first' :: rest) id 1 := by
            refine ⟨?_,?_,beyond,fun x all from_ => least x (all S (by simp)) from_⟩
            · exact .cons (behind_at meets held) (List.forall₂_cons.mp (behind id (by omega))).2
            · intro j less c T at' at''
              obtain rfl : j = 0 := by omega
              cases at'
              cases at''
              exact ⟨meets,held⟩
          have length' : (first' :: rest).length = (S :: sets').length := search.behind.length_eq
          obtain ⟨id',cursors',p,loop,finds,places'⟩ :=
            andLoop_spec below some' (by omega) search (by simp) (length' ▸ fuel_ id 1)
          exact ⟨id,first',id',cursors',p,returned,loop,finds,places'⟩
      obtain ⟨c',result,at'⟩ := andResult_at some' alive (Nat.succ_pos k) finds places'
      have spec := finds.found (Nat.succ_pos k)
      refine ⟨c',?_,?_⟩
      · rw [Ops.call,andOps,answer,spec]
        simp only [if_neg alive',advanceAnd,shape,returned,loop,Option.map_some,result]
      · rw [answer,spec]
        exact at'
    | advanceTo id =>
      by_cases reached : id ≤ k
      · have both := stands proper reached
        refine ⟨c,?_,?_⟩
        · rw [Ops.call,andOps,answer,if_pos both]
          simp only [if_neg alive',advanceAndTo,current,if_pos reached]
        · rw [answer,if_pos both]
          exact ⟨alive,current,places,inside⟩
      · have search : Search ops sets id c.cursors id 0 := by
          refine ⟨behind id (by omega),fun j less => absurd less (Nat.not_lt_zero j),Nat.le_refl id,fun x _ from_ => from_⟩
        obtain ⟨id',cursors',p,loop,finds,places'⟩ :=
          andLoop_spec below some' (by omega) search (Nat.zero_le _) (length ▸ fuel_ id 0)
        obtain ⟨c',result,at'⟩ := andResult_at some' alive (by omega) finds places'
        have spec := finds.found (by omega)
        have both : ¬ (k ≠ 0 ∧ id ≤ k) := fun both => reached both.2
        refine ⟨c',?_,?_⟩
        · rw [Ops.call,andOps,answer,if_neg both,spec]
          simp only [if_neg alive',advanceAndTo,current,if_neg reached,loop,Option.map_some,result]
        · rw [answer,if_neg both,spec]
          exact at'

/-- The AND cursor is a cursor of the intersection. -/
theorem and_meets (some_ : cursors ≠ []) (subs : List.Forall₂ (fun c S => Meets ops S c (some 0)) cursors sets) :
    ∃ enough, ∀ fuel, enough ≤ fuel → Meets (andOps ops fuel) (inter sets) (acCursorInitAnd cursors) (some 0) := by
  obtain ⟨bound,below⟩ := bounded sets
  have lengths := subs.length_eq
  have some' : sets ≠ [] := by
    rintro rfl
    exact some_ (List.length_eq_zero_iff.mp lengths)
  refine ⟨(bound + 1) * (sets.length + 1) + sets.length + 2,fun fuel enough => ?_⟩
  exact meets_of (R := AndAt ops sets) (fun c k at' _ => at'.2.1) (fun c p call proper at' => at'.call below some' enough call proper)
    ⟨rfl,rfl,subs,fun zero => absurd rfl zero⟩

theorem and_answers (some_ : cursors ≠ []) (subs : List.Forall₂ (fun c S => Meets ops S c (some 0)) cursors sets) :
    ∃ enough, ∀ fuel, enough ≤ fuel → ∀ calls,
      Answers (andOps ops fuel) (inter sets) (acCursorInitAnd cursors) (.advance :: calls) := by
  obtain ⟨enough,meets⟩ := and_meets some_ subs
  exact ⟨enough,fun fuel more => (meets fuel more).answers⟩

theorem and_answers_run :
    ∃ enough, ∀ fuel, enough ≤ fuel → ∀ calls,
      Answers (andOps setOps fuel) (inter [{1,3,5},{3,4,5}]) (acCursorInitAnd [({1,3,5},some 0),({3,4,5},some 0)])
        (.advance :: calls) :=
  and_answers (by simp) (.cons (setOps_meets _ _) (.cons (setOps_meets _ _) .nil))

end

/-! ## NOT -/

/-- What the callbacks of a NOT cursor are. -/
inductive NotCalls
  | not
  | pos
  | empty

/-- `not_cursor_t`. -/
structure NotCursor (σ : Type) where
  pos : σ
  neg : σ
  current : Nat
  calls : NotCalls

section
variable {σ : Type}

/-- `ac_cursor_empty`. -/
def acCursorEmpty (c : NotCursor σ) : NotCursor σ := { c with current := 0, calls := .empty }

def advancePos (ops : Ops σ) (c : NotCursor σ) : Option (Nat × NotCursor σ) :=
  match ops.advance c.pos with
  | none => none
  | some (id,pos) =>
    let c := { c with pos := pos, current := id }
    if id ≠ 0 then some (id,c) else some (0,acCursorEmpty c)

def advancePosTo (ops : Ops σ) (c : NotCursor σ) (_id : Nat) : Option (Nat × NotCursor σ) :=
  if _id ≤ c.current then some (c.current,c)
  else
    match ops.advanceTo c.pos _id with
    | none => none
    | some (id,pos) =>
      let c := { c with pos := pos, current := id }
      if id ≠ 0 then some (id,c) else some (0,acCursorEmpty c)

/-- The loop of `advance_not`; `none` when it has not ended after `fuel` rounds. -/
def advanceNot (ops : Ops σ) : Nat → NotCursor σ → Option (Nat × NotCursor σ)
  | 0, _ => none
  | fuel + 1, c =>
    match ops.advance c.pos with
    | none => none
    | some (id,pos) =>
      let c := { c with pos := pos }
      if id = 0 then some (0,acCursorEmpty c)
      else
        match ops.advanceTo c.neg id with
        | none => none
        | some (id2,neg) =>
          let c := { c with neg := neg }
          if id = id2 then advanceNot ops fuel c
          else if id2 ≠ 0 then some (id,{ c with current := id })
          else some (id,{ c with current := id, calls := .pos })

def advanceNotTo (ops : Ops σ) (fuel : Nat) (c : NotCursor σ) (_id : Nat) : Option (Nat × NotCursor σ) :=
  if _id ≤ c.current then some (c.current,c)
  else
    match ops.advanceTo c.pos _id with
    | none => none
    | some (id,pos) =>
      let c := { c with pos := pos }
      if id = 0 then some (0,acCursorEmpty c)
      else
        match ops.advanceTo c.neg id with
        | none => none
        | some (id2,neg) =>
          let c := { c with neg := neg }
          if id = id2 then advanceNot ops fuel c
          else if id2 ≠ 0 then some (id,{ c with current := id })
          else some (id,{ c with current := id, calls := .pos })

def notOps (ops : Ops σ) (fuel : Nat) : Ops (NotCursor σ) where
  advance c :=
    match c.calls with
    | .not => advanceNot ops fuel c
    | .pos => advancePos ops c
    | .empty => some (0,c)
  advanceTo c id :=
    match c.calls with
    | .not => advanceNotTo ops fuel c id
    | .pos => advancePosTo ops c id
    | .empty => some (0,c)
  current := NotCursor.current

/-- What `ac_cursor_init_not` returns: an empty cursor, its positive side or a NOT cursor. -/
inductive Built (σ : Type)
  | empty
  | pos (c : σ)
  | not (c : NotCursor σ)

def initNot (pos neg : σ) : NotCursor σ := ⟨pos,neg,0,.not⟩

def acCursorInitNot : Option σ → Option σ → Built σ
  | none, _ => .empty
  | some pos, none => .pos pos
  | some pos, some neg => .not (initNot pos neg)

def builtOps (ops : Ops σ) (fuel : Nat) : Ops (Built σ) where
  advance
    | .empty => some (0,.empty)
    | .pos c => (ops.advance c).map fun result => (result.1,.pos result.2)
    | .not c => ((notOps ops fuel).advance c).map fun result => (result.1,.not result.2)
  advanceTo
    | .empty, _ => some (0,.empty)
    | .pos c, id => (ops.advanceTo c id).map fun result => (result.1,.pos result.2)
    | .not c, id => ((notOps ops fuel).advanceTo c id).map fun result => (result.1,.not result.2)
  current
    | .empty => 0
    | .pos c => ops.current c
    | .not c => c.current

/-- A side of a NOT cursor; a missing one has no ids. -/
def Side (ops : Ops σ) (S : Finset Nat) : Option σ → Prop
  | none => S = ∅
  | some c => Meets ops S c (some 0)

variable {ops : Ops σ} {P N : Finset Nat} {c : NotCursor σ} {j low : Nat}

/-- The negative side has not skipped an id of its own from `j` on. -/
def Ahead (ops : Ops σ) (N : Finset Nat) (j : Nat) (neg : σ) : Prop :=
  ∃ m, Meets ops N neg (some m) ∧ (m ≠ 0 → m ∈ N) ∧ ∀ x ∈ N, j < x → m ≤ x

theorem Ahead.visit {neg : σ} {id : Nat} (ahead : Ahead ops N j neg) (beyond : j < id) :
    ∃ id2 neg' p, ops.advanceTo neg id = some (id2,neg') ∧ Finds N id id2 p ∧ Meets ops N neg' p := by
  obtain ⟨m,meets,inside,first⟩ := ahead
  by_cases reached : id ≤ m
  · obtain ⟨neg',returned,meets'⟩ := meets.stay (by omega) reached
    exact ⟨m,neg',some m,returned,.inr ⟨inside (by omega),reached,rfl,fun x member from_ => first x member (by omega)⟩,meets'⟩
  · exact meets.advanceTo (by omega)

/-- A NOT cursor at a position, in each of its modes. -/
def NotAt (ops : Ops σ) (P N : Finset Nat) (c : NotCursor σ) : Option Nat → Prop
  | none => c.calls = .empty
  | some k => c.current = k ∧ Meets ops P c.pos (some k) ∧
      (c.calls = .not ∧ Ahead ops N k c.neg ∨ c.calls = .pos ∧ ∀ x ∈ N, x ≤ k)

/-- The negative side is asked for an id of the positive side. -/
theorem Ahead.ask {neg : σ} {id : Nat} (ahead : Ahead ops N j neg) (beyond : j < id) :
    ∃ id2 neg', ops.advanceTo neg id = some (id2,neg') ∧
      (id = id2 ∧ id ∈ N ∧ Ahead ops N id neg' ∨
        id ≠ id2 ∧ id ∉ N ∧ (id2 ≠ 0 ∧ Ahead ops N id neg' ∨ id2 = 0 ∧ ∀ x ∈ N, x ≤ id)) := by
  obtain ⟨id2,neg',p,returned,finds,meets⟩ := ahead.visit beyond
  refine ⟨id2,neg',returned,?_⟩
  rcases finds with ⟨rfl,rfl,none⟩ | ⟨inside,from_,rfl,first⟩
  · refine .inr ⟨by omega,fun held => ?_,.inr ⟨rfl,fun x held => Nat.le_of_lt (none x held)⟩⟩
    exact absurd (none id held) (Nat.lt_irrefl id)
  · have ahead' : Ahead ops N id neg' := ⟨id2,meets,fun _ => inside,fun x held more => first x held (by omega)⟩
    by_cases same : id = id2
    · exact .inl ⟨same,same ▸ inside,ahead'⟩
    · refine .inr ⟨same,fun held => same ?_,.inl ⟨by omega,ahead'⟩⟩
      exact Nat.le_antisymm from_ (first id held (Nat.le_refl id))

theorem advanceNot_spec {bound fuel : Nat} (bounded : ∀ x ∈ P, x ≤ bound) (positive : 0 < low) (calls : c.calls = .not)
    (meets : Meets ops P c.pos (some j)) (ahead : Ahead ops N j c.neg) (started : low ≤ j + 1)
    (skipped : ∀ x ∈ P \ N, low ≤ x → j < x) (enough : bound - j < fuel) :
    ∃ id c' p, advanceNot ops fuel c = some (id,c') ∧ Finds (P \ N) low id p ∧ NotAt ops P N c' p := by
  induction fuel generalizing c j with
  | zero => exact absurd enough (Nat.not_lt_zero _)
  | succ fuel ih =>
    obtain ⟨id,pos,p,returned,finds,meets'⟩ := meets.advance
    rw [advanceNot]
    simp only [returned]
    rcases finds with ⟨rfl,rfl,none⟩ | ⟨inside,beyond,rfl,first⟩
    · rw [if_pos rfl]
      refine ⟨0,_,.none,rfl,.inl ⟨rfl,rfl,fun x member => ?_⟩,rfl⟩
      by_contra from_
      have less := none x (Finset.mem_sdiff.mp member).1
      exact absurd (skipped x member (by omega)) (by omega)
    · rw [if_neg (by omega)]
      have more : j < id := by omega
      obtain ⟨id2,neg',asked,answer⟩ := ahead.ask more
      simp only [asked]
      have first' : ∀ x ∈ P \ N, low ≤ x → id ≤ x := by
        intro x member from_
        exact first x (Finset.mem_sdiff.mp member).1 (skipped x member from_)
      rcases answer with ⟨same,held,ahead'⟩ | ⟨differ,missing,rest⟩
      · rw [if_pos same]
        have below := bounded id inside
        refine ih (c := { c with pos := pos, neg := neg' }) calls meets' ahead' (by omega) (fun x member from_ => ?_) (by omega)
        refine Nat.lt_of_le_of_ne (first' x member from_) ?_
        rintro rfl
        exact (Finset.mem_sdiff.mp member).2 held
      · have finds : Finds (P \ N) low id (some id) :=
          .inr ⟨Finset.mem_sdiff.mpr ⟨inside,missing⟩,by omega,rfl,first'⟩
        rw [if_neg differ]
        rcases rest with ⟨some_,ahead'⟩ | ⟨zero,none⟩
        · rw [if_pos some_]
          exact ⟨id,_,some id,rfl,finds,rfl,meets',.inl ⟨calls,ahead'⟩⟩
        · rw [if_neg (not_not.mpr zero)]
          exact ⟨id,_,some id,rfl,finds,rfl,meets',.inr ⟨rfl,none⟩⟩

theorem advanceNotTo_spec {bound fuel id : Nat} (bounded : ∀ x ∈ P, x ≤ bound) (calls : c.calls = .not)
    (meets : Meets ops P c.pos (some c.current)) (ahead : Ahead ops N c.current c.neg) (beyond : c.current < id)
    (enough : bound < fuel) :
    ∃ id' c' p, advanceNotTo ops fuel c id = some (id',c') ∧ Finds (P \ N) id id' p ∧ NotAt ops P N c' p := by
  obtain ⟨id',pos,p,returned,finds,meets'⟩ := meets.advanceTo beyond
  rw [advanceNotTo,if_neg (Nat.not_le.mpr beyond)]
  simp only [returned]
  rcases finds with ⟨rfl,rfl,none⟩ | ⟨inside,from_,rfl,first⟩
  · rw [if_pos rfl]
    exact ⟨0,_,.none,rfl,.inl ⟨rfl,rfl,fun x member => none x (Finset.mem_sdiff.mp member).1⟩,rfl⟩
  · rw [if_neg (by omega)]
    have more : c.current < id' := by omega
    obtain ⟨id2,neg',asked,answer⟩ := ahead.ask more
    simp only [asked]
    have first' : ∀ x ∈ P \ N, id ≤ x → id' ≤ x := fun x member => first x (Finset.mem_sdiff.mp member).1
    rcases answer with ⟨same,held,ahead'⟩ | ⟨differ,missing,rest⟩
    · rw [if_pos same]
      refine advanceNot_spec (c := { c with pos := pos, neg := neg' }) bounded (by omega) calls meets' ahead' (by omega)
        (fun x member more => ?_) (by omega)
      refine Nat.lt_of_le_of_ne (first' x member more) ?_
      rintro rfl
      exact (Finset.mem_sdiff.mp member).2 held
    · have finds : Finds (P \ N) id id' (some id') := .inr ⟨Finset.mem_sdiff.mpr ⟨inside,missing⟩,from_,rfl,first'⟩
      rw [if_neg differ]
      rcases rest with ⟨some_,ahead'⟩ | ⟨zero,none⟩
      · rw [if_pos some_]
        exact ⟨id',_,some id',rfl,finds,rfl,meets',.inl ⟨calls,ahead'⟩⟩
      · rw [if_neg (not_not.mpr zero)]
        exact ⟨id',_,some id',rfl,finds,rfl,meets',.inr ⟨rfl,none⟩⟩

theorem sdiff_finds {id k : Nat} {p : Option Nat} (finds : Finds P k id p) (none : ∀ x ∈ N, x < k) : Finds (P \ N) k id p := by
  have outside : ∀ x, k ≤ x → x ∉ N := fun x from_ held => absurd (none x held) (by omega)
  rcases finds with ⟨rfl,rfl,ended⟩ | ⟨inside,from_,rfl,first⟩
  · exact .inl ⟨rfl,rfl,fun x member => ended x (Finset.mem_sdiff.mp member).1⟩
  · refine .inr ⟨Finset.mem_sdiff.mpr ⟨inside,outside id from_⟩,from_,rfl,fun x member => ?_⟩
    exact first x (Finset.mem_sdiff.mp member).1

/-- What the two pass-through calls do with what the positive side returned. -/
theorem pos_result {id k : Nat} {pos : σ} {p : Option Nat} (positive : 0 < k) (calls : c.calls = .pos)
    (none : ∀ x ∈ N, x < k) (finds : Finds P k id p) (meets : Meets ops P pos p) :
    ∃ c', (if id ≠ 0 then some (id,{ c with pos := pos, current := id })
        else some (0,acCursorEmpty { c with pos := pos, current := id })) = some (id,c') ∧ NotAt ops P N c' p := by
  rcases finds with ⟨rfl,rfl,ended⟩ | ⟨inside,from_,rfl,first⟩
  · exact ⟨_,if_neg (by simp),rfl⟩
  · refine ⟨_,if_pos (by omega),rfl,meets,.inr ⟨calls,fun x held => ?_⟩⟩
    exact Nat.le_of_lt (Nat.lt_of_lt_of_le (none x held) from_)

/-- The NOT cursor is a cursor of the difference. -/
theorem not_meets {pos neg : σ} (meets : Meets ops P pos (some 0)) (meets' : Meets ops N neg (some 0)) :
    ∃ enough, ∀ fuel, enough ≤ fuel → Meets (notOps ops fuel) (P \ N) (initNot pos neg) (some 0) := by
  obtain ⟨bound,below⟩ := bounded [P]
  have bounded : ∀ x ∈ P, x ≤ bound := below P (by simp)
  refine ⟨bound + 1,fun fuel enough => ?_⟩
  have start : NotAt ops P N (initNot pos neg) (some 0) :=
    ⟨rfl,meets,.inl ⟨rfl,0,meets',fun zero => absurd rfl zero,fun x _ _ => Nat.zero_le x⟩⟩
  refine meets_of (R := NotAt ops P N) (fun c k at' _ => at'.1) ?_ start
  rintro c (_ | k) call proper at'
  · have empty : c.calls = .empty := at'
    refine ⟨c,?_,empty⟩
    cases call <;> simp [Ops.call,notOps,empty,answer]
  · obtain ⟨rfl,meets,⟨calls,ahead⟩ | ⟨calls,none⟩⟩ := id at'
    · cases call with
      | advance =>
        obtain ⟨id,c',p,returned,finds,at''⟩ := advanceNot_spec bounded (Nat.succ_pos c.current) calls meets
          ahead (Nat.le_refl _) (fun x _ from_ => from_) (Nat.lt_of_le_of_lt (Nat.sub_le _ _) enough)
        have spec := finds.found (Nat.succ_pos _)
        refine ⟨c',?_,?_⟩
        · rw [Ops.call,notOps,answer,spec]
          simp only [calls,returned]
        · rw [answer,spec]
          exact at''
      | advanceTo id =>
        by_cases reached : id ≤ c.current
        · have both := stands proper reached
          refine ⟨c,?_,?_⟩
          · rw [Ops.call,notOps,answer,if_pos both]
            simp only [calls,advanceNotTo,if_pos reached]
          · rw [answer,if_pos both]
            exact at'
        · obtain ⟨id',c',p,returned,finds,at''⟩ := advanceNotTo_spec bounded calls meets ahead
            (Nat.not_le.mp reached) enough
          have spec := finds.found (by omega)
          have both : ¬ (c.current ≠ 0 ∧ id ≤ c.current) := fun both => reached both.2
          refine ⟨c',?_,?_⟩
          · rw [Ops.call,notOps,answer,if_neg both,spec]
            simp only [calls,returned]
          · rw [answer,if_neg both,spec]
            exact at''
    · cases call with
      | advance =>
        obtain ⟨id,pos,p,returned,finds,meets⟩ := meets.advance
        obtain ⟨c',result,at''⟩ := pos_result (Nat.succ_pos _) calls (fun x held => Nat.lt_succ_of_le (none x held)) finds meets
        have spec := (sdiff_finds finds fun x held => Nat.lt_succ_of_le (none x held)).found (Nat.succ_pos _)
        refine ⟨c',?_,?_⟩
        · rw [Ops.call,notOps,answer,spec]
          simp only [calls,advancePos,returned]
          simpa only [calls] using result
        · rw [answer,spec]
          exact at''
      | advanceTo id =>
        by_cases reached : id ≤ c.current
        · have both := stands proper reached
          refine ⟨c,?_,?_⟩
          · rw [Ops.call,notOps,answer,if_pos both]
            simp only [calls,advancePosTo,if_pos reached]
          · rw [answer,if_pos both]
            exact at'
        · have beyond := Nat.not_le.mp reached
          have none' : ∀ x ∈ N, x < id := fun x held => Nat.lt_of_le_of_lt (none x held) beyond
          obtain ⟨id',pos,p,returned,finds,meets⟩ := meets.advanceTo beyond
          obtain ⟨c',result,at''⟩ := pos_result (by omega) calls none' finds meets
          have spec := (sdiff_finds finds none').found (by omega)
          have both : ¬ (c.current ≠ 0 ∧ id ≤ c.current) := fun both => reached both.2
          refine ⟨c',?_,?_⟩
          · rw [Ops.call,notOps,answer,if_neg both,spec]
            simp only [calls,advancePosTo,if_neg reached,returned]
            simpa only [calls] using result
          · rw [answer,if_neg both,spec]
            exact at''

theorem empty_meets (fuel : Nat) : Meets (builtOps ops fuel) ∅ .empty (some 0) := by
  refine meets_of (R := fun c p => c = .empty ∧ (p = none ∨ p = some 0)) ?_ ?_ ⟨rfl,.inr rfl⟩
  · rintro c id ⟨rfl,none | zero⟩ positive
    · cases none
    · cases zero
      exact absurd rfl positive
  · rintro c p call proper ⟨rfl,rfl | rfl⟩
    · cases call <;> exact ⟨.empty,rfl,rfl,.inl rfl⟩
    · cases call <;> exact ⟨.empty,rfl,rfl,.inl rfl⟩

theorem built_meets {pos neg : Option σ} (side : Side ops P pos) (side' : Side ops N neg) :
    ∃ enough, ∀ fuel, enough ≤ fuel → Meets (builtOps ops fuel) (P \ N) (acCursorInitNot pos neg) (some 0) := by
  cases pos with
  | none =>
    rw [show P = ∅ from side,Finset.empty_sdiff]
    exact ⟨0,fun fuel _ => empty_meets fuel⟩
  | some pos =>
    cases neg with
    | none =>
      rw [show N = ∅ from side',Finset.sdiff_empty]
      refine ⟨0,fun fuel _ => Meets.lift Built.pos (fun c call => ?_) (fun c => rfl) side⟩
      cases call <;> rfl
    | some neg =>
      obtain ⟨enough,meets⟩ := not_meets side side'
      refine ⟨enough,fun fuel more => Meets.lift Built.not (fun c call => ?_) (fun c => rfl) (meets fuel more)⟩
      cases call <;> rfl

theorem not_answers {pos neg : Option σ} (side : Side ops P pos) (side' : Side ops N neg) :
    ∃ enough, ∀ fuel, enough ≤ fuel → ∀ calls,
      Answers (builtOps ops fuel) (P \ N) (acCursorInitNot pos neg) (.advance :: calls) := by
  obtain ⟨enough,both⟩ := built_meets side side'
  exact ⟨enough,fun fuel more => (both fuel more).answers⟩

theorem not_answers_run :
    ∃ enough, ∀ fuel, enough ≤ fuel → ∀ calls,
      Answers (builtOps setOps fuel) ({1,3,5} \ {3,4}) (acCursorInitNot (some ({1,3,5},some 0)) (some ({3,4},some 0)))
        (.advance :: calls) :=
  @not_answers _ setOps _ _ (some _) (some _) (setOps_meets _ _) (setOps_meets _ _)

end

end AnotherC.Cursor
