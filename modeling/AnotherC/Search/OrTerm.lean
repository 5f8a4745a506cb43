import AnotherC.Search.CursorOr
import AnotherC.Search.Phrase

/-!
# The OR cursor of the words of a wildcard: `or_term_cursor_t` of `ac_s`

It is an OR cursor that also reports positions, and takes them from the first two of
the subs that stand on the id it returns. They are the union of the positions of all
of these subs exactly if the others have no position that the first two lack
(`or_term_iff`).
-/
namespace AnotherC.OrTerm
open AnotherC.Lib AnotherC.Lib.Cursor AnotherC.CursorOr AnotherC.Phrase
set_option linter.unusedVariables false

section
variable {σ : Type}

/-- `or_term_cursor_t`; `positions` is what lies between `wp` and `ewp`. -/
structure OrTermCursor (σ : Type) where
  oc : OrCursor σ
  positions : List Nat

/-- `ac_s_init_or_term_cursor` and an `or_add_to_cursor` for each sub. -/
def acSInitOrTermCursor (subs : List σ) : OrTermCursor σ := ⟨subs.foldl orAdd (acCursorInitOr σ),[]⟩

/-- The loop that merges two lists, and the two that copy what is left of one. -/
def mergeTwo : List Nat → List Nat → List Nat
  | [], p2 => p2
  | p1, [] => p1
  | x :: p1, y :: p2 =>
    if x ≠ y then
      if x < y then x :: mergeTwo p1 (y :: p2) else y :: mergeTwo (x :: p1) p2
    else x :: mergeTwo p1 p2
termination_by p1 p2 => p1.length + p2.length

variable (ops : Ops σ) (between : σ → List Nat)

/-- What lies between `wp` and `ewp` of a sub. -/
def listOf (subs : List σ) (p : Nat) : List Nat := (subs[p]?.map between).getD []

def fillTermPositions (c : OrTermCursor σ) : OrTermCursor σ :=
  match c.oc.active with
  | [] => c
  | [p] => { c with positions := listOf between c.oc.subs p }
  | p :: q :: _ => { c with positions := mergeTwo (listOf between c.oc.subs p) (listOf between c.oc.subs q) }

/-- What `advance_or_term_cursor` and `advance_or_term_cursor_to` do after the loop over
    the active subs. -/
def popActive (c : OrTermCursor σ) (oc : OrCursor σ) : Option (Nat × OrTermCursor σ) :=
  if oc.heap.length = 0 then some (0,{ c with oc := acCursorEmpty oc })
  else
    match orPop ops oc with
    | none => none
    | some (p,oc) =>
      match activate { oc with active := [] } p with
      | none => none
      | some oc =>
        let current := currentOf ops oc.subs p
        match popLevel ops current oc.heap.length oc with
        | none => none
        | some oc => some (current,fillTermPositions between { c with oc := { oc with current := current } })

def advanceOrTermCursor (c : OrTermCursor σ) : Option (Nat × OrTermCursor σ) :=
  (advanceAll ops (c.oc.active.map some) c.oc).bind (popActive ops between c)

/-- The loop of `advance_or_term_cursor_to`. -/
def advanceAllTo (id : Nat) : List Nat → OrCursor σ → Option (OrCursor σ)
  | [], c => some c
  | p :: ps, c =>
    match c.subs[p]? with
    | none => none
    | some s =>
      match ops.advanceTo s id with
      | none => none
      | some (found,s') =>
        let c := { c with subs := c.subs.set p s' }
        if found ≠ 0 then
          match orPush ops c p with
          | none => none
          | some c => advanceAllTo id ps c
        else advanceAllTo id ps c

def advanceOrTermCursorTo (c : OrTermCursor σ) (id : Nat) : Option (Nat × OrTermCursor σ) :=
  if id ≤ c.oc.current then some (c.oc.current,c)
  else (advanceAllTo ops id c.oc.active c.oc).bind (popActive ops between c)

def advanceOrTermCursorInit (c : OrTermCursor σ) : Option (Nat × OrTermCursor σ) :=
  match advanceAll ops (c.oc.cursors.take c.oc.numCursors)
      { c.oc with heap := [], active := [], slots := c.oc.numCursors + 1 } with
  | none => none
  | some oc =>
    if oc.heap.length = 0 then some (0,{ c with oc := acCursorEmpty oc })
    else advanceOrTermCursor ops between { c with oc := { oc with calls := .or } }

/-- `cursor.advance_to(c,id)`, once it is no longer that of a new cursor. -/
def seekOrTerm (c : OrTermCursor σ) (id : Nat) : Option (Nat × OrTermCursor σ) :=
  match c.oc.calls with
  | .empty => some (0,c)
  | _ => advanceOrTermCursorTo ops between c id

def advanceOrTermCursorToInit (c : OrTermCursor σ) (id : Nat) : Option (Nat × OrTermCursor σ) :=
  match advanceOrTermCursorInit ops between c with
  | none => none
  | some (r,c) =>
    if id ≤ r then some (r,c)
    else if r = 0 then some (0,{ c with oc := acCursorEmpty c.oc })
    else seekOrTerm ops between c id

/-- The or-term cursor as an object with callbacks. -/
def orTermOps : Ops (OrTermCursor σ) where
  advance c :=
    match c.oc.calls with
    | .init => advanceOrTermCursorInit ops between c
    | .or => advanceOrTermCursor ops between c
    | .empty => some (0,c)
  advanceTo c id :=
    match c.oc.calls with
    | .init => advanceOrTermCursorToInit ops between c id
    | _ => seekOrTerm ops between c id
  current c := c.oc.current

/-- The positions of the subs that stand on the id. -/
def activeLists (c : OrTermCursor σ) : List (List Nat) := c.oc.active.map (listOf between c.oc.subs)

/-- The positions are the union of the lists, in order and without duplicates. -/
def Union (lists : List (List Nat)) (positions : List Nat) : Prop :=
  positions.Pairwise (· < ·) ∧ ∀ x, x ∈ positions ↔ ∃ l ∈ lists, x ∈ l

/-- The first two lists have the positions of all of them. -/
def Covered (lists : List (List Nat)) : Prop := ∀ l ∈ lists, ∀ x ∈ l, ∃ first ∈ lists.take 2, x ∈ first

variable {ops between}

/-! ## Merging -/

theorem mem_mergeTwo (xs ys : List Nat) (x : Nat) : x ∈ mergeTwo xs ys ↔ x ∈ xs ∨ x ∈ ys := by
  fun_induction mergeTwo xs ys with
  | case1 ys => simp
  | case2 xs => simp
  | case3 a xs b ys different less ih => simp only [List.mem_cons,ih]; tauto
  | case4 a xs b ys different notLess ih => simp only [List.mem_cons,ih]; tauto
  | case5 a xs b ys same ih =>
    have equal : a = b := Decidable.not_not.mp same
    simp only [List.mem_cons,ih,equal]
    tauto

theorem mergeTwo_ascending {xs ys : List Nat} (first : xs.Pairwise (· < ·)) (second : ys.Pairwise (· < ·)) :
    (mergeTwo xs ys).Pairwise (· < ·) := by
  fun_induction mergeTwo xs ys with
  | case1 ys => exact second
  | case2 xs => exact first
  | case3 a xs b ys different less ih =>
    obtain ⟨ahead,rest⟩ := List.pairwise_cons.mp first
    refine List.pairwise_cons.mpr ⟨fun x member => ?_,ih rest second⟩
    rcases (mem_mergeTwo _ _ x).mp member with inFirst | inSecond
    · exact ahead x inFirst
    · rcases List.mem_cons.mp inSecond with rfl | behind
      · exact less
      · exact Nat.lt_trans less ((List.pairwise_cons.mp second).1 x behind)
  | case4 a xs b ys different notLess ih =>
    obtain ⟨ahead,rest⟩ := List.pairwise_cons.mp second
    refine List.pairwise_cons.mpr ⟨fun x member => ?_,ih first rest⟩
    have less : b < a := by omega
    rcases (mem_mergeTwo _ _ x).mp member with inFirst | inSecond
    · rcases List.mem_cons.mp inFirst with rfl | behind
      · exact less
      · exact Nat.lt_trans less ((List.pairwise_cons.mp first).1 x behind)
    · exact ahead x inSecond
  | case5 a xs b ys same ih =>
    have equal : a = b := Decidable.not_not.mp same
    obtain ⟨ahead,rest⟩ := List.pairwise_cons.mp first
    obtain ⟨ahead',rest'⟩ := List.pairwise_cons.mp second
    refine List.pairwise_cons.mpr ⟨fun x member => ?_,ih rest rest'⟩
    rcases (mem_mergeTwo _ _ x).mp member with inFirst | inSecond
    · exact ahead x inFirst
    · rw [equal]
      exact ahead' x inSecond

/-! ## What is reported -/

/-- The positions are those of the first two active subs. -/
def Reported (between : σ → List Nat) (c : OrTermCursor σ) : Prop :=
  ∃ first rest, activeLists between c = first :: rest ∧
    c.positions = match rest with
      | [] => first
      | second :: _ => mergeTwo first second

theorem fill_reported {c : OrTermCursor σ} (some_ : c.oc.active ≠ []) : Reported between (fillTermPositions between c) := by
  rw [fillTermPositions]
  split
  case h_1 empty => exact absurd empty some_
  case h_2 p one => exact ⟨_,_,by simp only [activeLists,one]; rfl,rfl⟩
  case h_3 p q others more => exact ⟨_,_,by simp only [activeLists,more]; rfl,rfl⟩

theorem Reported.union {c : OrTermCursor σ} (reported : Reported between c)
    (lists : ∀ l ∈ activeLists between c, Positions l) :
    Union (activeLists between c) c.positions ↔ Covered (activeLists between c) := by
  obtain ⟨first,rest,shape,positions⟩ := reported
  rw [shape] at lists ⊢
  have ascending := (lists first List.mem_cons_self).1
  cases rest with
  | nil =>
    have same : c.positions = first := positions
    rw [same]
    constructor
    · rintro - l member x inside
      exact ⟨l,member,inside⟩
    · rintro -
      exact ⟨ascending,fun x => by simp⟩
  | cons second rest =>
    have merged : c.positions = mergeTwo first second := positions
    rw [merged]
    constructor
    · rintro ⟨-,all⟩ l member x inside
      have either := (all x).mpr ⟨l,member,inside⟩
      simpa [mem_mergeTwo] using either
    · intro covered
      refine ⟨mergeTwo_ascending ascending (lists second (by simp)).1,fun x => ⟨fun either => ?_,?_⟩⟩
      · rcases (mem_mergeTwo _ _ x).mp either with inFirst | inSecond
        · exact ⟨first,by simp,inFirst⟩
        · exact ⟨second,by simp,inSecond⟩
      · rintro ⟨l,member,inside⟩
        simpa [mem_mergeTwo] using covered l member x inside

/-! ## Runs -/

/-- A cursor that is in use has reported the positions of its active subs. -/
def Current (between : σ → List Nat) (c : OrTermCursor σ) : Prop :=
  match c.oc.calls with
  | .init => True
  | .or => Reported between c
  | .empty => True

/-- What a call leaves: an id is returned only by a cursor that has reported. -/
def Returned (between : σ → List Nat) (id : Nat) (c : OrTermCursor σ) : Prop :=
  Current between c ∧ (id ≠ 0 → Reported between c)

theorem Reported.current {c : OrTermCursor σ} (reported : Reported between c) : Current between c := by
  rw [Current]
  split
  · trivial
  · exact reported
  · trivial

theorem activate_active {oc oc' : OrCursor σ} {p : Nat} (activated : activate oc p = some oc') :
    oc'.active = oc.active ++ [p] := by
  rw [activate] at activated
  split at activated
  · cases activated
    rfl
  · cases activated

/-- Popping a level only adds to the active subs. -/
theorem popLevel_active {current num : Nat} {oc oc' : OrCursor σ} (popped : popLevel ops current num oc = some oc') :
    oc.active <+: oc'.active := by
  induction num generalizing oc with
  | zero =>
    cases popped
    exact List.prefix_refl _
  | succ num ih =>
    rw [popLevel] at popped
    cases top : oc.heap.head? with
    | none =>
      rw [top] at popped
      cases popped
      exact List.prefix_refl _
    | some p =>
      simp only [top] at popped
      by_cases same : currentOf ops oc.subs p = current
      · rw [if_pos same] at popped
        cases one : orPop ops oc with
        | none =>
          rw [one] at popped
          cases popped
        | some result =>
          obtain ⟨q,oc₁⟩ := result
          simp only [one] at popped
          have kept : oc₁.active = oc.active := by
            rw [orPop,Option.map_eq_some_iff] at one
            obtain ⟨result,-,shape⟩ := one
            cases shape
            rfl
          cases active : activate oc₁ q with
          | none =>
            rw [active] at popped
            cases popped
          | some oc₂ =>
            simp only [active] at popped
            have more := ih popped
            rw [activate_active active,kept] at more
            exact (List.prefix_append _ _).trans more
      · rw [if_neg same] at popped
        cases popped
        exact List.prefix_refl _

theorem popActive_returned {c c' : OrTermCursor σ} {oc : OrCursor σ} {id : Nat}
    (returned : popActive ops between c oc = some (id,c')) : Returned between id c' := by
  rw [popActive] at returned
  by_cases empty : oc.heap.length = 0
  · rw [if_pos empty] at returned
    cases returned
    exact ⟨trivial,fun some_ => absurd rfl some_⟩
  · rw [if_neg empty] at returned
    cases popped : orPop ops oc with
    | none =>
      rw [popped] at returned
      cases returned
    | some result =>
      obtain ⟨p,oc₁⟩ := result
      simp only [popped] at returned
      cases active : activate { oc₁ with active := [] } p with
      | none =>
        rw [active] at returned
        cases returned
      | some oc₂ =>
        simp only [active] at returned
        cases level : popLevel ops (currentOf ops oc₂.subs p) oc₂.heap.length oc₂ with
        | none =>
          rw [level] at returned
          cases returned
        | some oc₃ =>
          simp only [level,Option.some.injEq,Prod.mk.injEq] at returned
          obtain ⟨-,rfl⟩ := returned
          have some_ : oc₃.active ≠ [] := by
            have more := popLevel_active level
            rw [activate_active active] at more
            exact List.ne_nil_of_mem (more.subset (List.mem_append_right _ (List.mem_singleton_self p)))
          have reported : Reported between (fillTermPositions between
              { c with oc := { oc₃ with current := currentOf ops oc₂.subs p } }) := fill_reported some_
          exact ⟨reported.current,fun _ => reported⟩

theorem advance_returned {c c' : OrTermCursor σ} {id : Nat} (returned : advanceOrTermCursor ops between c = some (id,c')) :
    Returned between id c' := by
  rw [advanceOrTermCursor,Option.bind_eq_some_iff] at returned
  obtain ⟨oc,-,popped⟩ := returned
  exact popActive_returned popped

theorem init_returned {c c' : OrTermCursor σ} {id : Nat}
    (returned : advanceOrTermCursorInit ops between c = some (id,c')) : Returned between id c' := by
  rw [advanceOrTermCursorInit] at returned
  split at returned
  · cases returned
  · split at returned
    · cases returned
      exact ⟨trivial,fun some_ => absurd rfl some_⟩
    · exact advance_returned returned

theorem seek_returned {c c' : OrTermCursor σ} {id target : Nat} (reported : c.oc.calls ≠ .empty → Reported between c)
    (returned : seekOrTerm ops between c target = some (id,c')) : Returned between id c' := by
  rw [seekOrTerm] at returned
  split at returned
  case h_1 empty =>
    cases returned
    exact ⟨by rw [Current,empty]; trivial,fun some_ => absurd rfl some_⟩
  case h_2 started =>
    have here := reported started
    rw [advanceOrTermCursorTo] at returned
    split at returned
    · cases returned
      exact ⟨here.current,fun _ => here⟩
    · rw [Option.bind_eq_some_iff] at returned
      obtain ⟨oc,-,popped⟩ := returned
      exact popActive_returned popped

theorem call_returned {c c' : OrTermCursor σ} {call : Call} {id : Nat} (current : Current between c)
    (returned : (orTermOps ops between).call c call = some (id,c')) : Returned between id c' := by
  rw [Current] at current
  cases call with
  | advance =>
    simp only [Ops.call,orTermOps] at returned
    cases calls : c.oc.calls with
    | init =>
      rw [calls] at returned
      exact init_returned returned
    | or =>
      rw [calls] at returned
      exact advance_returned returned
    | empty =>
      rw [calls] at returned
      cases returned
      exact ⟨by rw [Current,calls]; trivial,fun some_ => absurd rfl some_⟩
  | advanceTo target =>
    simp only [Ops.call,orTermOps] at returned
    cases calls : c.oc.calls with
    | init =>
      simp only [calls,advanceOrTermCursorToInit] at returned
      cases first : advanceOrTermCursorInit ops between c with
      | none =>
        rw [first] at returned
        cases returned
      | some result =>
        obtain ⟨r,c₁⟩ := result
        have returned₁ := init_returned first
        simp only [first] at returned
        by_cases reached : target ≤ r
        · rw [if_pos reached] at returned
          cases returned
          exact returned₁
        · rw [if_neg reached] at returned
          by_cases ended : r = 0
          · rw [if_pos ended] at returned
            cases returned
            exact ⟨trivial,fun some_ => absurd rfl some_⟩
          · rw [if_neg ended] at returned
            exact seek_returned (fun _ => returned₁.2 ended) returned
    | or =>
      simp only [calls] at returned current
      exact seek_returned (fun _ => current) returned
    | empty =>
      simp only [calls] at returned
      exact seek_returned (fun other => absurd calls other) returned

theorem init_calls (subs : List σ) : (acSInitOrTermCursor subs).oc.calls = .init :=
  (orAdds init_filled subs).2.2

/-- After any calls: the last answer, unless it is 0, comes with the positions of the
    first two active subs. -/
theorem run_reported {c c' : OrTermCursor σ} {calls : List Call} {ids : List Nat} {id : Nat} (current : Current between c)
    (run : (orTermOps ops between).run c calls = some (ids,c')) (last : ids.getLast? = some id) (some_ : id ≠ 0) :
    Reported between c' := by
  induction calls generalizing c ids with
  | nil =>
    cases run
    cases last
  | cons call calls ih =>
    obtain ⟨first,c₁,later,called,rest,rfl⟩ := Ops.run_cons run
    have returned := call_returned current called
    cases calls with
    | nil =>
      cases rest
      cases last
      exact returned.2 some_
    | cons other calls =>
      obtain ⟨second,c₂,later,_,_,rfl⟩ := Ops.run_cons rest
      exact ih returned.1 rest (by simpa using last)

end

/-! ## Words to run -/

/-- A word: the id it stands on, its later ids, and its positions, the same in all of them. -/
structure ListedWord where
  current : Nat
  later : List Nat
  positions : List Nat
deriving Repr, DecidableEq

/-- The word on the first of some ids. -/
def standOn (w : ListedWord) : List Nat → Nat × ListedWord
  | [] => (0,{ w with current := 0, later := [] })
  | id :: later => (id,{ w with current := id, later := later })

def listedOps : Ops ListedWord where
  advance w := some (standOn w w.later)
  advanceTo w id := some (if id ≤ w.current then (w.current,w) else standOn w (w.later.dropWhile (· < id)))
  current := ListedWord.current

/-- Words that stand in one document. -/
def sharing (positions : List (List Nat)) : List ListedWord := positions.map fun l => ⟨0,[1],l⟩

/-- The cursor of the words once it has been advanced. -/
def advancedOnce (words : List ListedWord) : Option (List Nat × OrTermCursor ListedWord) :=
  (orTermOps listedOps ListedWord.positions).run (acSInitOrTermCursor words) [.advance]

end AnotherC.OrTerm
