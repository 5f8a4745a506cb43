import AnotherC.Search.TokenTree

/-!
The passes keep the infix reading of a query exactly where it is regular
(`regroup_keeps_iff`).
-/
namespace AnotherC.Tokens
open AnotherC.Lib.Text (Text)
open AnotherC.Lib.Dependence
set_option linter.unusedVariables false

/-! ## Segments -/

section
variable {α β : Type} {sep : α → Bool}

theorem segmentsFrom_map {sep : β → Bool} (g : α → β) (cur xs : List α) :
    segmentsFrom sep (cur.map g) (xs.map g) = (segmentsFrom (fun x => sep (g x)) cur xs).map (List.map g) := by
  induction xs generalizing cur with
  | nil => cases cur <;> rfl
  | cons x xs ih =>
    have empty := ih []
    have longer := ih (cur ++ [x])
    rw [List.map_nil] at empty
    rw [List.map_append,List.map_singleton] at longer
    rw [List.map_cons,segmentsFrom,segmentsFrom,empty,longer,List.isEmpty_map]
    split
    · split <;> simp
    · rfl

theorem segments_map {sep : β → Bool} (g : α → β) (xs : List α) :
    segments sep (xs.map g) = (segments (fun x => sep (g x)) xs).map (List.map g) :=
  segmentsFrom_map g [] xs

theorem segmentsFrom_flatten (cur xs : List α) :
    (segmentsFrom sep cur xs).flatten = cur ++ xs.filter fun x => !sep x := by
  induction xs generalizing cur with
  | nil => cases cur <;> simp [segmentsFrom]
  | cons x xs ih =>
    rw [segmentsFrom]
    cases separator : sep x with
    | true => cases cur <;> simp [ih,separator]
    | false => simp [ih,separator]

theorem segments_flatten (xs : List α) : (segments sep xs).flatten = xs.filter fun x => !sep x := by
  rw [segments,segmentsFrom_flatten,List.nil_append]

theorem segmentsFrom_nonempty {cur xs seg : List α} (member : seg ∈ segmentsFrom sep cur xs) : seg ≠ [] := by
  induction xs generalizing cur with
  | nil => cases cur <;> simp_all [segmentsFrom]
  | cons x xs ih =>
    rw [segmentsFrom] at member
    split at member
    · split at member
      case isTrue => exact ih member
      case isFalse nonempty =>
        rcases List.mem_cons.mp member with rfl | member
        · simpa using nonempty
        · exact ih member
    · exact ih member

theorem segments_nonempty {xs seg : List α} (member : seg ∈ segments sep xs) : seg ≠ [] :=
  segmentsFrom_nonempty member

theorem segments_member {xs seg : List α} (member : seg ∈ segments sep xs) {x : α} (inside : x ∈ seg) :
    x ∈ xs ∧ sep x = false := by
  have flat : x ∈ (segments sep xs).flatten := List.mem_flatten.mpr ⟨seg,member,inside⟩
  rw [segments_flatten] at flat
  simpa using flat

/-- Without a separator there is one segment. -/
theorem segmentsFrom_plain {cur xs : List α} (plain : ∀ x ∈ xs, sep x = false) (nonempty : cur ++ xs ≠ []) :
    segmentsFrom sep cur xs = [cur ++ xs] := by
  induction xs generalizing cur with
  | nil =>
    rw [List.append_nil] at nonempty ⊢
    simp [segmentsFrom,nonempty]
  | cons x xs ih =>
    rw [segmentsFrom,plain x (by simp),if_neg (by simp),ih (fun y member => plain y (by simp [member])) (by simp),
      List.append_assoc,List.singleton_append]

theorem segments_plain {xs : List α} (plain : ∀ x ∈ xs, sep x = false) (nonempty : xs ≠ []) :
    segments sep xs = [xs] := segmentsFrom_plain plain (by simpa using nonempty)

end

/-! ## Pieces -/

theorem orText_notText {type : TokenType} {token : Text} (either : isOr type token = true) :
    isNot type token = false := by
  have apart : orText.map lower ≠ notText.map lower := by decide
  simp only [isOr,isNot,sameCase,Bool.or_eq_true,Bool.and_eq_true,decide_eq_true_eq] at either ⊢
  rcases either with rfl | ⟨rfl,same⟩
  · simp
  · simp [same,apart]

namespace Tree

theorem mark_isOr {α : Type} (t : Tree) (x : α) : (t.mark x).isOr = (t.child.isEmpty && t.isOr) := by
  rw [mark]
  split
  · simp_all [Piece.isOr]
  · split <;> simp_all [Piece.isOr]

theorem mark_isNot {α : Type} (t : Tree) (x : α) : (t.mark x).isNot = (t.child.isEmpty && t.isNot) := by
  cases t with
  | node a type token child =>
    rw [mark]
    split
    case isTrue either =>
      simp only [Tree.child,Tree.isOr,Bool.and_eq_true] at either
      simp [Piece.isNot,Tree.isNot,orText_notText either.2]
    case isFalse => split <;> simp_all [Piece.isNot]

/-- A token is an operand where it is neither operator. -/
def operand (t : Tree) : Bool := !(t.mark ()).isOr && !(t.mark ()).isNot

theorem mark_item {α : Type} {t : Tree} (item : t.operand = true) (x : α) : t.mark x = .item x := by
  simp only [operand,mark_isOr,mark_isNot,Bool.and_eq_true,Bool.not_eq_true'] at item
  simp [mark,item.1,item.2]

theorem mark_not {α : Type} {t : Tree} (negation : (t.mark ()).isNot = true) (x : α) : t.mark x = .not := by
  have other : (t.mark ()).isOr = false := by
    cases mark : t.mark () <;> simp_all [Piece.isNot,Piece.isOr]
  rw [mark_isOr] at other
  rw [mark_isNot] at negation
  simp [mark,other,negation]

theorem mark_or {α : Type} {t : Tree} (either : (t.mark ()).isOr = true) (x : α) : t.mark x = .or := by
  rw [mark_isOr] at either
  simp [mark,either]

/-- A token is one of three things. -/
theorem mark_cases (t : Tree) : (t.mark ()).isOr = true ∨ (t.mark ()).isNot = true ∨ t.operand = true := by
  rw [operand]
  cases (t.mark ()).isOr <;> cases (t.mark ()).isNot <;> simp

end Tree

/-- The operands of a segment of siblings, with their signs. -/
def signed (ts : List Tree) : List (Bool × Tree) := signs (ts.map fun t => t.mark t)

theorem signs_map {α β : Type} (f : α → β) (ps : List (Piece α)) (g : Piece α → Piece β)
    (item : ∀ x, g (.item x) = .item (f x)) (negation : g .not = .not) (either : g .or = .or) :
    signs (ps.map g) = (signs ps).map fun s => (s.1,f s.2) := by
  induction ps using signs.induct with
  | case1 x ps ih => simp [signs,item,negation,ih]
  | case2 x ps ih => simp [signs,item,ih]
  | case3 p ps one two ih =>
    cases p with
    | item x => exact absurd rfl (two x)
    | or => simp [signs,either,ih]
    | not =>
      cases ps with
      | nil => simp [signs,negation]
      | cons q ps =>
        cases q with
        | item x => exact absurd rfl (one x ps rfl)
        | or => simpa [signs,either,negation] using ih
        | not => simpa [signs,negation] using ih
  | case4 => rfl

/-- The signs do not depend on what the operands carry. -/
theorem signs_mark {α : Type} (f : Tree → α) (ts : List Tree) :
    signs (ts.map fun t => t.mark (f t)) = (signed ts).map fun s => (s.1,f s.2) := by
  let g : Piece Tree → Piece α := fun p => match p with
    | .or => .or
    | .not => .not
    | .item t => .item (f t)
  have marks : (ts.map fun t => t.mark (f t)) = (ts.map fun t => t.mark t).map g := by
    rw [List.map_map]
    refine List.map_congr_left fun t _ => ?_
    rcases t.mark_cases with either | negation | item
    · simp [Tree.mark_or either,g]
    · simp [Tree.mark_not negation,g]
    · simp [Tree.mark_item item,g]
  rw [marks,signed]
  exact signs_map f _ g (fun _ => rfl) rfl rfl

@[simp] theorem signed_nil : signed [] = [] := rfl

theorem signed_item {t : Tree} (item : t.operand = true) (ts : List Tree) :
    signed (t :: ts) = (false,t) :: signed ts := by
  simp only [signed,List.map_cons,Tree.mark_item item,signs]

theorem signed_pair {t u : Tree} (negation : (t.mark ()).isNot = true) (item : u.operand = true) (ts : List Tree) :
    signed (t :: u :: ts) = (true,u) :: signed ts := by
  simp only [signed,List.map_cons,Tree.mark_not negation,Tree.mark_item item,signs]

theorem signed_last {t : Tree} (negation : (t.mark ()).isNot = true) : signed [t] = [] := by
  simp [signed,Tree.mark_not negation,signs]

/-- The signs are those of operands of the segment. -/
theorem signed_member {ts : List Tree} {s : Bool} {t : Tree} (member : (s,t) ∈ signed ts) :
    t ∈ ts ∧ t.operand = true := by
  have pieces : ∀ (ps : List (Piece Tree)) s t, (s,t) ∈ signs ps → Piece.item t ∈ ps := by
    intro ps s t member
    induction ps using signs.induct with
    | case1 x ps ih =>
      rw [signs] at member
      rcases List.mem_cons.mp member with same | member
      · cases same
        simp
      · simp [ih member]
    | case2 x ps ih =>
      rw [signs] at member
      rcases List.mem_cons.mp member with same | member
      · cases same
        simp
      · simp [ih member]
    | case3 p ps one two ih =>
      rw [signs] at member
      · simp [ih member]
      · exact one
      · exact two
    | case4 => cases member
  obtain ⟨u,inside,same⟩ := List.mem_map.mp (pieces _ s t member)
  rcases u.mark_cases with either | negation | item
  · rw [Tree.mark_or either] at same
    cases same
  · rw [Tree.mark_not negation] at same
    cases same
  · rw [Tree.mark_item item] at same
    cases same
    exact ⟨inside,item⟩

/-! ## The reading of siblings -/

theorem readEach_eq (holds : Addr → Bool) (ts : List Tree) :
    Tree.readEach holds ts = ts.map fun t => t.mark (t.reading holds) := by
  induction ts with
  | nil => rfl
  | cons t ts ih => rw [Tree.readEach,ih,List.map_cons]

/-- The `or`s among siblings. -/
def orMark (t : Tree) : Bool := (t.mark ()).isOr

theorem isOr_mark {α : Type} (t : Tree) (x : α) : (t.mark x).isOr = orMark t := by
  rw [orMark,Tree.mark_isOr,Tree.mark_isOr]

/-- The reading of a segment. -/
def segmentReads (holds : Addr → Bool) (seg : List Tree) : Bool :=
  (signed seg).all fun s => s.2.reading holds != s.1

theorem reads_eq (holds : Addr → Bool) (ts : List Tree) :
    reads holds ts = (segments orMark ts).any (segmentReads holds) := by
  rw [reads,infixOf,readEach_eq,segments_map,List.any_map]
  simp only [isOr_mark]
  congr 1
  funext seg
  simp only [Function.comp_apply,signs_mark,List.all_map,segmentReads]
  rfl

/-- Siblings without an `or` are one segment. -/
theorem reads_segment {holds : Addr → Bool} {seg : List Tree} (plain : ∀ t ∈ seg, orMark t = false)
    (nonempty : seg ≠ []) : reads holds seg = segmentReads holds seg := by
  simp [reads_eq,segments_plain plain nonempty]

theorem segmentReads_single {holds : Addr → Bool} {t : Tree} (item : t.operand = true) :
    segmentReads holds [t] = t.reading holds := by
  simp [segmentReads,signed_item item]

/-! ## What a query says of its siblings -/

theorem kinds_segments (ts : List Tree) :
    segments Piece.isOr (kinds ts) = (segments orMark ts).map kinds := segments_map _ ts

theorem signs_kinds (ts : List Tree) : signs (kinds ts) = (signed ts).map fun s => (s.1,()) :=
  signs_mark (fun _ => ()) ts

theorem grounded_eq (ts : List Tree) : grounded (kinds ts) =
    (!(segments orMark ts).isEmpty && (segments orMark ts).all fun seg => (signed seg).any fun s => !s.1) := by
  rw [grounded,kinds_segments,List.isEmpty_map,List.all_map]
  congr 2
  funext seg
  simp only [Function.comp_apply,signs_kinds,List.any_map]
  rfl

theorem queryEach_iff {ts : List Tree} : Tree.queryEach ts = true ↔ ∀ t ∈ ts, t.query = true := by
  induction ts with
  | nil => simp [Tree.queryEach]
  | cons t ts ih => simp [Tree.queryEach,ih]

theorem orsRegularEach_iff {ts : List Tree} : Tree.orsRegularEach ts = true ↔ ∀ t ∈ ts, t.orsRegular = true := by
  induction ts with
  | nil => simp [Tree.orsRegularEach]
  | cons t ts ih => simp [Tree.orsRegularEach,ih]

/-- The siblings are fine for the `not`s, and so is what is below them. -/
def NotsRegular (within : Bool) (ts : List Tree) : Bool :=
  notsFineWithin within (kinds ts) && Tree.notsRegularEach within false ts

/-! ## The loop of `fix_ors` -/

/-- Only a token without children is an `or` to the loop. -/
def Plain (ts : List Tree) : Prop := ∀ t ∈ ts, t.isOr = orMark t

theorem kinds_cons (t : Tree) (ts : List Tree) : kinds (t :: ts) = t.mark () :: kinds ts := rfl

section
variable {ts : List Tree}

theorem splitTrees_skip {t u : Tree} (either : t.isOr = true) (whole : List Tree) (segs : List (List Tree))
    (us : List Tree) :
    splitTrees whole [] segs (t :: u :: us) = splitTrees (whole ++ [t]) [] segs (u :: us) := by
  rw [splitTrees,if_pos either]
  rfl

theorem splitTrees_push {t u : Tree} (either : t.isOr = true) (whole : List Tree) {cur : List Tree}
    (nonempty : cur ≠ []) (segs : List (List Tree)) (us : List Tree) :
    splitTrees whole cur segs (t :: u :: us) = splitTrees whole [] (segs ++ [cur]) (u :: us) := by
  rw [splitTrees,if_pos either]
  simp [nonempty]

theorem splitTrees_other {t : Tree} (other : t.isOr = false) (whole cur : List Tree) (segs : List (List Tree))
    (us : List Tree) :
    splitTrees whole cur segs (t :: us) = splitTrees (whole ++ [t]) (cur ++ [t]) segs us := by
  rw [splitTrees,if_neg (by simp [other])]

theorem separated_cons (after : Bool) {t u : Tree} (us : List Tree) : separated after (kinds (t :: u :: us)) =
    if orMark t then after || separated false (kinds (u :: us)) else separated true (kinds (u :: us)) := rfl

theorem endsAlone_cons (after : Bool) {t u : Tree} (us : List Tree) :
    endsAlone after (kinds (t :: u :: us)) = endsAlone (!orMark t) (kinds (u :: us)) := rfl

theorem endsAlone_single (after : Bool) (t : Tree) : endsAlone after (kinds [t]) = (orMark t && after) := rfl

@[simp] theorem isEmpty_snoc (cur : List Tree) (t : Tree) : (cur ++ [t]).isEmpty = false := by
  cases cur <;> rfl

theorem splitTrees_empty (plain : Plain ts) (whole cur : List Tree) (segs : List (List Tree)) :
    (splitTrees whole cur segs ts).2.2 = [] ↔ segs = [] ∧ separated (!cur.isEmpty) (kinds ts) = false := by
  induction ts generalizing whole cur segs with
  | nil => simp [splitTrees,kinds,separated]
  | cons t ts ih =>
    have mark := plain t (by simp)
    have ih := ih fun u member => plain u (by simp [member])
    cases ts with
    | nil => by_cases either : t.isOr = true <;> simp [splitTrees,kinds,separated,either]
    | cons u us =>
      rw [separated_cons,← mark]
      cases either : t.isOr with
      | false => simp [splitTrees_other either,ih]
      | true =>
        cases cur with
        | nil => simp [splitTrees_skip either,ih]
        | cons c cs => simp [splitTrees_push either,ih]

theorem splitTrees_whole (plain : Plain ts) (whole cur : List Tree) (segs : List (List Tree))
    (empty : (splitTrees whole cur segs ts).2.2 = []) :
    (splitTrees whole cur segs ts).1 =
      whole ++ if endsAlone (!cur.isEmpty) (kinds ts) then ts.dropLast else ts := by
  induction ts generalizing whole cur segs with
  | nil => simp [splitTrees,kinds,endsAlone]
  | cons t ts ih =>
    have mark := plain t (by simp)
    have rest : Plain ts := fun u member => plain u (by simp [member])
    have ih := ih rest
    cases ts with
    | nil =>
      rw [endsAlone_single,← mark]
      cases either : t.isOr with
      | false => simp [splitTrees,either]
      | true => cases cur <;> simp [splitTrees,either]
    | cons u us =>
      rw [endsAlone_cons,← mark]
      cases either : t.isOr with
      | false =>
        rw [splitTrees_other either] at empty ⊢
        rw [ih _ _ _ empty]
        simp only [isEmpty_snoc,Bool.not_false]
        split <;> simp
      | true =>
        cases cur with
        | nil =>
          rw [splitTrees_skip either] at empty ⊢
          rw [ih _ _ _ empty]
          simp only [List.isEmpty_nil,Bool.not_true]
          split <;> simp
        | cons c cs =>
          rw [splitTrees_push either _ (by simp)] at empty
          simpa using ((splitTrees_empty rest _ _ _).mp empty).1

/-- The parts so far, the one at hand included. -/
def partsOf (parts : List Tree × List Tree × List (List Tree)) : List (List Tree) :=
  if parts.2.1.isEmpty then parts.2.2 else parts.2.2 ++ [parts.2.1]

theorem splitTrees_parts (plain : Plain ts) (whole cur : List Tree) (segs : List (List Tree))
    (closed : endsAlone (!cur.isEmpty) (kinds ts) = false) :
    partsOf (splitTrees whole cur segs ts) = segs ++ segmentsFrom orMark cur ts := by
  induction ts generalizing whole cur segs with
  | nil => by_cases first : cur.isEmpty = true <;> simp [splitTrees,partsOf,segmentsFrom,first]
  | cons t ts ih =>
    have mark := plain t (by simp)
    have ih := ih fun u member => plain u (by simp [member])
    cases ts with
    | nil =>
      rw [endsAlone_single,← mark] at closed
      cases either : t.isOr with
      | false => simp [splitTrees,partsOf,segmentsFrom,← mark,either]
      | true =>
        have first : cur = [] := by simpa [either] using closed
        simp [splitTrees,partsOf,segmentsFrom,← mark,either,first]
    | cons u us =>
      rw [endsAlone_cons,← mark] at closed
      rw [segmentsFrom,← mark]
      cases either : t.isOr with
      | false =>
        rw [splitTrees_other either,ih _ _ _ (by simpa [either] using closed)]
        simp
      | true =>
        rw [either] at closed
        cases cur with
        | nil => simpa [splitTrees_skip either] using ih (whole ++ [t]) [] segs (by simpa using closed)
        | cons c cs => simpa [splitTrees_push either] using ih whole [] (segs ++ [c :: cs]) (by simpa using closed)

/-- Where an `or` dangles after the last operand, the part before it is lost. -/
theorem splitTrees_lost (plain : Plain ts) (whole cur : List Tree) (segs : List (List Tree))
    (alone : endsAlone (!cur.isEmpty) (kinds ts) = true) :
    (splitTrees whole cur segs ts).2.1 = [] ∧
      ∃ lost, segs ++ segmentsFrom orMark cur ts = (splitTrees whole cur segs ts).2.2 ++ [lost] := by
  induction ts generalizing whole cur segs with
  | nil => simp [kinds,endsAlone] at alone
  | cons t ts ih =>
    have mark := plain t (by simp)
    have ih := ih fun u member => plain u (by simp [member])
    cases ts with
    | nil =>
      rw [endsAlone_single,← mark,Bool.and_eq_true] at alone
      have nonempty : cur ≠ [] := by simpa using alone.2
      simp [splitTrees,segmentsFrom,← mark,alone.1,nonempty]
    | cons u us =>
      rw [endsAlone_cons,← mark] at alone
      rw [segmentsFrom,← mark]
      cases either : t.isOr with
      | false =>
        rw [splitTrees_other either]
        simpa using ih (whole ++ [t]) (cur ++ [t]) segs (by simpa [either] using alone)
      | true =>
        rw [either] at alone
        cases cur with
        | nil => simpa [splitTrees_skip either] using ih (whole ++ [t]) [] segs (by simpa using alone)
        | cons c cs => simpa [splitTrees_push either] using ih whole [] (segs ++ [c :: cs]) (by simpa using alone)

/-- Where no `or` separates, the siblings are one segment, up to an `or` at the
    end. -/
theorem segmentsFrom_single {cur : List Tree} (nonempty : cur ≠ []) (whole : separated true (kinds ts) = false) :
    segmentsFrom orMark cur ts = [cur ++ if endsAlone true (kinds ts) then ts.dropLast else ts] := by
  induction ts generalizing cur with
  | nil => simp [segmentsFrom,kinds,endsAlone,nonempty]
  | cons t ts ih =>
    cases ts with
    | nil =>
      rw [endsAlone_single,segmentsFrom]
      cases either : orMark t <;> simp [segmentsFrom,nonempty]
    | cons u us =>
      rw [separated_cons] at whole
      cases either : orMark t with
      | true => simp [either] at whole
      | false =>
        rw [either,if_neg (by simp)] at whole
        rw [endsAlone_cons,segmentsFrom,either,if_neg (by simp),ih (by simp) whole]
        simp only [Bool.not_false]
        split <;> simp

end

/-! ## Siblings after `fix_ors` -/

/-- Siblings without an `or`, one of them an operand that is not negated. -/
structure Segment (seg : List Tree) : Prop where
  plain : ∀ t ∈ seg, orMark t = false
  positive : ∃ t, (false,t) ∈ signed seg

/-- A token as `fix_ors` leaves it. -/
inductive Lifted : Tree → Prop
  | leaf (a : Addr) (type : TokenType) (token : Text) : Lifted (.node a type token [])
  | group (a : Addr) (token : Text) {child : List Tree} (segment : Segment child)
      (each : ∀ t ∈ child, Lifted t) : Lifted (.node a .openParen token child)
  | either (a : Addr) (token : Text) {child : List Tree} (nonempty : child ≠ [])
      (operands : ∀ t ∈ child, t.operand = true) (each : ∀ t ∈ child, Lifted t) : Lifted (.node a .or token child)

theorem Segment.nonempty {seg : List Tree} (segment : Segment seg) : seg ≠ [] := by
  rintro rfl
  obtain ⟨t,member⟩ := segment.positive
  simp at member

theorem Segment.single {t : Tree} (segment : Segment [t]) : t.operand = true := by
  obtain ⟨u,member⟩ := segment.positive
  rcases t.mark_cases with either | negation | item
  · have plain := segment.plain t (by simp)
    rw [orMark,either] at plain
    cases plain
  · rw [signed_last negation] at member
    cases member
  · exact item

theorem Segment.of_operand {t : Tree} (item : t.operand = true) : Segment [t] := by
  constructor
  case plain =>
    intro u member
    rw [List.mem_singleton.mp member]
    simpa [orMark,Tree.operand] using ((Bool.and_eq_true _ _).mp item).1
  case positive => exact ⟨t,by simp [signed_item item]⟩

theorem operand_of_child {a : Addr} {type : TokenType} {token : Text} {child : List Tree} (nonempty : child ≠ []) :
    (Tree.node a type token child).operand = true := by
  simp [Tree.operand,Tree.mark_isOr,Tree.mark_isNot,Tree.child,nonempty]

theorem segments_of_grounded {ts : List Tree} (ground : grounded (kinds ts) = true) :
    segments orMark ts ≠ [] ∧ ∀ seg ∈ segments orMark ts, Segment seg := by
  rw [grounded_eq,Bool.and_eq_true] at ground
  constructor
  · simpa using ground.1
  · intro seg member
    obtain ⟨⟨negated,t⟩,inside,positive⟩ := List.any_eq_true.mp (List.all_eq_true.mp ground.2 seg member)
    obtain rfl : negated = false := by simpa using positive
    exact ⟨fun u inside => (segments_member member inside).2,t,inside⟩

/-- What stands for siblings: the only one, or a new token over them. -/
inductive Wrapped (type : TokenType) (token : Text) : List Tree → Tree → Prop
  | single (t : Tree) : Wrapped type token [t] t
  | group (n : Addr) (seg : List Tree) : Wrapped type token seg (.node n type token seg)

theorem wrapEach_wrapped (n : Addr) (segs : List (List Tree)) :
    List.Forall₂ (Wrapped .openParen parenText) segs (wrapEach n segs).2 := by
  induction segs generalizing n with
  | nil => exact .nil
  | cons seg segs ih =>
    match seg with
    | [] => exact .cons (.group n []) (ih (n + 1))
    | [t] => exact .cons (.single t) (ih n)
    | t :: u :: us => exact .cons (.group n _) (ih (n + 1))

theorem joinOrs_cases {ts : List Tree} (plain : Plain ts) (ground : grounded (kinds ts) = true)
    (fine : orsFine (kinds ts) = true) :
    (∃ seg, segments orMark ts = [seg] ∧ ∀ n, (joinOrs n ts).2 = seg) ∨
      ∀ n, (joinOrs n ts).2 = [.node n .or orText (wrapEach (n + 1) (segments orMark ts)).2] := by
  have nonempty := (segments_of_grounded ground).1
  have empty := splitTrees_empty plain [] [] []
  rw [orsFine] at fine
  simp only [List.isEmpty_nil,Bool.not_true,true_and] at empty
  cases separates : separated false (kinds ts) with
  | true =>
    rw [separates,if_pos rfl] at fine
    have parts := splitTrees_parts plain [] [] [] (by simpa using fine)
    rw [separates] at empty
    right
    intro n
    rw [joinOrs,if_neg (by simpa using empty)]
    simp only [partsOf,List.nil_append] at parts
    simp only [starts,parts,segments]
  | false =>
    rw [separates,if_neg (by simp)] at fine
    have none := empty.mpr separates
    have whole := splitTrees_whole plain [] [] [] none
    left
    cases ts with
    | nil => exact absurd rfl nonempty
    | cons t us =>
      have first : orMark t = false := by simpa [kinds,orMark] using fine
      have tail : separated true (kinds us) = false := by
        cases us with
        | nil => rfl
        | cons u us => simpa [separated_cons,first] using separates
      refine ⟨[t] ++ if endsAlone true (kinds us) then us.dropLast else us,?_,fun n => ?_⟩
      · rw [segments,segmentsFrom,first,if_neg (by simp),List.nil_append]
        exact segmentsFrom_single (by simp) tail
      · rw [joinOrs,if_pos (by simp [none]),whole]
        cases us with
        | nil => simp [kinds,endsAlone,Tree.mark_isOr]
        | cons u us =>
          simp only [endsAlone_cons,first,Bool.not_false,List.nil_append,List.singleton_append]
          split <;> simp

/-! ### The `not`s of the segments -/

theorem notsFineWithin_segment {within : Bool} {seg : List Tree} (plain : ∀ t ∈ seg, orMark t = false)
    (nonempty : seg ≠ []) : notsFineWithin within (kinds seg) =
      if within then !(kinds seg).any Piece.isNot else notsFine (kinds seg) := by
  rw [notsFineWithin,kinds_segments,segments_plain plain nonempty]
  simp

theorem notsFineWithin_segments (within : Bool) (ts : List Tree) : notsFineWithin within (kinds ts) =
    (segments orMark ts).all fun seg => notsFineWithin within (kinds seg) := by
  cases within with
  | false =>
    rw [notsFineWithin,if_neg (by simp),kinds_segments,List.all_map,Bool.eq_iff_iff,List.all_eq_true,
      List.all_eq_true]
    refine forall_congr' fun seg => forall_congr' fun member => ?_
    rw [notsFineWithin_segment (fun t inside => (segments_member member inside).2) (segments_nonempty member)]
    simp
  | true =>
    have flat := @segments_flatten _ orMark ts
    simp only [notsFineWithin,if_true]
    rw [Bool.eq_iff_iff,List.all_eq_true]
    simp only [Bool.not_eq_true',List.any_eq_false,kinds,List.mem_map]
    constructor
    · rintro quiet seg member _ ⟨t,inside,rfl⟩
      exact quiet _ ⟨t,(segments_member member inside).1,rfl⟩
    · rintro quiet _ ⟨t,inside,rfl⟩
      cases either : orMark t with
      | true =>
        rw [Tree.mark_or either]
        simp [Piece.isNot]
      | false =>
        have kept : t ∈ (segments orMark ts).flatten := by
          rw [flat]
          simp [inside,either]
        obtain ⟨seg,member,within⟩ := List.mem_flatten.mp kept
        exact quiet seg member _ ⟨t,within,rfl⟩

theorem notsRegular_leaf {t : Tree} (leaf : t.child = []) (within : Bool) : t.notsRegular within = true := by
  cases t with
  | node a type token child =>
    obtain rfl : child = [] := leaf
    rfl

theorem leaf_of_or {t : Tree} (either : orMark t = true) : t.child = [] := by
  rw [orMark,Tree.mark_isOr,Bool.and_eq_true] at either
  simpa using either.1

theorem leaf_of_not {t : Tree} (negation : (t.mark ()).isNot = true) : t.child = [] := by
  rw [Tree.mark_isNot,Bool.and_eq_true] at negation
  simpa using negation.1

theorem isNot_of_or {t : Tree} (either : orMark t = true) : (t.mark ()).isNot = false := by
  rw [Tree.mark_or either]
  rfl

theorem notsRegularEach_or {t : Tree} (either : orMark t = true) (within negated : Bool) (xs ys : List Tree) :
    Tree.notsRegularEach within negated (xs ++ t :: ys) =
      (Tree.notsRegularEach within negated xs && Tree.notsRegularEach within false ys) := by
  induction xs generalizing negated with
  | nil =>
    rw [List.nil_append,Tree.notsRegularEach,Tree.notsRegularEach,notsRegular_leaf (leaf_of_or either),
      isNot_of_or either]
  | cons x xs ih => rw [List.cons_append,Tree.notsRegularEach,Tree.notsRegularEach,ih,Bool.and_assoc]

theorem notsRegularEach_segmentsFrom (within : Bool) (cur ts : List Tree) :
    Tree.notsRegularEach within false (cur ++ ts) =
      (segmentsFrom orMark cur ts).all (Tree.notsRegularEach within false) := by
  induction ts generalizing cur with
  | nil => cases cur <;> simp [segmentsFrom,Tree.notsRegularEach]
  | cons t ts ih =>
    rw [segmentsFrom]
    cases either : orMark t with
    | false =>
      rw [if_neg (by simp),← ih,List.append_assoc,List.singleton_append]
    | true =>
      rw [if_pos rfl,notsRegularEach_or either]
      have rest := ih []
      rw [List.nil_append] at rest
      cases cur with
      | nil => simp [rest,Tree.notsRegularEach]
      | cons c cs => simp [rest]

theorem notsRegular_segments (within : Bool) (ts : List Tree) :
    NotsRegular within ts = (segments orMark ts).all (NotsRegular within) := by
  have each := notsRegularEach_segmentsFrom within [] ts
  rw [List.nil_append] at each
  rw [NotsRegular,notsFineWithin_segments,each,Bool.eq_iff_iff,Bool.and_eq_true,List.all_eq_true,List.all_eq_true,
    List.all_eq_true]
  simp only [NotsRegular,Bool.and_eq_true]
  exact ⟨fun both seg member => ⟨both.1 seg member,both.2 seg member⟩,
    fun all => ⟨fun seg member => (all seg member).1,fun seg member => (all seg member).2⟩⟩

theorem isNot_of_operand {t : Tree} (item : t.operand = true) : (t.mark ()).isNot = false := by
  rw [Tree.mark_item item]
  rfl

theorem isOr_of_operand {t : Tree} (item : t.operand = true) : orMark t = false := by
  rw [orMark,Tree.mark_item item]
  rfl

theorem doubled_operands {ts : List Tree} (operands : ∀ t ∈ ts, t.operand = true) : doubled (kinds ts) = false := by
  induction ts with
  | nil => rfl
  | cons t ts ih =>
    cases ts with
    | nil => rfl
    | cons u us =>
      simp only [kinds_cons,doubled,isNot_of_operand (operands t (by simp)),Bool.false_and,Bool.false_or]
      exact ih fun u member => operands u (by simp [member])

/-- Operands alone have no `not` to be fine. -/
theorem notsRegular_operands {ts : List Tree} (operands : ∀ t ∈ ts, t.operand = true) (within : Bool) :
    NotsRegular within ts = ts.all fun t => t.notsRegular within := by
  have fine : notsFineWithin within (kinds ts) = true := by
    have marks : kinds ts = ts.map fun _ => Piece.item () :=
      List.map_congr_left fun t member => Tree.mark_item (operands t member) ()
    have last : ((ts.map fun _ => Piece.item ()).getLast?.any Piece.isNot) = false := by
      rw [List.getLast?_map]
      cases ts.getLast? <;> rfl
    have single := doubled_operands operands
    rw [marks] at single
    cases within with
    | true => simp [notsFineWithin,marks,Piece.isNot]
    | false =>
      cases ts with
      | nil => simp [notsFineWithin,kinds,segments,segmentsFrom]
      | cons t ts =>
        rw [notsFineWithin_segment (fun u member => isOr_of_operand (operands u member)) (by simp),marks,notsFine,
          single,last]
        rfl
  rw [NotsRegular,fine,Bool.true_and]
  clear fine
  induction ts with
  | nil => rfl
  | cons t ts ih =>
    rw [Tree.notsRegularEach,Bool.or_false,isNot_of_operand (operands t (by simp)),
      ih fun u member => operands u (by simp [member])]
    rfl

theorem notsRegular_node {a : Addr} {type : TokenType} {token : Text} {child : List Tree} (nonempty : child ≠ [])
    (within : Bool) : (Tree.node a type token child).notsRegular within = NotsRegular within child := by
  rw [Tree.notsRegular,NotsRegular,show child.isEmpty = false by simpa using nonempty,Bool.false_or]

/-! ### What stands for a segment -/

section
variable {seg : List Tree} {kid : Tree}

theorem Wrapped.operand (wrapped : Wrapped .openParen parenText seg kid) (segment : Segment seg) : kid.operand = true := by
  cases wrapped with
  | single => exact segment.single
  | group n seg => exact operand_of_child segment.nonempty

theorem Wrapped.lifted (wrapped : Wrapped .openParen parenText seg kid) (segment : Segment seg) (each : ∀ t ∈ seg, Lifted t) :
    Lifted kid := by
  cases wrapped with
  | single => exact each kid (by simp)
  | group n seg => exact .group n _ segment each

theorem Wrapped.reading (wrapped : Wrapped .openParen parenText seg kid) (segment : Segment seg) (holds : Addr → Bool) :
    kid.reading holds = segmentReads holds seg := by
  cases wrapped with
  | single => exact (segmentReads_single segment.single).symm
  | group n seg =>
    rw [Tree.reading,if_neg (by simpa using segment.nonempty),if_neg (by simp),
      ← reads_segment segment.plain segment.nonempty,reads]

theorem Wrapped.notsRegular (wrapped : Wrapped .openParen parenText seg kid) (segment : Segment seg) (within : Bool) :
    kid.notsRegular within = NotsRegular within seg := by
  cases wrapped with
  | single =>
    rw [notsRegular_operands (by simpa using segment.single)]
    simp
  | group n seg => rw [notsRegular_node segment.nonempty]

end

theorem forall₂_all {α β : Type} {R : α → β → Prop} {xs : List α} {ys : List β} (related : List.Forall₂ R xs ys)
    {f : α → Bool} {g : β → Bool} (same : ∀ x ∈ xs, ∀ y, R x y → f x = g y) : ys.all g = xs.all f := by
  induction related with
  | nil => rfl
  | cons first rest ih =>
    rw [List.all_cons,List.all_cons,same _ (by simp) _ first,ih fun x member => same x (by simp [member])]

theorem forall₂_any {α β : Type} {R : α → β → Prop} {xs : List α} {ys : List β} (related : List.Forall₂ R xs ys)
    {f : α → Bool} {g : β → Bool} (same : ∀ x ∈ xs, ∀ y, R x y → f x = g y) : ys.any g = xs.any f := by
  induction related with
  | nil => rfl
  | cons first rest ih =>
    rw [List.any_cons,List.any_cons,same _ (by simp) _ first,ih fun x member => same x (by simp [member])]

theorem forall₂_image {α β : Type} {R : α → β → Prop} {xs : List α} {ys : List β} (related : List.Forall₂ R xs ys)
    {x : α} (member : x ∈ xs) : ∃ y ∈ ys, R x y := by
  induction related with
  | nil => cases member
  | cons first rest ih =>
    rcases List.mem_cons.mp member with rfl | member
    · exact ⟨_,by simp,first⟩
    · obtain ⟨y,inside,holds⟩ := ih member
      exact ⟨y,by simp [inside],holds⟩

theorem forall₂_mem {α β : Type} {R : α → β → Prop} {xs : List α} {ys : List β} (related : List.Forall₂ R xs ys)
    {y : β} (member : y ∈ ys) : ∃ x ∈ xs, R x y := by
  induction related with
  | nil => cases member
  | cons first rest ih =>
    rcases List.mem_cons.mp member with rfl | member
    · exact ⟨_,by simp,first⟩
    · obtain ⟨x,inside,holds⟩ := ih member
      exact ⟨x,by simp [inside],holds⟩

/-- What `joinOrs` makes of siblings that have been fixed below. -/
structure Joined (ts us : List Tree) : Prop where
  segment : Segment us
  lifted : ∀ t ∈ us, Lifted t
  reading : ∀ holds, reads holds us = reads holds ts
  regular : ∀ within, NotsRegular within us = NotsRegular within ts

theorem joinOrs_joined {ts : List Tree} (plain : Plain ts) (ground : grounded (kinds ts) = true)
    (fine : orsFine (kinds ts) = true) (lifted : ∀ t ∈ ts, Lifted t) (n : Addr) : Joined ts (joinOrs n ts).2 := by
  obtain ⟨nonempty,each⟩ := segments_of_grounded ground
  have below (seg) (member : seg ∈ segments orMark ts) : ∀ t ∈ seg, Lifted t :=
    fun t inside => lifted t (segments_member member inside).1
  rcases joinOrs_cases plain ground fine with ⟨seg,whole,result⟩ | result
  · rw [result n]
    have segment := each seg (by simp [whole])
    constructor
    case segment => exact segment
    case lifted => exact below seg (by simp [whole])
    case reading =>
      intro holds
      rw [reads_segment segment.plain segment.nonempty,reads_eq holds ts,whole]
      simp
    case regular =>
      intro within
      rw [notsRegular_segments within ts,whole]
      simp
  · rw [result n]
    have wrapped := wrapEach_wrapped (n + 1) (segments orMark ts)
    generalize (wrapEach (n + 1) (segments orMark ts)).2 = kids at wrapped
    have some : kids ≠ [] := by
      rintro rfl
      exact nonempty (List.forall₂_nil_right_iff.mp wrapped)
    have operands : ∀ kid ∈ kids, kid.operand = true := by
      intro kid member
      obtain ⟨seg,inside,stands⟩ := forall₂_mem wrapped member
      exact stands.operand (each seg inside)
    have top : (Tree.node n .or orText kids).operand = true := operand_of_child some
    constructor
    case segment => exact Segment.of_operand top
    case lifted =>
      intro t member
      rw [List.mem_singleton.mp member]
      refine .either n _ some operands fun kid member => ?_
      obtain ⟨seg,inside,stands⟩ := forall₂_mem wrapped member
      exact stands.lifted (each seg inside) (below seg inside)
    case reading =>
      intro holds
      rw [reads_segment (Segment.of_operand top).plain (by simp),segmentReads_single top,Tree.reading,
        if_neg (by simpa using some),if_pos rfl,readEach_eq,List.any_map,reads_eq]
      refine forall₂_any wrapped fun seg member kid stands => ?_
      rw [Function.comp_apply,Tree.mark_item (stands.operand (each seg member)),Piece.value,
        stands.reading (each seg member)]
    case regular =>
      intro within
      rw [notsRegular_operands (by simpa using top),List.all_cons,List.all_nil,Bool.and_true,notsRegular_node some,
        notsRegular_operands operands,notsRegular_segments]
      exact forall₂_all wrapped fun seg member kid stands => (stands.notsRegular (each seg member) within).symm

/-! ### `fix_ors` on a query -/

/-- A token and what `fix_ors` makes of it, up to the new addresses. -/
def Fixes (t u : Tree) : Prop := ∃ n, u = (t.ors n).2

theorem orsEach_fixes (n : Addr) (ts : List Tree) : List.Forall₂ Fixes ts (orsEach n ts).2 := by
  induction ts generalizing n with
  | nil => exact .nil
  | cons t ts ih => exact .cons ⟨n,rfl⟩ (ih _)

/-- What a token keeps when the tokens below it are joined. -/
structure Kept (t u : Tree) : Prop where
  lifted : Lifted u
  either : u.isOr = t.isOr
  mark : u.mark () = t.mark ()
  reading : ∀ holds, u.reading holds = t.reading holds
  regular : ∀ within, u.notsRegular within = t.notsRegular within

section
variable {ts us : List Tree}

theorem kept_kinds (kept : List.Forall₂ Kept ts us) : kinds us = kinds ts := by
  induction kept with
  | nil => rfl
  | cons first rest ih => rw [kinds_cons,kinds_cons,first.mark,ih]

theorem mark_congr {t u : Tree} (same : u.mark () = t.mark ()) {α : Type} (x : α) : u.mark x = t.mark x := by
  rcases t.mark_cases with either | negation | item
  · rw [Tree.mark_or either,Tree.mark_or (same ▸ either)]
  · rw [Tree.mark_not negation,Tree.mark_not (same ▸ negation)]
  · have also : u.operand = true := by rw [Tree.operand,same]; exact item
    rw [Tree.mark_item item,Tree.mark_item also]

theorem kept_reads (kept : List.Forall₂ Kept ts us) (holds : Addr → Bool) : reads holds us = reads holds ts := by
  have same : Tree.readEach holds us = Tree.readEach holds ts := by
    induction kept with
    | nil => rfl
    | cons first rest ih => rw [Tree.readEach,Tree.readEach,ih,first.reading,mark_congr first.mark]
  rw [reads,reads,same]

theorem kept_regular (kept : List.Forall₂ Kept ts us) (within : Bool) :
    NotsRegular within us = NotsRegular within ts := by
  have same (negated : Bool) : Tree.notsRegularEach within negated us = Tree.notsRegularEach within negated ts := by
    induction kept generalizing negated with
    | nil => rfl
    | cons first rest ih => rw [Tree.notsRegularEach,Tree.notsRegularEach,ih,first.regular,first.mark]
  rw [NotsRegular,NotsRegular,kept_kinds kept,same]

end

theorem query_isOr {t : Tree} (query : t.query = true) : t.isOr = orMark t := by
  rw [orMark,Tree.mark_isOr]
  cases t with
  | node a type token child =>
    cases child with
    | nil => simp [Tree.child]
    | cons u us =>
      rw [Tree.query] at query
      simp only [List.isEmpty_cons,Bool.false_or,Bool.and_eq_true,decide_eq_true_eq] at query
      obtain ⟨⟨rfl,-⟩,-⟩ := query
      simp [Tree.child,Tree.isOr,isOr]

/-- A query whose `or`s are fine on every level. -/
structure OrsFine (ts : List Tree) : Prop where
  ground : grounded (kinds ts) = true
  query : ∀ t ∈ ts, t.query = true
  fine : orsFine (kinds ts) = true
  below : ∀ t ∈ ts, t.orsRegular = true

theorem OrsFine.joined {ts : List Tree} (whole : OrsFine ts) (each : ∀ t ∈ ts, ∀ n, Kept t (t.ors n).2) (n : Addr) :
    Joined ts (ors n ts).2 := by
  have kept : List.Forall₂ Kept ts (orsEach n ts).2 := by
    have both := (List.forall₂_and_left (p := (· ∈ ts)) ts _).mpr ⟨fun t member => member,orsEach_fixes n ts⟩
    refine both.imp fun t u related => ?_
    obtain ⟨member,m,rfl⟩ := related
    exact each t member m
  have plain : Plain (orsEach n ts).2 := by
    intro u member
    obtain ⟨t,inside,same⟩ := forall₂_mem kept member
    rw [same.either,orMark,same.mark]
    exact query_isOr (whole.query t inside)
  have lifted : ∀ u ∈ (orsEach n ts).2, Lifted u := by
    intro u member
    obtain ⟨t,inside,same⟩ := forall₂_mem kept member
    exact same.lifted
  have kinds := kept_kinds kept
  have joined := joinOrs_joined plain (kinds ▸ whole.ground) (kinds ▸ whole.fine) lifted (orsEach n ts).1
  rw [ors]
  constructor
  case segment => exact joined.segment
  case lifted => exact joined.lifted
  case reading => exact fun holds => (joined.reading holds).trans (kept_reads kept holds)
  case regular => exact fun within => (joined.regular within).trans (kept_regular kept within)

theorem ors_node {a : Addr} {type : TokenType} {token : Text} {child : List Tree} (nonempty : child ≠ [])
    (other : type ≠ .dquote) (n : Addr) :
    (Tree.node a type token child).ors n = ((ors n child).1,.node a type token (ors n child).2) := by
  rw [Tree.ors,if_neg (by simp [nonempty,other])]
  rfl

theorem query_node {a : Addr} {type : TokenType} {token : Text} {child : List Tree} (nonempty : child ≠ [])
    (query : (Tree.node a type token child).query = true) :
    type = .openParen ∧ grounded (kinds child) = true ∧ ∀ t ∈ child, t.query = true := by
  rw [Tree.query,show child.isEmpty = false by simpa using nonempty] at query
  simp only [Bool.false_or,Bool.and_eq_true,decide_eq_true_eq] at query
  exact ⟨query.1.1,query.1.2,queryEach_iff.mp query.2⟩

theorem ors_kept (t : Tree) (query : t.query = true) (fine : t.orsRegular = true) (n : Addr) :
    Kept t (t.ors n).2 := by
  induction t using Tree.induct generalizing n with
  | node a type token child ih =>
    cases empty : child with
    | nil => exact ⟨.leaf a type token,rfl,rfl,fun _ => rfl,fun _ => rfl⟩
    | cons =>
      rw [← empty]
      have nonempty : child ≠ [] := by simp [empty]
      obtain ⟨rfl,ground,each⟩ := query_node nonempty query
      rw [Tree.orsRegular,show child.isEmpty = false by simpa using nonempty,Bool.false_or,Bool.and_eq_true,
        orsRegularEach_iff] at fine
      have whole : OrsFine child := ⟨ground,each,fine.1,fine.2⟩
      have joined := whole.joined (fun t member m => ih t member (each t member) (fine.2 t member) m) n
      have some := joined.segment.nonempty
      rw [ors_node nonempty (by simp)]
      constructor
      case lifted => exact .group a token joined.segment joined.lifted
      case either => rfl
      case mark => simp [Tree.mark,Tree.child,nonempty,some]
      case reading =>
        intro holds
        rw [Tree.reading,if_neg (by simpa using some),if_neg (by simp),Tree.reading,if_neg (by simpa using nonempty),
          if_neg (by simp)]
        exact joined.reading holds
      case regular =>
        intro within
        rw [notsRegular_node some,notsRegular_node nonempty,joined.regular]

theorem ors_joined {ts : List Tree} (whole : OrsFine ts) (n : Addr) : Joined ts (ors n ts).2 :=
  whole.joined (fun t member m => ors_kept t (whole.query t member) (whole.below t member) m) n

end AnotherC.Tokens
