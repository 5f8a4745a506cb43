import Mathlib.Data.List.TakeWhile
import AnotherC.Search.Cursor

/-!
# Phrases: the phrase cursor of `ac_s`

A phrase of `k` words is at position `p` of a document if the word `i` is at
`p + i` for every `i`. `find_phrases` walks the `k` ascending lists of positions
at once (`findPhrases_spec`), and the phrase cursor stops at the ids that all of
its subs have and at which it finds a phrase (`phrase_exact`).
-/
namespace AnotherC.Phrase
open AnotherC.Lib.Cursor AnotherC.Lib.Rows AnotherC.Cursor
set_option linter.unusedVariables false

/-! ## `find_phrases` -/

/-- `while(wp[i] < ewp[i] && *wp[i] < min_pos+i)`. A list is what lies between `wp[i]` and
    `ewp[i]`. -/
def skip (limit : Nat) (wp : List Nat) : List Nat := wp.dropWhile (· < limit)

/-- The loop over the lists, from list `i` on: the lists as it leaves them, and the
    candidate that all lists have, or none when a list ran out. It is `none` itself when
    it has not ended after `fuel` rounds. -/
def alignLists (numC : Nat) : Nat → List (List Nat) → Nat → Nat → Option (List (List Nat) × Option Nat)
  | 0, _, _, _ => none
  | fuel + 1, wp, minPos, i =>
    if i < numC then
      match wp[i]? with
      | none => none
      | some list =>
        match skip (minPos + i) list with
        | [] => some (wp.set i [],none)
        | p :: later =>
          if p > minPos + i then
            -- `min_pos` is a `uint16_t`
            alignLists numC fuel (wp.set i (p :: later)) ((p + 2 ^ 64 - i) % 2 ^ 16) 0
          else alignLists numC fuel (wp.set i (p :: later)) minPos (i + 1)
    else some (wp,some minPos)

/-- The outer loop; `none` also where a pointer would be moved beyond the end of its list. -/
def findLoop (numC : Nat) : Nat → List (List Nat) → List Nat → Option (List Nat)
  | 0, _, _ => none
  | fuel + 1, wp, dp =>
    match wp with
    | [] => none
    | [] :: _ => some dp
    | (p :: later) :: others =>
      match alignLists numC fuel ((p :: later) :: others) p 1 with
      | none => none
      | some (_,none) => some dp
      | some (wp,some minPos) =>
        match wp with
        | (_ :: later) :: others => findLoop numC fuel (later :: others) (dp ++ [minPos])
        | _ => none

/-- What is returned, and what is stored at `c->positions`. -/
def findPhrases (fuel : Nat) (lists : List (List Nat)) : Option (Bool × List Nat) :=
  (findLoop lists.length fuel lists []).map fun dp => (0 < dp.length,dp)

/-- A phrase begins at `p`. -/
def Common (lists : List (List Nat)) (p : Nat) : Prop := ∀ (i : Nat) l, lists[i]? = some l → p + i ∈ l

/-- A strictly ascending list of `uint16_t`. -/
def Positions (l : List Nat) : Prop := l.Pairwise (· < ·) ∧ ∀ x ∈ l, x < 2 ^ 16

instance (l : List Nat) : Decidable (Positions l) := inferInstanceAs (Decidable (_ ∧ _))

theorem skip_suffix (limit : Nat) (wp : List Nat) : skip limit wp <:+ wp := List.dropWhile_suffix _

theorem skip_dropped {limit x : Nat} {wp : List Nat} (member : x ∈ wp) (gone : x ∉ skip limit wp) : x < limit := by
  have split := List.takeWhile_append_dropWhile (p := (· < limit)) (l := wp)
  rw [← split,List.mem_append] at member
  rcases member with taken | kept
  · simpa using List.mem_takeWhile_imp taken
  · exact absurd kept gone

theorem skip_head {limit p : Nat} {wp later : List Nat} (stops : skip limit wp = p :: later) : limit ≤ p := by
  have first := List.head?_dropWhile_not (· < limit) wp
  rw [show wp.dropWhile (· < limit) = p :: later from stops] at first
  simpa using first

/-- A pointer into `l` that has passed only positions below `limit`. -/
def Passed (limit : Nat) (l wp : List Nat) : Prop := wp <:+ l ∧ ∀ x ∈ l, x ∉ wp → x < limit

theorem Passed.mono {limit more : Nat} {l wp : List Nat} (passed : Passed limit l wp) (le : limit ≤ more) :
    Passed more l wp := ⟨passed.1,fun x member gone => Nat.lt_of_lt_of_le (passed.2 x member gone) le⟩

theorem Passed.skip {limit : Nat} {l wp : List Nat} (passed : Passed limit l wp) :
    Passed limit l (Phrase.skip limit wp) := by
  refine ⟨(skip_suffix limit wp).trans passed.1,fun x member gone => ?_⟩
  by_cases kept : x ∈ wp
  · exact skip_dropped kept gone
  · exact passed.2 x member kept

theorem Passed.keeps {limit x : Nat} {l wp : List Nat} (passed : Passed limit l wp) (member : x ∈ l) (beyond : limit ≤ x) :
    x ∈ wp := by
  by_contra gone
  have := passed.2 x member gone
  omega

theorem Positions.suffix {l wp : List Nat} (positions : Positions l) (suffix : wp <:+ l) : Positions wp :=
  ⟨positions.1.sublist suffix.sublist,fun x member => positions.2 x (suffix.subset member)⟩

theorem Positions.first {p : Nat} {later : List Nat} (positions : Positions (p :: later)) : ∀ x ∈ p :: later, p ≤ x := by
  intro x member
  rcases List.mem_cons.mp member with rfl | behind
  · exact Nat.le_refl x
  · exact Nat.le_of_lt ((List.pairwise_cons.mp positions.1).1 x behind)

/-- What the loop over the lists keeps: no pointer has passed the candidate, the first `i`
    point at it, and no phrase from `low` on begins below it. -/
structure Aligning (lists : List (List Nat)) (low : Nat) (wp : List (List Nat)) (minPos i : Nat) : Prop where
  length : wp.length = lists.length
  passed : ∀ (j : Nat) l w, lists[j]? = some l → wp[j]? = some w → Passed (minPos + j) l w
  matched : ∀ j < i, ∃ later, wp[j]? = some ((minPos + j) :: later)
  started : low ≤ minPos
  skipped : ∀ p, Common lists p → low ≤ p → minPos ≤ p

variable {lists wp : List (List Nat)} {low minPos i : Nat}

theorem Aligning.next {l list later : List Nat} (aligning : Aligning lists low wp minPos i) (inside : wp[i]? = some list)
    (inside' : lists[i]? = some l) (stops : skip (minPos + i) list = (minPos + i) :: later) :
    Aligning lists low (wp.set i ((minPos + i) :: later)) minPos (i + 1) := by
  have less := (List.getElem?_eq_some_iff.mp inside).1
  refine ⟨List.length_set.trans aligning.length,?_,?_,aligning.started,aligning.skipped⟩
  · intro j l' w at' set
    by_cases same : i = j
    · subst same
      rw [List.getElem?_set_self less] at set
      cases set
      rw [inside'] at at'
      cases at'
      rw [← stops]
      exact (aligning.passed i l list inside' inside).skip
    · rw [List.getElem?_set_ne same] at set
      exact aligning.passed j l' w at' set
  · intro j before
    by_cases same : i = j
    · subst same
      exact ⟨later,List.getElem?_set_self less⟩
    · rw [List.getElem?_set_ne same]
      exact aligning.matched j (by omega)

theorem Aligning.restart {l list later : List Nat} {p : Nat} (aligning : Aligning lists low wp minPos i)
    (inside : wp[i]? = some list) (inside' : lists[i]? = some l) (stops : skip (minPos + i) list = p :: later)
    (positions : Positions l) (beyond : minPos + i < p) : Aligning lists low (wp.set i (p :: later)) (p - i) 0 := by
  have less := (List.getElem?_eq_some_iff.mp inside).1
  have here := (aligning.passed i l list inside' inside).skip
  rw [stops] at here
  refine ⟨List.length_set.trans aligning.length,?_,fun j before => absurd before (Nat.not_lt_zero j),?_,?_⟩
  · intro j l' w at' set
    by_cases same : i = j
    · subst same
      rw [List.getElem?_set_self less] at set
      cases set
      rw [inside'] at at'
      cases at'
      exact here.mono (by omega)
    · rw [List.getElem?_set_ne same] at set
      exact (aligning.passed j l' w at' set).mono (by omega)
  · have := aligning.started
    omega
  · intro q common from_
    have notBelow := aligning.skipped q common from_
    have kept := here.keeps (common i l inside') (by omega)
    have := (positions.suffix here.1).first (q + i) kept
    omega

/-- What the loop over the lists says of the lists of a phrase. -/
def Aligned (lists : List (List Nat)) (low : Nat) : List (List Nat) × Option Nat → Prop
  | (_,none) => ∀ p, Common lists p → p < low
  | (wp,some minPos) => Aligning lists low wp minPos lists.length

theorem alignLists_spec (positions : ∀ l ∈ lists, Positions l) {fuel : Nat} (aligning : Aligning lists low wp minPos i)
    (inside : i ≤ lists.length) (enough : rounds (2 ^ 16) lists.length minPos i ≤ fuel) :
    ∃ result, alignLists lists.length fuel wp minPos i = some result ∧ Aligned lists low result := by
  induction fuel generalizing wp minPos i with
  | zero => simp [rounds] at enough
  | succ fuel ih =>
    rw [alignLists]
    by_cases more : i < lists.length
    · obtain ⟨list,at'⟩ : ∃ list, wp[i]? = some list := ⟨_,List.getElem?_eq_getElem (by rw [aligning.length]; exact more)⟩
      obtain ⟨l,member⟩ : ∃ l, lists[i]? = some l := ⟨_,List.getElem?_eq_getElem more⟩
      have isList := positions l (List.mem_of_getElem? member)
      have passed := (aligning.passed i l list member at').skip
      simp only [if_pos more,at']
      cases stops : skip (minPos + i) list with
      | nil =>
        refine ⟨_,rfl,fun p common => ?_⟩
        by_contra from_
        have notBelow := aligning.skipped p common (by omega)
        rw [stops] at passed
        have kept := passed.keeps (common i l member) (by omega)
        cases kept
      | cons p later =>
        have atLeast := skip_head stops
        have small : p < 2 ^ 16 := isList.2 p (passed.1.subset (by rw [stops]; exact List.mem_cons_self))
        by_cases beyond : p > minPos + i
        · have reduced : (p + 2 ^ 64 - i) % 2 ^ 16 = p - i := by omega
          simp only [if_pos beyond,reduced]
          have fewer : rounds (2 ^ 16) lists.length (p - i) 0 + 1 ≤ rounds (2 ^ 16) lists.length minPos i :=
            rounds_restart more (by omega) (by omega)
          exact ih (aligning.restart at' member stops isList beyond) (Nat.zero_le _) (by omega)
        · have equal : p = minPos + i := by omega
          subst equal
          simp only [if_neg beyond]
          have fewer := rounds_match (2 ^ 16) minPos more
          exact ih (aligning.next at' member stops) more (by omega)
    · have all : i = lists.length := by omega
      subst all
      exact ⟨_,if_neg more,aligning⟩

/-- What the outer loop keeps: the phrases below `low` are stored, in order, and no
    pointer has passed what a phrase from `low` on needs. -/
structure Storing (lists : List (List Nat)) (wp : List (List Nat)) (dp : List Nat) (low : Nat) : Prop where
  length : wp.length = lists.length
  passed : ∀ (j : Nat) l w, lists[j]? = some l → wp[j]? = some w → Passed (low + j) l w
  ahead : ∀ w, wp[0]? = some w → ∀ x ∈ w, low ≤ x
  ascending : dp.Pairwise (· < ·)
  stored : ∀ p, p ∈ dp ↔ Common lists p ∧ p < low

variable {dp : List Nat}

/-- The candidate is the first list's position. -/
theorem Storing.align {p : Nat} {later : List Nat} {others : List (List Nat)} (positions : ∀ l ∈ lists, Positions l)
    (storing : Storing lists wp dp low) (shape : wp = (p :: later) :: others) : Aligning lists low wp p 1 := by
  have first : wp[0]? = some (p :: later) := by rw [shape]; rfl
  have ahead := storing.ahead _ first
  have started := ahead p List.mem_cons_self
  refine ⟨storing.length,fun j l w at' at'' => (storing.passed j l w at' at'').mono (by omega),?_,started,?_⟩
  · intro j before
    obtain rfl : j = 0 := by omega
    exact ⟨later,first⟩
  · intro q common from_
    obtain ⟨l,member⟩ : ∃ l, lists[0]? = some l :=
      ⟨_,List.getElem?_eq_getElem (by rw [← storing.length,shape]; exact Nat.succ_pos _)⟩
    have passed := storing.passed 0 l _ member first
    have kept := passed.keeps (common 0 l member) (by omega)
    exact (positions l (List.mem_of_getElem? member)).suffix passed.1 |>.first q kept

/-- A candidate that all lists have is the next phrase. -/
theorem Storing.store {later : List Nat} {others : List (List Nat)} (positions : ∀ l ∈ lists, Positions l)
    (storing : Storing lists wp dp low) {wp' : List (List Nat)} (aligned : Aligning lists low wp' minPos lists.length)
    (shape : wp' = (minPos :: later) :: others) : Storing lists (later :: others) (dp ++ [minPos]) (minPos + 1) := by
  have length := aligned.length
  rw [shape] at length
  have isCommon : Common lists minPos := by
    intro j l member
    have inside := (List.getElem?_eq_some_iff.mp member).1
    obtain ⟨rest,held⟩ := aligned.matched j inside
    exact (aligned.passed j l _ member held).1.subset List.mem_cons_self
  have started := aligned.started
  refine ⟨length,?_,?_,?_,?_⟩
  · intro j l w member held
    cases j with
    | zero =>
      cases held
      have passed := aligned.passed 0 l (minPos :: later) member (by rw [shape]; rfl)
      refine ⟨(List.suffix_cons _ _).trans passed.1,fun x inside gone => ?_⟩
      by_cases kept : x ∈ minPos :: later
      · rcases List.mem_cons.mp kept with rfl | behind
        · omega
        · exact absurd behind gone
      · have := passed.2 x inside kept
        omega
    | succ j =>
      exact (aligned.passed (j + 1) l w member (by rw [shape]; exact held)).mono (by omega)
  · intro w held x inside
    cases held
    obtain ⟨l,member⟩ : ∃ l, lists[0]? = some l := ⟨_,List.getElem?_eq_getElem (by rw [← length]; exact Nat.succ_pos _)⟩
    have passed := aligned.passed 0 l (minPos :: later) member (by rw [shape]; rfl)
    have ascending := ((positions l (List.mem_of_getElem? member)).suffix passed.1).1
    exact (List.pairwise_cons.mp ascending).1 x inside
  · refine List.pairwise_append.mpr ⟨storing.ascending,List.pairwise_singleton _ _,fun x before y last => ?_⟩
    rw [List.mem_singleton.mp last]
    have := ((storing.stored x).mp before).2
    omega
  · intro p
    rw [List.mem_append,List.mem_singleton,storing.stored]
    constructor
    · rintro (⟨common,less⟩ | rfl)
      · exact ⟨common,by omega⟩
      · exact ⟨isCommon,by omega⟩
    · rintro ⟨common,less⟩
      by_cases before : p < low
      · exact .inl ⟨common,before⟩
      · have := aligned.skipped p common (by omega)
        exact .inr (by omega)

/-- Rounds that are enough for the loop over the lists. -/
def allRounds (numC : Nat) : Nat := (2 ^ 16 + 1) * (numC + 1) + numC + 2

theorem rounds_le (numC minPos i : Nat) : rounds (2 ^ 16) numC minPos i ≤ allRounds numC := by
  have product := Nat.mul_le_mul_right (numC + 1) (Nat.sub_le (2 ^ 16 + 1) minPos)
  rw [rounds,allRounds]
  omega

theorem findLoop_spec (positions : ∀ l ∈ lists, Positions l) (nonempty : lists ≠ []) {fuel : Nat}
    (storing : Storing lists wp dp low) (below : low ≤ 2 ^ 16)
    (enough : 2 ^ 16 - low + allRounds lists.length + 1 ≤ fuel) :
    ∃ dp', findLoop lists.length fuel wp dp = some dp' ∧ dp'.Pairwise (· < ·) ∧ ∀ p, p ∈ dp' ↔ Common lists p := by
  induction fuel generalizing wp dp low with
  | zero => omega
  | succ fuel ih =>
    have some_ := List.length_pos_of_ne_nil nonempty
    obtain ⟨l,member⟩ : ∃ l, lists[0]? = some l := ⟨_,List.getElem?_eq_getElem some_⟩
    -- all phrases are stored once none begins at or beyond `low`
    have finished : (∀ p, Common lists p → p < low) → ∀ p, p ∈ dp ↔ Common lists p := fun all p =>
      (storing.stored p).trans ⟨fun both => both.1,fun common => ⟨common,all p common⟩⟩
    cases shape : wp with
    | nil =>
      have length := storing.length
      rw [shape] at length
      exact absurd length (Nat.ne_of_lt some_)
    | cons list others =>
      have first : wp[0]? = some list := by rw [shape]; rfl
      cases list with
      | nil =>
        refine ⟨dp,rfl,storing.ascending,finished fun p common => ?_⟩
        by_contra from_
        have kept := (storing.passed 0 l [] member first).keeps (common 0 l member) (by omega)
        cases kept
      | cons p later =>
        have aligning := storing.align positions shape
        rw [shape] at aligning
        obtain ⟨result,returned,aligned⟩ := alignLists_spec positions aligning some_
          (Nat.le_trans (rounds_le lists.length p 1) (show _ ≤ fuel by omega))
        rw [findLoop]
        simp only [returned]
        rcases result with ⟨wp',_ | minPos⟩
        · exact ⟨dp,rfl,storing.ascending,finished aligned⟩
        · have aligned : Aligning lists low wp' minPos lists.length := aligned
          obtain ⟨rest,held⟩ := aligned.matched 0 some_
          rw [Nat.add_zero] at held
          cases shape' : wp' with
          | nil =>
            rw [shape'] at held
            cases held
          | cons list' others' =>
            rw [shape'] at held
            cases held
            have started := aligned.started
            have small : minPos < 2 ^ 16 := by
              have suffix := (aligned.passed 0 l (minPos :: rest) member (by rw [shape']; rfl)).1
              exact (positions l (List.mem_of_getElem? member)).2 minPos (suffix.subset List.mem_cons_self)
            exact ih (storing.store positions aligned shape') (by omega) (by omega)

theorem Storing.start (lists : List (List Nat)) : Storing lists lists [] 0 where
  length := rfl
  passed j l w member held := by
    rw [member] at held
    cases held
    exact ⟨List.suffix_refl l,fun x inside gone => absurd inside gone⟩
  ahead _ _ x _ := Nat.zero_le x
  ascending := List.Pairwise.nil
  stored p := by simp

/-- The positions of all phrases, in order, and whether there are any. -/
theorem findPhrases_spec (positions : ∀ l ∈ lists, Positions l) (nonempty : lists ≠ []) {fuel : Nat}
    (enough : 2 ^ 16 + allRounds lists.length + 1 ≤ fuel) :
    ∃ dp, findPhrases fuel lists = some (decide (0 < dp.length),dp) ∧ dp.Pairwise (· < ·) ∧
      ∀ p, p ∈ dp ↔ Common lists p := by
  obtain ⟨dp,returned,ascending,all⟩ := findLoop_spec positions nonempty (Storing.start lists) (Nat.zero_le _) enough
  exact ⟨dp,by rw [findPhrases,returned]; rfl,ascending,all⟩

/-! ## The phrase cursor -/

section
variable {σ : Type}

/-- `phrase_cursor_t`; `empty` when `ac_s_empty_cursor` has replaced its callbacks. -/
structure PhraseCursor (σ : Type) where
  cursors : List σ
  current : Nat
  positions : List Nat
  empty : Bool

/-- `ac_s_init_phrase_cursor` and a `phrase_add_to_cursor` for each sub. -/
def acSInitPhraseCursor (cursors : List σ) : PhraseCursor σ := ⟨cursors,0,[],false⟩

def acSEmptyCursor (c : PhraseCursor σ) : Nat × PhraseCursor σ := (0,{ c with current := 0, empty := true })

variable (ops : Ops σ) (between : σ → List Nat)

/-- `between` is what lies between `wp` and `ewp` of a sub. -/
def advancePhraseCursor : Nat → PhraseCursor σ → Option (Nat × PhraseCursor σ)
  | 0, _ => none
  | fuel + 1, c =>
    match c.cursors with
    | [] => none
    | first :: rest =>
      match ops.advance first with
      | none => none
      | some (id,first') =>
        match andLoop ops fuel (first' :: rest) id 1 with
        | none => none
        | some (id,cursors) =>
          if id = 0 then some (acSEmptyCursor { c with cursors := cursors })
          else
            match findPhrases fuel (cursors.map between) with
            | none => none
            | some (found,positions) =>
              if ¬ found then advancePhraseCursor fuel { c with cursors := cursors, positions := positions }
              else some (id,{ c with cursors := cursors, positions := positions, current := id })

def advancePhraseCursorTo (fuel : Nat) (c : PhraseCursor σ) (id : Nat) : Option (Nat × PhraseCursor σ) :=
  if id ≤ c.current then some (c.current,c)
  else
    match andLoop ops fuel c.cursors id 0 with
    | none => none
    | some (id,cursors) =>
      if id = 0 then some (acSEmptyCursor { c with cursors := cursors })
      else
        match findPhrases fuel (cursors.map between) with
        | none => none
        | some (found,positions) =>
          if ¬ found then advancePhraseCursor ops between fuel { c with cursors := cursors, positions := positions }
          else some (id,{ c with cursors := cursors, positions := positions, current := id })

/-- The phrase cursor as an object with callbacks. -/
def phraseOps (fuel : Nat) : Ops (PhraseCursor σ) where
  advance c := if c.empty then some (0,c) else advancePhraseCursor ops between fuel c
  advanceTo c id := if c.empty then some (0,c) else advancePhraseCursorTo ops between fuel c id
  current := PhraseCursor.current

/-- A sub: its ids, and the positions of its word in each of them. -/
abbrev Word := Finset Nat × (Nat → List Nat)

open Classical in
/-- The ids of all words at which a phrase begins. -/
noncomputable def phraseIds (words : List Word) : Finset Nat :=
  (inter (words.map Prod.fst)).filter fun id => ∃ p, Common (words.map fun word => word.2 id) p

variable {ops between}

variable (ops between) in
/-- The loop does not look at what the subs are to show. -/
theorem andLoop_data (fuel : Nat) (ds : List (σ × (Nat → List Nat))) (id i : Nat) :
    andLoop ops fuel (ds.map Prod.fst) id i =
        (andLoop (dataOps ops between) fuel ds id i).map (fun result => (result.1,result.2.map Prod.fst)) ∧
      ∀ result, andLoop (dataOps ops between) fuel ds id i = some result → result.2.map Prod.snd = ds.map Prod.snd := by
  induction fuel generalizing ds id i with
  | zero => simp [andLoop]
  | succ fuel ih =>
    rw [andLoop,andLoop,List.length_map]
    by_cases more : id ≠ 0 ∧ i < ds.length
    · simp only [if_pos more,List.getElem?_map]
      cases at' : ds[i]? with
      | none => simp
      | some d =>
        obtain ⟨c,P⟩ := d
        simp only [Option.map_some,dataOps]
        cases returned : ops.advanceTo c id with
        | none => simp
        | some result =>
          obtain ⟨id2,c'⟩ := result
          have sets : (ds.map Prod.fst).set i c' = (ds.set i (c',P)).map Prod.fst := by rw [List.map_set]
          have keeps : (ds.set i (c',P)).map Prod.snd = ds.map Prod.snd := by
            obtain ⟨inside,isD⟩ := List.getElem?_eq_some_iff.mp at'
            calc (ds.set i (c',P)).map Prod.snd = (ds.map Prod.snd).set i P := List.map_set
              _ = (ds.set i ds[i]).map Prod.snd := by rw [List.map_set,isD]
              _ = ds.map Prod.snd := by rw [List.set_getElem_self]
          simp only [Option.map_some,sets]
          by_cases same : id = id2
          · simp only [if_pos same]
            rw [← keeps]
            exact ih _ _ _
          · simp only [if_neg same]
            rw [← keeps]
            exact ih _ _ _
    · simp only [if_neg more]
      exact ⟨rfl,fun result same => by cases same; rfl⟩

variable {words : List Word}

variable (ops between words) in
/-- The subs stand on `k`, which all of them have. -/
def SubsAt (cursors : List σ) (k : Nat) : Prop :=
  List.Forall₂ (fun c word => MeetsWith ops between word.1 word.2 c (some k)) cursors words ∧
    (k ≠ 0 → ∀ word ∈ words, k ∈ word.1)

variable (ops between words) in
def PhraseAt (c : PhraseCursor σ) : Option Nat → Prop
  | none => c.empty = true
  | some k => c.empty = false ∧ c.current = k ∧ SubsAt ops between words c.cursors k

/-- The AND cursor that the loops work on. -/
theorem andAt_iff {ds : List (σ × (Nat → List Nat))} {k : Nat} (shown : ds.map Prod.snd = words.map Prod.snd) :
    AndAt (dataOps ops between) (words.map Prod.fst) ⟨ds,k,false⟩ (some k) ↔
      SubsAt ops between words (ds.map Prod.fst) k := by
  have each : List.Forall₂ (fun d word => Meets (dataOps ops between) word.1 d (some k)) ds words ↔
      List.Forall₂ (fun d word => MeetsWith ops between word.1 word.2 d.1 (some k)) ds words := by
    induction ds generalizing words with
    | nil => cases words <;> simp at shown ⊢
    | cons d ds ih =>
      cases words with
      | nil => simp at shown
      | cons word words =>
        obtain ⟨same,rest⟩ := List.cons.inj shown
        rw [List.forall₂_cons,List.forall₂_cons,meetsWith_iff,ih rest,← same]
  rw [AndAt,SubsAt,List.forall₂_map_right_iff,List.forall₂_map_left_iff,each]
  simp

/-- What the AND cursor's operations are made of. -/
theorem advanceAnd_cases {τ : Type} {ops : Ops τ} {fuel id : Nat} {c c' : AndCursor τ}
    (returned : advanceAnd ops fuel c = some (id,c')) :
    ∃ first rest id₀ first' cursors, c.cursors = first :: rest ∧ ops.advance first = some (id₀,first') ∧
      andLoop ops fuel (first' :: rest) id₀ 1 = some (id,cursors) ∧
      (id ≠ 0 → c' = { c with cursors := cursors, current := id }) := by
  rw [advanceAnd] at returned
  cases shape : c.cursors with
  | nil =>
    rw [shape] at returned
    cases returned
  | cons first rest =>
    rw [shape] at returned
    cases advanced : ops.advance first with
    | none =>
      simp only [advanced] at returned
      cases returned
    | some result =>
      obtain ⟨id₀,first'⟩ := result
      simp only [advanced,Option.map_eq_some_iff] at returned
      obtain ⟨⟨id',cursors⟩,looped,result⟩ := returned
      rw [andResult] at result
      refine ⟨first,rest,id₀,first',cursors,rfl,advanced,?_⟩
      by_cases zero : id' = 0
      · rw [if_pos zero] at result
        cases result
        subst zero
        exact ⟨looped,fun some_ => absurd rfl some_⟩
      · rw [if_neg zero] at result
        cases result
        exact ⟨looped,fun _ => rfl⟩

theorem advanceAndTo_cases {τ : Type} {ops : Ops τ} {fuel target id : Nat} {c c' : AndCursor τ}
    (beyond : ¬ target ≤ c.current) (returned : advanceAndTo ops fuel c target = some (id,c')) :
    ∃ cursors, andLoop ops fuel c.cursors target 0 = some (id,cursors) ∧
      (id ≠ 0 → c' = { c with cursors := cursors, current := id }) := by
  rw [advanceAndTo,if_neg beyond,Option.map_eq_some_iff] at returned
  obtain ⟨⟨id',cursors⟩,looped,result⟩ := returned
  rw [andResult] at result
  by_cases zero : id' = 0
  · rw [if_pos zero] at result
    cases result
    subst zero
    exact ⟨cursors,looped,fun some_ => absurd rfl some_⟩
  · rw [if_neg zero] at result
    cases result
    exact ⟨cursors,looped,fun _ => rfl⟩

/-- The subs with what they are to show, as an AND cursor sees them. -/
theorem SubsAt.andAt {cursors : List σ} {k : Nat} (at' : SubsAt ops between words cursors k) :
    ∃ ds : List (σ × (Nat → List Nat)), ds.map Prod.fst = cursors ∧ ds.map Prod.snd = words.map Prod.snd ∧
      AndAt (dataOps ops between) (words.map Prod.fst) ⟨ds,k,false⟩ (some k) := by
  have length := at'.1.length_eq
  have subs : (cursors.zip (words.map Prod.snd)).map Prod.fst = cursors := List.map_fst_zip (by simp [length])
  have shown : (cursors.zip (words.map Prod.snd)).map Prod.snd = words.map Prod.snd := List.map_snd_zip (by simp [length])
  exact ⟨_,subs,shown,(andAt_iff shown).mpr (subs.symm ▸ at')⟩

theorem andAt_found {ds : List (σ × (Nat → List Nat))} {id : Nat} {p : Option Nat} {c : AndCursor (σ × (Nat → List Nat))}
    (shown : ds.map Prod.snd = words.map Prod.snd) (positive : id ≠ 0) (stands : p = some id)
    (shape : c = ⟨ds,id,false⟩) (at' : AndAt (dataOps ops between) (words.map Prod.fst) c p) :
    SubsAt ops between words (ds.map Prod.fst) id := by
  subst shape stands
  exact (andAt_iff shown).mp at'

/-- Fuel that is enough for the loop over the subs. -/
def andFuel (words : List Word) (bound : Nat) : Nat := (bound + 1) * (words.length + 1) + words.length + 2

/-- What `advance` of the first sub and the loop find. -/
theorem SubsAt.next {bound fuel : Nat} (below : ∀ word ∈ words, ∀ x ∈ word.1, x ≤ bound) (nonempty : words ≠ [])
    (enough : andFuel words bound ≤ fuel) {cursors : List σ} {k : Nat} (at' : SubsAt ops between words cursors k) :
    ∃ first rest id first' id' cursors' p, cursors = first :: rest ∧ ops.advance first = some (id,first') ∧
      andLoop ops fuel (first' :: rest) id 1 = some (id',cursors') ∧
      Finds (inter (words.map Prod.fst)) (k + 1) id' p ∧ (id' ≠ 0 → SubsAt ops between words cursors' id') := by
  obtain ⟨ds,rfl,shown,andAt⟩ := at'.andAt
  have below' : ∀ S ∈ words.map Prod.fst, ∀ x ∈ S, x ≤ bound := by
    intro S member
    obtain ⟨word,inside,rfl⟩ := List.mem_map.mp member
    exact below word inside
  have enough' : (bound + 1) * ((words.map Prod.fst).length + 1) + (words.map Prod.fst).length + 2 ≤ fuel := by
    rw [List.length_map]
    exact enough
  obtain ⟨c',returned,at''⟩ := andAt.call below' (by simpa using nonempty) enough' .advance (fun _ => by simp)
  have finds : Finds (inter (words.map Prod.fst)) (k + 1) (answer (inter (words.map Prod.fst)) (some k) .advance).1
      (answer (inter (words.map Prod.fst)) (some k) .advance).2 := least_finds (Nat.succ_pos k)
  obtain ⟨⟨first,P⟩,rest,id₀,d',ds',shape,advanced,looped,result⟩ := advanceAnd_cases returned
  replace shape : ds = (first,P) :: rest := shape
  simp only [dataOps,Option.map_eq_some_iff] at advanced
  obtain ⟨⟨id₁,first'⟩,advanced,same⟩ := advanced
  cases same
  obtain ⟨projected,keeps⟩ := andLoop_data ops between fuel ((first',P) :: rest) id₁ 1
  rw [looped] at projected
  have shown' : ds'.map Prod.snd = words.map Prod.snd := by
    rw [← shown,shape]
    exact keeps _ looped
  refine ⟨first,rest.map Prod.fst,id₁,first',_,ds'.map Prod.fst,_,by rw [shape]; rfl,advanced,projected,finds,fun positive => ?_⟩
  rcases finds.positive (Nat.succ_pos k) with ⟨zero,_⟩ | ⟨_,stands⟩
  · exact absurd zero positive
  · exact andAt_found shown' positive stands (result positive) at''

/-- What the loop finds from a target on. -/
theorem SubsAt.seek {bound fuel : Nat} (below : ∀ word ∈ words, ∀ x ∈ word.1, x ≤ bound) (nonempty : words ≠ [])
    (enough : andFuel words bound ≤ fuel) {cursors : List σ} {k id : Nat} (at' : SubsAt ops between words cursors k)
    (beyond : k < id) :
    ∃ id' cursors' p, andLoop ops fuel cursors id 0 = some (id',cursors') ∧
      Finds (inter (words.map Prod.fst)) id id' p ∧ (id' ≠ 0 → SubsAt ops between words cursors' id') := by
  obtain ⟨ds,rfl,shown,andAt⟩ := at'.andAt
  have below' : ∀ S ∈ words.map Prod.fst, ∀ x ∈ S, x ≤ bound := by
    intro S member
    obtain ⟨word,inside,rfl⟩ := List.mem_map.mp member
    exact below word inside
  have enough' : (bound + 1) * ((words.map Prod.fst).length + 1) + (words.map Prod.fst).length + 2 ≤ fuel := by
    rw [List.length_map]
    exact enough
  obtain ⟨c',returned,at''⟩ := andAt.call below' (by simpa using nonempty) enough' (.advanceTo id)
    (fun _ same => absurd (Call.advanceTo.inj same) (by omega))
  have answers : answer (inter (words.map Prod.fst)) (some k) (.advanceTo id) = found (least (inter (words.map Prod.fst)) id) := by
    rw [answer,if_neg (fun both => absurd both.2 (Nat.not_le.mpr beyond))]
  have finds : Finds (inter (words.map Prod.fst)) id (answer (inter (words.map Prod.fst)) (some k) (.advanceTo id)).1
      (answer (inter (words.map Prod.fst)) (some k) (.advanceTo id)).2 := by
    rw [answers]
    exact least_finds (by omega)
  obtain ⟨ds',looped,result⟩ := advanceAndTo_cases (Nat.not_le.mpr beyond) returned
  obtain ⟨projected,keeps⟩ := andLoop_data ops between fuel ds id 0
  rw [looped] at projected
  have shown' : ds'.map Prod.snd = words.map Prod.snd := (keeps _ looped).trans shown
  refine ⟨_,ds'.map Prod.fst,_,projected,finds,fun positive => ?_⟩
  rcases finds.positive (by omega) with ⟨zero,_⟩ | ⟨_,stands⟩
  · exact absurd zero positive
  · exact andAt_found shown' positive stands (result positive) at''

theorem mem_phraseIds {x : Nat} : x ∈ phraseIds words ↔
    x ∈ inter (words.map Prod.fst) ∧ ∃ p, Common (words.map fun word => word.2 x) p := by
  simp only [phraseIds,Finset.mem_filter]

/-- The subs show the positions of their words at the id they stand on. -/
theorem SubsAt.shown {cursors : List σ} {id : Nat} (at' : SubsAt ops between words cursors id) (positive : id ≠ 0) :
    cursors.map between = words.map fun word => word.2 id := by
  have each := at'.1.imp fun c word meets => (meets.shows positive).2
  rw [← List.forall₂_eq_eq_eq,List.forall₂_map_left_iff,List.forall₂_map_right_iff]
  exact each

theorem SubsAt.phrases (positions : ∀ word ∈ words, ∀ x ∈ word.1, Positions (word.2 x)) (nonempty : words ≠ [])
    {fuel : Nat} (enough : 2 ^ 16 + allRounds words.length + 1 ≤ fuel) {cursors : List σ} {id : Nat}
    (at' : SubsAt ops between words cursors id) (positive : id ≠ 0) :
    ∃ dp, findPhrases fuel (cursors.map between) = some (decide (0 < dp.length),dp) ∧
      (0 < dp.length ↔ id ∈ phraseIds words) := by
  rw [at'.shown positive]
  have isPositions : ∀ l ∈ words.map (fun word => word.2 id), Positions l := by
    intro l member
    obtain ⟨word,inside,rfl⟩ := List.mem_map.mp member
    exact positions word inside id (at'.2 positive word inside)
  have enough' : 2 ^ 16 + allRounds (words.map fun word => word.2 id).length + 1 ≤ fuel := by
    rw [List.length_map]
    exact enough
  obtain ⟨dp,returned,-,stored⟩ := findPhrases_spec isPositions (by simpa using nonempty) enough'
  refine ⟨dp,returned,?_⟩
  have everywhere : id ∈ inter (words.map Prod.fst) := by
    rw [mem_inter (by simpa using nonempty)]
    intro S member
    obtain ⟨word,inside,rfl⟩ := List.mem_map.mp member
    exact at'.2 positive word inside
  rw [mem_phraseIds,and_iff_right everywhere]
  constructor
  · intro some_
    obtain ⟨p,member⟩ := List.exists_mem_of_length_pos some_
    exact ⟨p,(stored p).mp member⟩
  · rintro ⟨p,common⟩
    exact List.length_pos_of_mem ((stored p).mpr common)

theorem phraseIds_inter {x : Nat} (member : x ∈ phraseIds words) : x ∈ inter (words.map Prod.fst) :=
  (mem_phraseIds.mp member).1

theorem inter_below {bound x : Nat} (below : ∀ word ∈ words, ∀ x ∈ word.1, x ≤ bound) (nonempty : words ≠ [])
    (member : x ∈ inter (words.map Prod.fst)) : x ≤ bound := by
  obtain ⟨word,inside⟩ := List.exists_mem_of_ne_nil words nonempty
  rw [mem_inter (by simpa using nonempty)] at member
  exact below word inside x (member word.1 (List.mem_map_of_mem inside))

/-- Fuel that is enough for a round of the phrase cursor. -/
def roundFuel (words : List Word) (bound : Nat) : Nat := andFuel words bound + (2 ^ 16 + allRounds words.length + 1)

theorem advancePhraseCursor_spec {bound fuel : Nat} (positions : ∀ word ∈ words, ∀ x ∈ word.1, Positions (word.2 x))
    (below : ∀ word ∈ words, ∀ x ∈ word.1, x ≤ bound) (nonempty : words ≠ []) {c : PhraseCursor σ} {k : Nat}
    (enough : bound + 1 - k + roundFuel words bound + 1 ≤ fuel) (alive : c.empty = false)
    (at' : SubsAt ops between words c.cursors k) :
    ∃ id c' p, advancePhraseCursor ops between fuel c = some (id,c') ∧ Finds (phraseIds words) (k + 1) id p ∧
      PhraseAt ops between words c' p := by
  induction fuel generalizing c k with
  | zero => omega
  | succ fuel ih =>
    rw [roundFuel] at enough ih
    obtain ⟨first,rest,id,first',id',cursors,p,shape,advanced,looped,finds,stand⟩ := at'.next below nonempty
      (show andFuel words bound ≤ fuel by omega)
    rw [advancePhraseCursor]
    simp only [shape,advanced,looped]
    rcases finds with ⟨rfl,rfl,none⟩ | ⟨member,beyond,rfl,least⟩
    · exact ⟨_,_,_,rfl,.inl ⟨rfl,rfl,fun x inside => none x (phraseIds_inter inside)⟩,rfl⟩
    · have positive : id' ≠ 0 := by omega
      have upTo := inter_below below nonempty member
      obtain ⟨dp,looked,isPhrase⟩ := (stand positive).phrases positions nonempty
        (show 2 ^ 16 + allRounds words.length + 1 ≤ fuel by omega) positive
      simp only [if_neg positive,looked]
      by_cases found : 0 < dp.length
      · simp only [found,decide_true,not_true,if_false]
        refine ⟨_,_,_,rfl,.inr ⟨isPhrase.mp found,beyond,rfl,fun x inside from_ => ?_⟩,alive,rfl,stand positive⟩
        exact least x (phraseIds_inter inside) from_
      · simp only [found,decide_false,Bool.false_eq_true,not_false_eq_true,if_true]
        obtain ⟨id'',c',p,returned,finds,at''⟩ := ih (k := id') (c := { c with cursors := cursors, positions := dp })
          (by omega) alive (stand positive)
        refine ⟨id'',c',p,returned,finds.widen (by omega) fun x inside from_ => ?_,at''⟩
        have := least x (phraseIds_inter inside) from_
        have other : x ≠ id' := by
          rintro rfl
          exact found (isPhrase.mpr inside)
        omega

theorem advancePhraseCursorTo_spec {bound fuel : Nat} (positions : ∀ word ∈ words, ∀ x ∈ word.1, Positions (word.2 x))
    (below : ∀ word ∈ words, ∀ x ∈ word.1, x ≤ bound) (nonempty : words ≠ []) {c : PhraseCursor σ} {k id : Nat}
    (enough : bound + 1 + roundFuel words bound + 1 ≤ fuel) (alive : c.empty = false) (current : c.current = k)
    (at' : SubsAt ops between words c.cursors k) (beyond : k < id) :
    ∃ id' c' p, advancePhraseCursorTo ops between fuel c id = some (id',c') ∧ Finds (phraseIds words) id id' p ∧
      PhraseAt ops between words c' p := by
  have enough' := enough
  rw [roundFuel] at enough'
  obtain ⟨id',cursors,p,looped,finds,stand⟩ := at'.seek below nonempty (show andFuel words bound ≤ fuel by omega) beyond
  rw [advancePhraseCursorTo,if_neg (by omega)]
  simp only [looped]
  rcases finds with ⟨rfl,rfl,none⟩ | ⟨member,further,rfl,least⟩
  · exact ⟨_,_,_,rfl,.inl ⟨rfl,rfl,fun x inside => none x (phraseIds_inter inside)⟩,rfl⟩
  · have positive : id' ≠ 0 := by omega
    obtain ⟨dp,looked,isPhrase⟩ := (stand positive).phrases positions nonempty
      (show 2 ^ 16 + allRounds words.length + 1 ≤ fuel by omega) positive
    simp only [if_neg positive,looked]
    by_cases found : 0 < dp.length
    · simp only [found,decide_true,not_true,if_false]
      refine ⟨_,_,_,rfl,.inr ⟨isPhrase.mp found,further,rfl,fun x inside from_ => ?_⟩,alive,rfl,stand positive⟩
      exact least x (phraseIds_inter inside) from_
    · simp only [found,decide_false,Bool.false_eq_true,not_false_eq_true,if_true]
      obtain ⟨id'',c',p,returned,finds,at''⟩ := advancePhraseCursor_spec positions below nonempty
        (c := { c with cursors := cursors, positions := dp }) (show bound + 1 - id' + roundFuel words bound + 1 ≤ fuel by omega)
        alive (stand positive)
      refine ⟨id'',c',p,returned,finds.widen (by omega) fun x inside from_ => ?_,at''⟩
      have := least x (phraseIds_inter inside) from_
      have other : x ≠ id' := by
        rintro rfl
        exact found (isPhrase.mpr inside)
      omega

/-- The phrase cursor of some words is a cursor of the ids with a phrase. -/
theorem phrase_meets {cursors : List σ} (nonempty : cursors ≠ [])
    (positions : ∀ word ∈ words, ∀ x ∈ word.1, Positions (word.2 x))
    (subs : List.Forall₂ (fun c word => MeetsWith ops between word.1 word.2 c (some 0)) cursors words) :
    ∃ enough, ∀ fuel, enough ≤ fuel →
      Meets (phraseOps ops between fuel) (phraseIds words) (acSInitPhraseCursor cursors) (some 0) := by
  obtain ⟨bound,below⟩ := bounded (words.map Prod.fst)
  have below' : ∀ word ∈ words, ∀ x ∈ word.1, x ≤ bound := fun word member => below _ (List.mem_map_of_mem member)
  have some_ : words ≠ [] := by
    rintro rfl
    exact nonempty (List.length_eq_zero_iff.mp subs.length_eq)
  refine ⟨bound + 1 + roundFuel words bound + 1,fun fuel enough => ?_⟩
  refine meets_of (R := PhraseAt ops between words) (fun c k at' _ => at'.2.1) ?_
    ⟨rfl,rfl,subs,fun zero => absurd rfl zero⟩
  rintro c (_ | k) call proper at'
  · have empty : c.empty = true := at'
    refine ⟨c,?_,empty⟩
    cases call <;> exact if_pos empty
  · obtain ⟨alive,current,stand⟩ := at'
    have alive' : ¬ c.empty = true := by simp [alive]
    cases call with
    | advance =>
      have enough' : bound + 1 - k + roundFuel words bound + 1 ≤ fuel := by omega
      obtain ⟨id,c',p,returned,finds,at''⟩ := advancePhraseCursor_spec positions below' some_ enough' alive stand
      have spec := finds.found (Nat.succ_pos k)
      refine ⟨c',?_,?_⟩
      · rw [Ops.call,phraseOps,answer,spec]
        simp only [if_neg alive',returned]
      · rw [answer,spec]
        exact at''
    | advanceTo id =>
      by_cases reached : id ≤ k
      · have both := stands proper reached
        refine ⟨c,?_,?_⟩
        · rw [Ops.call,phraseOps,answer,if_pos both]
          simp only [if_neg alive',advancePhraseCursorTo,current,if_pos reached]
        · rw [answer,if_pos both]
          exact ⟨alive,current,stand⟩
      · have both : ¬ (k ≠ 0 ∧ id ≤ k) := fun both => reached both.2
        obtain ⟨id',c',p,returned,finds,at''⟩ := advancePhraseCursorTo_spec positions below' some_ enough alive current stand
          (Nat.not_le.mp reached)
        have spec := finds.found (by omega)
        refine ⟨c',?_,?_⟩
        · rw [Ops.call,phraseOps,answer,if_neg both,spec]
          simp only [if_neg alive',returned]
        · rw [answer,if_neg both,spec]
          exact at''

end

/-- Phrases are found exactly: by `find_phrases` in the lists of positions, and by the
    phrase cursor in the ids. -/
theorem phrase_exact :
    (∀ lists : List (List Nat), lists ≠ [] → (∀ l ∈ lists, Positions l) →
      ∃ enough, ∀ fuel, enough ≤ fuel → ∃ found dp, findPhrases fuel lists = some (found,dp) ∧
        dp.Pairwise (· < ·) ∧ (∀ p, p ∈ dp ↔ Common lists p) ∧ (found = true ↔ ∃ p, Common lists p)) ∧
    ∀ (σ : Type) (ops : Ops σ) (between : σ → List Nat) (cursors : List σ) (words : List Word), cursors ≠ [] →
      (∀ word ∈ words, ∀ x ∈ word.1, Positions (word.2 x)) →
      List.Forall₂ (fun c word => MeetsWith ops between word.1 word.2 c (some 0)) cursors words →
      ∃ enough, ∀ fuel, enough ≤ fuel → ∀ calls,
        Answers (phraseOps ops between fuel) (phraseIds words) (acSInitPhraseCursor cursors) (.advance :: calls) := by
  constructor
  · intro lists nonempty positions
    refine ⟨2 ^ 16 + allRounds lists.length + 1,fun fuel enough => ?_⟩
    obtain ⟨dp,returned,ascending,stored⟩ := findPhrases_spec positions nonempty enough
    refine ⟨_,dp,returned,ascending,stored,?_⟩
    rw [decide_eq_true_eq]
    constructor
    · intro some_
      obtain ⟨p,member⟩ := List.exists_mem_of_length_pos some_
      exact ⟨p,(stored p).mp member⟩
    · rintro ⟨p,common⟩
      exact List.length_pos_of_mem ((stored p).mpr common)
  · intro σ ops between cursors words nonempty positions subs
    obtain ⟨enough,meets⟩ := phrase_meets nonempty positions subs
    exact ⟨enough,fun fuel more => (meets fuel more).answers⟩

/-- Two lists, and two words that stand next to each other in one id. -/
theorem phrase_exact_run :
    (∃ enough, ∀ fuel, enough ≤ fuel → ∃ found dp, findPhrases fuel [[1,5],[2,9]] = some (found,dp) ∧
      dp.Pairwise (· < ·) ∧ (∀ p, p ∈ dp ↔ Common [[1,5],[2,9]] p) ∧ (found = true ↔ ∃ p, Common [[1,5],[2,9]] p)) ∧
    ∃ enough, ∀ fuel, enough ≤ fuel → ∀ calls,
      Answers (phraseOps setOps (fun _ => [4,5]) fuel) (phraseIds [({3,8},fun _ => [4,5]),({8},fun _ => [4,5])])
        (acSInitPhraseCursor [({3,8},some 0),({8},some 0)]) (.advance :: calls) := by
  have isPositions : Positions [4,5] := ⟨by decide,by decide⟩
  refine ⟨phrase_exact.1 [[1,5],[2,9]] (by decide) ?_,phrase_exact.2 _ setOps _ _ _ (by simp) ?_ ?_⟩
  · intro l member
    rcases List.mem_cons.mp member with rfl | rest
    · exact ⟨by decide,by decide⟩
    · rw [List.mem_singleton.mp rest]
      exact ⟨by decide,by decide⟩
  · intro word member x _
    rcases List.mem_cons.mp member with rfl | rest
    · exact isPositions
    · rw [List.mem_singleton.mp rest]
      exact isPositions
  · exact .cons (setOps_meetsWith {3,8} (fun _ => [4,5]) (some 0))
      (.cons (setOps_meetsWith {8} (fun _ => [4,5]) (some 0)) .nil)

end AnotherC.Phrase
