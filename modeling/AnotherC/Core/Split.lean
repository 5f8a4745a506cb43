import AnotherC.Core.PoolTokenize

/-!
# `_ac_split_d` and `_ac_split2_d`

Both return one block of the heap: the pointers first, and behind them a copy of the string that
is cut in place. The block is as large as the first pass says; the second pass writes a pointer
to the first piece before it looks whether there is one.
-/
namespace AnotherC.Split
open AnotherC.PoolCells
open AnotherC.PoolTokenize (tokens tokens_run tokens_last tokens_skip)
open AnotherC.Lib.Text
open AnotherC.Lib.Steps
open AnotherC.Lib.InPlace
set_option linter.unusedVariables false

/-! ## The code -/

/-- How many bytes from here on a loop skips that goes on while `p` holds. -/
def skip (p : UInt8 → Bool) : List UInt8 → Option Nat
  | [] => none
  | c :: rest => if p c then (skip p rest).map (· + 1) else some 0

/-- The first pass with `p` and `num`, and the second with `sp` and the cells in front of `wr`. -/
inductive Pass where
  | count (p num : Nat)
  | fill (num sp : Nat) (r : List Nat)
deriving Repr, DecidableEq

/-- The string, and from the second pass on its copy. -/
structure State where
  bytes : List UInt8
  pass : Pass
deriving Repr, DecidableEq

/-- What is allocated for `num` pieces of a string of `len` bytes, in `size_t`. -/
def blockSize (num len : Nat) : Nat := (8 * (num + 1) + len + 1) % 2 ^ 64

/-- A piece counts when the string does not end behind a delimiter: `s[0] != 0 && p[-1] != delim`. -/
def counted (delim : UInt8) (bytes : List UInt8) (p num : Nat) : Nat :=
  if bytes[0]? ≠ some 0 ∧ bytes[p - 1]? ≠ some delim then num + 1 else num

/-- The block of `num + 1` pointers with the string behind them, by `strcpy`, and the first
    pointer; a copy that ends behind the block is undefined. -/
def allocate (num p : Nat) (bytes : List UInt8) : Option (Next State Split) :=
  if 8 * (num + 1) + (p + 1) ≤ blockSize num p then some (.goto ⟨bytes,.fill num 0 [0]⟩) else none

/-- `*wr = NULL`. A cell behind the `num + 1` of the array is none of the array's, and is not
    inside the block either where fewer than eight bytes stand behind the array. -/
def ends (bytes : List UInt8) (num : Nat) (r : List Nat) : Option (Next State Split) :=
  if r.length < num + 1 then some (.returned ⟨num,r.map some ++ [none],bytes⟩) else none

/-- The two passes; behind a delimiter, the bytes are skipped for which `skips` holds. -/
def step (skips : UInt8 → Bool) (delim : UInt8) (state : State) : Option (Next State Split) :=
  match state.pass with
  | .count p num => do
    let c ← state.bytes[p]?
    if c = 0 then allocate (counted delim state.bytes p num) p state.bytes
    else if c = delim then do
      let skipped ← skip skips (state.bytes.drop (p + 1))
      some (.goto ⟨state.bytes,.count (p + 1 + skipped) (num + 1)⟩)
    else some (.goto ⟨state.bytes,.count (p + 1) num⟩)
  | .fill num sp r => do
    let c ← state.bytes[sp]?
    if c = 0 then ends state.bytes num r
    else if c = delim then do
      let bytes ← write state.bytes sp 0
      let skipped ← skip skips (bytes.drop (sp + 1))
      let d ← bytes[sp + 1 + skipped]?
      if d = 0 then ends bytes num r
      else if r.length < num + 1 then some (.goto ⟨bytes,.fill num (sp + 1 + skipped) (r ++ [sp + 1 + skipped])⟩) else none
    else some (.goto ⟨state.bytes,.fill num (sp + 1) r⟩)

/-- `*p == delim`, in the loops of `_ac_split2_d`. -/
def isDelim (delim c : UInt8) : Bool := c = delim

/-- `_ac_split_d`, for as many steps: behind a delimiter nothing is skipped. -/
def acSplit (fuel : Nat) (delim : UInt8) (s : Text) : Option (Next State Split) :=
  run (step (fun _ => false) delim) fuel ⟨s ++ [0],.count 0 0⟩

/-- `_ac_split2_d`, for as many steps; the inner `none` is the NULL that is returned when only
    delimiters stand in the string. -/
def acSplit2 (fuel : Nat) (delim : UInt8) (s : Text) : Option (Option (Next State Split)) := do
  let p ← skip (isDelim delim) (s ++ [0])
  let c ← (s ++ [0])[p]?
  if c = 0 then some none
  else (run (step (isDelim delim) delim) fuel ⟨(s ++ [0]).drop p,.count 0 0⟩).map some

/-! ## Pieces and runs -/

/-- Without an empty piece at the end. -/
def trimmed (l : List Text) : List Text := if l.getLast? = some [] then l.dropLast else l

/-- The pieces between the delimiters, without a final empty one. -/
def piecesOf (delim : UInt8) (s : Text) : List Text := trimmed (s.splitOnP (isDelim delim))

/-- The maximal runs of bytes that are not the delimiter. -/
def runsOf (delim : UInt8) (s : Text) : List Text := tokens (isDelim delim) s

theorem isDelim_iff {delim c : UInt8} : isDelim delim c = true ↔ c = delim := decide_eq_true_iff

theorem isDelim_self (delim : UInt8) : isDelim delim delim = true := isDelim_iff.mpr rfl

theorem plain_of_ne {delim c : UInt8} (other : c ≠ delim) : isDelim delim c = false := decide_eq_false other

theorem trimmed_cons (w : Text) {l : List Text} (filled : l ≠ []) : trimmed (w :: l) = w :: trimmed l := by
  obtain ⟨v,l,rfl⟩ := List.exists_cons_of_ne_nil filled
  rw [trimmed,trimmed,List.getLast?_cons_cons,List.dropLast_cons_cons]
  split <;> rfl

section
variable {delim : UInt8} {w : Text}

theorem pieces_last (filled : w ≠ []) (plain : ∀ c ∈ w, isDelim delim c = false) : piecesOf delim w = [w] := by
  rw [piecesOf,List.splitOnP_eq_singleton plain,trimmed,List.getLast?_singleton,if_neg]
  exact fun same => filled (Option.some.inj same)

theorem pieces_closed (plain : ∀ c ∈ w, isDelim delim c = false) : piecesOf delim (w ++ [delim]) = [w] := by
  rw [piecesOf,List.splitOnP_append_cons_of_forall_mem plain delim (isDelim_self delim)]
  rfl

theorem pieces_more (plain : ∀ c ∈ w, isDelim delim c = false) {s : Text} (filled : s ≠ []) :
    piecesOf delim (w ++ delim :: s) = w :: piecesOf delim s := by
  rw [piecesOf,List.splitOnP_append_cons_of_forall_mem plain delim (isDelim_self delim),trimmed_cons w (List.splitOnP_ne_nil _ _)]
  rfl

/-- There are no more runs than pieces. -/
theorem runs_pieces (delim : UInt8) (s : Text) : (runsOf delim s).length ≤ (piecesOf delim s).length := by
  have shorter : ∀ l : List Text, (l.filter (· ≠ [])).length ≤ (trimmed l).length := by
    intro l
    rw [trimmed]
    split
    case isTrue last =>
      obtain ⟨front,rfl⟩ := List.getLast?_eq_some_iff.mp last
      rw [List.filter_append,List.dropLast_concat]
      simpa using List.length_filter_le _ front
    case isFalse => exact List.length_filter_le _ l
  exact shorter _

end

/-! ## Both passes -/

section
variable {skips : UInt8 → Bool} {delim : UInt8} {bytes : List UInt8}

theorem skipped (noZero : skips 0 = false) (s : Text) (left : List UInt8) : skip skips (s ++ 0 :: left) = some (s.takeWhile skips).length := by
  induction s with
  | nil => simp [skip,noZero]
  | cons c s ih =>
    rw [List.cons_append,skip,List.takeWhile_cons]
    cases skips c with
    | true => simp [ih]
    | false => rfl

/-- What stands behind the bytes that are skipped. -/
theorem behind_skipped (skips : UInt8 → Bool) {p : Nat} {s : Text} (here : bytes.drop p = s ++ [0]) :
    bytes.drop (p + (s.takeWhile skips).length) = s.dropWhile skips ++ [0] := by
  rw [← List.drop_drop,here]
  have split : s.takeWhile skips ++ s.dropWhile skips = s := List.takeWhile_append_dropWhile
  calc (s ++ [0]).drop (s.takeWhile skips).length
      = (s.takeWhile skips ++ (s.dropWhile skips ++ [0])).drop (s.takeWhile skips).length := by
        rw [← List.append_assoc,split]
    _ = s.dropWhile skips ++ [0] := List.drop_left

/-- How both passes walk: the pieces in `s`, of which the first one begins with `w`. The string
    ends behind a byte of a piece, or behind a delimiter and what is skipped. -/
inductive Walk (skips : UInt8 → Bool) (delim : UInt8) : Text → Text → List Text → Prop
  | ended {w : Text} (filled : w ≠ []) : Walk skips delim w [] [w]
  | byte {c : UInt8} {w s : Text} {ts : List Text} (plain : c ≠ delim) (walk : Walk skips delim (w ++ [c]) s ts) : Walk skips delim w (c :: s) ts
  | last {w s : Text} (nothing : s.dropWhile skips = []) : Walk skips delim w (delim :: s) [w]
  | more {e : UInt8} {w s rest : Text} {ts : List Text} (shape : s.dropWhile skips = e :: rest) (walk : Walk skips delim [] (e :: rest) ts) :
    Walk skips delim w (delim :: s) (w :: ts)

/-- Nothing is skipped: the pieces. -/
theorem walks_pieces (delim : UInt8) (w s : Text) (plain : ∀ c ∈ w, isDelim delim c = false) (filled : w ++ s ≠ []) :
    Walk (fun _ => false) delim w s (piecesOf delim (w ++ s)) := by
  induction s generalizing w with
  | nil =>
    rw [List.append_nil] at filled ⊢
    rw [pieces_last filled plain]
    exact .ended filled
  | cons c s ih =>
    by_cases same : c = delim
    · subst same
      cases s with
      | nil =>
        rw [pieces_closed plain]
        exact .last rfl
      | cons e rest =>
        rw [pieces_more plain (List.cons_ne_nil e rest)]
        exact .more rfl (ih [] (List.forall_mem_nil _) (List.cons_ne_nil e rest))
    · have whole : w ++ c :: s = w ++ [c] ++ s := by simp
      rw [whole] at filled ⊢
      refine .byte same (ih (w ++ [c]) ?_ filled)
      intro e inside
      rcases List.mem_append.mp inside with inside | last
      · exact plain e inside
      · rw [List.mem_singleton.mp last]
        exact plain_of_ne same

/-- The delimiters are skipped: the runs. A run has begun, or begins with the next byte. -/
theorem walks_runs (delim : UInt8) (n : Nat) (w s : Text) (long : s.length ≤ n) (plain : ∀ c ∈ w, isDelim delim c = false)
    (begun : ∃ c rest, w ++ s = c :: rest ∧ c ≠ delim) : Walk (isDelim delim) delim w s (runsOf delim (w ++ s)) := by
  induction n generalizing w s with
  | zero =>
    obtain rfl := List.eq_nil_of_length_eq_zero (Nat.le_zero.mp long)
    obtain ⟨c,rest,whole,-⟩ := begun
    have filled : w ≠ [] := by
      rw [← List.append_nil w,whole]
      exact List.cons_ne_nil c rest
    rw [List.append_nil,runsOf,tokens_last filled plain]
    exact .ended filled
  | succ n ih =>
    cases s with
    | nil => exact ih w [] (Nat.zero_le n) plain begun
    | cons c s =>
      have shorter : s.length ≤ n := Nat.le_of_succ_le_succ long
      by_cases same : c = delim
      · subst same
        have filled : w ≠ [] := by
          rintro rfl
          obtain ⟨e,rest,whole,other⟩ := begun
          exact other (List.cons.inj whole).1.symm
        rw [runsOf,tokens_run filled plain (isDelim_self c),← tokens_skip s]
        cases shape : s.dropWhile (isDelim c) with
        | nil => exact .last shape
        | cons e rest =>
          have within : (e :: rest).length ≤ n := by
            rw [← shape]
            exact (List.dropWhile_suffix _).length_le.trans shorter
          have first := List.head?_dropWhile_not (isDelim c) s
          rw [shape,List.head?_cons] at first
          have other : e ≠ c := fun same => by simp [same,isDelim_self] at first
          exact .more shape (ih [] (e :: rest) within (List.forall_mem_nil _) ⟨e,rest,rfl,other⟩)
      · have whole : w ++ c :: s = w ++ [c] ++ s := by simp
        rw [whole] at begun ⊢
        refine .byte same (ih (w ++ [c]) s shorter ?_ begun)
        intro e inside
        rcases List.mem_append.mp inside with inside | last
        · exact plain e inside
        · rw [List.mem_singleton.mp last]
          exact plain_of_ne same

/-- What the test of `p[-1]` finds where a piece has begun. -/
def Behind (delim : UInt8) (bytes : List UInt8) (p : Nat) (w : Text) : Prop := w ≠ [] → bytes[p - 1]? ≠ some delim

/-- Only the delimiter is skipped, and not the NUL unless that is the delimiter. -/
structure Fit (skips : UInt8 → Bool) (delim : UInt8) : Prop where
  noZero : delim ≠ 0 → skips 0 = false
  only : ∀ c, skips c = true → c = delim

theorem count_byte {c : UInt8} {rest : List UInt8} (notZero : c ≠ 0) (other : c ≠ delim) {p : Nat} (here : bytes.drop p = c :: rest) (num : Nat) :
    step skips delim ⟨bytes,.count p num⟩ = some (.goto ⟨bytes,.count (p + 1) num⟩) := by
  obtain ⟨isByte,-⟩ := read_cons here
  simp only [step,isByte,Option.bind_eq_bind,Option.bind_some,notZero,other,if_false]

theorem count_delim (noZero : skips 0 = false) (notZero : delim ≠ 0) {s : Text} {p : Nat} (here : bytes.drop p = delim :: (s ++ [0])) (num : Nat) :
    step skips delim ⟨bytes,.count p num⟩ = some (.goto ⟨bytes,.count (p + 1 + (s.takeWhile skips).length) (num + 1)⟩) := by
  obtain ⟨isByte,behind⟩ := read_cons here
  simp only [step,isByte,behind,skipped noZero,Option.bind_eq_bind,Option.bind_some,notZero,if_false,if_true]

/-- Behind the delimiters that end the string, `p[-1]` is one. -/
theorem last_delim (only : ∀ c, skips c = true → c = delim) {s : Text} (nothing : s.dropWhile skips = []) {p : Nat}
    (here : bytes.drop p = delim :: (s ++ [0])) : bytes[p + 1 + s.length - 1]? = some delim := by
  have same : p + 1 + s.length - 1 = p + s.length := by omega
  have all : ∀ c ∈ delim :: s, c = delim := by
    intro c inside
    cases List.mem_cons.mp inside with
    | inl same => exact same
    | inr inside => exact only c (List.dropWhile_eq_nil_iff.mp nothing c inside)
  have here' : bytes.drop p = (delim :: s) ++ [0] := here
  rw [same,← List.getElem?_drop,here',List.getElem?_append_left (Nat.lt_succ_self _)]
  have found := List.getElem?_eq_getElem (l := delim :: s) (Nat.lt_succ_self s.length)
  rw [found,all _ (List.getElem_mem _)]

/-- The first pass counts the pieces. -/
theorem count_run (fit : Fit skips delim) {w s : Text} {ts : List Text} (walk : Walk skips delim w s ts) (free : 0 ∉ s)
    (first : bytes[0]? ≠ some 0) {p : Nat} (here : bytes.drop p = s ++ [0]) (behind : Behind delim bytes p w) (num : Nat) :
    ∃ last, Reaches (step skips delim) ⟨bytes,.count p num⟩ ⟨bytes,.count (p + s.length) last⟩ ∧
      counted delim bytes (p + s.length) last = num + ts.length := by
  induction walk generalizing p num with
  | @ended w filled =>
    refine ⟨num,Reaches.refl ..,?_⟩
    rw [counted,if_pos ⟨first,behind filled⟩]
    rfl
  | @byte c w s ts plain walk ih =>
    have notZero : c ≠ 0 := fun zero => free (zero ▸ List.mem_cons_self)
    obtain ⟨isByte,later⟩ := read_cons here
    have piece : Behind delim bytes (p + 1) (w ++ [c]) := by
      intro _ same
      rw [Nat.add_sub_cancel,isByte] at same
      exact plain (Option.some.inj same)
    obtain ⟨last,reaches,count⟩ := ih (fun inside => free (List.mem_cons_of_mem _ inside)) later piece num
    have moved : p + (c :: s).length = p + 1 + s.length := by
      rw [List.length_cons]
      omega
    rw [moved]
    exact ⟨last,Reaches.after (count_byte notZero plain here num) reaches,count⟩
  | @last w s nothing =>
    have notZero : delim ≠ 0 := fun zero => free (zero ▸ List.mem_cons_self)
    have all : s.takeWhile skips = s := by
      have split : s.takeWhile skips ++ s.dropWhile skips = s := List.takeWhile_append_dropWhile
      rw [nothing,List.append_nil] at split
      exact split
    have stepped := count_delim (fit.noZero notZero) notZero here num
    rw [all] at stepped
    have moved : p + (delim :: s).length = p + 1 + s.length := by
      rw [List.length_cons]
      omega
    rw [moved]
    refine ⟨num + 1,Reaches.after stepped (Reaches.refl ..),?_⟩
    rw [counted,if_neg]
    · rfl
    · rintro ⟨-,other⟩
      exact other (last_delim fit.only nothing here)
  | @more e w s rest ts shape walk ih =>
    have notZero : delim ≠ 0 := fun zero => free (zero ▸ List.mem_cons_self)
    have within : ∀ d ∈ e :: rest, d ∈ s := by
      rw [← shape]
      exact fun d inside => (List.dropWhile_suffix _).subset inside
    have later := behind_skipped skips (read_cons here).2
    rw [shape] at later
    obtain ⟨last,reaches,count⟩ := ih (fun inside => free (List.mem_cons_of_mem _ (within 0 inside))) later (fun filled => absurd rfl filled) (num + 1)
    have length : (s.takeWhile skips).length + (e :: rest).length = s.length := by
      rw [← shape,← List.length_append,List.takeWhile_append_dropWhile]
    have moved : p + (delim :: s).length = p + 1 + (s.takeWhile skips).length + (e :: rest).length := by
      rw [List.length_cons,← length]
      omega
    rw [moved]
    refine ⟨last,Reaches.after (count_delim (fit.noZero notZero) notZero here num) reaches,?_⟩
    rw [count,List.length_cons]
    omega

variable {num : Nat} {front : List UInt8} {ps : List Nat}

/-- The copy in the second pass: the pieces that are done, what was read of the current one, and
    what is still to be read. -/
def filling (num : Nat) (front w rest : List UInt8) (ps : List Nat) : State :=
  ⟨front ++ w ++ rest,.fill num (front.length + w.length) (ps ++ [front.length])⟩

theorem ends_room (room : ps.length < num) (bytes : List UInt8) : ends bytes num (ps ++ [front.length]) =
    some (.returned ⟨num,(ps ++ [front.length]).map some ++ [none],bytes⟩) := if_pos (cells room front.length)

theorem fill_end (room : ps.length < num) (w : Text) : step skips delim (filling num front w [0] ps) =
    some (.returned ⟨num,(ps ++ [front.length]).map some ++ [none],front ++ w ++ [0]⟩) := by
  simp only [step,filling,read_word,Option.bind_eq_bind,Option.bind_some,if_true,ends_room room]

theorem fill_byte {c : UInt8} (notZero : c ≠ 0) (other : c ≠ delim) (w : Text) (rest : List UInt8) :
    step skips delim (filling num front w (c :: rest) ps) = some (.goto (filling num front (w ++ [c]) rest ps)) := by
  have bytes : front ++ (w ++ [c]) ++ rest = front ++ w ++ c :: rest := by simp
  have moved : front.length + (w ++ [c]).length = front.length + w.length + 1 := by rw [List.length_append,List.length_singleton,Nat.add_assoc]
  simp only [step,filling,read_word,Option.bind_eq_bind,Option.bind_some,other,if_false,notZero,bytes,moved]

section
variable (fit : Fit skips delim) (notZero : delim ≠ 0) {s : Text} (w : Text)
include fit notZero

/-- The delimiter behind the last piece is overwritten. -/
theorem fill_last (nothing : s.dropWhile skips = []) (room : ps.length < num) :
    step skips delim (filling num front w (delim :: (s ++ [0])) ps) =
      some (.returned ⟨num,(ps ++ [front.length]).map some ++ [none],front ++ w ++ 0 :: (s ++ [0])⟩) := by
  have behind : (front ++ w ++ 0 :: (s ++ [0])).drop (front.length + w.length + 1) = s ++ [0] :=
    (read_cons (drop_word front w (0 :: (s ++ [0])))).2
  have later := behind_skipped skips behind
  rw [nothing] at later
  obtain ⟨isZero,-⟩ := read_cons later
  simp only [step,filling,read_word,Option.bind_eq_bind,Option.bind_some,notZero,if_false,if_true,write_word,behind,skipped (fit.noZero notZero),
    isZero,ends_room room]

/-- The delimiter behind a piece is overwritten, and the next piece begins behind what is skipped. -/
theorem fill_more {e : UInt8} {rest : Text} (shape : s.dropWhile skips = e :: rest) (filled : e ≠ 0) (room : ps.length < num) :
    step skips delim (filling num front w (delim :: (s ++ [0])) ps) =
      some (.goto (filling num (front ++ w ++ 0 :: s.takeWhile skips) [] (e :: (rest ++ [0])) (ps ++ [front.length]))) := by
  have behind : (front ++ w ++ 0 :: (s ++ [0])).drop (front.length + w.length + 1) = s ++ [0] :=
    (read_cons (drop_word front w (0 :: (s ++ [0])))).2
  have later := behind_skipped skips behind
  rw [shape] at later
  obtain ⟨isNext,-⟩ := read_cons later
  have split : s = s.takeWhile skips ++ e :: rest := by rw [← shape,List.takeWhile_append_dropWhile]
  have bytes : front ++ w ++ 0 :: (s ++ [0]) = front ++ w ++ 0 :: s.takeWhile skips ++ [] ++ e :: (rest ++ [0]) := by
    conv_lhs => rw [split]
    simp
  have moved : (front ++ w ++ 0 :: s.takeWhile skips).length = front.length + w.length + 1 + (s.takeWhile skips).length := by
    simp only [List.length_append,List.length_cons]
    omega
  simp only [step,filling,read_word,Option.bind_eq_bind,Option.bind_some,notZero,if_true,write_word,behind,skipped (fit.noZero notZero),isNext,filled,
    if_false,cells room front.length,moved,List.length_nil,Nat.add_zero,← bytes]

end

/-- The second pass cuts the pieces. -/
theorem fill_run (fit : Fit skips delim) {w s : Text} {ts : List Text} (walk : Walk skips delim w s ts) (free : 0 ∉ s) (clean : 0 ∉ w)
    (front : List UInt8) (ps : List Nat) : Fills (step skips delim) num front ps (filling num front w (s ++ [0]) ps) ts := by
  induction walk generalizing front ps with
  | @ended w filled => exact Fills.last clean fun room => fill_end room w
  | @byte c w s ts plain walk ih =>
    have notZero : c ≠ 0 := fun zero => free (zero ▸ List.mem_cons_self)
    refine Fills.after (fill_byte notZero plain w _) (ih (fun inside => free (List.mem_cons_of_mem _ inside)) ?_ front ps)
    intro inside
    rcases List.mem_append.mp inside with inW | isC
    · exact clean inW
    · exact notZero (List.mem_singleton.mp isC).symm
  | @last w s nothing =>
    have notZero : delim ≠ 0 := fun zero => free (zero ▸ List.mem_cons_self)
    exact Fills.last clean fun room => fill_last fit notZero w nothing room
  | @more e w s rest ts shape walk ih =>
    have notZero : delim ≠ 0 := fun zero => free (zero ▸ List.mem_cons_self)
    have within : ∀ d ∈ e :: rest, d ∈ s := by
      rw [← shape]
      exact fun d inside => (List.dropWhile_suffix _).subset inside
    have filled : e ≠ 0 := fun zero => free (List.mem_cons_of_mem _ (zero ▸ within e List.mem_cons_self))
    exact Fills.more clean (fill_more fit notZero w shape filled)
      (ih (fun inside => free (List.mem_cons_of_mem _ (within 0 inside))) List.not_mem_nil _ _)

/-! ## The block -/

/-- The size of the block for `num` pieces does not wrap. -/
def Fits (num len : Nat) : Prop := 8 * (num + 1) + len + 1 < 2 ^ 64

theorem allocate_fits {num len : Nat} (fits : Fits num len) (bytes : List UInt8) :
    allocate num len bytes = some (.goto ⟨bytes,.fill num 0 [0]⟩) := by
  rw [allocate,if_pos]
  rw [blockSize,Nat.mod_eq_of_lt fits,Nat.add_assoc]

theorem allocate_wraps {num len : Nat} (wraps : ¬ Fits num len) (bytes : List UInt8) : allocate num len bytes = none := by
  rw [allocate,if_neg]
  have small : blockSize num len < 2 ^ 64 := Nat.mod_lt _ (Nat.two_pow_pos 64)
  rw [Fits] at wraps
  omega

theorem count_end {p num : Nat} (here : bytes.drop p = [0]) :
    step skips delim ⟨bytes,.count p num⟩ = allocate (counted delim bytes p num) p bytes := by
  obtain ⟨isZero,-⟩ := read_cons here
  simp only [step,isZero,Option.bind_eq_bind,Option.bind_some,if_true]

variable {s : Text} {ts : List Text}

/-- The first pass, up to the allocation. -/
theorem first_pass (fit : Fit skips delim) (walk : Walk skips delim [] s ts) (free : 0 ∉ s) (filled : s ≠ []) :
    ∃ last, Reaches (step skips delim) ⟨s ++ [0],.count 0 0⟩ ⟨s ++ [0],.count s.length last⟩ ∧
      step skips delim ⟨s ++ [0],.count s.length last⟩ = allocate ts.length s.length (s ++ [0]) := by
  have first : (s ++ [0])[0]? ≠ some 0 := by
    cases s with
    | nil => exact absurd rfl filled
    | cons c s =>
      intro same
      exact free (List.mem_cons.mpr (.inl (Option.some.inj same).symm))
  obtain ⟨last,reaches,count⟩ := count_run fit walk free first (p := 0) rfl (fun absent => absurd rfl absent) 0
  rw [Nat.zero_add] at reaches count
  rw [Nat.zero_add] at count
  refine ⟨last,reaches,?_⟩
  rw [count_end List.drop_left,count]

/-- Both passes: as many cells as pieces. -/
theorem split_runs (fit : Fit skips delim) (walk : Walk skips delim [] s ts) (free : 0 ∉ s) (filled : s ≠ [])
    (fits : Fits ts.length s.length) : ∃ ps bytes,
    Returns (step skips delim) ⟨s ++ [0],.count 0 0⟩ ⟨ts.length,ps.map some ++ [none],bytes⟩ ∧ List.Forall₂ (Cut bytes) ps ts := by
  obtain ⟨last,reaches,allocates⟩ := first_pass fit walk free filled
  rw [allocate_fits fits] at allocates
  have cut : Fills (step skips delim) ts.length [] [] (filling ts.length [] [] (s ++ [0]) []) ts :=
    fill_run fit walk free List.not_mem_nil [] []
  obtain ⟨bytes,ps,returns,cuts⟩ := cut (Nat.zero_add _)
  exact ⟨0 :: ps,bytes,reaches.returns (Returns.after allocates returns),cuts⟩

theorem split_wraps (fit : Fit skips delim) (walk : Walk skips delim [] s ts) (free : 0 ∉ s) (filled : s ≠ [])
    (wraps : ¬ Fits ts.length s.length) : Fails (step skips delim) ⟨s ++ [0],.count 0 0⟩ := by
  obtain ⟨last,reaches,allocates⟩ := first_pass fit walk free filled
  rw [allocate_wraps wraps] at allocates
  exact reaches.fails (Fails.now allocates)

end

/-! ## What is returned -/

/-- An array of exactly `num_splits` pieces and NULL, from writes inside the block. -/
def SplitExact (delim : UInt8) (s : Text) : Prop := ∃ fuel ps bytes,
  acSplit fuel delim s = some (.returned ⟨(piecesOf delim s).length,ps.map some ++ [none],bytes⟩) ∧
    List.Forall₂ (Cut bytes) ps (piecesOf delim s)

/-- NULL, or an array of exactly the runs. -/
def Split2Exact (delim : UInt8) (s : Text) : Prop := ∃ fuel, acSplit2 fuel delim s = some none ∨ ∃ ps bytes,
  acSplit2 fuel delim s = some (some (.returned ⟨(runsOf delim s).length,ps.map some ++ [none],bytes⟩)) ∧
    List.Forall₂ (Cut bytes) ps (runsOf delim s)

/-- The one pointer of the empty string has its block for NULL; what follows is written behind it. -/
theorem empty_fails (delim : UInt8) : Fails (step (fun _ => false) delim) ⟨[0],.count 0 0⟩ := ⟨2,rfl⟩

theorem split_exact (delim : UInt8) (s : Text) (free : 0 ∉ s) :
    SplitExact delim s ↔ s ≠ [] ∧ Fits (piecesOf delim s).length s.length := by
  have fit : Fit (fun _ => false) delim := ⟨fun _ => rfl,fun _ never => Bool.noConfusion never⟩
  constructor
  · rintro ⟨fuel,ps,bytes,ran,-⟩
    by_cases filled : s = []
    · subst filled
      exact absurd ⟨fuel,ran⟩ (empty_fails delim).not_returns
    · have walk := walks_pieces delim [] s (List.forall_mem_nil _) filled
      refine ⟨filled,?_⟩
      by_contra wraps
      exact (split_wraps fit walk free filled wraps).not_returns ⟨fuel,ran⟩
  · rintro ⟨filled,fits⟩
    have walk := walks_pieces delim [] s (List.forall_mem_nil _) filled
    obtain ⟨ps,bytes,⟨fuel,ran⟩,cuts⟩ := split_runs fit walk free filled fits
    exact ⟨fuel,ps,bytes,ran,cuts⟩

/-- The delimiters in front are skipped; the NUL of a string that is not empty is not reached when
    it is the delimiter. -/
theorem skip_first (delim : UInt8) (s : Text) (free : 0 ∉ s) (filled : s ≠ []) :
    skip (isDelim delim) (s ++ [0]) = some (s.takeWhile (isDelim delim)).length := by
  by_cases zero : delim = 0
  · subst zero
    cases s with
    | nil => exact absurd rfl filled
    | cons c s =>
      have notZero : c ≠ 0 := fun same => free (same ▸ List.mem_cons_self)
      rw [List.cons_append,skip,List.takeWhile_cons,plain_of_ne notZero]
      rfl
  · exact skipped (plain_of_ne fun same => zero same.symm) s []

theorem split2_exact (delim : UInt8) (s : Text) (free : 0 ∉ s) (filled : s ≠ []) (fits : Fits (piecesOf delim s).length s.length) :
    Split2Exact delim s := by
  have fit : Fit (isDelim delim) delim := ⟨fun notZero => plain_of_ne notZero.symm,fun _ => isDelim_iff.mp⟩
  have behind : (s ++ [0]).drop (s.takeWhile (isDelim delim)).length = s.dropWhile (isDelim delim) ++ [0] := by
    have whole : (s ++ [0]).drop 0 = s ++ [0] := rfl
    have here := behind_skipped (isDelim delim) whole
    rwa [Nat.zero_add] at here
  have same : runsOf delim (s.dropWhile (isDelim delim)) = runsOf delim s := tokens_skip s
  cases shape : s.dropWhile (isDelim delim) with
  | nil =>
    rw [shape] at behind
    refine ⟨0,.inl ?_⟩
    simp only [acSplit2,skip_first delim s free filled,(read_cons behind).1,Option.bind_eq_bind,Option.bind_some,if_true]
  | cons e rest =>
    rw [shape] at behind same
    have within : ∀ d ∈ e :: rest, d ∈ s := by
      rw [← shape]
      exact fun d inside => (List.dropWhile_suffix _).subset inside
    have first := List.head?_dropWhile_not (isDelim delim) s
    rw [shape,List.head?_cons] at first
    have other : e ≠ delim := fun same => by simp [same,isDelim_self] at first
    have notZero : e ≠ 0 := fun zero => free (zero ▸ within e List.mem_cons_self)
    have walk : Walk (isDelim delim) delim [] (e :: rest) (runsOf delim (e :: rest)) :=
      walks_runs delim _ [] (e :: rest) (Nat.le_refl _) (List.forall_mem_nil _) ⟨e,rest,rfl,other⟩
    rw [same] at walk
    have shorter : (e :: rest).length ≤ s.length := by
      rw [← shape]
      exact (List.dropWhile_suffix _).length_le
    have fewer := runs_pieces delim s
    have fits' : Fits (runsOf delim s).length (e :: rest).length := by
      rw [Fits] at fits ⊢
      omega
    obtain ⟨ps,bytes,⟨fuel,ran⟩,cuts⟩ := split_runs fit walk (fun inside => free (within 0 inside)) (List.cons_ne_nil e rest) fits'
    refine ⟨fuel,.inr ⟨ps,bytes,?_,cuts⟩⟩
    simp only [acSplit2,skip_first delim s free filled,behind,(read_cons behind).1,Option.bind_eq_bind,Option.bind_some,notZero,if_false,ran,
      Option.map_some]

/-- Both splits are exact and inside their blocks for every string that is not empty and whose
    block has a size. -/
theorem splits_exact_iff (delim : UInt8) (s : Text) (free : 0 ∉ s) :
    (SplitExact delim s ∧ Split2Exact delim s) ↔ s ≠ [] ∧ Fits (piecesOf delim s).length s.length := by
  rw [split_exact delim s free]
  constructor
  · exact fun both => both.1
  · intro both
    exact ⟨both,split2_exact delim s free both.1 both.2⟩

/-- `,a,,` split at the comma. -/
theorem splits_exact_commas : (SplitExact 44 [44,97,44,44] ∧ Split2Exact 44 [44,97,44,44]) ↔
    [44,97,44,44] ≠ ([] : Text) ∧ Fits (piecesOf 44 [44,97,44,44]).length ([44,97,44,44] : Text).length :=
  splits_exact_iff 44 [44,97,44,44] (by decide)

/-- The empty string: NULL is written behind the only pointer, in a block of nine bytes. -/
theorem split_empty : ¬ SplitExact 44 [] ∧ blockSize 0 0 = 9 := by
  refine ⟨?_,rfl⟩
  rintro ⟨fuel,ps,bytes,ran,-⟩
  exact (empty_fails 44).not_returns ⟨fuel,ran⟩

end AnotherC.Split
