import AnotherC.Core.PoolCells

/-!
# `_ac_pool_split` and `_ac_pool_split_str`

Splitting by one byte and by a longer string are two functions of the same shape: a pass that
counts the occurrences of the delimiter, and a pass that writes a zero over each of them. What
they look for stands behind the position they are at, up to the NUL; a read behind it is
undefined.
-/
namespace AnotherC.PoolSplitStr
open AnotherC.PoolCells
open AnotherC.Lib.Text
open AnotherC.Lib.Steps
open AnotherC.Lib.InPlace
set_option linter.unusedVariables false

/-! ## The code -/

/-- The first pass with `p` and `num`, and the second with `s` and the cells in front of `wr`. -/
inductive Pass where
  | count (p num : Nat)
  | fill (num s : Nat) (r : List Nat)
deriving Repr, DecidableEq

structure State where
  bytes : List UInt8
  pass : Pass
deriving Repr, DecidableEq

/-- The two passes; `hit` tests what stands at a position, and a hit is `width` bytes long. -/
def step (hit : List UInt8 → Option Bool) (width : Nat) (state : State) : Option (Next State Split) :=
  match state.pass with
  | .count p num => do
    let c ← state.bytes[p]?
    if c = 0 then some (.goto ⟨state.bytes,.fill num 0 [0]⟩)
    else do
      let found ← hit (state.bytes.drop p)
      if found then some (.goto ⟨state.bytes,.count (p + width) (num + 1)⟩) else some (.goto ⟨state.bytes,.count (p + 1) num⟩)
  | .fill num s r => do
    let c ← state.bytes[s]?
    if c = 0 then if r.length < num + 1 then some (.returned ⟨num,r.map some ++ [none],state.bytes⟩) else none
    else do
      let found ← hit (state.bytes.drop s)
      if found then do
        let bytes ← write state.bytes s 0
        if r.length < num + 1 then some (.goto ⟨bytes,.fill num (s + width) (r ++ [s + width])⟩) else none
      else some (.goto ⟨state.bytes,.fill num (s + 1) r⟩)

/-- `*p == delim`. -/
def isChar (delim : UInt8) : List UInt8 → Option Bool
  | [] => none
  | c :: _ => some (c = delim)

/-- `!strncmp(s1, s2, n)`. -/
def strncmp : List UInt8 → List UInt8 → Nat → Option Bool
  | _, _, 0 => some true
  | c :: s1, d :: s2, n + 1 => if c ≠ d then some false else if c = 0 then some true else strncmp s1 s2 n
  | _, _, _ => none

/-- `*p == *delim && !strncmp(delim+1, p+1, delim_len)`, with the NUL of `delim`. -/
def isStr (delim : Text) : List UInt8 → Option Bool
  | [] => none
  | c :: rest => if c = delim.headD 0 then strncmp (delim.tail ++ [0]) rest (delim.length - 1) else some false

/-- `_ac_pool_split`. -/
def splitChar (delim : UInt8) : State → Option (Next State Split) := step (isChar delim) 1

/-- The loops of `_ac_pool_split_str`; the first one goes on by `delim_len` and by one. -/
def splitStr (delim : Text) : State → Option (Next State Split) := step (isStr delim) (delim.length - 1 + 1)

/-- `ac_pool_split_str`, for as many steps, with a copy of the string. -/
def acPoolSplitStr (fuel : Nat) (delim s : Text) : Option (Next State Split) :=
  if delim.length = 0 then some (.returned ⟨1,[some 0,none],s ++ [0]⟩)
  else if delim.length = 1 then run (splitChar (delim.headD 0)) fuel ⟨s ++ [0],.count 0 1⟩
  else run (splitStr delim) fuel ⟨s ++ [0],.count 0 1⟩

/-! ## Pieces -/

/-- The pieces between the occurrences of `d` from the left, which do not overlap; `w` is the
    piece so far. -/
def pieces (d : Text) : Text → Text → List Text
  | w, [] => [w]
  | w, c :: s => if d <+: c :: s then w :: pieces d [] (s.drop (d.length - 1)) else pieces d (w ++ [c]) s
termination_by _ s => s.length
decreasing_by
  · rw [List.length_drop,List.length_cons]
    omega
  · exact Nat.lt_succ_self _

section
variable {d : Text}

theorem pieces_filled (w s : Text) : pieces d w s ≠ [] := by
  induction w, s using pieces.induct d with
  | case1 w =>
    rw [pieces]
    exact List.cons_ne_nil w []
  | case2 w c s found ih =>
    rw [pieces,if_pos found]
    exact List.cons_ne_nil _ _
  | case3 w c s missed ih =>
    rw [pieces,if_neg missed]
    exact ih

/-- The pieces joined are the string again. -/
theorem pieces_joined (filled : d ≠ []) (w s : Text) : d.intercalate (pieces d w s) = w ++ s := by
  induction w, s using pieces.induct d with
  | case1 w => rw [pieces,List.intercalate_singleton,List.append_nil]
  | case2 w c s found ih =>
    obtain ⟨later,whole⟩ := found
    have rest : s.drop (d.length - 1) = later := by
      cases d with
      | nil => exact absurd rfl filled
      | cons e d =>
        rw [List.cons_append,List.cons.injEq] at whole
        rw [← whole.2,List.length_cons,Nat.add_sub_cancel,List.drop_left]
    rw [pieces,if_pos ⟨later,whole⟩,List.intercalate_cons_of_ne_nil (pieces_filled [] _),ih,List.nil_append,rest,List.append_assoc,whole]
  | case3 w c s missed ih =>
    rw [pieces,if_neg missed,ih,List.append_assoc,List.singleton_append]

/-- No occurrence begins in what was taken for a piece. -/
def Clear (d w s : Text) : Prop := ∀ before after, w = before ++ after → after ≠ [] → ¬ d <+: after ++ s

theorem Clear.empty (filled : d ≠ []) {w : Text} (clear : Clear d w []) : ¬ d <:+: w := by
  rintro ⟨before,after,whole⟩
  refine clear before (d ++ after) (by rw [← List.append_assoc,whole]) ?_ ?_
  · rintro nothing
    exact filled (List.append_eq_nil_iff.mp nothing).1
  · rw [List.append_nil]
    exact ⟨after,rfl⟩

/-- What is clear of an occurrence that ends later is clear of those that end in it. -/
theorem Clear.inside (filled : d ≠ []) {w s : Text} (clear : Clear d w s) : ¬ d <:+: w := by
  refine Clear.empty filled fun before after whole some_ begins => clear before after whole some_ ?_
  rw [List.append_nil] at begins
  exact begins.trans (List.prefix_append ..)

theorem Clear.more {c : UInt8} {w s : Text} (clear : Clear d w (c :: s)) (missed : ¬ d <+: c :: s) : Clear d (w ++ [c]) s := by
  intro before after whole some_
  rcases List.append_eq_append_iff.mp whole with ⟨between,rfl,last⟩ | ⟨between,rfl,last⟩
  · cases between with
    | nil =>
      rw [List.nil_append] at last
      rw [← last]
      exact missed
    | cons e between =>
      have length := congrArg List.length last
      simp only [List.length_append,List.length_cons,List.length_nil] at length
      exact absurd (List.eq_nil_of_length_eq_zero (by omega)) some_
  · subst last
    rw [List.append_assoc,List.singleton_append]
    by_cases nothing : between = []
    · rw [nothing]
      exact missed
    · exact clear before between rfl nothing

/-- No piece has the delimiter in it. -/
theorem pieces_clear (filled : d ≠ []) (w s : Text) (clear : Clear d w s) : ∀ piece ∈ pieces d w s, ¬ d <:+: piece := by
  induction w, s using pieces.induct d with
  | case1 w =>
    intro piece inside
    rw [pieces,List.mem_singleton] at inside
    rw [inside]
    exact clear.empty filled
  | case2 w c s found ih =>
    intro piece inside
    rw [pieces,if_pos found] at inside
    cases List.mem_cons.mp inside with
    | inl same =>
      rw [same]
      exact clear.inside filled
    | inr inside =>
      refine ih ?_ piece inside
      intro before after whole some_
      exact absurd (List.append_eq_nil_iff.mp whole.symm).2 some_
  | case3 w c s missed ih =>
    rw [pieces,if_neg missed]
    exact ih (clear.more missed)

/-! ## What is looked for -/

/-- The test at a position says whether the delimiter begins there. -/
def Tests (hit : List UInt8 → Option Bool) (d : Text) : Prop := ∀ c s, 0 ∉ c :: s → hit (c :: s ++ [0]) = some (decide (d <+: c :: s))

theorem isChar_tests (c : UInt8) : Tests (isChar c) [c] := by
  intro e s free
  rw [List.cons_append,isChar,Option.some.injEq,decide_eq_decide]
  constructor
  · rintro rfl
    exact ⟨s,rfl⟩
  · rintro ⟨more,whole⟩
    exact (List.cons.inj whole).1.symm

theorem strncmp_tests (t s : Text) (free : 0 ∉ t) : strncmp (t ++ [0]) (s ++ [0]) t.length = some (decide (t <+: s)) := by
  induction t generalizing s with
  | nil => simp [strncmp]
  | cons c t ih =>
    have notZero : c ≠ 0 := fun zero => free (zero ▸ List.mem_cons_self)
    cases s with
    | nil =>
      rw [List.cons_append,List.nil_append,List.length_cons,strncmp,if_pos notZero]
      simp
    | cons e s =>
      rw [List.cons_append,List.cons_append,List.length_cons,strncmp]
      by_cases same : c = e
      · subst same
        rw [if_neg (not_not_intro rfl),if_neg notZero,ih s fun inside => free (List.mem_cons_of_mem _ inside)]
        simp
      · rw [if_pos same]
        simp [same]

theorem isStr_tests (filled : d ≠ []) (free : 0 ∉ d) : Tests (isStr d) d := by
  intro c s _
  cases d with
  | nil => exact absurd rfl filled
  | cons e d =>
    rw [List.cons_append,isStr]
    simp only [List.headD_cons,List.tail_cons,List.length_cons,Nat.add_sub_cancel]
    rw [strncmp_tests d s fun inside => free (List.mem_cons_of_mem _ inside)]
    by_cases same : c = e
    · subst same
      simp
    · have other : e ≠ c := fun equal => same equal.symm
      simp [same,other]

/-! ## Both passes -/

variable {hit : List UInt8 → Option Bool} {bytes : List UInt8}

theorem count_end {p num : Nat} (here : bytes.drop p = [0]) : step hit d.length ⟨bytes,.count p num⟩ = some (.goto ⟨bytes,.fill num 0 [0]⟩) := by
  obtain ⟨isZero,-⟩ := read_cons here
  simp only [step,isZero]
  rfl

theorem count_byte (tests : Tests hit d) {c : UInt8} {s : Text} (free : 0 ∉ c :: s) {p : Nat} (here : bytes.drop p = c :: s ++ [0]) (num : Nat) :
    step hit d.length ⟨bytes,.count p num⟩ =
      some (.goto ⟨bytes,if d <+: c :: s then .count (p + d.length) (num + 1) else .count (p + 1) num⟩) := by
  have notZero : c ≠ 0 := fun zero => free (zero ▸ List.mem_cons_self)
  obtain ⟨isByte,-⟩ := read_cons here
  simp only [step,isByte,here,tests c s free,Option.bind_eq_bind,Option.bind_some,notZero,if_false,decide_eq_true_eq]
  split <;> rfl

/-- The first pass counts the pieces. -/
theorem count_run (filled : d ≠ []) (tests : Tests hit d) (w s : Text) (free : 0 ∉ s) {p : Nat} (here : bytes.drop p = s ++ [0])
    (num : Nat) : Reaches (step hit d.length) ⟨bytes,.count p (num + 1)⟩ ⟨bytes,.fill (num + (pieces d w s).length) 0 [0]⟩ := by
  induction w, s using pieces.induct d generalizing p num with
  | case1 w =>
    rw [pieces,List.length_singleton]
    exact Reaches.after (count_end here) (Reaches.refl ..)
  | case2 w c s found ih =>
    have stepped := count_byte tests free here (num + 1)
    rw [if_pos found] at stepped
    have length : d.length = d.length - 1 + 1 := by
      have := List.length_pos_iff.mpr filled
      omega
    have within : d.length - 1 ≤ s.length := by
      have := found.length_le
      rw [List.length_cons] at this
      omega
    have behind : bytes.drop (p + d.length) = s.drop (d.length - 1) ++ [0] := by
      rw [← List.drop_drop,here,length,List.cons_append,List.drop_succ_cons,List.drop_append_of_le_length (by omega)]
      rfl
    have later := ih (fun inside => free (List.mem_cons_of_mem _ (List.mem_of_mem_drop inside))) behind (num + 1)
    have total : num + (pieces d w (c :: s)).length = num + 1 + (pieces d [] (s.drop (d.length - 1))).length := by
      rw [pieces,if_pos found,List.length_cons]
      omega
    rw [total]
    exact Reaches.after stepped later
  | case3 w c s missed ih =>
    have stepped := count_byte tests free here (num + 1)
    rw [if_neg missed] at stepped
    rw [pieces,if_neg missed]
    exact Reaches.after stepped (ih (fun inside => free (List.mem_cons_of_mem _ inside)) (read_cons here).2 num)

variable {num : Nat} {front w : List UInt8} {ps : List Nat}

/-- The string in the second pass: the pieces that are done, what was read of the current one,
    and what is still to be read. -/
def filling (num : Nat) (front w rest : List UInt8) (ps : List Nat) : State :=
  ⟨front ++ w ++ rest,.fill num (front.length + w.length) (ps ++ [front.length])⟩

theorem fill_end (room : ps.length < num) : step hit d.length (filling num front w [0] ps) =
    some (.returned ⟨num,(ps ++ [front.length]).map some ++ [none],front ++ w ++ [0]⟩) := by
  simp only [step,filling,read_word,Option.bind_eq_bind,Option.bind_some,if_true,cells room front.length]

theorem fill_byte (tests : Tests hit d) {c : UInt8} {s : Text} (free : 0 ∉ c :: s) (missed : ¬ d <+: c :: s) :
    step hit d.length (filling num front w (c :: (s ++ [0])) ps) = some (.goto (filling num front (w ++ [c]) (s ++ [0]) ps)) := by
  have notZero : c ≠ 0 := fun zero => free (zero ▸ List.mem_cons_self)
  have tested : hit (c :: (s ++ [0])) = some (decide (d <+: c :: s)) := tests c s free
  have bytes : front ++ (w ++ [c]) ++ (s ++ [0]) = front ++ w ++ c :: (s ++ [0]) := by simp
  have moved : front.length + (w ++ [c]).length = front.length + w.length + 1 := by rw [List.length_append,List.length_singleton,Nat.add_assoc]
  simp only [step,filling,read_word,drop_word,tested,Option.bind_eq_bind,Option.bind_some,notZero,missed,decide_false,if_false,
    Bool.false_eq_true,bytes,moved]

/-- The delimiter is found, and its first byte is overwritten. -/
theorem fill_hit {e : UInt8} (tests : Tests hit (e :: d)) {s : Text} (free : 0 ∉ e :: (d ++ s)) (room : ps.length < num) :
    step hit (e :: d).length (filling num front w (e :: (d ++ s ++ [0])) ps) =
      some (.goto (filling num (front ++ w ++ 0 :: d) [] (s ++ [0]) (ps ++ [front.length]))) := by
  have notZero : e ≠ 0 := fun zero => free (zero ▸ List.mem_cons_self)
  have tested : hit (e :: (d ++ s ++ [0])) = some (decide (e :: d <+: e :: (d ++ s))) := tests e (d ++ s) free
  have found : e :: d <+: e :: (d ++ s) := ⟨s,rfl⟩
  have bytes : front ++ w ++ 0 :: (d ++ s ++ [0]) = front ++ w ++ 0 :: d ++ [] ++ (s ++ [0]) := by simp
  have moved : front.length + w.length + (e :: d).length = (front ++ w ++ 0 :: d).length + ([] : List UInt8).length := by
    simp only [List.length_append,List.length_cons,List.length_nil]
    omega
  simp only [step,filling,read_word,drop_word,tested,Option.bind_eq_bind,Option.bind_some,notZero,found,decide_true,if_false,if_true,
    write_word,bytes,moved,cells room front.length]
  rfl

/-- The second pass cuts the pieces. -/
theorem fill_run (filled : d ≠ []) (tests : Tests hit d) (w s : Text) (free : 0 ∉ s) (clean : 0 ∉ w) (front : List UInt8) (ps : List Nat) :
    Fills (step hit d.length) num front ps (filling num front w (s ++ [0]) ps) (pieces d w s) := by
  induction w, s using pieces.induct d generalizing front ps with
  | case1 w =>
    rw [pieces]
    exact Fills.last clean fill_end
  | case2 w c s found ih =>
    rw [pieces,if_pos found]
    obtain ⟨later,whole⟩ := found
    cases d with
    | nil => exact absurd rfl filled
    | cons e d =>
      rw [List.cons_append,List.cons.injEq] at whole
      obtain ⟨rfl,rfl⟩ := whole
      rw [List.length_cons,Nat.add_sub_cancel,List.drop_left] at ih ⊢
      refine Fills.more clean (fill_hit tests free) (ih ?_ List.not_mem_nil _ _)
      exact fun inside => free (List.mem_cons_of_mem _ (List.mem_append_right _ inside))
  | case3 w c s missed ih =>
    rw [pieces,if_neg missed]
    refine Fills.after (fill_byte tests free missed) (ih (fun inside => free (List.mem_cons_of_mem _ inside)) ?_ front ps)
    intro inside
    rcases List.mem_append.mp inside with inW | isC
    · exact clean inW
    · exact free (List.mem_cons.mpr (.inl (List.mem_singleton.mp isC)))

/-- Both passes: as many cells as pieces. -/
theorem split_runs (filled : d ≠ []) (tests : Tests hit d) {s : Text} (free : 0 ∉ s) : ∃ ps bytes,
    Returns (step hit d.length) ⟨s ++ [0],.count 0 1⟩ ⟨(pieces d [] s).length,ps.map some ++ [none],bytes⟩ ∧
      List.Forall₂ (Cut bytes) ps (pieces d [] s) := by
  have counted : Reaches (step hit d.length) ⟨s ++ [0],.count 0 (0 + 1)⟩ ⟨s ++ [0],.fill (0 + (pieces d [] s).length) 0 [0]⟩ :=
    count_run filled tests [] s free rfl 0
  have cut : Fills (step hit d.length) (pieces d [] s).length [] [] _ (pieces d [] s) :=
    fill_run filled tests [] s free List.not_mem_nil [] []
  obtain ⟨bytes,ps,returns,cuts⟩ := cut (Nat.zero_add _)
  simp only [Nat.zero_add] at counted
  exact ⟨0 :: ps,bytes,counted.returns returns,cuts⟩

end

/-- The string is split into pieces without the delimiter, which joined by it are the string:
    the array has a cell for each of them, as many as were counted, and NULL. -/
theorem split_str_joins (d s : Text) (filled : d ≠ []) (delimFree : 0 ∉ d) (free : 0 ∉ s) : ∃ fuel ps bytes pieces,
    acPoolSplitStr fuel d s = some (.returned ⟨pieces.length,ps.map some ++ [none],bytes⟩) ∧ List.Forall₂ (Cut bytes) ps pieces ∧
      d.intercalate pieces = s ∧ ∀ piece ∈ pieces, ¬ d <:+: piece := by
  have joined : d.intercalate (pieces d [] s) = s := pieces_joined filled [] s
  have clear : ∀ piece ∈ pieces d [] s, ¬ d <:+: piece := by
    apply pieces_clear filled
    intro before after whole some_
    exact absurd (List.append_eq_nil_iff.mp whole.symm).2 some_
  have long : d.length ≠ 0 := fun none_ => filled (List.eq_nil_of_length_eq_zero none_)
  by_cases char : d.length = 1
  · obtain ⟨c,rfl⟩ := List.length_eq_one_iff.mp char
    obtain ⟨ps,bytes,⟨fuel,ran⟩,cuts⟩ := split_runs filled (isChar_tests c) free
    refine ⟨fuel,ps,bytes,pieces [c] [] s,?_,cuts,joined,clear⟩
    rw [acPoolSplitStr,if_neg long,if_pos char]
    exact ran
  · obtain ⟨ps,bytes,⟨fuel,ran⟩,cuts⟩ := split_runs filled (isStr_tests filled delimFree) free
    refine ⟨fuel,ps,bytes,pieces d [] s,?_,cuts,joined,clear⟩
    rw [acPoolSplitStr,if_neg long,if_neg char,splitStr,Nat.sub_add_cancel (Nat.one_le_iff_ne_zero.mpr long)]
    exact ran

/-- `aaa` split by `aa`. -/
theorem split_str_joins_three : ∃ fuel ps bytes pieces,
    acPoolSplitStr fuel [97,97] [97,97,97] = some (.returned ⟨pieces.length,ps.map some ++ [none],bytes⟩) ∧
      List.Forall₂ (Cut bytes) ps pieces ∧ List.intercalate [97,97] pieces = [97,97,97] ∧ ∀ piece ∈ pieces, ¬ [97,97] <:+: piece :=
  split_str_joins [97,97] [97,97,97] (by decide) (by decide) (by decide)

end AnotherC.PoolSplitStr
