import AnotherC.Lib.Cursor
import AnotherC.Search.BitSet
import Mathlib.Order.Interval.Finset.Nat

/-!
# Leaf cursors: `ac_cursor_range`, `ac_cursor_init_id`, `ac_bit_set_open_cursor`

A leaf stands on its first id from the start, and its first `advance` is
`post_reset_advance`, which returns that id. `leaf_iff` says for which sequences of
calls a leaf answers as the cursor of its ids does.
-/
namespace AnotherC.CursorLeaf
open AnotherC.BitSet AnotherC.Lib.Cursor
set_option linter.unusedVariables false

/-! ## The cursors -/

/-- What `advance` and `_advance` of a leaf point to. -/
inductive AdvanceCb
  | empty
  | range
  | bitSet
  | postReset
deriving DecidableEq

inductive AdvanceToCb
  | emptyTo
  | rangeTo
  | bitSetTo
deriving DecidableEq

/-- `ac_cursor_t`, with the further fields `current` and `end` of `range_cursor_t` and
    `bit_set` of `ac_bit_set_cursor_t`. -/
structure Leaf where
  current : Nat
  advance : AdvanceCb
  advanceTo : AdvanceToCb
  _advance : AdvanceCb
  rangeCurrent : Nat
  rangeEnd : Nat
  bitSet : BitSet

def acCursorEmpty (c : Leaf) : Nat × Leaf := (0,{ c with advanceTo := .emptyTo, advance := .empty, current := 0 })

def postResetAdvance (c : Leaf) : Nat × Leaf := (c.current,{ c with advance := c._advance })

def acCursorReset (c : Leaf) : Leaf := { c with _advance := c.advance, advance := .postReset }

def advanceRange (c : Leaf) : Nat × Leaf :=
  let id := c.rangeCurrent
  if c.rangeEnd ≤ id then acCursorEmpty c else (id,{ c with current := id, rangeCurrent := (c.rangeCurrent + 1) % 2 ^ 32 })

def advanceRangeTo (c : Leaf) (id : Nat) : Nat × Leaf :=
  if id ≤ c.current then (c.current,c)
  else if c.rangeEnd ≤ id then acCursorEmpty c
  else (id,{ c with current := id, rangeCurrent := (id + 1) % 2 ^ 32 })

def acCursorRange (start end_ : Nat) : Leaf where
  current := start
  advance := .postReset
  advanceTo := .rangeTo
  _advance := .range
  rangeCurrent := (start + 1) % 2 ^ 32
  rangeEnd := end_
  bitSet := ⟨[],0⟩

def acCursorInitId (id : Nat) : Leaf where
  current := id
  advance := .postReset
  advanceTo := .emptyTo
  _advance := .empty
  rangeCurrent := 0
  rangeEnd := 0
  bitSet := ⟨[],0⟩

/-- The loop that looks for the lowest bit of a word, while `mask` is less than 63. -/
def scanBits : Nat → Word → Nat → Nat
  | 0, item, id => id
  | rest + 1, item, id => if item &&& 1 = 0 then scanBits rest (item >>> 1) (id + 1) else id

/-- The loop over the words that follow. -/
def nextWord : List Word → Nat → Option (Word × Nat)
  | [], id => none
  | p :: items, id => if p = 0 then nextWord items (id + 64) else some (p,id)

def advanceBitSet (c : Leaf) : Nat × Leaf :=
  let id := (c.current + 1) % 2 ^ 32
  let block := id >>> 6
  let mask := id &&& 63
  let h := c.bitSet
  match h.items[block]? with
  | none => acCursorEmpty c
  | some p =>
    let item := p >>> mask
    if item ≠ 0 then
      let id := scanBits (63 - mask) item id
      (id,{ c with current := id })
    else
      match nextWord (h.items.drop (block + 1)) (id + (64 - mask)) with
      | none => acCursorEmpty c
      | some (item,id) =>
        let id := scanBits 63 item id
        (id,{ c with current := id })

def advanceBitSetTo (c : Leaf) (id : Nat) : Nat × Leaf :=
  if id ≤ c.current then (c.current,c)
  else
    let c := { c with current := id }
    if acBitSet c.bitSet id then (id,c) else advanceBitSet c

def callAdvance (c : Leaf) : Nat × Leaf :=
  match c.advance with
  | .empty => (0,c)
  | .range => advanceRange c
  | .bitSet => advanceBitSet c
  | .postReset => postResetAdvance c

def callAdvanceTo (c : Leaf) (id : Nat) : Nat × Leaf :=
  match c.advanceTo with
  | .emptyTo => (0,c)
  | .rangeTo => advanceRangeTo c id
  | .bitSetTo => advanceBitSetTo c id

def acBitSetOpenCursor (h : BitSet) : Leaf :=
  acCursorReset (callAdvance ⟨0,.bitSet,.bitSetTo,.empty,0,0,h⟩).2

def call (c : Leaf) : Call → Nat × Leaf
  | .advance => callAdvance c
  | .advanceTo id => callAdvanceTo c id

/-- The answers to a sequence of calls. -/
def run : Leaf → List Call → List Nat
  | c, [] => []
  | c, first :: calls => (call c first).1 :: run (call c first).2 calls

/-! ## Bits of a set -/

/-- The ids in a bit set. -/
def idsOf (h : BitSet) : Finset Nat := (Finset.range (64 * h.items.length)).filter fun x => bit h.items x

theorem mem_idsOf (h : BitSet) (x : Nat) : x ∈ idsOf h ↔ bit h.items x = true := by
  rw [idsOf,Finset.mem_filter,Finset.mem_range]
  refine ⟨fun held => held.2,fun held => ⟨?_,held⟩⟩
  by_contra outside
  rw [bit,List.getElem?_eq_none (by omega)] at held
  cases held

theorem scanBits_spec {rest : Nat} {item : Word} (id : Nat) (some_ : ∃ k ≤ rest, item.getLsbD k = true) :
    ∃ k ≤ rest, scanBits rest item id = id + k ∧ item.getLsbD k = true ∧ ∀ i < k, item.getLsbD i = false := by
  induction rest generalizing item id with
  | zero =>
    obtain ⟨k,less,held⟩ := some_
    exact ⟨k,less,by rw [Nat.le_zero.mp less]; rfl,held,fun i smaller => by omega⟩
  | succ rest ih =>
    obtain ⟨k,less,held⟩ := some_
    rw [scanBits]
    by_cases even : item &&& 1 = 0
    · have zero : item.getLsbD 0 = false := by
        have bits := congrArg (BitVec.getLsbD · 0) even
        simpa using bits
      rw [if_pos even]
      cases k with
      | zero =>
        rw [zero] at held
        cases held
      | succ k =>
        have shifted : ∃ k ≤ rest, (item >>> 1).getLsbD k = true := ⟨k,by omega,by rw [shift_bit]; exact held⟩
        obtain ⟨k',less',equal,held',below⟩ := ih (id + 1) shifted
        refine ⟨k' + 1,by omega,by omega,by rw [← shift_bit]; exact held',fun i smaller => ?_⟩
        cases i with
        | zero => exact zero
        | succ i =>
          rw [← shift_bit]
          exact below i (by omega)
    · rw [if_neg even]
      refine ⟨0,Nat.zero_le _,rfl,?_,fun i smaller => absurd smaller (Nat.not_lt_zero i)⟩
      by_contra clear
      apply even
      apply BitVec.eq_of_getLsbD_eq
      intro i inside
      cases i with
      | zero => simpa using clear
      | succ i => simp

theorem word_bit {item : Word} (some_ : item ≠ 0) : ∃ k < 64, item.getLsbD k = true := by
  by_contra none
  apply some_
  apply BitVec.eq_of_getLsbD_eq
  intro i inside
  simp only [not_exists,not_and] at none
  simpa using none i inside

theorem nextWord_spec (items : List Word) (id : Nat) :
    nextWord items id = none ∧ (∀ x, bit items x = false) ∨
      ∃ item j, nextWord items id = some (item,id + 64 * j) ∧ item ≠ 0 ∧ items[j]? = some item ∧
        ∀ x < 64 * j, bit items x = false := by
  induction items generalizing id with
  | nil => exact .inl ⟨rfl,fun x => rfl⟩
  | cons p items ih =>
    rw [nextWord]
    by_cases zero : p = 0
    · rw [if_pos zero]
      have skip : ∀ x, bit (p :: items) x = true → 64 ≤ x ∧ bit items (x - 64) = true := by
        intro x held
        by_cases inside : x < 64
        · rw [bit_head p items inside,zero] at held
          simp at held
        · have moved : x = 64 + (x - 64) := by omega
          rw [moved,bit_cons] at held
          exact ⟨by omega,held⟩
      rcases ih (id + 64) with ⟨ended,none⟩ | ⟨item,j,found,some_,at',before⟩
      · refine .inl ⟨ended,fun x => ?_⟩
        by_contra held
        have held' := (skip x (by simpa using held)).2
        rw [none] at held'
        cases held'
      · refine .inr ⟨item,j + 1,?_,some_,at',fun x less => ?_⟩
        · rw [found]
          congr 2
          omega
        · by_contra held
          obtain ⟨from_,held'⟩ := skip x (by simpa using held)
          rw [before _ (by omega)] at held'
          cases held'
    · rw [if_neg zero]
      exact .inr ⟨p,0,rfl,zero,rfl,fun x less => absurd less (by omega)⟩

theorem bit_drop (items : List Word) (n x : Nat) : bit (items.drop n) x = bit items (64 * n + x) := by
  have block : (64 * n + x) / 64 = n + x / 64 := by omega
  have place : (64 * n + x) % 64 = x % 64 := by omega
  rw [bit,bit,block,place,List.getElem?_drop]

theorem bit_at {items : List Word} {b i : Nat} {p : Word} (at' : items[b]? = some p) (inside : i < 64) :
    bit items (64 * b + i) = p.getLsbD i := by
  have block : (64 * b + i) / 64 = b := by omega
  have place : (64 * b + i) % 64 = i := by omega
  rw [bit,block,place,at']
  rfl

/-- What the search from `id` does; it wraps around after the last 32-bit number. -/
theorem advanceBitSet_spec (c : Leaf) {id : Nat} (next : id = (c.current + 1) % 2 ^ 32) :
    advanceBitSet c = acCursorEmpty c ∧ (∀ x, bit c.bitSet.items x = true → x < id) ∨
      ∃ id', advanceBitSet c = (id',{ c with current := id' }) ∧ bit c.bitSet.items id' = true ∧ id ≤ id' ∧
        ∀ x, bit c.bitSet.items x = true → id ≤ x → id' ≤ x := by
  obtain ⟨b,b_eq⟩ : ∃ b, b = id / 64 := ⟨_,rfl⟩
  obtain ⟨m,m_eq⟩ : ∃ m, m = id % 64 := ⟨_,rfl⟩
  have id_eq : id = 64 * b + m := by omega
  rw [advanceBitSet,← next]
  simp only [block_eq,place_eq,← b_eq,← m_eq]
  cases at' : c.bitSet.items[b]? with
  | none =>
    refine .inl ⟨rfl,fun x held => ?_⟩
    by_contra beyond
    have short := List.getElem?_eq_none_iff.mp at'
    rw [bit,List.getElem?_eq_none (by omega)] at held
    cases held
  | some p =>
    have shifted : ∀ i, (p >>> m).getLsbD i = p.getLsbD (m + i) := fun i => BitVec.getLsbD_ushiftRight p m i
    have here : ∀ i, m + i < 64 → bit c.bitSet.items (id + i) = (p >>> m).getLsbD i := by
      intro i inside
      rw [id_eq,Nat.add_assoc,bit_at at' inside,shifted]
    simp only
    by_cases some_ : p >>> m ≠ 0
    · rw [if_pos some_]
      obtain ⟨k,_,held⟩ := word_bit some_
      have inside : m + k < 64 := by
        rw [shifted] at held
        exact BitVec.lt_of_getLsbD held
      have low : ∃ k ≤ 63 - m, (p >>> m).getLsbD k = true := ⟨k,by omega,held⟩
      obtain ⟨k',less,equal,held',below⟩ := scanBits_spec id low
      rw [equal]
      refine .inr ⟨id + k',rfl,?_,Nat.le_add_right _ _,fun x set from_ => ?_⟩
      · rw [here k' (by omega)]
        exact held'
      · by_contra before
        obtain ⟨i,rfl⟩ := Nat.exists_eq_add_of_le from_
        rw [here i (by omega),below i (by omega)] at set
        cases set
    · rw [if_neg some_]
      have clear : ∀ x, bit c.bitSet.items x = true → id ≤ x → 64 * (b + 1) ≤ x := by
        intro x set from_
        by_contra before
        obtain ⟨i,rfl⟩ := Nat.exists_eq_add_of_le from_
        rw [here i (by omega),not_not.mp some_] at set
        simp at set
      have rest : ∀ x, 64 * (b + 1) ≤ x → bit c.bitSet.items x = bit (c.bitSet.items.drop (b + 1)) (x - 64 * (b + 1)) := by
        intro x from_
        rw [bit_drop]
        congr 1
        omega
      rcases nextWord_spec (c.bitSet.items.drop (b + 1)) (id + (64 - m)) with ⟨ended,none⟩ | ⟨item,j,found,some',at'',before⟩
      · refine .inl ⟨by rw [ended],fun x set => ?_⟩
        by_contra from_
        rw [rest x (clear x set (by omega)),none] at set
        cases set
      · obtain ⟨k,small,held⟩ := word_bit some'
        have low : ∃ k ≤ 63, item.getLsbD k = true := ⟨k,by omega,held⟩
        obtain ⟨k',less,equal,held',below⟩ := scanBits_spec (id + (64 - m) + 64 * j) low
        have word : ∀ i < 64, bit c.bitSet.items (id + (64 - m) + 64 * j + i) = item.getLsbD i := by
          intro i inside
          have same : id + (64 - m) + 64 * j + i - 64 * (b + 1) = 64 * j + i := by omega
          rw [rest _ (by omega),same,bit_at at'' inside]
        rw [found]
        simp only [equal]
        refine .inr ⟨id + (64 - m) + 64 * j + k',rfl,?_,by omega,fun x set from_ => ?_⟩
        · rw [word k' (by omega)]
          exact held'
        · by_contra smaller
          have low := clear x set from_
          by_cases inWord : 64 * (b + 1) + 64 * j ≤ x
          · obtain ⟨i,i_eq⟩ : ∃ i, x = id + (64 - m) + 64 * j + i := ⟨x - (id + (64 - m) + 64 * j),by omega⟩
            rw [i_eq,word i (by omega),below i (by omega)] at set
            cases set
          · rw [rest x low,before _ (by omega)] at set
            cases set

/-! ## The three leaves -/

inductive Kind
  | range (start end_ : Nat)
  | single (id : Nat)
  | bitSet (h : BitSet)

/-- The cursor as it is returned. -/
def Kind.cursor : Kind → Leaf
  | .range start end_ => acCursorRange start end_
  | .single id => acCursorInitId id
  | .bitSet h => acBitSetOpenCursor h

def Kind.ids : Kind → Finset Nat
  | .range start end_ => Finset.Ico start end_
  | .single id => {id}
  | .bitSet h => idsOf h

/-- The arguments are 32-bit numbers, and the ids are positive. -/
def Kind.Valid : Kind → Prop
  | .range start end_ => 1 ≤ start ∧ start < 2 ^ 32 ∧ end_ < 2 ^ 32
  | .single id => 1 ≤ id ∧ id < 2 ^ 32
  | .bitSet h => bit h.items 0 = false ∧ h.items.length ≤ 2 ^ 26

/-- The call is answered as it should. The cursor of the ids stands at `p`, and `moved`
    says whether `advance` was called before. -/
def Kind.Fine : Kind → Bool → Option Nat → Call → Prop
  | .range start end_, moved, p, .advance => if end_ ≤ start then p = none else p = none ∨ p = some 0 ∨ moved = true
  | .range start end_, moved, p, .advanceTo t => end_ ≤ start → p = none ∨ start < t
  | .single id, moved, p, .advance => p = none → moved = true
  | .single id, moved, p, .advanceTo t => p = none ∨ id < t
  | .bitSet h, moved, p, .advance => p = none ∨ p = some 0 ∨ moved = true ∧ p ≠ some (2 ^ 32 - 1)
  | .bitSet h, moved, p, .advanceTo t => t = 2 ^ 32 - 1 → p = none ∨ t ∈ idsOf h ∨ idsOf h = ∅

def isAdvance : Call → Bool
  | .advance => true
  | .advanceTo _ => false

def Kind.FineRun (kind : Kind) : Bool → Option Nat → List Call → Prop
  | _, _, [] => True
  | moved, p, call :: calls =>
    kind.Fine moved p call ∧ kind.FineRun (moved || isAdvance call) (answer kind.ids p call).2 calls

/-- The target is a 32-bit number. -/
def Target : Call → Prop
  | .advance => True
  | .advanceTo t => t < 2 ^ 32

/-- One call of a leaf that is in a known relation to the cursor of its ids. -/
structure Step (kind : Kind) (R : Leaf → Bool → Option Nat → Prop) : Prop where
  fine : ∀ c moved p first, R c moved p → Target first → kind.Fine moved p first →
    (call c first).1 = (answer kind.ids p first).1 ∧
      R (call c first).2 (moved || isAdvance first) (answer kind.ids p first).2
  wrong : ∀ c moved p first, R c moved p → Target first → ¬ kind.Fine moved p first →
    (call c first).1 ≠ (answer kind.ids p first).1

theorem Step.run_iff {kind : Kind} {R : Leaf → Bool → Option Nat → Prop} (step : Step kind R) {c : Leaf} {moved : Bool}
    {p : Option Nat} {calls : List Call} (start : R c moved p) (targets : ∀ call ∈ calls, Target call) :
    run c calls = (answers kind.ids p calls).1 ↔ kind.FineRun moved p calls := by
  induction calls generalizing c moved p with
  | nil => exact iff_of_true rfl trivial
  | cons first calls ih =>
    have target := targets first (by simp)
    rw [run,answers,Kind.FineRun,List.cons.injEq]
    by_cases fine : kind.Fine moved p first
    · obtain ⟨same,kept⟩ := step.fine c moved p first start target fine
      exact and_congr (iff_of_true same fine) (ih kept fun other member => targets other (by simp [member]))
    · exact iff_of_false (fun both => step.wrong c moved p first start target fine both.1) fun both => fine both.1

/-- A cursor that `ac_cursor_empty` was called on. -/
def Ended (c : Leaf) : Prop := c.advance = .empty ∧ c.advanceTo = .emptyTo

theorem Ended.call {c : Leaf} (ended : Ended c) (first : Call) : call c first = (0,c) := by
  cases first with
  | advance => rw [CursorLeaf.call,callAdvance,ended.1]
  | advanceTo t => rw [CursorLeaf.call,callAdvanceTo,ended.2]

theorem acCursorEmpty_ended (c : Leaf) : Ended (acCursorEmpty c).2 := ⟨rfl,rfl⟩

/-! ### Leaves that are reset

`On c moved k` says that the leaf stands on `k`, and `moved` that its first `advance`
has been made. -/

def After (On : Leaf → Bool → Nat → Prop) (c : Leaf) (moved : Bool) : Option Nat → Prop
  | none => Ended c
  | some k => On c moved k

/-- The leaf finds what it should from `k` on. -/
def Found (On : Leaf → Bool → Nat → Prop) (S : Finset Nat) (k : Nat) (moved : Bool) (result : Nat × Leaf) : Prop :=
  ∃ p, Finds S k result.1 p ∧ After On result.2 moved p

/-- What a leaf that starts on its first id does: its first `advance` returns the id it
    stands on. `goodAdvance` and `goodTo` say when the search behind it works. -/
structure Resets (kind : Kind) (On : Leaf → Bool → Nat → Prop) (first : Nat) (goodAdvance goodTo : Nat → Prop) : Prop where
  inside : first ∈ kind.ids
  lowest : ∀ x ∈ kind.ids, first ≤ x
  positive : 0 ∉ kind.ids
  stands : ∀ c moved k, On c moved k → k ∈ kind.ids
  stay : ∀ c moved k t, On c moved k → t ≤ k → callAdvanceTo c t = (k,c)
  reset : ∀ c k, On c false k → (callAdvance c).1 = k ∧ On (callAdvance c).2 true k
  advance : ∀ c k, On c true k → goodAdvance k → Found On kind.ids (k + 1) true (callAdvance c)
  advanceTo : ∀ c moved k t, On c moved k → k < t → t < 2 ^ 32 → goodTo t → Found On kind.ids t moved (callAdvanceTo c t)
  wrong : ∀ c k, On c true k → ¬ goodAdvance k → (callAdvance c).1 ≠ (found (least kind.ids (k + 1))).1
  wrongTo : ∀ c moved k t, On c moved k → t < 2 ^ 32 → ¬ goodTo t →
    (callAdvanceTo c t).1 ≠ (found (least kind.ids t)).1 ∧ k < t
  fineAdvance : ∀ moved k, kind.Fine moved (some k) .advance ↔ k = 0 ∨ moved = true ∧ goodAdvance k
  fineTo : ∀ moved k t, kind.Fine moved (some k) (.advanceTo t) ↔ goodTo t
  fineNone : ∀ moved call, kind.Fine moved none call

/-- A leaf that is reset, and the cursor of its ids. -/
def ResetAt (On : Leaf → Bool → Nat → Prop) (first : Nat) (c : Leaf) (moved : Bool) : Option Nat → Prop
  | none => Ended c
  | some k => k = 0 ∧ moved = false ∧ On c false first ∨ On c moved k

section
variable {kind : Kind} {On : Leaf → Bool → Nat → Prop} {first : Nat} {goodAdvance goodTo : Nat → Prop}

theorem Found.step {c : Leaf} {k : Nat} {moved : Bool} {result : Nat × Leaf} {answer_ : Nat × Option Nat}
    (same : Found On kind.ids k moved result) (away : 0 ∉ kind.ids) (equal : answer_ = found (least kind.ids k)) :
    result.1 = answer_.1 ∧ ResetAt On first result.2 moved answer_.2 := by
  obtain ⟨p,finds,after⟩ := same
  rw [equal,finds.found_of fun _ => away]
  refine ⟨rfl,?_⟩
  cases p with
  | none => exact after
  | some k => exact .inr after

theorem Resets.step (resets : Resets kind On first goodAdvance goodTo) : Step kind (ResetAt On first) := by
  have away := resets.positive
  have some_ : ∀ c moved k, On c moved k → k ≠ 0 := fun c moved k on zero => away (zero ▸ resets.stands c moved k on)
  have begin_ : ∀ t ≤ first, Finds kind.ids t first (some first) := fun t less =>
    .inr ⟨resets.inside,less,rfl,fun x held _ => resets.lowest x held⟩
  have target_ : ∀ c moved k t, On c moved k → t < 2 ^ 32 → goodTo t →
      t ≤ k ∧ callAdvanceTo c t = (k,c) ∨ k < t ∧ Found On kind.ids t moved (callAdvanceTo c t) := by
    intro c moved k t on small good
    rcases Nat.lt_or_ge k t with beyond | reached
    · exact .inr ⟨beyond,resets.advanceTo c moved k t on beyond small good⟩
    · exact .inl ⟨reached,resets.stay c moved k t on reached⟩
  constructor
  · rintro c moved (_ | k) call at' target fine
    · rw [Ended.call at' call]
      exact ⟨rfl,at'⟩
    · cases call with
      | advance =>
        rw [CursorLeaf.call,answer]
        rcases at' with ⟨rfl,rfl,on⟩ | on
        · obtain ⟨returned,on'⟩ := resets.reset c first on
          rw [(begin_ 1 (Nat.pos_of_ne_zero (some_ _ _ _ on))).found Nat.one_pos]
          exact ⟨returned,.inr on'⟩
        · rcases (resets.fineAdvance moved k).mp fine with zero | ⟨rfl,good⟩
          · exact absurd zero (some_ _ _ _ on)
          · exact (resets.advance c k on good).step (c := c) away rfl
      | advanceTo t =>
        have good := (resets.fineTo moved k t).mp fine
        rw [CursorLeaf.call,isAdvance,Bool.or_false]
        rcases at' with ⟨rfl,rfl,on⟩ | on
        · have equal : answer kind.ids (some 0) (.advanceTo t) = found (least kind.ids t) := by simp [answer]
          rcases target_ c false first t on target good with ⟨reached,returned⟩ | ⟨beyond,same⟩
          · rw [returned,equal,(begin_ t reached).found_of fun _ => away]
            exact ⟨rfl,.inr on⟩
          · exact same.step (c := c) away equal
        · rcases target_ c moved k t on target good with ⟨reached,returned⟩ | ⟨beyond,same⟩
          · rw [returned,answer,if_pos ⟨some_ _ _ _ on,reached⟩]
            exact ⟨rfl,.inr on⟩
          · refine same.step (c := c) away ?_
            rw [answer,if_neg fun both => absurd both.2 (Nat.not_le.mpr beyond)]
  · rintro c moved (_ | k) call at' target fine
    · exact absurd (resets.fineNone moved call) fine
    · cases call with
      | advance =>
        rw [resets.fineAdvance] at fine
        rw [CursorLeaf.call,answer]
        rcases at' with ⟨rfl,rfl,on⟩ | on
        · exact absurd (.inl rfl) fine
        · cases moved with
          | false =>
            have finds := least_finds (S := kind.ids) (k := k + 1) (Nat.succ_pos k)
            rw [(resets.reset c k on).1]
            have positive := some_ _ _ _ on
            rcases finds with ⟨zero,_⟩ | ⟨_,beyond,_⟩
            · rw [zero]
              exact positive
            · omega
          | true => exact resets.wrong c k on fun good => fine (.inr ⟨rfl,good⟩)
      | advanceTo t =>
        rw [resets.fineTo] at fine
        rw [CursorLeaf.call,answer]
        rcases at' with ⟨rfl,rfl,on⟩ | on
        · rw [if_neg fun both => both.1 rfl]
          exact (resets.wrongTo c false first t on target fine).1
        · obtain ⟨differ,beyond⟩ := resets.wrongTo c moved k t on target fine
          rw [if_neg fun both => absurd both.2 (Nat.not_le.mpr beyond)]
          exact differ

end

/-- Before its first `advance` the leaf is still to be reset to `own`. -/
def Own (own : AdvanceCb) (c : Leaf) : Bool → Prop
  | true => c.advance = own
  | false => c.advance = .postReset ∧ c._advance = own

theorem Own.keep {own : AdvanceCb} {c c' : Leaf} {moved : Bool} (same : c'.advance = c.advance) (same' : c'._advance = c._advance)
    (held : Own own c moved) : Own own c' moved := by
  cases moved with
  | true => exact same.trans held
  | false => exact ⟨same.trans held.1,same'.trans held.2⟩

/-! ### Ranges -/

structure OnRange (start end_ : Nat) (c : Leaf) (moved : Bool) (k : Nat) : Prop where
  inside : start ≤ k ∧ k < end_
  current : c.current = k
  next : c.rangeCurrent = k + 1
  stop : c.rangeEnd = end_
  callback : c.advanceTo = .rangeTo
  own : Own .range c moved

theorem range_resets {start end_ : Nat} (positive : 1 ≤ start) (small : end_ < 2 ^ 32) (some_ : start < end_) :
    Resets (.range start end_) (OnRange start end_) start (fun _ => True) fun _ => True where
  inside := Finset.mem_Ico.mpr ⟨Nat.le_refl _,some_⟩
  lowest x held := (Finset.mem_Ico.mp held).1
  positive held := absurd (Finset.mem_Ico.mp held).1 (by omega)
  stands c moved k on := Finset.mem_Ico.mpr on.inside
  stay c moved k t on reached := by
    rw [callAdvanceTo,on.callback]
    simp only [advanceRangeTo,on.current,if_pos reached]
  reset c k on := by
    rw [callAdvance,on.own.1]
    exact ⟨on.current,on.inside,on.current,on.next,on.stop,on.callback,on.own.2⟩
  advance c k on good := by
    have callback : c.advance = .range := on.own
    have inside := on.inside
    rw [callAdvance,callback]
    simp only [advanceRange,on.next,on.stop]
    by_cases ended : end_ ≤ k + 1
    · rw [if_pos ended]
      refine ⟨none,.inl ⟨rfl,rfl,fun x held => ?_⟩,acCursorEmpty_ended c⟩
      have := Finset.mem_Ico.mp held
      omega
    · rw [if_neg ended]
      refine ⟨some (k + 1),.inr ⟨?_,Nat.le_refl _,rfl,fun x _ from_ => from_⟩,⟨?_,rfl,?_,rfl,on.callback,callback⟩⟩
      · exact Finset.mem_Ico.mpr ⟨by omega,by omega⟩
      · exact ⟨by omega,by omega⟩
      · exact Nat.mod_eq_of_lt (by omega)
  advanceTo c moved k t on beyond target good := by
    have inside := on.inside
    rw [callAdvanceTo,on.callback]
    simp only [advanceRangeTo,on.current,if_neg (Nat.not_le.mpr beyond),on.stop]
    by_cases ended : end_ ≤ t
    · rw [if_pos ended]
      refine ⟨none,.inl ⟨rfl,rfl,fun x held => ?_⟩,acCursorEmpty_ended c⟩
      have := Finset.mem_Ico.mp held
      omega
    · rw [if_neg ended]
      refine ⟨some t,.inr ⟨?_,Nat.le_refl _,rfl,fun x _ from_ => from_⟩,⟨?_,rfl,?_,rfl,on.callback,on.own.keep rfl rfl⟩⟩
      · exact Finset.mem_Ico.mpr ⟨by omega,by omega⟩
      · exact ⟨by omega,by omega⟩
      · exact Nat.mod_eq_of_lt (by omega)
  wrong c k on bad := absurd trivial bad
  wrongTo c moved k t on target bad := absurd trivial bad
  fineAdvance moved k := by
    rw [Kind.Fine,if_neg (Nat.not_le.mpr some_)]
    simp
  fineTo moved k t := by
    rw [Kind.Fine]
    exact iff_of_true (fun empty => absurd some_ (Nat.not_lt.mpr empty)) trivial
  fineNone moved call := by
    cases call with
    | advance =>
      rw [Kind.Fine,if_neg (Nat.not_le.mpr some_)]
      exact .inl rfl
    | advanceTo t => exact fun _ => .inl rfl

/-- An empty range stands on its start all the same. -/
def EmptyRange (start end_ : Nat) (c : Leaf) (moved : Bool) : Option Nat → Prop
  | none => Ended c
  | some k => k = 0 ∧ c = acCursorRange start end_

theorem range_to (start end_ t : Nat) :
    callAdvanceTo (acCursorRange start end_) t =
      if t ≤ start then (start,acCursorRange start end_)
      else if end_ ≤ t then acCursorEmpty (acCursorRange start end_)
      else (t,{ acCursorRange start end_ with current := t, rangeCurrent := (t + 1) % 2 ^ 32 }) := rfl

theorem empty_range_step {start end_ : Nat} (positive : 1 ≤ start) (empty : end_ ≤ start) :
    Step (.range start end_) (EmptyRange start end_) := by
  have none_ : ∀ k, found (least (Kind.range start end_).ids k) = (0,none) := by
    intro k
    rw [Kind.ids,Finset.Ico_eq_empty_of_le empty]
    rfl
  constructor
  · rintro c moved (_ | k) call at' target fine
    · rw [Ended.call at' call]
      exact ⟨rfl,at'⟩
    · obtain ⟨rfl,rfl⟩ := at'
      cases call with
      | advance =>
        rw [Kind.Fine,if_pos empty] at fine
        cases fine
      | advanceTo t =>
        rcases fine empty with zero | beyond
        · cases zero
        · have equal : answer (Kind.range start end_).ids (some 0) (.advanceTo t) = (0,none) := by
            rw [answer,if_neg fun both => both.1 rfl]
            exact none_ t
          have returned : CursorLeaf.call (acCursorRange start end_) (.advanceTo t) = acCursorEmpty (acCursorRange start end_) := by
            have ended : end_ ≤ t := by omega
            rw [CursorLeaf.call,range_to,if_neg (Nat.not_le.mpr beyond),if_pos ended]
          rw [returned,equal]
          exact ⟨rfl,acCursorEmpty_ended _⟩
  · rintro c moved (_ | k) call at' target fine
    · cases call with
      | advance =>
        rw [Kind.Fine,if_pos empty] at fine
        exact absurd rfl fine
      | advanceTo t => exact absurd (fun _ => .inl rfl) fine
    · obtain ⟨rfl,rfl⟩ := at'
      cases call with
      | advance =>
        rw [answer,none_]
        change start ≠ 0
        omega
      | advanceTo t =>
        have reached : t ≤ start := by
          by_contra beyond
          exact fine fun _ => .inr (by omega)
        rw [answer,if_neg fun both => both.1 rfl,none_,CursorLeaf.call,range_to,if_pos reached]
        exact Nat.ne_of_gt positive

/-! ### Single ids -/

/-- The `advance_to` of a single id never finds it. -/
def SingleAt (id : Nat) (c : Leaf) (moved : Bool) : Option Nat → Prop
  | none => c.advanceTo = .emptyTo ∧ (moved = false → c.current = id) ∧ Own .empty c moved
  | some k => c.advanceTo = .emptyTo ∧ (k = 0 ∧ moved = false ∧ c.current = id ∨ k = id ∧ moved = true) ∧ Own .empty c moved

theorem single_step {id : Nat} (positive : 1 ≤ id) : Step (.single id) (SingleAt id) := by
  have finds : ∀ k ≤ id, Finds {id} k id (some id) := fun k less => .inr ⟨by simp,less,rfl,fun x held _ => by
    rw [Finset.mem_singleton.mp held]⟩
  have none_ : ∀ k, id < k → Finds {id} k 0 none := fun k more => .inl ⟨rfl,rfl,fun x held => by
    rw [Finset.mem_singleton.mp held]
    exact more⟩
  have away : ∀ k : Nat, k = 0 → 0 ∉ ({id} : Finset Nat) := by
    intro k _ held
    have := Finset.mem_singleton.mp held
    omega
  have to_ : ∀ c t, c.advanceTo = .emptyTo → CursorLeaf.call c (.advanceTo t) = (0,c) := by
    intro c t callback
    rw [CursorLeaf.call,callAdvanceTo,callback]
  constructor
  · rintro c moved (_ | k) call ⟨callback,stands,own⟩ target fine
    · cases call with
      | advance =>
        obtain rfl := fine rfl
        have own' : c.advance = .empty := own
        rw [CursorLeaf.call,callAdvance,own']
        exact ⟨rfl,callback,fun no => absurd no (by simp),own'⟩
      | advanceTo t =>
        rw [to_ c t callback,isAdvance,Bool.or_false]
        exact ⟨rfl,callback,stands,own⟩
    · cases call with
      | advance =>
        rw [CursorLeaf.call,callAdvance,answer]
        rcases stands with ⟨rfl,rfl,current⟩ | ⟨rfl,rfl⟩
        · rw [own.1,(show found (least (Kind.single id).ids (0 + 1)) = (id,some id) from (finds 1 positive).found Nat.one_pos)]
          exact ⟨current,callback,.inr ⟨rfl,rfl⟩,own.2⟩
        · have own' : c.advance = .empty := own
          rw [own',(show found (least (Kind.single k).ids (k + 1)) = (0,none) from (none_ _ (Nat.lt_succ_self k)).found (Nat.succ_pos k))]
          exact ⟨rfl,callback,fun no => absurd no (by simp),own'⟩
      | advanceTo t =>
        have beyond : id < t := by
          rcases fine with ended | beyond
          · cases ended
          · exact beyond
        have equal : answer (Kind.single id).ids (some k) (.advanceTo t) = (0,none) := by
          rw [answer,if_neg]
          · exact (none_ t beyond).found (by omega)
          · rintro ⟨some_,reached⟩
            rcases stands with ⟨zero,_⟩ | ⟨rfl,_⟩
            · exact some_ zero
            · omega
        rw [to_ c t callback,equal,isAdvance,Bool.or_false]
        refine ⟨rfl,callback,fun no => ?_,own⟩
        rcases stands with ⟨_,_,current⟩ | ⟨_,yes⟩
        · exact current
        · rw [yes] at no
          cases no
  · rintro c moved (_ | k) call ⟨callback,stands,own⟩ target fine
    · cases call with
      | advance =>
        have no : moved = false := by
          by_contra yes
          exact fine fun _ => by simpa using yes
        subst no
        rw [CursorLeaf.call,callAdvance,own.1]
        change c.current ≠ 0
        rw [stands rfl]
        omega
      | advanceTo t => exact absurd (.inl rfl) fine
    · cases call with
      | advance => exact absurd (fun none => by cases none) fine
      | advanceTo t =>
        have reached : t ≤ id := by
          by_contra beyond
          exact fine (.inr (by omega))
        have equal : (answer (Kind.single id).ids (some k) (.advanceTo t)).1 = id := by
          rcases stands with ⟨rfl,_⟩ | ⟨rfl,_⟩
          · rw [answer,if_neg fun both => both.1 rfl]
            exact congrArg Prod.fst ((finds t reached).found_of (away t))
          · rw [answer,if_pos ⟨by omega,reached⟩]
        rw [to_ c t callback,equal]
        omega

/-! ### Bit sets -/

structure OnBits (h : BitSet) (c : Leaf) (moved : Bool) (k : Nat) : Prop where
  inside : k ∈ idsOf h
  current : c.current = k
  bitSet : c.bitSet = h
  callback : c.advanceTo = .bitSetTo
  own : Own .bitSet c moved

section
variable {h : BitSet}

theorem idsOf_lt (few : h.items.length ≤ 2 ^ 26) {x : Nat} (held : x ∈ idsOf h) : x < 2 ^ 32 := by
  have inside := Finset.mem_range.mp (Finset.mem_filter.mp held).1
  omega

theorem idsOf_positive (clear : bit h.items 0 = false) : 0 ∉ idsOf h := by
  rw [mem_idsOf,clear]
  simp

/-- The search from the id after the current one. -/
theorem bits_found {c : Leaf} {k next : Nat} {moved : Bool} (set : c.bitSet = h) (callback : c.advanceTo = .bitSetTo)
    (own : Own .bitSet c moved) (next_eq : next = (c.current + 1) % 2 ^ 32) (less : k ≤ next)
    (skipped : ∀ x ∈ idsOf h, k ≤ x → next ≤ x) : Found (OnBits h) (idsOf h) k moved (advanceBitSet c) := by
  rcases advanceBitSet_spec c next_eq with ⟨ended,below⟩ | ⟨id',found,held,from_,first⟩
  · rw [ended]
    refine ⟨none,.inl ⟨rfl,rfl,fun x inside => ?_⟩,acCursorEmpty_ended c⟩
    by_contra beyond
    rw [set] at below
    have := below x ((mem_idsOf h x).mp inside)
    exact absurd (skipped x inside (by omega)) (by omega)
  · rw [found]
    rw [set] at held first
    have inside := (mem_idsOf h id').mpr held
    refine ⟨some id',.inr ⟨inside,by simp only; omega,rfl,fun x other beyond => ?_⟩,inside,rfl,set,callback,own.keep rfl rfl⟩
    exact first x ((mem_idsOf h x).mp other) (skipped x other beyond)

/-- After the last 32-bit number the search starts at the first word again. -/
theorem bits_wrap {c : Leaf} (clear : bit h.items 0 = false) (some_ : (idsOf h).Nonempty) (set : c.bitSet = h)
    (last : c.current = 2 ^ 32 - 1) : (advanceBitSet c).1 ≠ 0 := by
  have next : 0 = (c.current + 1) % 2 ^ 32 := by omega
  rcases advanceBitSet_spec c next with ⟨_,none⟩ | ⟨id',found,held,_⟩
  · obtain ⟨x,inside⟩ := some_
    rw [set] at none
    exact absurd (none x ((mem_idsOf h x).mp inside)) (Nat.not_lt_zero x)
  · rw [found]
    rintro rfl
    rw [set,clear] at held
    cases held

theorem above_last (few : h.items.length ≤ 2 ^ 26) {k : Nat} (last : 2 ^ 32 - 1 ≤ k) (missing : k ∉ idsOf h) :
    (found (least (idsOf h) k)).1 = 0 := by
  have finds : Finds (idsOf h) k 0 none := .inl ⟨rfl,rfl,fun x held => by
    have := idsOf_lt few held
    refine Nat.lt_of_le_of_ne (by omega) ?_
    rintro rfl
    exact missing held⟩
  rw [finds.found (by omega)]

theorem bits_resets (clear : bit h.items 0 = false) (few : h.items.length ≤ 2 ^ 26) {first : Nat} (inside : first ∈ idsOf h)
    (lowest : ∀ x ∈ idsOf h, first ≤ x) :
    Resets (.bitSet h) (OnBits h) first (fun k => k ≠ 2 ^ 32 - 1) fun t => t = 2 ^ 32 - 1 → t ∈ idsOf h where
  inside := inside
  lowest := lowest
  positive := idsOf_positive clear
  stands c moved k on := on.inside
  stay c moved k t on reached := by
    rw [callAdvanceTo,on.callback]
    simp only [advanceBitSetTo,on.current,if_pos reached]
  reset c k on := by
    rw [callAdvance,on.own.1]
    exact ⟨on.current,on.inside,on.current,on.bitSet,on.callback,on.own.2⟩
  advance c k on good := by
    have callback : c.advance = .bitSet := on.own
    have small := idsOf_lt few on.inside
    rw [callAdvance,callback]
    refine bits_found on.bitSet on.callback on.own ?_ (Nat.le_refl (k + 1)) fun x _ from_ => from_
    rw [on.current,Nat.mod_eq_of_lt]
    omega
  advanceTo c moved k t on beyond target good := by
    rw [callAdvanceTo,on.callback]
    simp only [advanceBitSetTo,on.current,if_neg (Nat.not_le.mpr beyond),on.bitSet,acBitSet_eq]
    cases held : bit h.items t with
    | true =>
      have inside := (mem_idsOf h t).mpr held
      exact ⟨some t,.inr ⟨inside,Nat.le_refl t,rfl,fun x _ from_ => from_⟩,inside,rfl,rfl,on.callback,on.own.keep rfl rfl⟩
    | false =>
      have missing : t ∉ idsOf h := by rw [mem_idsOf,held]; simp
      have notLast : t ≠ 2 ^ 32 - 1 := fun last => missing (good last)
      refine bits_found rfl on.callback (on.own.keep rfl rfl) (Nat.mod_eq_of_lt ?_).symm (Nat.le_succ t) fun x other from_ => ?_
      · simp only
        omega
      · refine Nat.lt_of_le_of_ne from_ ?_
        rintro rfl
        exact missing other
  wrong c k on bad := by
    have last : k = 2 ^ 32 - 1 := not_not.mp bad
    have callback : c.advance = .bitSet := on.own
    rw [callAdvance,callback,Kind.ids,above_last few (by omega)]
    · exact bits_wrap clear ⟨first,inside⟩ on.bitSet (on.current.trans last)
    · intro held
      have := idsOf_lt few held
      omega
  wrongTo c moved k t on target bad := by
    obtain ⟨last,missing⟩ := Classical.not_imp.mp bad
    have small := idsOf_lt few on.inside
    have beyond : k < t := by
      refine Nat.lt_of_le_of_ne (by omega) ?_
      rintro rfl
      exact missing on.inside
    have clear' : bit h.items t = false := by simpa [mem_idsOf] using missing
    refine ⟨?_,beyond⟩
    rw [callAdvanceTo,on.callback,Kind.ids,above_last few (by omega) missing]
    simp only [advanceBitSetTo,on.current,if_neg (Nat.not_le.mpr beyond),on.bitSet,acBitSet_eq,clear']
    exact bits_wrap clear ⟨first,inside⟩ rfl last
  fineAdvance moved k := by
    rw [Kind.Fine]
    simp
  fineTo moved k t := by
    have some_ : idsOf h ≠ ∅ := Finset.ne_empty_of_mem inside
    rw [Kind.Fine]
    simp [some_]
  fineNone moved call := by
    cases call with
    | advance => exact .inl rfl
    | advanceTo t => exact fun _ => .inl rfl

theorem open_bits (clear : bit h.items 0 = false) :
    idsOf h = ∅ ∧ acBitSetOpenCursor h = acCursorReset (acCursorEmpty ⟨0,.bitSet,.bitSetTo,.empty,0,0,h⟩).2 ∨
      ∃ first ∈ idsOf h, (∀ x ∈ idsOf h, first ≤ x) ∧ OnBits h (acBitSetOpenCursor h) false first := by
  have positive : ∀ x ∈ idsOf h, 1 ≤ x := by
    intro x held
    by_contra zero
    obtain rfl : x = 0 := by omega
    exact idsOf_positive clear held
  have next : 1 = ((⟨0,.bitSet,.bitSetTo,.empty,0,0,h⟩ : Leaf).current + 1) % 2 ^ 32 := rfl
  rw [acBitSetOpenCursor,callAdvance]
  simp only
  rcases advanceBitSet_spec _ next with ⟨ended,none⟩ | ⟨first,found,held,from_,lowest⟩
  · refine .inl ⟨?_,by rw [ended]⟩
    rw [Finset.eq_empty_iff_forall_notMem]
    intro x held
    exact absurd (none x ((mem_idsOf h x).mp held)) (Nat.not_lt.mpr (positive x held))
  · have inside := (mem_idsOf h first).mpr held
    refine .inr ⟨first,inside,fun x other => lowest x ((mem_idsOf h x).mp other) (positive x other),?_⟩
    rw [found]
    exact ⟨inside,rfl,rfl,rfl,rfl,rfl⟩

/-- A cursor of no ids. -/
def EmptyBits (c : Leaf) (moved : Bool) (p : Option Nat) : Prop :=
  c.advanceTo = .emptyTo ∧ c.current = 0 ∧ (c.advance = .empty ∨ Own .empty c false) ∧ (p = none ∨ p = some 0)

theorem empty_bits_step (empty : idsOf h = ∅) : Step (.bitSet h) EmptyBits := by
  have none_ : ∀ p call, (p = none ∨ p = some 0) → answer (Kind.bitSet h).ids p call = (0,none) := by
    rintro p call (rfl | rfl)
    · rfl
    · rw [Kind.ids,empty]
      cases call with
      | advance => rfl
      | advanceTo t =>
        rw [answer,if_neg fun both => both.1 rfl]
        rfl
  have fine_ : ∀ moved p call, (p = none ∨ p = some 0) → (Kind.bitSet h).Fine moved p call := by
    intro moved p call stands
    cases call with
    | advance =>
      rcases stands with ended | fresh
      · exact .inl ended
      · exact .inr (.inl fresh)
    | advanceTo t => exact fun _ => .inr (.inr empty)
  constructor
  · rintro c moved p call ⟨callback,zero,advance_,stands⟩ target fine
    rw [none_ p call stands]
    cases call with
    | advance =>
      rw [CursorLeaf.call,callAdvance]
      rcases advance_ with done | ⟨reset,own⟩
      · rw [done]
        exact ⟨rfl,callback,zero,.inl done,.inl rfl⟩
      · rw [reset]
        exact ⟨zero,callback,zero,.inl own,.inl rfl⟩
    | advanceTo t =>
      rw [CursorLeaf.call,callAdvanceTo,callback]
      exact ⟨rfl,callback,zero,advance_,.inl rfl⟩
  · rintro c moved p call ⟨_,_,_,stands⟩ target bad
    exact absurd (fine_ moved p call stands) bad

end

/-! ### All leaves -/

/-- A leaf answers a sequence of calls as the cursor of its ids does exactly when each
    call finds it in a state it is right in. -/
theorem leaf_iff {kind : Kind} (valid : kind.Valid) {calls : List Call} (targets : ∀ call ∈ calls, Target call) :
    run kind.cursor calls = (answers kind.ids (some 0) calls).1 ↔ kind.FineRun false (some 0) calls := by
  cases kind with
  | range start end_ =>
    obtain ⟨positive,_,small⟩ := valid
    by_cases empty : end_ ≤ start
    · have on : EmptyRange start end_ (acCursorRange start end_) false (some 0) := ⟨rfl,rfl⟩
      exact (empty_range_step positive empty).run_iff on targets
    · have some_ := Nat.not_le.mp empty
      have on : OnRange start end_ (acCursorRange start end_) false start :=
        ⟨⟨Nat.le_refl _,some_⟩,rfl,Nat.mod_eq_of_lt (by omega),rfl,rfl,rfl,rfl⟩
      exact (range_resets positive small some_).step.run_iff (p := some 0) (.inl ⟨rfl,rfl,on⟩) targets
  | single id =>
    have start : SingleAt id (acCursorInitId id) false (some 0) := ⟨rfl,.inl ⟨rfl,rfl,rfl⟩,rfl,rfl⟩
    exact (single_step valid.1).run_iff start targets
  | bitSet h =>
    obtain ⟨clear,few⟩ := valid
    rcases open_bits clear with ⟨empty,opened⟩ | ⟨first,inside,lowest,on⟩
    · have start : EmptyBits (Kind.bitSet h).cursor false (some 0) := by
        rw [Kind.cursor,opened]
        exact ⟨rfl,rfl,.inr ⟨rfl,rfl⟩,.inr rfl⟩
      exact (empty_bits_step empty).run_iff start targets
    · exact (bits_resets clear few inside lowest).step.run_iff (p := some 0) (.inl ⟨rfl,rfl,on⟩) targets

/-- A range that is advanced first. -/
theorem leaf_range :
    run (Kind.range 1 3).cursor [.advance,.advanceTo 2,.advance] =
      (answers (Kind.range 1 3).ids (some 0) [.advance,.advanceTo 2,.advance]).1 := by
  have valid : (Kind.range 1 3).Valid := ⟨by decide,by decide,by decide⟩
  refine (leaf_iff valid (by simp [Target])).mpr ?_
  exact ⟨.inr (.inl rfl),fun empty => absurd empty (by decide),.inr (.inr rfl),trivial⟩

/-- The range from 5 to 5, asked for 5 and then advanced, answers 5 twice. -/
theorem range_repeats :
    ¬ ∀ (kind : Kind) calls, kind.Valid → (∀ call ∈ calls, Target call) →
      run kind.cursor calls = (answers kind.ids (some 0) calls).1 := by
  intro all
  have targets : ∀ call ∈ [Call.advanceTo 5,.advance], Target call := by simp [Target]
  have same := all (.range 5 6) [.advanceTo 5,.advance] ⟨by decide,by decide,by decide⟩ targets
  revert same
  decide +kernel

end AnotherC.CursorLeaf
