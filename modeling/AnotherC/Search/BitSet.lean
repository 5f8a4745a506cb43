import Mathlib.Data.Finset.Card
import Mathlib.Data.Finset.Range
import Mathlib.Data.Nat.Bitwise
import Mathlib.Data.Nat.Count
import Mathlib.Data.Finset.Max
import AnotherC.Lib.Rows

/-!
# Bit sets: `ac_bit_set`

A set of numbers below `n` is an array of words with a bit for each number, and a
mask for the last word. Every sequence of operations does to the sets what the
operations of the boolean algebra do, exactly where no copy needs its mask
(`sets_agree_iff`): `ac_bit_set_copy` does not copy it.
-/
namespace AnotherC.BitSet
open AnotherC.Lib.Rows
set_option linter.unusedVariables false

abbrev Word := BitVec 64

/-- `ac_bit_set_t`. -/
structure BitSet where
  items : List Word
  lastMask : Word

/-- The loop of `ac_bit_set_init`. -/
def maskOf : Nat → Word → Word
  | 0, mask => mask
  | n + 1, mask => maskOf n ((mask <<< 1) + 1)

def acBitSetInit (numItems : Nat) : BitSet :=
  ⟨List.replicate ((numItems >>> 6) + 1) 0,maskOf (numItems &&& 63) 0⟩

def acBitSetNot (dest toNot : BitSet) : BitSet :=
  { dest with items := List.zipWith (fun p p2 => p &&& ~~~p2) dest.items toNot.items }

def acBitSetOr (dest toOr : BitSet) : BitSet :=
  { dest with items := List.zipWith (fun p p2 => p ||| p2) dest.items toOr.items }

def acBitSetAnd (dest toAnd : BitSet) : BitSet :=
  { dest with items := List.zipWith (fun p p2 => p &&& p2) dest.items toAnd.items }

def acBitSetFalse (h : BitSet) : BitSet := { h with items := h.items.map fun _ => 0 }

/-- `ep[-1] = ep[-1] & h->last_mask`. -/
def maskLast (h : BitSet) : BitSet := { h with items := h.items.modify (h.items.length - 1) (· &&& h.lastMask) }

def acBitSetTrue (h : BitSet) : BitSet := maskLast { h with items := h.items.map fun _ => 0xFFFFFFFFFFFFFFFF#64 }

def acBitSetComplement (h : BitSet) : BitSet := maskLast { h with items := h.items.map fun p => ~~~p }

/-- The copy is allocated with zeros, and only the items are copied. -/
def acBitSetCopy (src : BitSet) : BitSet := ⟨src.items,0⟩

def acBitSetSet (h : BitSet) (id : Nat) : BitSet :=
  let block := id >>> 6
  let mask := id &&& 63
  if h.items.length ≤ block then h else { h with items := h.items.modify block (· ||| (1#64 <<< mask)) }

def acBitSetUnset (h : BitSet) (id : Nat) : BitSet :=
  let block := id >>> 6
  let mask := id &&& 63
  if h.items.length ≤ block then h else { h with items := h.items.modify block (· &&& ~~~(1#64 <<< mask)) }

def acBitSetBoolean (h : BitSet) (id : Nat) (v : Bool) : BitSet :=
  if v then acBitSetSet h id else acBitSetUnset h id

theorem and_pred_lt {n : Word} (some : n ≠ 0) : (n &&& (n - 1)).toNat < n.toNat := by
  have positive : 0 < n.toNat := by
    rw [Nat.pos_iff_ne_zero]
    exact fun zero => some (BitVec.eq_of_toNat_eq zero)
  have small := n.isLt
  have less : (n - 1).toNat = n.toNat - 1 := by
    rw [BitVec.toNat_sub_of_le]
    · rfl
    · exact positive
  rw [BitVec.toNat_and,less]
  exact Nat.lt_of_le_of_lt Nat.and_le_right (by omega)

/-- The loop that clears a bit at a time. -/
def bitCount (n : Word) (count : Nat) : Nat :=
  if some : n ≠ 0 then bitCount (n &&& (n - 1)) (count + 1) else count
termination_by n.toNat
decreasing_by exact and_pred_lt some

/-- `ac_bit_set_count`; `count` is an `unsigned int`. -/
def acBitSetCount (h : BitSet) : Nat := h.items.foldl (fun count n => bitCount n count) 0 % 2 ^ 32

def acBitSetCountAndZero (h : BitSet) : Nat × BitSet :=
  (h.items.foldl (fun count n => if n ≠ 0 then bitCount n count else count) 0 % 2 ^ 32,
    { h with items := h.items.map fun n => if n ≠ 0 then 0 else n })

/-- `ac_bit_set`. -/
def acBitSet (h : BitSet) (id : Nat) : Bool :=
  let block := id >>> 6
  let mask := id &&& 63
  match h.items[block]? with
  | none => false
  | some p => (p &&& (1#64 <<< mask)) ≠ 0

theorem shift_lt {n : Word} (some : n ≠ 0) : (n >>> 1).toNat < n.toNat := by
  have positive : 0 < n.toNat := by
    rw [Nat.pos_iff_ne_zero]
    exact fun zero => some (BitVec.eq_of_toNat_eq zero)
  rw [BitVec.toNat_ushiftRight,Nat.shiftRight_eq_div_pow]
  omega

/-- The loop that looks for the lowest bit of a word. -/
def lowBit (n : Word) (id : Nat) : Nat :=
  if some : n ≠ 0 then if n &&& 1 = 0 then lowBit (n >>> 1) (id + 1) else id else id
termination_by n.toNat
decreasing_by exact shift_lt some

/-- The loop of `ac_bit_set_first`, from the word at `block`. -/
def firstFrom (block : Nat) : List Word → Nat
  | [] => 0
  | n :: items => if n ≠ 0 then lowBit n (block <<< 6) else firstFrom (block + 1) items

def acBitSetFirst (h : BitSet) : Nat := firstFrom 0 h.items

/-! ## Bits -/

/-- The bit of a number in an array of words. -/
def bit (items : List Word) (x : Nat) : Bool := ((items[x / 64]?).map fun p => p.getLsbD (x % 64)).getD false

theorem block_eq (id : Nat) : id >>> 6 = id / 64 := Nat.shiftRight_eq_div_pow id 6

theorem place_eq (id : Nat) : id &&& 63 = id % 64 := Nat.and_two_pow_sub_one_eq_mod id 6

theorem place_lt (x : Nat) : x % 64 < 64 := Nat.mod_lt x (by decide)

theorem single_bit {m i : Nat} (place : m < 64) (inside : i < 64) :
    (1#64 <<< m).getLsbD i = decide (i = m) := by
  rw [BitVec.getLsbD_shiftLeft]
  by_cases same : i = m
  · simp [same,place]
  · simp [same]
    omega

theorem and_single {p : Word} {m : Nat} (place : m < 64) : decide ((p &&& (1#64 <<< m)) ≠ 0) = p.getLsbD m := by
  cases held : p.getLsbD m with
  | true =>
    rw [decide_eq_true_eq]
    intro zero
    have bits := congrArg (BitVec.getLsbD · m) zero
    simp [held,single_bit place place] at bits
  | false =>
    rw [decide_eq_false_iff_not,not_not]
    apply BitVec.eq_of_getLsbD_eq
    intro i inside
    rw [BitVec.getLsbD_and,single_bit place inside]
    by_cases same : i = m
    · simp [same,held]
    · simp [same]

theorem acBitSet_eq (h : BitSet) (id : Nat) : acBitSet h id = bit h.items id := by
  rw [acBitSet,bit,block_eq,place_eq]
  cases h.items[id / 64]? with
  | none => rfl
  | some p => exact and_single (place_lt id)

theorem bit_modify (items : List Word) (k x : Nat) (f : Word → Word) :
    bit (items.modify k f) x =
      ((items[x / 64]?).map fun p => (if x / 64 = k then f p else p).getLsbD (x % 64)).getD false := by
  have symm : (k = x / 64) = (x / 64 = k) := propext eq_comm
  rw [bit,List.getElem?_modify]
  simp only [symm]
  cases items[x / 64]? with
  | none => rfl
  | some p => by_cases same : x / 64 = k <;> simp [same]

theorem bit_zipWith {f : Word → Word → Word} {g : Bool → Bool → Bool} {items others : List Word}
    (lengths : items.length = others.length) (bits : ∀ p q i, i < 64 → (f p q).getLsbD i = g (p.getLsbD i) (q.getLsbD i))
    (none : g false false = false) (x : Nat) : bit (List.zipWith f items others) x = g (bit items x) (bit others x) := by
  rw [bit,bit,bit,List.getElem?_zipWith]
  by_cases inside : x / 64 < items.length
  · rw [List.getElem?_eq_getElem inside,List.getElem?_eq_getElem (lengths ▸ inside)]
    exact bits _ _ _ (place_lt x)
  · rw [List.getElem?_eq_none (Nat.le_of_not_lt inside),List.getElem?_eq_none (lengths ▸ Nat.le_of_not_lt inside)]
    exact none.symm

theorem bit_map {f : Word → Word} {g : Bool → Bool} (items : List Word)
    (bits : ∀ p i, i < 64 → (f p).getLsbD i = g (p.getLsbD i)) (x : Nat) :
    bit (items.map f) x = (decide (x / 64 < items.length) && g (bit items x)) := by
  rw [bit,bit,List.getElem?_map]
  by_cases inside : x / 64 < items.length
  · rw [List.getElem?_eq_getElem inside]
    simpa [inside] using bits _ _ (place_lt x)
  · rw [List.getElem?_eq_none (Nat.le_of_not_lt inside)]
    simp [inside]

section
variable {h : BitSet} {id x : Nat}

theorem bit_set (inside : id / 64 < h.items.length) :
    bit (acBitSetSet h id).items x = (decide (x = id) || bit h.items x) := by
  rw [acBitSetSet,block_eq,place_eq]
  simp only [if_neg (Nat.not_le.mpr inside)]
  rw [bit_modify,bit]
  by_cases same : x / 64 = id / 64
  · rw [same,List.getElem?_eq_getElem inside]
    simp only [Option.map_some,Option.getD_some,if_true,BitVec.getLsbD_or,single_bit (place_lt id) (place_lt x)]
    rw [Bool.or_comm]
    congr 2
    rw [eq_iff_iff]
    omega
  · have other : x ≠ id := fun equal => same (by rw [equal])
    simp [same,other]

theorem bit_unset (inside : id / 64 < h.items.length) :
    bit (acBitSetUnset h id).items x = (!decide (x = id) && bit h.items x) := by
  rw [acBitSetUnset,block_eq,place_eq]
  simp only [if_neg (Nat.not_le.mpr inside)]
  rw [bit_modify,bit]
  by_cases same : x / 64 = id / 64
  · rw [same,List.getElem?_eq_getElem inside]
    simp only [Option.map_some,Option.getD_some,if_true,BitVec.getLsbD_and,BitVec.getLsbD_not,
      single_bit (place_lt id) (place_lt x),place_lt x,decide_true,Bool.true_and]
    rw [Bool.and_comm]
    congr 3
    rw [eq_iff_iff]
    omega
  · have other : x ≠ id := fun equal => same (by rw [equal])
    simp [same,other]

end

/-! ## The mask -/

theorem maskOf_bit {n : Nat} (small : n < 64) {mask : Word} {k : Nat} (room : k + n < 64)
    (low : ∀ i < 64, mask.getLsbD i = decide (i < k)) :
    ∀ i < 64, (maskOf n mask).getLsbD i = decide (i < k + n) := by
  induction n generalizing mask k with
  | zero => exact low
  | succ n ih =>
    have shifted : mask <<< 1 + 1#64 = mask <<< 1 ||| 1#64 := by
      apply BitVec.add_eq_or_of_and_eq_zero
      apply BitVec.eq_of_getLsbD_eq
      intro i inside
      by_cases first : i = 0 <;> simp [first]
    have next : ∀ i < 64, (mask <<< 1 + 1#64).getLsbD i = decide (i < k + 1) := by
      intro i inside
      rw [shifted,BitVec.getLsbD_or,BitVec.getLsbD_shiftLeft]
      cases i with
      | zero => simp
      | succ i => simp [inside,low i (by omega)]
    intro i inside
    refine (ih (by omega) (by omega) next i inside).trans ?_
    congr 1
    rw [eq_iff_iff]
    omega

/-- The mask that `ac_bit_set_init` stores. -/
def rightMask (n : Nat) : Word := maskOf (n &&& 63) 0

theorem rightMask_bit (n : Nat) {i : Nat} (inside : i < 64) : (rightMask n).getLsbD i = decide (i < n % 64) := by
  have small := place_lt n
  rw [rightMask,place_eq]
  refine (maskOf_bit small (k := 0) (by omega) (by simp) i inside).trans ?_
  rw [Nat.zero_add]

theorem bit_maskLast {n : Nat} {h : BitSet} (length : h.items.length = n / 64 + 1) (x : Nat) :
    bit (maskLast h).items x = (bit h.items x && (decide (x / 64 ≠ n / 64) || h.lastMask.getLsbD (x % 64))) := by
  rw [maskLast,length,Nat.add_sub_cancel,bit_modify,bit]
  cases h.items[x / 64]? with
  | none => rfl
  | some p => by_cases same : x / 64 = n / 64 <;> simp [same]

/-! ## Counting -/

/-- `n & (n - 1)` clears one bit. -/
theorem and_pred_bits {x : Nat} (positive : x ≠ 0) :
    ∃ k, x.testBit k = true ∧ ∀ i, (x &&& (x - 1)).testBit i = (x.testBit i && decide (i ≠ k)) := by
  induction x using Nat.strongRecOn with
  | ind x ih =>
    rcases Nat.mod_two_eq_zero_or_one x with even | odd
    · have some : x / 2 ≠ 0 := by omega
      obtain ⟨k,held,bits⟩ := ih (x / 2) (by omega) some
      refine ⟨k + 1,by rw [Nat.testBit_succ]; exact held,fun i => ?_⟩
      cases i with
      | zero => simp [even]
      | succ i =>
        have half : (x - 1) / 2 = x / 2 - 1 := by omega
        have here := bits i
        rw [Nat.testBit_and] at here ⊢
        rw [Nat.testBit_succ,Nat.testBit_succ,half,here]
        simp
    · refine ⟨0,by simp [odd],fun i => ?_⟩
      cases i with
      | zero =>
        have even : (x - 1) % 2 = 0 := by omega
        simp [even]
      | succ i =>
        have half : (x - 1) / 2 = x / 2 := by omega
        rw [Nat.testBit_and,Nat.testBit_succ,Nat.testBit_succ,half]
        simp

theorem count_erase {p q : Nat → Bool} {k n : Nat} (inside : k < n) (held : p k = true)
    (bits : ∀ i, q i = (p i && decide (i ≠ k))) :
    Nat.count (fun i => q i = true) n + 1 = Nat.count (fun i => p i = true) n := by
  rw [Nat.count_eq_card_filter_range,Nat.count_eq_card_filter_range]
  have erased : (Finset.range n).filter (fun i => q i = true) =
      ((Finset.range n).filter fun i => p i = true).erase k := by
    ext i
    rw [Finset.mem_erase,Finset.mem_filter,Finset.mem_filter,bits]
    simp only [Bool.and_eq_true,decide_eq_true_eq]
    tauto
  rw [erased]
  exact Finset.card_erase_add_one (by simp [inside,held])

theorem bitCount_eq (n : Word) (count : Nat) :
    bitCount n count = count + Nat.count (fun i => n.getLsbD i = true) 64 := by
  induction n, count using bitCount.induct with
  | case1 n count some ih =>
    rw [bitCount,dif_pos some,ih]
    have positive : n.toNat ≠ 0 := fun zero => some (BitVec.eq_of_toNat_eq zero)
    obtain ⟨k,held,bits⟩ := and_pred_bits positive
    have inside : k < 64 := by
      by_contra outside
      have large := Nat.ge_two_pow_of_testBit held
      have small := n.isLt
      have grows : 2 ^ 64 ≤ 2 ^ k := Nat.pow_le_pow_right (by decide) (by omega)
      omega
    have cleared : ∀ i, (n &&& (n - 1)).getLsbD i = (n.getLsbD i && decide (i ≠ k)) := by
      intro i
      have less : (n - 1).toNat = n.toNat - 1 := by
        rw [BitVec.toNat_sub_of_le]
        · rfl
        · exact Nat.pos_of_ne_zero positive
      rw [BitVec.getLsbD,BitVec.toNat_and,less]
      exact bits i
    have one := @count_erase n.getLsbD (n &&& (n - 1)).getLsbD k 64 inside held cleared
    omega
  | case2 n count zero =>
    have empty : n = 0 := by simpa using zero
    subst empty
    rw [bitCount,dif_neg (by simp)]
    have none : Nat.count (fun i => (0 : Word).getLsbD i = true) 64 = 0 := by
      rw [Nat.count_iff_forall_not]
      simp
    omega

theorem bit_cons (n : Word) (items : List Word) (x : Nat) : bit (n :: items) (64 + x) = bit items x := by
  have block : (64 + x) / 64 = x / 64 + 1 := by omega
  have place : (64 + x) % 64 = x % 64 := by omega
  rw [bit,bit,block,place,List.getElem?_cons_succ]

theorem bit_head (n : Word) (items : List Word) {i : Nat} (inside : i < 64) : bit (n :: items) i = n.getLsbD i := by
  have block : i / 64 = 0 := by omega
  have place : i % 64 = i := by omega
  rw [bit,block,place]
  rfl

theorem count_words (items : List Word) (count : Nat) :
    items.foldl (fun count n => bitCount n count) count =
      count + Nat.count (fun x => bit items x = true) (64 * items.length) := by
  induction items generalizing count with
  | nil => simp
  | cons n items ih =>
    have length : 64 * (n :: items).length = 64 + 64 * items.length := by
      rw [List.length_cons]
      omega
    have head : Nat.count (fun x => bit (n :: items) x = true) 64 = Nat.count (fun i => n.getLsbD i = true) 64 := by
      rw [Nat.count_eq_card_filter_range,Nat.count_eq_card_filter_range]
      refine congrArg Finset.card (Finset.filter_congr ?_)
      intro i inside
      rw [bit_head n items (Finset.mem_range.mp inside)]
    rw [List.foldl_cons,ih,bitCount_eq,length,Nat.count_add,head]
    simp only [bit_cons]
    omega

theorem count_and_zero (h : BitSet) : (acBitSetCountAndZero h).1 = acBitSetCount h := by
  have skip : (fun (count : Nat) (n : Word) => if n ≠ 0 then bitCount n count else count) = fun count n => bitCount n count := by
    funext count n
    by_cases some : n ≠ 0
    · rw [if_pos some]
    · rw [if_neg some,bitCount,dif_neg some]
  rw [acBitSetCountAndZero,acBitSetCount,skip]

theorem zeroed (h : BitSet) : (acBitSetCountAndZero h).2 = acBitSetFalse h := by
  have clear : (fun n : Word => if n ≠ 0 then 0 else n) = fun _ => 0 := by
    funext n
    by_cases some : n ≠ 0
    · rw [if_pos some]
    · rw [if_neg some,not_not.mp some]
  rw [acBitSetCountAndZero,acBitSetFalse,clear]

/-! ## The first member -/

theorem shift_bit (n : Word) (i : Nat) : (n >>> 1).getLsbD i = n.getLsbD (i + 1) := by
  rw [BitVec.getLsbD_ushiftRight,Nat.add_comm]

theorem lowBit_spec (n : Word) (id : Nat) (some : n ≠ 0) :
    ∃ k, lowBit n id = id + k ∧ n.getLsbD k = true ∧ ∀ i < k, n.getLsbD i = false := by
  induction n, id using lowBit.induct with
  | case1 n id held even ih =>
    rw [lowBit,dif_pos held,if_pos even]
    have zero : n.getLsbD 0 = false := by
      have bits := congrArg (BitVec.getLsbD · 0) even
      simpa using bits
    have rest : n >>> 1 ≠ 0 := by
      intro gone
      apply held
      apply BitVec.eq_of_getLsbD_eq
      intro i inside
      cases i with
      | zero => simpa using zero
      | succ i =>
        rw [← shift_bit,gone]
        simp
    obtain ⟨k,equal,found,below⟩ := ih rest
    refine ⟨k + 1,by omega,by rw [← shift_bit]; exact found,fun i less => ?_⟩
    cases i with
    | zero => exact zero
    | succ i =>
      rw [← shift_bit]
      exact below i (by omega)
  | case2 n id held odd =>
    rw [lowBit,dif_pos held,if_neg odd]
    refine ⟨0,rfl,?_,fun i less => absurd less (Nat.not_lt_zero i)⟩
    by_contra clear
    apply odd
    apply BitVec.eq_of_getLsbD_eq
    intro i inside
    cases i with
    | zero => simpa using clear
    | succ i => simp
  | case3 n id zero => exact absurd some zero

theorem firstFrom_spec (items : List Word) (block : Nat) :
    (∃ x, firstFrom block items = block * 64 + x ∧ bit items x = true ∧ ∀ y < x, bit items y = false) ∨
      firstFrom block items = 0 ∧ ∀ x, bit items x = false := by
  induction items generalizing block with
  | nil => exact .inr ⟨rfl,fun x => rfl⟩
  | cons n items ih =>
    rw [firstFrom]
    by_cases some : n ≠ 0
    · rw [if_pos some]
      obtain ⟨k,equal,found,below⟩ := lowBit_spec n (block <<< 6) some
      have inside : k < 64 := BitVec.lt_of_getLsbD found
      refine .inl ⟨k,?_,by rw [bit_head n items inside]; exact found,fun y less => ?_⟩
      · rw [equal,Nat.shiftLeft_eq]
      · rw [bit_head n items (by omega)]
        exact below y less
    · rw [if_neg some]
      have zero : ∀ y < 64, bit (n :: items) y = false := by
        intro y inside
        rw [bit_head n items inside,not_not.mp some]
        simp
      have skip : ∀ y, 64 ≤ y → bit (n :: items) y = bit items (y - 64) := by
        intro y beyond
        have moved : y = 64 + (y - 64) := by omega
        rw [moved,bit_cons,Nat.add_sub_cancel_left]
      rcases ih (block + 1) with ⟨x,equal,found,below⟩ | ⟨equal,none⟩
      · refine .inl ⟨64 + x,by omega,by rw [bit_cons]; exact found,fun y less => ?_⟩
        by_cases inside : y < 64
        · exact zero y inside
        · rw [skip y (by omega)]
          exact below _ (by omega)
      · refine .inr ⟨equal,fun y => ?_⟩
        by_cases inside : y < 64
        · exact zero y inside
        · rw [skip y (by omega)]
          exact none _

/-! ## The subsets of `{0..n-1}` -/

/-- What the three questions answer. -/
structure Agrees (h : BitSet) (s : Finset Nat) : Prop where
  member : ∀ id, acBitSet h id = decide (id ∈ s)
  count : acBitSetCount h = s.card
  counted : (acBitSetCountAndZero h).1 = s.card
  first : acBitSetFirst h = if some : s.Nonempty then s.min' some else 0

structure Shape (n : Nat) (h : BitSet) : Prop where
  length : h.items.length = n / 64 + 1
  mask : h.lastMask = rightMask n ∨ h.lastMask = 0

structure Reps (n : Nat) (h : BitSet) (s : Finset Nat) : Prop where
  bits : ∀ x, bit h.items x = decide (x ∈ s)
  below : s ⊆ Finset.range n

theorem Reps.agrees {n : Nat} {h : BitSet} {s : Finset Nat} (reps : Reps n h s) (shape : Shape n h)
    (small : n < 2 ^ 32) : Agrees h s := by
  have inside : s ⊆ Finset.range (64 * h.items.length) := by
    intro x held
    have less := Finset.mem_range.mp (reps.below held)
    rw [Finset.mem_range,shape.length]
    omega
  have total : acBitSetCount h = s.card := by
    have card : s.card ≤ n := by simpa using Finset.card_le_card reps.below
    rw [acBitSetCount,count_words,Nat.zero_add,Nat.count_eq_card_filter_range]
    have same : (Finset.range (64 * h.items.length)).filter (fun x => bit h.items x = true) = s := by
      ext x
      rw [Finset.mem_filter,reps.bits,decide_eq_true_eq]
      exact ⟨fun held => held.2,fun held => ⟨inside held,held⟩⟩
    rw [same]
    exact Nat.mod_eq_of_lt (by omega)
  refine ⟨fun id => by rw [acBitSet_eq,reps.bits],total,by rw [count_and_zero]; exact total,?_⟩
  rw [acBitSetFirst]
  rcases firstFrom_spec h.items 0 with ⟨x,equal,found,less⟩ | ⟨equal,none⟩
  · have member : x ∈ s := by simpa [reps.bits] using found
    rw [dif_pos ⟨x,member⟩,equal,Nat.zero_mul,Nat.zero_add]
    apply Nat.le_antisymm
    · apply Finset.le_min'
      intro y held
      by_contra smaller
      have clear := less y (by omega)
      rw [reps.bits,decide_eq_false_iff_not] at clear
      exact clear held
    · exact Finset.min'_le s x member
  · rw [equal,dif_neg]
    rintro ⟨x,held⟩
    have clear := none x
    rw [reps.bits,decide_eq_false_iff_not] at clear
    exact clear held

/-! ## Runs -/

inductive One
  | set (id : Nat)
  | unset (id : Nat)
  | boolean (id : Nat) (v : Bool)
  | complement
  | true
  | false
  | countAndZero

inductive Two
  | and
  | or
  | not

inductive Op
  | init
  | one (h : Nat) (call : One)
  | two (dest other : Nat) (call : Two)
  | copy (src : Nat)

/-- One call on the sets made so far; each is named by when it was made. -/
def step {α : Type} (init : α) (one : One → α → α) (two : Two → α → α → α) (copy : α → α) (sets : List α) : Op → List α
  | .init => sets ++ [init]
  | .one h call => sets.modify h (one call)
  | .two dest other call =>
    match sets[other]? with
    | none => sets
    | some q => sets.modify dest fun p => two call p q
  | .copy src =>
    match sets[src]? with
    | none => sets
    | some p => sets ++ [copy p]

def acOne : One → BitSet → BitSet
  | .set id, h => acBitSetSet h id
  | .unset id, h => acBitSetUnset h id
  | .boolean id v, h => acBitSetBoolean h id v
  | .complement, h => acBitSetComplement h
  | .true, h => acBitSetTrue h
  | .false, h => acBitSetFalse h
  | .countAndZero, h => (acBitSetCountAndZero h).2

def acTwo : Two → BitSet → BitSet → BitSet
  | .and => acBitSetAnd
  | .or => acBitSetOr
  | .not => acBitSetNot

def setOne (n : Nat) : One → Finset Nat → Finset Nat
  | .set id, s => insert id s
  | .unset id, s => s.erase id
  | .boolean id v, s => if v then insert id s else s.erase id
  | .complement, s => Finset.range n \ s
  | .true, s => Finset.range n
  | .false, s => ∅
  | .countAndZero, s => ∅

def setTwo : Two → Finset Nat → Finset Nat → Finset Nat
  | .and, s, t => s ∩ t
  | .or, s, t => s ∪ t
  | .not, s, t => s \ t

def run (n : Nat) (ops : List Op) : List BitSet :=
  ops.foldl (step (acBitSetInit n) acOne acTwo acBitSetCopy) []

/-- The same calls on the subsets. -/
def refRun (n : Nat) (ops : List Op) : List (Finset Nat) :=
  ops.foldl (step ∅ (setOne n) setTwo id) []

/-- `ids < n`. -/
def One.Within (n : Nat) : One → Prop
  | .set id => id < n
  | .unset id => id < n
  | .boolean id v => id < n
  | _ => True

def Op.Within (n : Nat) : Op → Prop
  | .one h call => call.Within n
  | _ => True

/-- The set has its mask, or the call does not need it. -/
def One.Fine (n : Nat) (h : BitSet) : One → Prop
  | .complement => h.lastMask = rightMask n ∨ ∀ x, n / 64 * 64 ≤ x → x < n → acBitSet h x
  | .true => h.lastMask = rightMask n
  | _ => True

def Op.Fine (n : Nat) (sets : List BitSet) : Op → Prop
  | .one h call => ∀ s, sets[h]? = some s → call.Fine n s
  | _ => True

section
variable {n : Nat} {h other : BitSet} {s t : Finset Nat}

theorem shape_one (call : One) (shape : Shape n h) : Shape n (acOne call h) := by
  obtain ⟨length,mask⟩ := shape
  have set : ∀ id, Shape n (acBitSetSet h id) := by
    intro id
    rw [acBitSetSet]
    split_ifs
    · exact ⟨length,mask⟩
    · exact ⟨by rw [← length]; exact List.length_modify _ _ _,mask⟩
  have unset : ∀ id, Shape n (acBitSetUnset h id) := by
    intro id
    rw [acBitSetUnset]
    split_ifs
    · exact ⟨length,mask⟩
    · exact ⟨by rw [← length]; exact List.length_modify _ _ _,mask⟩
  cases call with
  | set id => exact set id
  | unset id => exact unset id
  | boolean id v =>
    cases v with
    | true => exact set id
    | false => exact unset id
  | complement => exact ⟨by simp [acOne,acBitSetComplement,maskLast,length],mask⟩
  | true => exact ⟨by simp [acOne,acBitSetTrue,maskLast,length],mask⟩
  | false => exact ⟨by simp [acOne,acBitSetFalse,length],mask⟩
  | countAndZero => exact ⟨by simp [acOne,acBitSetCountAndZero,length],mask⟩

theorem shape_two (call : Two) (shape : Shape n h) (others : Shape n other) : Shape n (acTwo call h other) := by
  obtain ⟨length,mask⟩ := shape
  have lengths := others.length
  cases call with
  | and => exact ⟨by simp [acTwo,acBitSetAnd,length,lengths],mask⟩
  | or => exact ⟨by simp [acTwo,acBitSetOr,length,lengths],mask⟩
  | not => exact ⟨by simp [acTwo,acBitSetNot,length,lengths],mask⟩

theorem shape_init (n : Nat) : Shape n (acBitSetInit n) :=
  ⟨by rw [acBitSetInit,List.length_replicate,block_eq],.inl rfl⟩

theorem shape_copy (shape : Shape n h) : Shape n (acBitSetCopy h) := ⟨shape.length,.inr rfl⟩

theorem reps_init (n : Nat) : Reps n (acBitSetInit n) ∅ := by
  refine ⟨fun x => ?_,by simp⟩
  rw [acBitSetInit,bit,List.getElem?_replicate]
  split_ifs <;> simp

theorem reps_two (call : Two) (lengths : h.items.length = other.items.length) (reps : Reps n h s)
    (others : Reps n other t) : Reps n (acTwo call h other) (setTwo call s t) := by
  obtain ⟨bits,below⟩ := reps
  have bits' := others.bits
  cases call with
  | and =>
    refine ⟨fun x => ?_,fun x held => below (Finset.mem_inter.mp held).1⟩
    refine (bit_zipWith (g := fun p q => p && q) lengths (fun p q i inside => BitVec.getLsbD_and) rfl x).trans ?_
    simp [bits,bits',setTwo]
  | or =>
    refine ⟨fun x => ?_,Finset.union_subset below others.below⟩
    refine (bit_zipWith (g := fun p q => p || q) lengths (fun p q i inside => BitVec.getLsbD_or) rfl x).trans ?_
    simp [bits,bits',setTwo]
  | not =>
    refine ⟨fun x => ?_,fun x held => below (Finset.mem_sdiff.mp held).1⟩
    refine (bit_zipWith (g := fun p q => p && !q) lengths (fun p q i inside => ?_) rfl x).trans ?_
    · simp [inside]
    · simp [bits,bits',setTwo]

theorem reps_set {id : Nat} (shape : Shape n h) (within : id < n) (reps : Reps n h s) :
    Reps n (acBitSetSet h id) (insert id s) := by
  have inside : id / 64 < h.items.length := by
    rw [shape.length]
    omega
  refine ⟨fun x => ?_,Finset.insert_subset (Finset.mem_range.mpr within) reps.below⟩
  rw [bit_set inside,reps.bits]
  simp

theorem reps_unset {id : Nat} (shape : Shape n h) (within : id < n) (reps : Reps n h s) :
    Reps n (acBitSetUnset h id) (s.erase id) := by
  have inside : id / 64 < h.items.length := by
    rw [shape.length]
    omega
  refine ⟨fun x => ?_,(Finset.erase_subset id s).trans reps.below⟩
  rw [bit_unset inside,reps.bits]
  simp

theorem reps_false (h : BitSet) : Reps n (acBitSetFalse h) ∅ := by
  refine ⟨fun x => ?_,by simp⟩
  rw [acBitSetFalse,bit_map (g := fun _ => false) h.items fun p i inside => by simp]
  simp

/-- A word that the mask changes holds the numbers from `n / 64 * 64` on. -/
theorem last_word {x : Nat} (less : x < n) : x / 64 = n / 64 ↔ n / 64 * 64 ≤ x := by omega

theorem bits_complement (shape : Shape n h) (reps : Reps n h s) (x : Nat) :
    bit (acBitSetComplement h).items x =
      (decide (x / 64 ≤ n / 64) && !decide (x ∈ s) && (decide (x / 64 ≠ n / 64) || h.lastMask.getLsbD (x % 64))) := by
  have length : ({ h with items := h.items.map fun p => ~~~p } : BitSet).items.length = n / 64 + 1 := by
    rw [List.length_map,shape.length]
  rw [acBitSetComplement,bit_maskLast length,bit_map (g := fun p => !p) h.items (fun p i inside => by simp [inside]),
    reps.bits,shape.length]
  simp only [Nat.lt_succ_iff]

theorem bits_true (shape : Shape n h) (x : Nat) :
    bit (acBitSetTrue h).items x =
      (decide (x / 64 ≤ n / 64) && (decide (x / 64 ≠ n / 64) || h.lastMask.getLsbD (x % 64))) := by
  have length : ({ h with items := h.items.map fun _ => 0xFFFFFFFFFFFFFFFF#64 } : BitSet).items.length = n / 64 + 1 := by
    rw [List.length_map,shape.length]
  have ones : ∀ i < 64, (0xFFFFFFFFFFFFFFFF#64).getLsbD i = true := by decide
  rw [acBitSetTrue,bit_maskLast length,bit_map (g := fun _ => true) h.items (fun p i inside => ones i inside),
    shape.length,Bool.and_true]
  simp only [Nat.lt_succ_iff]

/-- The numbers below `n` are those in the words before the last and those the mask keeps. -/
theorem below_bits (x : Nat) :
    (decide (x / 64 ≤ n / 64) && (decide (x / 64 ≠ n / 64) || (rightMask n).getLsbD (x % 64))) = decide (x < n) := by
  rw [rightMask_bit n (place_lt x),Bool.eq_iff_iff]
  simp only [Bool.and_eq_true,Bool.or_eq_true,decide_eq_true_eq]
  omega

theorem reps_complement (shape : Shape n h) (reps : Reps n h s) :
    Reps n (acBitSetComplement h) (Finset.range n \ s) ↔ One.Fine n h .complement := by
  have answers : ∀ x, acBitSet h x = true ↔ x ∈ s := by simp [acBitSet_eq,reps.bits]
  constructor
  · intro after
    rcases shape.mask with right | zero
    · exact .inl right
    · refine .inr fun x last less => (answers x).mpr ?_
      by_contra missing
      have bits := after.bits x
      rw [bits_complement shape reps,zero] at bits
      simp [(last_word less).mpr last,missing,less] at bits
  · intro fine
    refine ⟨fun x => ?_,Finset.sdiff_subset⟩
    rw [bits_complement shape reps]
    rcases fine with right | full
    · rw [right,Bool.and_right_comm,below_bits]
      simp
    · rcases shape.mask with right | zero
      · rw [right,Bool.and_right_comm,below_bits]
        simp
      · have clear : (0 : Word).getLsbD (x % 64) = false := by simp
        rw [zero,clear,Bool.or_false,Bool.eq_iff_iff]
        simp only [Bool.and_eq_true,Bool.not_eq_true',decide_eq_true_eq,decide_eq_false_iff_not,Finset.mem_sdiff,
          Finset.mem_range]
        have full' : ∀ x, n / 64 * 64 ≤ x → x < n → x ∈ s := fun x last less => (answers x).mp (full x last less)
        constructor
        · rintro ⟨⟨block,missing⟩,other⟩
          exact ⟨by omega,missing⟩
        · rintro ⟨less,missing⟩
          refine ⟨⟨by omega,missing⟩,fun last => missing (full' x ?_ less)⟩
          exact (last_word less).mp last

theorem reps_true (shape : Shape n h) : Reps n (acBitSetTrue h) (Finset.range n) ↔ One.Fine n h .true := by
  constructor
  · intro after
    rcases shape.mask with right | zero
    · exact right
    · have none : n % 64 = 0 := by
        by_contra some
        have bits := after.bits (n / 64 * 64)
        have block : n / 64 * 64 / 64 = n / 64 := by omega
        have less : n / 64 * 64 < n := by omega
        rw [bits_true shape,zero,block] at bits
        simp [less] at bits
      have right : rightMask n = 0 := by
        apply BitVec.eq_of_getLsbD_eq
        intro i inside
        rw [rightMask_bit n inside,none]
        simp
      exact zero.trans right.symm
  · intro right
    refine ⟨fun x => ?_,Finset.Subset.refl _⟩
    rw [bits_true shape,right,below_bits]
    simp

theorem reps_one (call : One) (within : call.Within n) (shape : Shape n h) (reps : Reps n h s) :
    Reps n (acOne call h) (setOne n call s) ↔ call.Fine n h := by
  cases call with
  | set id => exact iff_of_true (reps_set shape within reps) trivial
  | unset id => exact iff_of_true (reps_unset shape within reps) trivial
  | boolean id v =>
    cases v with
    | true => exact iff_of_true (reps_set shape within reps) trivial
    | false => exact iff_of_true (reps_unset shape within reps) trivial
  | complement => exact reps_complement shape reps
  | true => exact reps_true shape
  | false => exact iff_of_true (reps_false h) trivial
  | countAndZero =>
    refine iff_of_true ?_ trivial
    change Reps n (acBitSetCountAndZero h).2 ∅
    rw [zeroed]
    exact reps_false h

end

/-- What every call keeps of one set, it keeps of all of them. -/
theorem step_all {α : Type} {init : α} {one : One → α → α} {two : Two → α → α → α} {copy : α → α} (P : α → Prop)
    (op : Op) (start : P init) (ones : ∀ h call s, op = .one h call → P s → P (one call s))
    (twos : ∀ call p q, P p → P q → P (two call p q)) (copies : ∀ p, P p → P (copy p)) {sets : List α}
    (all : ∀ s ∈ sets, P s) : ∀ s ∈ step init one two copy sets op, P s := by
  have snoc : ∀ q, P q → ∀ s ∈ sets ++ [q], P s := by
    intro q last s member
    rcases List.mem_append.mp member with old | new
    · exact all s old
    · exact List.mem_singleton.mp new ▸ last
  have modify : ∀ h f, (∀ s ∈ sets, P (f s)) → ∀ s ∈ sets.modify h f, P s := by
    intro h f keeps s member
    obtain ⟨k,inside⟩ := List.mem_iff_getElem?.mp member
    rw [List.getElem?_modify,Option.map_eq_map,Option.map_eq_some_iff] at inside
    obtain ⟨s',at',rfl⟩ := inside
    have old := List.mem_of_getElem? at'
    by_cases same : h = k
    · rw [if_pos same]
      exact keeps s' old
    · rw [if_neg same]
      exact all s' old
  cases op with
  | init => exact snoc init start
  | one h call => exact modify h _ fun s member => ones h call s rfl (all s member)
  | two dest other call =>
    rw [step]
    cases found : sets[other]? with
    | none => exact all
    | some q => exact modify dest _ fun s member => twos call s q (all s member) (all q (List.mem_of_getElem? found))
  | copy src =>
    rw [step]
    cases found : sets[src]? with
    | none => exact all
    | some p => exact snoc _ (copies p (all p (List.mem_of_getElem? found)))

section
variable {n : Nat} {sets : List BitSet} {refs : List (Finset Nat)}

theorem step_shape (op : Op) (shapes : ∀ s ∈ sets, Shape n s) :
    ∀ s ∈ step (acBitSetInit n) acOne acTwo acBitSetCopy sets op, Shape n s :=
  step_all (Shape n) op (shape_init n) (fun h call s equal shape => shape_one call shape)
    (fun call p q shape shape' => shape_two call shape shape') (fun p shape => shape_copy shape) shapes

theorem step_below (op : Op) (within : op.Within n) (below : ∀ s ∈ refs, s ⊆ Finset.range n) :
    ∀ s ∈ step ∅ (setOne n) setTwo id refs op, s ⊆ Finset.range n := by
  refine step_all (fun s => s ⊆ Finset.range n) op (Finset.empty_subset _) ?_ ?_ (fun p old => old) below
  · rintro h call s rfl old
    cases call with
    | set id => exact Finset.insert_subset (Finset.mem_range.mpr within) old
    | unset id => exact (Finset.erase_subset id s).trans old
    | boolean id v =>
      cases v with
      | true => exact Finset.insert_subset (Finset.mem_range.mpr within) old
      | false => exact (Finset.erase_subset id s).trans old
    | complement => exact Finset.sdiff_subset
    | true => exact Finset.Subset.refl _
    | false => exact Finset.empty_subset _
    | countAndZero => exact Finset.empty_subset _
  · intro call p q old old'
    cases call with
    | and => exact Finset.inter_subset_left.trans old
    | or => exact Finset.union_subset old old'
    | not => exact Finset.sdiff_subset.trans old

theorem step_reps (op : Op) (within : op.Within n) (shapes : ∀ s ∈ sets, Shape n s)
    (reps : List.Forall₂ (Reps n) sets refs) :
    List.Forall₂ (Reps n) (step (acBitSetInit n) acOne acTwo acBitSetCopy sets op)
      (step ∅ (setOne n) setTwo id refs op) ↔ op.Fine n sets := by
  cases op with
  | init => exact iff_of_true (forall₂_snoc reps (reps_init n)) trivial
  | one h call =>
    refine (forall₂_modify reps h (acOne call) (setOne n call)).trans ?_
    rcases forall₂_getElem? reps h with ⟨none,none'⟩ | ⟨s,t,found,found',rep⟩
    · simp [Op.Fine,none]
    · have one := reps_one call within (shapes s (List.mem_of_getElem? found)) rep
      simp [Op.Fine,found,found',one]
  | two dest other call =>
    refine iff_of_true ?_ trivial
    rcases forall₂_getElem? reps other with ⟨none,none'⟩ | ⟨q,t,found,found',rep⟩
    · simpa [step,none,none'] using reps
    · simp only [step,found,found']
      rw [forall₂_modify reps]
      intro p s at' at''
      have shape := shapes p (List.mem_of_getElem? at')
      have shape' := shapes q (List.mem_of_getElem? found)
      have rep' : Reps n p s := by
        rcases forall₂_getElem? reps dest with ⟨none,none'⟩ | ⟨p',s',eq,eq',rep'⟩
        · rw [none] at at'
          cases at'
        · rw [eq] at at'
          rw [eq'] at at''
          cases at'
          cases at''
          exact rep'
      exact reps_two call (shape.length.trans shape'.length.symm) rep' rep
  | copy src =>
    refine iff_of_true ?_ trivial
    rcases forall₂_getElem? reps src with ⟨none,none'⟩ | ⟨p,s,found,found',rep⟩
    · simpa [step,none,none'] using reps
    · simp only [step,found,found']
      exact forall₂_snoc reps ⟨rep.bits,rep.below⟩

end

theorem run_snoc (n : Nat) (ops : List Op) (op : Op) :
    run n (ops ++ [op]) = step (acBitSetInit n) acOne acTwo acBitSetCopy (run n ops) op := List.foldl_concat _ _ _ _

theorem refRun_snoc (n : Nat) (ops : List Op) (op : Op) :
    refRun n (ops ++ [op]) = step ∅ (setOne n) setTwo id (refRun n ops) op := List.foldl_concat _ _ _ _

theorem run_shape (n : Nat) (ops : List Op) : ∀ s ∈ run n ops, Shape n s := by
  induction ops using List.reverseRecOn with
  | nil => simp [run]
  | append_singleton ops op ih =>
    rw [run_snoc]
    exact step_shape op ih

theorem refRun_below (n : Nat) (ops : List Op) (within : ∀ op ∈ ops, op.Within n) :
    ∀ s ∈ refRun n ops, s ⊆ Finset.range n := by
  induction ops using List.reverseRecOn with
  | nil => simp [refRun]
  | append_singleton ops op ih =>
    rw [refRun_snoc]
    exact step_below op (within op (by simp)) (ih fun op member => within op (by simp [member]))

theorem agrees_iff {n : Nat} (small : n < 2 ^ 32) (ops : List Op) (within : ∀ op ∈ ops, op.Within n) :
    List.Forall₂ Agrees (run n ops) (refRun n ops) ↔ List.Forall₂ (Reps n) (run n ops) (refRun n ops) := by
  have shapes := run_shape n ops
  have below := refRun_below n ops within
  constructor
  · intro agrees
    refine forall₂_right agrees below fun h s agree inside => ⟨fun x => ?_,inside⟩
    rw [← acBitSet_eq]
    exact agree.member x
  · intro reps
    have both := (List.forall₂_and_left _ _).mpr ⟨shapes,reps⟩
    exact both.imp fun h s rep => rep.2.agrees rep.1 small

/-- Every set made agrees with its subset at every point of the run exactly when each
complement and each `ac_bit_set_true` finds the mask, or does not need it. -/
theorem sets_agree_iff {n : Nat} (small : n < 2 ^ 32) (ops : List Op) (within : ∀ op ∈ ops, op.Within n) :
    (∀ before, before <+: ops → List.Forall₂ Agrees (run n before) (refRun n before)) ↔
      ∀ before op, before ++ [op] <+: ops → op.Fine n (run n before) := by
  have inside : ∀ before, before <+: ops → ∀ op ∈ before, op.Within n :=
    fun before front op member => within op (front.subset member)
  constructor
  · intro agrees before op front
    have front' := (List.prefix_append before [op]).trans front
    have reps := (agrees_iff small before (inside before front')).mp (agrees before front')
    have after := (agrees_iff small _ (inside _ front)).mp (agrees _ front)
    rw [run_snoc,refRun_snoc] at after
    exact (step_reps op (within op (front.subset (by simp))) (run_shape n before) reps).mp after
  · intro fine before front
    rw [agrees_iff small before (inside before front)]
    induction before using List.reverseRecOn with
    | nil => exact .nil
    | append_singleton before op ih =>
      have front' := (List.prefix_append before [op]).trans front
      rw [run_snoc,refRun_snoc]
      exact (step_reps op (within op (front.subset (by simp))) (run_shape n before) (ih front')).mpr (fine before op front)

/-- The empty set and its complement. -/
theorem sets_agree_complement :
    List.Forall₂ Agrees (run 1 [Op.init,.one 0 .complement]) (refRun 1 [Op.init,.one 0 .complement]) := by
  refine (sets_agree_iff (by decide) [Op.init,.one 0 .complement] (by simp [Op.Within,One.Within])).mpr ?_ _
    List.prefix_rfl
  rintro before op ⟨after,whole⟩
  match before,whole with
  | [],whole =>
    simp only [List.nil_append,List.singleton_append,List.cons.injEq] at whole
    rw [whole.1]
    trivial
  | [first],whole =>
    simp only [List.cons_append,List.nil_append,List.cons.injEq] at whole
    obtain ⟨rfl,rfl,rfl⟩ := whole
    intro s found
    cases found
    exact .inl rfl
  | first :: second :: rest,whole => simp at whole

/-- The complement of a copy of the empty subset of `{0}` is empty. -/
theorem copy_complement :
    ¬ ∀ n ops, n < 2 ^ 32 → (∀ op ∈ ops, op.Within n) → List.Forall₂ Agrees (run n ops) (refRun n ops) := by
  intro all
  have agrees := all 1 [.init,.copy 0,.one 1 .complement] (by decide) (by simp [Op.Within,One.Within])
  rcases forall₂_getElem? agrees 1 with ⟨none,_⟩ | ⟨h,s,found,found',agree⟩
  · cases none
  · cases found
    cases found'
    have missing : acBitSet (acBitSetComplement (acBitSetCopy (acBitSetInit 1))) 0 = true := agree.member 0
    revert missing
    decide

end AnotherC.BitSet
