import AnotherC.Core.PoolCells
import AnotherC.Lib.Bytes
import AnotherC.Lib.Intervals

/-!
# `ac_pool_strdupa`

The pointers and the strings of an array are copied to one region of a pool. How many pointers
there are is counted, but what is counted is not handed back: the strings are written from the
beginning of the region on, over the pointers. What the region held before can be anything.
-/
namespace AnotherC.PoolStrdupa
open AnotherC.PoolCells (write)
open AnotherC.Lib.Bytes
open AnotherC.Lib.Intervals
open AnotherC.Lib.Text (Text)
set_option linter.unusedVariables false

/-! ## The code -/

/-- `count_bytes_in_array`: the bytes, and what `n` leads to afterwards. -/
def countBytesInArray (a : List Text) (n : Nat) : Nat × Nat := (8 + (a.map fun s => s.length + 8 + 1).sum,n)

/-- Bytes are written one after the other. -/
def store : List UInt8 → Nat → List UInt8 → Option (List UInt8)
  | [], _, region => some region
  | c :: cs, p, region => do
    let region ← write region p c
    store cs (p + 1) region

/-- The loop of `ac_pool_strdupa`, with the offsets of `rp` and `m` in the region at `r`. -/
def copyStrings (r : Nat) : List Text → Nat → Nat → List UInt8 → Option (List UInt8)
  | [], rp, m, region => store (bytes 8 0) rp region
  | s :: a, rp, m, region => do
    let region ← store (bytes 8 (r + m)) rp region
    let region ← store (s ++ [0]) m region
    copyStrings r a (rp + 8) (m + s.length + 1) region

/-- `ac_pool_strdupa`, with the region at `r` that `ac_pool_alloc` returns for its length. -/
def acPoolStrdupa (r : Nat) (region : List UInt8) (a : List Text) : Option (List UInt8) :=
  copyStrings r a 0 (8 * (countBytesInArray a 0).2) region

/-! ## A copy -/

/-- The region holds the pointers to the strings and NULL, and behind them the strings, which do
    not overlap; `qs` are their offsets. -/
structure Copied (r : Nat) (region : List UInt8) (a : List Text) (qs : List Nat) : Prop where
  cells : region.take (8 * (a.length + 1)) = (qs.flatMap fun q => bytes 8 (r + q)) ++ bytes 8 0
  strings : List.Forall₂ (fun q s => (region.drop q).take (s.length + 1) = s ++ [0]) qs a
  behind : ∀ q ∈ qs, 8 * (a.length + 1) ≤ q
  apart : ((qs.zip (a.map fun s => s.length + 1))).Pairwise Apart

section
variable {r : Nat} {region region' : List UInt8}

/-- What is written stays in front of its end. -/
theorem store_behind {cs : List UInt8} {p i : Nat} (stored : store cs p region = some region') (behind : p + cs.length ≤ i) :
    region'[i]? = region[i]? := by
  induction cs generalizing p region with
  | nil =>
    cases stored
    rfl
  | cons c cs ih =>
    obtain ⟨written,first,stored⟩ := Option.bind_eq_some_iff.mp stored
    rw [write,Option.ite_none_right_eq_some] at first
    obtain ⟨-,same⟩ := first
    rw [List.length_cons] at behind
    rw [ih stored (by omega),← Option.some.inj same,List.getElem?_set_ne (by omega)]

theorem store_at (cs : List UInt8) (region : List UInt8) (later : List UInt8) (same : region.length = cs.length)
    (before : List UInt8) : store cs before.length (before ++ region ++ later) = some (before ++ cs ++ later) := by
  induction cs generalizing before region with
  | nil =>
    rw [List.length_nil,List.length_eq_zero_iff] at same
    rw [same]
    rfl
  | cons c cs ih =>
    obtain ⟨x,rest,rfl⟩ := List.exists_cons_of_length_eq_add_one same
    have inside : before.length < (before ++ x :: rest ++ later).length := by
      simp only [List.length_append,List.length_cons]
      omega
    have changed : (before ++ x :: rest ++ later).set before.length c = before ++ [c] ++ rest ++ later := by
      simp
    have rest_ := ih rest (Nat.succ.inj same) (before ++ [c])
    rw [List.length_append,List.length_singleton] at rest_
    rw [store,write,if_pos inside,changed,Option.bind_eq_bind,Option.bind_some,rest_]
    simp

theorem store_all {cs : List UInt8} (same : region.length = cs.length) : store cs 0 region = some cs := by
  have stored := store_at cs region [] same []
  rwa [List.append_nil,List.append_nil,List.nil_append,List.nil_append] at stored

/-- The bytes of strings with their NULs. -/
def total (a : List Text) : Nat := (a.map fun s => s.length + 1).sum

/-- Behind the pointers and as many bytes as the strings have, nothing is written. -/
theorem copy_behind {a : List Text} {rp m i : Nat} (copied : copyStrings r a rp m region = some region')
    (cells : rp + 8 * (a.length + 1) ≤ i) (chars : m + total a ≤ i) : region'[i]? = region[i]? := by
  induction a generalizing rp m region with
  | nil =>
    refine store_behind copied ?_
    rw [bytes_length]
    exact cells
  | cons s a ih =>
    obtain ⟨one,pointer,copied⟩ := Option.bind_eq_some_iff.mp copied
    obtain ⟨two,string,copied⟩ := Option.bind_eq_some_iff.mp copied
    rw [total,List.map_cons,List.sum_cons,← total] at chars
    rw [List.length_cons] at cells
    have first : one[i]? = region[i]? := by
      refine store_behind pointer ?_
      rw [bytes_length]
      omega
    have second : two[i]? = one[i]? := by
      refine store_behind string ?_
      rw [List.length_append,List.length_singleton]
      omega
    have third := ih copied (by omega) (by omega)
    rw [third,second,first]

/-- The strings lie in front of what was not written, if that has no NUL in it. -/
theorem Copied.before {a : List Text} {qs : List Nat} (copied : Copied r region a qs) {high : Nat}
    (noNul : ∀ i, high ≤ i → region[i]? ≠ some 0) : ∀ i ∈ qs.zip (a.map fun s => s.length + 1), 8 * (a.length + 1) ≤ i.1 ∧ i.1 + i.2 ≤ high := by
  have behind := copied.behind
  have strings := copied.strings
  generalize 8 * (a.length + 1) = low at behind
  clear copied
  induction strings with
  | nil => simp
  | @cons q s qs a string strings ih =>
    intro i inside
    rw [List.map_cons,List.zip_cons_cons] at inside
    cases List.mem_cons.mp inside with
    | inl here =>
      subst here
      refine ⟨behind q List.mem_cons_self,?_⟩
      by_contra beyond
      have last : region[q + s.length]? = some 0 := by
        have byte : ((region.drop q).take (s.length + 1))[s.length]? = some 0 := by
          rw [string,List.getElem?_append_right (Nat.le_refl _),Nat.sub_self]
          rfl
        rw [List.getElem?_take_of_lt (Nat.lt_succ_self _),List.getElem?_drop] at byte
        exact byte
      exact noNul (q + s.length) (by simp only at beyond; omega) last
    | inr later => exact ih (fun p member => behind p (List.mem_cons_of_mem _ member)) i later

theorem zip_total {qs : List Nat} {a : List Text} (same : qs.length = a.length) :
    ((qs.zip (a.map fun s => s.length + 1)).map Prod.snd).sum = total a := by
  rw [List.map_snd_zip (by rw [List.length_map,same]),total]

end

/-- The region of an array that has strings does not become a copy when it held no zeros. -/
theorem strdupa_overlaps {a : List Text} (filled : a ≠ []) (r : Nat) :
    ¬ ∃ region' qs, acPoolStrdupa r (List.replicate (countBytesInArray a 0).1 1) a = some region' ∧ Copied r region' a qs := by
  rintro ⟨region',qs,copied,copy⟩
  have some_ : 0 < total a := by
    obtain ⟨s,rest,rfl⟩ := List.exists_cons_of_ne_nil filled
    rw [total,List.map_cons,List.sum_cons]
    omega
  have noNul : ∀ i, max (8 * (a.length + 1)) (total a) ≤ i → region'[i]? ≠ some 0 := by
    intro i high zero
    rw [copy_behind copied (by omega) (by simp only [countBytesInArray]; omega),List.getElem?_replicate] at zero
    split at zero
    · cases zero
    · cases zero
  have room := sum_le copy.apart (copy.before noNul)
  rw [zip_total copy.strings.length_eq] at room
  omega

/-- A region becomes a copy of the array, whatever it held before, only for the array that has
    no strings. -/
theorem strdupa_copies_iff (a : List Text) :
    (∀ r region, 8 ∣ r → region.length = (countBytesInArray a 0).1 →
      ∃ region' qs, acPoolStrdupa r region a = some region' ∧ Copied r region' a qs) ↔ a = [] := by
  constructor
  · intro copies
    by_contra filled
    exact strdupa_overlaps filled 8 (copies 8 _ (by decide) List.length_replicate)
  · rintro rfl r region aligned length
    have eight : region.length = (bytes 8 0).length := length
    refine ⟨bytes 8 0,[],store_all eight,?_⟩
    constructor
    case cells => rfl
    case strings => exact .nil
    case behind => exact List.forall_mem_nil _
    case apart => exact .nil

/-- An array of one string is no copy. -/
theorem one_string_overlaps : ¬ ∀ (r : Nat) (region : List UInt8) (a : List Text), 8 ∣ r →
    region.length = (countBytesInArray a 0).1 → ∃ region' qs, acPoolStrdupa r region a = some region' ∧ Copied r region' a qs := by
  intro copies
  exact strdupa_overlaps (List.cons_ne_nil [97] []) 8 (copies 8 _ [[97]] (by decide) List.length_replicate)

end AnotherC.PoolStrdupa
