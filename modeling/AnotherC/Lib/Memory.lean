import Mathlib.Logic.Function.Basic
import Mathlib.Data.List.Basic

/-!
Bytes by their addresses: reading and writing a range, and what a write leaves
alone.
-/
namespace AnotherC.Lib.Memory

/-- The byte at every address. -/
abbrev Memory := Nat → UInt8

/-- The `len` bytes from `base`. -/
def read (m : Memory) (base : Nat) : Nat → List UInt8
  | 0 => []
  | len + 1 => m base :: read m (base + 1) len

/-- The bytes of a list, from `base` on. -/
def write (m : Memory) (base : Nat) : List UInt8 → Memory
  | [] => m
  | b :: bs => write (Function.update m base b) (base + 1) bs

@[simp] theorem read_length (m : Memory) (base len : Nat) : (read m base len).length = len := by
  induction len generalizing base with
  | zero => rfl
  | succ len ih => simp [read,ih]

theorem read_add (m : Memory) (base l k : Nat) : read m base (l + k) = read m base l ++ read m (base + l) k := by
  induction l generalizing base with
  | zero => simp [read]
  | succ l ih =>
    have next : base + (l + 1) = base + 1 + l := by omega
    rw [Nat.succ_add,read,ih,next]
    rfl

theorem read_getElem (m : Memory) (base : Nat) {len i : Nat} (inside : i < len) :
    (read m base len)[i]? = some (m (base + i)) := by
  induction len generalizing base i with
  | zero => omega
  | succ len ih =>
    cases i with
    | zero => rfl
    | succ i =>
      have next : base + (i + 1) = base + 1 + i := by omega
      rw [read,List.getElem?_cons_succ,ih (base + 1) (Nat.lt_of_succ_lt_succ inside),next]

/-- A range reads the same where the memories agree on it. -/
theorem read_congr {m m' : Memory} {base len : Nat} (same : ∀ a, base ≤ a → a < base + len → m a = m' a) :
    read m base len = read m' base len := by
  induction len generalizing base with
  | zero => rfl
  | succ len ih =>
    rw [read,read,same base (Nat.le_refl base) (by omega),ih fun a low high => same a (by omega) (by omega)]

theorem write_outside (m : Memory) {base : Nat} {bs : List UInt8} {a : Nat}
    (outside : a < base ∨ base + bs.length ≤ a) : write m base bs a = m a := by
  induction bs generalizing m base with
  | nil => rfl
  | cons b bs ih =>
    rw [List.length_cons] at outside
    rw [write,ih (Function.update m base b) (by omega),Function.update_of_ne (by omega)]

theorem read_write (m : Memory) (base : Nat) (bs : List UInt8) : read (write m base bs) base bs.length = bs := by
  induction bs generalizing m base with
  | nil => rfl
  | cons b bs ih =>
    rw [List.length_cons,read,write,ih,write_outside _ (.inl (Nat.lt_succ_self base)),Function.update_self]

/-- A part of what was written. -/
theorem read_write_part (m : Memory) (base : Nat) {bs : List UInt8} {offset len : Nat} (inside : offset + len ≤ bs.length) :
    read (write m base bs) (base + offset) len = (bs.drop offset).take len := by
  have all := read_write m base bs
  have parts : bs.length = offset + (len + (bs.length - (offset + len))) := by omega
  rw [parts,read_add,read_add] at all
  have rest : bs.drop offset = read (write m base bs) (base + offset) len ++
      read (write m base bs) (base + offset + len) (bs.length - (offset + len)) := by
    conv_lhs => rw [← all]
    exact List.drop_left' (read_length ..)
  rw [rest]
  exact (List.take_left' (read_length ..)).symm

/-- A range that a write does not touch. -/
theorem read_write_outside (m : Memory) {base len dst : Nat} {bs : List UInt8}
    (outside : base + len ≤ dst ∨ dst + bs.length ≤ base) : read (write m dst bs) base len = read m base len :=
  read_congr fun a low high => write_outside m (by omega)

/-! ## Two memories -/

/-- The memories agree on a range. -/
def Same (m m' : Memory) (base len : Nat) : Prop := ∀ a, base ≤ a → a < base + len → m a = m' a

/-- Where the memories agreed they still do. -/
def Keeps (m m' n n' : Memory) : Prop := ∀ a, m a = m' a → n a = n' a

variable {m m' n n' : Memory}

theorem Same.read {base len : Nat} (same : Same m m' base len) : read m base len = read m' base len := read_congr same

theorem Same.empty (m m' : Memory) (base : Nat) : Same m m' base 0 := by
  intro a low high
  omega

theorem Same.part {base len base' len' : Nat} (same : Same m m' base len) (low : base ≤ base')
    (high : base' + len' ≤ base + len) : Same m m' base' len' :=
  fun a first last => same a (Nat.le_trans low first) (Nat.lt_of_lt_of_le last high)

theorem Same.append {base len k : Nat} (one : Same m m' base len) (two : Same m m' (base + len) k) :
    Same m m' base (len + k) := by
  intro a low high
  by_cases first : a < base + len
  · exact one a low first
  · exact two a (by omega) (by omega)

theorem Same.keeps {base len : Nat} (same : Same m m' base len) (keeps : Keeps m m' n n') : Same n n' base len :=
  fun a low high => keeps a (same a low high)

theorem Keeps.refl (m m' : Memory) : Keeps m m' m m' := fun _ same => same

theorem Keeps.trans {k k' : Memory} (one : Keeps m m' n n') (two : Keeps n n' k k') : Keeps m m' k k' :=
  fun a same => two a (one a same)

/-- What is written into both memories is the same in both. -/
theorem write_same (m m' : Memory) (base : Nat) (bs : List UInt8) :
    Keeps m m' (write m base bs) (write m' base bs) ∧ Same (write m base bs) (write m' base bs) base bs.length := by
  induction bs generalizing m m' base with
  | nil => exact ⟨Keeps.refl m m',Same.empty _ _ base⟩
  | cons b bs ih =>
    obtain ⟨keeps,same⟩ := ih (Function.update m base b) (Function.update m' base b) (base + 1)
    have here : Keeps m m' (Function.update m base b) (Function.update m' base b) := by
      intro a agree
      by_cases at_ : a = base
      · rw [at_,Function.update_self,Function.update_self]
      · rw [Function.update_of_ne at_,Function.update_of_ne at_,agree]
    refine ⟨here.trans keeps,fun a low high => ?_⟩
    rw [List.length_cons] at high
    by_cases at_ : a = base
    · refine keeps a ?_
      rw [at_,Function.update_self,Function.update_self]
    · exact same a (by omega) (by omega)

theorem update_same (m m' : Memory) (base : Nat) (b : UInt8) :
    Keeps m m' (Function.update m base b) (Function.update m' base b) := (write_same m m' base [b]).1

end AnotherC.Lib.Memory
