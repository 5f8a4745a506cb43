import Mathlib.Data.List.Nodup
import Mathlib.Data.List.Flatten
import AnotherC.Search.TokenTree

/-!
# Linked tokens as trees

A list of siblings in memory: each token points to the next, its first child
starts the list of its children, and the links back are as good as the pass needs
them. The lemmas say what a write to one token does to a list, and that a list
keeps where no token of it is written.
-/
namespace AnotherC.Tokens
open AnotherC.Lib.Text (Text)
set_option linter.unusedVariables false

namespace Tree

mutual
/-- The addresses of a token and of all tokens below it. -/
def addrs : Tree → List Addr
  | .node a _ _ child => a :: addrsEach child

def addrsEach : List Tree → List Addr
  | [] => []
  | t :: ts => t.addrs ++ addrsEach ts
end

end Tree

open Tree (addrsEach)

/-- What a token's links back have to be: the parent and the predecessor that it
    has, and those that it should have. -/
abbrev Back := Option Addr → Option Addr → Option Addr → Option Addr → Prop

/-- As the parser leaves them. -/
def Exact : Back := fun parent prev parent' prev' => parent = parent' ∧ prev = prev'

/-- As `fix_ors` leaves them: the predecessor may be missing. -/
def Loose : Back := fun parent prev parent' prev' => parent = parent' ∧ (prev = prev' ∨ prev = none)

/-- As `fix_nots` leaves them. -/
def Free : Back := fun _ _ _ _ => True

mutual
/-- A token is stored at its address, its links back are as `back` says and those
    of the tokens below as `below` says. -/
def Stored (cells : Addr → Token) (back below : Back) (parent prev : Option Addr) : Tree → Prop
  | .node a type token child =>
    ((cells a).type = type ∧ (cells a).token = token ∧ back (cells a).parent (cells a).prev parent prev) ∧
      Chain cells below below (some a) none (cells a).child none child

/-- Siblings from `p` on, up to `q`. -/
def Chain (cells : Addr → Token) (back below : Back) (parent prev p q : Option Addr) : List Tree → Prop
  | [] => p = q
  | t :: ts =>
    p = some t.addr ∧ Stored cells back below parent prev t ∧
      Chain cells back below parent (some t.addr) (cells t.addr).next q ts
end

/-! ## Addresses -/

theorem addrsEach_eq (ts : List Tree) : addrsEach ts = ts.flatMap Tree.addrs := by
  induction ts with
  | nil => rfl
  | cons t ts ih => rw [addrsEach,ih,List.flatMap_cons]

@[simp] theorem addrsEach_nil : addrsEach [] = [] := rfl

theorem addrsEach_append (ts us : List Tree) : addrsEach (ts ++ us) = addrsEach ts ++ addrsEach us := by
  simp [addrsEach_eq]

theorem addrs_eq (t : Tree) : t.addrs = t.addr :: addrsEach t.child := by
  cases t
  rfl

theorem addr_mem (t : Tree) : t.addr ∈ t.addrs := by
  rw [addrs_eq]
  simp

theorem mem_addrsEach {ts : List Tree} {t : Tree} (member : t ∈ ts) {a : Addr} (inside : a ∈ t.addrs) :
    a ∈ addrsEach ts := by
  rw [addrsEach_eq]
  exact List.mem_flatMap.mpr ⟨t,member,inside⟩

theorem addrsEach_sublist {ts us : List Tree} (sublist : ts.Sublist us) :
    (addrsEach ts).Sublist (addrsEach us) := by
  rw [addrsEach_eq,addrsEach_eq]
  exact sublist.flatMap _

theorem length_addrsEach (ts : List Tree) : ts.length ≤ (addrsEach ts).length := by
  induction ts with
  | nil => simp [addrsEach]
  | cons t ts ih =>
    rw [addrsEach,addrs_eq,List.length_cons,List.length_append,List.length_cons]
    omega

/-! ## What a list keeps -/

section
variable {cells cells' : Addr → Token} {below below' : Back}

mutual
theorem stored_frame : ∀ {back : Back} {parent prev : Option Addr} {t : Tree},
    (∀ a ∈ t.addrs, cells' a = cells a) → Stored cells back below parent prev t →
      Stored cells' back below parent prev t
  | back, parent, prev, .node a type token child, same, stored => by
    obtain ⟨here,deep⟩ := stored
    have cell := same a (by simp [Tree.addrs])
    rw [Stored,cell]
    exact ⟨here,chain_frame (fun x member => same x (by simp [Tree.addrs,member])) deep⟩

theorem chain_frame : ∀ {back : Back} {parent prev p q : Option Addr} {ts : List Tree},
    (∀ a ∈ addrsEach ts, cells' a = cells a) → Chain cells back below parent prev p q ts →
      Chain cells' back below parent prev p q ts
  | back, parent, prev, p, q, [], same, chain => chain
  | back, parent, prev, p, q, t :: ts, same, chain => by
    obtain ⟨first,stored,rest⟩ := chain
    have cell := same t.addr (by simp [addrsEach,addr_mem])
    rw [Chain,cell]
    exact ⟨first,stored_frame (fun x member => same x (by simp [addrsEach,member])) stored,
      chain_frame (fun x member => same x (by simp [addrsEach,member])) rest⟩
end

mutual
theorem stored_mono (deeper : ∀ a b c d, below a b c d → below' a b c d) :
    ∀ {back back' : Back} {parent prev : Option Addr} {t : Tree}, (∀ a b c d, back a b c d → back' a b c d) →
      Stored cells back below parent prev t → Stored cells back' below' parent prev t
  | back, back', parent, prev, .node a type token child, weaker, stored => by
    obtain ⟨⟨kind,text,links⟩,deep⟩ := stored
    exact ⟨⟨kind,text,weaker _ _ _ _ links⟩,chain_mono deeper deeper deep⟩

theorem chain_mono (deeper : ∀ a b c d, below a b c d → below' a b c d) :
    ∀ {back back' : Back} {parent prev p q : Option Addr} {ts : List Tree},
      (∀ a b c d, back a b c d → back' a b c d) → Chain cells back below parent prev p q ts →
        Chain cells back' below' parent prev p q ts
  | back, back', parent, prev, p, q, [], weaker, chain => chain
  | back, back', parent, prev, p, q, t :: ts, weaker, chain => by
    obtain ⟨first,stored,rest⟩ := chain
    exact ⟨first,stored_mono deeper weaker stored,chain_mono deeper weaker rest⟩
end

end

section
variable {cells cells' : Addr → Token} {back back' below : Back}

theorem exact_loose (a b c d : Option Addr) (exact : Exact a b c d) : Loose a b c d := ⟨exact.1,.inl exact.2⟩

/-- A token is still stored where its own cell changes its links to siblings and
    parent only. -/
theorem stored_touch {parent prev parent' prev' : Option Addr} {t : Tree}
    (stored : Stored cells back below parent prev t) (kind : (cells' t.addr).type = (cells t.addr).type)
    (text : (cells' t.addr).token = (cells t.addr).token) (child : (cells' t.addr).child = (cells t.addr).child)
    (links : back' (cells' t.addr).parent (cells' t.addr).prev parent' prev')
    (same : ∀ a ∈ addrsEach t.child, cells' a = cells a) : Stored cells' back' below parent' prev' t := by
  cases t with
  | node a type token children =>
    obtain ⟨⟨type,token,-⟩,deep⟩ := stored
    refine ⟨⟨kind.trans type,text.trans token,links⟩,?_⟩
    have child : (cells' a).child = (cells a).child := child
    rw [child]
    exact chain_frame same deep

theorem stored_links {parent prev : Option Addr} {t : Tree} (stored : Stored cells back below parent prev t) :
    back (cells t.addr).parent (cells t.addr).prev parent prev := by
  cases t
  exact stored.1.2.2

theorem stored_isOr {parent prev : Option Addr} {t : Tree} (stored : Stored cells back below parent prev t) :
    isOr (cells t.addr).type (cells t.addr).token = t.isOr := by
  cases t
  rw [Tree.addr,stored.1.1,stored.1.2.1]
  rfl

theorem stored_isNot {parent prev : Option Addr} {t : Tree} (stored : Stored cells back below parent prev t) :
    isNot (cells t.addr).type (cells t.addr).token = t.isNot := by
  cases t
  rw [Tree.addr,stored.1.1,stored.1.2.1]
  rfl

/-- The address before the rest of a list. -/
def lastAddr (prev : Option Addr) : List Tree → Option Addr
  | [] => prev
  | t :: ts => lastAddr (some t.addr) ts

theorem chain_append {parent prev p q : Option Addr} {xs ys : List Tree} :
    Chain cells back below parent prev p q (xs ++ ys) ↔
      ∃ m, Chain cells back below parent prev p m xs ∧ Chain cells back below parent (lastAddr prev xs) m q ys := by
  induction xs generalizing prev p with
  | nil => simp [Chain,lastAddr]
  | cons x xs ih =>
    simp only [List.cons_append,Chain,ih,lastAddr]
    constructor
    · rintro ⟨first,stored,m,left,right⟩
      exact ⟨m,⟨first,stored,left⟩,right⟩
    · rintro ⟨m,⟨first,stored,left⟩,right⟩
      exact ⟨first,stored,m,left,right⟩

@[simp] theorem lastAddr_snoc (prev : Option Addr) (xs : List Tree) (t : Tree) :
    lastAddr prev (xs ++ [t]) = some t.addr := by
  induction xs generalizing prev with
  | nil => rfl
  | cons x xs ih => exact ih _

theorem chain_snoc {parent prev p q : Option Addr} {xs : List Tree} {t : Tree} :
    Chain cells back below parent prev p q (xs ++ [t]) ↔ Chain cells back below parent prev p (some t.addr) xs ∧
      Stored cells back below parent (lastAddr prev xs) t ∧ (cells t.addr).next = q := by
  rw [chain_append]
  simp only [Chain]
  constructor
  · rintro ⟨m,left,rfl,stored,last⟩
    exact ⟨left,stored,last⟩
  · rintro ⟨left,stored,last⟩
    exact ⟨_,left,rfl,stored,last⟩

theorem chain_empty {parent prev p : Option Addr} {ts : List Tree}
    (chain : Chain cells back below parent prev p none ts) : p = none ↔ ts = [] := by
  cases ts with
  | nil => simpa [Chain] using chain
  | cons t ts => simp [chain.1]

end

end AnotherC.Tokens
