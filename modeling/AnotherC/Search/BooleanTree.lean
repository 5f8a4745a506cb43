import AnotherC.Lib.Memory
import AnotherC.Lib.Text
import Mathlib.Data.List.Infix

/-!
# Boolean trees: `ac_boolean_tree_node_parse`

The parser links its nodes while it cuts the text into terms: an operator or a closing
bracket becomes the NUL of the term before it. All levels share one cursor. A tree that
is rendered to text is read back (`parse_render`).
-/
namespace AnotherC.BooleanTree
open AnotherC.Lib.Memory
open AnotherC.Lib.Text (Text)
set_option linter.unusedVariables false

/-! ## The parser -/

/-- `ac_boolean_tree_node_t`; a term is an address in the text. -/
structure Node where
  term : Option Nat
  op : UInt8 := 0
  child : Option Nat := none
  parent : Option Nat
  next : Option Nat := none
  prev : Option Nat := none

/-- The text and the nodes; the addresses from `fresh` on are free. -/
structure State where
  text : Memory
  cells : Nat → Node
  fresh : Nat

def State.alloc (s : State) (n : Node) : State := { s with cells := Function.update s.cells s.fresh n, fresh := s.fresh + 1 }

def State.set (s : State) (a : Nat) (n : Node) : State := { s with cells := Function.update s.cells a n }

def State.zero (s : State) (p : Nat) : State := { s with text := Function.update s.text p 0 }

/-- The characters that make an operator when they stand twice. -/
def isOp (c : UInt8) : Bool := c = 124 || c = 38 || c = 45

/-- The loop of `_ac_boolean_tree_node_parse` at `p`: where it stops. -/
def loop : Nat → State → Nat → Nat → Option Nat → Nat → Option (Nat × State)
  | 0, _, _, _, _, _ => none
  | fuel + 1, s, ep, p, parent, tail =>
    if p < ep then
      if isOp (s.text p) ∧ s.text (p + 1) = s.text p then
        let n := s.fresh
        let s := (s.alloc { term := some (p + 2), op := s.text p, parent := parent, prev := some tail }).zero p
        loop fuel (s.set tail { s.cells tail with next := some n }) ep (p + 2) parent n
      else if s.text p = 91 then
        let head := s.fresh
        match loop fuel (s.alloc { term := some (p + 1), parent := some tail }) ep (p + 1) (some tail) head with
        | none => none
        | some (p,s) => loop fuel (s.set tail { s.cells tail with child := some head, term := none }) ep p parent tail
      else if s.text p = 93 then some (p + 1,s.zero p)
      else loop fuel s ep (p + 1) parent tail
    else some (p,s)

/-- `_ac_boolean_tree_node_parse` for the whole text: its head. -/
def parse (s : State) (ep : Nat) : Option (Nat × State) :=
  (loop (ep + 1) (s.alloc { term := some 0, parent := none }) ep 0 none s.fresh).map fun (_,t) => (s.fresh,t)

/-- `ac_boolean_tree_node_parse`: the copy of the text is at 0. -/
def acBooleanTreeNodeParse (s : State) (str : Text) : Option (Nat × State) :=
  parse { s with text := write s.text 0 (str ++ [0]) } str.length

/-! ## Trees and their text -/

inductive Op
  | or | and | not
  deriving DecidableEq

def Op.char : Op → UInt8
  | .or => 124
  | .and => 38
  | .not => 45

mutual
/-- A term, or the nodes in brackets. -/
inductive Item
  | term (text : Text)
  | list (nodes : Nodes)
/-- Nodes with operators between them. -/
inductive Nodes
  | one (item : Item)
  | more (item : Item) (op : Op) (rest : Nodes)
end

mutual
def Item.render : Item → Text
  | .term text => text
  | .list nodes => [91] ++ nodes.render ++ [93]
def Nodes.render : Nodes → Text
  | .one item => item.render
  | .more item op rest => item.render ++ [op.char,op.char] ++ rest.render
end

/-- A term that no operator, bracket or end of text is mistaken for. -/
structure Plain (text : Text) : Prop where
  some_ : text ≠ []
  free : 0 ∉ text ∧ 91 ∉ text ∧ 93 ∉ text
  single : ∀ op : Op, ¬ [op.char,op.char] <:+: text
  ends : ∀ op : Op, text.head? ≠ some op.char ∧ text.getLast? ≠ some op.char

mutual
def Item.Plain : Item → Prop
  | .term text => BooleanTree.Plain text
  | .list nodes => nodes.Plain
def Nodes.Plain : Nodes → Prop
  | .one item => item.Plain
  | .more item _ rest => item.Plain ∧ rest.Plain
end

/-! ## Nodes that hold a tree -/

mutual
/-- The node at `a` is this item: its term up to a NUL, or its list of nodes. -/
def HoldsItem (text : Memory) (cells : Nat → Node) (a : Nat) : Item → Prop
  | .term t => (∃ q, (cells a).term = some q ∧ read text q (t ++ [0]).length = t ++ [0]) ∧ (cells a).child = none
  | .list nodes => (cells a).term = none ∧ ∃ c, (cells a).child = some c ∧ Holds text cells (some a) none 0 c nodes
/-- From `a` on the nodes are linked to each other and to their parent. -/
def Holds (text : Memory) (cells : Nat → Node) (parent prev : Option Nat) (op : UInt8) (a : Nat) : Nodes → Prop
  | .one item => ((cells a).op = op ∧ (cells a).parent = parent ∧ (cells a).prev = prev ∧ (cells a).next = none) ∧
    HoldsItem text cells a item
  | .more item o rest => ((cells a).op = op ∧ (cells a).parent = parent ∧ (cells a).prev = prev) ∧ HoldsItem text cells a item ∧
    ∃ n, (cells a).next = some n ∧ Holds text cells parent (some a) o.char n rest
end

/-! ## One item -/

section
variable {s s' : State} {fuel ep p e : Nat} {parent prev : Option Nat} {tail : Nat} {op : UInt8}

/-- What the loop leaves alone between `p` and `e`: the text elsewhere, and the nodes that
    were there. -/
structure Keeps (s s' : State) (tail : Nat) (p e : Nat) : Prop where
  fresh : s.fresh ≤ s'.fresh
  cells : ∀ x < s.fresh, x ≠ tail → s'.cells x = s.cells x
  text : ∀ i, i < p ∨ e ≤ i → s'.text i = s.text i

/-- The links of a node to its siblings and its parent, and its operator. -/
structure SameLinks (n n' : Node) : Prop where
  op : n'.op = n.op
  parent : n'.parent = n.parent
  prev : n'.prev = n.prev
  next : n'.next = n.next

/-- What later steps leave alone of the nodes and the text between `p` and `e` that came
    about between two states. -/
structure Later (s s' : State) (text : Memory) (cells : Nat → Node) (p e : Nat) : Prop where
  cells : ∀ x, s.fresh ≤ x → x < s'.fresh → cells x = s'.cells x
  text : ∀ i, p ≤ i → i < e → text i = s'.text i

theorem op_char (o : Op) : isOp o.char = true := by cases o <;> rfl

theorem isOp_iff {c : UInt8} : isOp c = true ↔ ∃ o : Op, c = o.char := by
  rw [isOp,Bool.or_eq_true,Bool.or_eq_true,decide_eq_true_eq,decide_eq_true_eq,decide_eq_true_eq]
  constructor
  · rintro ((rfl | rfl) | rfl)
    · exact ⟨.or,rfl⟩
    · exact ⟨.and,rfl⟩
    · exact ⟨.not,rfl⟩
  · rintro ⟨o,rfl⟩
    cases o
    · exact .inl (.inl rfl)
    · exact .inl (.inr rfl)
    · exact .inr rfl

/-- The loop passes over the bytes of a term. -/
theorem loop_term {before after : Text} (plain : Plain (before ++ after)) (bytes : read s.text p after.length = after)
    (inside : p + after.length ≤ ep) (room : ep - p < fuel) :
    ∃ fuel', loop fuel s ep p parent tail = loop fuel' s ep (p + after.length) parent tail ∧ ep - (p + after.length) < fuel' := by
  induction after generalizing before p fuel with
  | nil => exact ⟨fuel,rfl,room⟩
  | cons c after ih =>
    rw [List.length_cons] at inside bytes
    have here : s.text p = c := (List.cons.inj bytes).1
    have rest : read s.text (p + 1) after.length = after := (List.cons.inj bytes).2
    obtain ⟨zero,opens,closes⟩ := plain.free
    have no_open : c ≠ 91 := fun same => opens (by simp [same])
    have no_close : c ≠ 93 := fun same => closes (by simp [same])
    have single : ¬ (isOp c ∧ s.text (p + 1) = c) := by
      rintro ⟨isop,twice⟩
      obtain ⟨o,rfl⟩ := isOp_iff.mp isop
      cases after with
      | nil => exact (plain.ends o).2 (by simp)
      | cons d after =>
        have second : d = o.char := by
          rw [List.length_cons] at rest
          rw [← (List.cons.inj rest).1]
          exact twice
        refine plain.single o ⟨before,after,?_⟩
        rw [second]
        simp
    cases fuel with
    | zero => exact absurd room (Nat.not_lt_zero _)
    | succ fuel =>
      have shape : before ++ c :: after = before ++ [c] ++ after := by simp
      have next : p + (after.length + 1) = p + 1 + after.length := by omega
      rw [shape] at plain
      obtain ⟨fuel',moved,room'⟩ := ih plain rest (by omega) (by omega : ep - (p + 1) < fuel)
      refine ⟨fuel',?_,?_⟩
      · rw [loop,if_pos (by omega),here,if_neg single,if_neg no_open,if_neg no_close,moved,List.length_cons,next]
      · rw [List.length_cons,next]
        exact room'

/-! ## A list of nodes -/

/-- Where a list ends: at the end of the text, or at its closing bracket. -/
inductive Closes (text : Memory) (ep e e' : Nat) : Prop
  | end_ (last : e = ep) (zero : text e = 0) (stop : e' = e)
  | bracket (inside : e < ep) (closing : text e = 93) (stop : e' = e + 1)

theorem read_append {text : Memory} {p : Nat} {xs ys : Text} :
    read text p (xs ++ ys).length = xs ++ ys ↔ read text p xs.length = xs ∧ read text (p + xs.length) ys.length = ys := by
  rw [List.length_append,read_add]
  constructor
  · intro both
    exact List.append_inj both (by rw [read_length])
  · rintro ⟨left,right⟩
    rw [left,right]

mutual
theorem item_spec {s : State} {fuel ep p : Nat} {parent : Option Nat} {a : Nat} (item : Item) (plain : item.Plain)
    (term : (s.cells a).term = some p) (child : (s.cells a).child = none) (old : a < s.fresh)
    (bytes : read s.text p item.render.length = item.render) (inside : p + item.render.length ≤ ep) (room : ep - p < fuel) :
    ∃ fuel' s', loop fuel s ep p parent a = loop fuel' s' ep (p + item.render.length) parent a ∧
      ep - (p + item.render.length) < fuel' ∧ Keeps s s' a p (p + item.render.length) ∧ SameLinks (s.cells a) (s'.cells a) ∧
      ∀ text cells, Later s s' text cells p (p + item.render.length) → text (p + item.render.length) = 0 →
        (cells a).term = (s'.cells a).term → (cells a).child = (s'.cells a).child → HoldsItem text cells a item := by
  match item with
  | .term t =>
    rw [Item.Plain] at plain
    rw [Item.render] at bytes inside ⊢
    obtain ⟨fuel',moved,room'⟩ := @loop_term s fuel ep p parent a [] t plain bytes inside room
    refine ⟨fuel',s,moved,room',⟨Nat.le_refl _,fun _ _ _ => rfl,fun _ _ => rfl⟩,⟨rfl,rfl,rfl,rfl⟩,?_⟩
    intro text cells later zero term' child'
    refine ⟨⟨p,term'.trans term,read_append.mpr ⟨?_,?_⟩⟩,child'.trans child⟩
    · rw [read_congr fun i low high => later.text i low high]
      exact bytes
    · show [text (p + t.length)] = [0]
      rw [zero]
  | .list nodes =>
    rw [Item.Plain] at plain
    obtain ⟨len,len_eq⟩ : ∃ len, len = nodes.render.length := ⟨_,rfl⟩
    have length : (Item.list nodes).render.length = len + 2 := by
      rw [Item.render,List.length_append,List.length_append,List.length_singleton,List.length_singleton,← len_eq]
      omega
    rw [Item.render] at bytes
    obtain ⟨front,last⟩ := read_append.mp bytes
    obtain ⟨first,middle⟩ := read_append.mp front
    rw [List.length_append,List.length_singleton,← len_eq] at last
    rw [List.length_singleton,← len_eq] at middle
    have opening : s.text p = 91 := (List.cons.inj first).1
    have closing : s.text (p + (1 + len)) = 93 := (List.cons.inj last).1
    rw [length] at inside ⊢
    cases fuel with
    | zero => exact absurd room (Nat.not_lt_zero _)
    | succ fuel =>
      obtain ⟨s1,s1_eq⟩ : ∃ s1, s1 = s.alloc { term := some (p + 1), parent := some a } := ⟨_,rfl⟩
      have fresh1 : s1.fresh = s.fresh + 1 := by rw [s1_eq]; rfl
      have text1 : s1.text = s.text := by rw [s1_eq]; rfl
      have node1 : s1.cells s.fresh = { term := some (p + 1), parent := some a } := by
        rw [s1_eq]
        exact Function.update_self _ _ _
      have cells1 : ∀ x < s.fresh, s1.cells x = s.cells x := by
        intro x below
        rw [s1_eq]
        exact Function.update_of_ne (Nat.ne_of_lt below) _ _
      have end_ : p + 1 + len = p + (1 + len) := by omega
      obtain ⟨s2,ended,keeps,holds⟩ := @nodes_spec s1 fuel ep (p + 1) (p + 1 + len + 1) (some a) none 0 s.fresh nodes plain node1
        (by omega) (by rw [text1,← len_eq]; exact middle) (by omega) (by omega)
        (by rw [← len_eq]; exact .bracket (by omega) (by rw [text1,end_]; exact closing) rfl)
      rw [← len_eq] at keeps holds
      obtain ⟨s3,s3_eq⟩ : ∃ s3, s3 = s2.set a { s2.cells a with child := some s.fresh, term := none } := ⟨_,rfl⟩
      have at2 : s2.cells a = s.cells a := (keeps.cells a (by omega) (by omega)).trans (cells1 a old)
      have at3 : s3.cells a = { s.cells a with child := some s.fresh, term := none } := by
        rw [s3_eq,← at2]
        exact Function.update_self _ _ _
      have cells3 : ∀ x, x ≠ a → s3.cells x = s2.cells x := by
        intro x other
        rw [s3_eq]
        exact Function.update_of_ne other _ _
      have fresh3 : s3.fresh = s2.fresh := by rw [s3_eq]; rfl
      have text3 : s3.text = s2.text := by rw [s3_eq]; rfl
      have place : p + 1 + len + 1 = p + (len + 2) := by omega
      have grown := keeps.fresh
      refine ⟨fuel,s3,?_,by omega,⟨by omega,fun x below other => ?_,fun i outside => ?_⟩,?_,?_⟩
      · have single : ¬ (isOp (s.text p) ∧ s.text (p + 1) = s.text p) := by
          rw [opening]
          exact fun both => absurd both.1 (by decide)
        rw [loop,if_pos (by omega),if_neg single,if_pos opening,← s1_eq]
        simp only [ended,← s3_eq,place]
      · rw [cells3 x other,keeps.cells x (by omega) (by omega),cells1 x below]
      · rw [text3,keeps.text i (by omega),text1]
      · rw [at3]
        exact ⟨rfl,rfl,rfl,rfl⟩
      · intro text cells later zero term' child'
        rw [at3] at term' child'
        refine ⟨term',s.fresh,child',holds text cells ⟨fun x low high => ?_,fun i low high => ?_⟩ ?_⟩
        · rw [later.cells x (by omega) (by omega),cells3 x (by omega)]
        · rw [later.text i (by omega) (by omega),text3]
        · rw [later.cells s.fresh (Nat.le_refl _) (by omega),cells3 _ (by omega)]
theorem nodes_spec {s : State} {fuel ep p e' : Nat} {parent prev : Option Nat} {op : UInt8} {a : Nat} (nodes : Nodes) (plain : nodes.Plain)
    (node : s.cells a = { term := some p, op := op, parent := parent, prev := prev }) (old : a < s.fresh)
    (bytes : read s.text p nodes.render.length = nodes.render) (inside : p + nodes.render.length ≤ ep) (room : ep - p < fuel)
    (closes : Closes s.text ep (p + nodes.render.length) e') :
    ∃ s', loop fuel s ep p parent a = some (e',s') ∧ Keeps s s' a p (p + nodes.render.length + 1) ∧
      ∀ text cells, Later s s' text cells p (p + nodes.render.length + 1) → cells a = s'.cells a →
        Holds text cells parent prev op a nodes := by
  match nodes with
  | .one item =>
    rw [Nodes.Plain] at plain
    rw [Nodes.render] at bytes inside closes ⊢
    obtain ⟨e,e_eq⟩ : ∃ e, e = p + item.render.length := ⟨_,rfl⟩
    obtain ⟨fuel',s1,moved,room',keeps,links,holds⟩ := @item_spec s fuel ep p parent a item plain (by rw [node]) (by rw [node]) old bytes
      inside room
    rw [← e_eq] at moved room' keeps holds closes inside ⊢
    cases fuel' with
    | zero => exact absurd room' (Nat.not_lt_zero _)
    | succ fuel' =>
      have held : ∀ {s' : State} {text cells}, s'.cells = s1.cells → s'.fresh = s1.fresh → s'.text e = 0 → (∀ i < e, s'.text i = s1.text i) →
          Later s s' text cells p (e + 1) → cells a = s'.cells a → Holds text cells parent prev op a (.one item) := by
        intro s' text cells cells_ fresh_ zero same later mine
        rw [cells_] at mine
        refine ⟨⟨?_,?_,?_,?_⟩,holds text cells ⟨fun x low high => ?_,fun i low high => ?_⟩ ?_ (by rw [mine]) (by rw [mine])⟩
        · rw [mine,links.op,node]
        · rw [mine,links.parent,node]
        · rw [mine,links.prev,node]
        · rw [mine,links.next,node]
        · rw [later.cells x low (by omega),cells_]
        · rw [later.text i low (by omega),same i high]
        · rw [later.text e (by omega) (by omega),zero]
      cases closes with
      | end_ last zero stop =>
        rw [stop]
        refine ⟨s1,?_,⟨keeps.fresh,keeps.cells,fun i outside => keeps.text i (by omega)⟩,fun text cells later mine => ?_⟩
        · rw [moved,loop,if_neg (by omega)]
        · refine held rfl rfl ?_ (fun _ _ => rfl) later mine
          rw [keeps.text e (by omega)]
          exact zero
      | bracket before closing stop =>
        rw [stop]
        have same : s1.text e = 93 := by
          rw [keeps.text e (by omega)]
          exact closing
        refine ⟨s1.zero e,?_,⟨keeps.fresh,keeps.cells,fun i outside => ?_⟩,fun text cells later mine => ?_⟩
        · have single : ¬ (isOp (s1.text e) ∧ s1.text (e + 1) = s1.text e) := by
            rw [same]
            exact fun both => absurd both.1 (by decide)
          rw [moved,loop,if_pos before,if_neg single,if_neg (by rw [same]; decide),if_pos same]
        · have other : i ≠ e := by omega
          have kept : (s1.zero e).text i = s1.text i := Function.update_of_ne other _ _
          rw [kept,keeps.text i (by omega)]
        · exact @held (s1.zero e) text cells rfl rfl (Function.update_self _ _ _) (fun i below => Function.update_of_ne (Nat.ne_of_lt below) _ _) later mine
  | .more item o rest =>
    rw [Nodes.Plain] at plain
    obtain ⟨e,e_eq⟩ : ∃ e, e = p + item.render.length := ⟨_,rfl⟩
    obtain ⟨len,len_eq⟩ : ∃ len, len = rest.render.length := ⟨_,rfl⟩
    have length : p + (Nodes.more item o rest).render.length = e + 2 + len := by
      rw [Nodes.render,List.length_append,List.length_append,← len_eq,e_eq,List.length_cons,List.length_singleton]
      omega
    rw [Nodes.render] at bytes
    obtain ⟨front,last⟩ := read_append.mp bytes
    obtain ⟨first,middle⟩ := read_append.mp front
    rw [List.length_append,← Nat.add_assoc,← e_eq,← len_eq] at last
    rw [← e_eq] at middle
    obtain ⟨char,second⟩ := List.cons.inj middle
    have char' : s.text (e + 1) = o.char := (List.cons.inj second).1
    rw [length] at inside closes ⊢
    obtain ⟨fuel',s1,moved,room',keeps,links,holds⟩ := @item_spec s fuel ep p parent a item plain.1 (by rw [node]) (by rw [node]) old first
      (by omega) room
    rw [← e_eq] at moved room' keeps holds
    cases fuel' with
    | zero => exact absurd room' (Nat.not_lt_zero _)
    | succ fuel' =>
      have here : s1.text e = o.char := by
        rw [keeps.text e (by omega)]
        exact char
      have here' : s1.text (e + 1) = o.char := by
        rw [keeps.text (e + 1) (by omega)]
        exact char'
      have grown := keeps.fresh
      obtain ⟨s2,s2_eq⟩ : ∃ s2, s2 = (s1.alloc { term := some (e + 2), op := o.char, parent := parent, prev := some a }).zero e := ⟨_,rfl⟩
      obtain ⟨s3,s3_eq⟩ : ∃ s3, s3 = s2.set a { s2.cells a with next := some s1.fresh } := ⟨_,rfl⟩
      have cells2 : ∀ x, x ≠ s1.fresh → s2.cells x = s1.cells x := by
        intro x other
        rw [s2_eq]
        exact Function.update_of_ne other _ _
      have at3 : s3.cells a = { s1.cells a with next := some s1.fresh } := by
        rw [s3_eq,← cells2 a (by omega)]
        exact Function.update_self _ _ _
      have cells3 : ∀ x, x ≠ a → s3.cells x = s2.cells x := by
        intro x other
        rw [s3_eq]
        exact Function.update_of_ne other _ _
      have node3 : s3.cells s1.fresh = { term := some (e + 2), op := o.char, parent := parent, prev := some a } := by
        rw [cells3 _ (by omega),s2_eq]
        exact Function.update_self _ _ _
      have fresh3 : s3.fresh = s1.fresh + 1 := by
        rw [s3_eq,s2_eq]
        rfl
      have zero3 : s3.text e = 0 := by
        rw [s3_eq,s2_eq]
        exact Function.update_self _ _ _
      have text3 : ∀ i, i ≠ e → s3.text i = s1.text i := by
        intro i other
        rw [s3_eq,s2_eq]
        exact Function.update_of_ne other _ _
      have rest_ : read s3.text (e + 2) len = rest.render := by
        rw [← last]
        refine read_congr fun i low high => ?_
        rw [text3 i (by omega),keeps.text i (by omega)]
      have closes' : Closes s3.text ep (e + 2 + len) e' := by
        have same : s3.text (e + 2 + len) = s.text (e + 2 + len) := by rw [text3 _ (by omega),keeps.text _ (by omega)]
        cases closes with
        | end_ last zero stop => exact .end_ last (by rw [same]; exact zero) stop
        | bracket before closing stop => exact .bracket before (by rw [same]; exact closing) stop
      obtain ⟨s4,ended,keeps4,holds4⟩ := @nodes_spec s3 fuel' ep (e + 2) e' parent (some a) o.char s1.fresh rest plain.2 node3 (by omega)
        (by rw [← len_eq]; exact rest_) (by omega) (by omega) (by rw [← len_eq]; exact closes')
      rw [← len_eq] at keeps4 holds4
      have grown4 := keeps4.fresh
      have at4 : s4.cells a = { s1.cells a with next := some s1.fresh } := by rw [keeps4.cells a (by omega) (by omega),at3]
      refine ⟨s4,?_,⟨by omega,fun x below other => ?_,fun i outside => ?_⟩,fun text cells later mine => ?_⟩
      · have both : isOp (s1.text e) ∧ s1.text (e + 1) = s1.text e := by
          rw [here,here']
          exact ⟨op_char o,rfl⟩
        rw [moved,loop,if_pos (by omega),if_pos both,here]
        rw [s3_eq,s2_eq] at ended
        exact ended
      · rw [keeps4.cells x (by omega) (by omega),cells3 x other,cells2 x (by omega),keeps.cells x below other]
      · rw [keeps4.text i (by omega),text3 i (by omega),keeps.text i (by omega)]
      · rw [at4] at mine
        refine ⟨⟨?_,?_,?_⟩,holds text cells ⟨fun x low high => ?_,fun i low high => ?_⟩ ?_ (by rw [mine]) (by rw [mine]),s1.fresh,
          by rw [mine],holds4 text cells ⟨fun x low high => ?_,fun i low high => ?_⟩ ?_⟩
        · rw [mine]
          exact links.op.trans (by rw [node])
        · rw [mine]
          exact links.parent.trans (by rw [node])
        · rw [mine]
          exact links.prev.trans (by rw [node])
        · rw [later.cells x low (by omega),keeps4.cells x (by omega) (by omega),cells3 x (by omega),cells2 x (by omega)]
        · rw [later.text i low (by omega),keeps4.text i (by omega),text3 i (by omega)]
        · rw [later.text e (by omega) (by omega),keeps4.text e (by omega),zero3]
        · exact later.cells x (by omega) high
        · exact later.text i (by omega) high
        · exact later.cells s1.fresh (by omega) (by omega)
end

end

/-- A tree that is rendered to text is read back, with its links. -/
theorem parse_render (s : State) (nodes : Nodes) (plain : nodes.Plain) :
    ∃ head s', acBooleanTreeNodeParse s nodes.render = some (head,s') ∧ Holds s'.text s'.cells none none 0 head nodes := by
  obtain ⟨len,len_eq⟩ : ∃ len, len = nodes.render.length := ⟨_,rfl⟩
  obtain ⟨s0,s0_eq⟩ : ∃ s0, s0 = { s with text := write s.text 0 (nodes.render ++ [0]) } := ⟨_,rfl⟩
  have whole : read s0.text 0 (nodes.render ++ [0]).length = nodes.render ++ [0] := by
    rw [s0_eq]
    exact read_write s.text 0 (nodes.render ++ [0])
  obtain ⟨bytes,end_⟩ := read_append.mp whole
  have zero : s0.text (0 + nodes.render.length) = 0 := (List.cons.inj end_).1
  have node : (s0.alloc { term := some 0, parent := none }).cells s0.fresh = { term := some 0, parent := none } :=
    Function.update_self _ _ _
  obtain ⟨s',ended,_,holds⟩ := @nodes_spec (s0.alloc { term := some 0, parent := none }) (len + 1) len 0 (0 + nodes.render.length) none none 0
    s0.fresh nodes plain node (Nat.lt_succ_self _) bytes (by omega) (by omega) (.end_ (by omega) zero rfl)
  refine ⟨s0.fresh,s',?_,holds s'.text s'.cells ⟨fun _ _ _ => rfl,fun _ _ _ => rfl⟩ rfl⟩
  rw [acBooleanTreeNodeParse,parse,← s0_eq,← len_eq,ended]
  rfl

/-- `a||[b--c]`. -/
def small : Nodes := .more (.term [97]) .or (.one (.list (.more (.term [98]) .not (.one (.term [99])))))

def noNodes : State := { text := fun _ => 0, cells := fun _ => { term := none, parent := none }, fresh := 0 }

theorem parse_render_small : small.render = [97,124,124,91,98,45,45,99,93] ∧
    ∃ head s', acBooleanTreeNodeParse noNodes small.render = some (head,s') ∧ Holds s'.text s'.cells none none 0 head small := by
  have letter : ∀ c : UInt8, c = 97 ∨ c = 98 ∨ c = 99 → Plain [c] := by
    rintro c (rfl | rfl | rfl)
    · exact ⟨by decide,by decide,fun op => by cases op <;> decide,fun op => by cases op <;> decide⟩
    · exact ⟨by decide,by decide,fun op => by cases op <;> decide,fun op => by cases op <;> decide⟩
    · exact ⟨by decide,by decide,fun op => by cases op <;> decide,fun op => by cases op <;> decide⟩
  refine ⟨by decide,parse_render noNodes small ?_⟩
  rw [small,Nodes.Plain,Item.Plain,Nodes.Plain,Item.Plain,Nodes.Plain,Item.Plain,Nodes.Plain,Item.Plain]
  exact ⟨letter 97 (.inl rfl),letter 98 (.inr (.inl rfl)),letter 99 (.inr (.inr rfl))⟩

end AnotherC.BooleanTree
