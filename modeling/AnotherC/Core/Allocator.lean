import AnotherC.Lib.Bytes
import AnotherC.Lib.Chain

/-!
# The allocator that keeps a list of its blocks: `_ac_malloc_d`, `_ac_calloc_d`, `_ac_realloc_d`, `_ac_free_d`

A node of 40 bytes stands before the bytes of each block and is linked into a list. The size
`sizeof(ac_allocator_node_t) + len` that is asked of `malloc` can wrap around to one that has
no room for the node.
-/
namespace AnotherC.AcAllocator
open AnotherC.Lib.Bytes (toSize toSize_small)
open AnotherC.Lib.Chain
set_option linter.unusedVariables false

/-! ## The functions -/

/-- `ac_allocator_node_t`: the length, negative for a custom block, the allocator, and the bytes
    behind the node. -/
structure Node where
  length : Int
  a : Nat
  data : List UInt8
deriving Repr, DecidableEq

/-- `ac_allocator_t` at its address, and every node there was in order; one that is freed has no
    item. -/
structure Allocator where
  self : Nat
  head : Option Nat := none
  tail : Option Nat := none
  totalBytesAllocated : Nat := 0
  totalAllocations : Nat := 0
  nodes : List (Link (Option Node)) := []
deriving Repr, DecidableEq

def acAllocatorInit (self : Nat) : Allocator := { self := self }

/-- What the C library's `malloc` returns for a size: NULL, or bytes that hold anything. -/
abbrev Malloc := Nat → Option (List UInt8)

/-- The process goes on with a pointer to the bytes of a node, or NULL, or is aborted. -/
inductive Outcome where
  | returned (p : Option Nat) (a : Allocator)
  | aborted
deriving Repr, DecidableEq

/-- A `size_t` as an `ssize_t`. -/
def toSsize (n : Nat) : Int := if (n : Int) < 2 ^ 63 then n else n - 2 ^ 64

/-- `-l`, which the smallest `ssize_t` does not have. -/
def negate (l : Int) : Option Int := if l = -2 ^ 63 then none else some (-l)

/-- `sizeof(ac_allocator_node_t) + len` -/
def nodeSize (len : Nat) : Nat := toSize (40 + len)

/-- The node at a place and its pointers, when it has not been freed. -/
def nodeAt (nodes : List (Link (Option Node))) (p : Nat) : Option (Node × Link (Option Node)) := do
  let link ← nodes[p]?
  let n ← link.item
  some (n,link)

def isLive (nodes : List (Link (Option Node))) (p : Nat) : Bool := (nodeAt nodes p).isSome

/-- `_ac_malloc_d` -/
def acMallocD (a : Allocator) (len : Nat) (custom : Bool) (malloc : Malloc) : Option Outcome :=
  if len = 0 then some (.returned none a)
  else match malloc (nodeSize len) with
    | none => some .aborted
    | some memory =>
      if memory.length < 40 then none
      else do
        let l ← (if custom then negate (toSsize len) else some (toSsize len))
        let a' := { a with
          totalBytesAllocated := toSize (a.totalBytesAllocated + len), totalAllocations := toSize (a.totalAllocations + 1),
          tail := some a.nodes.length }
        match a.tail with
        | none => some (.returned (some a.nodes.length)
            { a' with head := some a.nodes.length, nodes := a.nodes ++ [⟨some ⟨l,a.self,memory.drop 40⟩,none,none⟩] })
        | some tail =>
          if isLive a.nodes tail then do
            let nodes ← setNext a.nodes tail (some a.nodes.length)
            some (.returned (some a.nodes.length) { a' with nodes := nodes ++ [⟨some ⟨l,a.self,memory.drop 40⟩,none,some tail⟩] })
          else none

/-- Bytes are written at the front of a block: `memset`, `memcpy`, or the caller. -/
def write (a : Allocator) (p : Nat) (bytes : List UInt8) : Option Allocator := do
  let (n,_) ← nodeAt a.nodes p
  if n.data.length < bytes.length then none
  else do
    let nodes ← setItem a.nodes p (some { n with data := bytes ++ n.data.drop bytes.length })
    some { a with nodes := nodes }

/-- `_ac_calloc_d` -/
def acCallocD (a : Allocator) (len : Nat) (custom : Bool) (malloc : Malloc) : Option Outcome := do
  let out ← acMallocD a len custom malloc
  match out with
  | .aborted => some .aborted
  | .returned none a => some (.returned none a)
  | .returned (some m) a => do
    let a ← write a m (List.replicate len 0)
    some (.returned (some m) a)

/-- `_ac_free_d`; the block goes back with the node, so that what `n->a--` has written is not
    read again. -/
def acFreeD (a : Allocator) (p : Option Nat) : Option Outcome :=
  match p with
  | none => some (.returned none a)
  | some p => do
    let (n,link) ← nodeAt a.nodes p
    if n.a ≠ a.self then some .aborted
    else if link.previous.all (isLive a.nodes) ∧ link.next.all (isLive a.nodes) then do
      let (nodes,head,tail) ← takeOut a.nodes a.head a.tail link
      let nodes ← setItem nodes p none
      some (.returned none
        { a with
          nodes := nodes, head := head, tail := tail, totalAllocations := toSize (a.totalAllocations - 1),
          totalBytesAllocated := toSize (if n.length > 0 then a.totalBytesAllocated - n.length else a.totalBytesAllocated + n.length) })
    else none

/-- The length of a node as `_ac_realloc_d` finds it. -/
def oldLength (length : Int) : Option Nat :=
  if length > 0 then some (toSize length) else (negate length).map toSize

/-- `_ac_realloc_d` -/
def acReallocD (a : Allocator) (p : Option Nat) (len : Nat) (custom : Bool) (malloc : Malloc) : Option Outcome :=
  match p with
  | none => acMallocD a len custom malloc
  | some p => do
    let (n,_) ← nodeAt a.nodes p
    if n.a ≠ a.self then some .aborted
    else do
      let out ← acMallocD a len custom malloc
      match out with
      | .aborted => some .aborted
      | .returned m a => do
        let len2 ← oldLength n.length
        let copied := if len2 < len then len2 else len
        let m ← m
        if n.data.length < copied then none
        else do
          let a ← write a m (n.data.take copied)
          let out ← acFreeD a (some p)
          match out with
          | .aborted => some .aborted
          | .returned _ a => some (.returned (some m) a)

/-! ## Runs -/

/-- A call on the allocator with what `malloc` does in it, or bytes that the caller writes over
    those of a block. -/
inductive Event where
  | malloc (len : Nat) (custom : Bool) (malloc : Malloc)
  | calloc (len : Nat) (custom : Bool) (malloc : Malloc)
  | realloc (p : Option Nat) (len : Nat) (custom : Bool) (malloc : Malloc)
  | free (p : Option Nat)
  | fill (p : Nat) (bytes : List UInt8)

def step (a : Allocator) : Event → Option Outcome
  | .malloc len custom malloc => acMallocD a len custom malloc
  | .calloc len custom malloc => acCallocD a len custom malloc
  | .realloc p len custom malloc => acReallocD a p len custom malloc
  | .free p => acFreeD a p
  | .fill p bytes => (write a p bytes).map (.returned none)

/-- A live block: its pointer and its bytes. -/
structure Block where
  place : Nat
  custom : Bool
  data : List UInt8
deriving Repr, DecidableEq

/-- The bytes at a pointer. -/
def bytesAt (live : List Block) (p : Nat) : List UInt8 := ((live.find? (·.place = p)).map (·.data)).getD []

/-- What a new block holds, before anything is written. -/
def fresh (malloc : Malloc) (len : Nat) : List UInt8 := ((malloc (nodeSize len)).getD []).drop 40

/-- The live blocks in order of allocation after an event; a new one has the next pointer. A block
    that is reallocated keeps its first bytes and moves to the end. -/
def after (next : Nat) (live : List Block) : Event → List Block
  | .malloc len custom malloc => live ++ [⟨next,custom,fresh malloc len⟩]
  | .calloc len custom malloc => live ++ [⟨next,custom,List.replicate len 0⟩]
  | .realloc none len custom malloc => live ++ [⟨next,custom,fresh malloc len⟩]
  | .realloc (some p) len custom malloc => live.filter (·.place ≠ p) ++
      [⟨next,custom,(bytesAt live p).take len ++ (fresh malloc len).drop (bytesAt live p).length⟩]
  | .free none => live
  | .free (some p) => live.filter (·.place ≠ p)
  | .fill p bytes => live.map fun b => if b.place = p then { b with data := bytes } else b

/-- The length that an event allocates, and the `malloc` it does it with. -/
def Event.wants : Event → Option (Nat × Malloc)
  | .malloc len _ m => some (len,m)
  | .calloc len _ m => some (len,m)
  | .realloc _ len _ m => some (len,m)
  | _ => none

/-- The pointer that an event returns. -/
def given (next : Nat) (e : Event) : Option Nat := e.wants.map fun _ => next

/-- `malloc` fails, and the process ends. -/
def Ends (e : Event) : Prop := ∃ want, e.wants = some want ∧ want.2 (nodeSize want.1) = none

/-- The bytes that the allocator has from `malloc`. -/
def held (live : List Block) : Nat := (live.map fun b => b.data.length + 40).sum

/-- `malloc` returns as many bytes as were asked for, fewer than 2^63, and all that is allocated lies
    in one address space. -/
def Provides (live : List Block) (malloc : Malloc) : Prop :=
  ∀ size memory, malloc size = some memory → memory.length = size ∧ (size : Int) < 2 ^ 63 ∧ ((held live : Int) + size < 2 ^ 64)

/-- Lengths are positive and only live blocks are reallocated, freed and written. -/
structure Legal (live : List Block) (e : Event) : Prop where
  length : ∀ want, e.wants = some want → 0 < want.1 ∧ (want.1 : Int) < 2 ^ 64 ∧ Provides live want.2
  reallocates : ∀ p len custom malloc, e = .realloc (some p) len custom malloc → p ∈ live.map (·.place)
  frees : ∀ p, e = .free (some p) → p ∈ live.map (·.place)
  fills : ∀ p bytes, e = .fill p bytes → ∃ b ∈ live, b.place = p ∧ b.data.length = bytes.length

def LegalRun (next : Nat) (live : List Block) : List Event → Prop
  | [] => True
  | e :: es => Legal live e ∧ (¬ Ends e → LegalRun (if e.wants.isSome then next + 1 else next) (after next live e) es)

/-- The node of a block. -/
def nodeOf (self : Nat) (b : Block) : Node := ⟨if b.custom then -(b.data.length : Int) else b.data.length,self,b.data⟩

/-- The list holds the live blocks in order, each naming its neighbours, and the counters are
    their number and the sum of their lengths. -/
structure Books (a : Allocator) (live : List Block) : Prop where
  chain : Linked a.nodes none (live.map (·.place)) (live.map fun b => some (nodeOf a.self b))
  head : a.head = (live.map (·.place)).head?
  tail : a.tail = (live.map (·.place)).getLast?
  allocations : a.totalAllocations = live.length
  bytes : a.totalBytesAllocated = (live.map (·.data.length)).sum

/-- The books are exact in every state of the run, and nothing undefined is done. -/
def Exact (a : Allocator) (live : List Block) : List Event → Prop
  | [] => Books a live
  | e :: es => Books a live ∧
    (Ends e ∧ step a e = some .aborted ∨
      ∃ a', step a e = some (.returned (given a.nodes.length e) a') ∧ Exact a' (after a.nodes.length live e) es)

/-- What `malloc` returns has room for the node and the length. -/
def Meets (e : Event) : Prop :=
  ∀ want, e.wants = some want → want.2 (nodeSize want.1) ≠ none → (want.1 : Int) + 40 < 2 ^ 64

/-- Every event meets it, up to one that ends the process. -/
def AllMeet : List Event → Prop
  | [] => True
  | e :: es => Meets e ∧ (Ends e ∨ AllMeet es)

/-! ## Proofs -/

section
variable {a a' : Allocator} {live : List Block} {malloc : Malloc} {len : Nat} {custom : Bool}

/-- What is known of a state between two calls. -/
structure Inv (a : Allocator) (live : List Block) : Prop extends Books a live where
  room : (held live : Int) < 2 ^ 64
  filled : ∀ b ∈ live, 0 < b.data.length ∧ (b.data.length : Int) < 2 ^ 63

/-- A block as an entry of the list. -/
def entry (self : Nat) (b : Block) : Nat × Option Node := (b.place,some (nodeOf self b))

theorem entries_places (self : Nat) (live : List Block) : (live.map (entry self)).map Prod.fst = live.map (·.place) :=
  List.map_map

theorem entries_items (self : Nat) (live : List Block) :
    (live.map (entry self)).map Prod.snd = live.map fun b => some (nodeOf self b) :=
  List.map_map

theorem Books.entries (books : Books a live) :
    Linked a.nodes none ((live.map (entry a.self)).map Prod.fst) ((live.map (entry a.self)).map Prod.snd) := by
  rw [entries_places,entries_items]
  exact books.chain

theorem Books.distinct (books : Books a live) : (live.map (·.place)).Nodup := books.chain.nodup

/-- The node of a live block. -/
theorem Books.node (books : Books a live) {b : Block} (inside : b ∈ live) :
    ∃ link, nodeAt a.nodes b.place = some (nodeOf a.self b,link) ∧ a.nodes[b.place]? = some link ∧ link.item = some (nodeOf a.self b) := by
  obtain ⟨link,found,item⟩ := link_of books.entries (List.mem_map_of_mem inside)
  refine ⟨link,?_,found,item⟩
  rw [nodeAt]
  simp only [entry] at found item
  simp only [found,item,Option.bind_eq_bind,Option.bind_some]

theorem Books.isLive (books : Books a live) {p : Nat} (inside : p ∈ live.map (·.place)) : isLive a.nodes p = true := by
  obtain ⟨b,member,rfl⟩ := List.mem_map.mp inside
  obtain ⟨link,there,-⟩ := books.node member
  rw [AcAllocator.isLive,there]
  rfl

theorem Books.below (books : Books a live) {p : Nat} (inside : p ∈ live.map (·.place)) : p < a.nodes.length :=
  books.chain.lt inside

theorem held_append (live : List Block) (b : Block) : held (live ++ [b]) = held live + (b.data.length + 40) := by
  simp [held]

/-- The number of live blocks and of their bytes are less than what is held. -/
theorem held_counts (live : List Block) : (live.map (·.data.length)).sum + 40 * live.length = held live := by
  induction live with
  | nil => rfl
  | cons b live ih =>
    simp only [held,List.map_cons,List.sum_cons,List.length_cons] at ih ⊢
    omega

/-! ### Allocating -/

/-- A request that does not fail returns at least a node when it meets its condition. -/
theorem node_room {memory : List UInt8} (small : (len : Int) + 40 < 2 ^ 64) (size : memory.length = nodeSize len) :
    memory.length = len + 40 := by
  unfold nodeSize toSize at size
  omega

/-- One that wraps around has no room for a node. -/
theorem node_short {memory : List UInt8} (int : (len : Int) < 2 ^ 64) (large : ¬ (len : Int) + 40 < 2 ^ 64)
    (size : memory.length = nodeSize len) : memory.length < 40 := by
  unfold nodeSize toSize at size
  omega

theorem signed (small : (len : Int) < 2 ^ 63) (custom : Bool) :
    (if custom then negate (toSsize len) else some (toSsize len)) = some (if custom then -(len : Int) else len) := by
  have plain : toSsize len = len := if_pos small
  cases custom with
  | false => simp [plain]
  | true =>
    simp [plain,negate]

/-- The list with a new block behind the others. -/
theorem hung (books : Books a live) (b : Block) (place : b.place = a.nodes.length) (some_ : live ≠ []) :
    ∃ tail nodes, a.tail = some tail ∧ isLive a.nodes tail = true ∧ setNext a.nodes tail (some a.nodes.length) = some nodes ∧
      Linked (nodes ++ [⟨some (nodeOf a.self b),none,some tail⟩]) none ((live ++ [b]).map (·.place))
        ((live ++ [b]).map fun b => some (nodeOf a.self b)) ∧ nodes.length = a.nodes.length := by
  obtain ⟨tail,nodes,isTail,set,chain⟩ := books.entries.hang_last (by simpa using some_) (some (nodeOf a.self b))
  rw [entries_places] at isTail
  obtain ⟨nodes',set',length,-⟩ := setNext_spec (books.below (List.mem_of_getLast? isTail)) (some a.nodes.length)
  cases set.symm.trans set'
  have last : (a.nodes.length,some (nodeOf a.self b)) = entry a.self b := by rw [entry,place]
  rw [last,show live.map (entry a.self) ++ [entry a.self b] = (live ++ [b]).map (entry a.self) by rw [List.map_append]; rfl,
    entries_places,entries_items] at chain
  exact ⟨tail,nodes,books.tail.trans isTail,books.isLive (List.mem_of_getLast? isTail),set,chain,length⟩

theorem malloc_inv (custom : Bool) (inv : Inv a live) (positive : 0 < len) {memory : List UInt8} (provides : Provides live malloc)
    (got : malloc (nodeSize len) = some memory) (small : (len : Int) + 40 < 2 ^ 64) :
    ∃ a', acMallocD a len custom malloc = some (.returned (some a.nodes.length) a') ∧
      Inv a' (live ++ [⟨a.nodes.length,custom,fresh malloc len⟩]) ∧ a'.nodes.length = a.nodes.length + 1 ∧ a'.self = a.self ∧
      (fresh malloc len).length = len := by
  obtain ⟨size,half,fits⟩ := provides _ _ got
  have long := node_room small size
  rw [← size,long] at half fits
  have isFresh : fresh malloc len = memory.drop 40 := by rw [fresh,got]; rfl
  have freshLength : (memory.drop 40).length = len := by rw [List.length_drop]; omega
  obtain ⟨b,isBlock⟩ : ∃ b : Block, b = ⟨a.nodes.length,custom,memory.drop 40⟩ := ⟨_,rfl⟩
  have bytes : b.data.length = len := by rw [isBlock]; exact freshLength
  have counts := held_counts live
  have counted : toSize (a.totalAllocations + 1) = (live ++ [b]).length := by
    have total := inv.allocations
    have whole := toSize_small (n := live.length + 1) (by omega)
    rw [total,List.length_append,List.length_singleton,← whole]
    rfl
  have summed : toSize (a.totalBytesAllocated + len) =
      ((live ++ [b]).map (·.data.length)).sum := by
    have total := inv.bytes
    have whole := toSize_small (n := (live.map (·.data.length)).sum + len) (by omega)
    rw [total,List.map_append,List.sum_append,List.map_singleton,List.sum_singleton,bytes,← whole]
    rfl
  have room : (held (live ++ [b]) : Int) < 2 ^ 64 := by
    rw [held_append,bytes]
    omega
  have filled : ∀ d ∈ live ++ [b], 0 < d.data.length ∧ (d.data.length : Int) < 2 ^ 63 := by
    intro d inside
    rcases List.mem_append.mp inside with old | new
    · exact inv.filled d old
    · obtain rfl := List.mem_singleton.mp new
      rw [bytes]
      omega
  have isNode : nodeOf a.self b = ⟨if custom then -(len : Int) else len,a.self,memory.drop 40⟩ := by
    rw [nodeOf,bytes,isBlock]
  have big : ¬ memory.length < 40 := by omega
  have half' : (len : Int) < 2 ^ 63 := by omega
  unfold acMallocD
  rw [if_neg (Nat.ne_of_gt positive),got,isFresh,← isBlock]
  simp only [big,if_false,signed half',Option.bind_eq_bind,Option.bind_some]
  by_cases none_ : live = []
  · subst none_
    have noTail : a.tail = none := inv.tail
    rw [noTail,← isNode]
    have place : [a.nodes.length] = ([] ++ [b]).map Block.place := by rw [isBlock]; rfl
    refine ⟨_,rfl,⟨⟨?_,?_,?_,counted,summed⟩,room,filled⟩,by simp,rfl,freshLength⟩
    · rw [← place]
      exact Linked.single a.nodes _
    · rw [← place]
      rfl
    · rw [← place]
      rfl
  · obtain ⟨tail,nodes,isTail,there,set,chain,length⟩ := hung inv.toBooks b (by rw [isBlock]) none_
    rw [isTail]
    simp only [there,if_true,set,Option.bind_some]
    rw [← isNode]
    refine ⟨_,rfl,⟨⟨chain,?_,?_,counted,summed⟩,room,filled⟩,by simp [length],rfl,freshLength⟩
    · show a.head = _
      rw [inv.head,List.map_append,List.head?_append]
      cases live with
      | nil => exact absurd rfl none_
      | cons d live => rfl
    · rw [List.map_append,List.getLast?_append,isBlock]
      rfl

theorem malloc_ends (got : malloc (nodeSize len) = none) (positive : 0 < len) : acMallocD a len custom malloc = some .aborted := by
  rw [acMallocD,if_neg (Nat.ne_of_gt positive),got]

/-- Where the size wraps around the node is written outside of what `malloc` returns. -/
theorem malloc_outside (positive : 0 < len) (int : (len : Int) < 2 ^ 64) (large : ¬ (len : Int) + 40 < 2 ^ 64)
    {memory : List UInt8} (provides : Provides live malloc) (got : malloc (nodeSize len) = some memory) :
    acMallocD a len custom malloc = none := by
  rw [acMallocD,if_neg (Nat.ne_of_gt positive),got]
  exact if_pos (node_short int large (provides _ _ got).1)

/-! ### Writing -/

def written (p : Nat) (bytes : List UInt8) (b : Block) : Block :=
  if b.place = p then { b with data := bytes ++ b.data.drop bytes.length } else b

theorem written_place (p : Nat) (bytes : List UInt8) (live : List Block) :
    (live.map (written p bytes)).map (·.place) = live.map (·.place) := by
  rw [List.map_map]
  refine List.map_congr_left fun b inside => ?_
  simp only [Function.comp_apply,written]
  split <;> rfl

/-- Blocks at one place are one block. -/
theorem Books.same (books : Books a live) {b d : Block} (inside : b ∈ live) (inside' : d ∈ live) (place : b.place = d.place) : b = d :=
  List.inj_on_of_nodup_map books.distinct inside inside' place

theorem write_inv (inv : Inv a live) {b : Block} (inside : b ∈ live) {bytes : List UInt8} (fits : bytes.length ≤ b.data.length) :
    ∃ a', write a b.place bytes = some a' ∧ Inv a' (live.map (written b.place bytes)) ∧ a'.nodes.length = a.nodes.length ∧
      a'.self = a.self := by
  obtain ⟨link,there,-,-⟩ := inv.node inside
  obtain ⟨nodes,set,length,get⟩ := setItem_spec (inv.below (List.mem_map_of_mem inside))
    (some (nodeOf a.self { b with data := bytes ++ b.data.drop bytes.length }))
  have whole : (bytes ++ b.data.drop bytes.length).length = b.data.length := by
    rw [List.length_append,List.length_drop]
    omega
  have lengths : ∀ d ∈ live, (written b.place bytes d).data.length = d.data.length := by
    intro d member
    unfold written
    split
    case isTrue same =>
      rw [inv.same member inside same]
      exact whole
    case isFalse => rfl
  have isNode : (⟨(nodeOf a.self b).length,(nodeOf a.self b).a,bytes ++ (nodeOf a.self b).data.drop bytes.length⟩ : Node) =
      nodeOf a.self { b with data := bytes ++ b.data.drop bytes.length } := by
    simp only [nodeOf,whole]
  have items : (live.map (entry a.self)).map (fun e => if b.place = e.1 then
        some (nodeOf a.self { b with data := bytes ++ b.data.drop bytes.length }) else e.2) =
      (live.map (written b.place bytes)).map fun b => some (nodeOf a.self b) := by
    rw [List.map_map,List.map_map]
    refine List.map_congr_left fun d member => ?_
    show (if b.place = d.place then _ else some (nodeOf a.self d)) = some (nodeOf a.self (if d.place = b.place then _ else d))
    by_cases same : b.place = d.place
    · obtain rfl := inv.same inside member same
      simp
    · rw [if_neg same,if_neg (Ne.symm same)]
  have chain := inv.entries.update get
  rw [items,entries_places] at chain
  have small : ¬ (nodeOf a.self b).data.length < bytes.length := Nat.not_lt.mpr fits
  have sums (f : Nat → Nat) : (live.map (written b.place bytes)).map (fun d => f d.data.length) = live.map fun d => f d.data.length := by
    rw [List.map_map]
    exact List.map_congr_left fun d member => congrArg f (lengths d member)
  unfold write
  rw [there]
  simp only [Option.bind_eq_bind,Option.bind_some,small,if_false]
  rw [isNode,set]
  refine ⟨_,rfl,⟨⟨?_,?_,?_,?_,?_⟩,?_,?_⟩,length,rfl⟩
  · rw [written_place]
    exact chain
  · rw [written_place]
    exact inv.head
  · rw [written_place]
    exact inv.tail
  · rw [List.length_map]
    exact inv.allocations
  · exact inv.bytes.trans (congrArg List.sum (sums fun n => n)).symm
  · have same : held (live.map (written b.place bytes)) = held live := congrArg List.sum (sums (· + 40))
    rw [same]
    exact inv.room
  · intro d member
    obtain ⟨c,old,rfl⟩ := List.mem_map.mp member
    rw [lengths c old]
    exact inv.filled c old

/-! ### Freeing -/

theorem all_of_some {p : Nat → Bool} {x : Option Nat} (holds : ∀ i, x = some i → p i = true) : x.all p = true := by
  cases x with
  | none => rfl
  | some i => exact holds i rfl

theorem filter_place {front behind : List Block} {b : Block} (distinct : ((front ++ b :: behind).map (·.place)).Nodup) :
    (front ++ b :: behind).filter (·.place ≠ b.place) = front ++ behind := by
  rw [List.map_append,List.map_cons,List.nodup_middle,List.nodup_cons] at distinct
  have keeps (l : List Block) (other : ∀ d ∈ l, d.place ≠ b.place) : l.filter (·.place ≠ b.place) = l :=
    List.filter_eq_self.mpr fun d inside => by simpa using other d inside
  rw [List.filter_append,List.filter_cons_of_neg (by simp),keeps front,keeps behind]
  · intro d inside same
    exact distinct.1 (List.mem_append_right _ (List.mem_map.mpr ⟨d,inside,same⟩))
  · intro d inside same
    exact distinct.1 (List.mem_append_left _ (List.mem_map.mpr ⟨d,inside,same⟩))

theorem free_inv (inv : Inv a live) {b : Block} (inside : b ∈ live) :
    ∃ a', acFreeD a (some b.place) = some (.returned none a') ∧ Inv a' (live.filter (·.place ≠ b.place)) ∧
      a'.nodes.length = a.nodes.length ∧ a'.self = a.self := by
  obtain ⟨front,behind,rfl⟩ := List.append_of_mem inside
  have entries := inv.entries
  have split : (front ++ b :: behind).map (entry a.self) = front.map (entry a.self) ++ entry a.self b :: behind.map (entry a.self) := by
    rw [List.map_append,List.map_cons]
  have joined : front.map (entry a.self) ++ behind.map (entry a.self) = (front ++ behind).map (entry a.self) := List.map_append.symm
  rw [split] at entries
  obtain ⟨nodes,out,length,chain⟩ := entries.takeOut
  obtain ⟨found,-⟩ := entries.without
  have distinct := entries.nodup
  rw [← split,joined] at out
  rw [← split,entries_places] at distinct
  rw [joined,entries_places,entries_items] at chain
  simp only [entries_places,entry] at found out
  rw [filter_place distinct]
  have gone : b.place ∉ (front ++ behind).map (·.place) := by
    rw [List.map_append,List.map_cons,List.nodup_middle,List.nodup_cons] at distinct
    rw [List.map_append]
    exact distinct.1
  have around (p : Nat) (member : p ∈ front.map (·.place) ∨ p ∈ behind.map (·.place)) : isLive a.nodes p = true := by
    refine inv.isLive ?_
    rw [List.map_append,List.map_cons]
    rcases member with first | later
    · exact List.mem_append_left _ first
    · exact List.mem_append_right _ (List.mem_cons_of_mem _ later)
  have before : (front.map (·.place)).getLast?.all (isLive a.nodes) = true :=
    all_of_some fun p last => around p (.inl (List.mem_of_getLast? last))
  have next : (behind.map (·.place)).head?.all (isLive a.nodes) = true :=
    all_of_some fun p first => around p (.inr (List.mem_of_head? first))
  have below : b.place < nodes.length := length ▸ inv.below (List.mem_map_of_mem inside)
  obtain ⟨nodes',set,length',get⟩ := setItem_spec below none
  have isNode : nodeAt a.nodes b.place = some (nodeOf a.self b,⟨some (nodeOf a.self b),(behind.map (·.place)).head?,
      (front.map (·.place)).getLast?⟩) := by
    rw [nodeAt,found]
    rfl
  have counts := held_counts (front ++ b :: behind)
  have room := inv.room
  have sum : ((front ++ b :: behind).map (·.data.length)).sum = ((front ++ behind).map (·.data.length)).sum + b.data.length := by
    simp only [List.map_append,List.map_cons,List.sum_append,List.sum_cons]
    omega
  have counted : toSize (a.totalAllocations - 1) = (front ++ behind).length := by
    have whole := toSize_small (n := (front ++ behind).length) (by simp only [List.length_append,List.length_cons] at counts ⊢; omega)
    rw [inv.allocations,← whole]
    congr 1
    simp only [List.length_append,List.length_cons]
    omega
  have summed (custom : Bool) (isCustom : b.custom = custom) :
      toSize (if (nodeOf a.self b).length > 0 then a.totalBytesAllocated - (nodeOf a.self b).length
        else a.totalBytesAllocated + (nodeOf a.self b).length) = ((front ++ behind).map (·.data.length)).sum := by
    have whole := toSize_small (n := ((front ++ behind).map (·.data.length)).sum) (by omega)
    have filled := (inv.filled b inside).1
    rw [← whole,inv.bytes,sum]
    congr 1
    simp only [nodeOf,isCustom]
    cases custom with
    | false =>
      simp only [Bool.false_eq_true,if_false]
      split <;> omega
    | true =>
      simp only [if_true]
      split <;> omega
  unfold acFreeD
  simp only [isNode,Option.bind_eq_bind,Option.bind_some]
  rw [if_neg (fun other => other rfl),if_pos ⟨before,next⟩,inv.head,inv.tail,out]
  simp only [Option.bind_some,set]
  refine ⟨_,rfl,⟨⟨?_,rfl,rfl,counted,summed b.custom rfl⟩,?_,?_⟩,length'.trans length,rfl⟩
  · refine chain.frame fun p member => ?_
    rw [get]
    have other : b.place ≠ p := fun same => gone (same ▸ member)
    simp only [other,if_false]
    cases nodes[p]? <;> rfl
  · have less : held (front ++ behind) ≤ held (front ++ b :: behind) := by
      simp only [held,List.map_append,List.map_cons,List.sum_append,List.sum_cons]
      omega
    omega
  · intro d member
    refine inv.filled d ?_
    rcases List.mem_append.mp member with first | later
    · exact List.mem_append_left _ first
    · exact List.mem_append_right _ (List.mem_cons_of_mem _ later)

/-! ### Reallocating -/

/-- Either sign is decoded to the length. -/
theorem oldLength_node (self : Nat) {b : Block} (filled : 0 < b.data.length ∧ (b.data.length : Int) < 2 ^ 63) :
    oldLength (nodeOf self b).length = some b.data.length := by
  have small := toSize_small (n := b.data.length) (by omega)
  cases custom : b.custom with
  | false =>
    have plain : (nodeOf self b).length = b.data.length := by simp [nodeOf,custom]
    rw [plain,oldLength,if_pos (by omega),small]
  | true =>
    have minus : (nodeOf self b).length = -(b.data.length : Int) := by simp [nodeOf,custom]
    rw [minus,oldLength,if_neg (by omega),negate,if_neg (by omega),Int.neg_neg,Option.map_some,small]

theorem bytesAt_block (books : Books a live) {b : Block} (inside : b ∈ live) : bytesAt live b.place = b.data := by
  have found : live.find? (·.place = b.place) = some b := by
    cases isFound : live.find? (·.place = b.place) with
    | none =>
      have missed := List.find?_eq_none.mp isFound b inside
      simp at missed
    | some d =>
      have place : d.place = b.place := by simpa using List.find?_some isFound
      rw [books.same (List.mem_of_find?_eq_some isFound) inside place]
  rw [bytesAt,found]
  rfl

/-- The copy and what is left of the new bytes. -/
theorem copied_bytes (old new : List UInt8) (copied : Nat) (isCopied : copied = if old.length < new.length then old.length else new.length) :
    old.take copied ++ new.drop (old.take copied).length = old.take new.length ++ new.drop old.length := by
  rw [List.length_take]
  by_cases shorter : old.length < new.length
  · rw [if_pos shorter] at isCopied
    rw [isCopied,Nat.min_self,List.take_length,List.take_of_length_le (Nat.le_of_lt shorter)]
  · have all := Nat.not_lt.mp shorter
    rw [if_neg shorter] at isCopied
    rw [isCopied,Nat.min_eq_left all,List.drop_length,List.drop_eq_nil_of_le all]

theorem realloc_inv (custom : Bool) (inv : Inv a live) {b : Block} (inside : b ∈ live) (positive : 0 < len) {memory : List UInt8}
    (provides : Provides live malloc) (got : malloc (nodeSize len) = some memory) (small : (len : Int) + 40 < 2 ^ 64) :
    ∃ a', acReallocD a (some b.place) len custom malloc = some (.returned (some a.nodes.length) a') ∧
      Inv a' (live.filter (·.place ≠ b.place) ++ [⟨a.nodes.length,custom,b.data.take len ++ (fresh malloc len).drop b.data.length⟩]) ∧
      a'.nodes.length = a.nodes.length + 1 ∧ a'.self = a.self := by
  obtain ⟨link,there,-,-⟩ := inv.node inside
  obtain ⟨a₁,made,inv₁,length₁,self₁,freshLength⟩ := malloc_inv custom inv positive provides got small
  obtain ⟨copied,isCopied⟩ : ∃ copied, copied = if b.data.length < len then b.data.length else len := ⟨_,rfl⟩
  have copiedLe : copied ≤ b.data.length ∧ copied ≤ len := by
    rw [isCopied]
    split <;> omega
  obtain ⟨d,isNew⟩ : ∃ d : Block, d = ⟨a.nodes.length,custom,fresh malloc len⟩ := ⟨_,rfl⟩
  rw [← isNew] at inv₁
  have fits : (b.data.take copied).length ≤ d.data.length := by
    rw [List.length_take,isNew]
    dsimp only
    omega
  obtain ⟨a₂,wrote,inv₂,length₂,self₂⟩ := write_inv inv₁ (List.mem_append_right _ List.mem_cons_self) fits
  have below (c : Block) (old : c ∈ live) : c.place ≠ d.place := by
    have less := inv.below (List.mem_map_of_mem old)
    rw [isNew]
    exact Nat.ne_of_lt less
  have contents := copied_bytes b.data (fresh malloc len) copied (by rw [freshLength]; exact isCopied)
  rw [freshLength] at contents
  have moved : (live ++ [d]).map (written d.place (b.data.take copied)) =
      live ++ [⟨a.nodes.length,custom,b.data.take len ++ (fresh malloc len).drop b.data.length⟩] := by
    rw [List.map_append,List.map_singleton]
    congr 1
    · refine (List.map_congr_left fun c old => ?_).trans (List.map_id _)
      exact if_neg (below c old)
    · rw [written,if_pos rfl,isNew,← contents]
  rw [moved] at inv₂
  obtain ⟨a₃,freed,inv₃,length₃,self₃⟩ := free_inv inv₂ (List.mem_append_left _ inside)
  have last : ¬ a.nodes.length = b.place := Nat.ne_of_gt (inv.below (List.mem_map_of_mem inside))
  rw [List.filter_append,List.filter_cons_of_pos (by simpa using last),List.filter_nil] at inv₃
  have self : (nodeOf a.self b).a = a.self := rfl
  have whole : ¬ b.data.length < copied := Nat.not_lt.mpr copiedLe.1
  have place : d.place = a.nodes.length := by rw [isNew]
  rw [place] at wrote
  refine ⟨a₃,?_,inv₃,by omega,by rw [self₃,self₂,self₁]⟩
  unfold acReallocD
  simp only [there,Option.bind_eq_bind,Option.bind_some]
  rw [if_neg (fun other => other self),made]
  simp only [Option.bind_some,oldLength_node a.self (inv.filled b inside)]
  rw [← isCopied]
  show (if b.data.length < copied then none else _) = _
  rw [if_neg whole]
  show ((write a₁ a.nodes.length (b.data.take copied)).bind _) = _
  rw [wrote]
  simp only [Option.bind_some,freed]

/-! ### Runs -/

/-- A reallocation of a live block is undefined or aborted where its allocation is. -/
theorem realloc_malloc (inv : Inv a live) {b : Block} (inside : b ∈ live) {out : Option Outcome} (made : acMallocD a len custom malloc = out)
    (stops : out = none ∨ out = some .aborted) : acReallocD a (some b.place) len custom malloc = out := by
  obtain ⟨link,there,-,-⟩ := inv.node inside
  have self : (nodeOf a.self b).a = a.self := rfl
  unfold acReallocD
  simp only [there,Option.bind_eq_bind,Option.bind_some]
  rw [if_neg (fun other => other self),made]
  rcases stops with rfl | rfl
  · rfl
  · rfl

theorem calloc_malloc {out : Option Outcome} (made : acMallocD a len custom malloc = out) (stops : out = none ∨ out = some .aborted) :
    acCallocD a len custom malloc = out := by
  rw [acCallocD,made]
  rcases stops with rfl | rfl
  · rfl
  · rfl

/-- The block of a pointer that is reallocated or freed. -/
theorem block_at {p : Nat} (inside : p ∈ live.map (·.place)) : ∃ b ∈ live, b.place = p := List.mem_map.mp inside

/-- An allocation that stops the process or is undefined does so in each event that wants it. -/
theorem step_stops (inv : Inv a live) {e : Event} (legal : Legal live e) {want : Nat × Malloc} (wants : e.wants = some want)
    {out : Option Outcome} (made : ∀ custom, acMallocD a want.1 custom want.2 = out) (stops : out = none ∨ out = some .aborted) :
    step a e = out := by
  cases e with
  | malloc len custom malloc =>
    cases wants
    exact made custom
  | calloc len custom malloc =>
    cases wants
    exact calloc_malloc (made custom) stops
  | realloc p len custom malloc =>
    cases wants
    cases p with
    | none => exact made custom
    | some p =>
      obtain ⟨b,inside,rfl⟩ := block_at (legal.reallocates p len custom malloc rfl)
      exact realloc_malloc inv inside (made custom) stops
  | free p => cases wants
  | fill p bytes => cases wants

theorem step_ends (inv : Inv a live) {e : Event} (legal : Legal live e) (ends : Ends e) : step a e = some .aborted := by
  obtain ⟨want,wants,failed⟩ := ends
  exact step_stops inv legal wants (fun custom => malloc_ends failed (legal.length want wants).1) (.inr rfl)

theorem step_unmet (inv : Inv a live) {e : Event} (legal : Legal live e) (unmet : ¬ Meets e) : step a e = none := by
  simp only [Meets,not_forall] at unmet
  obtain ⟨want,wants,succeeds,large⟩ := unmet
  obtain ⟨positive,int,provides⟩ := legal.length want wants
  obtain ⟨memory,got⟩ := Option.ne_none_iff_exists'.mp succeeds
  exact step_stops inv legal wants (fun custom => malloc_outside positive int large provides got) (.inl rfl)

/-- An allocation of an event that goes on and meets the condition. -/
theorem wanted {e : Event} (legal : Legal live e) (meets : Meets e) (goes : ¬ Ends e) {want : Nat × Malloc} (wants : e.wants = some want) :
    ∃ memory, want.2 (nodeSize want.1) = some memory ∧ 0 < want.1 ∧ Provides live want.2 ∧ (want.1 : Int) + 40 < 2 ^ 64 := by
  obtain ⟨positive,-,provides⟩ := legal.length want wants
  cases got : want.2 (nodeSize want.1) with
  | none => exact absurd ⟨want,wants,got⟩ goes
  | some memory => exact ⟨memory,rfl,positive,provides,meets want wants (by rw [got]; exact Option.some_ne_none _)⟩

theorem calloc_inv (inv : Inv a live) (positive : 0 < len) {memory : List UInt8} (provides : Provides live malloc)
    (got : malloc (nodeSize len) = some memory) (small : (len : Int) + 40 < 2 ^ 64) :
    ∃ a', acCallocD a len custom malloc = some (.returned (some a.nodes.length) a') ∧
      Inv a' (live ++ [⟨a.nodes.length,custom,List.replicate len 0⟩]) ∧ a'.nodes.length = a.nodes.length + 1 := by
  obtain ⟨a₁,made,inv₁,length₁,-,freshLength⟩ := malloc_inv custom inv positive provides got small
  have fits : (List.replicate len (0 : UInt8)).length ≤ (fresh malloc len).length := Nat.le_of_eq (by rw [List.length_replicate,freshLength])
  obtain ⟨a₂,wrote,inv₂,length₂,-⟩ := write_inv inv₁ (List.mem_append_right _ List.mem_cons_self) fits
  have zeroed : (live ++ [(⟨a.nodes.length,custom,fresh malloc len⟩ : Block)]).map (written a.nodes.length (List.replicate len 0)) =
      live ++ [⟨a.nodes.length,custom,List.replicate len 0⟩] := by
    rw [List.map_append,List.map_singleton]
    congr 1
    · refine (List.map_congr_left fun c old => ?_).trans (List.map_id _)
      exact if_neg (Nat.ne_of_lt (inv.below (List.mem_map_of_mem old)))
    · rw [written,if_pos rfl,List.length_replicate,List.drop_eq_nil_of_le (Nat.le_of_eq freshLength),List.append_nil]
  dsimp only at wrote inv₂
  rw [zeroed] at inv₂
  refine ⟨a₂,?_,inv₂,length₂.trans length₁⟩
  rw [acCallocD,made]
  simp only [Option.bind_eq_bind,Option.bind_some,wrote]

/-- A step that meets the condition keeps the invariant. -/
theorem step_inv (inv : Inv a live) {e : Event} (legal : Legal live e) (meets : Meets e) (goes : ¬ Ends e) :
    ∃ a', step a e = some (.returned (given a.nodes.length e) a') ∧ Inv a' (after a.nodes.length live e) ∧
      a'.nodes.length = if e.wants.isSome then a.nodes.length + 1 else a.nodes.length := by
  cases e with
  | malloc len custom malloc =>
    obtain ⟨memory,got,positive,provides,small⟩ := wanted legal meets goes rfl
    obtain ⟨a',made,inv',length,-,-⟩ := malloc_inv custom inv positive provides got small
    exact ⟨a',made,inv',length⟩
  | calloc len custom malloc =>
    obtain ⟨memory,got,positive,provides,small⟩ := wanted legal meets goes rfl
    exact calloc_inv inv positive provides got small
  | realloc p len custom malloc =>
    obtain ⟨memory,got,positive,provides,small⟩ := wanted legal meets goes rfl
    cases p with
    | none =>
      obtain ⟨a',made,inv',length,-,-⟩ := malloc_inv custom inv positive provides got small
      exact ⟨a',made,inv',length⟩
    | some p =>
      obtain ⟨b,inside,rfl⟩ := block_at (legal.reallocates p len custom malloc rfl)
      obtain ⟨a',made,inv',length,-⟩ := realloc_inv custom inv inside positive provides got small
      rw [← bytesAt_block inv.toBooks inside] at inv'
      exact ⟨a',made,inv',length⟩
  | free p =>
    cases p with
    | none => exact ⟨a,rfl,inv,rfl⟩
    | some p =>
      obtain ⟨b,inside,rfl⟩ := block_at (legal.frees p rfl)
      obtain ⟨a',made,inv',length,-⟩ := free_inv inv inside
      exact ⟨a',made,inv',length⟩
  | fill p bytes =>
    obtain ⟨b,inside,rfl,length⟩ := legal.fills p bytes rfl
    obtain ⟨a',made,inv',nodes,-⟩ := write_inv inv inside (Nat.le_of_eq length.symm)
    have filled : live.map (written b.place bytes) = live.map fun d => if d.place = b.place then { d with data := bytes } else d := by
      refine List.map_congr_left fun d member => ?_
      unfold written
      split
      case isTrue same =>
        rw [inv.same member inside same,← length,List.drop_length,List.append_nil]
      case isFalse => rfl
    rw [filled] at inv'
    exact ⟨a',by rw [step,made]; rfl,inv',nodes⟩

theorem Exact.books {es : List Event} (exact_ : Exact a live es) : Books a live := by
  cases es with
  | nil => exact exact_
  | cons e es => exact exact_.1

theorem exact_iff {es : List Event} (inv : Inv a live) (legal : LegalRun a.nodes.length live es) : Exact a live es ↔ AllMeet es := by
  induction es generalizing a live with
  | nil => exact iff_of_true inv.toBooks trivial
  | cons e es ih =>
    by_cases meets : Meets e
    · by_cases ends : Ends e
      · exact iff_of_true ⟨inv.toBooks,.inl ⟨ends,step_ends inv legal.1 ends⟩⟩ ⟨meets,.inl ends⟩
      · obtain ⟨a',made,inv',length⟩ := step_inv inv legal.1 meets ends
        have run := legal.2 ends
        rw [← length] at run
        have later := ih inv' run
        constructor
        · rintro ⟨-,⟨stops,-⟩ | ⟨a'',made',exact_⟩⟩
          · exact absurd stops ends
          · cases made.symm.trans made'
            exact ⟨meets,.inr (later.mp exact_)⟩
        · rintro ⟨-,stops | all⟩
          · exact absurd stops ends
          · exact ⟨inv.toBooks,.inr ⟨a',made,later.mpr all⟩⟩
    · refine iff_of_false ?_ fun all => meets all.1
      rintro ⟨-,⟨stops,aborted⟩ | ⟨a',made,-⟩⟩
      · rw [step_unmet inv legal.1 meets] at aborted
        cases aborted
      · rw [step_unmet inv legal.1 meets] at made
        cases made

theorem init_inv (self : Nat) : Inv (acAllocatorInit self) [] := ⟨⟨trivial,rfl,rfl,rfl,rfl⟩,by decide,nofun⟩

/-- The books of a new allocator are exact throughout a run if and only if no length of an
    allocation that succeeds is within 40 bytes of 2^64. -/
theorem books_exact_iff (self : Nat) (es : List Event) (legal : LegalRun 0 [] es) : Exact (acAllocatorInit self) [] es ↔ AllMeet es :=
  exact_iff (init_inv self) legal

end

/-! ### Examples -/

/-- A `malloc` that has zeros for one size. -/
def supply (n : Nat) : Malloc := fun size => if size = n then some (List.replicate n 0) else none

theorem supply_provides {live : List Block} {n : Nat} (small : (n : Int) < 2 ^ 63) (fits : (held live : Int) + n < 2 ^ 64) :
    Provides live (supply n) := by
  intro size memory got
  unfold supply at got
  split at got
  case isTrue same =>
    cases got
    subst same
    exact ⟨List.length_replicate,small,fits⟩
  case isFalse => cases got

theorem supply_legal {live : List Block} {n len : Nat} (custom : Bool) (positive : 0 < len) (int : (len : Int) < 2 ^ 64)
    (provides : Provides live (supply n)) : Legal live (.malloc len custom (supply n)) := by
  refine ⟨fun want wants => ?_,nofun,nofun,nofun⟩
  cases wants
  exact ⟨positive,int,provides⟩

/-- A block of two bytes is reallocated as a custom one of one byte and freed. -/
theorem books_exact_three : Exact (acAllocatorInit 9) [] [.malloc 2 false (supply 42),.realloc (some 0) 1 true (supply 41),.free (some 1)] := by
  refine (books_exact_iff 9 [.malloc 2 false (supply 42),.realloc (some 0) 1 true (supply 41),.free (some 1)] ?_).mpr ?_
  · refine ⟨supply_legal false (by decide) (by decide) (supply_provides (by decide) (by decide)),fun _ => ⟨⟨?_,?_,nofun,nofun⟩,
      fun _ => ⟨⟨nofun,nofun,?_,nofun⟩,fun _ => trivial⟩⟩⟩
    · intro want wants
      cases wants
      exact ⟨by decide,by decide,supply_provides (by decide) (by decide)⟩
    · intro p len custom malloc same
      cases same
      decide
    · intro p same
      cases same
      decide
  · refine ⟨fun want wants succeeds => ?_,.inr ⟨fun want wants succeeds => ?_,.inr ⟨nofun,.inr trivial⟩⟩⟩
    · cases wants
      decide
    · cases wants
      decide

/-- For 2^64 - 8 bytes `malloc` is asked for 32, and the node of 40 bytes is written there. -/
theorem malloc_overruns : ¬ ∀ es, LegalRun 0 [] es → Exact (acAllocatorInit 9) [] es := by
  intro all
  have legal : Legal [] (.malloc 18446744073709551608 false (supply 32)) :=
    supply_legal false (by decide) (by decide) (supply_provides (by decide) (by decide))
  have whole := all [.malloc 18446744073709551608 false (supply 32)] ⟨legal,fun _ => trivial⟩
  have stuck : step (acAllocatorInit 9) (.malloc 18446744073709551608 false (supply 32)) = none := by decide
  obtain ⟨-,⟨-,aborted⟩ | ⟨a,made,-⟩⟩ := whole
  · cases stuck.symm.trans aborted
  · cases stuck.symm.trans made

end AnotherC.AcAllocator
