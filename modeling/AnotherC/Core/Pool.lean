import Mathlib.Data.List.Forall2
import Mathlib.Data.Nat.Bitwise
import AnotherC.Lib.Text

/-!
# Memory pools: `ac_pool`

A pool hands out regions of the blocks that it gets from `malloc`, by moving
`curp` towards `endp`. In every run from an initial size between 57 and
`2 ^ 64 - 72` whose steps do not let an address wrap, the regions lie in blocks
and do not overlap (`regions_disjoint`). Pointers and lengths are 64 bits wide.
-/
namespace AnotherC.Pool
open AnotherC.Lib.Text (Text)
set_option linter.unusedVariables false

/-- `sizeof(ac_pool_t)`. -/
def poolSize : Nat := 48
/-- `sizeof(ac_pool_node_t)`. -/
def nodeSize : Nat := 16

/-- The bytes up to the next word. -/
def toAdd (p : Nat) : Nat := (8 - (p &&& 7)) &&& 7

/-- `ac_pool_node_t` at `addr`. -/
structure Node where
  addr : Nat
  endp : Nat

/-- `ac_pool_t`: `current` and the nodes before it, linked by `prev`. -/
structure Pool where
  current : Node
  prev : List Node
  curp : Nat
  minimumGrowthSize : Nat
  size : Nat
  used : Nat

/-- A block from `malloc`, with the bytes that the structures at its beginning take. -/
structure Block where
  base : Nat
  size : Nat
  header : Nat

/-- The size after rounding up. -/
def rounded (initialSize : Nat) : Nat := (initialSize + toAdd initialSize) % 2 ^ 64

/-- `block_size` in `_ac_pool_init`. -/
def blockSize (initialSize : Nat) : Nat :=
  if rounded initialSize &&& 4096 = 0 then (rounded initialSize + 2 ^ 64 - (poolSize + nodeSize)) % 2 ^ 64
  else rounded initialSize

/-- What `_ac_pool_init` asks `malloc` for. -/
def initRequest (initialSize : Nat) : Nat := (blockSize initialSize + poolSize + nodeSize) % 2 ^ 64

/-- `_ac_pool_init`, where `malloc` has returned `h`. -/
def acPoolInit (initialSize h : Nat) : Pool :=
  let curp := h + poolSize + nodeSize
  { current := ⟨h + poolSize,(curp + blockSize initialSize) % 2 ^ 64⟩
    prev := []
    curp := curp
    minimumGrowthSize := rounded initialSize
    size := 0
    used := (rounded initialSize + poolSize + nodeSize) % 2 ^ 64 }

/-- What a function that allocates returns, with the request that it has made to
    `malloc`. -/
structure Result where
  pool : Pool
  start : Nat
  len : Nat
  request : Option Nat

/-- `block_size` in `_ac_pool_alloc_grow`. -/
def growSize (h : Pool) (len : Nat) : Nat := if len < h.minimumGrowthSize then h.minimumGrowthSize else len

/-- `_ac_pool_alloc_grow`, where `malloc` has returned `block`. -/
def acPoolAllocGrow (h : Pool) (len block : Nat) : Result :=
  let blockSize := growSize h len
  let r := block + nodeSize
  { pool :=
      { h with
        current := ⟨block,(r + blockSize) % 2 ^ 64⟩
        prev := h.current :: h.prev
        curp := (r + len) % 2 ^ 64
        size := if h.prev.isEmpty then h.size else (h.size + (h.current.endp - h.curp)) % 2 ^ 64
        used := (h.used + nodeSize + blockSize) % 2 ^ 64 }
    start := r
    len := len
    request := some ((nodeSize + blockSize) % 2 ^ 64) }

def acPoolUalloc (h : Pool) (len block : Nat) : Result :=
  let r := h.curp
  if (r + len) % 2 ^ 64 < h.current.endp then ⟨{ h with curp := (r + len) % 2 ^ 64 },r,len,none⟩
  else acPoolAllocGrow h len block

def acPoolMinMaxAlloc (h : Pool) (minLen len block : Nat) : Result :=
  let r := (h.curp + toAdd h.curp) % 2 ^ 64
  if (r + len) % 2 ^ 64 < h.current.endp then ⟨{ h with curp := (r + len) % 2 ^ 64 },r,len,none⟩
  else if (r + minLen) % 2 ^ 64 < h.current.endp then
    let len := h.current.endp - r - 1
    ⟨{ h with curp := (r + len) % 2 ^ 64 },r,len,none⟩
  else acPoolAllocGrow h len block

def acPoolAlloc (h : Pool) (len block : Nat) : Result :=
  let r := (h.curp + toAdd h.curp) % 2 ^ 64
  if (r + len) % 2 ^ 64 < h.current.endp then ⟨{ h with curp := (r + len) % 2 ^ 64 },r,len,none⟩
  else acPoolAllocGrow h len block

/-- `ac_pool_udup`, for data of `len` bytes. -/
def acPoolUdup (h : Pool) (len block : Nat) : Result := acPoolUalloc h ((len + 1) % 2 ^ 64) block

def acPoolStrdup (h : Pool) (p : Text) (block : Nat) : Result := acPoolUdup h p.length block

/-- The loop of `ac_pool_clear`: the current block is the newest one. -/
def freeBlocks : Node → List Node → List Block → Node × List Block
  | current, [], heap => (current,heap)
  | current, prev :: older, heap => freeBlocks prev older heap.tail

def acPoolClear (h : Pool) (heap : List Block) : Pool × List Block :=
  let first := freeBlocks h.current h.prev heap
  let curp := first.1.addr + nodeSize
  ({ h with
     current := first.1
     prev := []
     curp := curp
     size := 0
     used := (first.1.endp + 2 ^ 64 - curp + poolSize + nodeSize) % 2 ^ 64 },first.2)

/-! ## Runs -/

/-- A region that has been returned; `aligned` says whether it has to be. -/
structure Region where
  start : Nat
  len : Nat
  aligned : Bool

/-- A pool, its blocks, the newest first, and the regions returned since the last
    clear. -/
structure State where
  pool : Pool
  heap : List Block
  regions : List Region

inductive Op
  | alloc (len : Nat)
  | ualloc (len : Nat)
  | minMaxAlloc (minLen len : Nat)
  | udup (len : Nat)
  | strdup (p : Text)
  | grow (len : Nat)
  | clear

/-- What an operation returns, but for `clear`, and whether it is to be aligned;
    `block` is what `malloc` returns if it is called. -/
def Op.result (h : Pool) (block : Nat) : Op → Option (Result × Bool)
  | alloc len => some (acPoolAlloc h len block,true)
  | ualloc len => some (acPoolUalloc h len block,false)
  | minMaxAlloc minLen len => some (acPoolMinMaxAlloc h minLen len block,true)
  | udup len => some (acPoolUdup h len block,false)
  | strdup p => some (acPoolStrdup h p block,false)
  | grow len => some (acPoolAllocGrow h len block,false)
  | clear => none

/-- One operation. -/
def State.apply (s : State) (op : Op) (block : Nat) : State :=
  match op.result s.pool block with
  | some (r,aligned) =>
    ⟨r.pool,(r.request.map fun n => ⟨block,n,nodeSize⟩).toList ++ s.heap,⟨r.start,r.len,aligned⟩ :: s.regions⟩
  | none =>
    let cleared := acPoolClear s.pool s.heap
    ⟨cleared.1,cleared.2,[]⟩

/-- `malloc` returns a word-aligned block of the requested size, apart from the
    others. -/
structure Malloc (heap : List Block) (block n : Nat) : Prop where
  aligned : 8 ∣ block
  room : block + n < 2 ^ 64
  apart : ∀ b ∈ heap, block + n ≤ b.base ∨ b.base + b.size ≤ block
  notNull : 0 < block

/-- No address or length wraps. -/
def Fits (h : Pool) : Op → Prop
  | .alloc len => h.curp + toAdd h.curp + len < 2 ^ 64
  | .ualloc len => h.curp + len < 2 ^ 64
  | .minMaxAlloc minLen len =>
    h.curp + toAdd h.curp + len < 2 ^ 64 ∧ h.curp + toAdd h.curp + minLen < 2 ^ 64
  | .udup len => h.curp + (len + 1) < 2 ^ 64
  | .strdup p => h.curp + (p.length + 1) < 2 ^ 64
  | .grow len => nodeSize + len < 2 ^ 64
  | .clear => True

/-- The state after `_ac_pool_init`. -/
def start (initialSize h : Nat) : State :=
  ⟨acPoolInit initialSize h,[⟨h,initRequest initialSize,poolSize + nodeSize⟩],[]⟩

/-- The states that are reached by operations that do not wrap. -/
inductive Run (initialSize : Nat) : State → Prop
  | init {h : Nat} (malloc : Malloc [] h (initRequest initialSize)) : Run initialSize (start initialSize h)
  | step {s : State} (run : Run initialSize s) (op : Op) (block : Nat) (fits : Fits s.pool op)
      (malloc : ∀ r, op.result s.pool block = some r → ∀ n ∈ r.1.request, Malloc s.heap block n) :
      Run initialSize (s.apply op block)

/-- The node of a block: the structures and the bytes up to `endp` are in it. -/
def Holds (node : Node) (block : Block) : Prop :=
  node.addr + nodeSize = block.base + block.header ∧ node.addr + nodeSize ≤ node.endp ∧
    node.endp ≤ block.base + block.size

def Apart (r q : Region) : Prop := r.start + r.len ≤ q.start ∨ q.start + q.len ≤ r.start

/-- The blocks are large enough, and the regions lie in them, apart from each other. -/
structure Safe (s : State) : Prop where
  blocks : List.Forall₂ Holds (s.pool.current :: s.pool.prev) s.heap
  bump : s.pool.current.addr + nodeSize ≤ s.pool.curp ∧ s.pool.curp ≤ s.pool.current.endp
  inside : ∀ r ∈ s.regions, ∃ b ∈ s.heap, b.base + b.header ≤ r.start ∧ r.start + r.len ≤ b.base + b.size
  apart : s.regions.Pairwise Apart
  aligned : ∀ r ∈ s.regions, r.aligned = true → 8 ∣ r.start

/-! ## The invariant -/

/-- The bytes of a block that are handed out. -/
def Inside (r : Region) (b : Block) : Prop := b.base + b.header ≤ r.start ∧ r.start + r.len ≤ b.base + b.size

/-- The regions lie before `curp` in the current block, or in the older ones. -/
structure Inv (s : State) : Prop where
  blocks : List.Forall₂ Holds (s.pool.current :: s.pool.prev) s.heap
  bump : s.pool.current.addr + nodeSize ≤ s.pool.curp ∧ s.pool.curp ≤ s.pool.current.endp
  heap : s.heap.Pairwise fun b c => b.base + b.size ≤ c.base ∨ c.base + c.size ≤ b.base
  room : ∀ b ∈ s.heap, b.base + b.size < 2 ^ 64
  words : ∀ b ∈ s.heap, 8 ∣ b.base + b.header
  growth : nodeSize + s.pool.minimumGrowthSize < 2 ^ 64
  placed : ∀ r ∈ s.regions, (s.pool.current.addr + nodeSize ≤ r.start ∧ r.start + r.len ≤ s.pool.curp) ∨
    ∃ b ∈ s.heap.tail, Inside r b
  apart : s.regions.Pairwise Apart
  aligned : ∀ r ∈ s.regions, r.aligned = true → 8 ∣ r.start

theorem toAdd_eq (p : Nat) : toAdd p = (8 - p % 8) % 8 := by
  rw [toAdd,show (7 : Nat) = 2 ^ 3 - 1 from rfl,Nat.and_two_pow_sub_one_eq_mod,Nat.and_two_pow_sub_one_eq_mod]

theorem toAdd_aligned (p : Nat) : 8 ∣ p + toAdd p := by
  rw [toAdd_eq]
  omega

theorem toAdd_small (p : Nat) : toAdd p < 8 := by
  rw [toAdd_eq]
  omega

section
variable {s : State}

theorem Inv.heap_cons (inv : Inv s) : ∃ b older, s.heap = b :: older ∧ Holds s.pool.current b := by
  have blocks := inv.blocks
  cases heap : s.heap with
  | nil =>
    rw [heap] at blocks
    cases blocks
  | cons b older =>
    rw [heap] at blocks
    cases blocks
    case cons first rest => exact ⟨b,older,rfl,first⟩

theorem Inv.safe (inv : Inv s) : Safe s := by
  obtain ⟨b,older,heap,here,low,high⟩ := inv.heap_cons
  constructor
  case blocks => exact inv.blocks
  case bump => exact inv.bump
  case apart => exact inv.apart
  case aligned => exact inv.aligned
  case inside =>
    intro r member
    rcases inv.placed r member with ⟨first,last⟩ | ⟨c,within,inside⟩
    · refine ⟨b,by simp [heap],by omega,?_⟩
      have bump := inv.bump.2
      omega
    · exact ⟨c,List.mem_of_mem_tail within,inside⟩

/-- A region between `curp` and `endp` of the current block. -/
theorem Inv.carve (inv : Inv s) {r len : Nat} {aligned : Bool} (low : s.pool.curp ≤ r)
    (high : r + len < s.pool.current.endp) (word : aligned = true → 8 ∣ r) :
    Inv ⟨{ s.pool with curp := (r + len) % 2 ^ 64 },s.heap,⟨r,len,aligned⟩ :: s.regions⟩ := by
  obtain ⟨b,older,heap,here,below,above⟩ := inv.heap_cons
  have room := inv.room b (by simp [heap])
  have unwrapped : (r + len) % 2 ^ 64 = r + len := Nat.mod_eq_of_lt (by omega)
  have bump := inv.bump
  constructor
  case blocks => exact inv.blocks
  case bump =>
    simp only [unwrapped]
    omega
  case heap => exact inv.heap
  case room => exact inv.room
  case words => exact inv.words
  case growth => exact inv.growth
  case placed =>
    intro q member
    simp only [unwrapped]
    rcases List.mem_cons.mp member with rfl | member
    · left
      simp only
      omega
    · rcases inv.placed q member with ⟨first,last⟩ | older
      · exact .inl ⟨first,by omega⟩
      · exact .inr older
  case apart =>
    refine List.pairwise_cons.mpr ⟨fun q member => ?_,inv.apart⟩
    simp only [Apart]
    rcases inv.placed q member with ⟨first,last⟩ | ⟨c,within,inside⟩
    · omega
    · -- the other region is in an older block, which is apart from the current one
      have blocks := inv.heap
      rw [heap] at blocks within
      have other := List.rel_of_pairwise_cons blocks within
      obtain ⟨first,last⟩ := inside
      omega
  case aligned =>
    intro q member
    rcases List.mem_cons.mp member with rfl | member
    · exact word
    · exact inv.aligned q member

/-- A region at the beginning of a new block. -/
theorem Inv.grow (inv : Inv s) {len block : Nat} {aligned : Bool} (fits : nodeSize + len < 2 ^ 64)
    (malloc : ∀ n ∈ (acPoolAllocGrow s.pool len block).request, Malloc s.heap block n) :
    Inv ⟨(acPoolAllocGrow s.pool len block).pool,
      ((acPoolAllocGrow s.pool len block).request.map fun n => ⟨block,n,nodeSize⟩).toList ++ s.heap,
      ⟨block + nodeSize,len,aligned⟩ :: s.regions⟩ := by
  have growth := inv.growth
  have large : len ≤ growSize s.pool len := by
    rw [growSize]
    split <;> omega
  have request : nodeSize + growSize s.pool len < 2 ^ 64 := by
    rw [growSize]
    split <;> omega
  have asked : (nodeSize + growSize s.pool len) % 2 ^ 64 = nodeSize + growSize s.pool len := Nat.mod_eq_of_lt request
  obtain ⟨word,space,free,-⟩ := malloc _ rfl
  rw [asked] at space free
  have small : nodeSize = 16 := rfl
  have curp : (block + nodeSize + len) % 2 ^ 64 = block + nodeSize + len := Nat.mod_eq_of_lt (by omega)
  have endp : (block + nodeSize + growSize s.pool len) % 2 ^ 64 = block + nodeSize + growSize s.pool len :=
    Nat.mod_eq_of_lt (by omega)
  obtain ⟨b,older,heap,here,below,above⟩ := inv.heap_cons
  simp only [acPoolAllocGrow,asked,curp,endp,Option.map_some,Option.toList_some,List.singleton_append]
  -- the regions returned before are all in older blocks now
  have moved : ∀ r ∈ s.regions, ∃ c ∈ s.heap, Inside r c := inv.safe.inside
  constructor
  case blocks =>
    refine .cons ⟨rfl,?_,?_⟩ inv.blocks
    · simp only
      omega
    · simp only
      omega
  case bump =>
    simp only
    omega
  case heap => exact List.pairwise_cons.mpr ⟨fun c member => free c member,inv.heap⟩
  case room =>
    intro c member
    rcases List.mem_cons.mp member with rfl | member
    · exact space
    · exact inv.room c member
  case words =>
    intro c member
    rcases List.mem_cons.mp member with rfl | member
    · exact Nat.dvd_add word (show 8 ∣ nodeSize by decide)
    · exact inv.words c member
  case growth => exact growth
  case placed =>
    intro q member
    rcases List.mem_cons.mp member with rfl | member
    · exact .inl ⟨le_rfl,le_rfl⟩
    · exact .inr (moved q member)
  case apart =>
    refine List.pairwise_cons.mpr ⟨fun q member => ?_,inv.apart⟩
    obtain ⟨c,within,first,last⟩ := moved q member
    have other := free c within
    simp only [Apart]
    omega
  case aligned =>
    intro q member
    rcases List.mem_cons.mp member with rfl | member
    · exact fun _ => Nat.dvd_add word (show 8 ∣ nodeSize by decide)
    · exact inv.aligned q member

end

/-! ## Every operation keeps it -/

section
variable {s : State}

/-- What holds of an operation that moves `curp` or takes a new block. -/
theorem Inv.apply_result (inv : Inv s) {op : Op} {block : Nat} {r : Result} {aligned : Bool}
    (result : op.result s.pool block = some (r,aligned))
    (either : (∃ start len, r = ⟨{ s.pool with curp := (start + len) % 2 ^ 64 },start,len,none⟩ ∧
        s.pool.curp ≤ start ∧ start + len < s.pool.current.endp ∧ (aligned = true → 8 ∣ start)) ∨
      ∃ len, r = acPoolAllocGrow s.pool len block ∧ nodeSize + len < 2 ^ 64)
    (malloc : ∀ n ∈ r.request, Malloc s.heap block n) : Inv (s.apply op block) := by
  rw [State.apply,result]
  rcases either with ⟨start,len,rfl,low,high,word⟩ | ⟨len,rfl,fits⟩
  · exact inv.carve low high word
  · exact inv.grow fits malloc

/-- A start at or after `curp` that does not wrap leaves room for the header of a
    block. -/
theorem Inv.request (inv : Inv s) {start len : Nat} (low : s.pool.curp ≤ start) (fits : start + len < 2 ^ 64) :
    nodeSize + len < 2 ^ 64 := by
  have bump := inv.bump.1
  omega

theorem Inv.ualloc (inv : Inv s) {len : Nat} (block : Nat) (fits : s.pool.curp + len < 2 ^ 64) :
    (∃ start len', acPoolUalloc s.pool len block = ⟨{ s.pool with curp := (start + len') % 2 ^ 64 },start,len',none⟩ ∧
      s.pool.curp ≤ start ∧ start + len' < s.pool.current.endp ∧ (false = true → 8 ∣ start)) ∨
    ∃ len', acPoolUalloc s.pool len block = acPoolAllocGrow s.pool len' block ∧ nodeSize + len' < 2 ^ 64 := by
  rw [acPoolUalloc]
  simp only [Nat.mod_eq_of_lt fits]
  split
  case isTrue room =>
    left
    refine ⟨s.pool.curp,len,?_,le_rfl,room,by simp⟩
    rw [Nat.mod_eq_of_lt fits]
  case isFalse => exact .inr ⟨len,rfl,inv.request le_rfl fits⟩

/-- `clear` leaves the first block. -/
theorem freeBlocks_spec {current : Node} {prev : List Node} {heap : List Block}
    (blocks : List.Forall₂ Holds (current :: prev) heap) :
    ∃ b ∈ heap, (freeBlocks current prev heap).2 = [b] ∧ Holds (freeBlocks current prev heap).1 b := by
  induction prev generalizing current heap with
  | nil =>
    obtain _ | ⟨here,rest⟩ := blocks
    cases rest
    rename_i b
    exact ⟨b,by simp,rfl,here⟩
  | cons older prev ih =>
    obtain _ | ⟨here,rest⟩ := blocks
    rename_i b heap
    obtain ⟨c,member,single,holds⟩ := ih rest
    exact ⟨c,by simp [member],single,holds⟩

theorem Inv.clear (inv : Inv s) : Inv ⟨(acPoolClear s.pool s.heap).1,(acPoolClear s.pool s.heap).2,[]⟩ := by
  obtain ⟨b,member,single,holds⟩ := freeBlocks_spec inv.blocks
  simp only [acPoolClear,single]
  constructor
  case blocks => exact .cons holds .nil
  case bump => exact ⟨le_rfl,holds.2.1⟩
  case heap => exact List.pairwise_singleton _ _
  case room =>
    intro c inside
    rw [List.mem_singleton.mp inside]
    exact inv.room b member
  case words =>
    intro c inside
    rw [List.mem_singleton.mp inside]
    exact inv.words b member
  case growth => exact inv.growth
  case placed => simp
  case apart => exact .nil
  case aligned => simp

theorem Inv.step (inv : Inv s) (op : Op) (block : Nat) (fits : Fits s.pool op)
    (malloc : ∀ r, op.result s.pool block = some r → ∀ n ∈ r.1.request, Malloc s.heap block n) :
    Inv (s.apply op block) := by
  cases op with
  | ualloc len => exact inv.apply_result rfl (inv.ualloc block fits) (malloc _ rfl)
  | udup len =>
    have unwrapped : (len + 1) % 2 ^ 64 = len + 1 := Nat.mod_eq_of_lt (by simp only [Fits] at fits; omega)
    refine inv.apply_result rfl ?_ (malloc _ rfl)
    rw [acPoolUdup,unwrapped]
    exact inv.ualloc block fits
  | strdup p =>
    have unwrapped : (p.length + 1) % 2 ^ 64 = p.length + 1 := Nat.mod_eq_of_lt (by simp only [Fits] at fits; omega)
    refine inv.apply_result rfl ?_ (malloc _ rfl)
    rw [acPoolStrdup,acPoolUdup,unwrapped]
    exact inv.ualloc block fits
  | grow len => exact inv.apply_result rfl (.inr ⟨len,rfl,fits⟩) (malloc _ rfl)
  | alloc len =>
    have fits : s.pool.curp + toAdd s.pool.curp + len < 2 ^ 64 := fits
    have start : (s.pool.curp + toAdd s.pool.curp) % 2 ^ 64 = s.pool.curp + toAdd s.pool.curp :=
      Nat.mod_eq_of_lt (by omega)
    have low := Nat.le_add_right s.pool.curp (toAdd s.pool.curp)
    refine inv.apply_result rfl ?_ (malloc _ rfl)
    rw [acPoolAlloc]
    simp only [start,Nat.mod_eq_of_lt fits]
    split
    case isTrue room =>
      left
      refine ⟨s.pool.curp + toAdd s.pool.curp,len,?_,low,room,fun _ => toAdd_aligned _⟩
      rw [Nat.mod_eq_of_lt fits]
    case isFalse => exact .inr ⟨len,rfl,inv.request low fits⟩
  | minMaxAlloc minLen len =>
    obtain ⟨fits,least⟩ : s.pool.curp + toAdd s.pool.curp + len < 2 ^ 64 ∧
      s.pool.curp + toAdd s.pool.curp + minLen < 2 ^ 64 := fits
    have start : (s.pool.curp + toAdd s.pool.curp) % 2 ^ 64 = s.pool.curp + toAdd s.pool.curp :=
      Nat.mod_eq_of_lt (by omega)
    have low := Nat.le_add_right s.pool.curp (toAdd s.pool.curp)
    refine inv.apply_result rfl ?_ (malloc _ rfl)
    rw [acPoolMinMaxAlloc]
    simp only [start,Nat.mod_eq_of_lt fits,Nat.mod_eq_of_lt least]
    split
    case isTrue room =>
      left
      refine ⟨s.pool.curp + toAdd s.pool.curp,len,?_,low,room,fun _ => toAdd_aligned _⟩
      rw [Nat.mod_eq_of_lt fits]
    split
    case isTrue room =>
      left
      exact ⟨s.pool.curp + toAdd s.pool.curp,_,rfl,low,by omega,fun _ => toAdd_aligned _⟩
    case isFalse => exact .inr ⟨len,rfl,inv.request low fits⟩
  | clear => exact inv.clear

end

/-! ## The first block -/

theorem and_4096 (x : Nat) : x &&& 4096 = 0 ↔ x / 4096 % 2 = 0 := by
  rw [show (4096 : Nat) = 2 ^ 12 from rfl,Nat.and_two_pow,Nat.testBit_eq_decide_div_mod_eq]
  rcases Nat.mod_two_eq_zero_or_one (x / 2 ^ 12) with even | odd
  · simp
  · simp

section
variable {initialSize : Nat}

/-- A size that is neither too small nor too large is rounded up, and the block has
    room for the structures. -/
theorem init_fits (large : 57 ≤ initialSize) (small : initialSize ≤ 2 ^ 64 - 72) :
    nodeSize + rounded initialSize < 2 ^ 64 ∧ initRequest initialSize = blockSize initialSize + poolSize + nodeSize := by
  have short := toAdd_small initialSize
  have word := toAdd_aligned initialSize
  have exact : rounded initialSize = initialSize + toAdd initialSize := Nat.mod_eq_of_lt (by omega)
  have pool : poolSize = 48 := rfl
  have node : nodeSize = 16 := rfl
  refine ⟨by omega,?_⟩
  rw [initRequest,blockSize]
  split
  · have less : (rounded initialSize + 2 ^ 64 - (poolSize + nodeSize)) % 2 ^ 64 =
        rounded initialSize - (poolSize + nodeSize) := by omega
    rw [less]
    exact Nat.mod_eq_of_lt (by omega)
  · exact Nat.mod_eq_of_lt (by omega)

/-- Elsewhere the block that is asked for has no room for the structures. -/
theorem init_short (bound : initialSize < 2 ^ 64) (outside : ¬(57 ≤ initialSize ∧ initialSize ≤ 2 ^ 64 - 72)) :
    initRequest initialSize < poolSize + nodeSize := by
  have short := toAdd_small initialSize
  have word := toAdd_aligned initialSize
  have pool : poolSize = 48 := rfl
  have node : nodeSize = 16 := rfl
  by_cases wraps : initialSize + toAdd initialSize = 2 ^ 64
  · have zero : rounded initialSize = 0 := by rw [rounded,wraps,Nat.mod_self]
    rw [initRequest,blockSize,if_pos (by rw [zero]; rfl),zero]
    omega
  have exact : rounded initialSize = initialSize + toAdd initialSize := Nat.mod_eq_of_lt (by omega)
  rw [initRequest,blockSize]
  simp only [and_4096,exact]
  split <;> omega

theorem init_inv {h : Nat} (large : 57 ≤ initialSize) (small : initialSize ≤ 2 ^ 64 - 72)
    (malloc : Malloc [] h (initRequest initialSize)) : Inv (start initialSize h) := by
  obtain ⟨growth,request⟩ := init_fits large small
  obtain ⟨word,space,-⟩ := malloc
  rw [request] at space
  have endp : (h + poolSize + nodeSize + blockSize initialSize) % 2 ^ 64 =
      h + poolSize + nodeSize + blockSize initialSize := Nat.mod_eq_of_lt (by omega)
  have holds : Holds (acPoolInit initialSize h).current ⟨h,initRequest initialSize,poolSize + nodeSize⟩ := by
    simp only [Holds,acPoolInit,endp,request]
    omega
  constructor
  case blocks => exact .cons holds .nil
  case bump => exact ⟨le_rfl,holds.2.1⟩
  case heap => exact List.pairwise_singleton _ _
  case room =>
    intro b member
    rw [List.mem_singleton.mp member]
    simp only [request]
    omega
  case words =>
    intro b member
    rw [List.mem_singleton.mp member]
    exact Nat.dvd_add word (show 8 ∣ poolSize + nodeSize by decide)
  case growth => exact growth
  case placed => simp [start]
  case apart => exact .nil
  case aligned => simp [start]

theorem run_inv (large : 57 ≤ initialSize) (small : initialSize ≤ 2 ^ 64 - 72) {s : State} (run : Run initialSize s) :
    Inv s := by
  induction run with
  | init malloc => exact init_inv large small malloc
  | step run op block fits malloc ih => exact ih.step op block fits malloc

/-- In every run that does not wrap, the regions lie in blocks and do not overlap,
    exactly where the initial size is neither too small nor too large. -/
theorem regions_safe_iff (positive : 0 < initialSize) (bound : initialSize < 2 ^ 64) :
    (∀ s, Run initialSize s → Safe s) ↔ 57 ≤ initialSize ∧ initialSize ≤ 2 ^ 64 - 72 := by
  constructor
  · intro safe
    by_contra outside
    have request := init_short bound outside
    have malloc : Malloc [] 8 (initRequest initialSize) := by
      refine ⟨⟨1,rfl⟩,?_,by simp,by decide⟩
      simp only [poolSize,nodeSize] at request
      omega
    have blocks := (safe _ (.init malloc)).blocks
    obtain _ | ⟨⟨here,low,high⟩,-⟩ := blocks
    simp only [start,acPoolInit] at here low high
    omega
  · rintro ⟨large,small⟩ s run
    exact (run_inv large small run).safe

end

/-- A pool of 100 bytes, and a word in it. -/
theorem one_word : 0 < 100 ∧ 100 < 2 ^ 64 ∧ Safe ((start 100 4096).apply (.alloc 8) 0) := by
  have safe := (@regions_safe_iff 100 (by decide) (by decide)).mpr (by decide)
  refine ⟨by decide,by decide,safe _ ?_⟩
  have room : 4096 + 64 + toAdd (4096 + 64) + 8 < 2 ^ 64 := by decide
  refine .step (.init ⟨by decide,by decide,by simp,by decide⟩) _ _ room ?_
  intro r result n asked
  cases result
  cases asked

/-- For 8 bytes, `malloc` is asked for 8 bytes, but the structures take 64. -/
theorem eight_bytes_escape : Run 8 (start 8 4096) ∧ ¬Safe (start 8 4096) := by
  refine ⟨.init ⟨by decide,by decide,by simp,by decide⟩,fun safe => ?_⟩
  have blocks := safe.blocks
  obtain _ | ⟨⟨here,low,high⟩,-⟩ := blocks
  revert low
  decide

end AnotherC.Pool
