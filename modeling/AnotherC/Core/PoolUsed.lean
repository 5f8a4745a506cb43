import AnotherC.Core.Pool
import AnotherC.Lib.Intervals

/-!
# `ac_pool_used`

What a pool holds from `malloc`, over every sequence of calls. Here lengths can wrap, as what is
counted wraps with them. For initial sizes that have the bit of 4096 in them `used` is exact in every
state, for the others it is not (`used_exact_iff`): the block is made smaller, but `used` is set
from the size before.
-/
namespace AnotherC.PoolUsed
open AnotherC.Pool
open AnotherC.Lib
set_option linter.unusedVariables false

/-- `ac_pool_strdupf`, for a text that is printed with `n` bytes. -/
def acPoolStrdupf (h : Pool) (n block : Nat) : Result :=
  if n < (h.current.endp + 2 ^ 64 - h.curp) % 2 ^ 64 then ⟨{ h with curp := (h.curp + (n + 1)) % 2 ^ 64 },h.curp,n + 1,none⟩
  else acPoolUalloc h (n + 1) block

def acPoolSetMinimumGrowthSize (h : Pool) (size : Nat) : Pool := { h with minimumGrowthSize := size }

/-- The calls of a pool. -/
inductive Call
  | op (o : Op)
  | strdupf (n : Nat)
  | setMinimumGrowthSize (size : Nat)

/-- What a call that allocates returns, where `malloc` would return `block`. -/
def Call.result (h : Pool) (block : Nat) : Call → Option Result
  | op o => (o.result h block).map Prod.fst
  | strdupf n => some (acPoolStrdupf h n block)
  | setMinimumGrowthSize size => none

/-- What a call asks `malloc` for. -/
def Call.request (h : Pool) (block : Nat) (c : Call) : Option Nat := (c.result h block).bind Result.request

/-- One call. -/
def call (s : State) (block : Nat) : Call → State
  | .op o => s.apply o block
  | .strdupf n =>
    let r := acPoolStrdupf s.pool n block
    ⟨r.pool,(r.request.map fun n => ⟨block,n,nodeSize⟩).toList ++ s.heap,⟨r.start,r.len,false⟩ :: s.regions⟩
  | .setMinimumGrowthSize size => { s with pool := acPoolSetMinimumGrowthSize s.pool size }

/-- The states that are reached by calls. -/
inductive Reached (initialSize : Nat) : State → Prop
  | init {h : Nat} (malloc : Malloc [] h (initRequest initialSize)) : Reached initialSize (start initialSize h)
  | step {s : State} (reached : Reached initialSize s) (c : Call) (block : Nat)
      (malloc : ∀ n ∈ c.request s.pool block, Malloc s.heap block n) : Reached initialSize (call s block c)

/-- The bytes that a pool holds. -/
def held (heap : List Block) : Nat := (heap.map Block.size).sum

/-- `used` is what the pool holds, and a clear leaves what there was after `_ac_pool_init`. -/
structure Exact (initialSize : Nat) (s : State) : Prop where
  used : s.pool.used = held s.heap
  cleared : (acPoolClear s.pool s.heap).1.used = (acPoolInit initialSize 0).used

/-! ## What a call does -/

/-- What a call asks for and leaves, but for `clear`: the blocks with another `curp` or another
    size to grow by, or one block more. -/
inductive Left (s : State) (block : Nat) : Option Nat → State → Prop
  | moved (curp size : Nat) (regions : List Region) :
    Left s block none ⟨{ s.pool with curp := curp, minimumGrowthSize := size },s.heap,regions⟩
  | grown (len n : Nat) (regions : List Region) (asked : (nodeSize + growSize s.pool len) % 2 ^ 64 = n) :
    Left s block (some n) ⟨(acPoolAllocGrow s.pool len block).pool,⟨block,n,nodeSize⟩ :: s.heap,regions⟩

section
variable {s : State} {block : Nat}

/-- The result of a call that allocates. -/
inductive Given (h : Pool) (block : Nat) : Result → Prop
  | moved (curp start len : Nat) : Given h block ⟨{ h with curp := curp },start,len,none⟩
  | grown (len : Nat) : Given h block (acPoolAllocGrow h len block)

theorem ualloc_given (h : Pool) (len block : Nat) : Given h block (acPoolUalloc h len block) := by
  rw [acPoolUalloc]
  split
  · exact .moved _ _ _
  · exact .grown _

theorem alloc_given (h : Pool) (len block : Nat) : Given h block (acPoolAlloc h len block) := by
  unfold acPoolAlloc
  simp only
  split
  · exact .moved _ _ _
  · exact .grown _

theorem minMaxAlloc_given (h : Pool) (minLen len block : Nat) : Given h block (acPoolMinMaxAlloc h minLen len block) := by
  unfold acPoolMinMaxAlloc
  simp only
  split
  · exact .moved _ _ _
  split
  · exact .moved _ _ _
  · exact .grown _

theorem strdupf_given (h : Pool) (n block : Nat) : Given h block (acPoolStrdupf h n block) := by
  unfold acPoolStrdupf
  split
  · exact .moved _ _ _
  · exact ualloc_given h _ block

theorem op_given {h : Pool} {op : Op} {r : Result} {aligned : Bool} (result : op.result h block = some (r,aligned)) :
    Given h block r := by
  cases op with
  | alloc len =>
    cases result
    exact alloc_given h len block
  | ualloc len =>
    cases result
    exact ualloc_given h len block
  | minMaxAlloc minLen len =>
    cases result
    exact minMaxAlloc_given h minLen len block
  | udup len =>
    cases result
    exact ualloc_given h _ block
  | strdup p =>
    cases result
    exact ualloc_given h _ block
  | grow len =>
    cases result
    exact .grown len
  | clear => cases result

theorem Given.left {r : Result} (given : Given s.pool block r) (regions : List Region) :
    Left s block r.request ⟨r.pool,(r.request.map fun n => ⟨block,n,nodeSize⟩).toList ++ s.heap,regions⟩ := by
  cases given with
  | moved curp start len =>
    rw [Option.map_none,Option.toList_none,List.nil_append]
    exact .moved curp s.pool.minimumGrowthSize regions
  | grown len =>
    have asked : (acPoolAllocGrow s.pool len block).request = some ((nodeSize + growSize s.pool len) % 2 ^ 64) := rfl
    rw [asked,Option.map_some,Option.toList_some,List.singleton_append]
    exact .grown len _ regions rfl

/-- Every call but `clear` moves `curp` or takes a block. -/
theorem call_left (s : State) (block : Nat) {c : Call} (notClear : c ≠ .op .clear) : Left s block (c.request s.pool block) (call s block c) := by
  cases c with
  | strdupf n =>
    rw [Call.request,Call.result,Option.bind_some,call]
    exact (strdupf_given s.pool n block).left _
  | setMinimumGrowthSize size =>
    rw [Call.request,Call.result,Option.bind_none,call]
    exact .moved s.pool.curp size s.regions
  | op o =>
    rw [Call.request,Call.result,call,State.apply]
    cases result : o.result s.pool block with
    | some r =>
      rw [Option.map_some,Option.bind_some]
      exact (op_given result).left _
    | none =>
      cases o with
      | clear => exact absurd rfl notClear
      | _ => cases result

end

/-! ## The accounts -/

/-- The blocks do not overlap, and the oldest is the one of `_ac_pool_init`. -/
structure Blocks (initialSize : Nat) (s : State) : Prop where
  apart : s.heap.Pairwise fun b c => b.base + b.size ≤ c.base ∨ c.base + c.size ≤ b.base
  room : ∀ b ∈ s.heap, b.base + b.size < 2 ^ 64
  first : ∃ h older nodes, s.heap = older ++ [⟨h,initRequest initialSize,poolSize + nodeSize⟩] ∧
    s.pool.current :: s.pool.prev = nodes ++ [(acPoolInit initialSize h).current] ∧ older.length = nodes.length

theorem held_cons (b : Block) (heap : List Block) : held (b :: heap) = b.size + held heap := List.sum_cons

theorem held_single (b : Block) : held [b] = b.size := List.sum_singleton

theorem held_small {heap : List Block} (apart : heap.Pairwise fun b c => b.base + b.size ≤ c.base ∨ c.base + c.size ≤ b.base)
    (room : ∀ b ∈ heap, b.base + b.size < 2 ^ 64) : held heap < 2 ^ 64 := by
  have intervals : (heap.map fun b => (b.base,b.size)).Pairwise Intervals.Apart := List.pairwise_map.mpr apart
  have inside : ∀ i ∈ heap.map fun b => (b.base,b.size), 0 ≤ i.1 ∧ i.1 + i.2 ≤ 2 ^ 64 - 1 := by
    intro i member
    obtain ⟨b,inside,rfl⟩ := List.mem_map.mp member
    have bound := room b inside
    simp only
    omega
  have total := Intervals.sum_le intervals inside
  rw [List.map_map] at total
  exact Nat.lt_of_le_pred (by decide) total

/-- `clear` gets to the oldest block. -/
theorem freeBlocks_first {older : List Block} {nodes : List Node} (same : older.length = nodes.length) {n : Node} {b : Block}
    {current : Node} {prev : List Node} (chain : current :: prev = nodes ++ [n]) :
    freeBlocks current prev (older ++ [b]) = (n,[b]) := by
  induction nodes generalizing older current prev with
  | nil =>
    rw [List.length_nil,List.length_eq_zero_iff] at same
    cases chain
    rw [same]
    rfl
  | cons m nodes ih =>
    obtain ⟨c,rest,rfl⟩ := List.exists_cons_of_length_eq_add_one same
    rw [List.cons_append,List.cons.injEq] at chain
    obtain ⟨-,chain⟩ := chain
    cases prev with
    | nil =>
      have lengths := congrArg List.length chain
      simp at lengths
    | cons next prev =>
      rw [freeBlocks,List.cons_append,List.tail_cons]
      exact ih (Nat.succ.inj same) chain

section
variable {initialSize : Nat} {s : State}

theorem Blocks.cleared (blocks : Blocks initialSize s) : ∃ h, h + initRequest initialSize < 2 ^ 64 ∧
    (acPoolClear s.pool s.heap).2 = [⟨h,initRequest initialSize,poolSize + nodeSize⟩] ∧
    (acPoolClear s.pool s.heap).1.current = (acPoolInit initialSize h).current ∧ (acPoolClear s.pool s.heap).1.prev = [] ∧
    (acPoolClear s.pool s.heap).1.used = initRequest initialSize := by
  obtain ⟨h,older,nodes,heap,chain,same⟩ := blocks.first
  have room := blocks.room ⟨h,initRequest initialSize,poolSize + nodeSize⟩ (by rw [heap]; exact List.mem_append_right _ (List.mem_singleton.mpr rfl))
  refine ⟨h,room,?_⟩
  simp only [acPoolClear,heap,freeBlocks_first same chain,true_and]
  simp only [initRequest,acPoolInit,poolSize,nodeSize] at room ⊢
  omega

theorem init_blocks {h : Nat} (malloc : Malloc [] h (initRequest initialSize)) : Blocks initialSize (start initialSize h) := by
  constructor
  case apart => exact List.pairwise_singleton _ _
  case room =>
    intro b member
    rw [List.mem_singleton.mp member]
    exact malloc.room
  case first => exact ⟨h,[],[],rfl,rfl,rfl⟩

theorem Blocks.left (blocks : Blocks initialSize s) {block : Nat} {request : Option Nat} {t : State} (left : Left s block request t)
    (malloc : ∀ n ∈ request, Malloc s.heap block n) : Blocks initialSize t := by
  cases left with
  | moved curp size regions => exact ⟨blocks.apart,blocks.room,blocks.first⟩
  | grown len n regions asked =>
    have fresh := malloc n rfl
    constructor
    case apart => exact List.pairwise_cons.mpr ⟨fresh.apart,blocks.apart⟩
    case room =>
      intro b member
      rcases List.mem_cons.mp member with rfl | member
      · exact fresh.room
      · exact blocks.room b member
    case first =>
      obtain ⟨h,older,nodes,heap,chain,same⟩ := blocks.first
      refine ⟨h,_ :: older,_ :: nodes,congrArg _ heap,congrArg _ chain,congrArg Nat.succ same⟩

theorem Blocks.clear (blocks : Blocks initialSize s) (block : Nat) : Blocks initialSize (call s block (.op .clear)) := by
  obtain ⟨h,room,heap,current,prev,-⟩ := blocks.cleared
  have cleared : call s block (.op .clear) = ⟨(acPoolClear s.pool s.heap).1,(acPoolClear s.pool s.heap).2,[]⟩ := rfl
  rw [cleared,heap]
  constructor
  case apart => exact List.pairwise_singleton _ _
  case room =>
    intro b member
    rw [List.mem_singleton.mp member]
    exact room
  case first =>
    refine ⟨h,[],[],rfl,?_,rfl⟩
    simp only [current,prev,List.nil_append]

/-- Whatever is counted grows with what is held. -/
theorem left_used {block : Nat} {request : Option Nat} {t : State} (left : Left s block request t)
    (used : s.pool.used = held s.heap % 2 ^ 64) : t.pool.used = held t.heap % 2 ^ 64 := by
  cases left with
  | moved curp size regions => exact used
  | grown len n regions asked =>
    simp only [acPoolAllocGrow,used,held_cons]
    omega

/-- What holds in every run from an initial size that is counted as it is asked for. -/
theorem reached_used (counted : (acPoolInit initialSize 0).used = initRequest initialSize) (reached : Reached initialSize s) :
    Blocks initialSize s ∧ s.pool.used = held s.heap % 2 ^ 64 := by
  induction reached with
  | @init h malloc =>
    refine ⟨init_blocks malloc,?_⟩
    have small : initRequest initialSize < 2 ^ 64 := Nat.mod_lt _ (by decide)
    rw [start,held_single,Nat.mod_eq_of_lt small]
    exact counted
  | @step s reached c block malloc ih =>
    obtain ⟨blocks,used⟩ := ih
    by_cases clear : c = .op .clear
    · subst clear
      refine ⟨blocks.clear block,?_⟩
      obtain ⟨h,room,heap,-,-,exact_⟩ := blocks.cleared
      have small : initRequest initialSize < 2 ^ 64 := Nat.mod_lt _ (by decide)
      show (acPoolClear s.pool s.heap).1.used = held (acPoolClear s.pool s.heap).2 % 2 ^ 64
      rw [heap,held_single,exact_,Nat.mod_eq_of_lt small]
    · have left := call_left s block clear
      exact ⟨blocks.left left malloc,left_used left used⟩

/-- What `_ac_pool_init` sets `used` to is what it has asked for exactly if the size has the bit
    of 4096. -/
theorem counted_iff : (acPoolInit initialSize 0).used = initRequest initialSize ↔ rounded initialSize &&& 4096 ≠ 0 := by
  have small : rounded initialSize < 2 ^ 64 := Nat.mod_lt _ (by decide)
  simp only [acPoolInit,initRequest,blockSize,poolSize,nodeSize]
  split
  case isTrue bit =>
    simp only [bit,ne_eq,not_true_eq_false,iff_false]
    omega
  case isFalse bit => simp [bit]

/-- Where it has not, the block that is asked for can lie behind the first word. -/
theorem small_request (bit : rounded initialSize &&& 4096 = 0) : initRequest initialSize + 8 < 2 ^ 64 := by
  have small : rounded initialSize < 2 ^ 64 := Nat.mod_lt _ (by decide)
  rw [initRequest,blockSize,if_pos bit]
  rw [and_4096] at bit
  simp only [poolSize,nodeSize]
  omega

/-- `used` is exact in every state, and after a clear as after `_ac_pool_init`, exactly if the
    initial size, rounded up, has the bit of 4096. -/
theorem used_exact_iff (large : 64 ≤ initialSize) (bound : initialSize < 2 ^ 64) :
    (∀ s, Reached initialSize s → Exact initialSize s) ↔ rounded initialSize &&& 4096 ≠ 0 := by
  rw [← counted_iff]
  constructor
  · intro exact_
    by_contra wrong
    have room := small_request (not_not.mp fun bit => wrong (counted_iff.mpr bit))
    exact wrong (exact_ (start initialSize 8) (.init ⟨⟨1,rfl⟩,by omega,List.forall_mem_nil _,by decide⟩)).used
  · intro counted s reached
    obtain ⟨blocks,used⟩ := reached_used counted reached
    have small := held_small blocks.apart blocks.room
    obtain ⟨h,room,-,-,-,cleared⟩ := blocks.cleared
    exact ⟨used.trans (Nat.mod_eq_of_lt small),cleared.trans counted.symm⟩

/-- The size 4096 has the bit. -/
theorem used_exact_4096 : 64 ≤ 4096 ∧ 4096 < 2 ^ 64 ∧ ((∀ s, Reached 4096 s → Exact 4096 s) ↔ rounded 4096 &&& 4096 ≠ 0) :=
  ⟨by decide,by decide,used_exact_iff (by decide) (by decide)⟩

/-- For 64 bytes, `used` says 128, but `malloc` was asked for 64. -/
theorem used_too_large : ¬ ∀ initialSize, 64 ≤ initialSize → initialSize < 2 ^ 64 → ∀ s, Reached initialSize s → Exact initialSize s := by
  intro exact_
  have first := (exact_ 64 (by decide) (by decide) (start 64 8) (.init ⟨⟨1,rfl⟩,by decide,List.forall_mem_nil _,by decide⟩)).used
  revert first
  decide

end

end AnotherC.PoolUsed
