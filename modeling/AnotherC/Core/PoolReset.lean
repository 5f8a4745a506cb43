import AnotherC.Core.PoolUsed

/-!
# `ac_pool_checkpoint` and `ac_pool_reset`

A checkpoint keeps the address of the block before the current one. Reset walks back to the block
that has it as its predecessor: no two nodes of a pool have the same address, so this is the block
where the checkpoint was taken (`resetLoop_back`). A pool that lies in another pool frees nothing:
its blocks belong to the other one.
-/
namespace AnotherC.PoolReset
open AnotherC.Pool
open AnotherC.PoolUsed
set_option linter.unusedVariables false

/-- The state after `ac_pool_pool_init`, where the other pool has returned `h`. -/
def poolStart (initialSize h : Nat) : State :=
  let curp := h + poolSize + nodeSize
  ⟨{ current := ⟨h + poolSize,(curp + rounded initialSize) % 2 ^ 64⟩
     prev := []
     curp := curp
     minimumGrowthSize := rounded initialSize
     size := 0
     used := (rounded initialSize + poolSize + nodeSize) % 2 ^ 64 },
    [⟨h,(rounded initialSize + poolSize + nodeSize) % 2 ^ 64,poolSize + nodeSize⟩],[]⟩

/-- `ac_pool_checkpoint_t`; `prev` is an address, 0 for NULL. -/
structure Checkpoint where
  prev : Nat
  curp : Nat
  size : Nat
  used : Nat

/-- The pointer to the newest of the nodes. -/
def pointer : List Node → Nat
  | [] => 0
  | node :: older => node.addr

def acPoolCheckpoint (h : Pool) : Checkpoint := ⟨pointer h.prev,h.curp,h.size,h.used⟩

/-- `ac_free`, which fails for what is no block. -/
def acFree (heap : List Block) (p : Nat) : Option (List Block) :=
  if heap.any (fun b => b.base = p) then some (heap.filter fun b => b.base ≠ p) else none

/-- What the loop of `ac_pool_reset` leaves, with the addresses that it has freed. -/
structure Walk where
  current : Node
  prev : List Node
  heap : List Block
  freed : List Nat

/-- The loop of `ac_pool_reset`; `inPool` says whether `h->pool` is set. It fails when it gets
    behind the first block. -/
def resetLoop (inPool : Bool) (stop : Nat) : List Node → Walk → Option Walk
  | [], w => if 0 = stop then some w else none
  | prev :: older, w =>
    if prev.addr = stop then some w
    else if inPool then resetLoop inPool stop older { w with current := prev, prev := older }
    else do
      let heap ← acFree w.heap w.current.addr
      resetLoop inPool stop older ⟨prev,older,heap,w.freed ++ [w.current.addr]⟩

/-- `ac_pool_reset`, with the addresses that are freed. -/
def acPoolReset (inPool : Bool) (s : State) (cp : Checkpoint) : Option (State × List Nat) := do
  let w ← resetLoop inPool cp.prev s.pool.prev ⟨s.pool.current,s.pool.prev,s.heap,[]⟩
  return ({ s with
    pool := { s.pool with current := w.current, prev := w.prev, curp := cp.curp, size := cp.size, used := cp.used }
    heap := w.heap },w.freed)

/-- One call; a pool in a pool drops its blocks when it is cleared, but does not free them. -/
def callIn (inPool : Bool) (s : State) (block : Nat) (c : Call) : State :=
  match inPool,c with
  | true,.op .clear => { call s block (.op .clear) with heap := s.heap }
  | _,_ => call s block c

/-! ## Runs -/

/-- An address that is neither NULL nor one of a block or a node. -/
structure Fresh (s : State) (block : Nat) : Prop where
  notNull : 0 < block
  blocks : ∀ b ∈ s.heap, b.base ≠ block
  nodes : ∀ n ∈ s.pool.current :: s.pool.prev, n.addr ≠ block

/-- What can come after a state: calls but for `clear`, and checkpoints with their resets. -/
inductive Later (inPool : Bool) : State → State → Prop
  | same (s : State) : Later inPool s s
  | call {s t : State} (later : Later inPool s t) (c : Call) (block : Nat) (notClear : c ≠ .op .clear)
      (fresh : ∀ n ∈ c.request t.pool block, Fresh t block) : Later inPool s (call t block c)
  | reset {s t u v : State} {freed : List Nat} (before : Later inPool s t) (nested : Later inPool t u)
      (back : acPoolReset inPool u (acPoolCheckpoint t.pool) = some (v,freed)) : Later inPool s v

/-- The states of a pool: calls, `clear` among them, and checkpoints with their resets. -/
inductive Reached : Bool → State → Prop
  | init {initialSize h : Nat} (notNull : 0 < h) : Reached false (start initialSize h)
  | poolInit {initialSize h : Nat} (notNull : 0 < h) : Reached true (poolStart initialSize h)
  | call {inPool : Bool} {s : State} (reached : Reached inPool s) (c : Call) (block : Nat)
      (fresh : ∀ n ∈ c.request s.pool block, Fresh s block) : Reached inPool (callIn inPool s block c)
  | reset {inPool : Bool} {s t u : State} {freed : List Nat} (before : Reached inPool s) (nested : Later inPool s t)
      (back : acPoolReset inPool t (acPoolCheckpoint s.pool) = some (u,freed)) : Reached inPool u

/-- The current block and the ones before it, `curp`, `size` and `used` are as in `s`. -/
structure Restored (s u : State) : Prop where
  current : u.pool.current = s.pool.current
  prev : u.pool.prev = s.pool.prev
  curp : u.pool.curp = s.pool.curp
  size : u.pool.size = s.pool.size
  used : u.pool.used = s.pool.used

/-- From `t` to `u` the blocks are freed that have come since `s`, and no others. -/
def Freed (s t u : State) (freed : List Nat) : Prop :=
  ∃ since, t.heap = since ++ s.heap ∧ freed = since.map Block.base ∧ u.heap = s.heap

/-- Nothing is freed. -/
def Kept (s t u : State) (freed : List Nat) : Prop :=
  (∃ since, t.heap = since ++ s.heap) ∧ freed = [] ∧ u.heap = t.heap

/-! ## The chain of blocks -/

def chain (h : Pool) : List Node := h.current :: h.prev

/-- No two nodes of a pool have the same address, and a block that is not the first is its
    node. -/
structure Shape (inPool : Bool) (s : State) : Prop where
  nodes : ((chain s.pool).map Node.addr).Nodup
  notNull : ∀ n ∈ chain s.pool, 0 < n.addr
  bases : inPool = false → (s.heap.map Block.base).Nodup
  heap : inPool = false → ∃ b, s.heap.map Block.base = (chain s.pool).dropLast.map Node.addr ++ [b]

/-- What a state has more than an earlier one. -/
structure More (inPool : Bool) (s t : State) (nodes : List Node) (since : List Block) : Prop where
  chain : chain t.pool = nodes ++ chain s.pool
  heap : t.heap = since ++ s.heap
  same : inPool = false → since.map Block.base = nodes.map Node.addr

section
variable {inPool : Bool} {s t u : State}

theorem acFree_first {b : Block} {heap : List Block} (distinct : ((b :: heap).map Block.base).Nodup) :
    acFree (b :: heap) b.base = some heap := by
  have others : ∀ c ∈ heap, c.base ≠ b.base := by
    intro c member same
    rw [List.map_cons,List.nodup_cons] at distinct
    exact distinct.1 (same ▸ List.mem_map_of_mem member)
  rw [acFree,if_pos (by simp),List.filter_cons_of_neg (by simp),List.filter_eq_self.mpr]
  intro c member
  exact decide_eq_true (others c member)

/-- The block where the walk has to stop is not before it. -/
theorem not_pointer {node : Node} {newer older : List Node} (distinct : ((newer ++ older).map Node.addr).Nodup)
    (notNull : ∀ n ∈ newer, 0 < n.addr) (member : node ∈ newer) : node.addr ≠ pointer older := by
  cases older with
  | nil => exact Nat.ne_of_gt (notNull node member)
  | cons next older =>
    rw [List.map_append] at distinct
    exact (List.nodup_append.mp distinct).2.2 _ (List.mem_map_of_mem member) _ (List.mem_map_of_mem List.mem_cons_self)

/-- The walk of a reset gets to the block where the checkpoint was taken. -/
theorem resetLoop_back {nodes : List Node} {since heap : List Block} {current first : Node} {prev older : List Node}
    (chain : first :: prev = nodes ++ current :: older) (distinct : ((first :: prev).map Node.addr).Nodup)
    (notNull : ∀ n ∈ first :: prev, 0 < n.addr)
    (own : inPool = false → since.map Block.base = nodes.map Node.addr ∧ ((since ++ heap).map Block.base).Nodup) (freed : List Nat) :
    resetLoop inPool (pointer older) prev ⟨first,prev,since ++ heap,freed⟩ =
      some ⟨current,older,if inPool then since ++ heap else heap,freed ++ if inPool then [] else since.map Block.base⟩ := by
  induction nodes generalizing since first prev freed with
  | nil =>
    cases chain
    have nothing : inPool = false → since = [] := fun no => List.map_eq_nil_iff.mp (own no).1
    have stop : resetLoop inPool (pointer older) older ⟨current,older,since ++ heap,freed⟩ = some ⟨current,older,since ++ heap,freed⟩ := by
      cases older with
      | nil => rfl
      | cons next older => exact if_pos rfl
    rw [stop]
    cases inPool with
    | true => simp
    | false => simp [nothing rfl]
  | cons n nodes ih =>
    rw [List.cons_append,List.cons.injEq] at chain
    obtain ⟨rfl,chain⟩ := chain
    cases prev with
    | nil =>
      have lengths := congrArg List.length chain
      simp at lengths
    | cons next prev =>
      have inside : next ∈ nodes ++ [current] := by
        have first := congrArg List.head? chain
        cases nodes with
        | nil =>
          cases chain
          exact List.mem_singleton.mpr rfl
        | cons m nodes =>
          cases chain
          exact List.mem_cons_self
      have distinct' : ((next :: prev).map Node.addr).Nodup := (List.nodup_cons.mp distinct).2
      have notNull' : ∀ n ∈ next :: prev, 0 < n.addr := fun n member => notNull n (List.mem_cons_of_mem _ member)
      have goesOn : next.addr ≠ pointer older := by
        refine @not_pointer next (nodes ++ [current]) older ?_ ?_ inside
        · rw [List.append_assoc,List.singleton_append,← chain]
          exact distinct'
        · intro m member
          refine notNull' m ?_
          rw [chain]
          simpa using Or.imp_right Or.inl (by simpa using member)
      rw [resetLoop,if_neg goesOn]
      cases inPool with
      | true =>
        rw [if_pos rfl]
        exact ih chain distinct' notNull' (fun no => Bool.noConfusion no) freed
      | false =>
        obtain ⟨same,bases⟩ := own rfl
        cases since with
        | nil => cases same
        | cons b since =>
          rw [List.map_cons,List.map_cons,List.cons.injEq] at same
          obtain ⟨here,same⟩ := same
          have free : acFree (b :: since ++ heap) first.addr = some (since ++ heap) := by
            rw [← here]
            exact acFree_first bases
          rw [if_neg Bool.false_ne_true,free,Option.bind_eq_bind,Option.bind_some]
          rw [ih chain distinct' notNull' (fun _ => ⟨same,(List.nodup_cons.mp bases).2⟩)]
          simp [here]

theorem Restored.chain (restored : Restored s u) : chain u.pool = chain s.pool := by
  rw [PoolReset.chain,restored.current,restored.prev,← PoolReset.chain]

/-- A reset undoes what a state has more than the one of the checkpoint. -/
theorem More.reset {nodes : List Node} {since : List Block} (more : More inPool s t nodes since) (shape : Shape inPool t) :
    ∃ u, acPoolReset inPool t (acPoolCheckpoint s.pool) = some (u,if inPool then [] else since.map Block.base) ∧ Restored s u ∧
      u.heap = if inPool then t.heap else s.heap := by
  have own : inPool = false → since.map Block.base = nodes.map Node.addr ∧ ((since ++ s.heap).map Block.base).Nodup :=
    fun no => ⟨more.same no,more.heap ▸ shape.bases no⟩
  have walk := resetLoop_back more.chain shape.nodes shape.notNull own []
  rw [← more.heap,List.nil_append] at walk
  rw [acPoolReset]
  simp only [acPoolCheckpoint,walk,Option.bind_eq_bind,Option.bind_some]
  exact ⟨_,rfl,⟨rfl,rfl,rfl,rfl,rfl⟩,rfl⟩

/-! ## What the calls keep -/

theorem Shape.like (shape : Shape inPool s) (chain : chain t.pool = chain s.pool) (heap : inPool = false → t.heap = s.heap) :
    Shape inPool t := by
  constructor
  case nodes => exact chain ▸ shape.nodes
  case notNull => exact chain ▸ shape.notNull
  case bases => exact fun no => heap no ▸ shape.bases no
  case heap => exact fun no => heap no ▸ chain ▸ shape.heap no

theorem chain_grown (h : Pool) (len block : Nat) : ∃ node, node.addr = block ∧ chain (acPoolAllocGrow h len block).pool = node :: chain h :=
  ⟨_,rfl,rfl⟩

theorem Shape.left (shape : Shape inPool s) {block : Nat} {request : Option Nat} (left : Left s block request t)
    (fresh : ∀ n ∈ request, Fresh s block) : Shape inPool t := by
  cases left with
  | moved curp size regions => exact shape.like rfl fun _ => rfl
  | grown len n regions asked =>
    obtain ⟨notNull,blocks,nodes⟩ := fresh n rfl
    obtain ⟨node,rfl,longer⟩ := chain_grown s.pool len block
    constructor
    case nodes =>
      rw [longer,List.map_cons,List.nodup_cons]
      refine ⟨fun member => ?_,shape.nodes⟩
      obtain ⟨m,inside,same⟩ := List.mem_map.mp member
      exact nodes m inside same
    case notNull =>
      rw [longer]
      exact List.forall_mem_cons.mpr ⟨notNull,shape.notNull⟩
    case bases =>
      intro no
      rw [List.map_cons,List.nodup_cons]
      refine ⟨fun member => ?_,shape.bases no⟩
      obtain ⟨b,inside,same⟩ := List.mem_map.mp member
      exact blocks b inside same
    case heap =>
      intro no
      obtain ⟨b,heap⟩ := shape.heap no
      refine ⟨b,?_⟩
      rw [longer,chain,List.dropLast_cons_of_ne_nil (List.cons_ne_nil _ _),List.map_cons,List.map_cons,heap]
      rfl

theorem More.left {nodes : List Node} {since : List Block} (more : More inPool s t nodes since) {block : Nat} {request : Option Nat}
    {u : State} (left : Left t block request u) : ∃ nodes' since', More inPool s u nodes' since' := by
  cases left with
  | moved curp size regions => exact ⟨nodes,since,more.chain,more.heap,more.same⟩
  | grown len n regions asked =>
    obtain ⟨node,rfl,longer⟩ := chain_grown t.pool len block
    refine ⟨node :: nodes,⟨node.addr,n,nodeSize⟩ :: since,?_⟩
    constructor
    case chain => rw [longer,more.chain,List.cons_append]
    case heap => rw [more.heap,List.cons_append]
    case same => exact fun no => congrArg _ (more.same no)

/-- `clear` leaves the first node. -/
theorem freeBlocks_member (current : Node) (prev : List Node) (heap : List Block) : (freeBlocks current prev heap).1 ∈ current :: prev := by
  induction prev generalizing current heap with
  | nil => exact List.mem_cons_self
  | cons older prev ih => exact List.mem_cons_of_mem _ (ih older heap.tail)

theorem Shape.clear (shape : Shape inPool s) {heap : List Block} (freed : inPool = false → heap = (acPoolClear s.pool s.heap).2)
    (regions : List Region) : Shape inPool ⟨(acPoolClear s.pool s.heap).1,heap,regions⟩ := by
  have one : chain (acPoolClear s.pool s.heap).1 = [(freeBlocks s.pool.current s.pool.prev s.heap).1] := rfl
  have single : inPool = false → ∃ b, (acPoolClear s.pool s.heap).2 = [b] := by
    intro no
    obtain ⟨b,bases⟩ := shape.heap no
    obtain ⟨older,rest,heap,first,last⟩ := List.map_eq_append_iff.mp bases
    obtain ⟨c,rfl,-⟩ := List.map_eq_singleton_iff.mp last
    have whole : s.pool.current :: s.pool.prev = (chain s.pool).dropLast ++ [(chain s.pool).getLast (List.cons_ne_nil _ _)] :=
      (List.dropLast_append_getLast _).symm
    have same : older.length = (chain s.pool).dropLast.length := by
      rw [← List.length_map Block.base,first,List.length_map]
    refine ⟨c,?_⟩
    rw [acPoolClear,heap]
    simp only [freeBlocks_first same whole]
  constructor
  case nodes =>
    rw [one]
    exact List.nodup_singleton _
  case notNull =>
    rw [one]
    exact List.forall_mem_singleton.mpr (shape.notNull _ (freeBlocks_member _ _ _))
  case bases =>
    intro no
    obtain ⟨b,single⟩ := single no
    rw [freed no,single]
    exact List.nodup_singleton _
  case heap =>
    intro no
    obtain ⟨b,single⟩ := single no
    rw [freed no,single]
    exact ⟨b.base,rfl⟩

theorem Shape.callIn (shape : Shape inPool s) {c : Call} {block : Nat} (fresh : ∀ n ∈ c.request s.pool block, Fresh s block) :
    Shape inPool (callIn inPool s block c) := by
  by_cases clear : c = .op .clear
  · subst clear
    cases inPool with
    | true => exact shape.clear (fun no => Bool.noConfusion no) _
    | false => exact shape.clear (fun _ => rfl) _
  · have left := call_left s block clear
    have same : PoolReset.callIn inPool s block c = call s block c := by
      unfold PoolReset.callIn
      split
      · exact absurd rfl clear
      · rfl
    rw [same]
    exact shape.left left fresh

/-- What comes after a state has the blocks of it, and more. -/
theorem later_more (later : Later inPool s t) (shape : Shape inPool s) : ∃ nodes since, More inPool s t nodes since ∧ Shape inPool t := by
  induction later with
  | same s => exact ⟨[],[],⟨rfl,rfl,fun _ => rfl⟩,shape⟩
  | @call s t later c block notClear fresh ih =>
    obtain ⟨nodes,since,more,shape⟩ := ih shape
    have left := call_left t block notClear
    obtain ⟨nodes',since',more⟩ := more.left left
    exact ⟨nodes',since',more,shape.left left fresh⟩
  | @reset s t u v freed before nested back before_more nested_more =>
    obtain ⟨nodes,since,more,shape⟩ := before_more shape
    obtain ⟨nodes',since',more',shape'⟩ := nested_more shape
    obtain ⟨w,result,restored,heap⟩ := more'.reset shape'
    rw [back,Option.some.injEq,Prod.mk.injEq] at result
    obtain ⟨rfl,-⟩ := result
    have chains := restored.chain
    cases inPool with
    | true =>
      refine ⟨nodes,since' ++ since,⟨chains.trans more.chain,?_,fun no => Bool.noConfusion no⟩,shape.like chains fun no => Bool.noConfusion no⟩
      rw [heap,if_pos rfl,more'.heap,more.heap,List.append_assoc]
    | false =>
      have same : v.heap = t.heap := heap
      exact ⟨nodes,since,⟨chains.trans more.chain,same.trans more.heap,more.same⟩,shape.like chains fun _ => same⟩

theorem reached_shape (reached : Reached inPool s) : Shape inPool s := by
  induction reached with
  | init notNull =>
    refine ⟨List.nodup_singleton _,?_,fun _ => List.nodup_singleton _,fun _ => ⟨_,rfl⟩⟩
    exact List.forall_mem_singleton.mpr (Nat.add_pos_left notNull _)
  | poolInit notNull =>
    refine ⟨List.nodup_singleton _,?_,fun _ => List.nodup_singleton _,fun _ => ⟨_,rfl⟩⟩
    exact List.forall_mem_singleton.mpr (Nat.add_pos_left notNull _)
  | call reached c block fresh ih => exact ih.callIn fresh
  | reset before nested back ih =>
    obtain ⟨nodes,since,more,shape⟩ := later_more nested ih
    obtain ⟨w,result,restored,heap⟩ := more.reset shape
    rw [back,Option.some.injEq,Prod.mk.injEq] at result
    obtain ⟨rfl,-⟩ := result
    refine ih.like restored.chain fun no => ?_
    rw [heap,if_neg (by rw [no]; exact Bool.false_ne_true)]

end

/-- A reset restores what the checkpoint has kept, and frees exactly the blocks that came since,
    or nothing in a pool that lies in another pool. -/
theorem reset_undoes {inPool : Bool} {s t : State} (reached : Reached inPool s) (later : Later inPool s t) :
    ∃ u freed, acPoolReset inPool t (acPoolCheckpoint s.pool) = some (u,freed) ∧ Restored s u ∧
      if inPool then Kept s t u freed else Freed s t u freed := by
  obtain ⟨nodes,since,more,shape⟩ := later_more later (reached_shape reached)
  obtain ⟨u,result,restored,heap⟩ := more.reset shape
  refine ⟨u,_,result,restored,?_⟩
  cases inPool with
  | true => exact ⟨⟨since,more.heap⟩,rfl,heap⟩
  | false => exact ⟨since,more.heap,rfl,heap⟩

/-- A checkpoint right after the beginning, and one block more. -/
theorem reset_one_block : ∃ u freed, acPoolReset false (call (start 64 8) 1000 (.op (.grow 10))) (acPoolCheckpoint (start 64 8).pool) = some (u,freed) ∧
    Restored (start 64 8) u ∧ Freed (start 64 8) (call (start 64 8) 1000 (.op (.grow 10))) u freed := by
  have fresh : Fresh (start 64 8) 1000 := by
    refine ⟨by decide,?_,?_⟩
    · exact List.forall_mem_singleton.mpr (by decide)
    · exact List.forall_mem_singleton.mpr (by decide)
  exact @reset_undoes false _ _ (.init (by decide)) (.call (.same _) (.op (.grow 10)) 1000 (fun no => by cases no) fun n asked => fresh)

/-- In a pool that lies in another pool the block that came since is not freed. -/
theorem nested_keeps : ¬ ∀ (inPool : Bool) (s t : State), Reached inPool s → Later inPool s t →
    ∃ u freed, acPoolReset inPool t (acPoolCheckpoint s.pool) = some (u,freed) ∧ Restored s u ∧ Freed s t u freed := by
  intro all
  have fresh : Fresh (poolStart 64 8) 1000 := by
    refine ⟨by decide,?_,?_⟩
    · exact List.forall_mem_singleton.mpr (by decide)
    · exact List.forall_mem_singleton.mpr (by decide)
  obtain ⟨u,freed,result,restored,since,longer,addresses,heap⟩ := all true (poolStart 64 8) (call (poolStart 64 8) 1000 (.op (.grow 10)))
    (.poolInit (by decide)) (.call (.same _) (.op (.grow 10)) 1000 (fun no => by cases no) fun n asked => fresh)
  cases result
  have lengths := congrArg List.length heap
  revert lengths
  decide

end AnotherC.PoolReset
