import AnotherC.Search.TokenPasses

/-!
# `fix_nots` over linked tokens

Over a list of siblings in memory, `fix_nots` does what `nots` does to the trees
(`fixNots_spec`).
-/
namespace AnotherC.Tokens
open AnotherC.Lib.Text (Text)
open Tree (addrsEach)
set_option linter.unusedVariables false

/-! ## The first loop -/

theorem loose_free (a b c d : Option Addr) (loose : Loose a b c d) : Free a b c d := trivial

/-- What `fix_nots` does to siblings, with enough fuel. -/
def NotsWork (fuel : Nat) : Prop :=
  ∀ (pool : Pool) (parent : Option Addr) (p : Addr) (ts : List Tree), ts ≠ [] →
    Chain pool.cells Loose Loose parent none (some p) none ts → Used pool.fresh (addrsEach ts) →
    (∀ o, parent = some o → o < pool.fresh ∧ o ∉ addrsEach ts) → 2 * (addrsEach ts).length + 2 ≤ fuel →
    ∃ pool' p', fixNots fuel pool p = some (pool',p') ∧ pool'.fresh = (nots pool.fresh ts).1 ∧
      Chain pool'.cells Free Free parent none (some p') none (nots pool.fresh ts).2 ∧
      Outside pool pool' parent (addrsEach ts)

theorem nots_addr (t : Tree) (n : Addr) : (t.nots n).2.addr = t.addr := by
  cases t
  rw [Tree.nots]
  split <;> rfl

/-- The first step of a turn: the children of the token are fixed. -/
theorem notsChild_spec {fuel : Nat} (work : NotsWork fuel) {pool : Pool} {parent prev : Option Addr} {t : Tree}
    (stored : Stored pool.cells Loose Loose parent prev t) (used : Used pool.fresh t.addrs)
    (enough : 2 * t.addrs.length ≤ fuel) :
    ∃ pool1, (match (pool.cells t.addr).child with
      | some child =>
        if (pool.cells t.addr).type = .dquote then some pool
        else do
          let (pool,child) ← fixNots fuel pool child
          some (pool.setChild t.addr (some child))
      | none => some pool) = some pool1 ∧ pool1.fresh = (t.nots pool.fresh).1 ∧
      Stored pool1.cells Loose Free parent prev (t.nots pool.fresh).2 ∧
      (pool1.cells t.addr).next = (pool.cells t.addr).next ∧
      ∀ x < pool.fresh, x ∉ t.addrs → pool1.cells x = pool.cells x := by
  cases t with
  | node a type token child =>
    by_cases same : child = [] ∨ type = .dquote
    · refine ⟨pool,?_,?_,?_,rfl,fun x _ _ => rfl⟩
      · simp only [Tree.addr]
        rcases same with rfl | rfl
        · rw [show (pool.cells a).child = none from stored.2]
        · cases first : (pool.cells a).child with
          | none => rfl
          | some c => exact if_pos stored.1.1
      · rw [Tree.nots,if_pos (by rcases same with same | same <;> simp [same])]
      · rw [Tree.nots,if_pos (by rcases same with same | same <;> simp [same])]
        exact stored_mono loose_free (fun _ _ _ _ loose => loose) stored
    · rw [not_or] at same
      have below : Used pool.fresh ([a] ++ addrsEach child) := used
      have fixed := notsAll_owns below.right
      have owns : Owns pool.fresh (nots pool.fresh child).1 (addrsEach child) (addrsEach (nots pool.fresh child).2) :=
        fixed.trans (joinNots_owns (fixed.used below.right))
      obtain ⟨c,pool1,first,run,fresh,stored1,next,frame⟩ := fixChild_spec (fixNots fuel) stored same.1 used owns
        fun c first => by
          have chain := stored.2
          rw [first] at chain
          have out : ∀ o, some a = some o → o < pool.fresh ∧ o ∉ addrsEach child := by
            rintro o ⟨⟩
            exact ⟨used.below a (by simp [Tree.addrs]),(List.nodup_cons.mp used.once).1⟩
          obtain ⟨pool',c',run,fresh,chain',outside⟩ := work pool (some a) c child same.1 chain below.right out (by
            rw [Tree.addrs,List.length_cons] at enough
            omega)
          exact ⟨pool',c',run,fresh,chain',outside⟩
      rw [nots_node same.1 same.2]
      refine ⟨pool1,?_,fresh,stored1,next,frame⟩
      simp only [Tree.addr]
      rw [first]
      exact (if_neg (by rw [stored.1.1]; exact same.2)).trans run

section
variable {pool : Pool} {parent prev : Option Addr} {fuel : Nat}

/-- One turn of the first loop of `fix_nots`. -/
theorem countNots_turn {t : Tree} {ts : List Tree} (work : NotsWork fuel) {p : Option Addr}
    (chain : Chain pool.cells Loose Loose parent prev p none (t :: ts))
    (used : Used pool.fresh (addrsEach (t :: ts))) (enough : 2 * t.addrs.length ≤ fuel) (numNots numOthers : Nat) :
    ∃ pool1, countNots (fuel + 1) pool p numNots numOthers =
        (if t.isNot then
          match (pool1.cells t.addr).next with
          | some next => countNots fuel pool1 (pool1.cells next).next (numNots + 1) numOthers
          | none => countNots fuel pool1 none numNots numOthers
        else countNots fuel pool1 (pool1.cells t.addr).next numNots (numOthers + 1)) ∧
      p = some t.addr ∧ pool1.fresh = (t.nots pool.fresh).1 ∧
      Stored pool1.cells Loose Free parent prev (t.nots pool.fresh).2 ∧
      Chain pool1.cells Loose Loose parent (some t.addr) (pool1.cells t.addr).next none ts ∧
      Used pool1.fresh ((t.nots pool.fresh).2.addrs ++ addrsEach ts) ∧
      ∀ x < pool.fresh, x ∉ t.addrs → pool1.cells x = pool.cells x := by
  obtain ⟨rfl,stored,rest⟩ := chain
  rw [addrsEach] at used
  obtain ⟨pool1,step,fresh1,stored1,next1,frame⟩ := notsChild_spec work stored used.left enough
  have kind := stored_isNot stored1
  rw [nots_addr,nots_isNot] at kind
  have owns := (nots_owns t used.left).append used
  refine ⟨pool1,?_,rfl,fresh1,stored1,?_,?_,frame⟩
  · rw [countNots,← kind,next1]
    exact congrArg (Option.bind · _) step
  · rw [next1]
    exact chain_frame (fun x member => frame x (used.right.below x member) fun also =>
      ne_of_nodup used.once also member rfl) rest
  · rw [fresh1]
    exact owns.used used

/-- The first loop of `fix_nots` counts what `sortNots` sorts. -/
theorem countNots_spec {ts : List Tree} (work : ∀ k < fuel, NotsWork k) {p : Option Addr}
    (chain : Chain pool.cells Loose Loose parent prev p none ts) (used : Used pool.fresh (addrsEach ts))
    (enough : 2 * (addrsEach ts).length + 1 ≤ fuel) (numNots numOthers : Nat) :
    ∃ pool', countNots fuel pool p numNots numOthers =
        some (pool',numNots + (sortNots ts).1.length,numOthers + (sortNots ts).2.length) ∧
      pool'.fresh = (notsEach pool.fresh ts).1 ∧
      Chain pool'.cells Loose Free parent prev p none (notsEach pool.fresh ts).2 ∧
      ∀ x < pool.fresh, x ∉ addrsEach ts → pool'.cells x = pool.cells x := by
  have size (t : Tree) : 0 < t.addrs.length := by rw [addrs_eq]; simp
  induction ts using sortNots.induct generalizing fuel pool prev p numNots numOthers with
  | case1 =>
    obtain rfl : p = none := chain
    obtain ⟨fuel,rfl⟩ := exists_succ enough
    exact ⟨pool,rfl,rfl,rfl,fun x _ _ => rfl⟩
  | case2 t negation =>
    obtain ⟨fuel,rfl⟩ := exists_succ enough
    rw [addrsEach,addrsEach,List.append_nil] at enough
    obtain ⟨pool1,run,rfl,fresh1,stored1,rest,-,frame⟩ := countNots_turn (work fuel (Nat.lt_succ_self fuel)) chain used
      (by omega) numNots numOthers
    have last : (pool1.cells t.addr).next = none := rest
    have more := size t
    rw [sortNots_last negation,notsEach_last _ negation]
    refine ⟨pool1,?_,fresh1,⟨by rw [nots_addr],stored1,by rw [nots_addr]; exact last⟩,fun x inUse outside => ?_⟩
    · rw [run,if_pos negation,last]
      cases fuel with
      | zero => omega
      | succ fuel => rfl
    · exact frame x inUse (by simpa [addrsEach] using outside)
  | case3 t negation u us ih =>
    obtain ⟨fuel,rfl⟩ := exists_succ enough
    rw [addrsEach,addrsEach,List.length_append,List.length_append] at enough
    obtain ⟨pool1,run,rfl,fresh1,stored1,rest,used1,frame⟩ := countNots_turn (work fuel (Nat.lt_succ_self fuel)) chain
      used (by omega) numNots numOthers
    have more := size t
    obtain ⟨next,second,following⟩ := rest
    rw [addrsEach] at used1
    obtain ⟨pool',run',fresh',chain',frame'⟩ := ih (fun k less => work k (Nat.lt_succ_of_lt less)) following
      used1.right.right (by omega) (numNots + 1) numOthers
    rw [fresh1] at fresh' chain'
    rw [sortNots_pair negation,notsEach_pair _ negation]
    have late (x) (member : x ∈ (t.nots pool.fresh).2.addrs ++ u.addrs) : pool'.cells x = pool1.cells x := by
      rw [← List.append_assoc] at used1
      exact frame' x (used1.left.below x member) fun also => ne_of_nodup used1.once member also rfl
    have atT := late (t.nots pool.fresh).2.addr (by simp [addr_mem])
    have atU := late u.addr (by simp [addr_mem])
    rw [nots_addr] at atT
    refine ⟨pool',?_,fresh',?_,fun x inUse outside => ?_⟩
    · rw [run,if_pos negation,next]
      simp only
      rw [run',List.length_cons]
      congr 2
      rw [Nat.add_right_comm,Nat.add_assoc]
    · refine ⟨by rw [nots_addr],stored_frame (fun x member => late x (by simp [member])) stored1,?_⟩
      rw [nots_addr,atT]
      refine ⟨next,stored_frame (fun x member => late x (by simp [member])) ?_,?_⟩
      · exact stored_mono loose_free (fun _ _ _ _ loose => loose) second
      · rw [atU]
        exact chain'
    · simp only [addrsEach,List.mem_append,not_or] at outside
      have grows := (nots_owns t used.left).grows
      rw [← fresh1] at grows
      rw [frame' x (Nat.lt_of_lt_of_le inUse grows) outside.2.2,frame x inUse outside.1]
  | case4 t us other ih =>
    have other : t.isNot = false := by simpa using other
    obtain ⟨fuel,rfl⟩ := exists_succ enough
    rw [addrsEach,List.length_append] at enough
    obtain ⟨pool1,run,rfl,fresh1,stored1,rest,used1,frame⟩ := countNots_turn (work fuel (Nat.lt_succ_self fuel)) chain
      used (by omega) numNots numOthers
    have more := size t
    obtain ⟨pool',run',fresh',chain',frame'⟩ := ih (fun k less => work k (Nat.lt_succ_of_lt less)) rest
      used1.right (by omega) numNots (numOthers + 1)
    rw [fresh1] at fresh' chain'
    rw [sortNots_other other,notsEach_other _ other]
    have late (x) (member : x ∈ (t.nots pool.fresh).2.addrs) : pool'.cells x = pool1.cells x :=
      frame' x (used1.left.below x member) fun also => ne_of_nodup used1.once member also rfl
    have atT := late (t.nots pool.fresh).2.addr (addr_mem _)
    rw [nots_addr] at atT
    refine ⟨pool',?_,fresh',?_,fun x inUse outside => ?_⟩
    · rw [run,if_neg (by simp [other]),run',List.length_cons]
      congr 3
      rw [Nat.add_right_comm,Nat.add_assoc]
    · refine ⟨by rw [nots_addr],stored_frame (fun x member => late x member) stored1,?_⟩
      rw [nots_addr,atT]
      exact chain'
    · simp only [addrsEach,List.mem_append,not_or] at outside
      have grows := (nots_owns t used.left).grows
      rw [← fresh1] at grows
      rw [frame' x (Nat.lt_of_lt_of_le inUse grows) outside.2,frame x inUse outside.1]

end

/-! ## The second loop -/

/-- A token that has no sibling after it. -/
structure Alone (cells : Addr → Token) (t : Tree) : Prop where
  stored : Stored cells Free Free none none t
  last : (cells t.addr).next = none

theorem stored_free {cells : Addr → Token} {back below : Back} {parent prev parent' prev' : Option Addr} {t : Tree}
    (stored : Stored cells back below parent prev t) : Stored cells Free below parent' prev' t :=
  stored_touch stored rfl rfl rfl trivial fun a _ => rfl

theorem chain_free {cells : Addr → Token} {back below : Back} {parent prev parent' prev' p q : Option Addr}
    {ts : List Tree} (chain : Chain cells back below parent prev p q ts) :
    Chain cells Free below parent' prev' p q ts := by
  induction ts generalizing prev prev' p with
  | nil => exact chain
  | cons t ts ih => exact ⟨chain.1,stored_free chain.2.1,ih chain.2.2⟩

theorem Alone.frame {cells cells' : Addr → Token} {t : Tree} (alone : Alone cells t)
    (same : ∀ x ∈ t.addrs, cells' x = cells x) : Alone cells' t :=
  ⟨stored_frame same alone.stored,by rw [same _ (addr_mem t)]; exact alone.last⟩

/-- A token stays alone where only its links back change. -/
theorem Alone.touch {cells cells' : Addr → Token} {t : Tree} (alone : Alone cells t)
    (here : cells' t.addr = { cells t.addr with prev := (cells' t.addr).prev, parent := (cells' t.addr).parent })
    (same : ∀ x ∈ addrsEach t.child, cells' x = cells x) : Alone cells' t := by
  constructor
  case stored => exact stored_touch alone.stored (by rw [here]) (by rw [here]) (by rw [here]) trivial same
  case last =>
    rw [here]
    exact alone.last

/-- What a turn of the second loop writes: it unlinks the token `w` from the one
    after it. -/
def Unlinks (cells cells' : Addr → Token) (w : Addr) (after : Option Addr) : Prop :=
  ∀ x, cells' x = { cells x with
    next := if x = w then none else (cells x).next
    prev := if x = w ∨ after = some x then none else (cells x).prev }

section
variable {cells cells' : Addr → Token} {w : Addr} {after : Option Addr}

theorem Unlinks.off (unlinks : Unlinks cells cells' w after) {x : Addr} (other : x ≠ w) (later : after ≠ some x) :
    cells' x = cells x := by
  rw [unlinks x,if_neg other,if_neg (by simp [other,later])]

/-- The token that is unlinked. -/
theorem Unlinks.alone {t : Tree} (unlinks : Unlinks cells cells' t.addr after) {back : Back} {parent prev : Option Addr}
    (stored : Stored cells back Free parent prev t)
    (apart : ∀ x ∈ addrsEach t.child, x ≠ t.addr ∧ after ≠ some x) : Alone cells' t := by
  have here := unlinks t.addr
  constructor
  case stored =>
    refine stored_touch stored (by rw [here]) (by rw [here]) (by rw [here]) trivial fun x member => ?_
    exact unlinks.off (apart x member).1 (apart x member).2
  case last => rw [here,if_pos rfl]

/-- The list after it, whose first token has no predecessor now. -/
theorem Unlinks.chain (unlinks : Unlinks cells cells' w after) {parent prev : Option Addr} {ts : List Tree}
    (chain : Chain cells Loose Free parent prev after none ts) (once : (addrsEach ts).Nodup)
    (apart : w ∉ addrsEach ts) : Chain cells' Loose Free parent none after none ts := by
  cases ts with
  | nil => exact chain
  | cons t ts =>
    obtain ⟨rfl,stored,rest⟩ := chain
    rw [addrsEach,addrs_eq] at once apart
    have inner := List.nodup_append.mp once
    have off (x) (member : x ∈ t.addr :: addrsEach t.child ++ addrsEach ts) (other : x ≠ t.addr) :
        cells' x = cells x := by
      refine unlinks.off ?_ fun equal => other (Option.some.inj equal).symm
      rintro rfl
      exact apart member
    have here : cells' t.addr = { cells t.addr with prev := none } := by
      have notW : t.addr ≠ w := fun equal => apart (by simp [equal])
      rw [unlinks t.addr,if_neg notW,if_pos (.inr rfl)]
    refine ⟨rfl,?_,?_⟩
    · refine stored_touch stored (by rw [here]) (by rw [here]) (by rw [here]) ?_ fun x member => off x ?_ ?_
      · rw [here]
        exact ⟨(stored_links stored).1,.inr rfl⟩
      · simp [member]
      · rintro rfl
        exact (List.nodup_cons.mp inner.1).1 member
    · rw [here]
      exact chain_frame (fun x member => off x (by simp [member]) (ne_of_nodup once (by simp) member).symm) rest

end

theorem setNext_none (pool : Pool) (w x : Addr) :
    (pool.setNext w none).cells x = { pool.cells x with next := if x = w then none else (pool.cells x).next } := by
  by_cases equal : x = w
  · simp [equal,Pool.setNext_at]
  · simp [Pool.setNext_off _ _ _ equal,equal]

theorem setPrev_none (pool : Pool) (w x : Addr) :
    (pool.setPrev w none).cells x = { pool.cells x with prev := if x = w then none else (pool.cells x).prev } := by
  by_cases equal : x = w
  · simp [equal,Pool.setPrev_at]
  · simp [Pool.setPrev_off _ _ _ equal,equal]

theorem some_eq_symm (a x : Addr) : (some a = some x) = (x = a) :=
  propext ⟨fun equal => (Option.some.inj equal).symm,fun equal => congrArg some equal.symm⟩

theorem chain_first {cells : Addr → Token} {back below : Back} {parent prev p : Option Addr} {ts : List Tree}
    (chain : Chain cells back below parent prev p none ts) {x : Addr} (outside : x ∉ addrsEach ts) : p ≠ some x := by
  cases ts with
  | nil =>
    obtain rfl : p = none := chain
    simp
  | cons t ts =>
    obtain ⟨rfl,-⟩ := chain
    intro equal
    cases equal
    exact outside (by simp [addrsEach,addr_mem])

section
variable {pool : Pool} {t : Addr} (fuel : Nat) (nots others : List Addr)

theorem takeNots_other (other : isNot (pool.cells t).type (pool.cells t).token = false)
    (first : (pool.cells t).prev = none) :
    ∃ pool', takeNots (fuel + 1) pool (some t) nots others =
        takeNots fuel pool' (pool.cells t).next nots (others ++ [t]) ∧ pool'.fresh = pool.fresh ∧
      Unlinks pool.cells pool'.cells t (pool.cells t).next := by
  simp only [takeNots,other,Bool.false_eq_true,if_false,first]
  cases next : (pool.cells t).next with
  | none =>
    refine ⟨_,rfl,rfl,fun x => ?_⟩
    simp only [setPrev_none,setNext_none]
    simp
  | some u =>
    refine ⟨_,rfl,rfl,fun x => ?_⟩
    simp only [setPrev_none,setNext_none,some_eq_symm]
    by_cases same : x = t <;> by_cases later : x = u <;> simp [same,later]

theorem takeNots_pair (negation : isNot (pool.cells t).type (pool.cells t).token = true)
    (first : (pool.cells t).prev = none) {u : Addr} (next : (pool.cells t).next = some u) :
    ∃ pool', takeNots (fuel + 1) pool (some t) nots others =
        takeNots fuel pool' (pool.cells u).next (nots ++ [u]) others ∧ pool'.fresh = pool.fresh ∧
      Unlinks pool.cells pool'.cells u (pool.cells u).next := by
  simp only [takeNots,negation,if_true,first,next]
  have kept : ((pool.setPrev u none).cells u).next = (pool.cells u).next := by rw [Pool.setPrev_at]
  cases after : (pool.cells u).next with
  | none =>
    rw [after] at kept
    simp only [kept]
    refine ⟨_,rfl,rfl,fun x => ?_⟩
    simp only [setPrev_none,setNext_none]
    simp
  | some v =>
    rw [after] at kept
    simp only [kept]
    have still : (((pool.setPrev u none).setPrev v none).cells u).next = some v := by
      rw [setPrev_none]
      exact kept
    refine ⟨((pool.setPrev u none).setPrev v none).setNext u none,by rw [still],rfl,fun x => ?_⟩
    simp only [setPrev_none,setNext_none,some_eq_symm]
    by_cases same : x = u <;> by_cases later : x = v <;> simp [same,later]

end

/-- The second loop sets what is negated apart, and each token it keeps stands
    alone. -/
theorem takeNots_spec {pool : Pool} {fuel : Nat} {parent p : Option Addr} {ts : List Tree}
    (chain : Chain pool.cells Loose Free parent none p none ts) (once : (addrsEach ts).Nodup)
    (enough : ts.length < fuel) (nots others : List Addr) :
    ∃ pool', takeNots fuel pool p nots others =
        some (pool',nots ++ (sortNots ts).1.map Tree.addr,others ++ (sortNots ts).2.map Tree.addr) ∧
      pool'.fresh = pool.fresh ∧ (∀ t ∈ (sortNots ts).1 ++ (sortNots ts).2, Alone pool'.cells t) ∧
      ∀ x, x ∉ addrsEach ts → pool'.cells x = pool.cells x := by
  induction ts using sortNots.induct generalizing fuel pool p nots others with
  | case1 =>
    obtain ⟨fuel,rfl⟩ := exists_succ enough
    obtain rfl : p = none := chain
    exact ⟨pool,by simp [takeNots,sortNots],rfl,by simp [sortNots],fun x _ => rfl⟩
  | case2 t negation =>
    obtain ⟨fuel,rfl⟩ := exists_succ enough
    obtain ⟨rfl,stored,last⟩ := chain
    have last : (pool.cells t.addr).next = none := last
    have first : (pool.cells t.addr).prev = none := by simpa using (stored_links stored).2
    refine ⟨pool,?_,rfl,by simp [sortNots,negation],fun x _ => rfl⟩
    cases fuel with
    | zero => simp at enough
    | succ fuel => simp [takeNots,stored_isNot stored,negation,first,last,sortNots]
  | case3 t negation u us ih =>
    obtain ⟨fuel,rfl⟩ := exists_succ enough
    obtain ⟨rfl,stored,next,second,rest⟩ := chain
    have short : us.length < fuel := by
      simp only [List.length_cons] at enough
      omega
    rw [addrsEach,addrsEach] at once
    have later := (List.nodup_append.mp once).2.1
    have first : (pool.cells t.addr).prev = none := by simpa using (stored_links stored).2
    obtain ⟨pool1,run,fresh1,unlinks⟩ := takeNots_pair fuel nots others
      (by rw [stored_isNot stored]; exact negation) first next
    have outU (x) (member : x ∈ u.addrs) : x ∉ addrsEach us := fun also => ne_of_nodup later member also rfl
    have chain1 := unlinks.chain rest (List.nodup_append.mp later).2.1 (outU _ (addr_mem u))
    obtain ⟨pool',run',fresh',alone,same⟩ := ih chain1 (List.nodup_append.mp later).2.1 short (nots ++ [u.addr]) others
    have aloneU : Alone pool1.cells u := unlinks.alone second fun x member => by
      have inside : x ∈ u.addrs := by simp [addrs_eq,member]
      refine ⟨?_,chain_first rest (outU x inside)⟩
      rintro rfl
      have once := (List.nodup_append.mp later).1
      rw [addrs_eq] at once
      exact (List.nodup_cons.mp once).1 member
    refine ⟨pool',?_,fresh'.trans fresh1,?_,fun x outside => ?_⟩
    · rw [run,run',sortNots_pair negation]
      simp
    · rw [sortNots_pair negation]
      intro v member
      rcases List.mem_cons.mp member with rfl | member
      · exact aloneU.frame fun x inside => same x (outU x inside)
      · exact alone v member
    · simp only [addrsEach,List.mem_append,not_or] at outside
      rw [same x outside.2.2]
      refine unlinks.off ?_ (chain_first rest outside.2.2)
      rintro rfl
      exact outside.2.1 (addr_mem u)
  | case4 t us other ih =>
    obtain ⟨fuel,rfl⟩ := exists_succ enough
    obtain ⟨rfl,stored,rest⟩ := chain
    have other : t.isNot = false := by simpa using other
    rw [addrsEach] at once
    have once' := List.nodup_append.mp once
    have first : (pool.cells t.addr).prev = none := by simpa using (stored_links stored).2
    obtain ⟨pool1,run,fresh1,unlinks⟩ := takeNots_other fuel nots others
      (by rw [stored_isNot stored]; exact other) first
    have outT (x) (member : x ∈ t.addrs) : x ∉ addrsEach us := fun also => ne_of_nodup once member also rfl
    have chain1 := unlinks.chain rest once'.2.1 (outT _ (addr_mem t))
    obtain ⟨pool',run',fresh',alone,same⟩ := ih chain1 once'.2.1 (Nat.lt_of_succ_lt_succ enough) nots
      (others ++ [t.addr])
    have aloneT : Alone pool1.cells t := unlinks.alone stored fun x member => by
      have inside : x ∈ t.addrs := by simp [addrs_eq,member]
      refine ⟨?_,chain_first rest (outT x inside)⟩
      rintro rfl
      have once := once'.1
      rw [addrs_eq] at once
      exact (List.nodup_cons.mp once).1 member
    refine ⟨pool',?_,fresh'.trans fresh1,?_,fun x outside => ?_⟩
    · rw [run,run',sortNots_other other]
      simp
    · rw [sortNots_other other]
      intro v member
      rcases List.mem_append.mp member with member | member
      · exact alone v (by simp [member])
      · rcases List.mem_cons.mp member with rfl | member
        · exact aloneT.frame fun x inside => same x (outT x inside)
        · exact alone v (by simp [member])
    · simp only [addrsEach,List.mem_append,not_or] at outside
      rw [same x outside.2]
      refine unlinks.off ?_ (chain_first rest outside.2)
      rintro rfl
      exact outside.1 (addr_mem t)

/-! ## The tokens over what has been set apart -/

/-- The loop that makes siblings of tokens. -/
theorem link_spec (par : Addr) {pool : Pool} {l : Tree} {ts : List Tree} (first : Alone pool.cells l)
    (alone : ∀ t ∈ ts, Alone pool.cells t) (once : (addrsEach (l :: ts)).Nodup) :
    (link par pool l.addr (ts.map Tree.addr)).fresh = pool.fresh ∧
      Chain (link par pool l.addr (ts.map Tree.addr)).cells Free Free none none (some l.addr) none (l :: ts) ∧
      ∀ x, x ∉ addrsEach (l :: ts) → (link par pool l.addr (ts.map Tree.addr)).cells x = pool.cells x := by
  induction ts generalizing pool l with
  | nil => exact ⟨rfl,⟨rfl,first.stored,first.last⟩,fun x _ => rfl⟩
  | cons n ts ih =>
    rw [addrsEach] at once
    have inner := List.nodup_append.mp once
    have outL (x) (member : x ∈ l.addrs) : x ∉ addrsEach (n :: ts) := fun also => ne_of_nodup once member also rfl
    have inN : n.addr ∈ addrsEach (n :: ts) := mem_addrsEach (by simp) (addr_mem n)
    have apart : n.addr ≠ l.addr := fun equal => outL _ (addr_mem l) (equal ▸ inN)
    let pool1 := ((pool.setParent n.addr (some par)).setPrev n.addr (some l.addr)).setNext l.addr (some n.addr)
    have off (x) (notN : x ≠ n.addr) (notL : x ≠ l.addr) : pool1.cells x = pool.cells x := by
      rw [Pool.setNext_off _ _ _ notL,Pool.setPrev_off _ _ _ notN,Pool.setParent_off _ _ _ notN]
    have atN : pool1.cells n.addr = { pool.cells n.addr with prev := some l.addr, parent := some par } := by
      rw [Pool.setNext_off _ _ _ apart,Pool.setPrev_at,Pool.setParent_at]
    have atL : pool1.cells l.addr = { pool.cells l.addr with next := some n.addr } := by
      rw [Pool.setNext_at,Pool.setPrev_off _ _ _ apart.symm,Pool.setParent_off _ _ _ apart.symm]
    have once' := inner.2.1
    rw [addrsEach] at once'
    have later (x) (member : x ∈ addrsEach (n :: ts)) (notN : x ≠ n.addr) : pool1.cells x = pool.cells x := by
      refine off x notN ?_
      rintro rfl
      exact outL _ (addr_mem l) member
    have first1 : Alone pool1.cells n := by
      refine (alone n (by simp)).touch (by rw [atN]) fun x member => later x ?_ ?_
      · simp [addrsEach,addrs_eq,member]
      · rintro rfl
        have once := (List.nodup_append.mp once').1
        rw [addrs_eq] at once
        exact (List.nodup_cons.mp once).1 member
    have alone1 : ∀ t ∈ ts, Alone pool1.cells t := by
      intro t member
      refine (alone t (by simp [member])).frame fun x inside => later x ?_ ?_
      · exact mem_addrsEach (List.mem_cons_of_mem n member) inside
      · exact (ne_of_nodup once' (addr_mem n) (mem_addrsEach member inside)).symm
    obtain ⟨fresh,chain,same⟩ := ih first1 alone1 inner.2.1
    have atEnd : (link par pool l.addr ((n :: ts).map Tree.addr)).cells l.addr =
        { pool.cells l.addr with next := some n.addr } := (same _ (outL _ (addr_mem l))).trans atL
    refine ⟨fresh,⟨rfl,?_,?_⟩,fun x outside => ?_⟩
    · refine stored_touch first.stored (by rw [atEnd]) (by rw [atEnd]) (by rw [atEnd]) trivial fun x member => ?_
      have inside : x ∈ l.addrs := by simp [addrs_eq,member]
      refine (same x (outL x inside)).trans (off x ?_ ?_)
      · rintro rfl
        exact outL _ inside inN
      · rintro rfl
        have once := inner.1
        rw [addrs_eq] at once
        exact (List.nodup_cons.mp once).1 member
    · rw [atEnd]
      obtain ⟨_,stored,rest⟩ := chain
      exact ⟨rfl,stored_free stored,chain_free rest⟩
    · rw [addrsEach,List.mem_append,not_or] at outside
      refine (same x outside.2).trans (off x ?_ ?_)
      · rintro rfl
        exact outside.2 inN
      · rintro rfl
        exact outside.1 (addr_mem l)

/-- To end a list at its last token changes nothing. -/
theorem setNext_last (pool : Pool) {w : Addr} (last : (pool.cells w).next = none) (x : Addr) :
    (pool.setNext w none).cells x = pool.cells x := by
  rw [setNext_none]
  by_cases equal : x = w
  · rw [if_pos equal,equal,← last]
  · rw [if_neg equal]

/-- The token that stands for several. -/
theorem root_spec {pool : Pool} (type : TokenType) (token : Text) {ts : List Tree}
    (alone : ∀ t ∈ ts, Alone pool.cells t) (used : Used pool.fresh (addrsEach ts)) :
    ∃ pool', root pool type token (ts.map Tree.addr) =
        (pool',((rootOf pool.fresh type token ts).2.head?).map Tree.addr) ∧
      pool'.fresh = (rootOf pool.fresh type token ts).1 ∧
      (∀ t ∈ (rootOf pool.fresh type token ts).2, Alone pool'.cells t) ∧
      ∀ x < pool.fresh, x ∉ addrsEach ts → pool'.cells x = pool.cells x := by
  match ts with
  | [] => exact ⟨pool,rfl,rfl,alone,fun x _ _ => rfl⟩
  | [t] => exact ⟨pool,rfl,rfl,alone,fun x _ _ => rfl⟩
  | t :: u :: us =>
    have once := used.once
    rw [addrsEach] at once
    have inner := List.nodup_append.mp once
    have inT : t.addr ∈ addrsEach (t :: u :: us) := mem_addrsEach (by simp) (addr_mem t)
    let pool1 := pool.alloc ⟨type,token,none,none,some t.addr,none⟩
    let pool2 := (pool1.setParent t.addr (some pool.fresh)).setPrev t.addr none
    let l := (u :: us).getLast (by simp)
    have inL : l ∈ u :: us := List.getLast_mem _
    let pool3 := pool2.setNext l.addr none
    have old (x) (inUse : x < pool.fresh) : pool1.cells x = pool.cells x := Pool.alloc_off _ _ (Nat.ne_of_lt inUse)
    have off2 (x) (other : x ≠ t.addr) : pool2.cells x = pool1.cells x := by
      rw [Pool.setPrev_off _ _ _ other,Pool.setParent_off _ _ _ other]
    have outT (x) (member : x ∈ addrsEach (u :: us)) : x ≠ t.addr := (ne_of_nodup once (addr_mem t) member).symm
    have below (x) (member : x ∈ addrsEach (u :: us)) : x < pool.fresh := used.below x (by simp [addrsEach] at member ⊢; tauto)
    have closed : (pool2.cells l.addr).next = none := by
      have member : l.addr ∈ addrsEach (u :: us) := mem_addrsEach inL (addr_mem l)
      rw [off2 _ (outT _ member),old _ (below _ member)]
      exact (alone l (List.mem_cons_of_mem t inL)).last
    have same3 (x) : pool3.cells x = pool2.cells x := setNext_last pool2 closed x
    have inUse : t.addr < pool.fresh := used.below _ inT
    have atT : pool3.cells t.addr = { pool.cells t.addr with prev := none, parent := some pool.fresh } := by
      rw [same3,Pool.setPrev_at,Pool.setParent_at,old _ inUse]
    have first : Alone pool3.cells t := by
      refine (alone t (by simp)).touch (by rw [atT]) fun x member => ?_
      have inside : x ∈ t.addrs := by simp [addrs_eq,member]
      rw [same3,off2,old x (used.below x (mem_addrsEach (by simp) inside))]
      rintro rfl
      have once := inner.1
      rw [addrs_eq] at once
      exact (List.nodup_cons.mp once).1 member
    have others : ∀ v ∈ u :: us, Alone pool3.cells v := by
      intro v member
      refine (alone v (List.mem_cons_of_mem t member)).frame fun x inside => ?_
      have within := mem_addrsEach member inside
      rw [same3,off2 x (outT x within),old x (below x within)]
    obtain ⟨fresh,chain,same⟩ := link_spec pool.fresh first others used.once
    have notNew : pool.fresh ∉ addrsEach (t :: u :: us) := fun member => Nat.lt_irrefl _ (used.below _ member)
    have atNew : (link pool.fresh pool3 t.addr ((u :: us).map Tree.addr)).cells pool.fresh =
        ⟨type,token,none,none,some t.addr,none⟩ := by
      rw [same _ notNew,same3,off2 _ (Nat.ne_of_gt inUse)]
      exact Pool.alloc_at ..
    refine ⟨link pool.fresh pool3 t.addr ((u :: us).map Tree.addr),?_,fresh,fun v member => ?_,fun x inUse outside => ?_⟩
    · have found : ((u :: us).map Tree.addr).getLast (by simp) = l.addr := List.getLast_map _
      change (link pool.fresh (pool2.setNext (((u :: us).map Tree.addr).getLast (by simp)) none) t.addr _,_) = _
      rw [found]
      rfl
    · obtain rfl : v = .node pool.fresh type token (t :: u :: us) := by simpa [rootOf] using member
      constructor
      case stored =>
        rw [Stored,atNew]
        exact ⟨⟨rfl,rfl,trivial⟩,chain_free chain⟩
      case last => exact congrArg Token.next atNew
    · rw [same x outside,same3,off2 x fun equal => outside (equal ▸ inT),old x inUse]

theorem addr_notMem_child {t : Tree} (once : t.addrs.Nodup) {x : Addr} (member : x ∈ addrsEach t.child) : x ≠ t.addr := by
  rintro rfl
  rw [addrs_eq] at once
  exact (List.nodup_cons.mp once).1 member

/-- The end of `fix_nots`: the new `not` gets its two children. -/
theorem pair_spec {pool : Pool} {parent : Option Addr} (p : Addr) {r s : Tree} (aloneR : Alone pool.cells r)
    (aloneS : Alone pool.cells s) (used : Used pool.fresh (r.addrs ++ s.addrs))
    (apart : ∀ o, parent = some o → o < pool.fresh ∧ o ∉ r.addrs ++ s.addrs) :
    let pool1 := replaceChild (pool.alloc ⟨.not,notText,none,none,none,parent⟩) parent p pool.fresh
    let pool2 := pool1.setChild pool.fresh (some r.addr)
    let pool3 := ((pool2.setParent r.addr (some pool.fresh)).setNext r.addr (some s.addr)).setPrev r.addr none
    let pool' := ((pool3.setPrev s.addr (some r.addr)).setParent s.addr (some pool.fresh)).setNext s.addr none
    pool'.fresh = pool.fresh + 1 ∧
      Chain pool'.cells Free Free parent none (some pool.fresh) none [.node pool.fresh .not notText [r,s]] ∧
      Outside pool pool' parent (r.addrs ++ s.addrs) := by
  intro pool1 pool2 pool3 pool'
  have notParent (o) (member : o ∈ r.addrs ++ s.addrs) : parent ≠ some o := fun equal => (apart o equal).2 member
  obtain ⟨fresh1,other1,child1⟩ := replaceChild_cells (pool.alloc ⟨.not,notText,none,none,none,parent⟩) parent p
    pool.fresh
  have inR : r.addr ∈ r.addrs ++ s.addrs := List.mem_append_left _ (addr_mem r)
  have inS : s.addr ∈ r.addrs ++ s.addrs := List.mem_append_right _ (addr_mem s)
  have rs : r.addr ≠ s.addr := ne_of_nodup used.once (addr_mem r) (addr_mem s)
  have new (x) (member : x ∈ r.addrs ++ s.addrs) : x ≠ pool.fresh := Nat.ne_of_lt (used.below x member)
  have off (x) (notR : x ≠ r.addr) (notS : x ≠ s.addr) : pool'.cells x = pool2.cells x := by
    rw [Pool.setNext_off _ _ _ notS,Pool.setParent_off _ _ _ notS,Pool.setPrev_off _ _ _ notS,
      Pool.setPrev_off _ _ _ notR,Pool.setNext_off _ _ _ notR,Pool.setParent_off _ _ _ notR]
  have off2 (x) (notNew : x ≠ pool.fresh) : pool2.cells x = pool1.cells x := Pool.setChild_off _ _ _ notNew
  have old (x) (member : x ∈ r.addrs ++ s.addrs) : pool1.cells x = pool.cells x := by
    rw [other1 x (notParent x member),Pool.alloc_off _ _ (new x member)]
  have atR : pool'.cells r.addr =
      { pool.cells r.addr with parent := some pool.fresh, next := some s.addr, prev := none } := by
    rw [Pool.setNext_off _ _ _ rs,Pool.setParent_off _ _ _ rs,Pool.setPrev_off _ _ _ rs,Pool.setPrev_at,
      Pool.setNext_at,Pool.setParent_at,off2 _ (new _ inR),old _ inR]
  have atS : pool'.cells s.addr =
      { pool.cells s.addr with parent := some pool.fresh, next := none, prev := some r.addr } := by
    rw [Pool.setNext_at,Pool.setParent_at,Pool.setPrev_at,Pool.setPrev_off _ _ _ rs.symm,
      Pool.setNext_off _ _ _ rs.symm,Pool.setParent_off _ _ _ rs.symm,off2 _ (new _ inS),old _ inS]
  have atNew : pool'.cells pool.fresh = ⟨.not,notText,none,none,some r.addr,parent⟩ := by
    have notSelf : parent ≠ some pool.fresh := fun equal => Nat.lt_irrefl _ (apart _ equal).1
    rw [off _ (new _ inR).symm (new _ inS).symm,Pool.setChild_at,other1 _ notSelf,Pool.alloc_at]
  refine ⟨fresh1,⟨rfl,⟨by rw [atNew]; exact ⟨rfl,rfl,trivial⟩,?_⟩,congrArg Token.next atNew⟩,⟨?_,?_⟩⟩
  · rw [atNew]
    refine ⟨rfl,?_,?_⟩
    · refine stored_touch aloneR.stored (by rw [atR]) (by rw [atR]) (by rw [atR]) trivial fun x member => ?_
      have inside : x ∈ r.addrs := by simp [addrs_eq,member]
      have within := List.mem_append_left s.addrs inside
      rw [off x (addr_notMem_child (List.nodup_append.mp used.once).1 member)
        (ne_of_nodup used.once inside (addr_mem s)),off2 x (new x within),old x within]
    · rw [atR]
      refine ⟨rfl,?_,congrArg Token.next atS⟩
      refine stored_touch aloneS.stored (by rw [atS]) (by rw [atS]) (by rw [atS]) trivial fun x member => ?_
      have inside : x ∈ s.addrs := by simp [addrs_eq,member]
      have within := List.mem_append_right r.addrs inside
      rw [off x (ne_of_nodup used.once (addr_mem r) inside).symm
        (addr_notMem_child (List.nodup_append.mp used.once).2.1 member),off2 x (new x within),old x within]
  · intro x inUse outside other
    have notR : x ≠ r.addr := fun equal => outside (equal ▸ inR)
    have notS : x ≠ s.addr := fun equal => outside (equal ▸ inS)
    rw [off x notR notS,off2 x (Nat.ne_of_lt inUse),other1 x other,Pool.alloc_off _ _ (Nat.ne_of_lt inUse)]
  · intro o inUse outside same
    have notR : o ≠ r.addr := fun equal => outside (equal ▸ inR)
    have notS : o ≠ s.addr := fun equal => outside (equal ▸ inS)
    rw [off o notR notS,off2 o (Nat.ne_of_lt inUse),child1 o,Pool.alloc_off _ _ (Nat.ne_of_lt inUse)]

theorem rootOf_single (n : Addr) (type : TokenType) (token : Text) {ts : List Tree} (nonempty : ts ≠ []) :
    ∃ r, (rootOf n type token ts).2 = [r] := by
  match ts with
  | [t] => exact ⟨t,rfl⟩
  | t :: u :: us => exact ⟨_,rfl⟩

/-- The part of `fix_nots` for siblings of both kinds. -/
theorem liftNots_spec {pool : Pool} {parent : Option Addr} {p : Addr} {ts : List Tree}
    (chain : Chain pool.cells Loose Free parent none (some p) none ts) (used : Used pool.fresh (addrsEach ts))
    (apart : ∀ o, parent = some o → o < pool.fresh ∧ o ∉ addrsEach ts)
    (negated : (sortNots ts).1 ≠ []) (positive : (sortNots ts).2 ≠ []) :
    ∃ pool' p', liftNots pool p = some (pool',p') ∧ pool'.fresh = (joinNots pool.fresh ts).1 ∧
      Chain pool'.cells Free Free parent none (some p') none (joinNots pool.fresh ts).2 ∧
      Outside pool pool' parent (addrsEach ts) := by
  have sub : (addrsEach (sortNots ts).1 ++ addrsEach (sortNots ts).2).Subperm (addrsEach ts) := by
    simpa only [addrsEach_eq] using sortNots_flatMap Tree.addrs ts
  have sorted := used.subperm sub
  have owner : (pool.cells p).parent = parent := by
    cases ts with
    | nil => exact absurd rfl negated
    | cons t ts =>
      obtain ⟨first,stored,-⟩ := chain
      cases first
      exact (stored_links stored).1
  obtain ⟨pool1,run1,fresh1,alone1,same1⟩ := takeNots_spec chain used.once (Nat.lt_succ_of_le used.trees_le) [] []
  rw [← fresh1] at sorted
  obtain ⟨pool2,run2,fresh2,alone2,same2⟩ := root_spec .or orText (fun t member => alone1 t (by simp [member])) sorted.left
  obtain ⟨r,oneR⟩ := rootOf_single pool1.fresh .or orText negated
  have first := (rootOf_owns .or orText sorted.left).append sorted
  have later := first.used sorted
  rw [← fresh2] at first later
  have others : ∀ t ∈ (sortNots ts).2, Alone pool2.cells t := by
    intro t member
    refine (alone1 t (by simp [member])).frame fun x inside => ?_
    have within := mem_addrsEach member inside
    exact same2 x (sorted.right.below x within) fun also => ne_of_nodup sorted.once also within rfl
  obtain ⟨pool3,run3,fresh3,alone3,same3⟩ := root_spec .openParen parenText others later.right
  obtain ⟨s,oneS⟩ := rootOf_single pool2.fresh .openParen parenText positive
  have both := first.trans ((rootOf_owns .openParen parenText later.right).prepend later)
  have after := both.used sorted
  rw [← fresh3] at both after
  rw [oneR] at run2 alone2 later both after
  rw [oneS] at run3 alone3 both after
  have shape (t : Tree) : addrsEach [t] = t.addrs := List.append_nil _
  rw [shape] at later both after
  rw [shape] at both after
  have aloneR : Alone pool3.cells r := by
    refine (alone2 r (by simp)).frame fun x inside => ?_
    exact same3 x (later.left.below x inside) fun also => ne_of_nodup later.once inside also rfl
  have old (x) (inUse : x < pool.fresh) (outside : x ∉ addrsEach ts) :
      pool3.cells x = pool.cells x ∧ x ∉ r.addrs ++ s.addrs := by
    have before := same1 x outside
    rw [← fresh1] at inUse
    have notIn : x ∉ addrsEach (sortNots ts).1 ++ addrsEach (sortNots ts).2 := fun member => outside (sub.subset member)
    rw [List.mem_append,not_or] at notIn
    constructor
    · rw [same3 x (Nat.lt_of_lt_of_le inUse first.grows) notIn.2,same2 x inUse notIn.1,before]
    · exact both.notMem inUse fun inside => outside (sub.subset inside)
  have grows : pool.fresh ≤ pool3.fresh := fresh1 ▸ both.grows
  obtain ⟨fresh',chain',outside'⟩ := pair_spec p aloneR (alone3 s (by simp)) after fun o equal =>
    ⟨Nat.lt_of_lt_of_le (apart o equal).1 grows,(old o (apart o equal).1 (apart o equal).2).2⟩
  refine ⟨_,pool3.fresh,?_,fresh'.trans ?_,?_,⟨fun x inUse outside other => ?_,fun o inUse outside same => ?_⟩⟩
  · rw [liftNots,owner,run1]
    simp only [Option.bind_eq_bind,Option.bind_some,List.nil_append,run2,run3]
    rfl
  · rw [joinNots,if_neg (by simp [negated,positive])]
    simp only
    rw [fresh3,fresh2,fresh1]
  · rw [joinNots,if_neg (by simp [negated,positive])]
    simp only
    rw [← fresh1,← fresh2,← fresh3,oneR,oneS]
    exact chain'
  · obtain ⟨same,notIn⟩ := old x inUse outside
    rw [outside'.other x (Nat.lt_of_lt_of_le inUse grows) notIn other,same]
  · obtain ⟨cell,notIn⟩ := old o inUse outside
    rw [outside'.parent o (Nat.lt_of_lt_of_le inUse grows) notIn same,cell]

theorem fixNots_spec (fuel : Nat) : NotsWork fuel := by
  induction fuel using Nat.strong_induction_on with
  | _ fuel ih =>
    intro pool parent p ts nonempty chain used apart enough
    match fuel with
    | fuel + 1 =>
      obtain ⟨pool1,run,fresh1,chain1,frame⟩ := countNots_spec (fun k less => ih k (Nat.lt_succ_of_lt less)) chain used
        (by omega) 0 0
      obtain ⟨same,turned⟩ := sortNots_notsEach pool.fresh ts
      have owns := notsAll_owns used
      have used1 := owns.used used
      have grows := owns.grows
      rw [← fresh1] at used1 grows
      rw [nots,← fresh1]
      by_cases both : 0 < (sortNots ts).1.length ∧ 0 < (sortNots ts).2.length
      · have negated : (sortNots (notsEach pool.fresh ts).2).1 ≠ [] := by
          rw [same]
          exact List.length_pos_iff.mp both.1
        have positive : (sortNots (notsEach pool.fresh ts).2).2 ≠ [] := by
          refine List.length_pos_iff.mp ?_
          rw [← turned.length_eq]
          exact both.2
        obtain ⟨pool',p',lift,fresh',chain',outside⟩ := liftNots_spec chain1 used1 (fun o equal =>
          ⟨Nat.lt_of_lt_of_le (apart o equal).1 grows,owns.notMem (apart o equal).1 (apart o equal).2⟩) negated positive
        refine ⟨pool',p',?_,fresh',chain',⟨fun x inUse notIn other => ?_,fun o inUse notIn equal => ?_⟩⟩
        · rw [fixNots,run]
          simp only [Option.bind_eq_bind,Option.bind_some,Nat.zero_add]
          rw [if_pos both,lift]
        · rw [outside.other x (Nat.lt_of_lt_of_le inUse grows) (owns.notMem inUse notIn) other,frame x inUse notIn]
        · rw [outside.parent o (Nat.lt_of_lt_of_le inUse grows) (owns.notMem inUse notIn) equal,frame o inUse notIn]
      · have one : joinNots pool1.fresh (notsEach pool.fresh ts).2 = (pool1.fresh,(notsEach pool.fresh ts).2) := by
          refine joinNots_one pool1.fresh ?_
          rw [same]
          rcases not_and_or.mp both with none | none
          · exact .inl (List.length_eq_zero_iff.mp (Nat.eq_zero_of_not_pos none))
          · refine .inr (List.length_eq_zero_iff.mp ?_)
            rw [← turned.length_eq]
            exact Nat.eq_zero_of_not_pos none
        rw [one]
        refine ⟨pool1,p,?_,rfl,chain_free chain1,⟨fun x inUse notIn _ => frame x inUse notIn,fun o inUse notIn _ => ?_⟩⟩
        · rw [fixNots,run]
          simp only [Option.bind_eq_bind,Option.bind_some,Nat.zero_add]
          rw [if_neg both]
        · rw [frame o inUse notIn]

end AnotherC.Tokens
