import AnotherC.Search.TokenOwns

/-!
# `fix_ors` over linked tokens

Over a list of siblings in memory, `fix_ors` does what `ors` does to the trees
(`fixOrs_spec`).
-/
namespace AnotherC.Tokens
open AnotherC.Lib.Text (Text)
open Tree (addrsEach)
set_option linter.unusedVariables false

/-! ## Writes to a token -/

namespace Pool

section
variable (pool : Pool) (a : Addr) (p : Option Addr) {x : Addr}

theorem setNext_at : (pool.setNext a p).cells a = { pool.cells a with next := p } := Function.update_self ..
theorem setPrev_at : (pool.setPrev a p).cells a = { pool.cells a with prev := p } := Function.update_self ..
theorem setChild_at : (pool.setChild a p).cells a = { pool.cells a with child := p } := Function.update_self ..
theorem setParent_at : (pool.setParent a p).cells a = { pool.cells a with parent := p } := Function.update_self ..

theorem setNext_off (other : x ≠ a) : (pool.setNext a p).cells x = pool.cells x := Function.update_of_ne other ..
theorem setPrev_off (other : x ≠ a) : (pool.setPrev a p).cells x = pool.cells x := Function.update_of_ne other ..
theorem setChild_off (other : x ≠ a) : (pool.setChild a p).cells x = pool.cells x := Function.update_of_ne other ..
theorem setParent_off (other : x ≠ a) : (pool.setParent a p).cells x = pool.cells x := Function.update_of_ne other ..

theorem alloc_at (t : Token) : (pool.alloc t).cells pool.fresh = t := Function.update_self ..
theorem alloc_off (t : Token) (other : x ≠ pool.fresh) : (pool.alloc t).cells x = pool.cells x :=
  Function.update_of_ne other ..

end

end Pool

section
variable {pool : Pool} {below : Back} {parent prev : Option Addr} {ts : List Tree}

/-- The loop that gives every token of a chain its parent. -/
theorem adopt_spec (par : Addr) {p : Option Addr} (chain : Chain pool.cells Loose below parent prev p none ts)
    (once : (addrsEach ts).Nodup) {fuel : Nat} (enough : ts.length < fuel) :
    ∃ pool', adopt fuel pool par p = some pool' ∧ pool'.fresh = pool.fresh ∧
      Chain pool'.cells Loose below (some par) prev p none ts ∧
      ∀ x, x ∉ addrsEach ts → pool'.cells x = pool.cells x := by
  induction ts generalizing pool prev p fuel with
  | nil =>
    obtain ⟨fuel,rfl⟩ := Nat.exists_eq_succ_of_ne_zero (Nat.ne_of_gt (Nat.zero_lt_of_lt enough))
    obtain rfl : p = none := chain
    exact ⟨pool,rfl,rfl,rfl,fun x _ => rfl⟩
  | cons t ts ih =>
    obtain ⟨fuel,rfl⟩ := Nat.exists_eq_succ_of_ne_zero (Nat.ne_of_gt (Nat.zero_lt_of_lt enough))
    obtain ⟨rfl,stored,rest⟩ := chain
    rw [addrsEach,addrs_eq] at once
    have apart := List.nodup_append.mp once
    have child : ∀ a ∈ addrsEach t.child, a ≠ t.addr := by
      rintro a member rfl
      exact (List.nodup_cons.mp apart.1).1 member
    let pool1 := pool.setParent t.addr (some par)
    have later : Chain pool1.cells Loose below parent (some t.addr) (pool.cells t.addr).next none ts :=
      chain_frame (fun a member => Pool.setParent_off _ _ _ (ne_of_nodup once (by simp) member).symm) rest
    have next : (pool1.cells t.addr).next = (pool.cells t.addr).next := by
      rw [Pool.setParent_at]
    obtain ⟨pool',run,fresh,chain',same⟩ := ih later apart.2.1 (Nat.lt_of_succ_lt_succ enough)
    have untouched : ∀ a ∈ t.addrs, pool'.cells a = pool1.cells a := by
      intro a member
      rw [addrs_eq] at member
      exact same a fun also => ne_of_nodup once member also rfl
    refine ⟨pool',?_,fresh,⟨rfl,?_,?_⟩,fun x outside => ?_⟩
    · rw [adopt]
      change adopt fuel pool1 par (pool1.cells t.addr).next = some pool'
      rw [next,run]
    · refine stored_frame untouched (stored_touch stored ?_ ?_ ?_ ?_ fun a member => ?_)
      · rw [Pool.setParent_at]
      · rw [Pool.setParent_at]
      · rw [Pool.setParent_at]
      · rw [Pool.setParent_at]
        exact ⟨rfl,(stored_links stored).2⟩
      · exact Pool.setParent_off _ _ _ (child a member)
    · rw [untouched t.addr (addr_mem t),next]
      exact chain'
    · rw [addrsEach,List.mem_append,not_or] at outside
      rw [same x outside.2]
      refine Pool.setParent_off _ _ _ fun equal => outside.1 ?_
      rw [equal]
      exact addr_mem t

theorem last_spec {back : Back} {p : Addr} {t : Tree}
    (chain : Chain pool.cells back below parent prev (some p) none (ts ++ [t])) {fuel : Nat}
    (enough : ts.length < fuel) : last fuel pool p = some t.addr := by
  induction ts generalizing prev p fuel with
  | nil =>
    obtain ⟨fuel,rfl⟩ := Nat.exists_eq_succ_of_ne_zero (Nat.ne_of_gt (Nat.zero_lt_of_lt enough))
    obtain ⟨first,-,next⟩ := chain
    cases first
    have next : (pool.cells t.addr).next = none := next
    rw [last,next]
  | cons u ts ih =>
    obtain ⟨fuel,rfl⟩ := Nat.exists_eq_succ_of_ne_zero (Nat.ne_of_gt (Nat.zero_lt_of_lt enough))
    obtain ⟨first,-,rest⟩ := chain
    cases first
    rw [last]
    cases next : (pool.cells u.addr).next with
    | none =>
      rw [next] at rest
      cases ts <;> cases rest.1
    | some q =>
      rw [next] at rest
      exact ih rest (Nat.lt_of_succ_lt_succ enough)

/-- A token added after the children. -/
theorem addChild_spec {o : Addr} {k : Tree} (chain : Chain pool.cells Loose below (some o) none (pool.cells o).child none ts)
    (kid : Stored pool.cells Loose below (some o) none k) (alone : (pool.cells k.addr).next = none)
    (once : (o :: addrsEach (ts ++ [k])).Nodup) (enough : ts.length ≤ pool.fresh) :
    ∃ pool', addChild pool o k.addr = some pool' ∧ pool'.fresh = pool.fresh ∧
      Chain pool'.cells Loose below (some o) none (pool'.cells o).child none (ts ++ [k]) ∧
      pool'.cells o = { pool.cells o with child := (pool'.cells o).child } ∧
      ∀ x, x ∉ o :: addrsEach (ts ++ [k]) → pool'.cells x = pool.cells x := by
  rw [List.nodup_cons,addrsEach_append] at once
  obtain ⟨apart,once⟩ := once
  have kAddrs : addrsEach [k] = k.addr :: addrsEach k.child := by rw [addrsEach,addrsEach,List.append_nil,addrs_eq]
  rw [kAddrs] at apart once
  have inner := List.nodup_append.mp once
  rcases List.eq_nil_or_concat' ts with rfl | ⟨xs,l,rfl⟩
  · have none : (pool.cells o).child = none := chain
    have kOther : k.addr ≠ o := fun equal => apart (by simp [equal])
    have same (a) (other : a ≠ o) := Pool.setChild_off pool o (some k.addr) other
    refine ⟨pool.setChild o (some k.addr),by rw [addChild,none],rfl,?_,by rw [Pool.setChild_at],fun x outside => ?_⟩
    · rw [Pool.setChild_at]
      refine ⟨rfl,stored_frame (fun a member => same a ?_) kid,?_⟩
      · rintro rfl
        rw [addrs_eq] at member
        exact apart (List.mem_append_right _ member)
      · rw [same _ kOther]
        exact alone
    · exact same x fun equal => outside (by simp [equal])
  · obtain ⟨first,child⟩ : ∃ first, (pool.cells o).child = some first := by
      cases child : (pool.cells o).child with
      | none => rw [child] at chain; cases xs <;> cases chain.1
      | some first => exact ⟨first,rfl⟩
    rw [child] at chain
    rw [List.length_append] at enough
    have found := last_spec chain (enough : xs.length < pool.fresh)
    obtain ⟨before,stored,-⟩ := chain_snoc.mp chain
    rw [addrsEach_append] at apart inner once
    have lAddrs : addrsEach [l] = l.addr :: addrsEach l.child := by rw [addrsEach,addrsEach,List.append_nil,addrs_eq]
    rw [lAddrs] at apart inner once
    have kl : k.addr ≠ l.addr := (ne_of_nodup once (by simp) (by simp)).symm
    have ok : o ≠ k.addr := fun equal => apart (by simp [equal])
    have ol : o ≠ l.addr := fun equal => apart (by simp [equal])
    let pool' := (pool.setPrev k.addr (some l.addr)).setNext l.addr (some k.addr)
    have off (a) (notK : a ≠ k.addr) (notL : a ≠ l.addr) : pool'.cells a = pool.cells a := by
      rw [Pool.setNext_off _ _ _ notL,Pool.setPrev_off _ _ _ notK]
    have atL : pool'.cells l.addr = { pool.cells l.addr with next := some k.addr } := by
      rw [Pool.setNext_at,Pool.setPrev_off _ _ _ kl.symm]
    have atK : pool'.cells k.addr = { pool.cells k.addr with prev := some l.addr } := by
      rw [Pool.setNext_off _ _ _ kl,Pool.setPrev_at]
    have parts := List.nodup_append.mp inner.1
    refine ⟨pool',by rw [addChild,child]; simp only [found]; rfl,rfl,?_,by rw [off o ok ol],fun x outside => ?_⟩
    · rw [off o ok ol,child,chain_snoc,chain_snoc]
      refine ⟨⟨chain_frame (fun a member => off a ?_ ?_) before,?_,by rw [atL]⟩,?_,by rw [atK]; exact alone⟩
      · exact ne_of_nodup once (by simp [member]) (by simp)
      · exact ne_of_nodup inner.1 member (by simp)
      · refine stored_touch stored (by rw [atL]) (by rw [atL]) (by rw [atL]) ?_ fun a member => off a ?_ ?_
        · rw [atL]
          exact stored_links stored
        · exact ne_of_nodup once (by simp [member]) (by simp)
        · rintro rfl
          exact (List.nodup_cons.mp parts.2.1).1 member
      · refine stored_touch kid (by rw [atK]) (by rw [atK]) (by rw [atK]) ?_ fun a member => off a ?_ ?_
        · rw [atK,lastAddr_snoc]
          exact ⟨(stored_links kid).1,.inl rfl⟩
        · rintro rfl
          exact (List.nodup_cons.mp inner.2.1).1 member
        · exact (ne_of_nodup once (by simp) (by simp [member])).symm
    · rw [addrsEach_append,addrsEach_append,lAddrs,kAddrs] at outside
      refine off x ?_ ?_ <;> rintro rfl <;> simp at outside

end

/-- What a write leaves alone: the tokens in use that are not among `l`, and all
    of the token at `o` but its first child. -/
structure Untouched (pool pool' : Pool) (o : Addr) (l : List Addr) : Prop where
  parent : pool'.cells o = { pool.cells o with child := (pool'.cells o).child }
  other : ∀ x < pool.fresh, x ≠ o → x ∉ l → pool'.cells x = pool.cells x

theorem wrapEach_cons (n : Addr) (seg : List Tree) (segs : List (List Tree)) :
    wrapEach n (seg :: segs) = ((wrapEach (wrapEach n [seg]).1 segs).1,
      (wrapEach n [seg]).2 ++ (wrapEach (wrapEach n [seg]).1 segs).2) := by
  match seg with
  | [] => rfl
  | [t] => rfl
  | t :: u :: us => rfl

section
variable {pool : Pool} {parent : Option Addr} {o : Addr} {kids : List Tree}

/-- One turn of the loop over the starts. -/
theorem addStart_spec {start : Addr} {seg : List Tree}
    (children : Chain pool.cells Loose Loose (some o) none (pool.cells o).child none kids)
    (chain : Chain pool.cells Loose Loose parent none (some start) none seg) (nonempty : seg ≠ [])
    (used : Used pool.fresh (o :: (addrsEach kids ++ addrsEach seg))) :
    ∃ pool', addStart pool o start = some pool' ∧ pool'.fresh = (wrapEach pool.fresh [seg]).1 ∧
      Chain pool'.cells Loose Loose (some o) none (pool'.cells o).child none (kids ++ (wrapEach pool.fresh [seg]).2) ∧
      Untouched pool pool' o (addrsEach kids ++ addrsEach seg) := by
  obtain ⟨notIn,once⟩ := List.nodup_cons.mp used.once
  have inner : Used pool.fresh (addrsEach kids ++ addrsEach seg) := used.sublist (List.sublist_cons_self _ _)
  have short := inner.left.trees_le
  match seg with
  | [t] =>
    obtain ⟨first,stored,next⟩ := chain
    cases first
    have next : (pool.cells t.addr).next = none := next
    have alone : addrsEach [t] = t.addr :: addrsEach t.child := by
      rw [addrsEach,addrsEach,List.append_nil,addrs_eq]
    have inT : t.addr ∈ addrsEach [t] := by simp [alone]
    have ot : o ≠ t.addr := fun equal => notIn (by simp [equal,inT])
    let pool1 := pool.setParent t.addr (some o)
    have off (a) (other : a ≠ t.addr) : pool1.cells a = pool.cells a := Pool.setParent_off _ _ _ other
    have atT : pool1.cells t.addr = { pool.cells t.addr with parent := some o } := Pool.setParent_at ..
    have children1 : Chain pool1.cells Loose Loose (some o) none (pool1.cells o).child none kids := by
      rw [off o ot]
      exact chain_frame (fun a member => off a (ne_of_nodup once member inT)) children
    have kid : Stored pool1.cells Loose Loose (some o) none t := by
      refine stored_touch stored (by rw [atT]) (by rw [atT]) (by rw [atT]) ?_ fun a member => off a ?_
      · rw [atT]
        exact ⟨rfl,(stored_links stored).2⟩
      · rintro rfl
        rw [alone] at once
        exact (List.nodup_cons.mp (List.nodup_append.mp once).2.1).1 member
    obtain ⟨pool',run,fresh,chain',owner,same⟩ := addChild_spec children1 kid (by rw [atT]; exact next)
      (by rw [addrsEach_append]; exact used.once) short
    refine ⟨pool',?_,fresh,chain',⟨?_,fun x inUse notO outside => ?_⟩⟩
    · rw [addStart,if_neg (by simp [next])]
      exact run
    · rw [owner,off o ot]
    · rw [same x (by rw [addrsEach_append]; simp [notO]; simpa using outside)]
      refine off x ?_
      rintro rfl
      exact outside (by simp [inT])
  | t :: u :: us =>
    have ⟨first,_,next⟩ := chain
    cases first
    have next : (pool.cells t.addr).next = some u.addr := next.1
    let pool1 := pool.alloc ⟨.openParen,parenText,none,none,some t.addr,some o⟩
    have off (a) (inUse : a < pool.fresh) : pool1.cells a = pool.cells a := Pool.alloc_off _ _ (Nat.ne_of_lt inUse)
    have chain1 : Chain pool1.cells Loose Loose parent none (some t.addr) none (t :: u :: us) :=
      chain_frame (fun a member => off a (inner.right.below a member)) chain
    obtain ⟨pool2,run2,fresh2,chain2,same2⟩ := adopt_spec pool.fresh chain1 inner.right.once
      (show (t :: u :: us).length < pool1.fresh from Nat.lt_succ_of_le inner.right.trees_le)
    have newOut : pool.fresh ∉ addrsEach (t :: u :: us) :=
      fun member => Nat.lt_irrefl _ (inner.right.below _ member)
    have oIn : o < pool.fresh := used.below o (by simp)
    have oOut : o ∉ addrsEach (t :: u :: us) := fun member => notIn (by simp [member])
    have atNew : pool2.cells pool.fresh = ⟨.openParen,parenText,none,none,some t.addr,some o⟩ := by
      rw [same2 _ newOut]
      exact Pool.alloc_at ..
    have children2 : Chain pool2.cells Loose Loose (some o) none (pool2.cells o).child none kids := by
      rw [same2 o oOut,off o oIn]
      refine chain_frame (fun a member => ?_) children
      rw [same2 a fun also => ne_of_nodup once member also rfl,off a (inner.left.below a member)]
    have kid : Stored pool2.cells Loose Loose (some o) none (.node pool.fresh .openParen parenText (t :: u :: us)) := by
      rw [Stored,atNew]
      exact ⟨⟨rfl,rfl,rfl,.inl rfl⟩,chain2⟩
    have kidAddrs : addrsEach (kids ++ [.node pool.fresh .openParen parenText (t :: u :: us)]) =
        addrsEach kids ++ pool.fresh :: addrsEach (t :: u :: us) := by
      rw [addrsEach_append,addrsEach,addrsEach,List.append_nil,Tree.addrs]
    have once2 : (o :: addrsEach (kids ++ [.node pool.fresh .openParen parenText (t :: u :: us)])).Nodup := by
      rw [kidAddrs]
      have moved := ((used.grow (Nat.le_succ pool.fresh)).refl.cons used).once
      refine (List.Perm.nodup_iff ?_).mp moved
      exact (List.Perm.swap _ _ _).trans (List.perm_middle.symm.cons o)
    obtain ⟨pool',run,fresh,chain',owner,same⟩ := addChild_spec children2 kid (by simp only [Tree.addr]; rw [atNew]) once2
      (by rw [fresh2]; exact short.trans (Nat.le_succ _))
    refine ⟨pool',?_,?_,chain',⟨?_,fun x inUse notO outside => ?_⟩⟩
    · rw [addStart,if_pos (by simp [next])]
      change (adopt pool1.fresh pool1 pool.fresh (some t.addr)).bind _ = _
      rw [run2]
      exact run
    · rw [fresh,fresh2]
      rfl
    · rw [owner,same2 o oOut,off o oIn]
    · rw [List.mem_append,not_or] at outside
      have notNew : x ≠ pool.fresh := Nat.ne_of_lt inUse
      rw [same x ?_,same2 x outside.2,off x inUse]
      rw [kidAddrs]
      simp only [List.mem_cons,List.mem_append,not_or]
      exact ⟨notO,outside.1,notNew,outside.2⟩

/-- A part of the siblings in memory. -/
def StartsAt (cells : Addr → Token) (parent : Option Addr) (seg : List Tree) (start : Addr) : Prop :=
  seg ≠ [] ∧ Chain cells Loose Loose parent none (some start) none seg

/-- The loop over the starts gives the new `or` its children. -/
theorem addStarts_spec {segs : List (List Tree)} {starts : List Addr}
    (children : Chain pool.cells Loose Loose (some o) none (pool.cells o).child none kids)
    (chains : List.Forall₂ (StartsAt pool.cells parent) segs starts)
    (used : Used pool.fresh (o :: (addrsEach kids ++ addrsEach segs.flatten))) :
    ∃ pool', addStarts o pool starts = some pool' ∧ pool'.fresh = (wrapEach pool.fresh segs).1 ∧
      Chain pool'.cells Loose Loose (some o) none (pool'.cells o).child none (kids ++ (wrapEach pool.fresh segs).2) ∧
      Untouched pool pool' o (addrsEach kids ++ addrsEach segs.flatten) := by
  induction segs generalizing pool kids starts with
  | nil =>
    cases chains
    refine ⟨pool,rfl,rfl,?_,⟨rfl,fun x _ _ _ => rfl⟩⟩
    simpa [wrapEach] using children
  | cons seg segs ih =>
    obtain _ | ⟨first,rest⟩ := chains
    rename_i start starts
    rw [List.flatten_cons,addrsEach_append,← List.append_assoc] at used
    have here : Used pool.fresh (o :: (addrsEach kids ++ addrsEach seg)) :=
      used.sublist ((List.sublist_append_left _ _).cons_cons o)
    obtain ⟨pool1,run1,fresh1,children1,touched1⟩ := addStart_spec children first.2 first.1 here
    have single : [seg].flatten = seg := by simp
    have owns : Owns pool.fresh (wrapEach pool.fresh [seg]).1 (addrsEach seg)
        (addrsEach (wrapEach pool.fresh [seg]).2) := by
      have inner : Used pool.fresh (addrsEach [seg].flatten) := by
        rw [single]
        exact (here.sublist (List.sublist_cons_self _ _)).right
      have wrapped := wrapEach_owns inner
      rwa [single] at wrapped
    have later : Owns pool.fresh pool1.fresh ((o :: addrsEach kids) ++ addrsEach seg ++ addrsEach segs.flatten)
        ((o :: addrsEach kids) ++ addrsEach (wrapEach pool.fresh [seg]).2 ++ addrsEach segs.flatten) := by
      rw [fresh1]
      have here : Used pool.fresh ((o :: addrsEach kids) ++ addrsEach seg) := here
      exact (owns.prepend here).append used
    have used1 : Used pool1.fresh (o :: (addrsEach (kids ++ (wrapEach pool.fresh [seg]).2) ++ addrsEach segs.flatten)) := by
      have := later.used used
      rwa [addrsEach_append]
    have apart : ∀ a ∈ addrsEach segs.flatten, a ≠ o ∧ a ∉ addrsEach kids ++ addrsEach seg := by
      intro a member
      obtain ⟨notIn,once⟩ := List.nodup_cons.mp used.once
      constructor
      · rintro rfl
        exact notIn (by simp [member])
      · exact fun also => ne_of_nodup once also member rfl
    have chains1 : List.Forall₂ (StartsAt pool1.cells parent) segs starts := by
      have both := (List.forall₂_and_left (p := (· ∈ segs)) segs starts).mpr ⟨fun x member => member,rest⟩
      refine both.imp fun part begin related => ⟨related.2.1,chain_frame (fun a member => ?_) related.2.2⟩
      have inside : a ∈ addrsEach segs.flatten := by
        rw [addrsEach_eq] at member ⊢
        obtain ⟨t,within,below⟩ := List.mem_flatMap.mp member
        exact List.mem_flatMap.mpr ⟨t,List.mem_flatten.mpr ⟨part,related.1,within⟩,below⟩
      exact touched1.other a (used.below a (by simp [inside])) (apart a inside).1 (apart a inside).2
    obtain ⟨pool',run,fresh,children',touched⟩ := ih children1 chains1 used1
    rw [wrapEach_cons,← fresh1]
    refine ⟨pool',?_,fresh,?_,⟨?_,fun x inUse notO outside => ?_⟩⟩
    · rw [addStarts,run1]
      exact run
    · rw [List.append_assoc] at children'
      exact children'
    · rw [touched.parent,touched1.parent]
    · rw [List.flatten_cons,addrsEach_append,← List.append_assoc,List.mem_append,not_or] at outside
      have notNew : x ∉ addrsEach (kids ++ (wrapEach pool.fresh [seg]).2) ++ addrsEach segs.flatten := by
        rw [addrsEach_append,List.mem_append,List.mem_append,not_or,not_or]
        rw [List.mem_append,not_or] at outside
        exact ⟨⟨outside.1.1,owns.notMem inUse outside.1.2⟩,outside.2⟩
      rw [touched.other x (Nat.lt_of_lt_of_le inUse later.grows) notO notNew,
        touched1.other x inUse notO outside.1]

end

/-! ## The loop over the siblings -/

/-- What a pass leaves alone: the tokens in use that are not among `l`, and of the
    parent all but its first child. -/
structure Outside (pool pool' : Pool) (parent : Option Addr) (l : List Addr) : Prop where
  other : ∀ x < pool.fresh, x ∉ l → parent ≠ some x → pool'.cells x = pool.cells x
  parent : ∀ o < pool.fresh, o ∉ l → parent = some o →
    pool'.cells o = { pool.cells o with child := (pool'.cells o).child }

theorem replaceChild_cells (pool : Pool) (parent : Option Addr) (resp new : Addr) :
    (replaceChild pool parent resp new).fresh = pool.fresh ∧
      (∀ x, parent ≠ some x → (replaceChild pool parent resp new).cells x = pool.cells x) ∧
      ∀ x, (replaceChild pool parent resp new).cells x =
        { pool.cells x with child := ((replaceChild pool parent resp new).cells x).child } := by
  cases parent with
  | none => exact ⟨rfl,fun x _ => rfl,fun x => rfl⟩
  | some o =>
    rw [replaceChild]
    split
    · refine ⟨rfl,fun x other => ?_,fun x => ?_⟩
      · exact Pool.setChild_off _ _ _ fun equal => other (by rw [equal])
      · by_cases equal : x = o
        · rw [equal,Pool.setChild_at]
        · rw [Pool.setChild_off _ _ _ equal]
    · exact ⟨rfl,fun x _ => rfl,fun x => rfl⟩

section
variable {pool : Pool} {parent : Option Addr}

/-- The end of `fix_ors`. -/
theorem liftOrs_spec (resp : Addr) {st : Option Addr} {bh : List Addr} (whole : List Tree) {cur : List Tree}
    {segs : List (List Tree)} (unsplit : segs = [] → Chain pool.cells Loose Loose parent none (some resp) none whole)
    (chains : List.Forall₂ (StartsAt pool.cells parent) segs bh)
    (current : Chain pool.cells Loose Loose parent none st none cur)
    (used : Used pool.fresh (addrsEach (partsOf (whole,cur,segs)).flatten))
    (apart : ∀ o, parent = some o → o < pool.fresh ∧ o ∉ addrsEach (partsOf (whole,cur,segs)).flatten) :
    let joined := if segs.isEmpty then (pool.fresh,whole)
      else ((wrapEach (pool.fresh + 1) (partsOf (whole,cur,segs))).1,
        [Tree.node pool.fresh .or orText (wrapEach (pool.fresh + 1) (partsOf (whole,cur,segs))).2])
    ∃ pool' p', liftOrs pool resp st bh = some (pool',p') ∧ pool'.fresh = joined.1 ∧
      Chain pool'.cells Loose Loose parent none (some p') none joined.2 ∧
      Outside pool pool' parent (addrsEach (partsOf (whole,cur,segs)).flatten) := by
  obtain _ | ⟨first,rest⟩ := chains
  · exact ⟨pool,resp,rfl,rfl,unsplit rfl,⟨fun x _ _ _ => rfl,fun o _ _ _ => rfl⟩⟩
  rename_i seg start segs bh
  intro joined
  -- the starts are those of all parts
  have all : List.Forall₂ (StartsAt pool.cells parent)
      (partsOf (whole,cur,seg :: segs)) ((start :: bh) ++ st.toList) := by
    cases cur with
    | nil =>
      obtain rfl : st = none := current
      simpa [partsOf] using List.Forall₂.cons first rest
    | cons c cs =>
      have begin := current.1
      subst begin
      exact List.rel_append (.cons first rest) (.cons ⟨by simp,current⟩ .nil)
  have owner : (pool.cells start).parent = parent := by
    obtain ⟨nonempty,chain⟩ := first
    cases seg with
    | nil => exact absurd rfl nonempty
    | cons t ts =>
      obtain ⟨begin,stored,-⟩ := chain
      cases begin
      exact (stored_links stored).1
  let pool1 := pool.alloc ⟨.or,orText,none,none,none,parent⟩
  let pool2 := replaceChild pool1 parent resp pool.fresh
  obtain ⟨fresh2,other2,child2⟩ := replaceChild_cells pool1 parent resp pool.fresh
  have notParent : parent ≠ some pool.fresh := fun equal => Nat.lt_irrefl _ (apart _ equal).1
  have atNew : pool2.cells pool.fresh = ⟨.or,orText,none,none,none,parent⟩ := by
    rw [other2 _ notParent]
    exact Pool.alloc_at ..
  have off (x) (inUse : x < pool.fresh) : pool1.cells x = pool.cells x := Pool.alloc_off _ _ (Nat.ne_of_lt inUse)
  have moved : List.Forall₂ (StartsAt pool2.cells parent)
      (partsOf (whole,cur,seg :: segs)) ((start :: bh) ++ st.toList) := by
    have both := (List.forall₂_and_left (p := (· ∈ partsOf (whole,cur,seg :: segs))) _ _).mpr
      ⟨fun x member => member,all⟩
    refine both.imp fun part begin related => ⟨related.2.1,chain_frame (fun a member => ?_) related.2.2⟩
    have inside := (addrsEach_sublist (List.sublist_flatten_of_mem related.1)).subset member
    rw [other2 a fun equal => (apart a equal).2 inside,off a (used.below a inside)]
  have used2 : Used pool2.fresh (pool.fresh :: (addrsEach [] ++ addrsEach (partsOf (whole,cur,seg :: segs)).flatten)) := by
    rw [fresh2]
    have grown := (used.grow (Nat.le_succ pool.fresh)).refl.cons used
    exact grown.used used
  have empty : Chain pool2.cells Loose Loose (some pool.fresh) none (pool2.cells pool.fresh).child none [] := by
    rw [atNew]
    rfl
  obtain ⟨pool',run,fresh,chain,touched⟩ := addStarts_spec empty moved used2
  refine ⟨pool',pool.fresh,?_,?_,?_,⟨fun x inUse outside other => ?_,fun o inUse outside same => ?_⟩⟩
  · rw [liftOrs.eq_def]
    simp only [owner]
    cases st with
    | none =>
      rw [Option.toList,List.append_nil] at run
      change (addStarts pool.fresh pool2 (start :: bh)).bind _ = _
      rw [run]
      rfl
    | some st =>
      change (addStarts pool.fresh pool2 ((start :: bh) ++ [st])).bind _ = _
      rw [show (start :: bh) ++ [st] = (start :: bh) ++ (some st).toList from rfl,run]
      rfl
  · rw [fresh,fresh2]
    rfl
  · have atEnd := touched.parent
    rw [atNew] at atEnd
    rw [fresh2] at chain
    refine ⟨rfl,⟨⟨by rw [atEnd],by rw [atEnd],by rw [atEnd]; exact ⟨rfl,.inl rfl⟩⟩,chain⟩,?_⟩
    simp only [Tree.addr]
    rw [atEnd]
    rfl
  · rw [touched.other x (by rw [fresh2]; exact Nat.lt_succ_of_lt inUse) (Nat.ne_of_lt inUse) (by simpa using outside),
      other2 x other,off x inUse]
  · rw [touched.other o (by rw [fresh2]; exact Nat.lt_succ_of_lt inUse) (Nat.ne_of_lt inUse) (by simpa using outside),
      ← off o inUse]
    exact child2 o

end

/-- A token whose children a pass has fixed. -/
theorem fixChild_spec (fix : Pool → Addr → Option (Pool × Addr)) {pool : Pool} {back below below' : Back}
    {parent prev : Option Addr} {a fresh' : Addr} {type : TokenType} {token : Text} {child kids : List Tree}
    (stored : Stored pool.cells back below parent prev (.node a type token child)) (nonempty : child ≠ [])
    (used : Used pool.fresh (a :: addrsEach child)) (owns : Owns pool.fresh fresh' (addrsEach child) (addrsEach kids))
    (fixed : ∀ c, (pool.cells a).child = some c → ∃ pool' c', fix pool c = some (pool',c') ∧ pool'.fresh = fresh' ∧
      Chain pool'.cells below' below' (some a) none (some c') none kids ∧
      Outside pool pool' (some a) (addrsEach child)) :
    ∃ c pool1, (pool.cells a).child = some c ∧
      ((fix pool c).bind fun r => some (r.1.setChild a (some r.2))) = some pool1 ∧ pool1.fresh = fresh' ∧
      Stored pool1.cells back below' parent prev (.node a type token kids) ∧
      (pool1.cells a).next = (pool.cells a).next ∧
      ∀ x < pool.fresh, x ∉ a :: addrsEach child → pool1.cells x = pool.cells x := by
  obtain ⟨here,deep⟩ := stored
  obtain ⟨c,first⟩ : ∃ c, (pool.cells a).child = some c := by
    cases first : (pool.cells a).child with
    | none => exact absurd ((chain_empty deep).mp first) nonempty
    | some c => exact ⟨c,rfl⟩
  obtain ⟨pool',c',run,fresh,chain,outside⟩ := fixed c first
  have aIn : a < pool.fresh := used.below a (by simp)
  have aOut : a ∉ addrsEach child := (List.nodup_cons.mp used.once).1
  have cell := outside.parent a aIn aOut rfl
  have atA : (pool'.setChild a (some c')).cells a = { pool.cells a with child := some c' } := by
    rw [Pool.setChild_at,cell]
  have off (x) (other : x ≠ a) : (pool'.setChild a (some c')).cells x = pool'.cells x := Pool.setChild_off _ _ _ other
  refine ⟨c,pool'.setChild a (some c'),first,by rw [run]; rfl,fresh,⟨?_,?_⟩,by rw [atA],fun x inUse other => ?_⟩
  · rw [atA]
    exact here
  · rw [atA]
    refine chain_frame (fun x member => off x ?_) chain
    rintro rfl
    exact owns.notMem aIn aOut member
  · simp only [List.mem_cons,not_or] at other
    rw [off x other.1,outside.other x inUse other.2 fun equal => other.1 (Option.some.inj equal).symm]

/-- What `fix_ors` does to siblings, with enough fuel. -/
def OrsWork (fuel : Nat) : Prop :=
  ∀ (pool : Pool) (parent : Option Addr) (p : Addr) (ts : List Tree), ts ≠ [] →
    Chain pool.cells Exact Exact parent none (some p) none ts → Used pool.fresh (addrsEach ts) →
    (∀ o, parent = some o → o < pool.fresh ∧ o ∉ addrsEach ts) → 2 * (addrsEach ts).length + 2 ≤ fuel →
    ∃ pool' p', fixOrs fuel pool p = some (pool',p') ∧ pool'.fresh = (ors pool.fresh ts).1 ∧
      Chain pool'.cells Loose Loose parent none (some p') none (ors pool.fresh ts).2 ∧
      Outside pool pool' parent (addrsEach ts)

theorem ors_addr (t : Tree) (n : Addr) : (t.ors n).2.addr = t.addr := by
  cases t
  rw [Tree.ors]
  split <;> rfl

/-- The first step of a turn: the children of the token are fixed. -/
theorem orsChild_spec {fuel : Nat} (work : OrsWork fuel) {pool : Pool} {parent prev : Option Addr} {t : Tree}
    (stored : Stored pool.cells Exact Exact parent prev t) (used : Used pool.fresh t.addrs)
    (enough : 2 * t.addrs.length ≤ fuel) :
    ∃ pool1, (match (pool.cells t.addr).child with
      | some child =>
        if (pool.cells t.addr).type = .dquote then some pool
        else do
          let (pool,child) ← fixOrs fuel pool child
          some (pool.setChild t.addr (some child))
      | none => some pool) = some pool1 ∧ pool1.fresh = (t.ors pool.fresh).1 ∧
      Stored pool1.cells Exact Loose parent prev (t.ors pool.fresh).2 ∧
      (pool1.cells t.addr).next = (pool.cells t.addr).next ∧
      ∀ x < pool.fresh, x ∉ t.addrs → pool1.cells x = pool.cells x := by
  cases t with
  | node a type token child =>
    by_cases same : child = [] ∨ type = .dquote
    · refine ⟨pool,?_,?_,?_,rfl,fun x _ _ => rfl⟩
      · simp only [Tree.addr]
        rcases same with rfl | rfl
        · rw [show (pool.cells a).child = none from stored.2]
        · cases first : (pool.cells a).child with
          | none => rfl
          | some c => exact if_pos stored.1.1
      · rw [Tree.ors,if_pos (by rcases same with same | same <;> simp [same])]
      · rw [Tree.ors,if_pos (by rcases same with same | same <;> simp [same])]
        exact stored_mono exact_loose (fun _ _ _ _ exact => exact) stored
    · rw [not_or] at same
      have below : Used pool.fresh ([a] ++ addrsEach child) := used
      have fixed := orsAll_owns below.right
      have owns : Owns pool.fresh (ors pool.fresh child).1 (addrsEach child) (addrsEach (ors pool.fresh child).2) :=
        fixed.trans (joinOrs_owns (fixed.used below.right))
      obtain ⟨c,pool1,first,run,fresh,stored1,next,frame⟩ := fixChild_spec (fixOrs fuel) stored same.1 used owns
        fun c first => work pool (some a) c child same.1 (first ▸ stored.2) below.right (fun o equal => by
          cases equal
          exact ⟨used.below a (by simp [Tree.addrs]),(List.nodup_cons.mp used.once).1⟩) (by
            rw [Tree.addrs,List.length_cons] at enough
            omega)
      rw [ors_node same.1 same.2]
      refine ⟨pool1,?_,fresh,stored1,next,frame⟩
      simp only [Tree.addr]
      rw [first]
      exact (if_neg (by rw [stored.1.1]; exact same.2)).trans run

theorem cutOr_cells (pool : Pool) (t : Addr) (next : Option Addr) : (cutOr pool t next).fresh = pool.fresh ∧
    ∀ x, (cutOr pool t next).cells x = { pool.cells x with
      next := if (pool.cells t).prev = some x then none else (pool.cells x).next
      prev := if next = some x then none else (pool.cells x).prev } := by
  have cutNext (l : Addr) (x : Addr) : (pool.setNext l none).cells x =
      { pool.cells x with next := if some l = some x then none else (pool.cells x).next } := by
    by_cases equal : x = l
    · simp [equal,Pool.setNext_at]
    · simp [Pool.setNext_off _ _ _ equal,Ne.symm equal]
  have cutPrev (pool : Pool) (u : Addr) (x : Addr) : (pool.setPrev u none).cells x =
      { pool.cells x with prev := if some u = some x then none else (pool.cells x).prev } := by
    by_cases equal : x = u
    · simp [equal,Pool.setPrev_at]
    · simp [Pool.setPrev_off _ _ _ equal,Ne.symm equal]
  cases before : (pool.cells t).prev with
  | none =>
    cases next with
    | none => simp [cutOr,before]
    | some u =>
      simp only [cutOr,before,cutPrev]
      exact ⟨rfl,fun x => by simp⟩
  | some l =>
    cases next with
    | none =>
      simp only [cutOr,before,cutNext]
      exact ⟨rfl,fun x => by simp⟩
    | some u =>
      simp only [cutOr,before,cutPrev,cutNext]
      exact ⟨rfl,fun _ => trivial⟩

/-- A list is closed after its last token. -/
theorem chain_close {cells cells' : Addr → Token} {back below : Back} {parent prev p q : Option Addr}
    {ts : List Tree} {t : Tree} (chain : Chain cells back below parent prev p q (ts ++ [t]))
    (once : (addrsEach (ts ++ [t])).Nodup) (last : cells' t.addr = { cells t.addr with next := none })
    (same : ∀ x ∈ addrsEach (ts ++ [t]), x ≠ t.addr → cells' x = cells x) :
    Chain cells' back below parent prev p none (ts ++ [t]) := by
  have tAddrs : addrsEach [t] = t.addr :: addrsEach t.child := by rw [addrsEach,addrsEach,List.append_nil,addrs_eq]
  rw [addrsEach_append,tAddrs] at once same
  obtain ⟨before,stored,-⟩ := chain_snoc.mp chain
  refine chain_snoc.mpr ⟨chain_frame (fun a member => same a (by simp [member]) ?_) before,?_,by rw [last]⟩
  · exact ne_of_nodup once member (by simp)
  · refine stored_touch stored (by rw [last]) (by rw [last]) (by rw [last]) ?_ fun a member =>
      same a (by simp [member]) ?_
    · rw [last]
      exact stored_links stored
    · rintro rfl
      exact (List.nodup_cons.mp (List.nodup_append.mp once).2.1).1 member

/-- The parts that the loop of `fix_ors` has found when it comes to `t`. -/
structure Parts (cells : Addr → Token) (parent : Option Addr) (p : Addr) (t st : Option Addr) (bh : List Addr)
    (done whole cur : List Tree) (segs : List (List Tree)) : Prop where
  current : Chain cells Loose Loose parent none st t cur
  complete : List.Forall₂ (StartsAt cells parent) segs bh
  unsplit : segs = [] → (∃ lead, whole = lead ++ cur) ∧ Chain cells Loose Loose parent none (some p) t whole ∧
    whole.Sublist done
  kept : (segs.flatten ++ cur).Sublist done

section
variable {cells cells' : Addr → Token} {parent t st : Option Addr} {p : Addr} {bh : List Addr}
variable {done whole cur : List Tree} {segs : List (List Tree)}

theorem starts_frame {bh : List Addr} (complete : List.Forall₂ (StartsAt cells parent) segs bh)
    (same : ∀ x ∈ addrsEach segs.flatten, cells' x = cells x) : List.Forall₂ (StartsAt cells' parent) segs bh := by
  have both := (List.forall₂_and_left (p := (· ∈ segs)) segs bh).mpr ⟨fun x member => member,complete⟩
  refine both.imp fun seg start related => ⟨related.2.1,chain_frame (fun a member => same a ?_) related.2.2⟩
  exact (addrsEach_sublist (List.sublist_flatten_of_mem related.1)).subset member

theorem Parts.frame (parts : Parts cells parent p t st bh done whole cur segs)
    (same : ∀ x ∈ addrsEach done, cells' x = cells x) : Parts cells' parent p t st bh done whole cur segs := by
  have inside := (addrsEach_sublist parts.kept).subset
  rw [addrsEach_append] at inside
  constructor
  case current => exact chain_frame (fun a member => same a (inside (by simp [member]))) parts.current
  case complete => exact starts_frame parts.complete fun x member => same x (inside (by simp [member]))
  case unsplit =>
    intro empty
    obtain ⟨lead,chain,sublist⟩ := parts.unsplit empty
    exact ⟨lead,chain_frame (fun a member => same a ((addrsEach_sublist sublist).subset member)) chain,sublist⟩
  case kept => exact parts.kept

variable {u : Tree}

theorem lastAddr_append (prev : Option Addr) (xs ys : List Tree) :
    lastAddr prev (xs ++ ys) = lastAddr (lastAddr prev xs) ys := by
  induction xs generalizing prev with
  | nil => rfl
  | cons x xs ih => exact ih _

theorem lastAddr_nonempty {ts : List Tree} (nonempty : ts ≠ []) (prev prev' : Option Addr) :
    lastAddr prev ts = lastAddr prev' ts := by
  cases ts with
  | nil => exact absurd rfl nonempty
  | cons t ts => rfl

/-- The token at `t` is linked back to the one before it, or to none. -/
theorem Parts.loose (parts : Parts cells parent p (some u.addr) st bh done whole cur segs) (empty : segs = [])
    (stored : Stored cells Exact Loose parent (lastAddr none cur) u) :
    Stored cells Loose Loose parent (lastAddr none whole) u := by
  obtain ⟨⟨lead,rfl⟩,-,-⟩ := parts.unsplit empty
  have back := stored_links stored
  refine stored_touch stored rfl rfl rfl ⟨back.1,?_⟩ fun a _ => rfl
  cases cur with
  | nil => exact .inr back.2
  | cons c cs =>
    rw [lastAddr_append,lastAddr_nonempty (by simp) _ none]
    exact .inl back.2

theorem Parts.other (parts : Parts cells parent p (some u.addr) st bh done whole cur segs)
    (stored : Stored cells Exact Loose parent (lastAddr none cur) u) :
    Parts cells parent p (cells u.addr).next st bh (done ++ [u]) (whole ++ [u]) (cur ++ [u]) segs := by
  constructor
  case current =>
    exact chain_snoc.mpr ⟨parts.current,stored_mono (fun _ _ _ _ loose => loose) exact_loose stored,rfl⟩
  case complete => exact parts.complete
  case unsplit =>
    intro empty
    obtain ⟨⟨lead,shape⟩,chain,sublist⟩ := parts.unsplit empty
    exact ⟨⟨lead,by simp [shape]⟩,chain_snoc.mpr ⟨chain,parts.loose empty stored,rfl⟩,sublist.append (.refl _)⟩
  case kept =>
    rw [← List.append_assoc]
    exact parts.kept.append (.refl _)

/-- An `or` that no operand precedes only goes by. -/
theorem Parts.skip (parts : Parts cells parent p (some u.addr) st bh done whole [] segs)
    (stored : Stored cells Exact Loose parent none u) :
    Parts cells parent p (cells u.addr).next (cells u.addr).next bh (done ++ [u]) (whole ++ [u]) [] segs := by
  constructor
  case current => rfl
  case complete => exact parts.complete
  case unsplit =>
    intro empty
    obtain ⟨shape,chain,sublist⟩ := parts.unsplit empty
    exact ⟨⟨whole ++ [u],by simp⟩,chain_snoc.mpr ⟨chain,parts.loose empty stored,rfl⟩,sublist.append (.refl _)⟩
  case kept => exact parts.kept.trans (List.sublist_append_left _ _)

end

section
variable {pool : Pool} {parent st next : Option Addr} {p : Addr} {bh : List Addr}
variable {done whole xs : List Tree} {segs : List (List Tree)} {l u : Tree}

theorem cutOr_after (stored : Stored pool.cells Exact Loose parent (some l.addr) u)
    (away : ∀ x ∈ addrsEach done, next ≠ some x) (inside : l.addr ∈ addrsEach done) :
    (cutOr pool u.addr next).cells l.addr = { pool.cells l.addr with next := none } ∧
      ∀ x ∈ addrsEach done, x ≠ l.addr → (cutOr pool u.addr next).cells x = pool.cells x := by
  have cells := (cutOr_cells pool u.addr next).2
  have back : (pool.cells u.addr).prev = some l.addr := (stored_links stored).2
  constructor
  · rw [cells,back,if_pos rfl,if_neg (away _ inside)]
  · intro x member other
    rw [cells,back,if_neg (by simpa using Ne.symm other),if_neg (away x member)]

/-- An `or` completes the part before it. -/
theorem Parts.cut (parts : Parts pool.cells parent p (some u.addr) st bh done whole (xs ++ [l]) segs)
    (stored : Stored pool.cells Exact Loose parent (some l.addr) u) (once : (addrsEach done).Nodup)
    (away : ∀ x ∈ addrsEach done, next ≠ some x) :
    Chain (cutOr pool u.addr next).cells Loose Loose parent none st none (xs ++ [l]) ∧
      List.Forall₂ (StartsAt (cutOr pool u.addr next).cells parent) segs bh ∧
      (segs = [] → Chain (cutOr pool u.addr next).cells Loose Loose parent none (some p) none whole) := by
  have kept := addrsEach_sublist parts.kept
  rw [addrsEach_append] at kept
  have inside := kept.subset
  have inL : l.addr ∈ addrsEach (xs ++ [l]) := mem_addrsEach (by simp) (addr_mem l)
  obtain ⟨atL,off⟩ := cutOr_after stored away (inside (by simp [inL]))
  refine ⟨?_,?_,fun empty => ?_⟩
  · exact chain_close parts.current (List.nodup_append.mp (once.sublist kept)).2.1 atL
      fun x member other => off x (inside (by simp [member])) other
  · refine starts_frame parts.complete fun x member => off x (inside (by simp [member])) ?_
    exact ne_of_nodup (once.sublist kept) member inL
  · obtain ⟨⟨lead,rfl⟩,chain,sublist⟩ := parts.unsplit empty
    rw [← List.append_assoc] at chain sublist ⊢
    have sub := addrsEach_sublist sublist
    exact chain_close chain (once.sublist sub) atL fun x member other => off x (sub.subset member) other

theorem Parts.push {st' : Addr} (parts : Parts pool.cells parent p (some u.addr) (some st') bh done whole (xs ++ [l]) segs)
    (stored : Stored pool.cells Exact Loose parent (some l.addr) u) (once : (addrsEach done).Nodup)
    (away : ∀ x ∈ addrsEach done, next ≠ some x) :
    Parts (cutOr pool u.addr next).cells parent p next next (bh ++ [st']) (done ++ [u]) whole []
      (segs ++ [xs ++ [l]]) := by
  obtain ⟨current,complete,-⟩ := parts.cut stored once away
  constructor
  case current => rfl
  case complete => exact List.rel_append complete (.cons ⟨by simp,current⟩ .nil)
  case unsplit => intro empty; simp at empty
  case kept =>
    have kept := parts.kept.trans (List.sublist_append_left done [u])
    simpa using kept

theorem Parts.close (parts : Parts pool.cells parent p (some u.addr) st bh done whole (xs ++ [l]) segs)
    (stored : Stored pool.cells Exact Loose parent (some l.addr) u) (once : (addrsEach done).Nodup) :
    Parts (cutOr pool u.addr none).cells parent p none none bh (done ++ [u]) whole [] segs := by
  obtain ⟨current,complete,chain⟩ := parts.cut stored once (show ∀ x ∈ addrsEach done, none ≠ some x by simp)
  constructor
  case current => rfl
  case complete => exact complete
  case unsplit =>
    intro empty
    obtain ⟨-,-,sublist⟩ := parts.unsplit empty
    exact ⟨⟨whole,by simp⟩,chain empty,sublist.trans (List.sublist_append_left _ _)⟩
  case kept =>
    rw [List.append_nil]
    exact ((List.sublist_append_left _ _).trans parts.kept).trans (List.sublist_append_left _ _)

end

theorem orsEach_cons (n : Addr) (t : Tree) (ts : List Tree) : orsEach n (t :: ts) =
    ((orsEach (t.ors n).1 ts).1,(t.ors n).2 :: (orsEach (t.ors n).1 ts).2) := rfl


/-- The list after an `or`, whose first token has no predecessor now. -/
theorem following_cut {cells cells' : Addr → Token} {parent prev next : Option Addr} {us : List Tree}
    (following : Chain cells Exact Exact parent prev next none us) (once : (addrsEach us).Nodup)
    (same : ∀ x ∈ addrsEach us, cells' x = { cells x with prev := if next = some x then none else (cells x).prev }) :
    Chain cells' Exact Exact parent none next none us := by
  cases us with
  | nil => exact following
  | cons v vs =>
    obtain ⟨rfl,stored,rest⟩ := following
    have atV := same v.addr (by simp [addrsEach,addr_mem])
    rw [addrsEach,addrs_eq] at once
    have off (x) (member : x ∈ addrsEach (v :: vs)) (other : x ≠ v.addr) : cells' x = cells x := by
      rw [same x member,if_neg (by simpa using Ne.symm other)]
    refine ⟨rfl,?_,?_⟩
    · refine stored_touch stored (by rw [atV]) (by rw [atV]) (by rw [atV]) ?_ fun a member => off a ?_ ?_
      · rw [atV,if_pos rfl]
        exact ⟨(stored_links stored).1,rfl⟩
      · simp [addrsEach,addrs_eq,member]
      · rintro rfl
        exact (List.nodup_cons.mp (List.nodup_append.mp once).1).1 member
    · rw [atV]
      refine chain_frame (fun a member => off a ?_ ?_) rest
      · simp [addrsEach,member]
      · exact (ne_of_nodup once (by simp) member).symm

theorem splitTrees_go {t : Tree} (either : t.isOr = true) (whole : List Tree) (segs : List (List Tree))
    (us : List Tree) : splitTrees whole [] segs (t :: us) = splitTrees (whole ++ [t]) [] segs us := by
  cases us with
  | nil => simp [splitTrees,either]
  | cons u us => exact splitTrees_skip either whole segs us

/-- The loop of `fix_ors` at `t`: `rest` is still to come. -/
structure Cutting (pool : Pool) (parent : Option Addr) (p : Addr) (t st : Option Addr) (bh : List Addr)
    (done rest whole cur : List Tree) (segs : List (List Tree)) : Prop where
  used : Used pool.fresh (addrsEach done ++ addrsEach rest)
  remaining : Chain pool.cells Exact Exact parent (lastAddr none cur) t none rest
  parts : Parts pool.cells parent p t st bh done whole cur segs

section
variable {pool : Pool} {parent t st : Option Addr} {p : Addr} {bh : List Addr} {done rest whole cur : List Tree}
variable {segs : List (List Tree)} {fuel : Nat} {u : Tree} {us : List Tree}

/-- The state of the loop once the children of the token at hand are fixed. -/
structure Fixed (pool : Pool) (parent : Option Addr) (p : Addr) (st : Option Addr) (bh : List Addr)
    (done : List Tree) (u : Tree) (us whole cur : List Tree) (segs : List (List Tree)) : Prop where
  used : Used pool.fresh (addrsEach (done ++ [u]) ++ addrsEach us)
  stored : Stored pool.cells Exact Loose parent (lastAddr none cur) u
  following : Chain pool.cells Exact Exact parent (some u.addr) (pool.cells u.addr).next none us
  parts : Parts pool.cells parent p (some u.addr) st bh done whole cur segs

theorem Cutting.fixed (work : OrsWork fuel) (cutting : Cutting pool parent p t st bh done (u :: us) whole cur segs)
    (enough : 2 * u.addrs.length ≤ fuel) :
    ∃ pool1, t = some u.addr ∧ (match (pool.cells u.addr).child with
      | some child =>
        if (pool.cells u.addr).type = .dquote then some pool
        else do
          let (pool,child) ← fixOrs fuel pool child
          some (pool.setChild u.addr (some child))
      | none => some pool) = some pool1 ∧ pool1.fresh = (u.ors pool.fresh).1 ∧
      Fixed pool1 parent p st bh done (u.ors pool.fresh).2 us whole cur segs ∧
      (pool1.cells u.addr).next = (pool.cells u.addr).next ∧
      ∀ x < pool.fresh, x ∉ u.addrs → pool1.cells x = pool.cells x := by
  obtain ⟨used,⟨rfl,stored,following⟩,parts⟩ := cutting
  rw [addrsEach] at used
  obtain ⟨pool1,step,fresh1,stored1,next1,frame1⟩ := orsChild_spec work stored used.right.left enough
  have addr := ors_addr u pool.fresh
  have usedU : Used pool.fresh (u.addrs ++ (addrsEach done ++ addrsEach us)) := by
    refine used.subperm (List.Perm.subperm ?_)
    rw [← List.append_assoc,← List.append_assoc]
    exact List.perm_append_comm.append_right _
  have owns := ors_owns u usedU.left
  have same (x) (member : x ∈ addrsEach done ++ addrsEach us) : pool1.cells x = pool.cells x :=
    frame1 x (usedU.right.below x member) fun also => ne_of_nodup usedU.once also member rfl
  refine ⟨pool1,rfl,step,fresh1,⟨?_,stored1,?_,?_⟩,next1,frame1⟩
  · rw [fresh1,addrsEach_append,addrsEach,addrsEach,List.append_nil]
    refine ((owns.append usedU).used usedU).subperm (List.Perm.subperm ?_)
    rw [← List.append_assoc]
    exact List.perm_append_comm.append_right _
  · rw [addr,next1]
    exact chain_frame (fun x member => same x (by simp [member])) following
  · rw [addr]
    exact parts.frame fun x member => same x (by simp [member])

/-- What a turn leaves for the next one. -/
structure Turn (pool : Pool) (parent : Option Addr) (p : Addr) (st : Option Addr) (bh : List Addr) (done : List Tree)
    (u : Tree) (us whole cur : List Tree) (segs : List (List Tree)) (pool' : Pool) (st' : Option Addr)
    (bh' : List Addr) : Prop where
  fresh : pool'.fresh = pool.fresh
  same : ∀ x, x ∉ addrsEach (done ++ [u]) ++ addrsEach us → pool'.cells x = pool.cells x
  cutting : ∃ whole' cur' segs', Cutting pool' parent p (pool.cells u.addr).next st' bh' (done ++ [u]) us whole' cur' segs' ∧
    ∀ r, (r = [] ↔ us = []) → splitTrees whole cur segs (u :: r) = splitTrees whole' cur' segs' r

theorem Fixed.other (state : Fixed pool parent p st bh done u us whole cur segs) (other : u.isOr = false) :
    Turn pool parent p st bh done u us whole cur segs pool st bh := by
  refine ⟨rfl,fun x _ => rfl,whole ++ [u],cur ++ [u],segs,⟨state.used,?_,state.parts.other state.stored⟩,fun r _ => ?_⟩
  · rw [lastAddr_snoc]
    exact state.following
  · exact splitTrees_other other whole cur segs r

/-- The tokens that an `or` writes to: the one before it and the one after it. -/
theorem Fixed.cut_same (state : Fixed pool parent p st bh done u us whole cur segs) :
    (cutOr pool u.addr (pool.cells u.addr).next).fresh = pool.fresh ∧
      (∀ x, x ∉ addrsEach (done ++ [u]) ++ addrsEach us →
        (cutOr pool u.addr (pool.cells u.addr).next).cells x = pool.cells x) ∧
      Chain (cutOr pool u.addr (pool.cells u.addr).next).cells Exact Exact parent none (pool.cells u.addr).next none us := by
  obtain ⟨fresh,cells⟩ := cutOr_cells pool u.addr (pool.cells u.addr).next
  have back : (pool.cells u.addr).prev = lastAddr none cur := (stored_links state.stored).2
  have curIn : ∀ x ∈ addrsEach cur, x ∈ addrsEach (done ++ [u]) := by
    intro x member
    refine (addrsEach_sublist ((List.sublist_append_right _ _).trans
      (state.parts.kept.trans (List.sublist_append_left _ _)))).subset member
  have backIn : ∀ x, lastAddr none cur = some x → x ∈ addrsEach (done ++ [u]) := by
    intro x last
    rcases List.eq_nil_or_concat' cur with rfl | ⟨xs,l,rfl⟩
    · cases last
    · rw [lastAddr_snoc] at last
      cases last
      exact curIn _ (mem_addrsEach (by simp) (addr_mem l))
  have nextIn : ∀ x, (pool.cells u.addr).next = some x → x ∈ addrsEach us := by
    intro x next
    have following := state.following
    rw [next] at following
    cases us with
    | nil => cases following
    | cons v vs =>
      cases following.1
      exact mem_addrsEach (by simp) (addr_mem v)
  refine ⟨fresh,fun x outside => ?_,following_cut state.following state.used.right.once fun x member => ?_⟩
  · rw [List.mem_append,not_or] at outside
    rw [cells,back,if_neg fun last => outside.1 (backIn x last),if_neg fun next => outside.2 (nextIn x next)]
  · rw [cells,back,if_neg fun last => ne_of_nodup state.used.once (backIn x last) member rfl]

theorem Fixed.away (state : Fixed pool parent p st bh done u us whole cur segs) :
    ∀ x ∈ addrsEach (done ++ [u]), (pool.cells u.addr).next ≠ some x := by
  intro x member next
  have following := state.following
  rw [next] at following
  cases us with
  | nil => cases following
  | cons v vs =>
    cases following.1
    exact ne_of_nodup state.used.once member (mem_addrsEach (by simp) (addr_mem v)) rfl

theorem Fixed.skip (state : Fixed pool parent p st bh done u us whole [] segs) (either : u.isOr = true) :
    Turn pool parent p st bh done u us whole [] segs (cutOr pool u.addr (pool.cells u.addr).next)
      (pool.cells u.addr).next bh := by
  obtain ⟨fresh,same,following⟩ := state.cut_same
  have cells := (cutOr_cells pool u.addr (pool.cells u.addr).next).2
  have back : (pool.cells u.addr).prev = none := (stored_links state.stored).2
  have parts := state.parts.skip state.stored
  refine ⟨fresh,same,whole ++ [u],[],segs,⟨by rw [fresh]; exact state.used,following,?_⟩,
    fun r _ => splitTrees_go either whole segs r⟩
  refine parts.frame fun x member => ?_
  rw [cells,back,if_neg (by simp),if_neg (state.away x member)]

theorem Fixed.push {st' : Addr} (state : Fixed pool parent p (some st') bh done u us whole cur segs)
    (either : u.isOr = true) (nonempty : cur ≠ []) (more : us ≠ []) :
    Turn pool parent p (some st') bh done u us whole cur segs (cutOr pool u.addr (pool.cells u.addr).next)
      (pool.cells u.addr).next (bh ++ [st']) := by
  obtain ⟨fresh,same,following⟩ := state.cut_same
  have done' := state.used.left
  rw [addrsEach_append] at done'
  obtain ⟨xs,l,rfl⟩ := (List.eq_nil_or_concat' cur).resolve_left nonempty
  have stored := state.stored
  rw [lastAddr_snoc] at stored
  have parts := state.parts.push stored done'.left.once fun x member =>
    state.away x (by rw [addrsEach_append]; exact List.mem_append_left _ member)
  refine ⟨fresh,same,whole,[],segs ++ [xs ++ [l]],⟨by rw [fresh]; exact state.used,following,parts⟩,fun r same => ?_⟩
  cases r with
  | nil => exact absurd (same.mp rfl) more
  | cons v vs => exact splitTrees_push either whole nonempty segs vs

theorem Fixed.close (state : Fixed pool parent p st bh done u [] whole cur segs) (either : u.isOr = true)
    (nonempty : cur ≠ []) : Turn pool parent p st bh done u [] whole cur segs
      (cutOr pool u.addr (pool.cells u.addr).next) (pool.cells u.addr).next bh := by
  obtain ⟨fresh,same,following⟩ := state.cut_same
  have done' := state.used.left
  rw [addrsEach_append] at done'
  obtain ⟨xs,l,rfl⟩ := (List.eq_nil_or_concat' cur).resolve_left nonempty
  have stored := state.stored
  rw [lastAddr_snoc] at stored
  have last : (pool.cells u.addr).next = none := state.following
  have parts := state.parts.close stored done'.left.once
  rw [← last] at parts
  refine ⟨fresh,same,whole,[],segs,⟨by rw [fresh]; exact state.used,following,by rw [last]; rw [last] at parts; exact parts⟩,
    fun r same => ?_⟩
  obtain rfl := same.mpr rfl
  simp [splitTrees,either]

/-- The part at hand starts at `st`, unless it is empty. -/
theorem Parts.start {cells : Addr → Token} (parts : Parts cells parent p (some u.addr) st bh done whole cur segs)
    (once : (addrsEach (done ++ [u])).Nodup) :
    (cur = [] ∧ st = some u.addr) ∨ cur ≠ [] ∧ ∃ st', st = some st' ∧ st' ≠ u.addr := by
  cases cur with
  | nil => exact .inl ⟨rfl,parts.current⟩
  | cons c cs =>
    refine .inr ⟨by simp,c.addr,parts.current.1,?_⟩
    rw [addrsEach_append] at once
    have inside : c.addr ∈ addrsEach done := by
      refine (addrsEach_sublist parts.kept).subset ?_
      rw [addrsEach_append]
      exact List.mem_append_right _ (mem_addrsEach (by simp) (addr_mem c))
    exact ne_of_nodup once inside (mem_addrsEach (by simp) (addr_mem u))

/-- One turn of the loop of `fix_ors`. -/
theorem splitOrs_turn (work : OrsWork fuel) (cutting : Cutting pool parent p t st bh done (u :: us) whole cur segs)
    (enough : 2 * u.addrs.length ≤ fuel) :
    ∃ pool1 pool2 st' bh', splitOrs (fuel + 1) pool t st bh = splitOrs fuel pool2 (pool1.cells u.addr).next st' bh' ∧
      pool1.fresh = (u.ors pool.fresh).1 ∧ (∀ x < pool.fresh, x ∉ u.addrs → pool1.cells x = pool.cells x) ∧
      Turn pool1 parent p st bh done (u.ors pool.fresh).2 us whole cur segs pool2 st' bh' := by
  obtain ⟨pool1,rfl,step,fresh1,state,next,frame⟩ := cutting.fixed work enough
  have addr := ors_addr u pool.fresh
  have kind := stored_isOr state.stored
  rw [addr] at kind
  have run : splitOrs (fuel + 1) pool (some u.addr) st bh =
      if isOr (pool1.cells u.addr).type (pool1.cells u.addr).token then
        (if (pool.cells u.addr).next.isSome && st ≠ some u.addr then st.map fun st => bh ++ [st] else some bh).bind
          fun bh => splitOrs fuel (cutOr pool1 u.addr (pool.cells u.addr).next) (pool.cells u.addr).next
            (pool.cells u.addr).next bh
      else splitOrs fuel pool1 (pool.cells u.addr).next st bh := by
    rw [splitOrs]
    exact congrArg (Option.bind · _) step
  rw [run,kind,← next]
  have start := state.parts.start (by
    have := state.used.left
    exact this.once)
  rw [addr] at start
  cases either : (u.ors pool.fresh).2.isOr with
  | false =>
    refine ⟨pool1,pool1,st,bh,?_,fresh1,frame,state.other either⟩
    rw [if_neg (by simp)]
  | true =>
    rw [if_pos rfl]
    rcases start with ⟨rfl,rfl⟩ | ⟨nonempty,st',rfl,other⟩
    · have turn := state.skip either
      rw [addr] at turn
      refine ⟨pool1,_,_,_,?_,fresh1,frame,turn⟩
      rw [if_neg (by simp)]
      rfl
    · cases us with
      | nil =>
        have turn := state.close either nonempty
        rw [addr] at turn
        have last : (pool1.cells u.addr).next = none := by
          have := state.following
          rwa [addr] at this
        refine ⟨pool1,_,_,_,?_,fresh1,frame,turn⟩
        rw [if_neg (by simp [last])]
        rfl
      | cons v vs =>
        have turn := state.push either nonempty (by simp)
        rw [addr] at turn
        have more : (pool1.cells u.addr).next = some v.addr := by
          have := state.following.1
          rwa [addr] at this
        refine ⟨pool1,_,_,_,?_,fresh1,frame,turn⟩
        rw [if_pos (by simp [more,other])]
        rfl

/-- The loop of `fix_ors` finds the parts that `splitTrees` finds. -/
theorem splitOrs_spec (work : ∀ k < fuel, OrsWork k) (cutting : Cutting pool parent p t st bh done rest whole cur segs)
    (enough : 2 * (addrsEach rest).length + 1 ≤ fuel) :
    ∃ pool' st' bh', splitOrs fuel pool t st bh = some (pool',st',bh') ∧
      pool'.fresh = (orsEach pool.fresh rest).1 ∧
      Parts pool'.cells parent p none st' bh' (done ++ (orsEach pool.fresh rest).2)
        (splitTrees whole cur segs (orsEach pool.fresh rest).2).1
        (splitTrees whole cur segs (orsEach pool.fresh rest).2).2.1
        (splitTrees whole cur segs (orsEach pool.fresh rest).2).2.2 ∧
      ∀ x < pool.fresh, x ∉ addrsEach done ++ addrsEach rest → pool'.cells x = pool.cells x := by
  induction rest generalizing fuel pool t st bh done whole cur segs with
  | nil =>
    obtain rfl : t = none := cutting.remaining
    obtain ⟨fuel,rfl⟩ := exists_succ enough
    exact ⟨pool,st,bh,rfl,rfl,by simpa [orsEach,splitTrees] using cutting.parts,fun x _ _ => rfl⟩
  | cons u us ih =>
    obtain ⟨fuel,rfl⟩ := exists_succ enough
    rw [addrsEach,List.length_append] at enough
    have size : 0 < u.addrs.length := by rw [addrs_eq]; simp
    obtain ⟨pool1,pool2,st',bh',run,fresh1,frame1,turn⟩ := splitOrs_turn (work fuel (Nat.lt_succ_self fuel)) cutting
      (by omega)
    obtain ⟨whole',cur',segs',cutting',trees⟩ := turn.cutting
    rw [ors_addr] at cutting'
    obtain ⟨pool',st'',bh'',run',fresh',parts',frame'⟩ := ih (fun k less => work k (Nat.lt_succ_of_lt less)) cutting'
      (by omega)
    have used := cutting.used
    rw [addrsEach] at used
    have owns := ors_owns u used.right.left
    rw [turn.fresh,fresh1] at fresh' parts'
    rw [orsEach_cons,trees _ ?_]
    · refine ⟨pool',st'',bh'',run.trans run',fresh',by simpa using parts',fun x inUse outside => ?_⟩
      rw [addrsEach] at outside
      simp only [List.mem_append,not_or] at outside
      have later : x < pool2.fresh := by
        rw [turn.fresh,fresh1]
        exact Nat.lt_of_lt_of_le inUse owns.grows
      have away : x ∉ addrsEach (done ++ [(u.ors pool.fresh).2]) ++ addrsEach us := by
        rw [addrsEach_append,addrsEach,addrsEach,List.append_nil]
        simp only [List.mem_append,not_or]
        refine ⟨⟨outside.1,fun member => ?_⟩,outside.2.2⟩
        rcases owns.source x member with inside | inside
        · exact outside.2.1 inside
        · exact Nat.lt_irrefl _ (Nat.lt_of_lt_of_le inUse inside.1)
      rw [frame' x later away,turn.same x away,frame1 x inUse outside.2.1]
    · constructor
      · intro empty
        cases us with
        | nil => rfl
        | cons v vs => simp [orsEach] at empty
      · rintro rfl
        rfl

/-- `fix_ors` over linked tokens is `ors`. -/
theorem fixOrs_spec (fuel : Nat) : OrsWork fuel := by
  induction fuel using Nat.strong_induction_on with
  | _ fuel ih =>
    intro pool parent p ts nonempty chain used apart enough
    match fuel with
    | fuel + 1 =>
      have begin : Cutting pool parent p (some p) (some p) [] [] ts [] [] [] := by
        refine ⟨by simpa using used,chain,?_⟩
        constructor
        case current => rfl
        case complete => exact .nil
        case unsplit => exact fun _ => ⟨⟨[],rfl⟩,rfl,.refl _⟩
        case kept => exact .refl _
      obtain ⟨pool1,st,bh,run,fresh1,parts,frame⟩ := splitOrs_spec (fun k less => ih k (Nat.lt_succ_of_lt less)) begin
        (by omega)
      rw [List.nil_append] at parts
      have owns := orsAll_owns used
      have used1 := owns.used used
      rw [← fresh1] at used1
      have kept : (partsOf (splitTrees [] [] [] (orsEach pool.fresh ts).2)).flatten.Sublist (orsEach pool.fresh ts).2 := by
        have sub := parts.kept
        rw [← starts_flatten] at sub
        exact sub
      have inside := addrsEach_sublist kept
      have away (o) (equal : parent = some o) : o ∉ addrsEach (orsEach pool.fresh ts).2 :=
        owns.notMem (apart o equal).1 (apart o equal).2
      have grows : pool.fresh ≤ pool1.fresh := by rw [fresh1]; exact owns.grows
      obtain ⟨pool',p',lift,fresh',chain',outside⟩ := liftOrs_spec p
        (splitTrees [] [] [] (orsEach pool.fresh ts).2).1
        (fun empty => (parts.unsplit empty).2.1) parts.complete parts.current (used1.sublist inside)
        fun o equal => ⟨Nat.lt_of_lt_of_le (apart o equal).1 grows,fun member => away o equal (inside.subset member)⟩
      have joined : ors pool.fresh ts = if (splitTrees [] [] [] (orsEach pool.fresh ts).2).2.2.isEmpty then
          (pool1.fresh,(splitTrees [] [] [] (orsEach pool.fresh ts).2).1)
        else ((wrapEach (pool1.fresh + 1) (partsOf (splitTrees [] [] [] (orsEach pool.fresh ts).2))).1,
          [.node pool1.fresh .or orText
            (wrapEach (pool1.fresh + 1) (partsOf (splitTrees [] [] [] (orsEach pool.fresh ts).2))).2]) := by
        rw [fresh1]
        rfl
      rw [joined]
      refine ⟨pool',p',?_,fresh',chain',⟨fun x inUse notIn other => ?_,fun o inUse notIn equal => ?_⟩⟩
      · rw [fixOrs,run]
        exact lift
      · have untouched : x ∉ addrsEach (orsEach pool.fresh ts).2 := owns.notMem inUse notIn
        rw [outside.other x (Nat.lt_of_lt_of_le inUse grows) (fun member => untouched (inside.subset member)) other,
          frame x inUse (by simpa using notIn)]
      · rw [outside.parent o (Nat.lt_of_lt_of_le inUse grows) (fun member => away o equal (inside.subset member)) equal,
          frame o inUse (by simpa using notIn)]

end

end AnotherC.Tokens
