import AnotherC.Search.PostingCursor
import AnotherC.Search.TermStore

/-!
# What the store gives back: `ac_s_find` and the cursors of its terms

In a run whose calls are within what the groups do right, the store refines the maps that the
calls say: a find returns the record of the last insert that no erase followed, and the cursor of
a term walks over the live postings in ascending order (`store_refines`).
-/
namespace AnotherC.StoreRefines
open AnotherC.Lib.Scan (Ascending walk)
open AnotherC.Groups AnotherC.GroupUpdate AnotherC.GroupRemove AnotherC.TermGroups AnotherC.TermStore
open AnotherC.PostingCursor (Agrees BlockCursor Group GroupArray ascending_postings initTermCursor initTermCursor_at posting postings
  run_at run_cons)
set_option linter.unusedVariables false

/-- `ac_s_find`: the bytes from the pointer that it returns, as many as `*len` says. -/
def acSFind (s : Store) (h : Nat) (term : List UInt8) (id : Nat) : Option (Option (List UInt8)) :=
  match s.terms.lookup (h,key term,term) with
  | none => some none
  | some t => TermGroups.acSFind t id

/-- The groups from `t->groups` to `t->groups + t->num_groups`. -/
def inUse (t : Term) : List Slot := t.groups.take t.numGroups

/-- All ids have 27 bits. -/
def Kept (live : Name → Postings) : Prop := ∀ name, ∀ id ∈ (live name).keys, id < 2 ^ 27

/-- The items are the live postings of the term. -/
def Lists (items : List (Nat × List UInt8)) (postings : Postings) : Prop := ∀ id d, (id,d) ∈ items ↔ postings.lookup id = some d

section
variable {s : Store} {live : Name → Postings} {call : Call} {t : Term} {rows : List Row} {name : Name} {x id gid : Nat} {d : List UInt8}
  {items : List (Nat × List UInt8)}

/-! ## Ids -/

theorem keptId_mod (id : Nat) : keptId id = id % 2 ^ 27 := Nat.and_two_pow_sub_one_eq_mod id 27

theorem keptId_small (id : Nat) : keptId id < 2 ^ 27 := by
  rw [keptId_mod]
  exact Nat.mod_lt _ (by decide)

theorem keptId_same (small : id < 2 ^ 27) : keptId id = id := by
  rw [keptId_mod]
  exact Nat.mod_eq_of_lt small

theorem ids_apart (id : Nat) : groupId id = id / 4096 % 2 ^ 15 ∧ subId id = id % 4096 := by
  constructor
  · rw [groupId,Nat.shiftRight_and_distrib,Nat.shiftRight_eq_div_pow]
    exact Nat.and_two_pow_sub_one_eq_mod _ 15
  · exact Nat.and_two_pow_sub_one_eq_mod id 12

/-- The id of a record of a group, and back. -/
theorem whole_id (small : x < 4096) (number : gid < 2 ^ 15) :
    groupId (x + gid <<< 12) = gid ∧ subId (x + gid <<< 12) = x ∧ x + gid <<< 12 < 2 ^ 27 := by
  obtain ⟨group,sub⟩ := ids_apart (x + gid <<< 12)
  rw [Nat.shiftLeft_eq] at group sub ⊢
  refine ⟨?_,?_,?_⟩
  · rw [group]
    omega
  · rw [sub]
    omega
  · omega

theorem split_id (small : id < 2 ^ 27) : id = subId id + groupId id <<< 12 := by
  obtain ⟨group,sub⟩ := ids_apart id
  rw [Nat.shiftLeft_eq,group,sub]
  omega

/-! ## The groups that a cursor goes through -/

theorem mem_posting {rs : List Record} : (id,d) ∈ posting gid rs ↔ ∃ x, (x,d) ∈ rs ∧ id = x + gid := by
  rw [posting,List.mem_map]
  constructor
  · rintro ⟨⟨x,d'⟩,member,same⟩
    cases same
    exact ⟨x,member,rfl⟩
  · rintro ⟨x,member,rfl⟩
    exact ⟨(x,d),member,rfl⟩

/-- The slots with their records. -/
theorem exists_groups {slots : List Slot} (stored : List.Forall₂ HoldsRow slots rows) :
    ∃ gs : List Group, gs.map Prod.fst = slots ∧ gs.map (fun g => (g.1.group,g.2)) = rows ∧ ∀ g ∈ gs, Holds g.1 g.2 := by
  induction stored with
  | nil => exact ⟨[],rfl,rfl,by simp⟩
  | @cons slot row slots rows first later ih =>
    obtain ⟨gs,rfl,rfl,held⟩ := ih
    obtain ⟨number,holds⟩ := first
    refine ⟨(slot,row.2) :: gs,rfl,?_,?_⟩
    · rw [List.map_cons,number]
    · intro g member
      rcases List.mem_cons.mp member with rfl | inside
      · exact holds
      · exact held g inside

/-- The groups of a term are an array for its cursor, and its postings are those of the rows. -/
theorem term_array (holds : HoldsTerm t rows) :
    ∃ gs, GroupArray gs ∧ gs.map Prod.fst = inUse t ∧ ∀ id d, (id,d) ∈ postings gs ↔ id < 2 ^ 27 ∧ Live rows id d := by
  obtain ⟨slots,spare,shape,count,stored⟩ := holds.stored
  obtain ⟨gs,rfl,rfl,held⟩ := exists_groups stored
  have small : ∀ g ∈ gs, g.1.group < 2 ^ 15 := fun g member => holds.small _ (List.mem_map_of_mem member)
  have ascending := List.pairwise_map.mp holds.ascending
  refine ⟨gs,⟨held,small,ascending⟩,?_,fun id d => ?_⟩
  · rw [inUse,shape,count,List.take_left]
  rw [postings,List.mem_flatMap]
  constructor
  · rintro ⟨g,member,inside⟩
    obtain ⟨x,record,rfl⟩ := mem_posting.mp inside
    obtain ⟨number,sub,less⟩ := whole_id ((held g member).sound.ids _ record) (small g member)
    refine ⟨less,g.2,?_,?_⟩
    · rw [number]
      exact List.mem_map_of_mem (f := fun g : Group => (g.1.group,g.2)) member
    · rw [sub]
      exact record
  · rintro ⟨less,rs,row,record⟩
    obtain ⟨g,member,same⟩ := List.mem_map.mp row
    obtain ⟨number,rfl⟩ := Prod.mk.inj same
    refine ⟨g,member,mem_posting.mpr ⟨subId id,record,?_⟩⟩
    rw [number]
    exact split_id less

/-! ## A store that stands -/

/-- A find returns the record of the live payload. -/
theorem find_stands (stands : Stands s live) (h : Nat) (term : List UInt8) (id : Nat) :
    acSFind s h term id =
      some (((live (h,key term,term)).lookup (keptId id)).map fun d => encode (subId id,d)) := by
  rw [acSFind]
  cases found : s.terms.lookup (h,key term,term) with
  | none =>
    rw [stands.others _ found]
    rfl
  | some t =>
    obtain ⟨rows,holds,same⟩ := stands.held _ t found
    obtain ⟨r,returned,some_,none_⟩ := acSFind_spec holds id
    simp only [returned]
    cases alive : (live (h,key term,term)).lookup (keptId id) with
    | none =>
      rw [none_ fun d held => by rw [(same id d).mp held] at alive; cases alive]
      rfl
    | some d =>
      rw [some_ d ((same id d).mpr alive)]
      rfl

/-- A cursor made for the term walks over the items from its first advance on. -/
def WalksOver (t : Term) (items : List (Nat × List UInt8)) : Prop :=
  ∃ c, initTermCursor (inUse t) = some c ∧ ∀ calls, (∀ target, .advanceTo target ∈ calls → target < 2 ^ 27) →
    ∃ outs, PostingCursor.run c (.advance :: calls) = some outs ∧ List.Forall₂ Agrees outs (walk items .start (.advance :: calls))

theorem array_walks {gs : List Group} (array : GroupArray gs) (slots : gs.map Prod.fst = inUse t) : WalksOver t (postings gs) := by
  obtain ⟨c,c',made,first,at'⟩ := initTermCursor_at array
  rw [slots] at made
  refine ⟨c,made,fun calls small => ?_⟩
  obtain ⟨outs,later,agree⟩ := run_at calls small at'
  refine ⟨_,run_cons first later,.cons (at'.agrees fun start => ?_) agree⟩
  rw [start] at at'
  cases at'

/-- The cursor of a term walks over its live postings. -/
theorem term_stands (stands : Stands s live) (kept : Kept live) (found : s.terms.lookup name = some t) :
    ∃ items, Ascending items ∧ Lists items (live name) ∧ WalksOver t items := by
  obtain ⟨rows,holds,same⟩ := stands.held name t found
  obtain ⟨gs,array,slots,items⟩ := term_array holds
  refine ⟨postings gs,ascending_postings array,fun id d => ?_,array_walks array slots⟩
  rw [items id d]
  constructor
  · rintro ⟨less,alive⟩
    rw [← keptId_same less]
    exact (same id d).mp alive
  · intro alive
    have less := kept name id (AList.mem_keys.mp (AList.lookup_isSome.mp (by rw [alive]; rfl)))
    rw [← keptId_same less] at alive
    exact ⟨less,(same id d).mpr alive⟩

/-! ## Runs -/

theorem kept_after (kept : Kept live) (call : Call) : Kept (after live call) := by
  intro other id member
  cases call with
  | insert m b h term id' data =>
    rw [after] at member
    by_cases mine : other = (h,key term,term)
    · subst mine
      rw [Function.update_self,← AList.mem_keys,AList.mem_insert] at member
      rcases member with rfl | old
      · exact keptId_small id'
      · exact kept _ id (AList.mem_keys.mp old)
    · rw [Function.update_of_ne mine] at member
      exact kept _ id member
  | erase m b h term id' =>
    rw [after] at member
    by_cases mine : other = (h,key term,term)
    · subst mine
      rw [Function.update_self,← AList.mem_keys,AList.mem_erase] at member
      exact kept _ id (AList.mem_keys.mp member.2)
    · rw [Function.update_of_ne mine] at member
      exact kept _ id member

theorem kept_start : Kept fun _ => ∅ := by
  intro name id member
  cases member

/-- The groups of all terms stand after every call of a run that is within what they do right. -/
theorem stands_run {calls : List Call} (formed : ∀ call ∈ calls, WellFormed call)
    (fine : Meets (fun s _ call => GroupsFine s call) start (fun _ => ∅) calls) :
    ∀ done, done <+: calls → ∃ s, run start done = some s ∧ Stands s (livePostings done) ∧ Kept (livePostings done) := by
  intro done part
  exact @meets_run start (fun _ => ∅) calls (fun s _ call => GroupsFine s call) (fun s live => Stands s live ∧ Kept live)
    (fun s live call both formed fine => by
      obtain ⟨s',stepped,stands,_⟩ := stands_step both.1 formed fine
      exact ⟨s',stepped,stands,kept_after both.2 call⟩) ⟨stands_start,kept_start⟩ formed fine done part

end

/-- In every run that is within what the groups do right, after every call: a find of any term
    and id gives the record of the live payload, and a cursor of a term walks over its live
    postings in ascending order. -/
theorem store_refines {calls : List Call} (formed : ∀ call ∈ calls, WellFormed call)
    (fine : Meets (fun s _ call => GroupsFine s call) start (fun _ => ∅) calls) :
    ∀ done, done <+: calls → ∃ s, run start done = some s ∧
      (∀ h term id, acSFind s h term id =
        some (((livePostings done (h,key term,term)).lookup (keptId id)).map fun d => encode (subId id,d))) ∧
      (∀ name, s.terms.lookup name = none → livePostings done name = ∅) ∧
      ∀ name t, s.terms.lookup name = some t → ∃ items, Ascending items ∧ Lists items (livePostings done name) ∧ WalksOver t items := by
  intro done part
  obtain ⟨s,ran,stands,kept⟩ := stands_run formed fine done part
  exact ⟨s,ran,find_stands stands,stands.others,fun name t found => term_stands stands kept found⟩

theorem store_refines_one : ∃ s, run start [.insert zeros zeroBlocks 0 [97] 1 [0]] = some s ∧
    acSFind s 0 [97] 1 = some (some (encode (1,[0]))) ∧ acSFind s 0 [97] 2 = some none ∧
    ∃ t items, s.terms.lookup (0,97,[97]) = some t ∧ (1,[0]) ∈ items ∧ WalksOver t items := by
  have first : step start (.insert zeros zeroBlocks 0 [97] 1 [0]) = some (stored oneRecord 2) :=
    @stored_insert _ newTerm _ 0 _ _ _ (.inl rfl) (by decide +kernel)
  have letter : key [97] = 97 := by decide
  have live : livePostings [.insert zeros zeroBlocks 0 [97] 1 [0]] (0,97,[97]) = @AList.insert Nat (fun _ => List UInt8) _ 1 [0] ∅ := by
    rw [livePostings,List.foldl_cons,List.foldl_nil,after,letter,Function.update_self]
    rfl
  have fine : Meets (fun s _ call => GroupsFine s call) start (fun _ => ∅) [.insert zeros zeroBlocks 0 [97] 1 [0]] := by
    refine ⟨⟨fun g member rs _ => ?_,fun _ => .inl (by decide)⟩,fun _ _ => trivial⟩
    cases member
  obtain ⟨s,ran,finds,_,walks⟩ := store_refines (fun call member => by
    cases List.mem_singleton.mp member
    exact ⟨⟨0,[],rfl,by decide,rfl⟩,by decide⟩) fine _ (List.prefix_refl _)
  have same : s = stored oneRecord 2 := by
    rw [run,first] at ran
    exact (Option.some.inj ran).symm
  have found : s.terms.lookup (0,97,[97]) = some oneRecord := by
    rw [same]
    exact AList.lookup_insert _
  obtain ⟨items,_,lists,walked⟩ := walks (0,97,[97]) oneRecord found
  refine ⟨s,ran,?_,?_,oneRecord,items,found,(lists 1 [0]).mpr ?_,walked⟩
  · rw [finds,letter,live]
    rfl
  · rw [finds,letter,live]
    rfl
  · rw [live]
    rfl

end AnotherC.StoreRefines
