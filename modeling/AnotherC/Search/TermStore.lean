import AnotherC.Lib.Tally
import AnotherC.Search.TermUpdates

/-!
# Runs of the term store: `ac_s_insert`, `ac_s_erase` and `ac_s_find`

The live postings of a term are what its calls say: the payload of the last insert of each
id that no erase followed. `stands_run` carries the groups of all terms through a run whose
calls are within what `_ac_s_add` and `_ac_s_remove` do right, and `accounting_exact` the
counters.
-/
namespace AnotherC.TermStore
open AnotherC.Lib.Tally AnotherC.Groups AnotherC.GroupUpdate AnotherC.GroupRemove AnotherC.TermGroups AnotherC.TermUpdates
set_option linter.unusedVariables false

/-! ## The store -/

/-- The map in which `ac_s` keeps a term. -/
def key (term : List UInt8) : UInt8 :=
  let key := term.headD 0
  if 65 ≤ key ∧ key ≤ 90 then key - 65 + 97 else key

/-- A term: its store, its map and its bytes. -/
abbrev Name := Nat × UInt8 × List UInt8

/-- The terms of all stores, by `macro_map`, and the total of all bytes that they share. -/
structure Store where
  terms : AList fun _ : Name => Term
  totalBytes : Nat

/-- A term as `ac_pool_calloc` leaves it. -/
def newTerm : Term := { groups := [], numGroups := 0, numIds := 0, bytes := 0, maxBytes := 0 }

/-- `ac_s_insert`. -/
def acSInsert (m : Machine) (b : Blocks) (s : Store) (h : Nat) (term : List UInt8) (id : Nat) (data : List UInt8) : Option Store :=
  (acSAdd m b ((s.terms.lookup (h,key term,term)).getD newTerm) s.totalBytes id data).map fun (t,totalBytes) =>
    { terms := s.terms.insert (h,key term,term) t, totalBytes := totalBytes }

/-- `ac_s_erase`. -/
def acSErase (m : Machine) (b : Blocks) (s : Store) (h : Nat) (term : List UInt8) (id : Nat) : Option Store :=
  match s.terms.lookup (h,key term,term) with
  | none => some s
  | some t => (acSRemove m b t s.totalBytes id).map fun (t,totalBytes) =>
    { terms := s.terms.insert (h,key term,term) t, totalBytes := totalBytes }

/-- A call, and the memory it gets. -/
inductive Call
  | insert (m : Machine) (b : Blocks) (h : Nat) (term : List UInt8) (id : Nat) (data : List UInt8)
  | erase (m : Machine) (b : Blocks) (h : Nat) (term : List UInt8) (id : Nat)

def step (s : Store) : Call → Option Store
  | .insert m b h term id data => acSInsert m b s h term id data
  | .erase m b h term id => acSErase m b s h term id

def run (s : Store) : List Call → Option Store
  | [] => some s
  | call :: calls => (step s call).bind fun s => run s calls

/-- Before the first call. -/
def start : Store := { terms := ∅, totalBytes := 0 }

/-! ## What the calls say -/

/-- The payloads of the live ids of a term. -/
abbrev Postings := AList fun _ : Nat => List UInt8

/-- The 27 bits of an id that the store keeps. -/
def keptId (id : Nat) : Nat := id &&& 0x7ffffff

def after (live : Name → Postings) : Call → Name → Postings
  | .insert _ _ h term id data => Function.update live (h,key term,term) ((live (h,key term,term)).insert (keptId id) data)
  | .erase _ _ h term id => Function.update live (h,key term,term) ((live (h,key term,term)).erase (keptId id))

def livePostings (calls : List Call) : Name → Postings := calls.foldl after fun _ => ∅

/-- A payload that the calls may store. -/
def WellFormed : Call → Prop
  | .insert _ _ _ _ _ data => Payload data ∧ data.length < 2 ^ 32
  | .erase _ _ _ _ _ => True

/-- The length of a record. -/
def recordLength (data : List UInt8) : Nat := data.length + 1

/-- The counters of all terms are those of the live postings. -/
structure Exact (s : Store) (live : Name → Postings) : Prop where
  ids : ∀ name t, s.terms.lookup name = some t → t.numIds = (live name).keys.length
  bytes : ∀ name t, s.terms.lookup name = some t → t.bytes = tally recordLength (live name)
  others : ∀ name, s.terms.lookup name = none → live name = ∅
  total : s.totalBytes = tally Term.bytes s.terms
  small : s.totalBytes < 2 ^ 32

/-! ## Which calls are right -/

/-- The call is within what the groups do right. -/
def GroupsFine (s : Store) : Call → Prop
  | .insert _ _ h term id data => AddFine ((s.terms.lookup (h,key term,term)).getD newTerm) id data
  | .erase _ b h term id => ∀ t, s.terms.lookup (h,key term,term) = some t → EraseFine b t id

/-- The call is within what the counters do right: no sum leaves 32 bits, and a record in a
    slot has the length that its control bits say. -/
def CountersFine (s : Store) (live : Name → Postings) : Call → Prop
  | .insert _ _ h term id data =>
    s.totalBytes + recordLength data < 2 ^ 32 + weightAt recordLength (live (h,key term,term)) (keptId id)
  | .erase _ _ h term id => ∀ t d, s.terms.lookup (h,key term,term) = some t → (live (h,key term,term)).lookup (keptId id) = some d →
    InSlot t (groupId id) → slotLength d = recordLength d

/-- Every call of the run meets a condition on the state before it. -/
def Meets (fine : Store → (Name → Postings) → Call → Prop) (s : Store) (live : Name → Postings) : List Call → Prop
  | [] => True
  | call :: calls => fine s live call ∧ ∀ s', step s call = some s' → Meets fine s' (after live call) calls

/-! ## The groups -/

/-- The groups of all terms hold the live postings. -/
structure Stands (s : Store) (live : Name → Postings) : Prop where
  held : ∀ name t, s.terms.lookup name = some t →
    ∃ rows, HoldsTerm t rows ∧ ∀ id d, Live rows id d ↔ (live name).lookup (keptId id) = some d
  others : ∀ name, s.terms.lookup name = none → live name = ∅

section
variable {s s' : Store} {live : Name → Postings} {call : Call} {calls : List Call} {t t' : Term} {rows rows' : List Row} {name : Name}
  {id : Nat} {data : List UInt8}

theorem keptId_iff {id id' : Nat} : keptId id' = keptId id ↔ groupId id' = groupId id ∧ subId id' = subId id := by
  have low : ∀ x : Nat, x &&& 0xfff = x % 4096 := fun x => Nat.and_two_pow_sub_one_eq_mod x 12
  have kept : ∀ x : Nat, x &&& 0x7ffffff = x % 2 ^ 27 := fun x => Nat.and_two_pow_sub_one_eq_mod x 27
  have high : ∀ x : Nat, (x &&& 0x7fff000) >>> 12 = x / 4096 % 2 ^ 15 := by
    intro x
    rw [Nat.shiftRight_and_distrib,Nat.shiftRight_eq_div_pow]
    exact Nat.and_two_pow_sub_one_eq_mod _ 15
  rw [keptId,keptId,groupId,groupId,subId,subId,kept,kept,high,high,low,low]
  omega

theorem newTerm_holds : HoldsTerm newTerm [] :=
  ⟨⟨[],[],rfl,rfl,.nil⟩,List.Pairwise.nil,by simp,fun no => absurd rfl no⟩

/-- The term of a name, new or not, with its postings. -/
theorem Stands.term (stands : Stands s live) (name : Name) :
    ∃ rows, HoldsTerm ((s.terms.lookup name).getD newTerm) rows ∧ ∀ id d, Live rows id d ↔ (live name).lookup (keptId id) = some d := by
  cases found : s.terms.lookup name with
  | some t => exact stands.held name t found
  | none =>
    refine ⟨[],newTerm_holds,fun id d => ?_⟩
    rw [stands.others name found]
    refine iff_of_false ?_ (by simp)
    rintro ⟨rs,member,_⟩
    cases member

/-- The store with another term under a name. -/
theorem Stands.put (stands : Stands s live) {postings : Postings} {totalBytes : Nat} (holds : HoldsTerm t' rows')
    (same : ∀ id d, Live rows' id d ↔ postings.lookup (keptId id) = some d) :
    Stands { terms := s.terms.insert name t', totalBytes := totalBytes } (Function.update live name postings) := by
  refine ⟨fun other t found => ?_,fun other missing => ?_⟩
  · by_cases mine : other = name
    · subst mine
      rw [AList.lookup_insert] at found
      cases found
      rw [Function.update_self]
      exact ⟨rows',holds,same⟩
    · rw [AList.lookup_insert_ne mine] at found
      rw [Function.update_of_ne mine]
      exact stands.held other t found
  · by_cases mine : other = name
    · subst mine
      rw [AList.lookup_insert] at missing
      cases missing
    · rw [AList.lookup_insert_ne mine] at missing
      rw [Function.update_of_ne mine]
      exact stands.others other missing

theorem lookup_put {postings : Postings} (same : ∀ id d, Live rows id d ↔ postings.lookup (keptId id) = some d)
    (changes : Changes rows rows' id (some data)) :
    ∀ id' d, Live rows' id' d ↔ (postings.insert (keptId id) data).lookup (keptId id') = some d := by
  intro id' d
  rw [changes id' d]
  by_cases mine : keptId id' = keptId id
  · rw [if_pos (keptId_iff.mp mine),mine,AList.lookup_insert]
  · rw [if_neg fun both => mine (keptId_iff.mpr both),AList.lookup_insert_ne mine]
    exact same id' d

theorem lookup_erased {postings : Postings} (same : ∀ id d, Live rows id d ↔ postings.lookup (keptId id) = some d)
    (changes : Changes rows rows' id none) :
    ∀ id' d, Live rows' id' d ↔ (postings.erase (keptId id)).lookup (keptId id') = some d := by
  intro id' d
  rw [changes id' d]
  by_cases mine : keptId id' = keptId id
  · rw [if_pos (keptId_iff.mp mine),mine,AList.lookup_erase]
  · rw [if_neg fun both => mine (keptId_iff.mpr both),AList.lookup_erase_ne mine]
    exact same id' d

/-! ## The counters -/

/-- Counters of a term that are those of these postings, in a total that has room for them. -/
structure CountsHold (c : Counts) (postings : Postings) : Prop where
  ids : c.numIds = postings.keys.length
  bytes : c.bytes = tally recordLength postings
  within : c.bytes ≤ c.totalBytes
  small : c.totalBytes < 2 ^ 32

theorem few_ids (postings : Postings) : postings.keys.length ≤ tally recordLength postings := by
  rw [← tally_one]
  exact tally_le (fun d => Nat.succ_le_succ (Nat.zero_le _)) postings

/-- A record replaced by another one. -/
theorem replace_spec {c : Counts} {old new : Nat} (enough : old ≤ c.bytes) (within : c.bytes ≤ c.totalBytes)
    (small : c.totalBytes < 2 ^ 32) (room : c.totalBytes + new < 2 ^ 32 + old) :
    (c.replace old new).numIds = c.numIds ∧ (c.replace old new).bytes + old = c.bytes + new ∧
      (c.replace old new).totalBytes + old = c.totalBytes + new := by
  have first : sub32 c.bytes old = c.bytes - old := sub32_sub enough (by omega)
  have second : sub32 c.totalBytes old = c.totalBytes - old := sub32_sub (by omega) small
  have first' : (c.bytes - old + new) % 2 ^ 32 = c.bytes - old + new := Nat.mod_eq_of_lt (by omega)
  have second' : (c.totalBytes - old + new) % 2 ^ 32 = c.totalBytes - old + new := Nat.mod_eq_of_lt (by omega)
  rw [Counts.replace,first,second,first',second']
  refine ⟨rfl,?_,?_⟩
  · show c.bytes - old + new + old = c.bytes + new
    omega
  · show c.totalBytes - old + new + old = c.totalBytes + new
    omega

theorem insert_spec {c : Counts} {new : Nat} (ids : c.numIds + 1 < 2 ^ 32) (within : c.bytes ≤ c.totalBytes)
    (room : c.totalBytes + new < 2 ^ 32) :
    (c.insert new).numIds = c.numIds + 1 ∧ (c.insert new).bytes = c.bytes + new ∧ (c.insert new).totalBytes = c.totalBytes + new := by
  have first : (c.numIds + 1) % 2 ^ 32 = c.numIds + 1 := Nat.mod_eq_of_lt ids
  have second : (c.bytes + new) % 2 ^ 32 = c.bytes + new := Nat.mod_eq_of_lt (by omega)
  have third : (c.totalBytes + new) % 2 ^ 32 = c.totalBytes + new := Nat.mod_eq_of_lt room
  rw [Counts.insert,first,second,third]
  exact ⟨rfl,rfl,rfl⟩

theorem remove_spec {c : Counts} {old : Nat} (some_ : 1 ≤ c.numIds) (ids : c.numIds < 2 ^ 32) (enough : old ≤ c.bytes)
    (within : c.bytes ≤ c.totalBytes) (small : c.totalBytes < 2 ^ 32) :
    (remove c old).numIds + 1 = c.numIds ∧ (remove c old).bytes + old = c.bytes ∧ (remove c old).totalBytes + old = c.totalBytes := by
  have first : sub32 c.numIds 1 = c.numIds - 1 := sub32_sub some_ ids
  have second : sub32 c.bytes old = c.bytes - old := sub32_sub enough (by omega)
  have third : sub32 c.totalBytes old = c.totalBytes - old := sub32_sub (by omega) small
  rw [remove,first,second,third]
  refine ⟨?_,?_,?_⟩
  · show c.numIds - 1 + 1 = c.numIds
    omega
  · show c.bytes - old + old = c.bytes
    omega
  · show c.totalBytes - old + old = c.totalBytes
    omega

/-- The counters after a posting is written. -/
theorem counts_put {c c' : Counts} {postings : Postings} (hold : CountsHold c postings)
    (room : c.totalBytes + recordLength data < 2 ^ 32 + weightAt recordLength postings id)
    (replaced : ∀ d, postings.lookup id = some d → c' = c.replace (recordLength d) (recordLength data) ∨ d.length = data.length ∧ c' = c)
    (inserted : postings.lookup id = none → c' = c.insert (recordLength data)) :
    CountsHold c' (postings.insert id data) ∧ c'.totalBytes + c.bytes = c.totalBytes + c'.bytes := by
  obtain ⟨ids,bytes,within,small⟩ := hold
  have few := few_ids postings
  have sum := @tally_insert _ _ recordLength _ postings id data
  have many := @tally_insert _ _ (fun _ => 1) _ postings id data
  have least := @weightAt_le _ _ recordLength _ postings id
  rw [tally_one,tally_one] at many
  cases found : postings.lookup id with
  | none =>
    rw [weightAt,found] at sum many room
    simp only [Option.elim,Nat.add_zero] at sum many room
    have one : 1 ≤ recordLength data := Nat.succ_le_succ (Nat.zero_le _)
    obtain ⟨ids',bytes',total'⟩ := @insert_spec c (recordLength data) (by omega) within room
    rw [inserted found]
    exact ⟨⟨by omega,by omega,by omega,by omega⟩,by omega⟩
  | some d =>
    rw [weightAt,found] at sum many room least
    simp only [Option.elim] at sum many room least
    rcases replaced d found with changed | ⟨same,kept⟩
    · obtain ⟨ids',bytes',total'⟩ := @replace_spec c (recordLength d) (recordLength data) (by omega) within small room
      rw [changed]
      exact ⟨⟨by omega,by omega,by omega,by omega⟩,by omega⟩
    · have equal : recordLength d = recordLength data := congrArg Nat.succ same
      rw [kept]
      exact ⟨⟨by omega,by omega,within,small⟩,by omega⟩

/-- The counters after a posting is erased. -/
theorem counts_erased {c c' : Counts} {postings : Postings} (hold : CountsHold c postings)
    (removed : ∀ d, postings.lookup id = some d → c' = remove c (recordLength d)) (absent : postings.lookup id = none → c' = c) :
    CountsHold c' (postings.erase id) ∧ c'.totalBytes + c.bytes = c.totalBytes + c'.bytes := by
  obtain ⟨ids,bytes,within,small⟩ := hold
  have few := few_ids postings
  have sum := @tally_erase _ _ recordLength _ postings id
  have many := @tally_erase _ _ (fun _ => 1) _ postings id
  rw [tally_one,tally_one] at many
  cases found : postings.lookup id with
  | none =>
    rw [weightAt,found] at sum many
    simp only [Option.elim,Nat.add_zero] at sum many
    rw [absent found]
    exact ⟨⟨by omega,by omega,within,small⟩,by omega⟩
  | some d =>
    rw [weightAt,found] at sum many
    simp only [Option.elim] at sum many
    obtain ⟨ids',bytes',total'⟩ := @remove_spec c (recordLength d) (by omega) (by omega) (by omega) within small
    rw [removed d found]
    exact ⟨⟨by omega,by omega,by omega,by omega⟩,by omega⟩

theorem Exact.counts (exact_ : Exact s live) (name : Name) :
    CountsHold (((s.terms.lookup name).getD newTerm).counts s.totalBytes) (live name) ∧
      weightAt Term.bytes s.terms name = ((s.terms.lookup name).getD newTerm).bytes := by
  have least := @weightAt_le _ _ Term.bytes _ s.terms name
  rw [← exact_.total] at least
  cases found : s.terms.lookup name with
  | some t =>
    rw [weightAt,found] at least ⊢
    exact ⟨⟨exact_.ids name t found,exact_.bytes name t found,least,exact_.small⟩,rfl⟩
  | none =>
    rw [exact_.others name found,weightAt,found]
    exact ⟨⟨rfl,rfl,Nat.zero_le _,exact_.small⟩,rfl⟩

/-- The store with another term under a name. -/
theorem Exact.put (exact_ : Exact s live) {postings : Postings} {total' : Nat} (hold : CountsHold (t'.counts total') postings)
    (moved : total' + ((s.terms.lookup name).getD newTerm).bytes = s.totalBytes + t'.bytes) :
    Exact { terms := s.terms.insert name t', totalBytes := total' } (Function.update live name postings) := by
  refine ⟨fun other t found => ?_,fun other t found => ?_,fun other missing => ?_,?_,hold.small⟩
  · by_cases mine : other = name
    · subst mine
      rw [AList.lookup_insert] at found
      cases found
      rw [Function.update_self]
      exact hold.ids
    · rw [AList.lookup_insert_ne mine] at found
      rw [Function.update_of_ne mine]
      exact exact_.ids other t found
  · by_cases mine : other = name
    · subst mine
      rw [AList.lookup_insert] at found
      cases found
      rw [Function.update_self]
      exact hold.bytes
    · rw [AList.lookup_insert_ne mine] at found
      rw [Function.update_of_ne mine]
      exact exact_.bytes other t found
  · by_cases mine : other = name
    · subst mine
      rw [AList.lookup_insert] at missing
      cases missing
    · rw [AList.lookup_insert_ne mine] at missing
      rw [Function.update_of_ne mine]
      exact exact_.others other missing
  · have sum := @tally_insert _ _ Term.bytes _ s.terms name t'
    have old := (exact_.counts name).2
    have total := exact_.total
    show total' = tally Term.bytes (s.terms.insert name t')
    omega

/-! ## Steps and runs -/

/-- A posting written: the groups, and the counters if there is room for it. -/
theorem insert_step {m : Machine} {b : Blocks} {h : Nat} {term : List UInt8} (stands : Stands s live)
    (formed : WellFormed (.insert m b h term id data)) (fine : GroupsFine s (.insert m b h term id data)) :
    ∃ s', step s (.insert m b h term id data) = some s' ∧ Stands s' (after live (.insert m b h term id data)) ∧
      (Exact s live → CountersFine s live (.insert m b h term id data) → Exact s' (after live (.insert m b h term id data))) := by
  obtain ⟨payload,len⟩ := formed
  obtain ⟨rows,holds,same⟩ := stands.term (h,key term,term)
  obtain ⟨t',total',rows',added,holds',changes,counts⟩ := @acSAdd_spec m b _ _ id s.totalBytes _ holds payload len fine
  refine ⟨{ terms := s.terms.insert (h,key term,term) t', totalBytes := total' },?_,?_,fun exact_ room => ?_⟩
  · rw [step,acSInsert,added]
    rfl
  · exact stands.put holds' (lookup_put same changes)
  · obtain ⟨hold,old⟩ := exact_.counts (h,key term,term)
    obtain ⟨hold',moved⟩ := counts_put hold room (fun d found => counts.replaced d ((same id d).mpr found)) fun missing =>
      counts.inserted fun d alive => by
        rw [(same id d).mp alive] at missing
        cases missing
    exact exact_.put hold' moved

/-- A posting erased. -/
theorem erase_step {m : Machine} {b : Blocks} {h : Nat} {term : List UInt8} (stands : Stands s live)
    (fine : GroupsFine s (.erase m b h term id)) :
    ∃ s', step s (.erase m b h term id) = some s' ∧ Stands s' (after live (.erase m b h term id)) ∧
      (Exact s live → CountersFine s live (.erase m b h term id) → Exact s' (after live (.erase m b h term id))) := by
  cases found : s.terms.lookup (h,key term,term) with
  | none =>
    have kept : after live (.erase m b h term id) = live := by
      rw [after,stands.others _ found]
      exact (congrArg (Function.update live _) (stands.others _ found).symm).trans (Function.update_eq_self _ _)
    rw [kept]
    refine ⟨s,?_,stands,fun exact_ _ => exact_⟩
    rw [step,acSErase,found]
  | some t =>
    obtain ⟨rows,holds,same⟩ := stands.held _ t found
    obtain ⟨t',total',rows',removed,holds',changes,counts⟩ := @acSRemove_spec m b _ _ id s.totalBytes holds (fine t found)
    refine ⟨{ terms := s.terms.insert (h,key term,term) t', totalBytes := total' },?_,?_,fun exact_ right => ?_⟩
    · rw [step,acSErase,found]
      simp only [removed,Option.map_some]
    · exact stands.put holds' (lookup_erased same changes)
    · obtain ⟨hold,old⟩ := exact_.counts (h,key term,term)
      rw [found,Option.getD_some] at hold
      obtain ⟨hold',moved⟩ := counts_erased hold (fun d alive => by
        have live_ := (same id d).mpr alive
        by_cases slot : InSlot t (groupId id)
        · rw [counts.slot d live_ slot,right t d found alive slot]
        · exact counts.block d live_ slot) fun missing => counts.absent fun d live_ => by
          rw [(same id d).mp live_] at missing
          cases missing
      refine exact_.put hold' ?_
      rw [found,Option.getD_some]
      exact moved

theorem stands_step (stands : Stands s live) (formed : WellFormed call) (fine : GroupsFine s call) :
    ∃ s', step s call = some s' ∧ Stands s' (after live call) ∧
      (Exact s live → CountersFine s live call → Exact s' (after live call)) := by
  cases call with
  | insert m b h term id data => exact insert_step stands formed fine
  | erase m b h term id => exact erase_step stands fine

/-- What every call of a run keeps that meets its condition holds after each of them. -/
theorem meets_run {fine : Store → (Name → Postings) → Call → Prop} {Inv : Store → (Name → Postings) → Prop}
    (keeps : ∀ s live call, Inv s live → WellFormed call → fine s live call → ∃ s', step s call = some s' ∧ Inv s' (after live call))
    (inv : Inv s live) (formed : ∀ call ∈ calls, WellFormed call) (met : Meets fine s live calls) :
    ∀ done, done <+: calls → ∃ s', run s done = some s' ∧ Inv s' (done.foldl after live) := by
  induction calls generalizing s live with
  | nil =>
    intro done part
    rw [List.prefix_nil.mp part]
    exact ⟨s,rfl,inv⟩
  | cons call calls ih =>
    intro done part
    cases done with
    | nil => exact ⟨s,rfl,inv⟩
    | cons call' done =>
      obtain ⟨same,part'⟩ := List.cons_prefix_cons.mp part
      subst same
      obtain ⟨right,rest⟩ := met
      obtain ⟨s',stepped,inv'⟩ := keeps s live call' inv (formed call' (by simp)) right
      obtain ⟨s'',ran,inv''⟩ := ih inv' (fun c member => formed c (by simp [member])) (rest s' stepped) done part'
      refine ⟨s'',?_,inv''⟩
      rw [run,stepped]
      exact ran

theorem stands_start : Stands start fun _ => ∅ :=
  ⟨fun name t found => by simp [start] at found,fun _ _ => rfl⟩

theorem exact_start : Exact start fun _ => ∅ :=
  ⟨fun name t found => by simp [start] at found,fun name t found => by simp [start] at found,fun _ _ => rfl,rfl,by decide⟩

end

/-- The call is right for the groups and for the counters. -/
def Fine (s : Store) (live : Name → Postings) (call : Call) : Prop := GroupsFine s call ∧ CountersFine s live call

/-- In every run whose calls meet the condition, the counters of all terms are exact after
    every call. -/
theorem accounting_exact {calls : List Call} (formed : ∀ call ∈ calls, WellFormed call) (fine : Meets Fine start (fun _ => ∅) calls) :
    ∀ done, done <+: calls → ∃ s, run start done = some s ∧ Exact s (livePostings done) := by
  intro done part
  obtain ⟨s,ran,_,exact_⟩ := @meets_run start (fun _ => ∅) calls Fine (fun s live => Stands s live ∧ Exact s live)
    (fun s live call both formed fine => by
      obtain ⟨s',stepped,stands,exact_⟩ := stands_step both.1 formed fine.1
      exact ⟨s',stepped,stands,exact_ both.2 fine.2⟩) ⟨stands_start,exact_start⟩ formed fine done part
  exact ⟨s,ran,exact_⟩

/-- The term of one record, and of two. -/
def oneRecord : Term :=
  { groups := [{ type := 0, group := 0, cell := .inline (encode (1,[0]) ++ List.replicate 6 0) }], numGroups := 1, numIds := 1, bytes := 2,
    maxBytes := 0 }

def twoRecords : Term := { groups := [pair], numGroups := 1, numIds := 2, bytes := 4, maxBytes := 0 }

def stored (t : Term) (totalBytes : Nat) : Store := { terms := (∅ : AList _).insert (0,97,[97]) t, totalBytes := totalBytes }

/-- Two ids of one group, and the second goes again. -/
def twoCalls : List Call :=
  [.insert zeros zeroBlocks 0 [97] 1 [0],.insert zeros zeroBlocks 0 [97] 9 [0],.erase zeros zeroBlocks 0 [97] 9]

theorem stored_insert {s : Store} {t t' : Term} {total total' id : Nat} {data : List UInt8} (before : s.terms = ∅ ∨ s = stored t total)
    (added : acSAdd zeros zeroBlocks ((s.terms.lookup (0,97,[97])).getD newTerm) s.totalBytes id data = some (t',total')) :
    step s (.insert zeros zeroBlocks 0 [97] id data) = some (stored t' total') := by
  have letter : key [97] = 97 := by decide
  rw [step,acSInsert,letter,added,Option.map_some]
  rcases before with empty | shape
  · rw [empty]
    rfl
  · rw [shape]
    simp only [stored,AList.insert_insert]

theorem stored_erase {t t' : Term} {total total' id : Nat} (removed : acSRemove zeros zeroBlocks t total id = some (t',total')) :
    step (stored t total) (.erase zeros zeroBlocks 0 [97] id) = some (stored t' total') := by
  have letter : key [97] = 97 := by decide
  have found : (stored t total).terms.lookup (0,97,[97]) = some t := AList.lookup_insert _
  rw [step,acSErase,letter,found]
  simp only [stored,removed,Option.map_some,AList.insert_insert]

theorem accounting_exact_two : ∃ s, run start twoCalls = some s ∧ Exact s (livePostings twoCalls) := by
  have empty : Payload [0] := ⟨0,[],rfl,by decide,rfl⟩
  have first : step start (.insert zeros zeroBlocks 0 [97] 1 [0]) = some (stored oneRecord 2) :=
    @stored_insert _ newTerm _ 0 _ _ _ (.inl rfl) (by decide +kernel)
  have second : step (stored oneRecord 2) (.insert zeros zeroBlocks 0 [97] 9 [0]) = some (stored twoRecords 4) :=
    stored_insert (.inr rfl) (by decide +kernel)
  have one : ∀ {g rs}, g ∈ oneRecord.groups.take 1 → HoldsRow g (groupId 9,rs) → rs = [(1,[0])] := by
    intro g rs member held
    cases List.mem_singleton.mp member
    refine holds_unique held.2 ⟨⟨by decide,fun r member => ?_,List.pairwise_singleton _ _⟩,by decide,.inl ⟨rfl,(1,[0]),_,rfl,rfl,rfl⟩⟩
    cases List.mem_singleton.mp member
    exact empty
  have two : ∀ {g rs}, g ∈ twoRecords.groups.take 1 → HoldsRow g (groupId 9,rs) → g.type = 1 ∧ rs = [(1,[0]),(9,[0])] := by
    intro g rs member held
    cases List.mem_singleton.mp member
    exact ⟨rfl,holds_unique held.2 pair_holds⟩
  have found : ∀ {t total}, (stored t total).terms.lookup (0,key [97],[97]) = some t := AList.lookup_insert _
  have room : ∀ {total n k : Nat}, total + n < 2 ^ 32 → total + n < 2 ^ 32 + k := fun less => Nat.lt_of_lt_of_le less (Nat.le_add_right _ _)
  refine @accounting_exact twoCalls (fun call member => ?_) ⟨⟨⟨fun g member rs _ => ?_,fun _ => .inl (by decide)⟩,room (by decide)⟩,?_⟩ twoCalls
    (List.prefix_refl _)
  · simp only [twoCalls,List.mem_cons,List.not_mem_nil,or_false] at member
    rcases member with rfl | rfl | rfl
    · exact ⟨empty,by decide⟩
    · exact ⟨empty,by decide⟩
    · exact trivial
  · cases member
  intro s1 stepped
  cases first.symm.trans stepped
  refine ⟨⟨?_,room (by decide)⟩,?_⟩
  · rw [GroupsFine,found,Option.getD_some]
    refine ⟨fun g member rs held => ?_,fun absent => absurd rfl (absent _ (List.mem_singleton_self _))⟩
    rw [one member held]
    cases List.mem_singleton.mp member
    intro r inside
    cases List.mem_singleton.mp inside
    exact ⟨fun no => absurd no (by decide),fun _ => ⟨by decide,by decide⟩⟩
  intro s2 stepped
  cases second.symm.trans stepped
  refine ⟨⟨fun t held => ?_,fun t d held _ inSlot => ?_⟩,fun _ _ => trivial⟩
  · cases found.symm.trans held
    refine ⟨fun g member rs row _ several => ?_,fun i g at' d row => ?_⟩
    · rw [(two member row).2] at several
      exact absurd several.2.2.1 (by decide)
    · cases (two (List.mem_of_getElem? at') row).2
  · cases found.symm.trans held
    obtain ⟨g,member,_,type⟩ := inSlot
    cases List.mem_singleton.mp member
    cases type

/-- One id written and erased leaves a byte in the counters. -/
theorem erase_leaves_byte : (∀ call ∈ [Call.insert zeros zeroBlocks 0 [97] 1 [0],.erase zeros zeroBlocks 0 [97] 1], WellFormed call) ∧
    ¬ ∃ s, run start [.insert zeros zeroBlocks 0 [97] 1 [0],.erase zeros zeroBlocks 0 [97] 1] = some s ∧
      Exact s (livePostings [.insert zeros zeroBlocks 0 [97] 1 [0],.erase zeros zeroBlocks 0 [97] 1]) := by
  have result : run start [.insert zeros zeroBlocks 0 [97] 1 [0],.erase zeros zeroBlocks 0 [97] 1] =
      some (stored { groups := [], numGroups := 0, numIds := 0, bytes := 1, maxBytes := 0 } 1) := by
    have first : step start (.insert zeros zeroBlocks 0 [97] 1 [0]) = some (stored oneRecord 2) :=
      @stored_insert _ newTerm _ 0 _ _ _ (.inl rfl) (by decide +kernel)
    have second : step (stored oneRecord 2) (.erase zeros zeroBlocks 0 [97] 1) =
        some (stored { groups := [], numGroups := 0, numIds := 0, bytes := 1, maxBytes := 0 } 1) := stored_erase (by decide +kernel)
    rw [run,first,Option.bind_some,run,second]
    rfl
  refine ⟨fun call member => ?_,fun all => ?_⟩
  · rcases List.mem_cons.mp member with rfl | other
    · exact ⟨⟨0,[],rfl,by decide,rfl⟩,by decide⟩
    · cases List.mem_singleton.mp other
      exact trivial
  · obtain ⟨s,ran,exact_⟩ := all
    cases result.symm.trans ran
    have bytes := exact_.bytes (0,97,[97]) _ (AList.lookup_insert _)
    exact absurd bytes (by decide +kernel)

end AnotherC.TermStore
