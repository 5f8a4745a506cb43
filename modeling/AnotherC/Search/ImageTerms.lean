import AnotherC.Search.ImageReader
import Mathlib.Data.List.Forall2

/-!
# The postings of a term, written and read back

`encodeTerm_groups` says that the builder writes groups as the reader takes them, with
one record for each id, and `enumerate_all` that the reader delivers all of them.
-/
namespace AnotherC.ImageTerms
open AnotherC.Lib.Bytes AnotherC.Lib.Runs AnotherC.Lib.Scan AnotherC.ImageGroups AnotherC.ImageReader
set_option linter.unusedVariables false

/-! ## Records -/

section
variable {ds g : List TermData} {d : TermData}

theorem sid_or {id control : Nat} (nibble : control < 16) : id <<< 4 + control = id <<< 4 ||| control :=
  Nat.shiftLeft_add_eq_or_of_lt (by omega : control < 2 ^ 4) id

/-- The record of a value. -/
theorem encodeValue_record {sid : Nat} (small : sid < 4096) (value : Int) :
    ∃ r : IdRecord, r.id = sid ∧ encodeRecord r = encodeValue (sid <<< 4) value := by
  rw [encodeValue]
  by_cases word : 0 ≤ value ∧ value < 65536
  · rw [if_pos word]
    by_cases byte : value < 256
    · rw [if_pos byte]
      by_cases direct : value < 5
      · refine ⟨⟨sid,value.toNat,[],small,.direct (by omega)⟩,rfl,?_⟩
        rw [if_pos direct,encodeRecord,List.append_nil,sid_or (by omega)]
      · exact ⟨⟨sid,5,[UInt8.ofNat value.toNat],small,.uint8 _⟩,rfl,by rw [if_neg direct]; rfl⟩
    · exact ⟨⟨sid,6,[UInt8.ofNat value.toNat,UInt8.ofNat (value.toNat / 256)],small,.uint16 _ _⟩,rfl,by rw [if_neg byte]; rfl⟩
  · exact ⟨⟨sid,7,[_,_,_,_],small,.int32 _ _ _ _⟩,rfl,by rw [if_neg word]; rfl⟩

/-- The record of positions. -/
theorem encodePositions_record {sid : Nat} (small : sid < 4096) (some_ : 0 < ds.length) (few : ds.length ≤ 16384) :
    ∃ r : IdRecord, r.id = sid ∧ encodeRecord r = encodePositions (sid <<< 4) ds := by
  have sums := positionSize_sum ds
  have length : (ds.flatMap encodePosition).length = (ds.map positionSize).sum := by
    rw [List.length_flatMap]
    exact congrArg List.sum (List.map_congr_left fun d _ => encodePosition_length d)
  have sum : ((ds.map positionSize).sum % 2 ^ 32 + (2 ^ 32 - 1)) % 2 ^ 32 = (ds.map positionSize).sum - 1 := by omega
  rw [encodePositions,sum,← length]
  rw [← length] at sums
  by_cases large : (ds.flatMap encodePosition).length - 1 > 7
  · refine ⟨⟨sid,8,bytes 4 ((ds.flatMap encodePosition).length - 1) ++ ds.flatMap encodePosition,small,
      .many ⟨by omega,by omega⟩⟩,rfl,?_⟩
    rw [if_pos large,List.append_assoc]
    rfl
  · refine ⟨⟨sid,8 + ((ds.flatMap encodePosition).length - 1),ds.flatMap encodePosition,small,.few ⟨by omega,by omega⟩⟩,rfl,?_⟩
    have bits : ∀ n < 8, 8 + n = 8 ||| n := by decide
    rw [if_neg large,Nat.or_assoc,← bits _ (by omega)]
    rfl

/-- The record of an id. -/
theorem encodeId_record (delivered : Delivered ds) (same : ∀ d ∈ ds, ∀ e ∈ ds, d.id = e.id) (some_ : ds ≠ []) :
    ∃ r : IdRecord, (∀ d ∈ ds, r.id = subId d) ∧ encodeRecord r = encodeId ds := by
  obtain ⟨d,more,rfl⟩ := List.exists_cons_of_ne_nil some_
  have small : subId d < 4096 := by
    rw [subId_eq]
    omega
  have one : ∀ r : IdRecord, r.id = subId d → ∀ e ∈ d :: more, r.id = subId e := by
    intro r first e member
    rw [first,subId_eq,subId_eq,same d (by simp) e member]
  rw [encodeId]
  by_cases single : more = [] ∧ d.position = 0
  · obtain ⟨r,id,encoded⟩ := encodeValue_record small d.value
    exact ⟨r,one r id,by rw [encoded,if_pos single]⟩
  · obtain ⟨r,id,encoded⟩ := encodePositions_record small (by simp) (delivered.positions same)
    exact ⟨r,one r id,by rw [encoded,if_neg single]⟩

/-! ## Groups -/

theorem exists_forall₂ {α β : Type} {P : α → β → Prop} {l : List α} (each : ∀ a ∈ l, ∃ b, P a b) :
    ∃ m, List.Forall₂ P l m := by
  induction l with
  | nil => exact ⟨[],.nil⟩
  | cons a l ih =>
    obtain ⟨b,first⟩ := each a (by simp)
    obtain ⟨m,later⟩ := ih fun other member => each other (by simp [member])
    exact ⟨b :: m,.cons first later⟩

theorem flatMap_forall₂ {α β γ : Type} {P : α → β → Prop} {f : α → List γ} {h : β → List γ} {l : List α} {m : List β}
    (related : List.Forall₂ P l m) (same : ∀ a b, P a b → f a = h b) : l.flatMap f = m.flatMap h := by
  induction related with
  | nil => rfl
  | cons first later ih => rw [List.flatMap_cons,List.flatMap_cons,same _ _ first,ih]

/-- What is related to an element of one list is in the other. -/
theorem mem_forall₂ {α β : Type} {P : α → β → Prop} {l : List α} {m : List β} (related : List.Forall₂ P l m) :
    (∀ a ∈ l, ∃ b ∈ m, P a b) ∧ ∀ b ∈ m, ∃ a ∈ l, P a b := by
  induction related with
  | nil => simp
  | cons first later ih =>
    obtain ⟨left,right⟩ := ih
    constructor
    · intro a member
      rcases List.mem_cons.mp member with rfl | tail
      · exact ⟨_,List.mem_cons_self,first⟩
      · obtain ⟨b,held,holds⟩ := left a tail
        exact ⟨b,List.mem_cons_of_mem _ held,holds⟩
    · intro b member
      rcases List.mem_cons.mp member with rfl | tail
      · exact ⟨_,List.mem_cons_self,first⟩
      · obtain ⟨a,held,holds⟩ := right b tail
        exact ⟨a,List.mem_cons_of_mem _ held,holds⟩

/-- Lists in related orders. -/
theorem pairwise_forall₂ {α β : Type} {P : α → β → Prop} {R : α → α → Prop} {S : β → β → Prop} {l : List α} {m : List β}
    (related : List.Forall₂ P l m) (ordered : l.Pairwise R) (mono : ∀ a a' b b', P a b → P a' b' → R a a' → S b b') :
    m.Pairwise S := by
  induction related with
  | nil => exact .nil
  | cons first later ih =>
    obtain ⟨head,tail⟩ := List.pairwise_cons.mp ordered
    refine .cons (fun b member => ?_) (ih tail)
    obtain ⟨a,held,holds⟩ := (mem_forall₂ later).2 b member
    exact mono _ _ _ _ first holds (head a held)

theorem forall₂_trans {α β γ : Type} {P : α → β → Prop} {Q : β → γ → Prop} {l : List α} {m : List β} {n : List γ}
    (first : List.Forall₂ P l m) (second : List.Forall₂ Q m n) :
    List.Forall₂ (fun a c => a ∈ l ∧ ∃ b ∈ m, P a b ∧ Q b c) l n := by
  induction first generalizing n with
  | nil =>
    cases second
    exact .nil
  | cons head tail ih =>
    cases second with
    | cons head' tail' =>
      refine .cons ⟨List.mem_cons_self,_,List.mem_cons_self,head,head'⟩ ((ih tail').imp fun a c both => ?_)
      obtain ⟨inside,b,held,left,right⟩ := both
      exact ⟨List.mem_cons_of_mem _ inside,b,List.mem_cons_of_mem _ held,left,right⟩

/-- The group that is written for postings of a group. -/
structure Writes (g : List TermData) (G : ImageGroup) : Prop where
  encoded : encodeImageGroup G = encodeGroup g
  number : ∀ d ∈ g, G.number = d.id / 4096
  ids : ∀ id, (∃ x ∈ idsFrom (G.number <<< 12) G.records, x.1 = id) ↔ ∃ d ∈ g, d.id = id

theorem encodeGroup_writes (delivered : Delivered ds) (member : g ∈ runs groupOf ds) (fits : groupSize g ≤ 4194303) :
    ∃ G, Writes g G := by
  have sub := run_sublist member
  have inGroup := delivered.sublist sub
  have each : ∀ run ∈ runs subId g, ∃ r : IdRecord, (∀ d ∈ run, r.id = subId d) ∧ encodeRecord r = encodeId run := by
    intro run member'
    exact encodeId_record (inGroup.sublist (run_sublist member')) (delivered.same_id member member') (run_ne_nil member')
  obtain ⟨records,related⟩ := exists_forall₂ each
  have small : ∀ d ∈ g, d.id < 2 ^ 28 := fun d held => (inGroup.accepted d held).id
  have numbers : ∀ d ∈ g, ∀ e ∈ g, d.id / 4096 = e.id / 4096 := by
    intro d first e second
    have same := run_key member first second
    have := small d first
    have := small e second
    rw [groupOf_eq,groupOf_eq] at same
    omega
  have body : encodeRecords records = groupBody g := (flatMap_forall₂ related fun _ _ both => both.2.symm).symm
  have ordered : g.Pairwise fun a b => subId a = subId b ∨ subId a < subId b := by
    refine inGroup.sorted.imp_of_mem fun {a b} first second before => ?_
    have same := numbers a first b second
    rw [subId_eq,subId_eq]
    rcases before with less | ⟨equal,_⟩ <;> omega
  have ascending : records.Pairwise fun r s => r.id < s.id := by
    have runsAscend := runs_ascending (· < ·) (fun _ _ _ => Nat.lt_trans) ordered
    have withMembers := runsAscend.imp_of_mem (S := fun a b : List TermData => (∃ d ∈ a, ∃ e ∈ b, subId d < subId e))
      fun {a b} first second less => by
        obtain ⟨d,ds',rfl,_⟩ := run_shape first
        obtain ⟨e,es',rfl,_⟩ := run_shape second
        exact ⟨d,by simp,e,by simp,less d (by simp) e (by simp)⟩
    refine pairwise_forall₂ related withMembers fun a a' b b' left right less => ?_
    obtain ⟨d,here,e,there,smaller⟩ := less
    rw [left.1 d here,right.1 e there]
    exact smaller
  obtain ⟨d,more,rfl⟩ := List.exists_cons_of_ne_nil (run_ne_nil member)
  have some_ : records ≠ [] := by
    obtain ⟨run,held,_⟩ := exists_run subId (List.mem_cons_self (a := d) (l := more))
    obtain ⟨r,inside,_⟩ := (mem_forall₂ related).1 run held
    exact List.ne_nil_of_mem inside
  have first := small d (by simp)
  refine ⟨⟨d.id / 4096,records,by omega,some_,ascending,?_⟩,?_,fun e held => numbers d (by simp) e held,fun id => ?_⟩
  · rw [body,groupBody_length delivered member]
    exact fits
  · have number : groupOf d >>> 12 = d.id / 4096 := by
      rw [groupOf_shift]
      omega
    rw [encodeImageGroup,encodeGroup,number]
    simp only [body]
  · constructor
    · rintro ⟨x,inside,rfl⟩
      obtain ⟨r,held,rfl⟩ := List.mem_map.mp inside
      obtain ⟨run,inRuns,both⟩ := (mem_forall₂ related).2 r held
      obtain ⟨e,es,rfl,_⟩ := run_shape inRuns
      have inG := run_subset inRuns e (by simp)
      have same := numbers d (by simp) e inG
      refine ⟨e,inG,?_⟩
      simp only
      rw [both.1 e (by simp),subId_eq]
      omega
    · rintro ⟨e,inG,rfl⟩
      obtain ⟨run,inRuns,inRun⟩ := exists_run subId inG
      obtain ⟨r,held,both⟩ := (mem_forall₂ related).1 run inRuns
      have same := numbers d (by simp) e inG
      refine ⟨_,List.mem_map_of_mem held,?_⟩
      simp only
      rw [both.1 e inRun,subId_eq]
      omega

/-- The groups that are written for the postings of a term, and the ids in them. -/
theorem encodeTerm_groups (delivered : Delivered ds) (fits : ∀ g ∈ runs groupOf ds, groupSize g ≤ 4194303) :
    ∃ gs, encodeTerm ds = encodeGroups gs ∧ GroupsAscend gs ∧ ∀ id, (∃ x ∈ ids gs, x.1 = id) ↔ ∃ d ∈ ds, d.id = id := by
  obtain ⟨gs,related⟩ := exists_forall₂ fun g member => encodeGroup_writes delivered member (fits g member)
  refine ⟨gs,flatMap_forall₂ related fun _ _ writes => writes.encoded.symm,?_,fun id => ?_⟩
  · have ordered : ds.Pairwise fun a b => groupOf a = groupOf b ∨ groupOf a < groupOf b := by
      refine delivered.sorted.imp_of_mem fun {a b} first second before => ?_
      have := (delivered.accepted a first).id
      have := (delivered.accepted b second).id
      rw [groupOf_eq,groupOf_eq]
      rcases before with less | ⟨equal,_⟩ <;> omega
    have runsAscend := runs_ascending (· < ·) (fun _ _ _ => Nat.lt_trans) ordered
    have withMembers := runsAscend.imp_of_mem
      (S := fun a b : List TermData => (∃ d ∈ a, ∃ e ∈ b, groupOf d < groupOf e ∧ d.id < 2 ^ 28 ∧ e.id < 2 ^ 28))
      fun {a b} first second less => by
        obtain ⟨d,ds',rfl,_⟩ := run_shape first
        obtain ⟨e,es',rfl,_⟩ := run_shape second
        exact ⟨d,by simp,e,by simp,less d (by simp) e (by simp),(delivered.accepted d (run_subset first d (by simp))).id,
          (delivered.accepted e (run_subset second e (by simp))).id⟩
    refine pairwise_forall₂ related withMembers fun a a' G G' left right less => ?_
    obtain ⟨d,here,e,there,smaller,_,_⟩ := less
    rw [groupOf_eq,groupOf_eq] at smaller
    rw [left.number d here,right.number e there]
    omega
  · constructor
    · rintro ⟨x,inside,rfl⟩
      obtain ⟨G,held,inG⟩ := List.mem_flatMap.mp inside
      obtain ⟨g,inRuns,writes⟩ := (mem_forall₂ related).2 G held
      obtain ⟨d,inGroup,same⟩ := (writes.ids x.1).mp ⟨x,inG,rfl⟩
      exact ⟨d,run_subset inRuns d inGroup,same⟩
    · rintro ⟨d,inTerm,rfl⟩
      obtain ⟨g,inRuns,inGroup⟩ := exists_run groupOf inTerm
      obtain ⟨G,held,writes⟩ := (mem_forall₂ related).1 g inRuns
      obtain ⟨x,inside,same⟩ := (writes.ids d.id).mpr ⟨d,inGroup,rfl⟩
      exact ⟨x,List.mem_flatMap.mpr ⟨G,held,inside⟩,same⟩

end

/-! ## All ids of a term -/

/-- The ids that are delivered until an advance answers false. -/
def enumerate : Nat → ImageTerm → Option (List Nat)
  | 0, _ => none
  | fuel + 1, t =>
    match imageAdvance t with
    | none => none
    | some (false,_) => some []
    | some (true,t) => (enumerate fuel t).map fun later => t.id :: later

section
variable {items : List (Nat × IdRecord)} {item : Nat × IdRecord} {t : ImageTerm} {gs : List ImageGroup}

theorem enumerate_on {fuel : Nat} {rest : List (Nat × IdRecord)} (on : On items t item) (stands : Stands items item rest)
    (enough : rest.length < fuel) : enumerate fuel t = some (rest.map Prod.fst) := by
  induction fuel generalizing t item rest with
  | zero => exact absurd enough (Nat.not_lt_zero _)
  | succ fuel ih =>
    have delivers := advance_on on
    rw [stands.above] at delivers
    cases rest with
    | nil =>
      obtain ⟨t',returned,_⟩ := delivers.2 rfl
      rw [enumerate,returned]
      rfl
    | cons next rest =>
      obtain ⟨t',returned,on'⟩ := delivers.1 next rfl
      have stands' : Stands items next rest := by
        obtain ⟨before,whole⟩ := stands.split
        exact ⟨stands.ascending,before ++ [item],by rw [whole,List.append_cons]⟩
      have id : t'.id = next.1 := by
        obtain ⟨_,_,_,_,same,_⟩ := on'
        exact same
      rw [enumerate,returned]
      simp only [ih on' stands' (by simpa using enough),Option.map_some,List.map_cons,id]

/-- A fresh reader delivers every id once, in order. -/
theorem enumerate_all {fuel : Nat} (at' : At (ids gs) t .fresh) (enough : (ids gs).length < fuel) :
    enumerate fuel t = some ((ids gs).map Prod.fst) := by
  cases at' with
  | fresh shape ahead gid id left =>
    have delivers := advance_fresh shape ahead gid id left
    have ascending : Ascending (ids gs) := by
      rw [shape]
      exact ascending_ids ahead.ascend
    cases fuel with
    | zero => exact absurd enough (Nat.not_lt_zero _)
    | succ fuel =>
      cases list : ids gs with
      | nil =>
        rw [list] at delivers
        obtain ⟨t',returned,_⟩ := delivers.2 rfl
        rw [enumerate,returned]
        rfl
      | cons first rest =>
        rw [list] at delivers enough ascending
        obtain ⟨t',returned,on⟩ := delivers.1 first rfl
        have id : t'.id = first.1 := by
          obtain ⟨_,_,_,_,same,_⟩ := on
          exact same
        rw [enumerate,returned]
        simp only [enumerate_on on ⟨ascending,[],rfl⟩ (by simpa using enough),Option.map_some,List.map_cons,id]

end

end AnotherC.ImageTerms
