import Mathlib.Data.List.Basic

/-!
Machines that take letters and give words, and may refuse a letter. What they give for a stream of
blocks, each closed by its last letter, is what they give for the blocks that are complete
(`run_blocks`).
-/
namespace AnotherC.Lib.Transducer

variable {S A O M : Type} {step : S → A → Option (S × List O)}

def run (step : S → A → Option (S × List O)) : S → List A → Option (S × List O)
  | s, [] => some (s,[])
  | s, a :: as => do
    let one ← step s a
    let rest ← run step one.1 as
    some (rest.1,one.2 ++ rest.2)

theorem run_nil (s : S) : run step s [] = some (s,[]) := rfl

theorem run_cons {s t : S} {a : A} {as : List A} {out more : List O} {last : S} (first : step s a = some (t,out))
    (rest : run step t as = some (last,more)) : run step s (a :: as) = some (last,out ++ more) := by
  rw [run,first]
  simp only [Option.bind_eq_bind,Option.bind_some,rest]

theorem run_cons_inv {s last : S} {a : A} {as : List A} {all : List O} (ran : run step s (a :: as) = some (last,all)) :
    ∃ t out more, step s a = some (t,out) ∧ run step t as = some (last,more) ∧ all = out ++ more := by
  rw [run] at ran
  obtain ⟨⟨t,out⟩,first,ran⟩ := Option.bind_eq_some_iff.mp ran
  obtain ⟨⟨u,more⟩,rest,ran⟩ := Option.bind_eq_some_iff.mp ran
  obtain ⟨rfl,rfl⟩ := Prod.mk.inj (Option.some.inj ran)
  exact ⟨t,out,more,first,rest,rfl⟩

theorem run_append {s t last : S} {as bs : List A} {out more : List O} (first : run step s as = some (t,out))
    (rest : run step t bs = some (last,more)) : run step s (as ++ bs) = some (last,out ++ more) := by
  induction as generalizing s out with
  | nil =>
    obtain ⟨rfl,rfl⟩ := Prod.mk.inj (Option.some.inj first)
    exact rest
  | cons a as ih =>
    obtain ⟨u,one,two,stepped,ran,rfl⟩ := run_cons_inv first
    rw [List.append_assoc]
    exact run_cons stepped (ih ran)

theorem run_append_inv {s last : S} {as bs : List A} {all : List O} (ran : run step s (as ++ bs) = some (last,all)) :
    ∃ t out more, run step s as = some (t,out) ∧ run step t bs = some (last,more) ∧ all = out ++ more := by
  induction as generalizing s all with
  | nil => exact ⟨s,[],all,rfl,ran,rfl⟩
  | cons a as ih =>
    obtain ⟨t,one,rest,stepped,later,rfl⟩ := run_cons_inv ran
    obtain ⟨u,two,more,first,second,rfl⟩ := ih later
    exact ⟨u,one ++ two,more,run_cons stepped first,second,(List.append_assoc ..).symm⟩

/-- From `idle` the block leads back, and it gives nothing before its last letter. -/
structure Block (step : S → A → Option (S × List O)) (idle : S) (closes : A → Bool) (block : List A) (out : List O) :
    Prop where
  parts : ∃ front last s, block = front ++ [last] ∧ (∀ a ∈ front, closes a = false) ∧ closes last = true ∧
    run step idle front = some (s,[]) ∧ step s last = some (idle,out)

theorem Block.run {idle : S} {closes : A → Bool} {block : List A} {out : List O}
    (whole : Block step idle closes block out) : run step idle block = some (idle,out) := by
  obtain ⟨front,last,s,rfl,_,_,before,closed⟩ := whole.parts
  exact run_append before (run_cons closed (run_nil idle)) |>.trans (by rw [List.append_nil]; rfl)

theorem Block.countP {idle : S} {closes : A → Bool} {block : List A} {out : List O}
    (whole : Block step idle closes block out) : block.countP closes = 1 := by
  obtain ⟨front,last,s,rfl,opens,closed,_,_⟩ := whole.parts
  have none_ : front.countP closes = 0 := by
    rw [List.countP_eq_zero]
    intro a member
    rw [opens a member]
    exact Bool.false_ne_true
  rw [List.countP_append,none_,List.countP_singleton,if_pos closed]

/-- A part of a block gives nothing. -/
theorem Block.part {idle : S} {closes : A → Bool} {block as : List A} {out : List O}
    (whole : Block step idle closes block out) (part : as <+: block) :
    as = block ∨ as.countP closes = 0 ∧ ∃ s, Transducer.run step idle as = some (s,[]) := by
  obtain ⟨front,last,s,rfl,opens,_,before,_⟩ := whole.parts
  rcases List.prefix_concat_iff.mp part with all | ⟨rest,rfl⟩
  · exact .inl all
  · obtain ⟨t,out,more,ran,_,nothing⟩ := run_append_inv before
    obtain ⟨rfl,_⟩ := List.nil_eq_append_iff.mp nothing
    refine .inr ⟨?_,t,ran⟩
    rw [List.countP_eq_zero]
    intro a member
    rw [opens a (List.mem_append_left rest member)]
    exact Bool.false_ne_true

/-- **What is given is what the complete blocks give.** -/
theorem run_blocks {idle : S} {closes : A → Bool} {block : M → List A} {out : M → List O} {ms : List M} {as : List A}
    (blocks : ∀ m ∈ ms, Block step idle closes (block m) (out m)) (part : as <+: ms.flatMap block) :
    ∃ s, run step idle as = some (s,(ms.take (as.countP closes)).flatMap out) := by
  induction ms generalizing as with
  | nil =>
    have nothing : as = [] := List.prefix_nil.mp part
    exact ⟨idle,by rw [nothing]; rfl⟩
  | cons m ms ih =>
    have whole := blocks m (List.mem_cons_self ..)
    rw [List.flatMap_cons] at part
    rcases List.prefix_or_prefix_of_prefix part (List.prefix_append (block m) _) with short | ⟨rest,rfl⟩
    · rcases whole.part short with all | ⟨zero,s,ran⟩
      · refine ⟨idle,?_⟩
        rw [all,whole.run,whole.countP]
        simp
      · exact ⟨s,by rw [ran,zero]; rfl⟩
    · obtain ⟨s,ran⟩ := ih (fun n member => blocks n (List.mem_cons_of_mem m member))
        ((List.prefix_append_right_inj (block m)).mp part)
      refine ⟨s,?_⟩
      rw [run_append whole.run ran,List.countP_append,whole.countP,Nat.add_comm 1,List.take_succ_cons,List.flatMap_cons]

end AnotherC.Lib.Transducer
