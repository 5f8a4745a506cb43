import AnotherC.Io.InExt

/-!
# An array of records as an input: `ac_in_records_t`

Without a reducer the records come one by one (`records_all`). With a reducer
every maximal run of adjacent equal records is handed to it once
(`records_reduce`).
-/
namespace AnotherC.Records
open AnotherC.Lib
open AnotherC.Lib.Order (EquivalenceOn runs spanRun)
open AnotherC.Lib.Stream (Yields Finally)
open AnotherC.InExt (Reducer collect calls)
set_option linter.unusedVariables false

/-- What the function pointer `advance` of the array is. -/
inductive AdvanceCb
  | recordsAdvance
  | recordsAdvanceAndReduce
  | emptyRecord
deriving Repr, DecidableEq

/-- The array; `rp` are the records from the pointer `rp` up to `ep`. -/
structure InRecords (ρ ς : Type) where
  rp : List ρ
  advance : AdvanceCb
  reducer : Option (Reducer ρ ς)
  reducerArg : ς

section
variable {ρ ς : Type} (compare : ρ → ρ → Int)

def acInRecordsInit (records : List ρ) (reducer : Option (Reducer ρ ς)) (arg : ς) : InRecords ρ ς where
  rp := records
  advance := if reducer.isSome then .recordsAdvanceAndReduce else .recordsAdvance
  reducer := reducer
  reducerArg := arg

/-- `_ac_in_empty`. -/
def acInEmpty (h : InRecords ρ ς) : InRecords ρ ς := { h with advance := .emptyRecord }

def acInRecordsAdvance (h : InRecords ρ ς) : Option ρ × InRecords ρ ς :=
  match h.rp with
  | [] => (none,acInEmpty h)
  | r :: rp => (some r,{ h with rp := rp })

/-- The runs are handed to the reducer until it accepts one; `spanRun` is the
    inner loop. -/
def acInRecordsAdvanceAndReduce (reducer : Reducer ρ ς) (h : InRecords ρ ς) : Option ρ × InRecords ρ ς :=
  match left : h.rp with
  | [] => (none,acInEmpty h)
  | cur :: rp =>
    let group := spanRun compare cur rp
    match reducer h.reducerArg (cur :: group.1) with
    | (some res,arg) => (some res,{ h with rp := group.2, reducerArg := arg })
    | (none,arg) => acInRecordsAdvanceAndReduce reducer { h with rp := group.2, reducerArg := arg }
termination_by h.rp.length
decreasing_by
  have := Order.spanRun_length compare cur rp
  rw [left,List.length_cons]
  exact Nat.lt_succ_of_le this

/-- `ac_in_advance`: the call through the function pointer. -/
def acInAdvance (h : InRecords ρ ς) : Option (Option ρ × InRecords ρ ς) :=
  match h.advance with
  | .recordsAdvance => some (acInRecordsAdvance h)
  | .recordsAdvanceAndReduce =>
    match h.reducer with
    | some reducer => some (acInRecordsAdvanceAndReduce compare reducer h)
    | none => none
  | .emptyRecord => some (none,h)

theorem records_all (records : List ρ) (arg : ς) :
    Yields (acInAdvance compare) (acInRecordsInit records none arg) records := by
  induction records with
  | nil => exact Yields.nil (show _ = some (none,acInEmpty (acInRecordsInit [] none arg)) from rfl) (Yields.stop rfl)
  | cons r records ih => exact Yields.cons rfl ih

theorem reduce_nil (reducer : Reducer ρ ς) {h : InRecords ρ ς} (left : h.rp = []) :
    acInRecordsAdvanceAndReduce compare reducer h = (none,acInEmpty h) := by
  rw [acInRecordsAdvanceAndReduce]
  split <;> rename_i same <;> rw [left] at same
  cases same

theorem reduce_cons (reducer : Reducer ρ ς) {h : InRecords ρ ς} {cur : ρ} {rp : List ρ} (left : h.rp = cur :: rp) :
    acInRecordsAdvanceAndReduce compare reducer h =
      match reducer h.reducerArg (cur :: (spanRun compare cur rp).1) with
      | (some res,arg) => (some res,{ h with rp := (spanRun compare cur rp).2, reducerArg := arg })
      | (none,arg) =>
        acInRecordsAdvanceAndReduce compare reducer { h with rp := (spanRun compare cur rp).2, reducerArg := arg } := by
  rw [acInRecordsAdvanceAndReduce]
  split <;> rename_i same <;> rw [left] at same <;> cases same
  rfl

/-- Every maximal run is handed to the reducer once. -/
theorem records_reduce (reducer : Reducer ρ ς) (arg : ς) {records : List ρ} (same : EquivalenceOn compare records) :
    Yields (acInAdvance compare) (acInRecordsInit records (some reducer) arg)
        (collect reducer arg (runs compare records)) ∧
      Finally (acInAdvance compare) (acInRecordsInit records (some reducer) arg) fun last =>
        last.reducerArg = calls reducer arg (runs compare records) := by
  induction size : records.length using Nat.strongRecOn generalizing records arg with
  | ind size ih =>
    have step : acInAdvance compare (acInRecordsInit records (some reducer) arg) =
        some (acInRecordsAdvanceAndReduce compare reducer (acInRecordsInit records (some reducer) arg)) := rfl
    cases records with
    | nil =>
      rw [reduce_nil compare reducer rfl] at step
      exact ⟨Yields.nil step (Yields.stop rfl),Finally.cons step (Finally.stop rfl rfl)⟩
    | cons cur rp =>
      have fewer := Order.spanRun_length compare cur rp
      have whole := Order.spanRun_append compare cur rp
      rw [List.length_cons] at size
      have rest := fun arg => ih (spanRun compare cur rp).2.length (by omega) arg
        (same.mono fun a member => List.mem_cons_of_mem _ (whole ▸ List.mem_append_right _ member)) rfl
      rw [reduce_cons compare reducer rfl] at step
      simp only [acInRecordsInit] at step
      rw [Order.runs_cons same]
      rcases reduced : reducer arg (cur :: (spanRun compare cur rp).1) with ⟨_ | res,arg'⟩
      all_goals simp only [reduced] at step
      all_goals simp only [collect,calls,List.foldl_cons,reduced]
      · have moves : acInAdvance compare (acInRecordsInit (spanRun compare cur rp).2 (some reducer) arg') =
            acInAdvance compare (acInRecordsInit (cur :: rp) (some reducer) arg) := step.symm
        exact ⟨Yields.congr moves (rest arg').1,Finally.congr moves (rest arg').2⟩
      · exact ⟨Yields.cons step (rest arg').1,Finally.cons step (rest arg').2⟩

end
end AnotherC.Records
