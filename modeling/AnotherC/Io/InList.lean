import AnotherC.Lib.Concat

/-!
Inputs that read other inputs one after the other (`ac_in.c`): from a list of
files (`ac_in_init_from_list`) and from a callback (`ac_in_init_from_cb`). What a
member does is a parameter: `step` is its `advance`, and `acInInit` opens a file.
-/
namespace AnotherC.InList
open AnotherC.Lib.Stream AnotherC.Lib.Concat
set_option linter.unusedVariables false

/-- `ac_in_options_t`; `κ` stands for the compare and reducer callbacks. -/
structure AcInOptions (κ : Type) where
  bufferSize : Nat
  compressedBufferSize : Nat
  format : Int
  abortOnError : Bool
  abortOnPartialRecord : Bool
  abortOnFileNotFound : Bool
  abortOnFileEmpty : Bool
  tag : Int
  gz : Bool
  lz4 : Bool
  fullRecordRequired : Bool
  reducer : Option κ

def acInOptionsInit {κ : Type} : AcInOptions κ where
  bufferSize := 128 * 1024
  compressedBufferSize := 0
  format := 0
  abortOnError := false
  abortOnPartialRecord := false
  abortOnFileNotFound := false
  abortOnFileEmpty := false
  tag := 0
  gz := false
  lz4 := false
  fullRecordRequired := true
  reducer := none

/-- `ac_io_file_info_t`, what opening a file uses of it. -/
structure AcIoFileInfo where
  filename : String
  size : Nat
  tag : Int

/-- The options that a file of the list is opened with. -/
def fileOptions {κ : Type} (options : AcInOptions κ) (file : AcIoFileInfo) : AcInOptions κ :=
  { options with
    bufferSize := if file.size < options.bufferSize then file.size else options.bufferSize
    tag := file.tag }

/-- Which function `h->advance` points at: the one set by the constructor, or `empty_record`. -/
inductive Advance where
  | members
  | emptyRecord

/-- `ac_in_list_t`. -/
structure AcInList (σ ρ κ : Type) where
  options : AcInOptions κ
  filep : List AcIoFileInfo
  curIn : Option σ
  current : Option ρ
  numCurrent : Nat
  advance : Advance

/-- `ac_in_cb_t`; `arg` is all that the callback reads and changes. -/
structure AcInCb (σ ρ α : Type) where
  arg : α
  curIn : Option σ
  current : Option ρ
  numCurrent : Nat
  advance : Advance

section
variable {σ ρ κ α : Type} (step : σ → Option (Option ρ × σ))

section files
variable (acInInit : String → AcInOptions κ → Option σ)

/-- `while (!h->cur_in && h->filep < h->fileep)`, from a NULL `cur_in`. -/
def openNext (options : AcInOptions κ) : List AcIoFileInfo → Option σ × List AcIoFileInfo
  | [] => (none,[])
  | file :: filep =>
    match acInInit file.filename (fileOptions options file) with
    | some curIn => (some curIn,filep)
    | none => openNext options filep

def AcInList.acInEmpty (h : AcInList σ ρ κ) : AcInList σ ρ κ :=
  { h with current := none, numCurrent := 0, advance := .emptyRecord }

/-- `advance_file_list`; no answer is a NULL `cur_in` dereferenced. -/
def advanceFileList (h : AcInList σ ρ κ) : Option (Option ρ × AcInList σ ρ κ) :=
  h.curIn.bind fun curIn =>
  (step curIn).bind fun answer =>
    match answer.1 with
    | some r => some (some r,{ h with curIn := some answer.2, current := some r, numCurrent := 1 })
    | none =>
      match openNext acInInit h.options h.filep with
      | (none,filep) => some (none,{ h with curIn := none, filep := filep }.acInEmpty)
      | (some curIn,filep) =>
        (step curIn).map fun answer =>
          (answer.1,{ h with curIn := some answer.2, filep := filep, current := answer.1, numCurrent := 1 })

/-- `ac_in_init_from_list`; the files of size 0 are not kept. -/
def acInInitFromList (files : List AcIoFileInfo) (options : Option (AcInOptions κ)) : Option (AcInList σ ρ κ) :=
  if files = [] then none
  else
    let options := options.getD acInOptionsInit
    let opened := openNext acInInit options (files.filter (·.size ≠ 0))
    some { options := options, filep := opened.2, curIn := opened.1, current := none, numCurrent := 0, advance := .members }

/-- `ac_in_advance` of such a handle, NULL included. -/
def acInAdvance : Option (AcInList σ ρ κ) → Option (Option ρ × Option (AcInList σ ρ κ))
  | none => some (none,none)
  | some h =>
    match h.advance with
    | .members => (advanceFileList step acInInit h).map fun answer => (answer.1,some answer.2)
    | .emptyRecord => some (none,some h)

/-- The files that the list opens. -/
def openedFiles (options : AcInOptions κ) (files : List AcIoFileInfo) : List AcIoFileInfo :=
  files.filter fun file => file.size ≠ 0 ∧ (acInInit file.filename (fileOptions options file)).isSome

end files

section callback
variable (cb : α → Option σ × α)

def AcInCb.acInEmpty (h : AcInCb σ ρ α) : AcInCb σ ρ α :=
  { h with current := none, numCurrent := 0, advance := .emptyRecord }

/-- `advance_cb`. -/
def advanceCb (h : AcInCb σ ρ α) : Option (Option ρ × AcInCb σ ρ α) :=
  h.curIn.bind fun curIn =>
  (step curIn).bind fun answer =>
    match answer.1 with
    | some r => some (some r,{ h with curIn := some answer.2, current := some r, numCurrent := 1 })
    | none =>
      match cb h.arg with
      | (none,arg) => some (none,{ h with curIn := none, arg := arg }.acInEmpty)
      | (some curIn,arg) =>
        (step curIn).map fun answer =>
          (answer.1,{ h with curIn := some answer.2, arg := arg, current := answer.1, numCurrent := 1 })

def acInInitFromCb (arg : α) : Option (AcInCb σ ρ α) :=
  match cb arg with
  | (none,_) => none
  | (some curIn,arg) =>
    some { arg := arg, curIn := some curIn, current := none, numCurrent := 0, advance := .members }

def acInAdvanceCb : Option (AcInCb σ ρ α) → Option (Option ρ × Option (AcInCb σ ρ α))
  | none => some (none,none)
  | some h =>
    match h.advance with
    | .members => (advanceCb step cb h).map fun answer => (answer.1,some answer.2)
    | .emptyRecord => some (none,some h)

end callback

/-! Both are the machine that reads members one after the other. -/

section views
variable (acInInit : String → AcInOptions κ → Option σ) (cb : α → Option σ × α)

/-- The files not opened yet, as a source of inputs. -/
def nextFile (source : AcInOptions κ × List AcIoFileInfo) : Option σ × (AcInOptions κ × List AcIoFileInfo) :=
  let opened := openNext acInInit source.1 source.2
  (opened.1,(source.1,opened.2))

def viewList : Option (AcInList σ ρ κ) → State σ (AcInOptions κ × List AcIoFileInfo)
  | none => .ended
  | some h =>
    match h.advance with
    | .members => .reading h.curIn (h.options,h.filep)
    | .emptyRecord => .ended

def viewCb : Option (AcInCb σ ρ α) → State σ α
  | none => .ended
  | some h =>
    match h.advance with
    | .members => .reading h.curIn h.arg
    | .emptyRecord => .ended

theorem acInAdvance_view (h : Option (AcInList σ ρ κ)) :
    (acInAdvance step acInInit h).map (fun answer => (answer.1,viewList answer.2)) =
      concat step (nextFile acInInit) (viewList h) := by
  cases h with
  | none => rfl
  | some h =>
    obtain ⟨options,filep,curIn,current,numCurrent,advance⟩ := h
    cases advance with
    | emptyRecord => rfl
    | members =>
      cases curIn with
      | none => rfl
      | some curIn =>
        simp only [acInAdvance,advanceFileList,viewList,concat,Option.bind_some]
        cases step curIn with
        | none => rfl
        | some answer =>
          obtain ⟨answer,s'⟩ := answer
          cases answer with
          | some r => rfl
          | none =>
            simp only [Option.bind_some,nextFile]
            rcases openNext acInInit options filep with ⟨opened_,later⟩
            cases opened_ with
            | none => rfl
            | some s =>
              simp only [opened]
              cases step s <;> rfl

theorem acInAdvanceCb_view (h : Option (AcInCb σ ρ α)) :
    (acInAdvanceCb step cb h).map (fun answer => (answer.1,viewCb answer.2)) = concat step cb (viewCb h) := by
  cases h with
  | none => rfl
  | some h =>
    obtain ⟨arg,curIn,current,numCurrent,advance⟩ := h
    cases advance with
    | emptyRecord => rfl
    | members =>
      cases curIn with
      | none => rfl
      | some curIn =>
        simp only [acInAdvanceCb,advanceCb,viewCb,concat,Option.bind_some]
        cases step curIn with
        | none => rfl
        | some answer =>
          obtain ⟨answer,s'⟩ := answer
          cases answer with
          | some r => rfl
          | none =>
            simp only [Option.bind_some]
            rcases cb arg with ⟨opened_,later⟩
            cases opened_ with
            | none => rfl
            | some s =>
              simp only [opened]
              cases step s <;> rfl

end views

section contract
variable {step}
variable {acInInit : String → AcInOptions κ → Option σ} {options : AcInOptions κ} {cb : α → Option σ × α}

/-- What the files of the list hold: a handle yields the records of its file, and a
    file that is not opened, or has size 0, holds none. -/
structure Opens (step : σ → Option (Option ρ × σ)) (acInInit : String → AcInOptions κ → Option σ)
    (options : AcInOptions κ) (files : List AcIoFileInfo) (records : AcIoFileInfo → List ρ) : Prop where
  yields : ∀ file ∈ files, file.size ≠ 0 → ∀ s, acInInit file.filename (fileOptions options file) = some s →
    Yields step s (records file)
  absent : ∀ file ∈ files, acInInit file.filename (fileOptions options file) = none → records file = []
  empty : ∀ file ∈ files, file.size = 0 → records file = []

theorem Opens.tail {file : AcIoFileInfo} {files : List AcIoFileInfo} {records : AcIoFileInfo → List ρ}
    (opens : Opens step acInInit options (file :: files) records) : Opens step acInInit options files records where
  yields f member := opens.yields f (List.mem_cons_of_mem _ member)
  absent f member := opens.absent f (List.mem_cons_of_mem _ member)
  empty f member := opens.empty f (List.mem_cons_of_mem _ member)

/-- The files kept by the constructor produce the files that the list opens. -/
theorem files_members {files : List AcIoFileInfo} {records : AcIoFileInfo → List ρ}
    (opens : Opens step acInInit options files records) :
    Members step (nextFile acInInit) (options,files.filter (·.size ≠ 0))
      ((openedFiles acInInit options files).map records) := by
  induction files with
  | nil => exact .ended rfl
  | cons file files ih =>
    have later := ih opens.tail
    unfold openedFiles at later ⊢
    by_cases empty : file.size = 0
    · rw [List.filter_cons_of_neg (by simpa using empty),List.filter_cons_of_neg (by simp [empty])]
      exact later
    · rw [List.filter_cons_of_pos (by simpa using empty)]
      cases handle : acInInit file.filename (fileOptions options file) with
      | none =>
        rw [List.filter_cons_of_neg (by simp [handle])]
        apply later.congr
        simp only [nextFile,openNext,handle]
      | some s =>
        rw [List.filter_cons_of_pos (by simp [handle,empty]),List.map_cons]
        apply Members.member _ (opens.yields file List.mem_cons_self empty s handle) later
        simp only [nextFile,openNext,handle]

/-- The files that are not opened hold nothing. -/
theorem files_flatten {files : List AcIoFileInfo} {records : AcIoFileInfo → List ρ}
    (opens : Opens step acInInit options files records) :
    ((openedFiles acInInit options files).map records).flatten = files.flatMap records := by
  induction files with
  | nil => rfl
  | cons file files ih =>
    have later := ih opens.tail
    unfold openedFiles at later ⊢
    rw [List.flatMap_cons,← later]
    by_cases empty : file.size = 0
    · rw [List.filter_cons_of_neg (by simp [empty]),opens.empty file List.mem_cons_self empty,List.nil_append]
    · cases handle : acInInit file.filename (fileOptions options file) with
      | none =>
        rw [List.filter_cons_of_neg (by simp [handle]),opens.absent file List.mem_cons_self handle,List.nil_append]
      | some s => rw [List.filter_cons_of_pos (by simp [handle,empty]),List.map_cons,List.flatten_cons]

theorem list_yields_iff {files : List AcIoFileInfo} {options : Option (AcInOptions κ)} {records : AcIoFileInfo → List ρ}
    (opens : Opens step acInInit (options.getD acInOptionsInit) files records) :
    Yields (acInAdvance step acInInit) (acInInitFromList acInInit files options) (files.flatMap records) ↔
      (files = [] ∨ openedFiles acInInit (options.getD acInOptionsInit) files ≠ []) ∧
        Unbroken ((openedFiles acInInit (options.getD acInOptionsInit) files).tail.map records) := by
  rw [Yields.view_iff viewList (acInAdvance_view step acInInit),acInInitFromList]
  by_cases none : files = []
  · subst none
    exact iff_of_true ended_yields ⟨.inl rfl,List.Pairwise.nil⟩
  · rw [if_neg none,← files_flatten opens]
    refine (first_yields_iff (files_members opens)).trans ?_
    rw [List.map_tail]
    simp [none]

theorem cb_yields_iff {arg : α} {members : List (List ρ)} (these : Members step cb arg members) :
    Yields (acInAdvanceCb step cb) (acInInitFromCb cb arg) members.flatten ↔ Unbroken members.tail := by
  rw [Yields.view_iff viewCb (acInAdvanceCb_view step cb),acInInitFromCb]
  cases these with
  | ended absent =>
    rw [absent]
    exact iff_of_true ended_yields List.Pairwise.nil
  | member produced yields rest =>
    rw [produced,List.flatten_cons]
    exact concat_yields_iff yields rest

/-- Both read the records of all members exactly when no member opened after the
    first is empty and followed by one that is not; the list also has to open a file. -/
theorem inputs_concatenate_iff {files : List AcIoFileInfo} {options : Option (AcInOptions κ)}
    {records : AcIoFileInfo → List ρ} (opens : Opens step acInInit (options.getD acInOptionsInit) files records)
    {arg : α} {members : List (List ρ)} (produces : Members step cb arg members) :
    (Yields (acInAdvance step acInInit) (acInInitFromList acInInit files options) (files.flatMap records) ↔
      (files = [] ∨ openedFiles acInInit (options.getD acInOptionsInit) files ≠ []) ∧
        Unbroken ((openedFiles acInInit (options.getD acInOptionsInit) files).tail.map records)) ∧
    (Yields (acInAdvanceCb step cb) (acInInitFromCb cb arg) members.flatten ↔ Unbroken members.tail) :=
  ⟨list_yields_iff opens,cb_yields_iff produces⟩


/-- Files by name, with a list of numbers for their records. -/
def named (content : String → List Nat) (filename : String) (options : AcInOptions Unit) : Option (List Nat) :=
  some (content filename)

/-- A callback that hands out inputs from a list. -/
def handOut : List (List Nat) → Option (List Nat) × List (List Nat)
  | [] => (none,[])
  | input :: inputs => (some input,inputs)

theorem named_opens {content : String → List Nat} {options : AcInOptions Unit} {files : List AcIoFileInfo}
    (empty : ∀ file ∈ files, file.size = 0 → content file.filename = []) :
    Opens pop (named content) options files fun file => content file.filename where
  yields file member nonzero s handle := by
    cases handle
    exact pop_yields _
  absent file member handle := by cases handle
  empty := empty

theorem handOut_members (inputs : List (List Nat)) : Members pop handOut inputs inputs := by
  induction inputs with
  | nil => exact .ended rfl
  | cons input inputs ih => exact .member rfl (pop_yields input) ih

/-- The length of a name, for a content: one record for each character after the first. -/
def letters (filename : String) : List Nat := List.range (filename.length - 1)

def letterFile (filename : String) : AcIoFileInfo := { filename := filename, size := filename.length, tag := 0 }

theorem letterFile_empty (filenames : List String) :
    ∀ file ∈ filenames.map letterFile, file.size = 0 → letters file.filename = [] := by
  intro file member zero
  obtain ⟨filename,_,rfl⟩ := List.mem_map.mp member
  have none : filename.length = 0 := zero
  simp [letterFile,letters,none]

theorem inputs_concatenate_iff_three :
    Yields (acInAdvance pop (named letters)) (acInInitFromList (named letters) (["a","bc","def"].map letterFile) none)
      [0,0,1] ∧
    Yields (acInAdvanceCb pop handOut) (acInInitFromCb handOut [[],[5],[6,7]]) [5,6,7] := by
  have opens : Opens pop (named letters) ((none : Option (AcInOptions Unit)).getD acInOptionsInit)
      (["a","bc","def"].map letterFile) fun file => letters file.filename :=
    named_opens (letterFile_empty ["a","bc","def"])
  have both := inputs_concatenate_iff opens (handOut_members [[],[5],[6,7]])
  constructor
  · exact both.1.mpr ⟨.inr (by decide),by unfold Unbroken; decide⟩
  · exact both.2.mpr (by unfold Unbroken; decide)

/-- An empty member between two others ends both inputs early, and a list of files of
    size 0 uses an absent one. -/
theorem empty_member_ends_input :
    (Opens pop (named letters) acInOptionsInit (["bc","a","de"].map letterFile) (fun file => letters file.filename) ∧
      ¬ Yields (acInAdvance pop (named letters))
        (acInInitFromList (named letters) (["bc","a","de"].map letterFile) none)
        ((["bc","a","de"].map letterFile).flatMap fun file => letters file.filename)) ∧
    (Opens pop (named letters) acInOptionsInit ([""].map letterFile) (fun file => letters file.filename) ∧
      acInAdvance pop (named letters) (acInInitFromList (named letters) ([""].map letterFile) none) = none) ∧
    (Members pop handOut [[5],[],[6]] [[5],[],[6]] ∧
      ¬ Yields (acInAdvanceCb pop handOut) (acInInitFromCb handOut [[5],[],[6]]) [[5],[],[6]].flatten) := by
  refine ⟨⟨named_opens (letterFile_empty _),fun yields => ?list⟩,⟨named_opens (letterFile_empty _),rfl⟩,
    ⟨handOut_members _,fun yields => ?cb⟩⟩
  case list =>
    have opens : Opens pop (named letters) ((none : Option (AcInOptions Unit)).getD acInOptionsInit)
        (["bc","a","de"].map letterFile) fun file => letters file.filename :=
      named_opens (letterFile_empty ["bc","a","de"])
    have unbroken := ((list_yields_iff opens).mp yields).2
    revert unbroken
    unfold Unbroken
    decide
  case cb =>
    have unbroken := (cb_yields_iff (handOut_members _)).mp yields
    revert unbroken
    unfold Unbroken
    decide

end contract
end
end AnotherC.InList
