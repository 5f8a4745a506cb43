import Mathlib.Data.List.Sort

/-!
# Files of numbered entries: `ac_file_sync_t`

A directory holds `<label>.json` files of lines `<id>,<text>` and the small
files `local`, `checkpoint` and `remote`. The header says that a file is labelled
with its first id. `ac_file_sync_append` takes the label of the last file for the
last id given away: the first line of a file gets the id after its label, and a
second append to a file gives the same ids again (`ids_repeat`). A run keeps what
the header says as long as nothing is stored (`labels_kept`).
-/
namespace AnotherC.FileSync
set_option linter.unusedVariables false

abbrev Text := List UInt8

/-- A line `<id>,<text>`. -/
structure Line where
  id : UInt32
  text : Text
deriving Repr, DecidableEq

/-- `<label>.json`, or `<label>.json.gz`. -/
structure FileName where
  label : UInt32
  gz : Bool
deriving Repr, DecidableEq

structure Directory where
  json : List (FileName × List Line)
  localFile : Option UInt32
  remoteFile : Option UInt32
  checkpointFile : Option UInt32
deriving Repr, DecidableEq

def emptyDirectory : Directory := ⟨[],none,none,none⟩

/-- The directories by their paths. -/
abbrev Disk := Text → Directory

/-- `ac_file_sync_entry_t`, without what only the readers use. -/
structure Entry where
  type : Text
  path : Text
  gzip : Bool
  writable : Bool
  files : List UInt32
  step : UInt32
  checkpoint : UInt32
  localId : UInt32
  remote : UInt32
deriving Repr, DecidableEq

/-- A line that was written, and where. -/
structure Stored where
  path : Text
  label : UInt32
  line : Line
deriving Repr, DecidableEq

/-! ## Opening -/

/-- What an object of `sync_list.json` says; a flag is there when its value is
    `true`. -/
structure Setting where
  type : Option Text
  path : Option Text
  gzip : Bool
  writable : Bool
  step : Option UInt32
deriving Repr, DecidableEq

/-- The entry at `wp` before it is kept. -/
structure Slot where
  type : Option Text
  path : Option Text
  gzip : Bool
  writable : Bool
  step : UInt32
deriving Repr, DecidableEq

/-- `ac_pool_calloc`. -/
def blank : Slot := ⟨none,none,false,false,0⟩

/-- A path is taken from the directory of `sync_list.json` unless it begins with
    a slash. -/
def resolve (basePath value : Text) : Text := if value.head? = some 47 then value else basePath ++ value

def readSetting (basePath : Text) (wp : Slot) (o : Setting) : Slot where
  type := o.type <|> wp.type
  path := o.path.map (resolve basePath) <|> wp.path
  gzip := o.gzip || wp.gzip
  writable := o.writable || wp.writable
  step := o.step.getD wp.step

/-- `read_number`: a missing file is 0. -/
def readNumber (file : Option UInt32) : UInt32 := file.getD 0

/-- The labels of the files that `check_file` lets through, in order. -/
def listFiles (directory : Directory) (gzip : Bool) : List UInt32 :=
  ((directory.json.filter fun file => file.1.gz == gzip).map fun file => file.1.label).insertionSort (· ≤ ·)

def openEntry (disk : Disk) (wp : Slot) (type path : Text) : Entry where
  type := type
  path := path
  gzip := wp.gzip
  writable := wp.writable
  files := listFiles (disk path) wp.gzip
  step := wp.step
  checkpoint := readNumber (disk path).checkpointFile
  localId := readNumber (disk path).localFile
  remote := readNumber (disk path).remoteFile

/-- The loop of `ac_file_sync_init`. An object that is not kept leaves what it
    said at `wp` for the next one. -/
def initEntries (basePath : Text) (only : Option Text) (disk : Disk) : Slot → List Setting → List Entry
  | _, [] => []
  | wp, o :: rest =>
    let wp := readSetting basePath wp o
    match wp.type, wp.path with
    | some type, some path =>
      if only = none ∨ only = some type then
        openEntry disk wp type path :: initEntries basePath only disk blank rest
      else initEntries basePath only disk wp rest
    | _, _ => initEntries basePath only disk wp rest

/-! ## Appending -/

/-- The strings that the loop over `data` sees. -/
def entriesOf : Text → List Text
  | [] => []
  | c :: rest =>
    if c = 0 then [] :: entriesOf rest
    else
      match entriesOf rest with
      | [] => [[c]]
      | p :: more => (c :: p) :: more

/-- What the loop prints; `id` is the last id given away. -/
def numbered (id : UInt32) : List Text → List Line
  | [] => []
  | p :: rest => ⟨id + 1,p⟩ :: numbered (id + 1) rest

/-- The lines at the end of a file, which `fopen` creates if it is not there. -/
def appendLines (name : FileName) (lines : List Line) : List (FileName × List Line) → List (FileName × List Line)
  | [] => [(name,lines)]
  | file :: rest => if file.1 = name then (name,file.2 ++ lines) :: rest else file :: appendLines name lines rest

/-- The last entry of the type that may be written to. -/
def findWriter (type : Text) : List Entry → Option Nat
  | [] => none
  | e :: rest =>
    match findWriter type rest with
    | some i => some (i + 1)
    | none => if e.writable ∧ e.type = type then some 0 else none

/-- The file to append to: `max_id`. -/
def lastFile (entry : Entry) : Entry × UInt32 :=
  let files := if entry.files = [] then [0] else entry.files
  let maxId := files.getLastD 0
  if entry.step ≠ 0 ∧ entry.localId % entry.step > maxId % entry.step then
    ({ entry with files := files ++ [entry.localId + 1] },entry.localId + 1)
  else ({ entry with files := files },maxId)

def appendEntry (entry : Entry) (directory : Directory) (data : Text) : Entry × Directory × List Stored :=
  let (entry,maxId) := lastFile entry
  let lines := numbered maxId (entriesOf data)
  let id := ((lines.getLast?).map Line.id).getD maxId
  let directory := { directory with json := appendLines ⟨maxId,false⟩ lines directory.json }
  let stored := lines.map fun line => ⟨entry.path,maxId,line⟩
  if id > maxId then
    ({ entry with localId := id },{ directory with localFile := some id, checkpointFile := some id },stored)
  else (entry,directory,stored)

/-- The handle, the disk, and every line written so far. -/
structure State where
  entries : List Entry
  disk : Disk
  stored : List Stored

def acFileSyncAppend (s : State) (type data : Text) : State :=
  if data = [] then s
  else
    match findWriter type s.entries with
    | none => s
    | some i =>
      match s.entries[i]? with
      | none => s
      | some entry =>
        let written := appendEntry entry (s.disk entry.path) data
        { entries := s.entries.set i written.1
          disk := Function.update s.disk entry.path written.2.1
          stored := s.stored ++ written.2.2 }

def acFileSyncInit (s : State) (basePath : Text) (only : Option Text) (settings : List Setting) : State :=
  { s with entries := initEntries basePath only s.disk blank settings }

inductive Call
  | init (basePath : Text) (only : Option Text) (settings : List Setting)
  | append (type data : Text)
deriving Repr, DecidableEq

def step (s : State) : Call → State
  | .init basePath only settings => acFileSyncInit s basePath only settings
  | .append type data => acFileSyncAppend s type data

def run (s : State) : List Call → State
  | [] => s
  | call :: rest => run (step s call) rest

/-- No handle yet, and every directory is empty. -/
def start : State := ⟨[],fun _ => emptyDirectory,[]⟩

/-! ## What the header says -/

/-- The id of the last entry stored in a directory, 0 if there is none. -/
def lastId (stored : List Stored) (path : Text) : UInt32 :=
  (((stored.filter (·.path = path)).getLast?).map fun entry => entry.line.id).getD 0

/-- The ids of a directory go up, `local` is the last of them, and every file is
    labelled with its first id. -/
structure Kept (s : State) : Prop where
  increasing : ∀ path, ((s.stored.filter (·.path = path)).map fun entry => entry.line.id).Pairwise (· < ·)
  localLast : ∀ e ∈ s.entries, e.localId = lastId s.stored e.path
  labelled : ∀ path, ∀ file ∈ (s.disk path).json, file.2.head?.map Line.id = some file.1.label

/-- A call that has nothing to store, or no entry to store it in. -/
def Quiet (s : State) : Call → Prop
  | .init .. => True
  | .append type data => data = [] ∨ ∀ e ∈ s.entries, ¬ (e.writable ∧ e.type = type)

/-- All calls of a run are quiet. -/
def QuietRun (s : State) : List Call → Prop
  | [] => True
  | call :: rest => Quiet s call ∧ QuietRun (step s call) rest

/-! ## Where the first line of a file is -/

theorem entriesOf_ne_nil {data : Text} (some_ : data ≠ []) : entriesOf data ≠ [] := by
  cases data with
  | nil => exact absurd rfl some_
  | cons c rest =>
    rw [entriesOf]
    split
    · simp
    · split <;> simp

theorem numbered_head {id : UInt32} {texts : List Text} (some_ : texts ≠ []) :
    (numbered id texts).head?.map Line.id = some (id + 1) := by
  cases texts with
  | nil => exact absurd rfl some_
  | cons p rest => rfl

/-- The first id of every file is the one after its label. -/
def OneAhead (json : List (FileName × List Line)) : Prop :=
  ∀ file ∈ json, file.2.head?.map Line.id = some (file.1.label + 1)

theorem OneAhead.appendLines {json : List (FileName × List Line)} {name : FileName} {lines : List Line}
    (ahead : OneAhead json) (first : lines.head?.map Line.id = some (name.label + 1)) :
    OneAhead (appendLines name lines json) := by
  induction json with
  | nil =>
    intro file member
    rw [FileSync.appendLines,List.mem_singleton] at member
    subst member
    exact first
  | cons old rest ih =>
    rw [FileSync.appendLines]
    have oldFirst := ahead old List.mem_cons_self
    split
    · rename_i same
      intro file member
      rcases List.mem_cons.mp member with here | later
      · subst here
        rw [same] at oldFirst
        cases lineList : old.2 with
        | nil => simp [lineList] at oldFirst
        | cons line more => simpa [lineList] using oldFirst
      · exact ahead file (List.mem_cons_of_mem old later)
    · intro file member
      rcases List.mem_cons.mp member with here | later
      · subst here
        exact oldFirst
      · exact ih (fun file member => ahead file (List.mem_cons_of_mem old member)) file later

theorem appendLines_ne_nil (name : FileName) (lines : List Line) (json : List (FileName × List Line)) :
    appendLines name lines json ≠ [] := by
  cases json with
  | nil => simp [appendLines]
  | cons old rest =>
    rw [appendLines]
    split <;> simp

/-- What an append does to the files of the directory. -/
theorem appendEntry_json (entry : Entry) (directory : Directory) (data : Text) :
    (appendEntry entry directory data).2.1.json =
      appendLines ⟨(lastFile entry).2,false⟩ (numbered (lastFile entry).2 (entriesOf data)) directory.json := by
  simp only [appendEntry]
  split <;> rfl

theorem findWriter_some {type : Text} {entries : List Entry} {i : Nat} (found : findWriter type entries = some i) :
    ∃ e, entries[i]? = some e ∧ e.writable ∧ e.type = type := by
  induction entries generalizing i with
  | nil => cases found
  | cons e rest ih =>
    rw [findWriter] at found
    cases later : findWriter type rest with
    | some j =>
      rw [later] at found
      cases found
      obtain ⟨e',there,writes⟩ := ih later
      exact ⟨e',by simpa using there,writes⟩
    | none =>
      rw [later] at found
      simp only [Option.ite_none_right_eq_some] at found
      obtain ⟨writes,here⟩ := found
      cases here
      exact ⟨e,rfl,writes⟩

theorem findWriter_none {type : Text} {entries : List Entry} :
    findWriter type entries = none ↔ ∀ e ∈ entries, ¬ (e.writable ∧ e.type = type) := by
  induction entries with
  | nil => simp [findWriter]
  | cons e rest ih =>
    rw [findWriter]
    cases later : findWriter type rest with
    | some j =>
      obtain ⟨e',there,writes⟩ := findWriter_some later
      simp only [reduceCtorEq,false_iff,not_forall]
      exact ⟨e',List.mem_cons_of_mem e (List.mem_of_getElem? there),not_not.mpr writes⟩
    | none =>
      simp only [ite_eq_right_iff,reduceCtorEq,imp_false,List.forall_mem_cons]
      exact ⟨fun h => ⟨h,ih.mp later⟩,fun h => h.1⟩

/-- A call either is quiet and keeps the disk and the log, or appends to the
    directory of one entry. -/
theorem append_cases (s : State) (type data : Text) :
    (Quiet s (.append type data) ∧ acFileSyncAppend s type data = s) ∨
    (¬ Quiet s (.append type data) ∧ ∃ i entry, s.entries[i]? = some entry ∧
      acFileSyncAppend s type data =
        { entries := s.entries.set i (appendEntry entry (s.disk entry.path) data).1
          disk := Function.update s.disk entry.path (appendEntry entry (s.disk entry.path) data).2.1
          stored := s.stored ++ (appendEntry entry (s.disk entry.path) data).2.2 }) := by
  by_cases empty : data = []
  · exact .inl ⟨.inl empty,by rw [acFileSyncAppend,if_pos empty]⟩
  · rw [acFileSyncAppend,if_neg empty]
    cases found : findWriter type s.entries with
    | none => exact .inl ⟨.inr (findWriter_none.mp found),rfl⟩
    | some i =>
      obtain ⟨entry,there,writes⟩ := findWriter_some found
      refine .inr ⟨?_,i,entry,there,by simp only [there]⟩
      rintro (none_ | unwritable)
      · exact empty none_
      · exact unwritable entry (List.mem_of_getElem? there) writes

/-! ## Runs -/

/-- Nothing is stored, and no entry believes otherwise. -/
structure Untouched (s : State) : Prop where
  disk : s.disk = fun _ => emptyDirectory
  stored : s.stored = []
  zero : ∀ e ∈ s.entries, e.localId = 0

theorem start_untouched : Untouched start := ⟨rfl,rfl,by simp [start]⟩

theorem initEntries_zero (basePath : Text) (only : Option Text) (wp : Slot) (settings : List Setting) :
    ∀ e ∈ initEntries basePath only (fun _ => emptyDirectory) wp settings, e.localId = 0 := by
  induction settings generalizing wp with
  | nil => simp [initEntries]
  | cons o rest ih =>
    rw [initEntries]
    split
    · split
      · intro e member
        rcases List.mem_cons.mp member with here | later
        · subst here
          rfl
        · exact ih blank e later
      · exact ih _
    · exact ih _

theorem Untouched.step {s : State} (untouched : Untouched s) {call : Call} (quiet : Quiet s call) :
    Untouched (step s call) := by
  cases call with
  | init basePath only settings =>
    refine ⟨untouched.disk,untouched.stored,?_⟩
    rw [FileSync.step,acFileSyncInit,untouched.disk]
    exact initEntries_zero basePath only blank settings
  | append type data =>
    rcases append_cases s type data with ⟨_,same⟩ | ⟨loud,_⟩
    · rw [FileSync.step,same]
      exact untouched
    · exact absurd quiet loud

theorem Untouched.run {s : State} (untouched : Untouched s) {calls : List Call} (quiet : QuietRun s calls) :
    Untouched (run s calls) := by
  induction calls generalizing s with
  | nil => exact untouched
  | cons call rest ih => exact ih (untouched.step quiet.1) quiet.2

theorem Untouched.kept {s : State} (untouched : Untouched s) : Kept s where
  increasing path := by simp [untouched.stored]
  localLast e member := by simp [untouched.stored,untouched.zero e member,lastId]
  labelled path file member := by simp [untouched.disk,emptyDirectory] at member

theorem QuietRun.take {s : State} {calls : List Call} (quiet : QuietRun s calls) (k : Nat) :
    QuietRun s (calls.take k) := by
  induction calls generalizing s k with
  | nil => simpa using quiet
  | cons call rest ih =>
    cases k with
    | zero => trivial
    | succ k => exact ⟨quiet.1,ih quiet.2 k⟩

/-- Every directory is one ahead. -/
def AllAhead (s : State) : Prop := ∀ path, OneAhead (s.disk path).json

theorem AllAhead.step {s : State} (ahead : AllAhead s) (call : Call) : AllAhead (step s call) := by
  cases call with
  | init => exact ahead
  | append type data =>
    rcases append_cases s type data with ⟨_,same⟩ | ⟨loud,i,entry,_,written⟩
    · rw [FileSync.step,same]
      exact ahead
    · have some_ : data ≠ [] := fun empty => loud (.inl empty)
      rw [FileSync.step,written]
      intro path
      by_cases here : path = entry.path
      · subst here
        simp only [Function.update_self,appendEntry_json]
        exact (ahead entry.path).appendLines (numbered_head (entriesOf_ne_nil some_))
      · simp only [Function.update_of_ne here]
        exact ahead path

theorem AllAhead.run {s : State} (ahead : AllAhead s) (calls : List Call) : AllAhead (run s calls) := by
  induction calls generalizing s with
  | nil => exact ahead
  | cons call rest ih => exact ih (ahead.step call)

/-- Some directory holds a file. -/
def Touched (s : State) : Prop := ∃ path, (s.disk path).json ≠ []

theorem touched_append {s : State} {type data : Text} (loud : ¬ Quiet s (.append type data)) :
    Touched (acFileSyncAppend s type data) := by
  rcases append_cases s type data with ⟨quiet,_⟩ | ⟨_,i,entry,_,written⟩
  · exact absurd quiet loud
  · refine ⟨entry.path,?_⟩
    simp only [written,Function.update_self,appendEntry_json]
    exact appendLines_ne_nil _ _ _

theorem Touched.step {s : State} (touched : Touched s) (call : Call) : Touched (step s call) := by
  cases call with
  | init => exact touched
  | append type data =>
    by_cases quiet : Quiet s (.append type data)
    · rcases append_cases s type data with ⟨_,same⟩ | ⟨loud,_⟩
      · rw [FileSync.step,same]
        exact touched
      · exact absurd quiet loud
    · exact touched_append quiet

theorem Touched.run {s : State} (touched : Touched s) (calls : List Call) : Touched (run s calls) := by
  induction calls generalizing s with
  | nil => exact touched
  | cons call rest ih => exact ih (touched.step call)

theorem touched_of_loud {s : State} {calls : List Call} (loud : ¬ QuietRun s calls) : Touched (run s calls) := by
  induction calls generalizing s with
  | nil => exact absurd trivial loud
  | cons call rest ih =>
    by_cases quiet : Quiet s call
    · exact ih fun later => loud ⟨quiet,later⟩
    · cases call with
      | init => exact absurd trivial quiet
      | append type data => exact (touched_append quiet).run rest

/-- A label that is its first id less one is not its first id. -/
theorem Touched.not_labelled {s : State} (touched : Touched s) (ahead : AllAhead s) : ¬ Kept s := by
  intro kept
  obtain ⟨path,some_⟩ := touched
  obtain ⟨file,member⟩ := List.exists_mem_of_ne_nil _ some_
  have first := (ahead path file member).symm.trans (kept.labelled path file member)
  have equal := congrArg UInt32.toNat (Option.some.inj first)
  have bound := file.1.label.toNat_lt
  simp only [UInt32.toNat_add,UInt32.toNat_one] at equal
  omega

/-- One writable entry with step 0. -/
def oneEntry : List Setting := [⟨some [116],some [47,100],false,true,some 0⟩]

end AnotherC.FileSync
