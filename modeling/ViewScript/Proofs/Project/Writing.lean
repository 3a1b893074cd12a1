/-
  ViewScript/Proofs/Project/Writing.lean
  ======================================
  **What writing a file does.**

  Code is written in three moves: the folders above the file are made, the code is put
  into a temporary file, and the temporary file takes the place of the file.  Each move
  can fail, and what was begun is then taken back, except for the folders.

  So a write has one error or none, and it leaves the contents as they were but for the
  folders it made and, if there was no error, the file.  Both depend on little: on the
  files in the place of its folders, and on the folders in the place of its files.
-/
import ViewScript.Proofs.Project.Replacing

namespace ViewScript

open Disk (checkPath nameLimit enter obstacle? withFolders IsMade outcome IsFlat)

/-! ### The temporary file -/

/-- The temporary file is in the folder of the file. -/
theorem temporaryPath_leadsTo {path : Path} {folder : Location} {last : Text}
    (leads : path.LeadsTo folder last) (processId : Nat) :
    (temporaryPath processId path).LeadsTo folder
      (temporaryName processId (path.fileName?.getD "file")) := by
  obtain ⟨parent, above, reaches, -⟩ := leads.parent?
  obtain ⟨plain, names⟩ := reaches.isPlain
  have slashFree : '/' ∉ path.fileName?.getD "file" := by
    rw [leads.fileName?]
    split
    · decide
    · exact leads.slash_notMem
  generalize isTemporary : temporaryName processId (path.fileName?.getD "file") = name
  have isNames : ∀ other ∈ [] ++ [name], Path.IsName other := by
    simpa [← isTemporary] using isName_temporaryName processId slashFree
  have joined := (Path.extends_join plain.ne_nil isNames (by simp)).leadsTo plain isNames
  have same : temporaryPath processId path = parent.join ⟨Text.join ['/'] [name]⟩ := by
    rw [temporaryPath, above, ← isTemporary]
    rfl
  rw [same]
  simpa [names] using joined

/-! ### The errors of a write -/

/-- What is wrong with a path, if anything. -/
def checkError? (path : Path) : Option FileError :=
  match checkPath path with
  | .ok () => none
  | .error error => some error

/-- What keeps a file from being put at a path whose folder is there. -/
def placeError? (contents : Location → Option Content) (path : Path) : Option FileError :=
  match checkPath path, path.fileName? with
  | .error error, _ => some error
  | .ok (), none => some .busy
  | .ok (), some name =>
    if nameLimit < name.byteSize then some .nameTooLong
    else if contents path.names = some .folder then some .isFolder
    else none

/-- The first error that a write comes upon. -/
def writeError? (contents : Location → Option Content) (processId : Nat) (path : Path) :
    Option FileError :=
  (path.parent?.bind checkError?) <|> obstacle? contents [] path.names.dropLast <|>
    placeError? contents (temporaryPath processId path) <|> placeError? contents path

/-! ### Files in a folder that is there -/

section Files

variable {disk : Disk} {path : Path} {folder : Location} {last : Text}

theorem placeError?_of_leadsTo (contents : Location → Option Content)
    (leads : path.LeadsTo folder last) :
    placeError? contents path =
      match checkPath path with
      | .error error => some error
      | .ok () =>
        if last = ['.', '.'] then some .busy
        else if nameLimit < last.byteSize then some .nameTooLong
        else if contents (folder ++ [last]) = some .folder then some .isFolder
        else none := by
  unfold placeError?
  rw [leads.fileName?, leads.names]
  cases checkPath path with
  | error error => rfl
  | ok =>
    by_cases dots : last = ['.', '.']
    · simp [dots]
    · simp [dots]

theorem placeError?_eq_none_iff {contents : Location → Option Content}
    (leads : path.LeadsTo folder last) :
    placeError? contents path = none ↔
      checkPath path = .ok () ∧ last ≠ ['.', '.'] ∧ ¬ nameLimit < last.byteSize ∧
        contents (folder ++ [last]) ≠ some .folder := by
  rw [placeError?_of_leadsTo contents leads]
  cases checkPath path with
  | error error => simp
  | ok =>
    by_cases dots : last = ['.', '.']
    · simp [dots]
    by_cases long : nameLimit < last.byteSize
    · simp [dots, long]
    · simp [dots, long]

/-- In a folder that can be entered the two ways to tell an error are the same. -/
theorem spotError?_of_leadsTo {front : List Text} (leads : path.LeadsTo folder last)
    (found : disk.folderAt [] front = .ok folder) :
    spotError? disk path front last = placeError? disk.content? path := by
  have start : disk.start path = [] := by
    obtain ⟨segments, cut, -, -, -⟩ := leads
    simp [Disk.start, Path.isAbsolute_of_cut (by simp) cut]
  rw [placeError?_of_leadsTo disk.content? leads]
  unfold spotError? Disk.reach
  rw [start, found]
  cases checkPath path <;> rfl

end Files

/-! ### The three moves -/

section Moves

variable {disk : Disk} {path : Path} {folder : Location} {last : Text}

theorem placeError?_congr {first second : Location → Option Content}
    (agree : first path.names = second path.names) :
    placeError? first path = placeError? second path := by
  simp only [placeError?, agree]

/-- A file in the place of a file, or an error and nothing. -/
theorem replaceFile_spec (machine : Machine) (leads : path.LeadsTo folder last)
    (entered : enter disk.content? [] folder = .ok ())
    (fresh : Disk.isFileAt disk.content? (temporaryPath machine.processId path).names = false)
    (bytes : Bytes) :
    let error? := placeError? disk.content? (temporaryPath machine.processId path) <|>
      placeError? disk.content? path
    ∃ final : Disk,
      (replaceFile path bytes : ExceptT FileError (StateM Machine) Unit).run
        { machine with disk } = (outcome error?, { machine with disk := final }) ∧
      ∀ location, final.content? location =
        if error? = none ∧ location = path.names then some (.file bytes)
        else disk.content? location := by
  obtain ⟨segments, cut, rfl, noUp, solid⟩ := id leads
  have ends : path.Ends ([] :: segments) last := ⟨cut, solid⟩
  have found : disk.folderAt [] ([] :: segments) = .ok (Path.namesIn segments) := by
    rw [Disk.folderAt_eq_enter (by simpa using noUp), Path.namesIn_nil_cons, entered]
    rfl
  have leadsTemporary := temporaryPath_leadsTo leads machine.processId
  have notUp := temporaryName_notUp machine.processId (path.fileName?.getD "file")
  obtain ⟨final, run, -, -, contents⟩ := replaceFile_of_ends ends bytes { machine with disk }
  rw [spotError?_of_leadsTo leads found, spotError?_of_leadsTo leadsTemporary found] at run contents
  refine ⟨final, run, fun location => ?_⟩
  rw [contents, Disk.place_of_isPlain (leadsTemporary.isPlain notUp)]
  have inPlace : (placeError? disk.content? (temporaryPath machine.processId path) <|>
      placeError? disk.content? path) = none → disk.place path = path.names := by
    intro ok
    obtain ⟨-, okPath⟩ : _ ∧ placeError? disk.content? path = none := by simpa using ok
    exact Disk.place_of_isPlain (leads.isPlain ((placeError?_eq_none_iff leads).mp okPath).2.1)
  have vacant : placeError? disk.content? (temporaryPath machine.processId path) = none →
      disk.content? (temporaryPath machine.processId path).names = none := by
    intro ok
    have notFolder := ((placeError?_eq_none_iff leadsTemporary).mp ok).2.2.2
    rw [← leadsTemporary.names] at notFolder
    exact Disk.eq_none_of_isFileAt fresh notFolder
  split_ifs <;> grind

/-- The contents with the folders that a write makes. -/
def withParents (contents : Location → Option Content) (path : Path) :
    Location → Option Content :=
  if path.parent?.bind checkError? = none then withFolders contents path.names.dropLast
  else contents

/-- The contents after a write. -/
def written (contents : Location → Option Content) (processId : Nat) (path : Path)
    (bytes : Bytes) : Location → Option Content :=
  fun location =>
    if writeError? contents processId path = none ∧ location = path.names then some (.file bytes)
    else withParents contents path location

/-- **What a write does.**  It ends with the first error it comes upon, and leaves the
    contents with its folders and, without an error, with its file. -/
theorem writeOutput_spec {machine : Machine} (leads : path.LeadsTo folder last)
    (top : machine.disk.content? [] = some .folder)
    (fresh : Disk.isFileAt machine.disk.content?
      (temporaryPath machine.processId path).names = false)
    (code : Text) :
    ∃ disk : Disk,
      (writeOutput path code : ExceptT Error (StateM Machine) Unit).run machine =
        ((outcome (writeError? machine.disk.content? machine.processId path)).mapError
          (.write path), { machine with disk }) ∧
      disk.content? = written machine.disk.content? machine.processId path (Utf8.encode code) := by
  obtain ⟨parent, above, reaches, -⟩ := leads.parent?
  have isFolder : path.names.dropLast = folder := by rw [leads.names, List.dropLast_concat]
  rw [run_writeOutput, Disk.makeParents_eq above reaches.isPlain.1.ne_nil]
  unfold written withParents writeError?
  rw [above, isFolder, Option.bind_some, checkError?]
  cases checked : checkPath parent with
  | error error =>
    rw [Disk.makeFolders_of_checkPath_eq_error reaches checked]
    exact ⟨machine.disk, rfl, by simp⟩
  | ok =>
    obtain ⟨made, isMade, contents⟩ := Disk.makeFolders_of_checkPath top reaches checked
    rw [isMade]
    cases obstacle : obstacle? machine.disk.content? [] folder with
    | some error => exact ⟨made, rfl, by simpa using contents⟩
    | none =>
      have entered : enter made.content? [] folder = .ok () := by
        rw [contents]
        exact Disk.enter_withFolders top obstacle
      have stillFresh : Disk.isFileAt made.content?
          (temporaryPath machine.processId path).names = false := by
        rw [contents, Disk.isFileAt_withFolders, fresh]
      obtain ⟨disk, run, final⟩ :=
        replaceFile_spec machine leads entered stillFresh (Utf8.encode code)
      -- The folders that were made do not change what is in the last of them.
      have sameError : (placeError? made.content? (temporaryPath machine.processId path) <|>
            placeError? made.content? path) =
          (placeError? machine.disk.content? (temporaryPath machine.processId path) <|>
            placeError? machine.disk.content? path) := by
        have inside : ∀ {other : Path} {name : Text}, other.LeadsTo folder name →
            placeError? made.content? other = placeError? machine.disk.content? other := by
          intro other name leads
          apply placeError?_congr
          rw [leads.names, contents, Disk.withFolders_inside]
        rw [inside leads, inside (temporaryPath_leadsTo leads machine.processId)]
      rw [sameError] at run final
      refine ⟨disk, ?_, ?_⟩
      · simp only [outcome, run]
        rfl
      · funext location
        rw [final, contents]
        rfl

end Moves

end ViewScript
