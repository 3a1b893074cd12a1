/-
  ViewScript/Proofs/Project/Effects.lean
  ======================================
  **What a write changes, and what it does the second time.**

  Of all locations on a disk a write touches few.  Folders appear where nothing was, the
  file has the new contents, and a file that had the name of the temporary file is gone.
  This is so for every path, whatever dots it has.

  A write can be repeated.  Say that it was done, or failed, and that the disk has grown
  since.  Then it ends again as it did, and changes nothing but the contents of its file.
-/
import ViewScript.Proofs.Project.Steps

namespace ViewScript

open Disk (Adds Grows checkPath outcome)

/-! ### What may become of a location -/

/-- What may become of a location by a write to `path`.  New folders are only made where
    `isPlace` says so. -/
inductive Becomes (isPlace : Location → Prop) (disk : Disk) (path temporary : Path)
    (written : Option Bytes) (location : Location) : Option Content → Option Content → Prop
  | same (content : Option Content) :
    Becomes isPlace disk path temporary written location content content
  | made (here : isPlace location) :
    Becomes isPlace disk path temporary written location none (some .folder)
  | written {content : Option Content} {bytes : Bytes} (isWritten : written = some bytes)
      (isTarget : location = disk.place path) (notFolder : content ≠ some .folder) :
    Becomes isPlace disk path temporary written location content (some (.file bytes))
  | removed {bytes : Bytes} (isTemporary : location = disk.place temporary) :
    Becomes isPlace disk path temporary written location (some (.file bytes)) none

/-- What a write to a path does to a disk.  It has `written` some bytes, or failed. -/
structure Wrote (isPlace : Location → Prop) (before after : Disk) (path temporary : Path)
    (written : Option Bytes) : Prop where
  workingFolder : after.workingFolder = before.workingFolder
  isWellFormed : before.IsWellFormed → after.IsWellFormed
  becomes : ∀ location, Becomes isPlace before path temporary written location
    (before.content? location) (after.content? location)
  target : ∀ bytes ∈ written, after.content? (before.place path) = some (.file bytes)
  located : ∀ bytes ∈ written, after.locate path = .ok (before.place path)

theorem Wrote.nothing (isPlace : Location → Prop) (disk : Disk) (path temporary : Path) :
    Wrote isPlace disk disk path temporary none :=
  ⟨rfl, id, fun _ => .same _, by simp, by simp⟩

theorem Disk.adds_makeParents (disk : Disk) (path : Path) :
    Adds (fun _ => True) disk (disk.makeParents path).2 := by
  unfold Disk.makeParents
  split
  next => exact (Disk.adds_makeFolders disk _).mono fun _ _ => trivial
  next => exact .refl _ disk

/-- No file comes with new folders. -/
theorem isFileAt_of_adds {isPlace : Location → Prop} {before after : Disk}
    (adds : Adds isPlace before after) {location : Location}
    (fresh : Disk.isFileAt before.content? location = false) :
    Disk.isFileAt after.content? location = false := by
  by_contra file
  obtain ⟨bytes, file⟩ := Disk.isFileAt_iff.mp (by simpa using file)
  simp [Disk.isFileAt, adds.file_iff.mp file] at fresh

/-- What a replacement changes. -/
theorem wrote_of_contents {isPlace : Location → Prop} {before after : Disk}
    {path temporary : Path} {bytes : Bytes}
    {written : Option Bytes} {created replaced : Prop} [Decidable created] [Decidable replaced]
    (isWritten : ∀ new, written = some new ↔ replaced ∧ bytes = new)
    (workingFolder : after.workingFolder = before.workingFolder)
    (isWellFormed : before.IsWellFormed → after.IsWellFormed)
    (notFolder : replaced → before.content? (before.place path) ≠ some .folder)
    (notFolderTemporary : created → before.content? (before.place temporary) ≠ some .folder)
    (located : replaced → after.locate path = .ok (before.place path))
    (contents : ∀ location, after.content? location =
      if replaced ∧ location = before.place path then some (.file bytes)
      else if created ∧ location = before.place temporary then none
      else before.content? location) :
    Wrote isPlace before after path temporary written := by
  refine ⟨workingFolder, isWellFormed, fun location => ?_, fun new isNew => ?_,
    fun new isNew => located ((isWritten new).mp isNew).1⟩
  · rw [contents]
    split_ifs with isTarget isTemporary
    · obtain ⟨isReplaced, rfl⟩ := isTarget
      exact .written ((isWritten bytes).mpr ⟨isReplaced, rfl⟩) rfl (notFolder isReplaced)
    · obtain ⟨isCreated, rfl⟩ := isTemporary
      -- The temporary file has taken the place of a file, or there was nothing.
      cases found : before.content? (before.place temporary) with
      | none => exact .same none
      | some content =>
        cases content with
        | folder => exact (notFolderTemporary isCreated found).elim
        | file bytes => exact .removed rfl
    · exact .same _
  · obtain ⟨isReplaced, rfl⟩ := (isWritten new).mp isNew
    rw [contents, if_pos ⟨isReplaced, rfl⟩]

/-- New folders before a replacement. -/
theorem Wrote.of_adds {isPlace : Location → Prop} {before made after : Disk}
    {path temporary : Path} {written : Option Bytes} (adds : Adds isPlace before made)
    (wrote : Wrote isPlace made after path temporary written) :
    Wrote isPlace before after path temporary written := by
  have place : ∀ other, made.place other = before.place other := adds.grows.place
  refine ⟨wrote.workingFolder.trans adds.workingFolder, wrote.isWellFormed ∘ adds.isWellFormed,
    fun location => ?_, ?_, ?_⟩
  · have becomes := wrote.becomes location
    generalize after.content? location = content at becomes ⊢
    rcases adds.content? location with same | ⟨here, missing, isFolder⟩
    · rw [same] at becomes
      generalize before.content? location = old at becomes ⊢
      cases becomes with
      | same => exact .same _
      | made here => exact .made here
      | written isWritten isTarget notFolder =>
        exact .written isWritten (isTarget.trans (place path)) notFolder
      | removed isTemporary => exact .removed (isTemporary.trans (place temporary))
    · rw [isFolder] at becomes
      rw [missing]
      cases becomes with
      | same => exact .made here
      | written _ _ notFolder => exact (notFolder rfl).elim
  · intro bytes isWritten
    rw [← place]
    exact wrote.target bytes isWritten
  · intro bytes isWritten
    rw [← place]
    exact wrote.located bytes isWritten

section Writing

variable {isPlace : Location → Prop} {path : Path} {front : List Text} {last : Text}

/-- What replacing a file changes. -/
theorem wrote_replaceFile (isPlace : Location → Prop) (ends : path.Ends front last) (bytes : Bytes)
    (machine : Machine) :
    ∃ result final, (replaceFile path bytes : ExceptT FileError (StateM Machine) Unit).run machine =
        (result, { machine with disk := final }) ∧
      Wrote isPlace machine.disk final path (temporaryPath machine.processId path)
        (result.toOption.map fun _ => bytes) := by
  obtain ⟨front', endsTemporary, sameWay, -⟩ := temporaryPath_ends ends machine.processId
  obtain ⟨final, run, workingFolder, isWellFormed, contents⟩ :=
    replaceFile_of_ends ends bytes machine
  generalize temporaryPath machine.processId path = temporary at *
  generalize temporaryName machine.processId (path.fileName?.getD "file") = name at *
  have place : spotError? machine.disk temporary front name = none →
      machine.disk.content? (machine.disk.place temporary) ≠ some .folder :=
    content?_of_spotError? endsTemporary sameWay
  have placePath : (spotError? machine.disk temporary front name <|>
        spotError? machine.disk path front last) = none →
      machine.disk.content? (machine.disk.place path) ≠ some .folder := by
    intro ok
    obtain ⟨-, okPath⟩ : _ ∧ spotError? machine.disk path front last = none := by simpa using ok
    exact content?_of_spotError? ends rfl okPath
  refine ⟨_, final, run,
    wrote_of_contents ?_ workingFolder isWellFormed placePath place ?_ contents⟩
  · intro new
    cases spotError? machine.disk temporary front name with
    | some error => simp [outcome, Except.toOption]
    | none =>
      cases spotError? machine.disk path front last <;> simp [outcome, Except.toOption]
  · intro ok
    obtain ⟨-, okPath⟩ : _ ∧ spotError? machine.disk path front last = none := by simpa using ok
    obtain ⟨folder, reached, isName, short, -⟩ := spotError?_eq_none_iff.mp okPath
    have keeps : machine.disk.KeepsFolders final := by
      refine ⟨workingFolder, ?_⟩
      intro location isFolder
      rw [contents, if_neg, if_neg, isFolder]
      · rintro ⟨created, rfl⟩
        exact place created isFolder
      · rintro ⟨replaced, rfl⟩
        exact placePath replaced isFolder
    rw [Disk.locate_of_ends ends isName, keeps.reached reached,
      Disk.place_of_reach ends isName reached]
    simp [bind, Except.bind, short]

/-- **What a write changes**, if folders are only made in certain places. -/
theorem wrote_writeOutput (ends : path.Ends front last) (code : Text) (machine : Machine)
    (adds : Adds isPlace machine.disk (machine.disk.makeParents path).2) :
    ∃ result disk, (writeOutput path code : ExceptT Error (StateM Machine) Unit).run machine =
        (result, { machine with disk }) ∧
      Wrote isPlace machine.disk disk path (temporaryPath machine.processId path)
        (result.toOption.map fun _ => Utf8.encode code) := by
  rw [run_writeOutput]
  generalize machine.disk.makeParents path = run at adds ⊢
  obtain ⟨result, made⟩ := run
  cases result with
  | error error =>
    exact ⟨_, made, rfl, (Wrote.nothing isPlace made path _).of_adds adds⟩
  | ok =>
    obtain ⟨result, final, run, wrote⟩ :=
      wrote_replaceFile isPlace ends (Utf8.encode code) { machine with disk := made }
    refine ⟨_, final, by simp only [run]; rfl, ?_⟩
    have same : (result.mapError (Error.write path)).toOption = result.toOption := by
      cases result <;> rfl
    rw [same]
    exact wrote.of_adds adds

end Writing

namespace Wrote

variable {isPlace : Location → Prop} {before after : Disk} {path temporary : Path}
  {written : Option Bytes} {location : Location} {bytes : Bytes}

/-- A file stays as it is, or is the target, or had the name of the temporary file. -/
theorem content?_of_file (wrote : Wrote isPlace before after path temporary written)
    (file : before.content? location = some (.file bytes))
    (apart : location ≠ before.place temporary) :
    after.content? location = some (.file bytes) ∨
      ∃ new, written = some new ∧ location = before.place path ∧
        after.content? location = some (.file new) := by
  have becomes := wrote.becomes location
  rw [file] at becomes
  generalize isAfter : after.content? location = content at becomes ⊢
  cases becomes with
  | same => exact .inl rfl
  | written isWritten isTarget => exact .inr ⟨_, isWritten, isTarget, rfl⟩
  | removed isTemporary => exact (apart isTemporary).elim

theorem keepsFolders (wrote : Wrote isPlace before after path temporary written) :
    before.KeepsFolders after := by
  refine ⟨wrote.workingFolder, ?_⟩
  intro location isFolder
  have becomes := wrote.becomes location
  rw [isFolder] at becomes
  generalize after.content? location = content at becomes ⊢
  cases becomes with
  | same => rfl
  | written _ _ notFolder => exact (notFolder rfl).elim

/-- Without a file that has the name of the temporary file a write makes a disk grow. -/
theorem grows (wrote : Wrote isPlace before after path temporary written)
    (fresh : Disk.isFileAt before.content? (before.place temporary) = false) :
    before.Grows after := by
  refine ⟨wrote.keepsFolders, ?_⟩
  intro location bytes file
  have apart : location ≠ before.place temporary := by
    rintro rfl
    simp [Disk.isFileAt, file] at fresh
  rcases wrote.content?_of_file file apart with same | ⟨new, -, -, isNew⟩
  · exact ⟨bytes, same⟩
  · exact ⟨new, isNew⟩

/-- What was written to is a path with a name at its end. -/
theorem named (wrote : Wrote isPlace before after path temporary written)
    (isWritten : written = some bytes) : path.fileName? ≠ none := by
  have read : after.readFile path = .ok bytes :=
    Disk.readFile_eq_ok_iff.mpr ⟨_, wrote.located bytes isWritten, wrote.target bytes isWritten⟩
  obtain ⟨front, last, ends, isName⟩ := Disk.ends_of_readFile read
  simp [ends.fileName?, isName]

end Wrote

/-! ### What a step changes -/

section Step

variable {isPlace : Location → Prop} {root input : Path} {outDir : Option Path}

/-- How the compilation of a source may end, and what it has written then. -/
inductive Ended (names : RuntimeNames) (root : Path) (outDir : Option Path) (disk : Disk)
    (input : Path) : Except Error Compiled → Option Bytes → Prop
  | failed (error : Error) : Ended names root outDir disk input (.error error) none
  | done {code : Text} (isCode : codeOf names disk input = .ok code)
      (isOutput : outputPath input root outDir = .ok (targetPath input root outDir)) :
    Ended names root outDir disk input (.ok ⟨targetPath input root outDir, code.byteSize⟩)
      (some (Utf8.encode code))

/-- **What the compilation of a source changes.** -/
theorem wrote_compileOne (names : RuntimeNames) (machine : Machine) {front : List Text} {last : Text}
    (ends : (targetPath input root outDir).Ends front last)
    (adds : ∀ code, codeOf names machine.disk input = .ok code →
      Adds isPlace machine.disk (machine.disk.makeParents (targetPath input root outDir)).2) :
    ∃ result disk written,
      (compileOne names root outDir input : ExceptT Error (StateM Machine) Compiled).run machine =
        (result, { machine with disk }) ∧
      Ended names root outDir machine.disk input result written ∧
      Wrote isPlace machine.disk disk (targetPath input root outDir)
        (temporaryPath machine.processId (targetPath input root outDir)) written := by
  rw [run_compileOne]
  cases delivery : deliveryOf names root outDir machine.disk input with
  | error error =>
    exact ⟨.error error, machine.disk, none, rfl, .failed error, .nothing isPlace _ _ _⟩
  | ok delivered =>
    obtain ⟨output, code⟩ := delivered
    obtain ⟨isOutput, isCode⟩ := deliveryOf_eq_ok_iff.mp delivery
    obtain rfl := (outputPath_eq_ok_iff.mp isOutput).1
    obtain ⟨result, disk, run, wrote⟩ := wrote_writeOutput ends code machine (adds code isCode)
    simp only [run]
    cases result with
    | error error => exact ⟨_, disk, none, rfl, .failed error, wrote⟩
    | ok => exact ⟨_, disk, _, rfl, .done isCode isOutput, wrote⟩

end Step

/-! ### Folders for a second time -/

/-- The folders above a path can be made again. -/
def Disk.Repeatable (disk : Disk) (path : Path) : Prop :=
  ∀ later : Disk, (disk.makeParents path).2.Grows later →
    later.makeParents path = ((disk.makeParents path).1, later)

section Parents

variable {disk : Disk} {path : Path} {front : List Text} {last : Text} {folder : Location}

/-- The folder of a path that has none above it, or the folder above it. -/
theorem folderAt_of_makeParents (ends : path.Ends front last)
    (standing : disk.content? (disk.start path) = some .folder)
    (ok : (disk.makeParents path).1 = .ok ()) :
    ∃ folder, (disk.makeParents path).2.folderAt (disk.start path) front = .ok folder := by
  obtain ⟨parent, above, isPrefix, sameWay, shape⟩ := ends.parent?
  rcases shape with ⟨empty, rfl⟩ | ⟨written, tidy⟩
  · rw [Disk.makeParents_eq_self above empty]
    exact ⟨disk.start path, Disk.folderAt_eq_ok_iff.mpr ⟨rfl, standing⟩⟩
  · rw [Disk.makeParents_eq above written] at ok ⊢
    obtain ⟨folder, reached⟩ :=
      Disk.isFolder_eq_true_iff.mp (Disk.isFolder_of_makeFolders tidy ok)
    have found := (Disk.reach_eq_ok_iff.mp reached).2
    rw [(Disk.adds_makeFolders disk parent).grows.start, Disk.folderAt_congr sameWay,
      Disk.start_of_isPrefix written isPrefix] at found
    exact ⟨folder, found⟩

theorem repeatable_of_noUp (ends : path.Ends front last) (noUp : ['.', '.'] ∉ front)
    (standing : disk.content? (disk.start path) = some .folder) : disk.Repeatable path := by
  intro later grows
  obtain ⟨parent, above, isPrefix, sameWay, shape⟩ := ends.parent?
  rcases shape with ⟨empty, -⟩ | ⟨written, tidy⟩
  · simp only [Disk.makeParents_eq_self above empty]
  · rw [Disk.makeParents_eq above written] at grows ⊢
    rw [Disk.makeParents_eq above written]
    refine Disk.makeFolders_again tidy ?_ ?_ grows
    · rwa [Path.up_mem_congr sameWay]
    · rwa [Disk.start_of_isPrefix written isPrefix]

/-- Without `..` the folders that are made lie on the way to the file. -/
theorem adds_makeParents_of_noUp (ends : path.Ends front last) (noUp : ['.', '.'] ∉ front) :
    Adds (· <+: front.foldl Disk.step (disk.start path)) disk (disk.makeParents path).2 := by
  obtain ⟨parent, above, isPrefix, sameWay, shape⟩ := ends.parent?
  rcases shape with ⟨empty, -⟩ | ⟨written, tidy⟩
  · rw [Disk.makeParents_eq_self above empty]
    exact .refl _ disk
  · have place : disk.place parent = front.foldl Disk.step (disk.start path) := by
      rw [Disk.place_eq_foldl_names, Path.names, Path.namesIn_congr sameWay,
        Disk.foldl_step_namesIn, Disk.start_of_isPrefix written isPrefix]
    rw [Disk.makeParents_eq above written, ← place]
    refine Disk.adds_makeFolders_of_noUp tidy ?_
    rwa [Path.up_mem_congr sameWay]

/-- Where the folder is there, no folder is made, and it only matters how long the path is. -/
theorem exists_makeParents (ends : path.Ends front last) :
    ∃ result, ∀ {disk : Disk} {folder : Location},
      disk.folderAt (disk.start path) front = .ok folder → disk.makeParents path = (result, disk) := by
  obtain ⟨parent, above, isPrefix, sameWay, shape⟩ := ends.parent?
  rcases shape with ⟨empty, -⟩ | ⟨written, tidy⟩
  · exact ⟨.ok (), fun _ => Disk.makeParents_eq_self above empty⟩
  cases checked : checkPath parent with
  | error error =>
    refine ⟨.error error, fun {disk folder} _ => ?_⟩
    rw [Disk.makeParents_eq above written, Disk.makeFolders_of_checkPath_error written checked]
  | ok =>
    refine ⟨.ok (), fun {disk folder} found => ?_⟩
    have reached : disk.reach parent (Path.cutAtSlashes parent.text) = .ok folder := by
      rw [Disk.reach_of_checkPath checked, Disk.folderAt_congr sameWay,
        Disk.start_of_isPrefix written isPrefix, found]
    rw [Disk.makeParents_eq above written]
    exact Disk.makeFolders_of_isFolder tidy (Disk.isFolder_eq_true_iff.mpr ⟨_, reached⟩)

theorem adds_makeParents_of_folderAt (isPlace : Location → Prop) (ends : path.Ends front last)
    (found : disk.folderAt (disk.start path) front = .ok folder) :
    Adds isPlace disk (disk.makeParents path).2 := by
  obtain ⟨result, made⟩ := exists_makeParents ends
  rw [made found]
  exact .refl _ disk

/-- Where the folder is there from the first, dots do no harm. -/
theorem repeatable_of_folderAt (ends : path.Ends front last)
    (found : disk.folderAt (disk.start path) front = .ok folder) : disk.Repeatable path := by
  intro later grows
  obtain ⟨result, made⟩ := exists_makeParents ends
  rw [made found] at grows ⊢
  have found' : later.folderAt (later.start path) front = .ok folder := by
    rw [grows.start, grows.folderAt (by simp [found]), found]
  exact made found'

end Parents

/-! ### A write for a second time -/

section Again

variable {path : Path} {front : List Text} {last : Text}

/-- Where the folder is there on both disks, it matters only whether there is a folder in the
    place of the file. -/
theorem spotError?_congr {first second : Disk} {folder : Location}
    (found : first.folderAt (first.start path) front = .ok folder)
    (found' : second.folderAt (second.start path) front = .ok folder)
    (same : spotError? first path front last = none ∨
        first.content? (folder ++ [last]) = some .folder →
      (first.content? (folder ++ [last]) = some .folder ↔
        second.content? (folder ++ [last]) = some .folder)) :
    spotError? first path front last = spotError? second path front last := by
  unfold spotError? Disk.reach at same ⊢
  rw [found] at same ⊢
  rw [found']
  cases checked : checkPath path with
  | error error => rfl
  | ok =>
    simp only [checked, bind, Except.bind] at same ⊢
    by_cases dots : last = ['.', '.']
    · simp [dots]
    by_cases long : Disk.nameLimit < last.byteSize
    · simp [dots, long]
    · simp only [dots, long, if_false] at same ⊢
      by_cases isFolder : first.content? (folder ++ [last]) = some .folder
      · simp [isFolder, (same (.inr isFolder)).mp isFolder]
      · simp only [isFolder, if_false, true_or, forall_const, false_iff] at same ⊢
        rw [if_neg same]

/-- A replacement ends as it did, where the folder is there. -/
theorem replaceFile_again (ends : path.Ends front last) (bytes : Bytes) {machine later : Machine}
    {folder : Location}
    (found : machine.disk.folderAt (machine.disk.start path) front = .ok folder)
    (process : later.processId = machine.processId)
    (fresh : Disk.isFileAt machine.disk.content?
      (machine.disk.place (temporaryPath machine.processId path)) = false)
    (vacant : later.disk.content? (machine.disk.place (temporaryPath machine.processId path)) =
      machine.disk.content? (machine.disk.place (temporaryPath machine.processId path)))
    {result : Except FileError Unit} {after : Machine}
    (run : (replaceFile path bytes : ExceptT FileError (StateM Machine) Unit).run machine =
      (result, after))
    (grows : after.disk.Grows later.disk) :
    ((replaceFile path bytes : ExceptT FileError (StateM Machine) Unit).run later).1 = result := by
  obtain ⟨result, final, run', wrote⟩ :=
    wrote_replaceFile (fun _ => False) ends bytes machine
  obtain ⟨rfl, rfl⟩ := Prod.mk.inj (run'.symm.trans run)
  have grown := (wrote.grows fresh).trans grows
  have found' : later.disk.folderAt (later.disk.start path) front = .ok folder := by
    rw [grown.start, grown.folderAt (by simp [found]), found]
  obtain ⟨front', endsTemporary, sameWay, sameStart⟩ := temporaryPath_ends ends machine.processId
  obtain ⟨_, exact, -⟩ := replaceFile_of_ends ends bytes machine
  obtain ⟨isResult, -⟩ := Prod.mk.inj (run'.symm.trans exact)
  obtain ⟨_, runLater, -⟩ := replaceFile_of_ends ends bytes later
  have notUp := temporaryName_notUp machine.processId (path.fileName?.getD "file")
  rw [process] at runLater
  generalize temporaryPath machine.processId path = temporary at *
  generalize temporaryName machine.processId (path.fileName?.getD "file") = name at *
  have start := Disk.start_congr sameStart
  -- The temporary file meets the same error or none, as nothing has come to its place.
  have sameSpot : spotError? machine.disk temporary front name =
      spotError? later.disk temporary front name := by
    have foundHere : machine.disk.folderAt (machine.disk.start temporary) front = .ok folder := by
      rw [start, found]
    have place : machine.disk.place temporary = folder ++ [name] := by
      refine Disk.place_of_folderAt endsTemporary notUp ?_
      rw [Disk.folderAt_congr sameWay, foundHere]
    rw [place] at vacant
    exact spotError?_congr foundHere ((start _).symm ▸ found') fun _ => by rw [vacant]
  rw [runLater, isResult, ← sameSpot]
  cases spot : spotError? machine.disk temporary front name with
  | some error => rfl
  | none =>
    -- A file that is in its place keeps folders away.
    have samePath : spotError? machine.disk path front last =
        spotError? later.disk path front last := by
      refine spotError?_congr found found' fun none => ⟨grown.folder, fun isFolder => ?_⟩
      rcases none with none | isFolder
      · obtain ⟨-, -, isName, -⟩ := spotError?_eq_none_iff.mp none
        rw [spot, none] at isResult
        have file := wrote.target bytes (by rw [isResult]; rfl)
        rw [Disk.place_of_folderAt ends isName found] at file
        obtain ⟨_, stays⟩ := grows.file file
        simp [stays] at isFolder
      · exact isFolder
    rw [samePath]

/-- **A write ends as it did**, and makes no folder. -/
theorem writeOutput_again (ends : path.Ends front last) (code : Text) {machine later : Machine}
    (standing : machine.disk.content? (machine.disk.start path) = some .folder)
    (repeatable : machine.disk.Repeatable path) (process : later.processId = machine.processId)
    (fresh : Disk.isFileAt machine.disk.content?
      (machine.disk.place (temporaryPath machine.processId path)) = false)
    (vacant : later.disk.content? (machine.disk.place (temporaryPath machine.processId path)) =
      machine.disk.content? (machine.disk.place (temporaryPath machine.processId path)))
    {result : Except Error Unit} {after : Machine}
    (run : (writeOutput path code : ExceptT Error (StateM Machine) Unit).run machine =
      (result, after))
    (grows : after.disk.Grows later.disk) :
    ∃ disk, (writeOutput path code : ExceptT Error (StateM Machine) Unit).run later =
        (result, { later with disk }) ∧
      Wrote (fun _ => False) later.disk disk path (temporaryPath later.processId path)
        (result.toOption.map fun _ => Utf8.encode code) := by
  have adds := Disk.adds_makeParents machine.disk path
  have found := folderAt_of_makeParents ends standing
  have again := repeatable later.disk
  rw [run_writeOutput] at run
  generalize machine.disk.makeParents path = parents at run adds found again
  obtain ⟨made?, made⟩ := parents
  cases made? with
  | error error =>
    obtain ⟨rfl, rfl⟩ := Prod.mk.inj run
    exact ⟨later.disk, by rw [run_writeOutput, again grows], .nothing _ _ _ _⟩
  | ok =>
    obtain ⟨folder, found⟩ := found rfl
    dsimp only at run adds found again
    rw [← adds.grows.start] at found
    have fresh : Disk.isFileAt made.content?
        (made.place (temporaryPath machine.processId path)) = false := by
      rw [adds.grows.place]
      exact isFileAt_of_adds adds fresh
    generalize isRun : (replaceFile path (Utf8.encode code) :
      ExceptT FileError (StateM Machine) Unit).run { machine with disk := made } = replaced at run
    obtain ⟨replaced?, replaced⟩ := replaced
    obtain ⟨rfl, rfl⟩ := Prod.mk.inj run
    obtain ⟨_, _, isRun', wrote⟩ :=
      wrote_replaceFile (fun _ => False) ends (Utf8.encode code) { machine with disk := made }
    obtain ⟨-, rfl⟩ := Prod.mk.inj (isRun'.symm.trans isRun)
    have grown := (wrote.grows fresh).trans grows
    -- No folder was made in the place of the temporary file, or there would be one still.
    have vacant : later.disk.content? (made.place (temporaryPath machine.processId path)) =
        made.content? (made.place (temporaryPath machine.processId path)) := by
      rw [adds.grows.place]
      rcases adds.content? (machine.disk.place (temporaryPath machine.processId path)) with
        same | ⟨-, missing, isFolder⟩
      · rw [vacant, same]
      · rw [missing, grown.folder isFolder] at vacant
        cases vacant
    have process : later.processId = ({ machine with disk := made } : Machine).processId := process
    have sameResult := replaceFile_again ends (Utf8.encode code) found process fresh vacant isRun grows
    have noFolder : Adds (fun _ => False) later.disk (later.disk.makeParents path).2 := by
      rw [again grown]
      exact .refl _ _
    obtain ⟨result, disk, runLater, wrote⟩ := wrote_writeOutput ends code later noFolder
    rw [run_writeOutput, again grown] at runLater
    obtain ⟨rfl, -⟩ := Prod.mk.inj runLater
    rw [← sameResult]
    refine ⟨disk, ?_, wrote⟩
    rw [run_writeOutput, again grown]
    exact runLater

end Again

end ViewScript
