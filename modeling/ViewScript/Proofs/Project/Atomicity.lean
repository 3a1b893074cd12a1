/-
  ViewScript/Proofs/Project/Atomicity.lean
  ========================================
  **All or nothing.**

  A write either puts all of its code in place, or it leaves every file as it was and takes
  its temporary file back.  Nothing else becomes of the disk but folders above the path,
  and after a success there are all of them.

  This is so for paths of every kind.  A path with something written after its last
  component, such as a slash, has a temporary file as any other; but a file can never take
  its place, so that the write fails in the second move.
-/
import ViewScript.Proofs.Project.Effects

namespace ViewScript

open Disk (Adds checkPath)

/-! ### The temporary file of any path -/

/-- The temporary file has a name, whatever the path is like. -/
theorem exists_temporaryPath_ends (processId : Nat) (path : Path) :
    ∃ front, (temporaryPath processId path).Ends front
      (temporaryName processId (path.fileName?.getD "file")) := by
  have slashFree : '/' ∉ path.fileName?.getD "file" := by
    cases named : path.fileName? with
    | none => decide
    | some name => exact Path.slash_notMem_fileName? named
  have isName := isName_temporaryName processId slashFree
  have joined : temporaryPath processId path = (path.parent?.getD ".").join
      ⟨temporaryName processId (path.fileName?.getD "file")⟩ := rfl
  rw [joined]
  generalize temporaryName processId (path.fileName?.getD "file") = name at isName ⊢
  have below : ∀ {parent : Path}, parent.Tidy → ∃ front, (parent.join ⟨name⟩).Ends front name := by
    intro parent tidy
    obtain ⟨front, ends, -⟩ := tidy.join isName.slashFree isName.solid
    exact ⟨front, ends⟩
  cases above : path.parent? with
  | none => exact below .here
  | some parent =>
    rcases Path.tidy_of_parent? above with empty | tidy
    · have alone : parent.join ⟨name⟩ = ⟨name⟩ := by
        simp [Path.join, Path.isAbsolute_eq_false isName.slashFree, empty]
      rw [Option.getD_some, alone]
      exact ⟨[], Path.cutAtSlashes_of_notMem isName.slashFree, isName.solid⟩
    · exact below tidy

/-! ### Paths that a file cannot be moved to -/

/-- A name without a slash after it ends the path. -/
theorem Disk.ends_of_target {disk : Disk} {path : Path} {folder : Location} {name : Text}
    (isTarget : disk.target path = .ok (.named folder name))
    (noSlash : Disk.hasTrailingSlash path = false) : ∃ front last, path.Ends front last := by
  rcases List.eq_nil_or_concat (Path.cutAtSlashes path.text) with none | ⟨front, last, cut⟩
  · exact absurd none (Path.cutAtSlashes_ne_nil _)
  rw [List.concat_eq_append] at cut
  refine ⟨front, last, cut, ?_⟩
  by_contra void
  rw [Bool.not_eq_false, Path.isVoid, Bool.or_eq_true, beq_iff_eq, beq_iff_eq] at void
  rcases void with rfl | rfl
  · by_cases alone : front = []
    · have joined := Path.join_cutAtSlashes path.text
      rw [cut, alone] at joined
      have empty : checkPath path = .error .notFound := by
        simp [checkPath, Path.isTooLong, ← joined, Text.join, Path.sizeLimit]
      rw [Disk.target, empty] at isTarget
      cases isTarget
    · rw [Disk.hasTrailingSlash, Path.getLast?_of_cut alone cut] at noSlash
      cases noSlash
  · -- A dot at the end stands for the folder itself.
    have trimmed : ((Path.cutAtSlashes path.text).reverse.dropWhile (· == [])).reverse =
        front ++ [['.']] := by
      simp [cut]
    unfold Disk.target at isTarget
    cases checked : checkPath path with
    | error error => simp [checked, bind, Except.bind] at isTarget
    | ok =>
      simp only [checked, trimmed, bind, Except.bind, List.getLast?_concat, List.dropLast_concat,
        true_or, if_true] at isTarget
      cases followed : disk.follow (disk.start path) front with
      | error error => simp [followed] at isTarget
      | ok reached =>
        simp only [followed] at isTarget
        split at isTarget <;> cases isTarget

/-- A file is only moved to a path with nothing after its last component. -/
theorem Disk.ends_of_renameFile {disk after : Disk} {old path : Path}
    (ok : disk.renameFile old path = .ok after) : ∃ front last, path.Ends front last := by
  unfold Disk.renameFile at ok
  cases located : disk.locate old with
  | error error => simp [located, bind, Except.bind] at ok
  | ok source =>
    cases isTarget : disk.target path with
    | error error => simp [located, isTarget, bind, Except.bind] at ok
    | ok target =>
      cases target with
      | unnamed => simp [located, isTarget, bind, Except.bind] at ok
      | named folder name =>
        cases slash : Disk.hasTrailingSlash path with
        | false => exact Disk.ends_of_target isTarget slash
        | true =>
          simp only [located, isTarget, bind, Except.bind, slash, if_true] at ok
          split at ok
          next => cases ok
          next => cases ok
          next => split at ok <;> cases ok

/-! ### A replacement that fails in its second move -/

/-- Where a file cannot be moved to the path, the temporary file is taken back. -/
theorem adds_replaceFile_of_odd {path : Path} (isPlace : Location → Prop)
    (odd : ∀ front last, ¬ path.Ends front last) (bytes : Bytes) (machine : Machine)
    (fresh : Disk.isFileAt machine.disk.content?
      (machine.disk.place (temporaryPath machine.processId path)) = false) :
    ∃ error final, (replaceFile path bytes : ExceptT FileError (StateM Machine) Unit).run machine =
        (.error error, { machine with disk := final }) ∧
      Adds isPlace machine.disk final := by
  obtain ⟨front, ends⟩ := exists_temporaryPath_ends machine.processId path
  have notUp := temporaryName_notUp machine.processId (path.fileName?.getD "file")
  rw [run_replaceFile]
  generalize temporaryPath machine.processId path = temporary at *
  generalize temporaryName machine.processId (path.fileName?.getD "file") = name at *
  cases free : spotError? machine.disk temporary front name with
  | some error =>
    rw [createFile_of_ends ends notUp, free]
    exact ⟨error, machine.disk, rfl, .refl _ _⟩
  | none =>
    obtain ⟨isCreated, created, -, isRemoved, removed⟩ := puts_createFile ends notUp free bytes
    generalize machine.disk.alter (machine.disk.place temporary) (some (.file bytes)) = middle at *
    generalize middle.alter (machine.disk.place temporary) none = final at *
    rw [isCreated]
    cases isRenamed : middle.renameFile temporary path with
    | ok renamed =>
      obtain ⟨front, last, ends⟩ := Disk.ends_of_renameFile isRenamed
      exact (odd front last ends).elim
    | error error =>
      refine ⟨error, final, by simp only [isRenamed, isRemoved], ?_, ?_, ?_⟩
      · exact removed.workingFolder.trans created.workingFolder
      · exact removed.isWellFormed ∘ created.isWellFormed
      · intro location
        rw [removed.content?, created.content?]
        split
        next here =>
          subst here
          exact .inl (Disk.eq_none_of_isFileAt fresh (content?_of_spotError? ends rfl free)).symm
        next => exact .inl rfl

/-! ### The folders above a path -/

/-- A location is that of a path above the given one. -/
def Disk.IsAbove (disk : Disk) (path : Path) (location : Location) : Prop :=
  ∃ parent, path.parent? = some parent ∧ ∃ other ∈ parent.ancestors, location = disk.place other

/-- Only folders above a path are made for it. -/
theorem Disk.adds_above (disk : Disk) (path : Path) :
    Adds (disk.IsAbove path) disk (disk.makeParents path).2 := by
  unfold Disk.makeParents
  split
  next c cs above => exact (Disk.adds_makeFolders disk _).mono fun _ here => ⟨_, above, here⟩
  next => exact .refl _ disk

/-- On the way to a file there are all the folders above it. -/
theorem Disk.content?_of_isAbove {disk : Disk} {path : Path} {front : List Text} {last : Text}
    {folder location : Location} (ends : path.Ends front last)
    (reached : disk.reach path front = .ok folder) (above : disk.IsAbove path location) :
    disk.content? location = some .folder := by
  obtain ⟨parent, isParent, other, member, rfl⟩ := above
  obtain ⟨names, start⟩ := ends.names_parent? isParent
  obtain ⟨⟨rest, way⟩, start'⟩ :=
    Path.names_of_mem_ancestorsUpTo (Path.tidy_of_parent? isParent) member
  have found := (Disk.reach_eq_ok_iff.mp reached).2
  rw [← Disk.folderAt_namesIn, ← names, ← way, Disk.folderAt_append, Disk.start, ← start, ← start',
    ← Disk.start] at found
  cases passed : disk.folderAt (disk.start other) other.names with
  | error error =>
    rw [passed] at found
    cases found
  | ok passing =>
    obtain ⟨followed, isFolder⟩ := Disk.folderAt_eq_ok_iff.mp passed
    rw [Disk.place_eq_foldl_names, ← Disk.follow_eq_foldl followed]
    exact isFolder

/-! ### A write as a whole -/

/-- All of a write was done: the path has a name and was no folder, it holds the bytes, all
    folders above it are there, and those that were missing are all that is new. -/
structure Stored (before after : Disk) (path : Path) (bytes : Bytes) : Prop where
  workingFolder : after.workingFolder = before.workingFolder
  named : path.fileName? ≠ none
  notFolder : before.content? (before.place path) ≠ some .folder
  read : after.readFile path = .ok bytes
  file : after.content? (before.place path) = some (.file bytes)
  folders : ∀ location, before.IsAbove path location → after.content? location = some .folder
  others : ∀ location, location ≠ before.place path →
    after.content? location = before.content? location ∨
      before.IsAbove path location ∧ before.content? location = none

section Whole

variable {before after : Disk} {path temporary : Path}

theorem Wrote.stored {bytes : Bytes} {front : List Text} {last : Text}
    (ends : path.Ends front last)
    (wrote : Wrote (before.IsAbove path) before after path temporary (some bytes))
    (fresh : Disk.isFileAt before.content? (before.place temporary) = false) :
    Stored before after path bytes := by
  have located := wrote.located bytes rfl
  have file := wrote.target bytes rfl
  have named := wrote.named rfl
  have reached : ∃ folder, after.reach path front = .ok folder := by
    rw [Disk.locate_of_ends ends (ends.notUp named)] at located
    cases reached : after.reach path front with
    | error error => simp [reached, bind, Except.bind] at located
    | ok folder => exact ⟨folder, rfl⟩
  obtain ⟨folder, reached⟩ := reached
  refine ⟨wrote.workingFolder, named, ?_, Disk.readFile_eq_ok_iff.mpr ⟨_, located, file⟩, file,
    ?_, ?_⟩
  · intro isFolder
    rw [wrote.keepsFolders.folder isFolder] at file
    cases file
  · rintro location ⟨parent, isParent, other, member, rfl⟩
    refine Disk.content?_of_isAbove ends reached ⟨parent, isParent, other, member, ?_⟩
    exact (wrote.keepsFolders.place other).symm
  · intro location apart
    have becomes := wrote.becomes location
    generalize isOld : before.content? location = old at becomes ⊢
    generalize after.content? location = new at becomes ⊢
    cases becomes with
    | same => exact .inl rfl
    | made here => exact .inr ⟨here, rfl⟩
    | written _ isTarget _ => exact (apart isTarget).elim
    | removed isTemporary =>
      subst isTemporary
      simp [Disk.isFileAt, isOld] at fresh

theorem Wrote.adds {isPlace : Location → Prop}
    (wrote : Wrote isPlace before after path temporary none)
    (fresh : Disk.isFileAt before.content? (before.place temporary) = false) :
    Adds isPlace before after := by
  refine ⟨wrote.workingFolder, wrote.isWellFormed, fun location => ?_⟩
  have becomes := wrote.becomes location
  generalize isOld : before.content? location = old at becomes ⊢
  generalize after.content? location = new at becomes ⊢
  cases becomes with
  | same => exact .inl rfl
  | made here => exact .inr ⟨here, rfl, rfl⟩
  | written isWritten _ _ => cases isWritten
  | removed isTemporary =>
    subst isTemporary
    simp [Disk.isFileAt, isOld] at fresh

end Whole

/-- A write fails with an error about its path. -/
theorem error_of_writeOutput {path : Path} {code : Text} {machine after : Machine} {error : Error}
    (run : (writeOutput path code : ExceptT Error (StateM Machine) Unit).run machine =
      (.error error, after)) : ∃ cause, error = .write path cause := by
  rw [run_writeOutput] at run
  generalize machine.disk.makeParents path = parents at run
  obtain ⟨result, made⟩ := parents
  cases result with
  | error cause =>
    obtain ⟨isError, -⟩ := Prod.mk.inj run
    exact ⟨cause, (Except.error.inj isError).symm⟩
  | ok =>
    dsimp only at run
    generalize (replaceFile path (Utf8.encode code) :
      ExceptT FileError (StateM Machine) Unit).run { machine with disk := made } = replaced at run
    obtain ⟨result, later⟩ := replaced
    obtain ⟨isError, -⟩ := Prod.mk.inj run
    cases result with
    | ok => cases isError
    | error cause => exact ⟨cause, (Except.error.inj isError).symm⟩

/-- A write is done as a whole, or it only adds folders. -/
theorem stored_or_adds (path : Path) (code : Text) (machine : Machine)
    (fresh : Disk.isFileAt machine.disk.content?
      (machine.disk.place (temporaryPath machine.processId path)) = false) :
    ∃ result disk, (writeOutput path code : ExceptT Error (StateM Machine) Unit).run machine =
        (result, { machine with disk }) ∧
      (result = .ok () → Stored machine.disk disk path (Utf8.encode code)) ∧
      ∀ error, result = .error error → Adds (machine.disk.IsAbove path) machine.disk disk := by
  have adds := machine.disk.adds_above path
  by_cases ends : ∃ front last, path.Ends front last
  · obtain ⟨front, last, ends⟩ := ends
    obtain ⟨result, disk, run, wrote⟩ := wrote_writeOutput ends code machine adds
    refine ⟨result, disk, run, ?_, ?_⟩
    · rintro rfl
      exact wrote.stored ends fresh
    · rintro error rfl
      exact wrote.adds fresh
  · have odd : ∀ front last, ¬ path.Ends front last :=
      fun front last isEnd => ends ⟨front, last, isEnd⟩
    rw [run_writeOutput]
    generalize machine.disk.makeParents path = parents at adds ⊢
    obtain ⟨result, made⟩ := parents
    cases result with
    | error error =>
      refine ⟨.error (.write path error), made, rfl, ?_, fun _ _ => adds⟩
      intro ok
      cases ok
    | ok =>
      have stillFresh := isFileAt_of_adds adds fresh
      rw [← adds.grows.place] at stillFresh
      obtain ⟨error, final, run, taken⟩ := adds_replaceFile_of_odd (machine.disk.IsAbove path) odd
        (Utf8.encode code) { machine with disk := made } stillFresh
      refine ⟨.error (.write path error), final, ?_, ?_, fun _ _ => adds.trans taken⟩
      · simp only [run]
        rfl
      · intro ok
        cases ok

/-- A source whose code is not written changes nothing. -/
theorem compileOne_unchanged {names : RuntimeNames} {root input : Path} {outDir : Option Path}
    {machine after : Machine} {error : Error}
    (run : (compileOne names root outDir input : ExceptT Error (StateM Machine) Compiled).run
      machine = (.error error, after))
    (other : ∀ path cause, error ≠ .write path cause) : after = machine := by
  rw [run_compileOne] at run
  cases delivery : deliveryOf names root outDir machine.disk input with
  | error stopped =>
    rw [delivery] at run
    exact (Prod.mk.inj run).2.symm
  | ok delivered =>
    obtain ⟨output, code⟩ := delivered
    simp only [delivery] at run
    generalize wrote : (writeOutput output code : ExceptT Error (StateM Machine) Unit).run machine =
      written at run
    obtain ⟨result, later⟩ := written
    cases result with
    | ok => cases (Prod.mk.inj run).1
    | error failed =>
      obtain ⟨cause, rfl⟩ := error_of_writeOutput wrote
      obtain rfl : Error.write output cause = error := Except.error.inj (Prod.mk.inj run).1
      exact (other output cause rfl).elim

/-- **All or nothing.**  Let no file have the name of the temporary file.  Then a write to
    any path has stored all of the code and made the folders that were missing above it, or
    it has failed with an error about the path, and has done nothing but to make some of
    these folders.  The compilation of a source that fails with any other error, that is
    because the source cannot be read, is no program or would be overwritten, changes
    nothing. -/
theorem writeOutput_all_or_nothing (machine : Machine) :
    (∀ (path : Path) (code : Text),
      Disk.isFileAt machine.disk.content?
        (machine.disk.place (temporaryPath machine.processId path)) = false →
      ∃ result disk, (writeOutput path code : ExceptT Error (StateM Machine) Unit).run machine =
          (result, { machine with disk }) ∧
        (result = .ok () → Stored machine.disk disk path (Utf8.encode code)) ∧
        ∀ error, result = .error error →
          (∃ cause, error = .write path cause) ∧
            Adds (machine.disk.IsAbove path) machine.disk disk) ∧
    ∀ (names : RuntimeNames) (root : Path) (outDir : Option Path) (input : Path) (error : Error)
      (after : Machine),
      (compileOne names root outDir input : ExceptT Error (StateM Machine) Compiled).run machine =
        (.error error, after) →
      (∀ path cause, error ≠ .write path cause) → after = machine := by
  constructor
  · intro path code fresh
    obtain ⟨result, disk, run, stored, adds⟩ := stored_or_adds path code machine fresh
    refine ⟨result, disk, run, stored, ?_⟩
    rintro error rfl
    exact ⟨error_of_writeOutput run, adds error rfl⟩
  · intro names root outDir input error after run other
    exact compileOne_unchanged run other

/-- A file `s`, and nothing else. -/
def oneFile : Machine where
  disk := {
    root := .folder [("s", .file [])]
    workingFolder := [] }
  input := []
  processId := 7

/-- Code for `d/x` is stored, with the folder `d`; for `d/x/` only the folder is made, and
    the temporary file is gone; a source that is not there changes nothing. -/
theorem writeOutput_all_or_nothing_slash :
    (∃ disk, (writeOutput "d/x" "1" : ExceptT Error (StateM Machine) Unit).run oneFile =
        (.ok (), { oneFile with disk }) ∧
      Stored oneFile.disk disk "d/x" (Utf8.encode "1")) ∧
    (∃ disk, (writeOutput "d/x/" "1" : ExceptT Error (StateM Machine) Unit).run oneFile =
        (.error (.write "d/x/" .notFolder), { oneFile with disk }) ∧
      Adds (oneFile.disk.IsAbove "d/x/") oneFile.disk disk ∧
      disk.content? ["d"] = some .folder ∧ disk.content? ["d", ".x.tmp.7"] = none) ∧
    (compileOne {} "." none "x.moon" : ExceptT Error (StateM Machine) Compiled).run oneFile =
      (.error (.read "x.moon" .notFound), oneFile) := by
  obtain ⟨writes, steps⟩ := writeOutput_all_or_nothing oneFile
  refine ⟨?_, ?_, ?_⟩
  · obtain ⟨result, disk, run, stored, -⟩ := writes "d/x" "1" rfl
    have ok : ((writeOutput "d/x" "1" : ExceptT Error (StateM Machine) Unit).run oneFile).1 =
      .ok () := rfl
    rw [run] at ok
    obtain rfl : result = .ok () := ok
    exact ⟨disk, run, stored rfl⟩
  · obtain ⟨result, disk, run, -, fails⟩ := writes "d/x/" "1" rfl
    have failed : ((writeOutput "d/x/" "1" : ExceptT Error (StateM Machine) Unit).run oneFile).1 =
      .error (.write "d/x/" .notFolder) := rfl
    have folder : ((writeOutput "d/x/" "1" : ExceptT Error (StateM Machine) Unit).run
      oneFile).2.disk.content? ["d"] = some .folder := rfl
    have gone : ((writeOutput "d/x/" "1" : ExceptT Error (StateM Machine) Unit).run
      oneFile).2.disk.content? ["d", ".x.tmp.7"] = none := rfl
    rw [run] at failed folder gone
    obtain rfl : result = .error (.write "d/x/" .notFolder) := failed
    exact ⟨disk, run, (fails _ rfl).2, folder, gone⟩
  · have failed : ((compileOne {} "." none "x.moon" :
      ExceptT Error (StateM Machine) Compiled).run oneFile).1 =
        .error (.read "x.moon" .notFound) := rfl
    have same := steps {} "." none "x.moon" (.read "x.moon" .notFound) _ (Prod.ext failed rfl)
    exact Prod.ext failed (same (by simp))

end ViewScript
