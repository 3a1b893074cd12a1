/-
  ViewScript/Proofs/Project/Overwriting.lean
  ==========================================
  **When code takes the place of its source.**

  Before a file is compiled the path of its code is compared with its own.  Paths are
  compared as they are written, component by component, and on the disk they are followed.
  So the comparison keeps a source from being overwritten where the two come to the same,
  which they do for paths that start in the same way and have no `..`.  They differ for
  others: `x.js` and `./x.js` are different paths to one file.
-/
import ViewScript.Command.Run
import ViewScript.Proofs.Project.Effects
import ViewScript.Proofs.Project.Steps
import ViewScript.Proofs.Project.Targets

namespace ViewScript

open Disk (readFile_eq_ok_iff)

/-! ### The source and the temporary file -/

/-- The temporary file for the code of a file does not have the name of the file. -/
theorem temporaryName_ne_source {target : Path} {front : List Text} {name : Text}
    (ends : target.Ends front (Path.renamed name outputExtension)) (processId : Nat) :
    temporaryName processId (target.fileName?.getD "file") ≠ name := by
  intro same
  have stem := congrArg Prod.fst
    (splitName_temporaryName processId (target.fileName?.getD "file"))
  rw [same, ends.fileName?] at stem
  -- Both stems are counted: that of the temporary file is the longer one.
  have length := congrArg List.length stem
  unfold Path.renamed at length
  split at length
  next dots => simp [dots.1] at length
  next =>
    split at length
    next dots =>
      have longer := congrArg List.length dots
      simp at length longer
      omega
    next =>
      simp at length
      omega

/-! ### Compiling one file -/

/-- The paths start in the same way, and there is no `..` in them. -/
def Path.Comparable (first second : Path) : Prop :=
  first.split.1 = second.split.1 ∧ ['.', '.'] ∉ cutAtSlashes first.text ∧
    ['.', '.'] ∉ cutAtSlashes second.text

instance (first second : Path) : Decidable (first.Comparable second) :=
  inferInstanceAs (Decidable (_ ∧ _))

section One

variable {names : RuntimeNames} {root input : Path} {outDir : Option Path}
  {machine after : Machine} {compiled : Compiled}

/-- A file that was compiled, and what became of it. -/
structure Delivered (names : RuntimeNames) (root : Path) (outDir : Option Path) (input : Path)
    (machine after : Machine) (location : Location) (bytes : Bytes) (code : Text) : Prop where
  located : machine.disk.locate input = .ok location
  isFile : machine.disk.content? location = some (.file bytes)
  isCode : compileSource names input (Utf8.decodeLossy bytes) = .ok code
  workingFolder : after.disk.workingFolder = machine.disk.workingFolder
  /-- The source has its own contents, or those of the code that was written to it. -/
  source : after.disk.content? location = some (.file
    (if after.disk.locate (targetPath input root outDir) = .ok location then Utf8.encode code
    else bytes))

theorem delivered_of_compileOne
    (run : (compileOne names root outDir input : ExceptT Error (StateM Machine) Compiled).run
      machine = (.ok compiled, after)) :
    compiled.output = targetPath input root outDir ∧
      ¬ (targetPath input root outDir).Same input ∧
      ∃ location bytes code, Delivered names root outDir input machine after location bytes code := by
  rw [run_compileOne] at run
  cases delivery : deliveryOf names root outDir machine.disk input with
  | error error =>
    rw [delivery] at run
    cases run
  | ok delivered =>
    obtain ⟨output, code⟩ := delivered
    obtain ⟨isOutput, isCode⟩ := deliveryOf_eq_ok_iff.mp delivery
    obtain ⟨rfl, other⟩ := outputPath_eq_ok_iff.mp isOutput
    obtain ⟨bytes, read, compiles⟩ := codeOf_eq_ok_iff.mp isCode
    obtain ⟨location, located, isFile⟩ := readFile_eq_ok_iff.mp read
    obtain ⟨front, last, ends, isName⟩ := Disk.ends_of_readFile read
    obtain ⟨front', endsTarget⟩ := targetPath_ends ends isName root outDir
    obtain ⟨result, disk, wrote, effect⟩ :=
      wrote_writeOutput endsTarget code machine (Disk.adds_makeParents _ _)
    simp only [delivery, wrote] at run
    cases result with
    | error error => cases run
    | ok =>
      obtain ⟨isCompiled, rfl⟩ := Prod.mk.inj run
      obtain rfl := Except.ok.inj isCompiled
      have targetLocated := effect.located _ rfl
      refine ⟨rfl, other, location, bytes, code, located, isFile, compiles,
        effect.workingFolder, ?_⟩
      split
      next same =>
        obtain rfl := Except.ok.inj (targetLocated.symm.trans same)
        exact effect.target _ rfl
      next elsewhere =>
        have apart : location ≠ machine.disk.place (temporaryPath machine.processId
            (targetPath input root outDir)) := by
          obtain ⟨front'', endsTemporary, -, -⟩ :=
            temporaryPath_ends endsTarget machine.processId
          rw [Disk.locate_eq_place located, Disk.place_of_ends ends isName,
            Disk.place_of_ends endsTemporary (temporaryName_notUp _ _)]
          intro same
          have sameName := List.singleton_inj.mp (List.append_inj' same rfl).2
          exact temporaryName_ne_source endsTarget machine.processId sameName.symm
        refine (effect.content?_of_file isFile apart).resolve_right ?_
        rintro ⟨-, -, rfl, -⟩
        exact elsewhere targetLocated

/-- Such paths to one location are written with the same components. -/
theorem Path.Comparable.same {disk : Disk} {first second : Path}
    (comparable : first.Comparable second) (same : disk.place first = disk.place second) :
    first.Same second := by
  obtain ⟨anchor, noUp, noUp'⟩ := comparable
  have start : disk.start first = disk.start second := by
    have absolute : first.isAbsolute = second.isAbsolute := by
      rw [Bool.eq_iff_iff, isAbsolute_iff, isAbsolute_iff, anchor]
    simp only [Disk.start, absolute]
  rw [Disk.place_of_noUp noUp, Disk.place_of_noUp noUp', start] at same
  unfold Path.Same
  rw [components_eq, components_eq, anchor, List.append_cancel_left same]

theorem run_compileOne_of_same (same : (targetPath input root outDir).Same input) :
    (compileOne names root outDir input : ExceptT Error (StateM Machine) Compiled).run machine =
      (.error (.outputIsInput (targetPath input root outDir)), machine) := by
  have refused : deliveryOf names root outDir machine.disk input =
      .error (.outputIsInput (targetPath input root outDir)) := by
    simp [deliveryOf, outputPath, same, bind, Except.bind]
  rw [run_compileOne, refused]

/-- A file that a command compiles is compiled from the folder of the command. -/
theorem run_compileInput_of_file {settings : Settings} {file : Path} (isFile : file ≠ standardInput) :
    (compileInput settings names outDir false file : ExceptT Error (StateM Machine) Yield).run
        machine =
      let run := (compileOne names settings.cwd outDir (settings.resolve file) :
        ExceptT Error (StateM Machine) Compiled).run machine
      (run.1.map (.written ·.output), run.2) := by
  simp only [compileInput, if_neg isFile, Bool.false_eq_true, if_false, run_bind]
  rcases (compileOne names settings.cwd outDir (settings.resolve file) :
    ExceptT Error (StateM Machine) Compiled).run machine with ⟨result, after⟩
  cases result <;> rfl

end One

/-- **What becomes of a source when it is compiled.**  If the path of the code has the
    components of the path of the source, nothing is done.  Otherwise, if it succeeds, the
    source keeps its contents unless the path of the code leads to it all the same, and the
    code is something else.  This does not happen if both paths start in the same way and
    have no `..`.  It is the same for a file that is compiled by a command. -/
theorem source_after_compile (names : RuntimeNames) (root : Path) (outDir : Option Path)
    (input : Path) (machine : Machine) :
    let target := targetPath input root outDir
    let run := (compileOne names root outDir input :
      ExceptT Error (StateM Machine) Compiled).run machine
    (target.Same input → run = (.error (.outputIsInput target), machine)) ∧
    (∀ compiled after, run = (.ok compiled, after) →
      compiled.output = target ∧ ∃ location bytes code,
        machine.disk.locate input = .ok location ∧
        machine.disk.content? location = some (.file bytes) ∧
        compileSource names input (Utf8.decodeLossy bytes) = .ok code ∧
        (after.disk.content? location = some (.file bytes) ↔
          after.disk.locate target ≠ .ok location ∨ Utf8.encode code = bytes) ∧
        (target.Comparable input → after.disk.content? location = some (.file bytes))) ∧
    ∀ settings file, file ≠ standardInput → settings.cwd = root → settings.resolve file = input →
      (compileInput settings names outDir false file :
        ExceptT Error (StateM Machine) Yield).run machine = (run.1.map (.written ·.output), run.2) := by
  intro target run
  refine ⟨run_compileOne_of_same, ?_, ?_⟩
  · intro compiled after ran
    obtain ⟨isOutput, other, location, bytes, code, delivered⟩ := delivered_of_compileOne ran
    refine ⟨isOutput, location, bytes, code, delivered.located, delivered.isFile,
      delivered.isCode, ?_, ?_⟩
    · rw [delivered.source]
      by_cases same : after.disk.locate target = .ok location
      · simp [target, same]
      · simp [target, same]
    · intro comparable
      rw [delivered.source, if_neg]
      intro same
      apply other
      refine comparable.same ((Disk.locate_eq_place same).symm.trans ?_)
      rw [Disk.locate_eq_place delivered.located]
      simp only [Disk.place, Disk.start, delivered.workingFolder]
  · rintro settings file isFile rfl rfl
    exact run_compileInput_of_file isFile

/-- A source in the working folder that has the extension of code. -/
def scriptSource : Machine where
  disk := {
    root := .folder [("w", .folder [("x.js", .file (Utf8.encode "#x#"))])]
    workingFolder := ["w"] }
  input := []
  processId := 7

/-- **A source that is overwritten.**  Below the folder `.` the code of `x.js` goes to `./x.js`. -/
theorem source_after_compile_overwritten :
    let run := (compileOne {} "." (some ("." : Path)) "x.js" :
      ExceptT Error (StateM Machine) Compiled).run scriptSource
    ¬ (targetPath "x.js" "." (some ("." : Path))).Same "x.js" ∧
    run.1.toOption = some ⟨"./x.js", 5⟩ ∧
    scriptSource.disk.content? ["w", "x.js"] = some (.file (Utf8.encode "#x#")) ∧
    run.2.disk.content? ["w", "x.js"] = some (.file (Utf8.encode "/*x*/")) ∧
    run.2.disk.locate (targetPath "x.js" "." (some ("." : Path))) = .ok ["w", "x.js"] := by
  intro run
  have compiled : run.1.toOption = some ⟨"./x.js", 5⟩ := by decide +kernel
  have source : scriptSource.disk.content? ["w", "x.js"] = some (.file (Utf8.encode "#x#")) := rfl
  have overwritten : run.2.disk.content? ["w", "x.js"] = some (.file (Utf8.encode "/*x*/")) := by
    decide +kernel
  have ran : run = (.ok ⟨"./x.js", 5⟩, run.2) := by
    generalize run = ran at compiled
    obtain ⟨result, after⟩ := ran
    cases result with
    | error error => cases compiled
    | ok value => rw [Option.some.inj compiled]
  obtain ⟨-, delivered, -⟩ :=
    source_after_compile {} "." (some ("." : Path)) "x.js" scriptSource
  obtain ⟨-, location, bytes, code, located, isFile, -, kept, -⟩ := delivered _ _ ran
  have here : scriptSource.disk.locate "x.js" = .ok ["w", "x.js"] := rfl
  obtain rfl := Except.ok.inj (here.symm.trans located)
  obtain rfl : Utf8.encode "#x#" = bytes := by simpa using source.symm.trans isFile
  have other : Utf8.encode "/*x*/" ≠ Utf8.encode "#x#" := by decide +kernel
  have changed : run.2.disk.content? ["w", "x.js"] ≠ some (.file (Utf8.encode "#x#")) := by
    rw [overwritten]
    simpa only [ne_eq, Option.some.injEq, Content.file.injEq] using other
  rw [ne_eq, kept, not_or, not_not] at changed
  exact ⟨by decide +kernel, compiled, source, overwritten, changed.1⟩

end ViewScript
