/-
  ViewScript/Proofs/Command/Building.lean
  =======================================
  **Building against compiling.**

  To build a project is to search for its sources and to compile them side by side.  To compile
  the same sources by name, one after the other and in any order, comes to the same: the exit
  codes agree, as far as all notices can be drawn, and so do the trees.

  There is one exception.  If the compilation of a source ends with a fatal error, both commands
  break off.  The one that was given the names has not come to the sources after it.  In a build
  a worker stops, but the other workers do not; so what code is there depends on the schedule.
-/
import ViewScript.Proofs.Command.OutputMode
import ViewScript.Proofs.Compile.Slices
import ViewScript.Proofs.Project.Schedules
import ViewScript.Text.Utf8.RoundTrip

namespace ViewScript

/-! ### Files that are named -/

/-- Compile one of the files that were found. -/
def buildInput (names : RuntimeNames) (root : Path) (outDir : Option Path) (file : Path) :
    ExceptT Error (StateM Machine) Yield := do
  let compiled ← compileOne names root outDir file
  return .written compiled.output

theorem run_buildInput (names : RuntimeNames) (root : Path) (outDir : Option Path) (file : Path)
    (machine : Machine) :
    (buildInput names root outDir file).run machine =
      let compiled := (compileOne names root outDir file :
        ExceptT Error (StateM Machine) Compiled).run machine
      (compiled.1.map fun compiled => .written compiled.output, compiled.2) := by
  rw [buildInput, run_bind]
  generalize (compileOne names root outDir file : ExceptT Error (StateM Machine) Compiled).run
    machine = compiled
  obtain ⟨result, after⟩ := compiled
  cases result <;> rfl

/-- The rows of files in turn are those of their results. -/
theorem inTurn_buildInput (names : RuntimeNames) (root : Path) (outDir : Option Path)
    (files : List Path) (machine : Machine) :
    inTurn (buildInput names root outDir) files machine =
      let run := (compileEach names root outDir files : StateM Machine (List FileResult)) machine
      (run.1.map FileResult.row, run.2) := by
  induction files generalizing machine with
  | nil => rfl
  | cons file files ih =>
    rw [inTurn, run_compileEach_cons, run_buildInput]
    dsimp only
    rw [ih]
    rfl

section Named

variable {settings : Settings} {names : RuntimeNames} {outDir : Option Path}

/-- A file that is named is compiled as if it had been found. -/
theorem compileInput_eq_buildInput {input : Path} (isFile : input ≠ standardInput) :
    (compileInput settings names outDir false input : ExceptT Error (StateM Machine) Yield) =
      buildInput names settings.cwd outDir (settings.resolve input) := by
  simp [compileInput, buildInput, isFile]

theorem inTurn_compileInput {inputs : List Path} (areFiles : standardInput ∉ inputs)
    (machine : Machine) :
    (inTurn (compileInput settings names outDir false) inputs machine).1.map Row.result =
      (inTurn (buildInput names settings.cwd outDir) (inputs.map settings.resolve)
        machine).1.map Row.result := by
  induction inputs generalizing machine with
  | nil => rfl
  | cons input inputs ih =>
    rw [List.mem_cons, not_or] at areFiles
    rw [List.map_cons, inTurn, inTurn, compileInput_eq_buildInput (Ne.symm areFiles.1)]
    dsimp only
    rw [List.map_cons, List.map_cons, ih areFiles.2]

/-- A source that was found is a file and not the standard input. -/
theorem standardInput_notMem {config : ProjectConfig} {inputs files : List Path}
    (tested : ∀ file ∈ files, config.matchesExtension file = true)
    (isSource : ∀ input ∈ inputs, settings.resolve input ∈ files) : standardInput ∉ inputs := by
  intro member
  have hasExtension := tested _ (isSource _ member)
  have ends : standardInput.Ends [] ['-'] := ⟨rfl, rfl⟩
  obtain ⟨front, joined⟩ := ends.join settings.cwd
  have resolved : settings.resolve standardInput = settings.cwd.join standardInput := rfl
  rw [resolved, ProjectConfig.matchesExtension, Path.extension?, joined.fileName?] at hasExtension
  cases hasExtension

/-- To write code never ends with a fatal error. -/
theorem isFatal_writeOutput {path : Path} {code : Text} {machine after : Machine} {error : Error}
    (run : (writeOutput path code : ExceptT Error (StateM Machine) Unit).run machine =
      (.error error, after)) : error.isFatal = false := by
  rw [run_writeOutput] at run
  generalize machine.disk.makeParents path = made at run
  obtain ⟨result, disk⟩ := made
  cases result with
  | error reason =>
    cases run
    rfl
  | ok =>
    dsimp only at run
    generalize (replaceFile path (Utf8.encode code) :
      ExceptT FileError (StateM Machine) Unit).run { machine with disk } = replaced at run
    obtain ⟨result, final⟩ := replaced
    cases result with
    | ok => cases run
    | error reason =>
      cases run
      rfl

/-- A fatal error changes nothing. -/
theorem machine_of_isFatal {root input : Path} {machine after : Machine} {error : Error}
    (run : (compileOne names root outDir input : ExceptT Error (StateM Machine) Compiled).run
      machine = (.error error, after)) (fatal : error.isFatal = true) : after = machine := by
  rw [run_compileOne] at run
  cases delivery : deliveryOf names root outDir machine.disk input with
  | error reason =>
    rw [delivery] at run
    cases run
    rfl
  | ok delivered =>
    obtain ⟨output, code⟩ := delivered
    rw [delivery] at run
    dsimp only at run
    generalize wrote : (writeOutput output code : ExceptT Error (StateM Machine) Unit).run
      machine = written at run
    obtain ⟨result, final⟩ := written
    cases result with
    | ok => cases run
    | error reason =>
      cases run
      rw [isFatal_writeOutput wrote] at fatal
      cases fatal

variable {task : Task} {machine : Machine} {done inputs : List Path} {base : List Text}

/-- A command that is given the sources by name compiles them up to the first whose compilation
    ends with a fatal error. -/
theorem Task.Underway.machine_rowsOf (underway : task.Underway done machine)
    (spread : Spread task.before.disk task.before.processId task.root task.outDir task.files base)
    (inside : done ⊆ task.files) (isRoot : settings.cwd = task.root)
    (distinct : (inputs.map settings.resolve).Nodup)
    (isSource : inputs.map settings.resolve ⊆ task.files)
    (todo : ∀ file ∈ inputs.map settings.resolve, file ∉ done)
    (areFiles : standardInput ∉ inputs) :
    ((rowsOf (compileInput settings task.names task.outDir false) inputs :
        StateM Machine (List Row)) machine).2 =
      ((ViewScript.compileEach task.names task.root task.outDir
        ((inputs.map settings.resolve).takeWhile fun file => !task.isFatal file) :
          StateM Machine (List FileResult)) machine).2 := by
  induction inputs generalizing done machine with
  | nil => rfl
  | cons input inputs ih =>
    rw [List.map_cons] at distinct isSource todo ⊢
    rw [List.cons_subset] at isSource
    rw [List.mem_cons, not_or] at areFiles
    obtain ⟨result, after, run, next, settles⟩ :=
      underway.compileOne spread inside isSource.1 (todo _ List.mem_cons_self)
    have isRow : (⟨input, result.map fun compiled => .written compiled.output⟩ : Row).isFatal =
        task.isFatal (settings.resolve input) := by
      rw [← settles.fatal, ← isFatal_row]
      rfl
    rw [run_rowsOf_cons, compileInput_eq_buildInput (Ne.symm areFiles.1), run_buildInput, isRoot,
      run]
    dsimp only
    rw [isRow, List.takeWhile_cons]
    cases ends : task.isFatal (settings.resolve input) with
    | true =>
      have isFatal := settles.fatal.trans ends
      cases result with
      | ok => cases isFatal
      | error error =>
        simp only [FileResult.fatal?] at isFatal
        split at isFatal
        next fatal => exact machine_of_isFatal run fatal
        next => cases isFatal
    | false =>
      simp only [Bool.false_eq_true, if_false, Bool.not_false, if_true]
      rw [run_compileEach_cons, run]
      dsimp only
      exact ih next (List.cons_subset.mpr ⟨isSource.1, inside⟩) (List.nodup_cons.mp distinct).2
        isSource.2 (todo_of_cons distinct todo) areFiles.2

end Named

/-! ### The rows of the sources -/

/-- Rows tell what was settled about sources. -/
structure Task.Tell (task : Task) (files : List Path) (rows : List Row) : Prop where
  isOk : rows.all Row.isOk = files.all task.isWritten
  isFatal : rows.any Row.isFatal = files.any task.isFatal

section Rows

theorem all_isOk_row (results : List FileResult) :
    (results.map FileResult.row).all Row.isOk = (results.map (·.isOk)).all id := by
  have isOk : ∀ file : FileResult, file.row.isOk = file.isOk := by
    rintro ⟨input, result⟩
    cases result <;> rfl
  rw [List.all_map, List.all_map]
  exact congrArg results.all (funext isOk)

variable {task : Task} {files order : List Path} {rows rows' : List Row} {base : List Text}

namespace Task.Tell

theorem congr (tell : task.Tell files rows) (same : rows'.map Row.result = rows.map Row.result) :
    task.Tell files rows' := by
  have all : ∀ rows : List Row, rows.all Row.isOk = (rows.map Row.result).all Except.isOk := by
    intro rows
    rw [List.all_map]
    rfl
  have any : ∀ rows : List Row, rows.any Row.isFatal =
      (rows.map Row.result).any fun result => (⟨standardInput, result⟩ : Row).isFatal := by
    intro rows
    rw [List.any_map]
    rfl
  exact ⟨by rw [all, same, ← all, tell.isOk], by rw [any, same, ← any, tell.isFatal]⟩

/-- Rows about the same sources lead to the same exit code. -/
theorem exitCodeOf_eq (tell : task.Tell files rows) (tell' : task.Tell order rows')
    (same : order.Perm files) : exitCodeOf rows' = exitCodeOf rows := by
  simp only [exitCodeOf, tell.isOk, tell.isFatal, tell'.isOk, tell'.isFatal, same.all_eq,
    same.any_eq]

end Task.Tell

variable
  (spread : Spread task.before.disk task.before.processId task.root task.outDir task.files base)
include spread

/-- The rows of sources that are compiled one after the other. -/
theorem tell_inTurn (distinct : order.Nodup) (isSource : order ⊆ task.files) :
    task.Tell order (inTurn (buildInput task.names task.root task.outDir) order task.before).1 := by
  generalize run : (compileEach task.names task.root task.outDir order :
    StateM Machine (List FileResult)) task.before = results
  obtain ⟨results, after⟩ := results
  obtain ⟨-, areOk, areFatal⟩ := task.underway_nil.compileEach spread (List.nil_subset _) distinct
    isSource (by simp) run
  rw [inTurn_buildInput, run]
  constructor
  · rw [all_isOk_row, areOk, List.all_map]
    rfl
  · have areRows : (results.map FileResult.row).any Row.isFatal =
        (results.map (·.fatal?.isSome)).any id := by
      rw [List.any_map, List.any_map]
      exact congrArg results.any (funext isFatal_row)
    rw [areRows, areFatal, List.any_map]
    rfl

/-- The rows of sources that are compiled side by side. -/
theorem tell_together (distinct : task.files.Nodup) (schedule : Schedule) :
    task.Tell task.files
      (together task.names task.root task.outDir schedule task.files task.before).1 := by
  obtain ⟨results, after, run⟩ : ∃ results after, (compileTogether task.names task.root
      task.outDir schedule task.files : StateM Machine (List FileResult)) task.before =
        (results, after) := ⟨_, _, rfl⟩
  obtain ⟨phase, -, ended⟩ := Task.ended_compileTogether spread distinct run
  rw [together_eq, run]
  cases fatal : task.files.any task.isFatal with
  | true =>
    obtain ⟨file, member, isFatal⟩ := List.any_eq_true.mp fatal
    have found : (results.map FileResult.row).any Row.isFatal = true := by
      rw [any_isFatal_row, Option.isSome_iff_ne_none, Ne, ended.calm]
      exact fun calm => by simp [calm file member] at isFatal
    have some : task.files.all task.isWritten = false :=
      List.all_eq_false.mpr
        ⟨file, member, by simp [Task.isWritten, spread.isWritten_of_isFatalSource member isFatal]⟩
    exact ⟨by rw [some]; simpa using not_all_isOk_of_any_isFatal found, by rw [found, fatal]⟩
  | false =>
    have calm : ∀ input ∈ task.files, task.isFatal input = false := by
      simpa using List.any_eq_false.mp fatal
    constructor
    · rw [all_isOk_row, ended.isOk calm, List.all_map]
      rfl
    · rw [any_isFatal_row, ended.calm.mpr calm, fatal]
      rfl

/-- Compiled in two orders, the sources leave the same tree. -/
theorem sameTree_compileEach (distinct : task.files.Nodup) {other : List Path}
    (same : order.Perm task.files) (same' : other.Perm task.files) :
    ((compileEach task.names task.root task.outDir order :
        StateM Machine (List FileResult)) task.before).2.disk.SameTree
      ((compileEach task.names task.root task.outDir other :
        StateM Machine (List FileResult)) task.before).2.disk := by
  have start := task.underway_nil
  obtain ⟨first, -⟩ := start.compileEach spread (List.nil_subset _)
    (same.nodup_iff.mpr distinct) same.subset (by simp) (Prod.eta _).symm
  obtain ⟨second, -⟩ := start.compileEach spread (List.nil_subset _)
    (same'.nodup_iff.mpr distinct) same'.subset (by simp) (Prod.eta _).symm
  refine first.sameTree second fun write _ => ?_
  simp only [Task.doneBy, List.mem_filterMap, List.append_nil, List.mem_reverse, same.mem_iff,
    same'.mem_iff]

end Rows

/-! ### Where paths start -/

theorem content?_start_of_locate {disk : Disk} {path : Path} {location : Location}
    (located : disk.locate path = .ok location) :
    disk.content? (disk.start path) = some .folder := by
  unfold Disk.locate at located
  cases checked : Disk.checkPath path with
  | error error => simp [checked, bind, Except.bind] at located
  | ok =>
    simp only [checked, bind, Except.bind] at located
    obtain ⟨first, rest, cut⟩ := List.exists_cons_of_ne_nil (Path.cutAtSlashes_ne_nil path.text)
    rw [cut, Disk.follow_cons] at located
    split at located
    next isFolder => exact isFolder
    next => cases located
    next => cases located

/-- If the working folder can be located, then so can the folder where the paths of all code
    start. -/
theorem Settings.standing_outputFolder {settings : Settings} {disk : Disk} {location : Location}
    (wellFormed : disk.IsWellFormed) (located : disk.locate settings.cwd = .ok location)
    (outDir : Option Path) (config : ProjectConfig) :
    disk.content? (disk.start ((settings.outputFolder outDir config).getD settings.cwd)) =
      some .folder := by
  have written := Disk.text_ne_nil_of_locate located
  have atCwd := content?_start_of_locate located
  have absolute : ∀ {path : Path}, path.isAbsolute = true →
      disk.content? (disk.start path) = some .folder := by
    intro path isAbsolute
    rw [Disk.start, if_pos isAbsolute]
    exact wellFormed.content?_nil
  unfold outputFolder
  cases outDir <|> config.outDir with
  | none => exact atCwd
  | some asked =>
    simp only [Option.map_some, Option.getD_some, resolve]
    by_cases isAbsolute : asked.isAbsolute = true
    · rw [if_pos isAbsolute]
      exact absolute isAbsolute
    · rw [if_neg isAbsolute, Disk.start,
        Path.isAbsolute_join written (by simpa using isAbsolute), ← Disk.start]
      exact atCwd

/-! ### The two commands -/

/-- A build of some sources, and a compilation of the same sources in some order. -/
structure BuildAgrees (names : RuntimeNames) (root : Path) (outDir : Option Path)
    (files order : List Path) (machine : Machine) (build compile : Outcome × Machine) : Prop where
  /-- The exit codes are the same, if what is drawn can be drawn. -/
  exitCode : build.1.IsDrawn machine.draws → compile.1.IsDrawn machine.draws →
    compile.1.exitCode = build.1.exitCode
  /-- The exit codes are zero exactly if all code can be written. -/
  success : (compile.1.exitCode = 0 ↔ build.1.exitCode = 0) ∧ (build.1.exitCode = 0 ↔
    ∀ file ∈ files, isWritten names root outDir machine file = true)
  /-- With a fatal error both commands break off. -/
  fatal : (∃ file ∈ files, isFatalSource names machine.disk file = true) →
    build.1.exitCode = 101 ∧ compile.1.exitCode = 101
  /-- A build breaks off for no other reason, if what is drawn can be drawn. -/
  calm : build.1.IsDrawn machine.draws → build.1.exitCode = 101 →
    ∃ file ∈ files, isFatalSource names machine.disk file = true
  /-- Without a fatal error, and so with any other exit code, the trees are the same. -/
  sameTree : (∀ file ∈ files, isFatalSource names machine.disk file = false) →
    compile.2.disk.SameTree build.2.disk
  /-- Then a build leaves the tree of its sources, compiled in any order. -/
  anyOrder : (∀ file ∈ files, isFatalSource names machine.disk file = false) →
    ∀ {other : List Path}, other.Perm files → build.2.disk.SameTree
      ((compileEach names root outDir other : StateM Machine (List FileResult)) machine).2.disk
  /-- In any case every worker of a build compiles its share up to the first fatal error. -/
  built : build.2.disk.SameTree ((compileEach names root outDir
    ((Schedule.deal machine.schedule.shares files).flatMap (List.takeWhile fun file =>
      !isFatalSource names machine.disk file)) : StateM Machine (List FileResult)) machine).2.disk
  /-- The other command compiles all sources up to the first fatal error. -/
  stopped : compile.2 = ((compileEach names root outDir (order.takeWhile fun file =>
    !isFatalSource names machine.disk file) : StateM Machine (List FileResult)) machine).2

section Commands

variable {settings : Settings} {machine : Machine} {config : ProjectConfig}
  {files inputs : List Path} {base : List Text} {outDir : Option Path}

/-- The exit code of a command whose rows tell what was settled. -/
theorem exitCode_of_tell {task : Task} {action : Action} {work : StateM Machine (List Row)}
    (worksOn : action.WorksOn settings machine inputs work)
    (tell : task.Tell files (work machine).1) (json : Bool) :
    let outcome := (action.runLeave settings json machine).1
    (outcome.IsDrawn machine.draws → outcome.exitCode = exitCodeOf (work machine).1) ∧
      (outcome.exitCode = 0 ↔ ∀ file ∈ files, task.isWritten file = true) ∧
      ((∃ file ∈ files, task.isFatal file = true) → outcome.exitCode = 101) ∧
      (outcome.IsDrawn machine.draws → outcome.exitCode = 101 →
        ∃ file ∈ files, task.isFatal file = true) := by
  obtain ⟨code, -, isZero, aborts⟩ := exitCode_run worksOn json
  rw [tell.isOk, List.all_eq_true] at isZero
  rw [tell.isFatal, List.any_eq_true] at aborts
  refine ⟨fun drawn => code (.inr drawn), isZero, aborts, fun drawn isAbort => ?_⟩
  rwa [code (.inr drawn), exitCodeOf_eq_abort_iff, tell.isFatal, List.any_eq_true] at isAbort

/-- A build leaves what its workers leave. -/
theorem machine_build (loads : settings.Loads machine config)
    (found : ((discover config settings.cwd :
      ExceptT Error (StateM Machine) (List Path)).run machine).1 = .ok files) (json : Bool) :
    ((Action.build none outDir).runLeave settings json machine).2 =
      ((compileTogether config.runtime.names settings.cwd (settings.outputFolder outDir config)
        machine.schedule files : StateM Machine (List FileResult)) machine).2 := by
  obtain ⟨closing, run⟩ := run_runBuild loads none outDir found
  exact congrArg Prod.snd (run json)

/-- The two commands, if the sources and their code are kept apart. -/
theorem buildAgrees_of_spread (loads : settings.Loads machine config)
    (found : ((discover config settings.cwd :
      ExceptT Error (StateM Machine) (List Path)).run machine).1 = .ok files)
    (spread : Spread machine.disk machine.processId settings.cwd
      (settings.outputFolder outDir config) files base)
    (distinct : files.Nodup) (areFiles : standardInput ∉ inputs)
    (same : (inputs.map settings.resolve).Perm files) (json json' : Bool) :
    BuildAgrees config.runtime.names settings.cwd (settings.outputFolder outDir config) files
      (inputs.map settings.resolve) machine
      ((Action.build none outDir).runLeave settings json machine)
      ((Action.compile inputs outDir false).runLeave settings json' machine) := by
  let task : Task :=
    ⟨config.runtime.names, settings.cwd, settings.outputFolder outDir config, machine, files⟩
  have namedOnce : (inputs.map settings.resolve).Nodup := same.nodup_iff.mpr distinct
  have buildTells := @tell_together task _ spread distinct machine.schedule
  have compileTells : task.Tell (inputs.map settings.resolve) _ :=
    (@tell_inTurn task _ _ spread namedOnce same.subset).congr
      (inTurn_compileInput areFiles machine)
  obtain ⟨buildCode, buildZero, buildAborts, buildCalm⟩ :=
    @exitCode_of_tell _ _ _ _ task _ _ (.build loads none outDir found) buildTells json
  obtain ⟨compileCode, compileZero, compileAborts, -⟩ :=
    exitCode_of_tell (.compile loads inputs outDir false) compileTells json'
  have stopped : ((Action.compile inputs outDir false).runLeave settings json' machine).2 =
      ((compileEach config.runtime.names settings.cwd (settings.outputFolder outDir config)
        ((inputs.map settings.resolve).takeWhile fun file =>
          !isFatalSource config.runtime.names machine.disk file) :
        StateM Machine (List FileResult)) machine).2 := by
    have run := congrArg Prod.snd (run_compile loads json' inputs outDir false)
    exact run.trans (task.underway_nil.machine_rowsOf spread (List.nil_subset _) rfl namedOnce
      same.subset (by simp) areFiles)
  have built : ((Action.build none outDir).runLeave settings json machine).2.disk.SameTree
      ((compileEach config.runtime.names settings.cwd (settings.outputFolder outDir config)
        (task.reachedBy machine.schedule) : StateM Machine (List FileResult)) machine).2.disk := by
    rw [machine_build loads found json]
    exact @Task.sameTree_compileTogether task _ spread distinct machine.schedule _ _
      (Prod.eta _).symm
  have inOrder (calm : ∀ file ∈ files, task.isFatal file = false) {other : List Path}
      (isOrder : other.Perm files) :
      ((Action.build none outDir).runLeave settings json machine).2.disk.SameTree
        ((compileEach config.runtime.names settings.cwd (settings.outputFolder outDir config)
          other : StateM Machine (List FileResult)) machine).2.disk := by
    intro location
    rw [built location, task.reachedBy_of_calm calm machine.schedule]
    exact @sameTree_compileEach task _ _ spread distinct _ (.refl _) isOrder location
  constructor
  case exitCode =>
    intro drawn drawn'
    rw [compileCode drawn', buildCode drawn]
    exact buildTells.exitCodeOf_eq compileTells same
  case success =>
    refine ⟨compileZero.trans (Iff.trans ?_ buildZero.symm), buildZero⟩
    simp only [same.mem_iff]
    rfl
  case fatal =>
    rintro ⟨file, member, isFatal⟩
    exact ⟨buildAborts ⟨file, member, isFatal⟩,
      compileAborts ⟨file, same.mem_iff.mpr member, isFatal⟩⟩
  case calm => exact buildCalm
  case stopped => exact stopped
  case built => exact built
  case anyOrder => exact inOrder
  case sameTree =>
    intro calm location
    have all : ((inputs.map settings.resolve).takeWhile fun file =>
        !isFatalSource config.runtime.names machine.disk file) = inputs.map settings.resolve := by
      rw [List.takeWhile_eq_self_iff]
      intro file member
      simp [calm file (same.subset member)]
    rw [stopped, all, inOrder calm same location]

end Commands

theorem buildAgrees_run {settings : Settings} {machine : Machine} {config : ProjectConfig}
    {files inputs : List Path} {outDir : Option Path} (wellFormed : machine.disk.IsWellFormed)
    (loads : settings.Loads machine config) (notSource : outputExtension ∉ config.extensions)
    (notTemporary : Text.ofNat machine.processId ∉ config.extensions)
    (found : ((discover config settings.cwd :
      ExceptT Error (StateM Machine) (List Path)).run machine).1 = .ok files)
    (apart : files.Pairwise fun first second => ∀ output output',
      outputPath first settings.cwd (settings.outputFolder outDir config) = .ok output →
      outputPath second settings.cwd (settings.outputFolder outDir config) = .ok output' →
        output.Apart output')
    (same : (inputs.map settings.resolve).Perm files) (json json' : Bool) :
    BuildAgrees config.runtime.names settings.cwd (settings.outputFolder outDir config) files
      (inputs.map settings.resolve) machine
      ((Action.build none outDir).runLeave settings json machine)
      ((Action.compile inputs outDir false).runLeave settings json' machine) := by
  have isFound : (discover config settings.cwd :
      ExceptT Error (StateM Machine) (List Path)).run machine = (.ok files, machine) :=
    Prod.ext found (by rw [run_discover])
  obtain ⟨-, ⟨entry, isEntry⟩, -, distinct, -, members⟩ := of_discover_eq_ok wellFormed isFound
  have standing := Settings.standing_outputFolder wellFormed (Disk.find_eq_ok_iff.mp isEntry).1
    outDir config
  obtain ⟨base, spread⟩ :=
    spread_of_discover wellFormed standing notSource notTemporary isFound apart
  have areFiles : standardInput ∉ inputs :=
    standardInput_notMem (fun file member => ((members file).mp member).1)
      fun input member => same.subset (List.mem_map_of_mem member)
  exact buildAgrees_of_spread loads found spread distinct areFiles same json json'

/-- **To build is to compile what is found.**  Command lines for both, in the same folder and
    with the same configuration and output folder, end with the same exit code if the second one
    names the sources that the first one finds and all reports can be drawn.  Unless a fatal
    error occurs, they leave the same tree, whatever the schedule. -/
theorem build_agrees_with_compile {environment : Option Text} {folder : Path} {machine : Machine}
    {words words' : List Text} {build compile : Invocation} {inputs files : List Path}
    {outDir : Option Path} {config : ProjectConfig} (wellFormed : machine.disk.IsWellFormed)
    (isBuild : Arguments.parse environment words = .ok build)
    (builds : build.action = .build none outDir)
    (isCompile : Arguments.parse environment words' = .ok compile)
    (compiles : compile.action = .compile inputs outDir false)
    (sameFolder : compile.cwd = build.cwd) (sameConfig : compile.config = build.config)
    (loads : (build.settings folder).Loads machine config)
    (notSource : outputExtension ∉ config.extensions)
    (notTemporary : Text.ofNat machine.processId ∉ config.extensions)
    (found : ((discover config (build.settings folder).cwd :
      ExceptT Error (StateM Machine) (List Path)).run machine).1 = .ok files)
    (apart : files.Pairwise fun first second => ∀ output output',
      outputPath first (build.settings folder).cwd
        ((build.settings folder).outputFolder outDir config) = .ok output →
      outputPath second (build.settings folder).cwd
        ((build.settings folder).outputFolder outDir config) = .ok output' → output.Apart output')
    (same : (inputs.map (build.settings folder).resolve).Perm files) :
    BuildAgrees config.runtime.names (build.settings folder).cwd
      ((build.settings folder).outputFolder outDir config) files
      (inputs.map (build.settings folder).resolve) machine
      ((runProgram environment folder words : StateM Machine Outcome) machine)
      ((runProgram environment folder words' : StateM Machine Outcome) machine) := by
  have first : (runProgram environment folder words : StateM Machine Outcome) =
      (Action.build none outDir).runLeave (build.settings folder) build.json := by
    rw [runProgram, isBuild, ← builds]
    exact build.run_eq folder
  have second : (runProgram environment folder words' : StateM Machine Outcome) =
      (Action.compile inputs outDir false).runLeave (build.settings folder) compile.json := by
    rw [runProgram, isCompile, ← compiles]
    refine (compile.run_eq folder).trans (Action.runLeave_congr _ ?_ sameConfig _)
    simp only [Invocation.settings, sameFolder]
  rw [first, second]
  exact buildAgrees_run wellFormed loads notSource notTemporary found apart same _ _

/-- A project with two sources.  The first cannot be parsed, and the place of the error can be
    too far to the right to be shown. -/
def farProject (n : Nat) : Machine where
  disk := {
    root := .folder [
      ("a.moon", .file (Utf8.encode ('(' :: Text.blanks n))),
      ("b.moon", .file (Utf8.encode "#x#"))]
    workingFolder := [] }
  input := []
  processId := 7

theorem discover_farProject (n : Nat) :
    (discover {} "/" : ExceptT Error (StateM Machine) (List Path)).run (farProject n) =
      (.ok ["/a.moon", "/b.moon"], farProject n) := by
  have tree : (farProject n).disk.find "/" = .ok (farProject n).disk.root := rfl
  have search : filesAt ({} : ProjectConfig).matchesExtension "/" (.folder [("a.moon", .file),
      ("b.moon", .file)]) = .ok ["/a.moon", "/b.moon"] := rfl
  have sorted : (["/a.moon", "/b.moon"] : List Path).Pairwise
      fun a b => Path.atMost a b = true := by decide +kernel
  rw [run_discover, tree]
  simp only [sourcesAt, farProject, Entry.shape, Entry.shapes, search]
  rw [List.mergeSort_of_pairwise sorted]

theorem codeOf_first {n : Nat} (far : Excerpt.lastColumn ≤ n + 1) :
    codeOf {} (farProject n).disk "/a.moon" =
      .error (.unshowable "/a.moon" ⟨.word [')'], n + 1⟩) := by
  have read : (farProject n).disk.readFile "/a.moon" =
      .ok (Utf8.encode ('(' :: Text.blanks n)) := rfl
  rw [codeOf, read]
  simp only [Except.mapError, bind, Except.bind, Utf8.decodeLossy_encode]
  rw [compileSource, compile_open_paren {} far]
  rfl

theorem codeOf_second (n : Nat) : codeOf {} (farProject n).disk "/b.moon" = .ok "/*x*/" := by
  have read : (farProject n).disk.readFile "/b.moon" = .ok (Utf8.encode "#x#") := rfl
  have compiled : compileSource {} "/b.moon" "#x#" = .ok "/*x*/" := by rfl
  refine codeOf_eq_ok_iff.mpr ⟨_, read, ?_⟩
  rw [Utf8.decodeLossy_encode, compiled]

/-- The second source is compiled to its code. -/
theorem compileEach_second :
    ((compileEach {} "/" none ["/b.moon"] : StateM Machine (List FileResult))
      (farProject 65534)).2.disk.content? ["b.js"] = some (.file (Utf8.encode "/*x*/")) := by
  have delivery : deliveryOf {} "/" none (farProject 65534).disk "/b.moon" =
      .ok ("/b.js", "/*x*/") := deliveryOf_eq_ok_iff.mpr ⟨rfl, codeOf_second 65534⟩
  have written : ((writeOutput "/b.js" "/*x*/" : ExceptT Error (StateM Machine) Unit).run
      (farProject 65534)).2.disk.content? ["b.js"] = some (.file (Utf8.encode "/*x*/")) := by
    decide +kernel
  rw [run_compileEach_cons, run_compileOne, delivery]
  exact written

theorem apart_farProject : (["/a.moon", "/b.moon"] : List Path).Pairwise fun first second =>
    ∀ output output', outputPath first "/" none = .ok output →
      outputPath second "/" none = .ok output' → output.Apart output' := by
  have first : outputPath "/a.moon" "/" none = .ok "/a.js" := rfl
  have second : outputPath "/b.moon" "/" none = .ok "/b.js" := rfl
  rw [List.pairwise_pair]
  intro output output' isOutput isOutput'
  cases first.symm.trans isOutput
  cases second.symm.trans isOutput'
  decide +kernel

theorem isWellFormed_farProject (n : Nat) : (farProject n).disk.IsWellFormed := ⟨rfl, rfl⟩

theorem loads_farProject (n : Nat) : Settings.Loads ⟨"/", false, 0, none⟩ (farProject n) {} := rfl

/-- **Code that is missing.**  Here the first of two sources ends with a fatal error.  The build
    has the code of the second one, and the other command has not. -/
theorem build_agrees_with_compile_far :
    let build := (runProgram none "/" ["build".toList] : StateM Machine Outcome)
      (farProject 65534)
    let compile := (runProgram none "/" ["compile".toList, "a.moon".toList, "b.moon".toList] :
      StateM Machine Outcome) (farProject 65534)
    BuildAgrees {} "/" none ["/a.moon", "/b.moon"] ["/a.moon", "/b.moon"] (farProject 65534)
        build compile ∧
      build.1.exitCode = 101 ∧ compile.1.exitCode = 101 ∧
      build.2.disk.content? ["b.js"] = some (.file (Utf8.encode "/*x*/")) ∧
      compile.2.disk.content? ["b.js"] = none := by
  intro build compile
  have far : Excerpt.lastColumn ≤ 65534 + 1 := by decide
  have isFatal : isFatalSource {} (farProject 65534).disk "/a.moon" = true := by
    rw [isFatalSource, codeOf_first far]
    rfl
  have isBuild : Arguments.parse none ["build".toList] =
      .ok ⟨0, false, none, none, .build none none⟩ := by rfl
  have isCompile : Arguments.parse none ["compile".toList, "a.moon".toList, "b.moon".toList] =
      .ok ⟨0, false, none, none, .compile ["a.moon", "b.moon"] none false⟩ := by rfl
  have agrees : BuildAgrees {} "/" none ["/a.moon", "/b.moon"] ["/a.moon", "/b.moon"]
      (farProject 65534) build compile :=
    @build_agrees_with_compile none "/" _ _ _ _ _ _ _ _ {} (isWellFormed_farProject 65534)
      isBuild rfl isCompile rfl rfl rfl (loads_farProject 65534) (by decide +kernel)
      (by decide +kernel) (congrArg Prod.fst (discover_farProject 65534)) apart_farProject
      (.refl _)
  obtain ⟨buildCode, compileCode⟩ := agrees.fatal ⟨"/a.moon", List.mem_cons_self, isFatal⟩
  refine ⟨agrees, buildCode, compileCode, ?_, ?_⟩
  · have calm : isFatalSource {} (farProject 65534).disk "/b.moon" = false := by
      rw [isFatalSource, codeOf_second]
    have dealt : Schedule.deal (farProject 65534).schedule.shares
        (["/a.moon", "/b.moon"] : List Path) = [[("/a.moon" : Path)], [("/b.moon" : Path)]] := rfl
    rw [agrees.built, dealt, List.flatMap_cons, List.flatMap_cons, List.takeWhile_cons,
      List.takeWhile_cons, isFatal, calm]
    exact compileEach_second
  · rw [agrees.stopped, List.takeWhile_cons, isFatal]
    rfl

end ViewScript
