/-
  ViewScript/Proofs/Command/OutputMode.lean
  =========================================
  **A document instead of lines.**

  The switch `--json` changes what a command prints and nothing else.  A command line with the
  switch put before it is understood as the same command, and a command does the same work
  whether it prints a document or lines.

  What the work is, is said without regard to printing: which files a command works on, and what
  comes of them, one after the other or side by side.  The exit code and the document are
  compared with that.

  There is one proviso.  With lines, reports are drawn, and if a notice cannot be drawn the
  program breaks off.  Then it has done the same work, but the exit code is that of a program
  that broke off.  And if code collides, what workers come to depends on how they take turns; the
  two runs that are compared have the same schedule.
-/
import ViewScript.Proofs.Command.Agreement
import ViewScript.Proofs.Project.Repetition

namespace ViewScript

/-! ### The switch on the command line -/

namespace Arguments

/-- What is given at a place, with the switch for documents. -/
def Given.withJson (given : Given) : Given := { given with json := true }

section Notes

variable {given after : Given}

theorem exists_of_bind_eq_ok {α β : Type} {first : Except Stop α} {next : α → Except Stop β}
    {result : β} (done : (first >>= next) = .ok result) :
    ∃ value, first = .ok value ∧ next value = .ok result := by
  cases first with
  | error stop => cases done
  | ok value => exact ⟨value, rfl, done⟩

theorem addSetting_withJson {option : OptionName} {value : Text}
    (added : given.addSetting option value = .ok after) :
    after.json = given.json ∧ given.withJson.addSetting option value = .ok after.withJson := by
  cases option with
  | cwd | config | outDir =>
    obtain ⟨path, set, isAfter⟩ := exists_of_bind_eq_ok added
    obtain rfl := Except.ok.inj isAfter
    refine ⟨rfl, ?_⟩
    simp only [Given.addSetting, Given.withJson, set]
    rfl
  | _ => cases added

theorem addWord_withJson {limit : Option Nat} {word : Text}
    (added : given.addWord limit word = .ok after) :
    after.json = given.json ∧ given.withJson.addWord limit word = .ok after.withJson := by
  grind [Given.addWord, Given.withJson]

theorem addWords_withJson {limit : Option Nat} {words : List Text}
    (added : given.addWords limit words = .ok after) :
    after.json = given.json ∧ given.withJson.addWords limit words = .ok after.withJson := by
  induction words generalizing given with
  | nil =>
    obtain rfl := Except.ok.inj added
    exact ⟨rfl, rfl⟩
  | cons word words ih =>
    obtain ⟨between, first, rest⟩ := exists_of_bind_eq_ok added
    obtain ⟨same, first⟩ := addWord_withJson first
    obtain ⟨same', rest⟩ := ih rest
    refine ⟨same'.trans same, ?_⟩
    rw [Given.addWords, first]
    exact rest

theorem addSwitch_withJson {option : OptionName} (added : given.addSwitch option = .ok after)
    (plain : after.json = false) :
    given.json = false ∧ given.withJson.addSwitch option = .ok after.withJson := by
  cases option <;> grind [Given.addSwitch, Given.withJson]

theorem addPieces_withJson {pieces : List Piece} {wanting : Option OptionName}
    (added : given.addPieces pieces = .ok (after, wanting)) (plain : after.json = false) :
    given.json = false ∧ given.withJson.addPieces pieces = .ok (after.withJson, wanting) := by
  induction pieces generalizing given with
  | nil =>
    obtain ⟨rfl, rfl⟩ := Prod.mk.inj (Except.ok.inj added)
    exact ⟨plain, rfl⟩
  | cons piece pieces ih =>
    cases piece with
    | switch option =>
      obtain ⟨between, first, rest⟩ := exists_of_bind_eq_ok added
      obtain ⟨betweenPlain, rest⟩ := ih rest
      obtain ⟨givenPlain, first⟩ := addSwitch_withJson first betweenPlain
      refine ⟨givenPlain, ?_⟩
      rw [Given.addPieces, first]
      exact rest
    | setting option value =>
      obtain ⟨between, first, rest⟩ := exists_of_bind_eq_ok added
      obtain ⟨betweenPlain, rest⟩ := ih rest
      obtain ⟨same, first⟩ := addSetting_withJson first
      refine ⟨same ▸ betweenPlain, ?_⟩
      rw [Given.addPieces, first]
      exact rest
    | wanting option =>
      obtain ⟨rfl, rfl⟩ := Prod.mk.inj (Except.ok.inj added)
      exact ⟨plain, rfl⟩
    | unknown => cases added

/-- Words that are read without the switch are read in the same way after it. -/
theorem scan_withJson {options : List OptionName} {first : Bool} {limit : Option Nat}
    {words : List Text} {rest : Option (Text × List Text)}
    (scanned : scan options first limit given words = .ok (after, rest))
    (plain : after.json = false) :
    given.json = false ∧
      scan options first limit given.withJson words = .ok (after.withJson, rest) := by
  fun_induction scan options first limit given words with
  | case1 given =>
    obtain ⟨rfl, rfl⟩ := Prod.mk.inj (Except.ok.inj scanned)
    exact ⟨plain, rfl⟩
  | case2 given words =>
    cases added : given.addWords limit words with
    | error stop => simp [added, Except.map] at scanned
    | ok between =>
      simp only [added, Except.map, Except.ok.injEq, Prod.mk.injEq] at scanned
      obtain ⟨rfl, rfl⟩ := scanned
      obtain ⟨same, added⟩ := addWords_withJson added
      exact ⟨same ▸ plain, by simp [scan, added, Except.map]⟩
  | case4 given word words notDashes isOption between added ih =>
    obtain ⟨betweenPlain, rest⟩ := ih scanned
    obtain ⟨givenPlain, added⟩ := addPieces_withJson added betweenPlain
    exact ⟨givenPlain, by simp [scan, notDashes, isOption, added, rest]⟩
  | case8 given word notDashes isOption wanted option added value words isValue between set ih =>
    obtain ⟨betweenPlain, rest⟩ := ih scanned
    obtain ⟨same, set⟩ := addSetting_withJson set
    obtain ⟨givenPlain, added⟩ := addPieces_withJson added (same ▸ betweenPlain)
    exact ⟨givenPlain, by simp [scan, notDashes, isOption, added, isValue, set, rest]⟩
  | case9 given word words notDashes isWord isFirst =>
    obtain ⟨rfl, rfl⟩ := Prod.mk.inj (Except.ok.inj scanned)
    exact ⟨plain, by simp [scan, notDashes, isWord, isFirst]⟩
  | case11 given word words notDashes isWord notFirst between added ih =>
    obtain ⟨betweenPlain, rest⟩ := ih scanned
    obtain ⟨same, added⟩ := addWord_withJson added
    refine ⟨same ▸ betweenPlain, ?_⟩
    rw [scan, if_neg notDashes, if_neg isWord, if_neg notFirst, added]
    exact rest
  | _ => cases scanned

end Notes

/-- With the switch before it a command line asks for the same, and for a document. -/
theorem parse_json_cons {environment : Option Text} {words : List Text} {invocation : Invocation}
    (understood : parse environment words = .ok invocation) (plain : invocation.json = false) :
    parse environment ("--json".toList :: words) = .ok { invocation with json := true } := by
  obtain ⟨⟨leading, command⟩, scanned, rest⟩ := exists_of_bind_eq_ok understood
  have shift : scan leadingOptions true (some 0) {} ("--json".toList :: words) =
      scan leadingOptions true (some 0) ({} : Given).withJson words := rfl
  rcases command with _ | ⟨name, words⟩
  · obtain ⟨config, named, isInvocation⟩ := exists_of_bind_eq_ok rest
    obtain rfl := Except.ok.inj isInvocation
    obtain ⟨-, scanned⟩ := scan_withJson scanned plain
    have named : configAt environment leading.withJson = .ok config := named
    simp only [parse, shift, scanned, bind, Except.bind, named]
    rfl
  · dsimp only at rest
    cases known : CommandName.ofText? name with
    | none => simp [known] at rest
    | some command =>
      simp only [known] at rest
      obtain ⟨⟨given, _⟩, scannedGiven, rest⟩ := exists_of_bind_eq_ok rest
      obtain ⟨action, acts, rest⟩ := exists_of_bind_eq_ok rest
      obtain ⟨config, named, rest⟩ := exists_of_bind_eq_ok rest
      obtain ⟨leadingConfig, leadingNamed, isInvocation⟩ := exists_of_bind_eq_ok rest
      obtain rfl := Except.ok.inj isInvocation
      obtain ⟨-, scanned⟩ := scan_withJson scanned (Bool.or_eq_false_iff.mp plain).2
      have leadingNamed : configAt environment leading.withJson = .ok leadingConfig := leadingNamed
      simp only [parse, shift, scanned, known, scannedGiven, acts, named, leadingNamed, bind,
        Except.bind]
      simp [Given.withJson, pure, Except.pure]

end Arguments

/-! ### What a command works on -/

/-- The settings of a command in a folder. -/
def Invocation.settings (invocation : Invocation) (folder : Path) : Settings where
  cwd := invocation.cwd.getD folder
  jsonLogs := invocation.json
  verbosity := invocation.verbosity
  configPath := invocation.config

/-- Run a command with its settings, and leave the program. -/
def Action.runLeave (action : Action) (settings : Settings) (json : Bool) :
    StateM Machine Outcome :=
  action.run settings json >>= Shown.leave

theorem Invocation.run_eq (invocation : Invocation) (folder : Path) :
    (invocation.run folder : StateM Machine Outcome) =
      invocation.action.runLeave (invocation.settings folder) invocation.json := rfl

/-- Of the settings only the two paths matter. -/
theorem Action.runLeave_congr (action : Action) {settings settings' : Settings}
    (cwd : settings.cwd = settings'.cwd) (configPath : settings.configPath = settings'.configPath)
    (json : Bool) : action.runLeave settings json = action.runLeave settings' json := by
  obtain ⟨folder, logs, verbosity, config⟩ := settings
  obtain ⟨folder', logs', verbosity', config'⟩ := settings'
  obtain rfl : folder = folder' := cwd
  obtain rfl : config = config' := configPath
  cases action <;> rfl

/-- The configuration that a command loads. -/
def Settings.Loads (settings : Settings) (machine : Machine) (config : ProjectConfig) : Prop :=
  ((settings.loadProject : ExceptT Error (StateM Machine) ProjectConfig).run machine).1 = .ok config

/-- The folder that is built. -/
def Settings.rootFolder (settings : Settings) (root : Option Path) : Path :=
  (root.map settings.resolve).getD settings.cwd

/-- What comes of files one after the other, each with what those before it left. -/
def inTurn (work : Path → ExceptT Error (StateM Machine) Yield) :
    List Path → StateM Machine (List Row)
  | [], machine => ([], machine)
  | file :: files, machine =>
    let first := (work file).run machine
    let rest := inTurn work files first.2
    (⟨file, first.1⟩ :: rest.1, rest.2)

/-- What comes of files that are built side by side. -/
def together (names : RuntimeNames) (root : Path) (outDir : Option Path) (schedule : Schedule)
    (files : List Path) : StateM Machine (List Row) :=
  List.map FileResult.row <$> compileTogether names root outDir schedule files

/-- The files that a command works on, in their order, and the work.  If the configuration does
    not load, or the search for files fails, there are none. -/
inductive Action.WorksOn (settings : Settings) (machine : Machine) :
    Action → List Path → StateM Machine (List Row) → Prop
  | check (inputs : List Path) :
    WorksOn settings machine (.check inputs) inputs (inTurn (checkInput settings) inputs)
  | compile {config : ProjectConfig} (loads : settings.Loads machine config)
      (inputs : List Path) (outDir : Option Path) (toStdout : Bool) :
    WorksOn settings machine (.compile inputs outDir toStdout) inputs
      (inTurn (compileInput settings config.runtime.names (settings.outputFolder outDir config)
        toStdout) inputs)
  | build {config : ProjectConfig} {files : List Path} (loads : settings.Loads machine config)
      (root outDir : Option Path)
      (found : ((discover config (settings.rootFolder root) :
        ExceptT Error (StateM Machine) (List Path)).run machine).1 = .ok files) :
    WorksOn settings machine (.build root outDir) files
      (together config.runtime.names (settings.rootFolder root)
        (settings.outputFolder outDir config) machine.schedule files)

/-- There is one way to go on. -/
theorem Action.WorksOn.unique {settings : Settings} {machine : Machine} {action : Action}
    {files files' : List Path} {work work' : StateM Machine (List Row)}
    (worksOn : action.WorksOn settings machine files work)
    (worksOn' : action.WorksOn settings machine files' work') : files = files' ∧ work = work' := by
  cases worksOn with
  | check inputs =>
    cases worksOn'
    exact ⟨rfl, rfl⟩
  | compile loads inputs outDir toStdout =>
    cases worksOn' with
    | compile loads' =>
      obtain rfl := Except.ok.inj (loads.symm.trans loads')
      exact ⟨rfl, rfl⟩
  | build loads root outDir found =>
    cases worksOn' with
    | build loads' _ _ found' =>
      obtain rfl := Except.ok.inj (loads.symm.trans loads')
      obtain rfl := Except.ok.inj (found.symm.trans found')
      exact ⟨rfl, rfl⟩

section InTurn

variable (work : Path → ExceptT Error (StateM Machine) Yield) (files : List Path)
  (machine : Machine)

/-- Every file has a row. -/
theorem input_inTurn : (inTurn work files machine).1.map Row.input = files := by
  induction files generalizing machine with
  | nil => rfl
  | cons file files ih => rw [inTurn, List.map_cons, ih]

/-- A loop that ends at fatal errors comes to one if there is one. -/
theorem any_isFatal_rowsOf :
    ((rowsOf work files : StateM Machine (List Row)) machine).1.any Row.isFatal =
      (inTurn work files machine).1.any Row.isFatal := by
  induction files generalizing machine with
  | nil => rfl
  | cons file files ih =>
    rw [run_rowsOf_cons, inTurn]
    dsimp only
    split
    · next fatal => simp [fatal]
    · rw [List.any_cons, List.any_cons, ih]

/-- Without one it goes through all files. -/
theorem rowsOf_eq_inTurn (calm : (inTurn work files machine).1.any Row.isFatal = false) :
    (rowsOf work files : StateM Machine (List Row)) machine = inTurn work files machine := by
  induction files generalizing machine with
  | nil => rfl
  | cons file files ih =>
    rw [inTurn, List.any_cons, Bool.or_eq_false_iff] at calm
    simp only [run_rowsOf_cons, calm.1, ih _ calm.2, inTurn, Bool.false_eq_true, if_false]

end InTurn

theorem together_eq (names : RuntimeNames) (root : Path) (outDir : Option Path)
    (schedule : Schedule) (files : List Path) (machine : Machine) :
    together names root outDir schedule files machine =
      let run := (compileTogether names root outDir schedule files :
        StateM Machine (List FileResult)) machine
      (run.1.map FileResult.row, run.2) := rfl

/-- Without a fatal error every file has a row. -/
theorem Action.WorksOn.input_eq {settings : Settings} {machine : Machine} {action : Action}
    {files : List Path} {work : StateM Machine (List Row)}
    (worksOn : action.WorksOn settings machine files work)
    (calm : (work machine).1.any Row.isFatal = false) :
    (work machine).1.map Row.input = files := by
  cases worksOn with
  | check inputs => exact input_inTurn _ _ _
  | compile loads inputs outDir toStdout => exact input_inTurn _ _ _
  | @build config _ loads root outDir found =>
    rw [together_eq] at calm ⊢
    rw [any_isFatal_row, Option.isSome_eq_false_iff, Option.isNone_iff_eq_none] at calm
    rw [List.map_map]
    exact inputs_compileTogether _ _ _ rfl calm

/-! ### What a command shows -/

/-- The name of a command. -/
def Action.name : Action → Text
  | .version => "version"
  | .compile _ _ _ => "compile"
  | .check _ => "check"
  | .build _ _ => "build"

section Shows

variable {settings : Settings} {machine : Machine} {action : Action} {files : List Path}
  {work : StateM Machine (List Row)}

theorem run_loadProject {result : Except Error ProjectConfig}
    (loads : ((settings.loadProject : ExceptT Error (StateM Machine) ProjectConfig).run
      machine).1 = result) :
    (settings.loadProject : ExceptT Error (StateM Machine) ProjectConfig).run machine =
      (result, machine) :=
  Prod.ext loads (machine_run_loadProject settings machine)

/-- A build, once the configuration is loaded. -/
theorem runLeave_build {config : ProjectConfig} (loads : settings.Loads machine config)
    (root outDir : Option Path) (json : Bool) :
    (Action.build root outDir).runLeave settings json machine =
      match (build config (settings.rootFolder root) (settings.outputFolder outDir config)
        machine.schedule : ExceptT Error (StateM Machine) BuildReport).run machine with
      | (.error error, after) => ((Shown.ofError error).leave : StateM Machine Outcome) after
      | (.ok report, after) =>
        (report.present json >>= Shown.leave : StateM Machine Outcome) after := by
  have scheduled : (Host.schedule : StateM Machine Schedule) machine =
      (machine.schedule, machine) := rfl
  rw [Action.runLeave, Action.run, run_andThen, runBuild, run_andThen, run_loadProject loads]
  dsimp only
  rw [run_andThen, scheduled, run_andThen]
  dsimp only
  rw [← Settings.rootFolder]
  generalize (build config (settings.rootFolder root) (settings.outputFolder outDir config)
    machine.schedule : ExceptT Error (StateM Machine) BuildReport).run machine = built
  obtain ⟨result, after⟩ := built
  cases result <;> rfl

/-- A build shows what comes of its files, unless there is a fatal error among it. -/
theorem run_runBuild {config : ProjectConfig} (loads : settings.Loads machine config)
    (root outDir : Option Path)
    (found : ((discover config (settings.rootFolder root) :
      ExceptT Error (StateM Machine) (List Path)).run machine).1 = .ok files) :
    ∃ closing, ∀ json, (Action.build root outDir).runLeave settings json machine =
      let rows := together config.runtime.names (settings.rootFolder root)
        (settings.outputFolder outDir config) machine.schedule files machine
      (if rows.1.any Row.isFatal then ⟨101, [], []⟩
        else .inMode json machine.draws "build" closing rows.1, rows.2) := by
  have found : (discover config (settings.rootFolder root) :
      ExceptT Error (StateM Machine) (List Path)).run machine = (.ok files, machine) :=
    Prod.ext found (by rw [run_discover])
  have built := run_build config (settings.rootFolder root) (settings.outputFolder outDir config)
    machine machine.schedule
  have sameDraws : ((compileTogether config.runtime.names (settings.rootFolder root)
      (settings.outputFolder outDir config) machine.schedule files :
        StateM Machine (List FileResult)) machine).2.draws = machine.draws :=
    Dialogue.draws_sideBySide _ _ machine
  rw [found] at built
  dsimp only at built ⊢
  obtain ⟨results, after, isRun⟩ : ∃ results after, (compileTogether config.runtime.names
      (settings.rootFolder root) (settings.outputFolder outDir config) machine.schedule files :
        StateM Machine (List FileResult)) machine = (results, after) := ⟨_, _, rfl⟩
  rw [isRun] at built sameDraws
  dsimp only at built sameDraws
  rw [together_eq, isRun]
  refine ⟨BuildReport.closing ⟨settings.rootFolder root, results⟩, fun json => ?_⟩
  rw [runLeave_build loads, built, ← sameDraws]
  dsimp only
  cases fatal : results.findSome? FileResult.fatal? with
  | some error =>
    rw [any_isFatal_row, fatal]
    dsimp only
    rw [run_leave_ofError, isFatal_of_findSome? fatal]
    rfl
  | none =>
    have calm : (results.map FileResult.row).any Row.isFatal = false := by
      rw [any_isFatal_row, fatal]
      rfl
    rw [calm]
    exact run_present_leave calm json after

/-- A command without a fatal error shows what comes of its files. -/
theorem run_of_calm (worksOn : action.WorksOn settings machine files work)
    (calm : (work machine).1.any Row.isFatal = false) :
    ∃ closing, ∀ json, action.runLeave settings json machine =
      (.inMode json machine.draws action.name closing (work machine).1, (work machine).2) := by
  cases worksOn with
  | check inputs =>
    refine ⟨[], fun json => ?_⟩
    rw [← rowsOf_eq_inTurn _ _ _ calm]
    exact run_check json files
  | compile loads inputs outDir toStdout =>
    refine ⟨[], fun json => ?_⟩
    rw [← rowsOf_eq_inTurn _ _ _ calm]
    exact run_compile loads json files outDir toStdout
  | build loads root outDir found =>
    obtain ⟨closing, run⟩ := run_runBuild loads root outDir found
    refine ⟨closing, fun json => ?_⟩
    rw [run]
    dsimp only
    rw [calm]
    rfl

/-- A command with a fatal error ends with it, and prints no document. -/
theorem run_of_fatal (worksOn : action.WorksOn settings machine files work)
    (fatal : (work machine).1.any Row.isFatal = true) :
    ∃ after, ∀ json, ∃ outcome : Outcome, action.runLeave settings json machine = (outcome, after) ∧
      outcome.exitCode = 101 ∧ (json = true → outcome.stdout = []) := by
  have ended (rows : List Row) (fatal : rows.any Row.isFatal = true) (json : Bool)
      (command closing : Text) :
      let outcome := Outcome.inMode json machine.draws command closing rows
      outcome.exitCode = 101 ∧ (json = true → outcome.stdout = []) := by
    cases json <;> simp [Outcome.inMode, Outcome.documented, Outcome.listed, exitCodeOf, fatal]
  cases worksOn with
  | check inputs =>
    refine ⟨_, fun json => ⟨_, run_check json files, ?_⟩⟩
    exact ended _ ((any_isFatal_rowsOf _ _ _).trans fatal) json _ _
  | compile loads inputs outDir toStdout =>
    refine ⟨_, fun json => ⟨_, run_compile loads json files outDir toStdout, ?_⟩⟩
    exact ended _ ((any_isFatal_rowsOf _ _ _).trans fatal) json _ _
  | build loads root outDir found =>
    obtain ⟨closing, run⟩ := run_runBuild loads root outDir found
    dsimp only at run
    simp only [fatal, if_true] at run
    exact ⟨_, fun json => ⟨_, run json, rfl, fun _ => rfl⟩⟩

/-- The exit code is told by what comes of the files, as far as the notices can be drawn. -/
theorem exitCode_run (worksOn : action.WorksOn settings machine files work) (json : Bool) :
    let outcome := (action.runLeave settings json machine).1
    (json = true ∨ outcome.IsDrawn machine.draws →
        outcome.exitCode = exitCodeOf (work machine).1) ∧
      (¬ outcome.IsDrawn machine.draws → outcome.exitCode = 101) ∧
      (outcome.exitCode = 0 ↔ (work machine).1.all Row.isOk = true) ∧
      ((work machine).1.any Row.isFatal = true → outcome.exitCode = 101) := by
  dsimp only
  cases fatal : (work machine).1.any Row.isFatal with
  | true =>
    obtain ⟨after, run⟩ := run_of_fatal worksOn fatal
    obtain ⟨outcome, isRun, isCode, -⟩ := run json
    rw [isRun]
    refine ⟨fun _ => isCode.trans (exitCodeOf_eq_abort_iff.mpr fatal).symm, fun _ => isCode, ?_,
      fun _ => isCode⟩
    simp [isCode, not_all_isOk_of_any_isFatal fatal]
  | false =>
    obtain ⟨closing, run⟩ := run_of_calm worksOn fatal
    rw [run json]
    cases json with
    | true =>
      have drawn : (Outcome.inMode true machine.draws action.name closing
          (work machine).1).IsDrawn machine.draws := by
        simp [Outcome.IsDrawn, Outcome.inMode, Outcome.documented]
      exact ⟨fun _ => rfl, fun undrawn => (undrawn drawn).elim, exitCodeOf_eq_zero_iff,
        by simp⟩
    | false =>
      exact ⟨fun drawn => Outcome.exitCode_listed (drawn.resolve_left (by simp)), fun undrawn =>
        (Outcome.exitCode_listed_of_not_isDrawn undrawn).1, Outcome.exitCode_listed_eq_zero_iff,
        by simp⟩

/-- A command that comes to no file has an error instead. -/
theorem run_of_idle (idle : ∀ files work, ¬ action.WorksOn settings machine files work)
    (works : action ≠ .version) :
    ∃ error, ∀ json, action.runLeave settings json machine =
      ((Shown.ofError error).leave : StateM Machine Outcome) machine := by
  cases action with
  | version => exact absurd rfl works
  | check inputs => exact absurd (.check inputs) (idle _ _)
  | compile inputs outDir toStdout =>
    cases loads : ((settings.loadProject : ExceptT Error (StateM Machine) ProjectConfig).run
        machine).1 with
    | ok config => exact absurd (.compile loads inputs outDir toStdout) (idle _ _)
    | error error =>
      refine ⟨error, fun json => ?_⟩
      rw [Action.runLeave, Action.run, run_andThen, runCompile, run_andThen, run_loadProject loads]
      rfl
  | build root outDir =>
    cases loads : ((settings.loadProject : ExceptT Error (StateM Machine) ProjectConfig).run
        machine).1 with
    | error error =>
      refine ⟨error, fun json => ?_⟩
      rw [Action.runLeave, Action.run, run_andThen, runBuild, run_andThen, run_loadProject loads]
      rfl
    | ok config =>
      cases found : ((discover config (settings.rootFolder root) :
          ExceptT Error (StateM Machine) (List Path)).run machine).1 with
      | ok files => exact absurd (.build loads root outDir found) (idle _ _)
      | error error =>
        have found : (discover config (settings.rootFolder root) :
            ExceptT Error (StateM Machine) (List Path)).run machine = (.error error, machine) :=
          Prod.ext found (by rw [run_discover])
        have built := run_build config (settings.rootFolder root)
          (settings.outputFolder outDir config) machine machine.schedule
        rw [found] at built
        refine ⟨error, fun json => ?_⟩
        rw [runLeave_build loads, built]

end Shows

/-- A document tells the number of files, how many went well and how many did not, whether all
    went well, and what came of each file, in their order. -/
structure Json.Describes (document : Json) (files : List Path) (rows : List Row) : Prop where
  total : (document.get? "counts").bind (Json.get? "total") = some (.ofNat files.length)
  parts : ∃ succeeded failed,
    (document.get? "counts").bind (Json.get? "succeeded") = some (.ofNat succeeded) ∧
    (document.get? "counts").bind (Json.get? "failed") = some (.ofNat failed) ∧
    succeeded = rows.countP Row.isOk ∧ files.length = succeeded + failed ∧
    document.get? "ok" = some (.bool (failed = 0))
  files : ∃ items, document.get? "files" = some (.array items) ∧
    items.map (Json.get? "input") = files.map (fun file => some (.string file.text)) ∧
    items.map (Json.get? "ok") = rows.map (fun row => some (.bool row.isOk))

theorem describes_document (command : Text) (files : List Path) (rows : List Row)
    (inputs : rows.map Row.input = files) : (document command rows).Describes files rows := by
  have length : files.length = rows.length := by rw [← inputs, List.length_map]
  refine ⟨?_, ⟨rows.countP Row.isOk, rows.length - rows.countP Row.isOk, rfl, rfl, rfl, ?_, ?_⟩,
    ⟨rows.map Row.toJson, rfl, ?_, ?_⟩⟩
  · rw [length]
    rfl
  · have := List.countP_le_length (p := Row.isOk) (l := rows)
    omega
  · rfl
  · rw [← inputs, List.map_map, List.map_map]
    rfl
  · rw [List.map_map]
    rfl

/-- Two runs of a command, of which the second prints a document. -/
structure ModesAgree (settings : Settings) (action : Action) (machine : Machine)
    (plain json : Outcome × Machine) : Prop where
  /-- The exit codes are the same, if what is drawn in the first run can be drawn. -/
  exitCode : plain.1.IsDrawn machine.draws → json.1.exitCode = plain.1.exitCode
  /-- If not, the program breaks off. -/
  undrawn : ¬ plain.1.IsDrawn machine.draws → plain.1.exitCode = 101
  after : json.2 = plain.2
  /-- The exit code is zero exactly if there are files to work on and all of them go well. -/
  success : (plain.1.exitCode = 0 ↔ json.1.exitCode = 0) ∧ (json.1.exitCode = 0 ↔
    ∃ files work, action.WorksOn settings machine files work ∧
      (work machine).1.map Row.input = files ∧ ∀ row ∈ (work machine).1, row.isOk)
  /-- Unless a fatal error occurs the document describes what comes of these files. -/
  document : ∀ files work, action.WorksOn settings machine files work → json.1.exitCode ≠ 101 →
    (work machine).2 = json.2 ∧
    ∃ document : Json, json.1.stdout = document.write ++ "\n" ∧
      document.Describes files (work machine).1
  /-- In all other cases there is none. -/
  silent : (json.1.exitCode = 101 ∨ ∀ files work, ¬ action.WorksOn settings machine files work) →
    json.1.stdout = []

/-- Without files to work on both runs show the same error. -/
theorem modesAgree_of_error {settings : Settings} {action : Action} {machine : Machine}
    (idle : ∀ files work, ¬ action.WorksOn settings machine files work) (error : Error) :
    let shown : Outcome := if error.isFatal then ⟨101, [], []⟩
      else .ofNotices machine.draws [] [.report error]
    ModesAgree settings action machine (shown, machine) (shown, machine) := by
  intro shown
  have broken : ¬ shown.IsDrawn machine.draws → shown.exitCode = 101 := by
    intro undrawn
    simp only [shown] at undrawn ⊢
    split at undrawn
    next => simp [Outcome.IsDrawn] at undrawn
    next calm =>
      have undrawn := isDrawn_ofNotices_iff.not.mp undrawn
      rw [if_neg calm]
      simp [Outcome.ofNotices, undrawn]
  have failed : shown.exitCode ≠ 0 := by
    simp only [shown]
    split
    · decide
    · cases draws : machine.draws (.report error) <;> simp [Outcome.ofNotices, draws]
  constructor
  case exitCode => exact fun _ => rfl
  case undrawn => exact broken
  case after => rfl
  case success =>
    refine ⟨Iff.rfl, iff_of_false failed ?_⟩
    rintro ⟨files, work, worksOn, -⟩
    exact idle files work worksOn
  case document =>
    intro files work worksOn
    exact absurd worksOn (idle files work)
  case silent =>
    intro _
    simp only [shown]
    split <;> rfl

theorem modesAgree_run (settings : Settings) {action : Action} (works : action ≠ .version)
    (machine : Machine) :
    ModesAgree settings action machine (action.runLeave settings false machine)
      (action.runLeave settings true machine) := by
  by_cases idle : ∀ files work, ¬ action.WorksOn settings machine files work
  · obtain ⟨error, run⟩ := run_of_idle idle works
    rw [run false, run true, run_leave_ofError]
    exact modesAgree_of_error idle error
  · obtain ⟨files, work, worksOn⟩ : ∃ files work, action.WorksOn settings machine files work := by
      simpa using idle
    have success : (∃ files work, action.WorksOn settings machine files work ∧
        (work machine).1.map Row.input = files ∧ ∀ row ∈ (work machine).1, row.isOk) ↔
        (work machine).1.all Row.isOk = true := by
      rw [List.all_eq_true]
      constructor
      · rintro ⟨files', work', worksOn', -, all⟩
        obtain ⟨rfl, rfl⟩ := worksOn.unique worksOn'
        exact all
      · intro all
        refine ⟨files, work, worksOn, worksOn.input_eq ?_, all⟩
        by_contra fatal
        exact not_all_isOk_of_any_isFatal (by simpa using fatal) (List.all_eq_true.mpr all)
    obtain ⟨code, undrawn, isZero, -⟩ := exitCode_run worksOn false
    obtain ⟨code', -, isZero', abort⟩ := exitCode_run worksOn true
    constructor
    case exitCode => exact fun drawn => (code' (.inl rfl)).trans (code (.inr drawn)).symm
    case undrawn => exact undrawn
    case success =>
      rw [success]
      exact ⟨isZero.trans isZero'.symm, isZero'⟩
    case after =>
      cases fatal : (work machine).1.any Row.isFatal with
      | true =>
        obtain ⟨after, run⟩ := run_of_fatal worksOn fatal
        obtain ⟨outcome, isRun, -⟩ := run false
        obtain ⟨outcome', isRun', -⟩ := run true
        rw [isRun, isRun']
      | false =>
        obtain ⟨closing, run⟩ := run_of_calm worksOn fatal
        rw [run false, run true]
    case document =>
      intro files' work' worksOn' shown
      obtain ⟨rfl, rfl⟩ := worksOn.unique worksOn'
      have calm : (work machine).1.any Row.isFatal = false :=
        Bool.eq_false_iff.mpr fun fatal => shown (abort fatal)
      obtain ⟨closing, run⟩ := run_of_calm worksOn calm
      rw [run true]
      refine ⟨rfl, document action.name (work machine).1, ?_,
        describes_document action.name files _ (worksOn.input_eq calm)⟩
      simp [Outcome.inMode, Outcome.documented, calm]
    case silent =>
      rintro (isAbort | none)
      · rw [code' (.inl rfl), exitCodeOf_eq_abort_iff] at isAbort
        obtain ⟨after, run⟩ := run_of_fatal worksOn isAbort
        obtain ⟨outcome, isRun, -, silent⟩ := run true
        rw [isRun]
        exact silent rfl
      · exact absurd worksOn (none files work)

/-- **The switch changes no work.**  If a command line is understood and does not ask for a
    document, the same command line behind the switch is understood as well.  However it is
    asked for, the document leaves the same machine, and it comes with the same exit code as long
    as the reports of the other run can be drawn. -/
theorem modesAgree_of_parse {environment : Option Text} {folder : Path} {machine : Machine}
    {words : List Text} {invocation : Invocation}
    (understood : Arguments.parse environment words = .ok invocation)
    (plain : invocation.json = false) (works : invocation.action ≠ .version) :
    Arguments.parse environment ("--json".toList :: words) =
      .ok { invocation with json := true } ∧
    ∀ words', Arguments.parse environment words' = .ok { invocation with json := true } →
      ModesAgree (invocation.settings folder) invocation.action machine
        ((runProgram environment folder words : StateM Machine Outcome) machine)
        ((runProgram environment folder words' : StateM Machine Outcome) machine) := by
  refine ⟨Arguments.parse_json_cons understood plain, fun words' understood' => ?_⟩
  have first : (runProgram environment folder words : StateM Machine Outcome) =
      invocation.action.runLeave (invocation.settings folder) false := by
    rw [runProgram, understood, ← plain]
    exact invocation.run_eq folder
  have second : (runProgram environment folder words' : StateM Machine Outcome) =
      invocation.action.runLeave (invocation.settings folder) true := by
    rw [runProgram, understood']
    exact (Invocation.run_eq _ folder).trans (Action.runLeave_congr _ rfl rfl true)
  rw [first, second]
  exact modesAgree_run _ works machine

/-- Here the first source is no program and the second is not there, all reports can be drawn, and
    the switch stands after the name of the command. -/
theorem modesAgree_of_parse_broken :
    let words := ["compile".toList, "-o".toList, "out".toList, "a.moon".toList, "b.moon".toList]
    let words' := "compile".toList :: "--json".toList :: words.tail
    let invocation : Invocation :=
      ⟨0, false, none, none, .compile ["a.moon", "b.moon"] (some "out") false⟩
    let plain := (runProgram none "/" words : StateM Machine Outcome) brokenInputs
    let json := (runProgram none "/" words' : StateM Machine Outcome) brokenInputs
    Arguments.parse none words = .ok invocation ∧
    Arguments.parse none words' = .ok { invocation with json := true } ∧
    ModesAgree (invocation.settings "/") invocation.action brokenInputs plain json ∧
    plain.1.IsDrawn brokenInputs.draws ∧ json.1.exitCode = plain.1.exitCode := by
  intro words words' invocation plain json
  have understood : Arguments.parse none words = .ok invocation := by rfl
  have understood' : Arguments.parse none words' = .ok { invocation with json := true } := by rfl
  have agree : ModesAgree (invocation.settings "/") invocation.action brokenInputs plain json :=
    (modesAgree_of_parse understood rfl (by decide)).2 words' understood'
  have drawn : plain.1.IsDrawn brokenInputs.draws := fun _ _ => rfl
  exact ⟨understood, understood', agree, drawn, agree.exitCode drawn⟩

end ViewScript
