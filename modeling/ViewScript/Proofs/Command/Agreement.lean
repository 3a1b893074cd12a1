/-
  ViewScript/Proofs/Command/Agreement.lean
  ========================================
  **Checking and compiling agree.**

  To check files and to compile them to the standard output are two loops over the same
  inputs.  Both fetch an input in the same way and then judge its text, so they run in
  lockstep: after the same inputs the machine is the same, and the rows so far have the
  same inputs, the same verdicts and the same errors.  What differs is what a row says
  about a source that is a program.

  The documents are compared member by member, as someone reads them who does not know
  how they came about.
-/
import ViewScript.Proofs.Command.Endings
import ViewScript.Proofs.Project.Writing

namespace ViewScript

/-! ### Words that are inputs -/

namespace Arguments

/-- Words are all noted, unless one of them is empty. -/
theorem addWords_eq (given : Given) (words : List Text) :
    given.addWords none words =
      if [] ∈ words then .error .usage
      else .ok { given with words := given.words ++ words.map Path.mk } := by
  induction words generalizing given with
  | nil => simp [Given.addWords]
  | cons word words ih =>
    cases word with
    | nil => simp [Given.addWords, Given.addWord, bind, Except.bind]
    | cons c cs =>
      simp [Given.addWords, Given.addWord, bind, Except.bind, ih]

/-- Words that are no options are noted one after the other. -/
theorem scan_words {options : List OptionName} {words : List Text}
    (areWords : ∀ word ∈ words, isOption word = false) (given : Given) :
    scan options false none given words = (given.addWords none words).map (·, none) := by
  induction words generalizing given with
  | nil => rfl
  | cons word words ih =>
    have isWord := areWords word List.mem_cons_self
    have notDashes : word ≠ ['-', '-'] := by
      rintro rfl
      cases isWord
    have rest := ih fun other member => areWords other (List.mem_cons_of_mem word member)
    simp only [scan, notDashes, isWord, if_false, Bool.false_eq_true, Given.addWords, bind,
      Except.bind]
    cases given.addWord none word with
    | error stop => rfl
    | ok given => exact rest given

/-- The words of inputs: they stand behind two dashes, or none of them is an option. -/
def AreInputs (words inputs : List Text) : Prop :=
  words = ['-', '-'] :: inputs ∨ words = inputs ∧ ∀ word ∈ inputs, isOption word = false

theorem AreInputs.scan {words inputs : List Text} (areInputs : AreInputs words inputs)
    (options : List OptionName) (given : Given) :
    scan options false none given words = (given.addWords none inputs).map (·, none) := by
  rcases areInputs with rfl | ⟨rfl, areWords⟩
  · simp [Arguments.scan]
  · exact scan_words areWords given

section Parse

variable {environment : Option Text} {words inputs : List Text}

/-- A command that works on all its words is understood if there are words, none of them is
    empty, and the environment does not name an empty path. -/
theorem parse_inputs {command : CommandName} {name : Text} {given : Given}
    {action : List Path → Action} (isCommand : CommandName.ofText? name = some command)
    (isName : isOption name = false)
    (scanned : scan command.options false command.wordLimit {} words =
      (given.addWords none inputs).map (·, none))
    (plain : given = { stdout := given.stdout })
    (acts : ∀ paths, command.action { given with words := paths } =
      if paths.isEmpty then .error .usage else .ok (action paths)) :
    parse environment ("--json".toList :: name :: words) =
      if inputs = [] ∨ [] ∈ inputs ∨ environment = some [] then .error .usage
      else .ok ⟨0, true, none, environment.map Path.mk, action (inputs.map Path.mk)⟩ := by
  have first : scan leadingOptions true (some 0) {} ("--json".toList :: name :: words) =
      .ok ({ json := true }, some (name, words)) := by
    have notDashes : name ≠ ['-', '-'] := by
      rintro rfl
      cases isName
    have json : scan leadingOptions true (some 0) {} ("--json".toList :: name :: words) =
        scan leadingOptions true (some 0) { json := true } (name :: words) := rfl
    rw [json]
    simp [scan, notDashes, isName]
  obtain ⟨toStdout⟩ : ∃ toStdout, given = { stdout := toStdout } := ⟨given.stdout, plain⟩
  subst given
  simp only [parse, first, isCommand, scanned, addWords_eq, bind, Except.bind]
  by_cases empty : [] ∈ inputs
  · simp [empty, Except.map]
  simp only [empty, if_false, Except.map, false_or, List.nil_append, acts]
  cases inputs with
  | nil => simp
  | cons input inputs =>
    rcases environment with _ | _ | ⟨c, cs⟩
    · simp [configAt, pure, Except.pure]
    · simp [configAt]
    · simp [configAt, pure, Except.pure]

theorem parse_check (areInputs : AreInputs words inputs) :
    parse environment ("--json".toList :: "check".toList :: words) =
      if inputs = [] ∨ [] ∈ inputs ∨ environment = some [] then .error .usage
      else .ok ⟨0, true, none, environment.map Path.mk, .check (inputs.map Path.mk)⟩ :=
  parse_inputs rfl rfl (areInputs.scan _ {}) rfl fun _ => rfl

theorem parse_compile (areInputs : AreInputs words inputs) :
    parse environment ("--json".toList :: "compile".toList :: "--stdout".toList :: words) =
      if inputs = [] ∨ [] ∈ inputs ∨ environment = some [] then .error .usage
      else .ok ⟨0, true, none, environment.map Path.mk,
        .compile (inputs.map Path.mk) none true⟩ := by
  have switch : scan CommandName.compile.options false none {} ("--stdout".toList :: words) =
      scan CommandName.compile.options false none { stdout := true } words := rfl
  exact parse_inputs rfl rfl (switch.trans (areInputs.scan _ _)) rfl fun _ => rfl

end Parse

end Arguments

/-! ### One input -/

/-- Fetch the text of an input. -/
def fetch (settings : Settings) (input : Path) : ExceptT Error (StateM Machine) Text :=
  if input = standardInput then readStandardInput else readSource (settings.resolve input)

section Inputs

variable (settings : Settings) (names : RuntimeNames) (outDir : Option Path) (input : Path)
  (machine : Machine)

/-- Fetching takes from the standard input and leaves the disk. -/
theorem disk_run_fetch : ((fetch settings input).run machine).2.disk = machine.disk := by
  unfold fetch
  split
  · rw [readStandardInput, run_bind]
    have read : (((Host.readInput : StateM Machine Bytes) :
        ExceptT Error (StateM Machine) Bytes).run machine) =
          (.ok machine.input, { machine with input := [] }) := rfl
    rw [read]
    dsimp only
    cases Utf8.decode? machine.input <;> rfl
  · have bytes : (attemptFile (.read (settings.resolve input))
        (Host.readFile (settings.resolve input)) : ExceptT Error (StateM Machine) Bytes).run machine =
          ((machine.disk.readFile (settings.resolve input)).mapError
            (.read (settings.resolve input)), machine) := rfl
    rw [readSource, run_bind, bytes]
    cases machine.disk.readFile (settings.resolve input) <;> rfl

theorem run_checkInput :
    (checkInput settings input : ExceptT Error (StateM Machine) Yield).run machine =
      (((fetch settings input).run machine).1.bind fun source =>
        (checkSource input source).map .views, ((fetch settings input).run machine).2) := by
  have fetched : (checkInput settings input : ExceptT Error (StateM Machine) Yield) =
      (fetch settings input >>= fun source => do
        let views ← ExceptT.mk (pure (checkSource input source))
        return .views views) := by
    unfold checkInput fetch
    split <;> rfl
  rw [fetched, run_bind]
  rcases (fetch settings input).run machine with ⟨result, after⟩
  cases result with
  | error error => rfl
  | ok source =>
    simp only [run_bind, run_mk_pure, Except.bind]
    cases checkSource input source <;> rfl

theorem run_compileInput :
    (compileInput settings names outDir true input : ExceptT Error (StateM Machine) Yield).run
        machine =
      (((fetch settings input).run machine).1.bind fun source =>
        (compileSource names (if input = standardInput then input else settings.resolve input)
          source).map .code, ((fetch settings input).run machine).2) := by
  have fetched : (compileInput settings names outDir true input :
      ExceptT Error (StateM Machine) Yield) =
      (fetch settings input >>= fun source => do
        let code ← ExceptT.mk (pure (compileSource names
          (if input = standardInput then input else settings.resolve input) source))
        return .code code) := by
    unfold compileInput fetch
    split
    · rfl
    · simp [compileFile]
  rw [fetched, run_bind]
  rcases (fetch settings input).run machine with ⟨result, after⟩
  cases result with
  | error error => rfl
  | ok source =>
    simp only [run_bind, run_mk_pure, Except.bind]
    cases compileSource names _ source <;> rfl

end Inputs

/-- Two verdicts on an input: both are good, or both name the same error in a document,
    or both end the command. -/
inductive Agree : Except Error Yield → Except Error Yield → Prop
  | ok (first second : Yield) : Agree (.ok first) (.ok second)
  | error {first second : Error} (goesOn : first.isFatal = false) (goesOn' : second.isFatal = false)
      (same : first.toJson = second.toJson) : Agree (.error first) (.error second)
  | fatal {first second : Error} (ends : first.isFatal = true) (ends' : second.isFatal = true) :
      Agree (.error first) (.error second)

theorem agree_of_error (error : Error) : Agree (.error error) (.error error) := by
  cases isFatal : error.isFatal with
  | false => exact .error isFatal isFatal rfl
  | true => exact .fatal isFatal isFatal

/-- A text is judged in the same way whatever paths it is said to come from. -/
theorem agree_of_source (names : RuntimeNames) (path path' : Path) (source : Text) :
    Agree ((checkSource path source).map .views) ((compileSource names path' source).map .code) := by
  unfold checkSource compileSource compile
  cases check source with
  | ok nodes => exact .ok _ _
  | error error =>
    cases error with
    | invalid error => exact .error rfl rfl rfl
    | unshowable failure => exact .fatal rfl rfl

theorem agree_inputs (settings : Settings) (names : RuntimeNames) (outDir : Option Path)
    (input : Path) (machine : Machine) :
    Agree ((checkInput settings input : ExceptT Error (StateM Machine) Yield).run machine).1
      ((compileInput settings names outDir true input :
        ExceptT Error (StateM Machine) Yield).run machine).1 := by
  rw [run_checkInput, run_compileInput]
  cases ((fetch settings input).run machine).1 with
  | error error => exact agree_of_error error
  | ok source => exact agree_of_source names _ _ source

/-! ### All inputs -/

/-- Two rows on the same input whose verdicts agree. -/
structure Row.Agrees (first second : Row) : Prop where
  input : first.input = second.input
  result : Agree first.result second.result

namespace Row.Agrees

variable {first second : Row}

theorem isOk_eq (agrees : first.Agrees second) : first.isOk = second.isOk := by
  obtain ⟨input, result⟩ := first
  obtain ⟨input', result'⟩ := second
  cases agrees.result <;> rfl

theorem isFatal_eq (agrees : first.Agrees second) : first.isFatal = second.isFatal := by
  obtain ⟨input, result⟩ := first
  obtain ⟨input', result'⟩ := second
  cases agrees.result with
  | ok => rfl
  | error goesOn goesOn' => simp [Row.isFatal, Row.error?, goesOn, goesOn']
  | fatal ends ends' => simp [Row.isFatal, Row.error?, ends, ends']

end Row.Agrees

/-- **The loops run in lockstep.**  After the same inputs the machines are the same, with
    the disk they started from, and the rows agree. -/
theorem rowsOf_agree (settings : Settings) (names : RuntimeNames) (outDir : Option Path)
    (inputs : List Path) (machine : Machine) :
    let checked := (rowsOf (checkInput settings) inputs : StateM Machine (List Row)) machine
    let compiled := (rowsOf (compileInput settings names outDir true) inputs :
      StateM Machine (List Row)) machine
    List.Forall₂ Row.Agrees checked.1 compiled.1 ∧ compiled.2 = checked.2 ∧
      checked.2.disk = machine.disk := by
  induction inputs generalizing machine with
  | nil => exact ⟨.nil, rfl, rfl⟩
  | cons input inputs ih =>
    have agrees : Row.Agrees
        ⟨input, ((checkInput settings input : ExceptT Error (StateM Machine) Yield).run machine).1⟩
        ⟨input, ((compileInput settings names outDir true input :
          ExceptT Error (StateM Machine) Yield).run machine).1⟩ :=
      ⟨rfl, agree_inputs settings names outDir input machine⟩
    have sameAfter : ((compileInput settings names outDir true input :
          ExceptT Error (StateM Machine) Yield).run machine).2 =
        ((checkInput settings input : ExceptT Error (StateM Machine) Yield).run machine).2 := by
      rw [run_checkInput, run_compileInput]
    have sameDisk : ((checkInput settings input :
        ExceptT Error (StateM Machine) Yield).run machine).2.disk = machine.disk := by
      rw [run_checkInput]
      exact disk_run_fetch settings input machine
    simp only [run_rowsOf_cons, ← agrees.isFatal_eq]
    cases ends : (⟨input, ((checkInput settings input :
        ExceptT Error (StateM Machine) Yield).run machine).1⟩ : Row).isFatal with
    | true => exact ⟨.cons agrees .nil, sameAfter, sameDisk⟩
    | false =>
      obtain ⟨rows, after, disk⟩ :=
        ih ((checkInput settings input : ExceptT Error (StateM Machine) Yield).run machine).2
      rw [sameAfter]
      exact ⟨.cons agrees rows, after, disk.trans sameDisk⟩

/-! ### Documents -/

/-- The member of an object with a key. -/
def Json.get? (key : Text) : Json → Option Json
  | .object members => members.lookup key
  | _ => none

/-- Two rows of documents that have the same input, the same flag and the same error
    object, if any. -/
structure Row.Alike (first second : Row) : Prop where
  input : first.toJson.get? "input" = second.toJson.get? "input"
  ok : first.toJson.get? "ok" = second.toJson.get? "ok"
  error : first.toJson.get? "error" = second.toJson.get? "error"

theorem Row.Agrees.alike {first second : Row} (agrees : first.Agrees second)
    (goesOn : first.isFatal = false) : first.Alike second := by
  obtain ⟨input, result⟩ := first
  obtain ⟨input', result'⟩ := second
  obtain rfl : input = input' := agrees.input
  cases agrees.result with
  | ok yield yield' =>
    refine ⟨rfl, rfl, ?_⟩
    cases yield <;> cases yield' <;> rfl
  | @error error error' goesOn goesOn' same =>
    refine ⟨rfl, rfl, ?_⟩
    exact congrArg some same
  | fatal ends ends' => simp [Row.isFatal, Row.error?, ends] at goesOn

theorem alike_of_agree {rows rows' : List Row} (agree : List.Forall₂ Row.Agrees rows rows')
    (goesOn : rows.any Row.isFatal = false) : List.Forall₂ Row.Alike rows rows' := by
  induction agree with
  | nil => exact .nil
  | cons agrees _ ih =>
    obtain ⟨first, rest⟩ := Bool.or_eq_false_iff.mp goesOn
    exact .cons (agrees.alike first) (ih rest)

/-- To load a project is to read files. -/
theorem machine_run_loadProject (settings : Settings) (machine : Machine) :
    ((settings.loadProject : ExceptT Error (StateM Machine) ProjectConfig).run machine).2 =
      machine := by
  have load (path : Path) : ((loadConfig path :
      ExceptT Error (StateM Machine) ProjectConfig).run machine).2 = machine := by
    have bytes : (attemptFile (.configRead path) (Host.readFile path) :
        ExceptT Error (StateM Machine) Bytes).run machine =
          ((machine.disk.readFile path).mapError (.configRead path), machine) := rfl
    rw [loadConfig, run_bind, bytes]
    cases machine.disk.readFile path with
    | error error => rfl
    | ok bytes =>
      dsimp only [Except.mapError]
      cases Utf8.decode? bytes with
      | none => rfl
      | some text =>
        dsimp only
        cases ProjectConfig.parse? text <;> rfl
  unfold Settings.loadProject
  cases settings.configPath with
  | some path => exact load _
  | none =>
    dsimp only
    rw [run_tryCatch]
    have same := load (settings.cwd.join configFileName)
    generalize (loadConfig (settings.cwd.join configFileName) :
      ExceptT Error (StateM Machine) ProjectConfig).run machine = loaded at same ⊢
    obtain ⟨result, after⟩ := loaded
    obtain rfl : after = machine := same
    cases result with
    | ok config => rfl
    | error error =>
      dsimp only
      split <;> rfl

/-- A loop over agreeing rows is ended in one command if it is in the other, and there is a
    document unless it is. -/
theorem documented_agree {rows rows' : List Row} (agree : List.Forall₂ Row.Agrees rows rows')
    (command command' : Text) :
    let first := Outcome.documented command rows
    let second := Outcome.documented command' rows'
    first.exitCode = second.exitCode ∧
      (first.exitCode ≤ 1 → rows.any Row.isFatal = false ∧
        first.stdout = (document command rows).write ++ "\n" ∧
        second.stdout = (document command' rows').write ++ "\n" ∧
        List.Forall₂ Row.Alike rows rows') ∧
      (1 < first.exitCode → first.stdout = [] ∧ second.stdout = []) := by
  intro first second
  have sameOk : rows.all Row.isOk = rows'.all Row.isOk := by
    induction agree with
    | nil => rfl
    | cons agrees _ ih => simp only [List.all_cons, agrees.isOk_eq, ih]
  have sameFatal : rows.any Row.isFatal = rows'.any Row.isFatal := by
    clear sameOk
    induction agree with
    | nil => rfl
    | cons agrees _ ih => simp only [List.any_cons, agrees.isFatal_eq, ih]
  have code : first.exitCode = second.exitCode := by
    simp only [first, second, Outcome.documented, exitCodeOf, sameOk, sameFatal]
  cases ends : rows.any Row.isFatal with
  | true =>
    have isCode : first.exitCode = 101 := exitCodeOf_eq_abort_iff.mpr ends
    refine ⟨code, fun small => ?_, fun _ => ⟨?_, ?_⟩⟩
    · omega
    · simp [first, Outcome.documented, ends]
    · simp [second, Outcome.documented, ← sameFatal, ends]
  | false =>
    refine ⟨code, fun _ => ⟨rfl, ?_, ?_, ?_⟩, fun large => ?_⟩
    · simp [first, Outcome.documented, ends]
    · simp [second, Outcome.documented, ← sameFatal, ends]
    · exact alike_of_agree agree ends
    · simp only [first, Outcome.documented, exitCodeOf, ends, Bool.false_eq_true, if_false] at large
      split at large <;> omega

/-! ### The two commands -/

section Commands

variable {settings : Settings} {machine : Machine}

theorem run_check (json : Bool) (inputs : List Path) :
    (runCheck settings json inputs >>= Shown.leave : StateM Machine Outcome) machine =
      let rows := (rowsOf (checkInput settings) inputs : StateM Machine (List Row)) machine
      (.inMode json machine.draws "check" [] rows.1, rows.2) := by
  have run := run_showEach_leave json "check" (checkInput settings) inputs machine
  dsimp only at run
  rw [draws_rowsOf fun _ => performs_checkInput.draws] at run
  exact run

theorem run_compile {config : ProjectConfig}
    (loaded : ((settings.loadProject : ExceptT Error (StateM Machine) ProjectConfig).run
      machine).1 = .ok config) (json : Bool) (inputs : List Path) (outDir : Option Path)
    (toStdout : Bool) :
    (runCompile settings json inputs outDir toStdout >>= Shown.leave : StateM Machine Outcome)
        machine =
      let rows := (rowsOf (compileInput settings config.runtime.names
        (settings.outputFolder outDir config) toStdout) inputs :
          StateM Machine (List Row)) machine
      (.inMode json machine.draws "compile" [] rows.1, rows.2) := by
  have loaded : (settings.loadProject : ExceptT Error (StateM Machine) ProjectConfig).run machine =
      (.ok config, machine) := Prod.ext loaded (machine_run_loadProject settings machine)
  have run := run_showEach_leave json "compile" (compileInput settings config.runtime.names
    (settings.outputFolder outDir config) toStdout) inputs machine
  dsimp only at run
  rw [draws_rowsOf fun _ => (performs_compileInput _ _ _).draws] at run
  rw [run_andThen, runCompile, run_andThen, loaded]
  exact run

end Commands

/-- The settings of a command in a folder, with the configuration file that the environment
    names. -/
def settingsIn (folder : Path) (environment : Option Text) : Settings where
  cwd := folder
  jsonLogs := true
  configPath := environment.map Path.mk

/-- Two runs of the program that tell the same about the same inputs and change no file. -/
structure RunsAgree (machine : Machine) (inputs : List Text) (command command' : Text)
    (first second : Outcome × Machine) : Prop where
  exitCode : first.1.exitCode = second.1.exitCode
  /-- The documents have the inputs in their order, with the same flags and errors. -/
  documents : first.1.exitCode ≤ 1 → ∃ rows rows',
    first.1.stdout = (document command rows).write ++ "\n" ∧
    second.1.stdout = (document command' rows').write ++ "\n" ∧
    rows.map Row.input = inputs.map Path.mk ∧ List.Forall₂ Row.Alike rows rows'
  /-- A command that was not understood, or was ended, prints no document. -/
  silent : 1 < first.1.exitCode → first.1.stdout = [] ∧ second.1.stdout = []
  disk : first.2.disk = machine.disk ∧ second.2.disk = machine.disk

/-- **Checking agrees with compiling.**  If the configuration loads, the two commands end
    with the same exit code and print documents that say the same about every input. -/
theorem check_agrees_with_compile {environment : Option Text} {folder : Path} {machine : Machine}
    {words inputs : List Text} (areInputs : Arguments.AreInputs words inputs)
    (loads : ∃ config, (((settingsIn folder environment).loadProject :
      ExceptT Error (StateM Machine) ProjectConfig).run machine).1 = .ok config) :
    RunsAgree machine inputs "check" "compile"
      ((runProgram environment folder ("--json".toList :: "check".toList :: words) :
        StateM Machine Outcome) machine)
      ((runProgram environment folder
        ("--json".toList :: "compile".toList :: "--stdout".toList :: words) :
          StateM Machine Outcome) machine) := by
  by_cases refused : inputs = [] ∨ [] ∈ inputs ∨ environment = some []
  · simp only [runProgram, Arguments.parse_check areInputs, Arguments.parse_compile areInputs,
      if_pos refused]
    exact ⟨rfl, fun small => absurd small (show ¬ 2 ≤ 1 by omega), fun _ => ⟨rfl, rfl⟩, rfl, rfl⟩
  · obtain ⟨config, loaded⟩ := loads
    have isChecked : (runProgram environment folder
        ("--json".toList :: "check".toList :: words) : StateM Machine Outcome) machine =
        (runCheck (settingsIn folder environment) true (inputs.map Path.mk) >>= Shown.leave :
          StateM Machine Outcome) machine := by
      simp only [runProgram, Arguments.parse_check areInputs, if_neg refused]
      rfl
    have isCompiled : (runProgram environment folder
        ("--json".toList :: "compile".toList :: "--stdout".toList :: words) :
          StateM Machine Outcome) machine =
        (runCompile (settingsIn folder environment) true (inputs.map Path.mk) none true >>=
          Shown.leave : StateM Machine Outcome) machine := by
      simp only [runProgram, Arguments.parse_compile areInputs, if_neg refused]
      rfl
    rw [isChecked, isCompiled, run_check, run_compile loaded]
    obtain ⟨agree, after, disk⟩ := rowsOf_agree (settingsIn folder environment)
      config.runtime.names ((settingsIn folder environment).outputFolder none config)
      (inputs.map Path.mk) machine
    obtain ⟨code, shown, silent⟩ := documented_agree agree "check" "compile"
    refine ⟨code, fun small => ?_, silent, disk, after ▸ disk⟩
    obtain ⟨goesOn, document, document', alike⟩ := shown small
    exact ⟨_, _, document, document', input_rowsOf _ _ _ goesOn, alike⟩

/-- A folder with a source that is no program, and a standard input that is not UTF-8. -/
def brokenInputs : Machine where
  disk := { root := .folder [("a.moon", .file (Utf8.encode "(x"))], workingFolder := [] }
  input := [0xff]
  processId := 1

theorem check_agrees_with_compile_broken :
    let words := ["a.moon".toList, "-".toList, "b.moon".toList, "-".toList]
    RunsAgree brokenInputs words "check" "compile"
      ((runProgram none "/" ("--json".toList :: "check".toList :: words) :
        StateM Machine Outcome) brokenInputs)
      ((runProgram none "/"
        ("--json".toList :: "compile".toList :: "--stdout".toList :: words) :
          StateM Machine Outcome) brokenInputs) := by
  intro words
  have areInputs : Arguments.AreInputs words words := .inr ⟨rfl, by decide⟩
  have loads : ∃ config, (((settingsIn "/" none).loadProject :
      ExceptT Error (StateM Machine) ProjectConfig).run brokenInputs).1 = .ok config := ⟨{}, rfl⟩
  exact check_agrees_with_compile areInputs loads

end ViewScript
