/-
  ViewScript/Command/Run.lean
  ===========================
  **Running a command.**

  Files are worked on in the order in which they are given.  The word `-` stands for
  the standard input, which is read once; after that it is empty.
-/
import ViewScript.Command.Arguments
import ViewScript.Command.Outcome

namespace ViewScript

variable {m : Type → Type} [Monad m] [Host m]

/-- The path that stands for the standard input. -/
def standardInput : Path := "-"

/-- Read the standard input, which has to be UTF-8 throughout. -/
def readStandardInput : ExceptT Error m Text := do
  match Utf8.decode? (← (Host.readInput : m Bytes)) with
  | some text => return text
  | none => throw (.read standardInput .notUtf8)

/-! ### Files one after the other -/

/-- Work on files and keep a row for each, up to a fatal error. -/
def rowsOf (work : Path → ExceptT Error m Yield) : List Path → m (List Row)
  | [] => return []
  | input :: inputs => do
    let row : Row := ⟨input, ← (work input).run⟩
    if row.isFatal then return [row]
    return row :: (← rowsOf work inputs)

/-- Work on files and print at once what came of each; tell whether all was done or a
    fatal error has come up. -/
def printEach (work : Path → ExceptT Error m Yield) : List Path → m (Printed × Bool)
  | [] => return ({}, true)
  | input :: inputs => do
    match ← (work input).run with
    | .ok yield =>
      let (rest, complete) ← printEach work inputs
      return (rest.add input (.ok yield), complete)
    | .error error =>
      if error.isFatal then return ({}, false)
      let (rest, complete) ← printEach work inputs
      return (rest.add input (.error error), complete)

/-- Work on files and show what came of them. -/
def showEach (json : Bool) (command : Text) (work : Path → ExceptT Error m Yield)
    (inputs : List Path) : m Shown := do
  if json then
    let rows ← rowsOf work inputs
    if rows.any Row.isFatal then return ⟨[], [], .abort⟩
    return emit command rows
  else
    let (printed, complete) ← printEach work inputs
    if complete then printed.report command inputs.length
    else return ⟨printed.stdout, [], .abort⟩

/-! ### Commands -/

/-- Compile a file, or the standard input. -/
def compileInput (settings : Settings) (names : RuntimeNames) (outDir : Option Path)
    (toStdout : Bool) (input : Path) : ExceptT Error m Yield := do
  if input = standardInput then
    let source ← readStandardInput
    let code ← ExceptT.mk (pure (compileSource names input source))
    return .code code
  else
    let path := settings.resolve input
    if toStdout then
      return .code (← compileFile names path)
    else
      let compiled ← compileOne names settings.cwd outDir path
      return .written compiled.output

/-- Check a file, or the standard input. -/
def checkInput (settings : Settings) (input : Path) : ExceptT Error m Yield := do
  let source ← if input = standardInput then readStandardInput
    else readSource (settings.resolve input)
  let views ← ExceptT.mk (pure (checkSource input source))
  return .views views

/-- The folder for compiled files: the one that is asked for, or else the one of the
    project. -/
def Settings.outputFolder (settings : Settings) (asked : Option Path) (config : ProjectConfig) :
    Option Path :=
  (asked <|> config.outDir).map settings.resolve

def runCompile (settings : Settings) (json : Bool) (inputs : List Path) (outDir : Option Path)
    (toStdout : Bool) : m Shown := do
  match ← settings.loadProject.run with
  | .error error => return .ofError error
  | .ok config =>
    let outDir := settings.outputFolder outDir config
    showEach json "compile" (compileInput settings config.runtime.names outDir toStdout) inputs

def runCheck (settings : Settings) (json : Bool) (inputs : List Path) : m Shown :=
  showEach json "check" (checkInput settings) inputs

namespace FileResult

/-- What came of a file that was built. -/
def yield (file : FileResult) : Except Error Yield :=
  file.result.map fun compiled => .written compiled.output

/-- The row of a file that was built. -/
def row (file : FileResult) : Row := ⟨file.input, file.yield⟩

end FileResult

/-- Print what came of files that were built. -/
def printResults : List FileResult → Printed
  | [] => {}
  | file :: files => (printResults files).add file.input file.yield

/-- Show what came of a build. -/
def BuildReport.present (report : BuildReport) (json : Bool) : m Shown := do
  let total := report.results.length
  if json then
    return emit "build" (report.results.map FileResult.row)
  else
    let printed := printResults report.results
    let closing := if printed.errors.isEmpty then
        "Compiled " ++ Text.ofNat total ++ " file(s) under " ++ report.root.text ++ "\n"
      else []
    let printed := { printed with stdout := printed.stdout ++ closing }
    printed.report "build" total

def runBuild (settings : Settings) (json : Bool) (root outDir : Option Path) : m Shown := do
  match ← settings.loadProject.run with
  | .error error => return .ofError error
  | .ok config =>
    let root := (root.map settings.resolve).getD settings.cwd
    let schedule ← Host.schedule
    match ← (build config root (settings.outputFolder outDir config) schedule).run with
    | .error error => return .ofError error
    | .ok report => report.present json

def runVersion (json : Bool) : Shown :=
  let info : VersionInfo := {}
  ⟨(if json then info.toJson.write else info.display) ++ "\n", [], .success⟩

/-! ### The program -/

/-- Run a command. -/
def Action.run (action : Action) (settings : Settings) (json : Bool) : m Shown :=
  match action with
  | .version => return runVersion json
  | .compile inputs outDir toStdout => runCompile settings json inputs outDir toStdout
  | .check inputs => runCheck settings json inputs
  | .build root outDir => runBuild settings json root outDir

/-- Run a command in a folder, and leave the program. -/
def Invocation.run (invocation : Invocation) (folder : Path) : m Outcome := do
  let settings : Settings := {
    cwd := invocation.cwd.getD folder
    jsonLogs := invocation.json
    verbosity := invocation.verbosity
    configPath := invocation.config }
  (← invocation.action.run settings invocation.json).leave

/-- A short description of the command line. -/
def usage : Text := List.flatMap String.toList [
  "Usage: moonc [-v] [--json] [--cwd DIR] [--config FILE] [COMMAND]\n\n",
  "Commands:\n",
  "  version                              Print version information\n",
  "  compile [-o DIR] [--stdout] FILE...  Compile files\n",
  "  check FILE...                        Report syntax errors\n",
  "  build [-o DIR] [ROOT]                Compile every source file under a directory\n"]

/-- Run the program with the words of a command line. -/
def runProgram (environment : Option Text) (folder : Path) (words : List Text) : m Outcome :=
  match Arguments.parse environment words with
  | .ok invocation => invocation.run folder
  | .error .usage => return ⟨2, [], []⟩
  | .error .version => (runVersion false).leave
  | .error .help => return ⟨0, usage, []⟩

end ViewScript
