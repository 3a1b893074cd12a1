/-
  ViewScript/Project/Build.lean
  =============================
  **Compiling files.**

  Code is written to a temporary file beside its target, which then takes the place
  of the target.  So the target holds the old code or the new, never a part of it.

  The sources of a project are shared out among workers, which run side by side.  One
  file that cannot be compiled does not keep the others from being compiled.  But with a
  fatal error a worker stops, whatever it has left to do, and when all workers have come
  to an end there is no report on any file.
-/
import ViewScript.Project.Discovery
import ViewScript.Project.OutputPath
import ViewScript.Dialogue

namespace ViewScript

variable {m : Type → Type} [Monad m] [Host m]

/-- Read a source; what is not UTF-8 in it is replaced. -/
def readSource (path : Path) : ExceptT Error m Text := do
  return Utf8.decodeLossy (← attemptFile (.read path) (Host.readFile path))

/-- Read a source and compile it. -/
def compileFile (names : RuntimeNames) (path : Path) : ExceptT Error m Text := do
  let source ← readSource path
  ExceptT.mk (pure (compileSource names path source))

/-! ### Writing -/

/-- A hidden file beside a path, with a number that keeps it apart from those of
    other processes. -/
def temporaryPath (processId : Nat) (path : Path) : Path :=
  (path.parent?.getD ".").join
    ⟨"." ++ path.fileName?.getD "file" ++ ".tmp." ++ Text.ofNat processId⟩

/-- Put new contents in the place of a file, all at once. -/
def replaceFile (path : Path) (contents : Bytes) : ExceptT FileError m Unit := do
  let temporary := temporaryPath (← (Host.processId : m Nat)) path
  ExceptT.mk (Host.createFile temporary contents)
  tryCatch (ExceptT.mk (Host.renameFile temporary path)) fun error => do
    let _ ← ExceptT.lift (Host.removeFile temporary)
    throw error

/-- Write code to a path, and make the folders above it. -/
def writeOutput (path : Path) (code : Text) : ExceptT Error m Unit := do
  match path.parent? with
  | some ⟨c :: cs⟩ => attemptFile (.write path) (Host.makeFolders ⟨c :: cs⟩)
  | _ => pure ()
  attemptFile (.write path) (replaceFile path (Utf8.encode code)).run

/-! ### Batches -/

/-- A file that was written. -/
structure Compiled where
  output : Path
  byteSize : Nat
deriving DecidableEq, Repr

/-- What became of a source. -/
structure FileResult where
  input : Path
  result : Except Error Compiled

namespace FileResult

def isOk (file : FileResult) : Bool := file.result.isOk

/-- The error of a file, if it is fatal. -/
def fatal? (file : FileResult) : Option Error :=
  match file.result with
  | .ok _ => none
  | .error error => if error.isFatal then some error else none

end FileResult

/-- Compile a source and write its code. -/
def compileOne (names : RuntimeNames) (root : Path) (outDir : Option Path) (input : Path) :
    ExceptT Error m Compiled := do
  let output ← ExceptT.mk (pure (outputPath input root outDir))
  let code ← compileFile names input
  writeOutput output code
  return ⟨output, code.byteSize⟩

/-- Compile sources one after the other, each whatever became of those before it. -/
def compileEach (names : RuntimeNames) (root : Path) (outDir : Option Path) :
    List Path → m (List FileResult)
  | [] => return []
  | input :: inputs => do
    let result ← (compileOne names root outDir input).run
    let results ← compileEach names root outDir inputs
    return ⟨input, result⟩ :: results

/-- Compile a share of the sources one after the other, up to a fatal error. -/
def compileShare (names : RuntimeNames) (root : Path) (outDir : Option Path) :
    List Path → m (List FileResult)
  | [] => return []
  | input :: inputs => do
    let file : FileResult := ⟨input, ← (compileOne names root outDir input).run⟩
    if file.fatal?.isSome then return [file]
    return file :: (← compileShare names root outDir inputs)

/-- The workers that compile sources. -/
def workers (names : RuntimeNames) (root : Path) (outDir : Option Path) (shares : List Nat)
    (inputs : List Path) : List (Dialogue (List FileResult)) :=
  (Schedule.deal shares inputs).map (compileShare names root outDir)

/-- Compile sources side by side and tell what became of each. -/
def compileFiles (names : RuntimeNames) (root : Path) (outDir : Option Path)
    (inputs : List Path) (schedule : Schedule := .inOrder) :
    ExceptT Error m (List FileResult) := do
  let results ← (Dialogue.sideBySide schedule.turns
    (workers names root outDir schedule.shares inputs) : m _)
  match results.flatten.findSome? FileResult.fatal? with
  | some error => throw error
  | none => return results.flatten

/-- What became of the sources of a project. -/
structure BuildReport where
  root : Path
  results : List FileResult

namespace BuildReport

def succeeded (report : BuildReport) : Nat := report.results.countP FileResult.isOk

def failed (report : BuildReport) : Nat := report.results.length - report.succeeded

def isOk (report : BuildReport) : Bool := report.failed == 0

end BuildReport

/-- Find the sources of a project and compile them. -/
def build (config : ProjectConfig) (root : Path) (outDir : Option Path)
    (schedule : Schedule := .inOrder) : ExceptT Error m BuildReport := do
  let files ← discover config root
  let results ← compileFiles config.runtime.names root outDir files schedule
  return ⟨root, results⟩

end ViewScript
