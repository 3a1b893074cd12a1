/-
  ViewScript/Command/Outcome.lean
  ===============================
  **How a command ends.**

  With a document, all is printed at the end, and the program exits at once if a file
  failed.  With lines, the errors are kept until the last line is printed; then the
  report of each is drawn, and a summary is handed back to the program, which draws it
  too.  Where a notice cannot be drawn the program breaks off.
-/
import ViewScript.Command.Document

namespace ViewScript

/-- What a run of the program shows. -/
structure Outcome where
  exitCode : Nat
  stdout : Text
  /-- The notices that were drawn on the error output.  Only the last may be one that
      could not be drawn. -/
  notices : List Notice

/-- How a command ends. -/
inductive Ending where
  | success
  /-- The program exits at once. -/
  | exit (code : Nat)
  /-- A notice is handed back to the program. -/
  | failure (notice : Notice)
  /-- The program breaks off. -/
  | abort
deriving Repr

/-- What a command has shown when it ends. -/
structure Shown where
  stdout : Text
  notices : List Notice
  ending : Ending

variable {m : Type → Type} [Monad m] [Host m]

namespace Shown

/-- An error before there is anything to show. -/
def ofError (error : Error) : Shown :=
  ⟨[], [], if error.isFatal then .abort else .failure (.report error)⟩

/-- Leave the program; a notice that was handed back is drawn. -/
def leave (shown : Shown) : m Outcome :=
  match shown.ending with
  | .success => return ⟨0, shown.stdout, shown.notices⟩
  | .exit code => return ⟨code, shown.stdout, shown.notices⟩
  | .failure notice => do
    let drawn ← Host.draw notice
    return ⟨if drawn then 1 else 101, shown.stdout, shown.notices ++ [notice]⟩
  | .abort => return ⟨101, shown.stdout, shown.notices⟩

end Shown

/-! ### With a document -/

/-- Print a document, and exit if a file failed. -/
def emit (command : Text) (rows : List Row) : Shown :=
  let failed := rows.length - rows.countP Row.isOk
  ⟨(document command rows).write ++ "\n", [], if failed == 0 then .success else .exit 1⟩

/-! ### With lines -/

/-- Draw the reports of errors, up to one that cannot be drawn. -/
def drawReports : List Error → m (List Notice × Bool)
  | [] => return ([], true)
  | error :: errors => do
    if ← Host.draw (.report error) then
      let (notices, drawn) ← drawReports errors
      return (.report error :: notices, drawn)
    else
      return ([.report error], false)

/-- What was printed, and the errors that are kept. -/
structure Printed where
  stdout : Text := []
  errors : List Error := []

namespace Printed

/-- What came of a file, before all that is printed after it. -/
def add (input : Path) (result : Except Error Yield) (printed : Printed) : Printed :=
  match result with
  | .ok yield => { printed with stdout := yield.line input ++ printed.stdout }
  | .error error => { printed with errors := error :: printed.errors }

/-- Draw the reports of the errors, and hand back a summary. -/
def report (printed : Printed) (command : Text) (total : Nat) : m Shown := do
  if printed.errors.isEmpty then
    return ⟨printed.stdout, [], .success⟩
  let (notices, drawn) ← drawReports printed.errors
  let summary : Notice := .summary command printed.errors.length total
  return ⟨printed.stdout, notices, if drawn then .failure summary else .abort⟩

end Printed

end ViewScript
