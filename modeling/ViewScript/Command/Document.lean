/-
  ViewScript/Command/Document.lean
  ================================
  **What a command tells about files.**

  What came of a file is told in a line of text, or in a row of a JSON document, which
  has a row for each file.
-/
import ViewScript.Command.Version
import ViewScript.Project.Build

namespace ViewScript

/-- What came of a file. -/
inductive Yield where
  /-- Code to be printed. -/
  | code (code : Text)
  /-- Code that was written to a file. -/
  | written (output : Path)
  /-- The number of views in a source that was only checked. -/
  | views (count : Nat)
deriving Repr

/-- The line of a file. -/
def Yield.line (input : Path) : Yield → Text
  | .code text => text
  | .written output => input.text ++ " -> " ++ output.text ++ "\n"
  | .views count => input.text ++ ": ok (" ++ Text.ofNat count ++ " views)\n"

/-- A file of a command and what came of it. -/
structure Row where
  input : Path
  result : Except Error Yield

namespace Row

def isOk (row : Row) : Bool := row.result.isOk

def error? (row : Row) : Option Error :=
  match row.result with
  | .ok _ => none
  | .error error => some error

/-- Whether the command ends with this row. -/
def isFatal (row : Row) : Bool := row.error?.any Error.isFatal

end Row

/-- An error in a document.  For a source that is no program it tells the place. -/
def Error.toJson (error : Error) : Json :=
  match error.syntaxError? with
  | some (_, source, cause) =>
    let position := source.position? cause.position
    .object ([Json.member "message" (.string cause.detailed),
      Json.member "expected" (.string cause.expected),
      Json.member "position" (.ofNat cause.position)] ++
      Json.optionalMember "line" .ofNat (position.map Position.line) ++
      Json.optionalMember "column" .ofNat (position.map Position.column))
  | none => .object [Json.member "message" (.string error.message)]

/-- A row in a document. -/
def Row.toJson (row : Row) : Json :=
  .object [Json.member "input" (.string row.input.text), Json.member "ok" (.bool row.isOk),
    match row.result with
    | .ok (.code code) => Json.member "code" (.string code)
    | .ok (.written output) => Json.member "output" (.string output.text)
    | .ok (.views count) => Json.member "views" (.ofNat count)
    | .error error => Json.member "error" error.toJson]

/-- The document of a command. -/
def document (command : Text) (rows : List Row) : Json :=
  let succeeded := rows.countP Row.isOk
  let failed := rows.length - succeeded
  .object [Json.member "schema_version" (.ofNat schemaVersion),
    Json.member "command" (.string command),
    Json.member "ok" (.bool (failed == 0)),
    Json.member "counts" (.object [Json.member "total" (.ofNat rows.length),
      Json.member "succeeded" (.ofNat succeeded), Json.member "failed" (.ofNat failed)]),
    Json.member "files" (.array (rows.map Row.toJson))]

end ViewScript
