/-
  ViewScript/Project/Error.lean
  =============================
  **What can go wrong with a project.**

  Every error has a message.  A report is an error prepared for display; for a
  source that is no program it points at the character where the source goes wrong.
  An error whose place cannot be shown is *fatal*: whatever comes upon it ends there.
-/
import ViewScript.Compile
import ViewScript.Disk.Basic

namespace ViewScript

/-- Why a step of a project failed. -/
inductive Error where
  | configRead (path : Path) (cause : FileError)
  | configParse (path : Path)
  | read (path : Path) (cause : FileError)
  | invalidSource (path : Path) (source : Text) (cause : SyntaxError)
  | write (path : Path) (cause : FileError)
  | outputIsInput (path : Path)
  /-- A folder at or below a root cannot be read. -/
  | walk (root folder : Path) (cause : FileError)
  /-- The source is no program, but the place of the failure cannot be shown. -/
  | unshowable (path : Path) (failure : Failure)
  | other (message : Text)
deriving Repr

namespace Error

/-- The error in words.  What exactly is wrong with a configuration file is not
    said. -/
def message : Error → Text
  | .configRead path cause => "Failed to read config at " ++ path.text ++ ": " ++ cause.message
  | .configParse path => "Failed to parse config at " ++ path.text ++ ": "
  | .read path cause => "Failed to read " ++ path.text ++ ": " ++ cause.message
  | .invalidSource path _ cause => path.text ++ ": " ++ cause.message
  | .write path cause => "Failed to write " ++ path.text ++ ": " ++ cause.message
  | .outputIsInput path => "Output path " ++ path.text ++ " would overwrite its input"
  | .walk root folder cause =>
    "Failed to walk " ++ root.text ++ ": IO error for operation on " ++ folder.text ++ ": " ++
      cause.message
  | .unshowable path failure => path.text ++ ": " ++ failure.message
  | .other message => message

/-- Whether an error ends whatever comes upon it. -/
def isFatal : Error → Bool
  | .unshowable _ _ => true
  | _ => false

/-- The path, the source and the cause, if a source is no program. -/
def syntaxError? : Error → Option (Path × Text × SyntaxError)
  | .invalidSource path source cause => some (path, source, cause)
  | _ => none

end Error

/-- A stretch of a source with a remark. -/
structure Label where
  remark : Text
  offset : Nat
  size : Nat
deriving DecidableEq, Repr

/-- An error prepared for display. -/
structure Report where
  code : Text
  message : Text
  labels : List Label
  help : Option Text
deriving DecidableEq, Repr

/-- The number of bytes of the character at an offset; zero at the end. -/
def Text.charSizeAt (source : Text) (offset : Nat) : Nat :=
  match source.dropBytes? offset with
  | some (c :: _) => c.utf8Size
  | _ => 0

/-- The report of an error. -/
def Error.report (error : Error) : Report :=
  match error with
  | .invalidSource path source cause =>
    let offset := min cause.position source.byteSize
    { code := "moonc::syntax"
      message := path.text ++ ": invalid view syntax, expected " ++ cause.expected
      labels := [⟨"expected here", offset, source.charSizeAt offset⟩]
      help := some cause.context }
  | error => { code := "moonc::error", message := error.message, labels := [], help := none }

/-- What is drawn for a reader on the error output. -/
inductive Notice where
  | report (error : Error)
  /-- How many of the files of a command failed. -/
  | summary (command : Text) (failed total : Nat)
deriving Repr

/-- The notice in words. -/
def Notice.message : Notice → Text
  | .report error => error.message
  | .summary command failed total =>
    command ++ ": " ++ Text.ofNat failed ++ " of " ++ Text.ofNat total ++ " file(s) failed"

/-- The error for a source that was read from a path. -/
def Error.ofSource (path : Path) (source : Text) : SourceError → Error
  | .invalid error => .invalidSource path source error
  | .unshowable failure => .unshowable path failure

/-- Compile a source that was read from a path. -/
def compileSource (names : RuntimeNames) (path : Path) (source : Text) : Except Error Text :=
  (compile names source).mapError (.ofSource path source)

/-- Check a source that was read from a path, and count its views. -/
def checkSource (path : Path) (source : Text) : Except Error Nat :=
  ((check source).map viewCount).mapError (.ofSource path source)

end ViewScript
