/-
  ViewScript/Main.lean
  ====================
  **The program on a real machine.**

  Only this module talks to the operating system: it is a host for the commands, and
  hands the words of the command line to `runProgram`.
-/
import ViewScript.Command.Run

namespace ViewScript.Main

/-- The number of an error, which the system gives as it is or negated. -/
def errorNumber (code : UInt32) : Nat := min code.toNat (0 - code).toNat

/-- What an error of the system says about a file. -/
def fileError (error : IO.Error) : FileError :=
  let other : FileError := .other error.toString.toList
  match error with
  | .noFileOrDirectory .. => .notFound
  | .alreadyExists .. => .alreadyExists
  | .resourceBusy .. => .busy
  | .inappropriateType _ code _ =>
    match errorNumber code with
    | 20 => .notFolder
    | 21 => .isFolder
    | _ => other
  | .invalidArgument _ code _ => if errorNumber code = 36 then .nameTooLong else other
  | _ => other

/-- Run an action and keep the error it ends with. -/
def attempt {α : Type} (action : IO α) : IO (Except FileError α) :=
  try return .ok (← action) catch error => return .error (fileError error)

def nameOf (path : Path) : String := String.ofList path.text

/-- The tree below a folder.  What is neither a file nor a folder is left out. -/
partial def shapeOf (enter : Text → Bool) (entries : Array IO.FS.DirEntry) :
    IO (List (Text × Shape)) := do
  let mut shapes := []
  for entry in entries do
    let name := entry.fileName.toList
    match (← entry.path.symlinkMetadata).type with
    | .file => shapes := (name, .file) :: shapes
    | .dir =>
      let inner ← if enter name then shapeOf enter (← entry.path.readDir) else pure []
      shapes := (name, .folder inner) :: shapes
    | _ => pure ()
  return shapes

/-- The tree at a path. -/
def shapeAt (enter : Text → Bool) (path : Path) : IO Shape := do
  let place := (← IO.currentDir) / nameOf path
  match (← place.metadata).type with
  | .dir => return .folder (← shapeOf enter (← place.readDir))
  | _ => return .file

/-- Read a stream to its end. -/
partial def readAll (stream : IO.FS.Stream) (front : ByteArray) : IO ByteArray := do
  let next ← stream.read 65536
  if next.isEmpty then return front else readAll stream (front ++ next)

/-- Work is done in order here, and all notices can be drawn: they are lines of text. -/
instance : Host IO where
  answer
    | .readFile path => attempt do return (← IO.FS.readBinFile (nameOf path)).toList
    | .readShape enter path => attempt (shapeAt enter path)
    | .makeFolders path => attempt (IO.FS.createDirAll (nameOf path))
    | .createFile path contents =>
      attempt (IO.FS.writeBinFile (nameOf path) contents.toByteArray)
    | .renameFile old new => attempt (IO.FS.rename (nameOf old) (nameOf new))
    | .removeFile path => attempt (IO.FS.removeFile (nameOf path))
    | .readInput => do return (← readAll (← IO.getStdin) .empty).toList
    | .processId => IO.monoNanosNow
    | .schedule => return .inOrder
    | .draw _ => return true

end ViewScript.Main

open ViewScript in
/-- Run the program, print what it shows and yield its exit code. -/
def main (arguments : List String) : IO UInt32 := do
  let environment ← IO.getEnv "MOONC_CONFIG"
  let folder ← IO.currentDir
  let outcome ← runProgram (environment.map String.toList) ⟨folder.toString.toList⟩
    (arguments.map String.toList)
  IO.print (String.ofList outcome.stdout)
  for notice in outcome.notices do
    IO.eprintln (String.ofList notice.message)
  if outcome.exitCode = 2 then IO.eprint (String.ofList usage)
  return UInt32.ofNat outcome.exitCode
