/-
  ViewScript/Host.lean
  ====================
  **What a command asks of the machine it runs on.**

  Commands are written once, for every monad that can do what a host does.  A real
  machine is one host; `Machine`, which holds a disk and the input as values, is
  another, and the one to reason about.

  Two things are left to the host altogether: how work is shared out among workers that
  run side by side, and whether a notice can be drawn.
-/
import ViewScript.Disk.Basic
import ViewScript.Project.Error

namespace ViewScript

/-- How work is shared out among workers, and how they take turns. -/
structure Schedule where
  /-- How much the first workers get, in the order of the work.  What is left over is
      shared out one by one. -/
  shares : List Nat := []
  /-- Who takes the next step.  When this list is at its end, the workers finish one
      after the other. -/
  turns : List Nat := []
deriving DecidableEq, Repr

namespace Schedule

/-- One thing after the other. -/
def inOrder : Schedule := {}

/-- Share out work. -/
def deal {α : Type} : List Nat → List α → List (List α)
  | [], items => items.map ([·])
  | share :: shares, items => items.take share :: deal shares (items.drop share)

end Schedule

/-- What a command can ask for. -/
inductive Request where
  | readFile (path : Path)
  /-- The tree of files and folders at a path.  A folder below it that is not to be
      entered may be shown without its entries. -/
  | readShape (enter : Text → Bool) (path : Path)
  /-- Make a folder and the folders above it. -/
  | makeFolders (path : Path)
  | createFile (path : Path) (contents : Bytes)
  | renameFile (old new : Path)
  | removeFile (path : Path)
  /-- What is left of the standard input, all at once. -/
  | readInput
  /-- A number that no other running process has. -/
  | processId
  | schedule
  /-- Draw a notice on the error output, and tell whether that went well. -/
  | draw (notice : Notice)

/-- What is answered to a request. -/
def Request.Reply : Request → Type
  | .readFile _ => Except FileError Bytes
  | .readShape _ _ => Except FileError Shape
  | .makeFolders _ | .createFile _ _ | .renameFile _ _ | .removeFile _ => Except FileError Unit
  | .readInput => Bytes
  | .processId => Nat
  | .schedule => Schedule
  | .draw _ => Bool

/-- Something that answers requests. -/
class Host (m : Type → Type) where
  answer : (request : Request) → m request.Reply

namespace Host

variable {m : Type → Type} [Host m]

def readFile (path : Path) : m (Except FileError Bytes) := answer (.readFile path)

def readShape (enter : Text → Bool) (path : Path) : m (Except FileError Shape) :=
  answer (.readShape enter path)

def makeFolders (path : Path) : m (Except FileError Unit) := answer (.makeFolders path)

def createFile (path : Path) (contents : Bytes) : m (Except FileError Unit) :=
  answer (.createFile path contents)

def renameFile (old new : Path) : m (Except FileError Unit) := answer (.renameFile old new)

def removeFile (path : Path) : m (Except FileError Unit) := answer (.removeFile path)

def readInput : m Bytes := answer .readInput

def processId : m Nat := answer .processId

def schedule : m Schedule := answer .schedule

def draw (notice : Notice) : m Bool := answer (.draw notice)

end Host

/-- A machine as a value. -/
structure Machine where
  disk : Disk
  input : Bytes
  processId : Nat
  schedule : Schedule := .inOrder
  /-- The notices that can be drawn. -/
  draws : Notice → Bool := fun _ => true

namespace Machine

/-- Ask something of the disk. -/
def ask {α : Type} (question : Disk → Except FileError α) : StateM Machine (Except FileError α) :=
  fun machine => (question machine.disk, machine)

/-- Do something to the disk; if that fails the disk stays as it is. -/
def act (action : Disk → Except FileError Disk) : StateM Machine (Except FileError Unit) :=
  fun machine =>
    match action machine.disk with
    | .ok disk => (.ok (), { machine with disk })
    | .error error => (.error error, machine)

end Machine

instance : Host (StateM Machine) where
  answer
    | .readFile path => Machine.ask (·.readFile path)
    | .readShape _ path => Machine.ask fun disk => (disk.find path).map Entry.shape
    | .makeFolders path => fun machine =>
      let (result, disk) := machine.disk.makeFolders path
      (result, { machine with disk })
    | .createFile path contents => Machine.act (·.createFile path contents)
    | .renameFile old new => Machine.act (·.renameFile old new)
    | .removeFile path => Machine.act (·.removeFile path)
    | .readInput => fun machine => (machine.input, { machine with input := [] })
    | .processId => fun machine => (machine.processId, machine)
    | .schedule => fun machine => (machine.schedule, machine)
    | .draw notice => fun machine => (machine.draws notice, machine)

end ViewScript
