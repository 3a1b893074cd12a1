/-
  ViewScript/Disk/Basic.lean
  ==========================
  **A disk, and what can be done with it.**

  A path is followed segment by segment.  Each step needs a folder to step from, and
  `..` steps to the folder above the one that was reached.  So `a/../b` needs `a` to
  be there, and a trailing slash needs a folder before it.  Names and whole paths have
  a limit, and a name beyond it is found out when a folder is asked for it.

  An operation that fails leaves the disk as it was.  The one exception is
  `makeFolders`, which may have made some of the folders.
-/
import ViewScript.Disk.Entry
import ViewScript.Path.Basic

namespace ViewScript

/-- Why an operation on files failed. -/
inductive FileError where
  | notFound
  | alreadyExists
  | notFolder
  | isFolder
  | busy
  | nameTooLong
  | nulInName
  | notUtf8
  | other (message : Text)
deriving DecidableEq, Repr

/-- The words of the operating system for an error. -/
def FileError.message : FileError → Text
  | .notFound => "No such file or directory (os error 2)"
  | .alreadyExists => "File exists (os error 17)"
  | .notFolder => "Not a directory (os error 20)"
  | .isFolder => "Is a directory (os error 21)"
  | .busy => "Device or resource busy (os error 16)"
  | .nameTooLong => "File name too long (os error 36)"
  | .nulInName => "file name contained an unexpected NUL byte"
  | .notUtf8 => "stream did not contain valid UTF-8"
  | .other message => message

/-- All files and folders, and the folder that relative paths start from. -/
structure Disk where
  root : Entry
  workingFolder : Location
deriving Repr

namespace Disk

/-! ### Following paths -/

/-- The location after one more segment. -/
def step (location : Location) (segment : Text) : Location :=
  if Path.isVoid segment then location
  else if segment = ['.', '.'] then location.dropLast
  else location ++ [segment]

/-- The most bytes that a name can have. -/
def nameLimit : Nat := 255

/-- Follow segments.  What they lead to need not be there. -/
def follow (disk : Disk) : Location → List Text → Except FileError Location
  | location, [] => .ok location
  | location, segment :: segments =>
    match disk.root.get? location with
    | some (.folder _) =>
      if nameLimit < segment.byteSize then .error .nameTooLong
      else follow disk (step location segment) segments
    | some (.file _) => .error .notFolder
    | none => .error .notFound

/-- Where a path starts. -/
def start (disk : Disk) (path : Path) : Location :=
  if path.isAbsolute then [] else disk.workingFolder

/-- No path is empty, is too long or holds the character NUL. -/
def checkPath (path : Path) : Except FileError Unit :=
  if path.text.contains '\x00' then .error .nulInName
  else if path.isTooLong then .error .nameTooLong
  else if path.text = [] then .error .notFound
  else .ok ()

/-- The location that a path leads to. -/
def locate (disk : Disk) (path : Path) : Except FileError Location := do
  checkPath path
  disk.follow (disk.start path) (Path.cutAtSlashes path.text)

/-- What a path leads to. -/
def find (disk : Disk) (path : Path) : Except FileError Entry := do
  match disk.root.get? (← disk.locate path) with
  | some entry => .ok entry
  | none => .error .notFound

/-- Whether a path leads to a folder. -/
def isFolder (disk : Disk) (path : Path) : Bool :=
  match disk.find path with
  | .ok entry => entry.isFolder
  | .error _ => false

/-- What a path is about that need not lead anywhere yet. -/
inductive Target where
  /-- A name in a folder that is there. -/
  | named (folder : Location) (name : Text)
  /-- A path that ends in a dot or two, or leads to the top. -/
  | unnamed

/-- The target of a path; its folder has to be there. -/
def target (disk : Disk) (path : Path) : Except FileError Target := do
  checkPath path
  let segments := ((Path.cutAtSlashes path.text).reverse.dropWhile (· == [])).reverse
  match segments.getLast? with
  | none => .ok .unnamed
  | some last =>
    let folder ← disk.follow (disk.start path) segments.dropLast
    match disk.root.get? folder with
    | some (.folder _) =>
      if last = ['.'] ∨ last = ['.', '.'] then .ok .unnamed else .ok (.named folder last)
    | some (.file _) => .error .notFolder
    | none => .error .notFound

/-- What a folder has under a name. -/
def inFolder (disk : Disk) (folder : Location) (name : Text) : Except FileError (Option Entry) :=
  if nameLimit < name.byteSize then .error .nameTooLong
  else .ok (disk.root.get? (folder ++ [name]))

/-- Whether a path is written with a slash at its end. -/
def hasTrailingSlash (path : Path) : Bool := path.text.getLast? == some '/'

/-! ### Operations -/

/-- The contents of a file. -/
def readFile (disk : Disk) (path : Path) : Except FileError Bytes := do
  match ← disk.find path with
  | .file contents => .ok contents
  | .folder _ => .error .isFolder

/-- Change what stands at a location. -/
def alter (disk : Disk) (location : Location) (change : Option Entry) : Disk :=
  { disk with root := disk.root.alter change location }

/-- Make a folder in a folder that is there. -/
def makeFolder (disk : Disk) (path : Path) : Except FileError Disk := do
  match ← disk.target path with
  | .unnamed => .error .alreadyExists
  | .named folder name =>
    match ← disk.inFolder folder name with
    | some _ => .error .alreadyExists
    | none => .ok (disk.alter (folder ++ [name]) (some (.folder [])))

/-- Make the first of the given paths a folder; the others are its ancestors, from
    the nearest to the farthest, and are made where they are missing. -/
def makeFolderChain (disk : Disk) : List Path → Except FileError Unit × Disk
  | [] => (.ok (), disk)
  | path :: ancestors =>
    match disk.makeFolder path with
    | .ok disk => (.ok (), disk)
    | .error .notFound =>
      match makeFolderChain disk ancestors with
      | (.error error, disk) => (.error error, disk)
      | (.ok (), disk) =>
        match disk.makeFolder path with
        | .ok disk => (.ok (), disk)
        | .error error => (if disk.isFolder path then .ok () else .error error, disk)
    | .error error => (if disk.isFolder path then .ok () else .error error, disk)

/-- Make a folder and the folders above it, where they are missing. -/
def makeFolders (disk : Disk) (path : Path) : Except FileError Unit × Disk :=
  disk.makeFolderChain (path.ancestors.filter (·.text != []))

/-- Write a file, whether it is there or not. -/
def createFile (disk : Disk) (path : Path) (contents : Bytes) : Except FileError Disk := do
  match ← disk.target path with
  | .unnamed => .error .isFolder
  | .named folder name =>
    if hasTrailingSlash path then .error .isFolder
    else match ← disk.inFolder folder name with
      | some (.folder _) => .error .isFolder
      | _ => .ok (disk.alter (folder ++ [name]) (some (.file contents)))

/-- Take a file away. -/
def removeFile (disk : Disk) (path : Path) : Except FileError Disk := do
  let location ← disk.locate path
  match disk.root.get? location with
  | some (.file _) => .ok (disk.alter location none)
  | some (.folder _) => .error .isFolder
  | none => .error .notFound

/-- Move a file to a place where there is nothing or another file. -/
def renameFile (disk : Disk) (old new : Path) : Except FileError Disk := do
  let source ← disk.locate old
  let target ← disk.target new
  match target with
  | .unnamed => .error .busy
  | .named folder name =>
    match disk.root.get? source with
    | none => .error .notFound
    | some (.folder _) => .error .isFolder
    | some (.file contents) =>
      let old ← disk.inFolder folder name
      if hasTrailingSlash new then .error .notFolder
      else match old with
        | some (.folder _) => .error .isFolder
        | _ => .ok ((disk.alter source none).alter (folder ++ [name]) (some (.file contents)))

end Disk

end ViewScript
