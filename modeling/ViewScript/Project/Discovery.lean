/-
  ViewScript/Project/Discovery.lean
  =================================
  **Finding the sources of a project.**

  All files below a folder are sources that have one of the project's extensions.
  Folders of installed packages and hidden folders are passed over; the folder one
  starts from is not, whatever its name.  Folders are read by their paths, so the
  search fails if it comes to one whose path is too long.
-/
import ViewScript.Project.Config

namespace ViewScript

/-- Whether a folder is passed over. -/
def isSkippedFolder (name : Text) : Bool :=
  name == "node_modules".toList || name.head? == some '.'

mutual

/-- The files at and below a path that pass a test, or a folder that cannot be read. -/
def filesAt (test : Path → Bool) (path : Path) : Shape → Except Path (List Path)
  | .file => .ok (if test path then [path] else [])
  | .folder entries => if path.isTooLong then .error path else filesBelow test path entries

/-- The files in the entries of a folder that pass a test. -/
def filesBelow (test : Path → Bool) (folder : Path) :
    List (Text × Shape) → Except Path (List Path)
  | [] => .ok []
  | (name, shape) :: entries => do
    let first ← if shape.isFolder && isSkippedFolder name then .ok []
      else filesAt test (folder.join ⟨name⟩) shape
    return first ++ (← filesBelow test folder entries)

end

/-- The sources of a project at and below a path, in the order of their paths. -/
def sourcesAt (config : ProjectConfig) (root : Path) (shape : Shape) : Except Error (List Path) :=
  match filesAt config.matchesExtension root shape with
  | .ok files => .ok (files.mergeSort Path.atMost)
  | .error folder => .error (.walk root folder .nameTooLong)

/-- Find the sources of a project. -/
def discover {m : Type → Type} [Monad m] [Host m] (config : ProjectConfig) (root : Path) :
    ExceptT Error m (List Path) := do
  let enter name := !isSkippedFolder name
  let shape ← attemptFile (.walk root root) (Host.readShape enter root)
  ExceptT.mk (pure (sourcesAt config root shape))

end ViewScript
