/-
  ViewScript/Path/Extension.lean
  ==============================
  **File names and their extensions.**

  The last component of a path names a file, unless it is `..`.  The extension of a
  name is what follows its last dot; a name that has no dot after its first
  character has none.
-/
import ViewScript.Path.Basic

namespace ViewScript.Path

/-- The name of the file, if the last component is a name. -/
def fileName? (path : Path) : Option Text :=
  match (trimEnd path.split.2).getLast? with
  | some name => if name = ['.', '.'] then none else some name
  | none => none

/-- A name without its extension, and the extension. -/
def splitName (name : Text) : Text × Option Text :=
  let after := (name.reverse.takeWhile (· != '.')).reverse
  match (name.reverse.dropWhile (· != '.')).drop 1 with
  | [] => (name, none)
  | before => (before.reverse, some after)

/-- The extension of the file. -/
def extension? (path : Path) : Option Text := path.fileName?.bind fun name => (splitName name).2

/-- Replace the last component and drop what is written after it. -/
def withFileName (path : Path) (name : Text) : Path :=
  let (anchor, segments) := path.split
  ofSplit anchor ((trimEnd segments).dropLast ++ [name])

/-- Replace the extension of the file.  Of a name like `..x` that ends the path only
    the dots remain: without its extension it is no name any more. -/
def withExtension (path : Path) (extension : Text) : Path :=
  match path.fileName? with
  | none => path
  | some name =>
    let (stem, old) := splitName name
    let endsPath := path.split.2.getLast? == some name
    if stem == ['.'] && endsPath && old.any (· != []) then path.withFileName ['.', '.']
    else path.withFileName (stem ++ '.' :: extension)

end ViewScript.Path
