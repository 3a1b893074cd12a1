/-
  ViewScript/Project/OutputPath.lean
  ==================================
  **Where compiled code goes.**

  Beside its source, or below the output folder at the place that the source has
  below the root of the project.
-/
import ViewScript.Path.Extension
import ViewScript.Project.Error

namespace ViewScript

/-- The extension of compiled files. -/
def outputExtension : Text := "js"

/-- The part of a source's path that is kept below the output folder: what follows
    the root, or else the name of the file, or else all of it. -/
def keptPath (input root : Path) : Path :=
  match input.relativeTo? root with
  | some ⟨c :: cs⟩ => ⟨c :: cs⟩
  | _ =>
    match input.fileName? with
    | some name => ⟨name⟩
    | none => input

/-- Where the code of a source would go. -/
def targetPath (input root : Path) (outDir : Option Path) : Path :=
  Path.withExtension
    (match outDir with
      | some outDir => outDir.join (keptPath input root)
      | none => input)
    outputExtension

/-- Where the code of a source goes; never to the source itself. -/
def outputPath (input root : Path) (outDir : Option Path) : Except Error Path :=
  let target := targetPath input root outDir
  if target.Same input then .error (.outputIsInput target) else .ok target

end ViewScript
