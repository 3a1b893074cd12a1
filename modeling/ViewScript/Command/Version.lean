/-
  ViewScript/Command/Version.lean
  ===============================
  **Version information.**
-/
import ViewScript.Json.Basic

namespace ViewScript

/-- The version of the form of all JSON documents that are printed. -/
def schemaVersion : Nat := 1

structure VersionInfo where
  name : Text := "moonc"
  version : Text := "0.2.0"
  /-- The revision that the program was built from, if the build told it. -/
  gitHash : Option Text := none
deriving DecidableEq, Repr

namespace VersionInfo

def toJson (info : VersionInfo) : Json :=
  .object ([
    Json.member "schema_version" (.ofNat schemaVersion),
    Json.member "name" (.string info.name),
    Json.member "version" (.string info.version)] ++
      Json.optionalMember "git_hash" .string info.gitHash)

/-- The version in one line. -/
def display (info : VersionInfo) : Text :=
  info.name ++ " " ++ info.version ++
    match info.gitHash with
    | some hash => " (" ++ hash ++ ")"
    | none => []

end VersionInfo

end ViewScript
