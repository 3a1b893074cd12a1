/-
  ViewScript/Project/Config.lean
  ==============================
  **The configuration of a project.**

  A project is configured by a JSON file.  Every field may be left out and then has
  its default; a field that is not known, or given twice, is an error.  In place of
  an object its fields may be listed in an array, in their order.
-/
import ViewScript.Code.Names
import ViewScript.Host
import ViewScript.Json.Reader
import ViewScript.Path.Extension
import ViewScript.Project.Error

namespace ViewScript

/-- The names of the runtime library that a project sets. -/
structure RuntimeConfig where
  components : Option Text := none
  normalizeChildren : Option Text := none
  merge : Option Text := none
deriving DecidableEq, Repr

/-- The names that generated code refers to. -/
def RuntimeConfig.names (config : RuntimeConfig) : RuntimeNames :=
  let defaults : RuntimeNames := {}
  { components := config.components.getD defaults.components
    normalizeChildren := config.normalizeChildren.getD defaults.normalizeChildren
    merge := config.merge.getD defaults.merge }

structure ProjectConfig where
  runtime : RuntimeConfig := {}
  /-- The extensions of source files, without the dot. -/
  extensions : List Text := ["moon"]
  /-- The folder for compiled files; without it they go beside their sources. -/
  outDir : Option Path := none
deriving DecidableEq, Repr

/-- Whether a file is a source of the project. -/
def ProjectConfig.matchesExtension (config : ProjectConfig) (path : Path) : Bool :=
  path.extension?.any config.extensions.contains

/-! ### Configuration as JSON -/

namespace Json

def text? : Json → Option Text
  | .string text => some text
  | _ => none

/-- A text, or null for none. -/
def optionalText? : Json → Option (Option Text)
  | .null => some none
  | json => json.text?.map some

def texts? : Json → Option (List Text)
  | .array items => items.mapM text?
  | _ => none

/-- The values of known fields: an object may have each field once and no others,
    and an array lists the first of them. -/
def fields? (keys : List Text) : Json → Option (List (Option Json))
  | .object members =>
    if members.all (fun (key, _) => keys.contains key) && (members.map (·.1)).Nodup then
      some (keys.map fun key => members.lookup key)
    else none
  | .array items =>
    if items.length ≤ keys.length then
      some (items.map some ++ List.replicate (keys.length - items.length) none)
    else none
  | _ => none

/-- Decode a field, or take its default if it is left out. -/
def fieldOr {α : Type} (default : α) (decode : Json → Option α) : Option Json → Option α
  | some json => decode json
  | none => some default

end Json

namespace RuntimeConfig

def keys : List Text := ["components", "normalizeChildren", "merge"]

def ofJson? (json : Json) : Option RuntimeConfig := do
  match ← json.fields? keys with
  | [components, normalizeChildren, merge] =>
    return {
      components := ← Json.fieldOr none Json.optionalText? components
      normalizeChildren := ← Json.fieldOr none Json.optionalText? normalizeChildren
      merge := ← Json.fieldOr none Json.optionalText? merge }
  | _ => none

def toJson (config : RuntimeConfig) : Json :=
  .object [("components", .ofOption .string config.components),
    ("normalizeChildren", .ofOption .string config.normalizeChildren),
    ("merge", .ofOption .string config.merge)]

end RuntimeConfig

namespace ProjectConfig

def keys : List Text := ["runtime", "extensions", "outDir"]

def ofJson? (json : Json) : Option ProjectConfig := do
  let defaults : ProjectConfig := {}
  match ← json.fields? keys with
  | [runtime, extensions, outDir] =>
    return {
      runtime := ← Json.fieldOr defaults.runtime RuntimeConfig.ofJson? runtime
      extensions := ← Json.fieldOr defaults.extensions Json.texts? extensions
      outDir := (← Json.fieldOr none Json.optionalText? outDir).map Path.mk }
  | _ => none

def toJson (config : ProjectConfig) : Json :=
  .object [("runtime", config.runtime.toJson),
    ("extensions", .array (config.extensions.map .string)),
    ("outDir", .ofOption (fun path => .string path.text) config.outDir)]

/-- Read the text of a configuration file. -/
def parse? (text : Text) : Option ProjectConfig := (Json.read? text).bind ofJson?

end ProjectConfig

/-! ### Settings of a run -/

/-- The settings that a command is run with. -/
structure Settings where
  cwd : Path
  jsonLogs : Bool := false
  verbosity : Nat := 0
  /-- The configuration file, if it is not the usual one. -/
  configPath : Option Path := none
deriving DecidableEq, Repr

namespace Settings

def toJson (settings : Settings) : Json :=
  .object [("cwd", .string settings.cwd.text), ("json_logs", .bool settings.jsonLogs),
    ("verbosity", .ofNat settings.verbosity),
    ("config_path", .ofOption (fun path => .string path.text) settings.configPath)]

/-- A path as seen from the working folder. -/
def resolve (settings : Settings) (path : Path) : Path :=
  if path.isAbsolute then path else settings.cwd.join path

end Settings

section Loading

variable {m : Type → Type} [Monad m] [Host m]

/-- Do something with files, and say what for if it fails. -/
def attemptFile {α : Type} (wrap : FileError → Error) (action : m (Except FileError α)) :
    ExceptT Error m α :=
  ExceptT.mk (Except.mapError wrap <$> action)

/-- Load a configuration file. -/
def loadConfig (path : Path) : ExceptT Error m ProjectConfig := do
  let bytes ← attemptFile (.configRead path) (Host.readFile path)
  match Utf8.decode? bytes with
  | none => throw (.configRead path .notUtf8)
  | some text =>
    match ProjectConfig.parse? text with
    | none => throw (.configParse path)
    | some config => return config

/-- The name of the usual configuration file. -/
def configFileName : Path := "moon.json"

/-- Load the configuration of a project.  If no file is given and the usual one is
    missing, all fields have their defaults. -/
def Settings.loadProject (settings : Settings) : ExceptT Error m ProjectConfig :=
  match settings.configPath with
  | some path => loadConfig (settings.resolve path)
  | none =>
    tryCatch (loadConfig (settings.cwd.join configFileName)) fun
      | .configRead _ .notFound => return {}
      | error => throw error

end Loading

end ViewScript
