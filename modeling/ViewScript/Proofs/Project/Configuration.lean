/-
  ViewScript/Proofs/Project/Configuration.lean
  ============================================
  **A configuration is read back from its file.**

  An object *lists* the fields of a configuration if it has each field at most once and no
  other, in any order, and leaves out only such fields as have their defaults.  From an
  object like that the configuration is decoded, because a field is looked up by its key.
  Together with the reader, which reads every spelling of the object, this gives the
  contents of a file back.  The text that is written for a configuration is one such
  spelling.
-/
import Mathlib.Data.List.Forall2
import Mathlib.Data.List.Nodup
import ViewScript.Proofs.Json.Spelling
import ViewScript.Proofs.Project.Replacing
import ViewScript.Text.Utf8.RoundTrip

namespace ViewScript

/-! ### Objects that list fields -/

/-- A field with the values that give it, and the condition on which it may be left out. -/
structure Field where
  key : Text
  Gives : Json → Prop
  isDefault : Prop

namespace Field

/-- The members of an object list the fields. -/
structure AreListed (fields : List Field) (members : List (Text × Json)) : Prop where
  once : (members.map (·.1)).Nodup
  known : ∀ member ∈ members, ∃ field ∈ fields, field.key = member.1 ∧ field.Gives member.2
  left : ∀ field ∈ fields, field.key ∉ members.map (·.1) → field.isDefault

theorem exists_of_forall₂ {fields : List Field} {members : List (Text × Json)}
    (each : List.Forall₂ (fun field member => field.key = member.1 ∧ field.Gives member.2)
      fields members) {member : Text × Json} (isMember : member ∈ members) :
    ∃ field ∈ fields, field.key = member.1 ∧ field.Gives member.2 := by
  induction each with
  | nil => cases isMember
  | @cons field _ _ _ first _ ih =>
    rcases List.mem_cons.mp isMember with rfl | later
    · exact ⟨field, List.mem_cons_self, first⟩
    · obtain ⟨other, isField, gives⟩ := ih later
      exact ⟨other, List.mem_cons_of_mem _ isField, gives⟩

/-- All fields in their order are listed. -/
theorem areListed_of_forall₂ {fields : List Field} {members : List (Text × Json)}
    (distinct : (fields.map (·.key)).Nodup)
    (each : List.Forall₂ (fun field member => field.key = member.1 ∧ field.Gives member.2)
      fields members) : AreListed fields members := by
  have keys : fields.map (·.key) = members.map (·.1) := by
    rw [← List.forall₂_eq_eq_eq, List.forall₂_map_left_iff, List.forall₂_map_right_iff]
    exact each.imp fun _ _ gives => gives.1
  constructor
  · rw [← keys]
    exact distinct
  · intro member isMember
    exact exists_of_forall₂ each isMember
  · intro field isField absent
    rw [← keys] at absent
    exact (absent (List.mem_map_of_mem isField)).elim

/-- What is found for a field: a value that gives it, or nothing if it has its default. -/
def IsFound (field : Field) : Option Json → Prop
  | some json => field.Gives json
  | none => field.isDefault

variable {fields : List Field} {members : List (Text × Json)}

theorem isFound_lookup (distinct : (fields.map (·.key)).Nodup) (listed : AreListed fields members)
    {field : Field} (member : field ∈ fields) : field.IsFound (members.lookup field.key) := by
  cases found : members.lookup field.key with
  | none =>
    apply listed.left field member
    intro inKeys
    obtain ⟨pair, inMembers, isKey⟩ := List.mem_map.mp inKeys
    have absent := List.lookup_eq_none_iff.mp found pair inMembers
    simp [isKey] at absent
  | some json =>
    obtain ⟨front, back, rfl, -⟩ := List.lookup_eq_some_iff.mp found
    obtain ⟨other, isOther, sameKey, gives⟩ := listed.known (field.key, json) (by simp)
    have same : other = field := List.inj_on_of_nodup_map distinct isOther member sameKey
    rw [← same]
    exact gives

/-- The fields are looked up one by one. -/
theorem exists_fields? (distinct : (fields.map (·.key)).Nodup) (listed : AreListed fields members) :
    ∃ values, (Json.object members).fields? (fields.map (·.key)) = some values ∧
      List.Forall₂ IsFound fields values := by
  refine ⟨(fields.map (·.key)).map fun key => members.lookup key, ?_, ?_⟩
  · have known : ∀ key json, (key, json) ∈ members → ∃ field, field ∈ fields ∧ field.key = key := by
      intro key json member
      obtain ⟨field, isField, isKey, -⟩ := listed.known _ member
      exact ⟨field, isField, isKey⟩
    simpa [Json.fields?, listed.once] using known
  · rw [List.map_map, List.forall₂_map_right_iff, List.forall₂_same]
    intro field member
    exact isFound_lookup distinct listed member

/-- Both kinds of configuration have three fields. -/
theorem exists_three {a b c : Field} {members : List (Text × Json)} {keys : List Text}
    (areKeys : keys = [a.key, b.key, c.key]) (distinct : keys.Nodup)
    (listed : AreListed [a, b, c] members) :
    ∃ x y z, (Json.object members).fields? keys = some [x, y, z] ∧
      a.IsFound x ∧ b.IsFound y ∧ c.IsFound z := by
  subst areKeys
  have each : ([a, b, c].map (·.key)).Nodup := distinct
  obtain ⟨values, read, found⟩ := exists_fields? each listed
  cases found with
  | cons isA found =>
    cases found with
    | cons isB found =>
      cases found with
      | cons isC found =>
        cases found
        exact ⟨_, _, _, read, isA, isB, isC⟩

/-- A field is decoded from what is found for it. -/
theorem fieldOr_of_isFound {α : Type} {field : Field} {value : Option Json} {default result : α}
    {decode : Json → Option α} (found : field.IsFound value)
    (decodes : ∀ json, field.Gives json → decode json = some result)
    (left : field.isDefault → result = default) :
    Json.fieldOr default decode value = some result := by
  cases value with
  | none => rw [left found]; rfl
  | some json => exact decodes json found

end Field

/-! ### The fields of a configuration -/

/-- A text that may be absent, under a key. -/
def Field.optionalText (key : Text) (text : Option Text) : Field where
  key := key
  Gives json := json = .ofOption .string text
  isDefault := text = none

namespace RuntimeConfig

def fields (config : RuntimeConfig) : List Field :=
  [.optionalText "components" config.components,
    .optionalText "normalizeChildren" config.normalizeChildren,
    .optionalText "merge" config.merge]

/-- The object lists the fields of the configuration. -/
def IsGivenBy (config : RuntimeConfig) (json : Json) : Prop :=
  ∃ members, json = .object members ∧ Field.AreListed config.fields members

end RuntimeConfig

namespace ProjectConfig

def fields (config : ProjectConfig) : List Field :=
  [{ key := "runtime", Gives := config.runtime.IsGivenBy, isDefault := config.runtime = {} },
    { key := "extensions"
      Gives := fun json => json = .array (config.extensions.map .string)
      isDefault := config.extensions = ["moon".toList] },
    .optionalText "outDir" (config.outDir.map Path.text)]

/-- The object lists the fields of the configuration, and so does the object for the names
    of the runtime library. -/
def IsGivenBy (config : ProjectConfig) (json : Json) : Prop :=
  ∃ members, json = .object members ∧ Field.AreListed config.fields members

end ProjectConfig

/-! ### Decoding -/

theorem Json.optionalText?_ofOption (text : Option Text) :
    Json.optionalText? (.ofOption .string text) = some text := by
  cases text <;> rfl

theorem Json.texts?_map_string (texts : List Text) :
    Json.texts? (.array (texts.map .string)) = some texts := by
  show List.mapM text? (texts.map .string) = some texts
  induction texts with
  | nil => rfl
  | cons text texts ih =>
    rw [List.map_cons, List.mapM_cons, ih]
    rfl

theorem Field.fieldOr_optionalText {key : Text} {text : Option Text} {value : Option Json}
    (found : (Field.optionalText key text).IsFound value) :
    Json.fieldOr none Json.optionalText? value = some text := by
  apply fieldOr_of_isFound found
  · rintro _ rfl
    exact Json.optionalText?_ofOption text
  · exact id

theorem RuntimeConfig.ofJson?_of_isGivenBy {config : RuntimeConfig} {json : Json}
    (given : config.IsGivenBy json) : RuntimeConfig.ofJson? json = some config := by
  obtain ⟨members, rfl, listed⟩ := given
  obtain ⟨components, normalizeChildren, merge, read, isComponents, isNormalizeChildren, isMerge⟩ :=
    Field.exists_three (show keys = _ from rfl) (by decide) listed
  simp only [ofJson?, read, Option.bind_eq_bind, Option.bind_some,
    Field.fieldOr_optionalText isComponents, Field.fieldOr_optionalText isNormalizeChildren,
    Field.fieldOr_optionalText isMerge, Option.pure_def]

theorem ProjectConfig.ofJson?_of_isGivenBy {config : ProjectConfig} {json : Json}
    (given : config.IsGivenBy json) : ProjectConfig.ofJson? json = some config := by
  obtain ⟨members, rfl, listed⟩ := given
  obtain ⟨runtime, extensions, outDir, read, isRuntime, isExtensions, isOutDir⟩ :=
    Field.exists_three (show keys = _ from rfl) (by decide) listed
  have runtimeRead : Json.fieldOr {} RuntimeConfig.ofJson? runtime = some config.runtime :=
    Field.fieldOr_of_isFound isRuntime (fun _ => RuntimeConfig.ofJson?_of_isGivenBy) id
  have extensionsRead : Json.fieldOr ["moon".toList] Json.texts? extensions =
      some config.extensions := by
    apply Field.fieldOr_of_isFound isExtensions
    · rintro _ rfl
      exact Json.texts?_map_string config.extensions
    · exact id
  have path : (config.outDir.map Path.text).map Path.mk = config.outDir := by
    rw [Option.map_map]
    exact congrFun Option.map_id config.outDir
  simp only [ofJson?, read, Option.bind_eq_bind, Option.bind_some, runtimeRead, extensionsRead,
    Field.fieldOr_optionalText isOutDir, Option.pure_def, path]

/-! ### Loading -/

/-- A file that holds a document is loaded as the configuration that the document gives. -/
theorem run_loadConfig {machine : Machine} {path : Path} {text : Text} {json : Json}
    {config : ProjectConfig} (file : machine.disk.readFile path = .ok (Utf8.encode text))
    (spells : Json.Spells (.element json) text) (given : config.IsGivenBy json) :
    (loadConfig path : ExceptT Error (StateM Machine) ProjectConfig).run machine =
      (.ok config, machine) := by
  have bytes : (attemptFile (.configRead path) (Host.readFile path) :
      ExceptT Error (StateM Machine) Bytes).run machine =
        ((machine.disk.readFile path).mapError (.configRead path), machine) := rfl
  have parsed : ProjectConfig.parse? text = some config := by
    rw [ProjectConfig.parse?, Json.read?_of_spells spells, Option.bind_some]
    exact ProjectConfig.ofJson?_of_isGivenBy given
  rw [loadConfig, run_bind, bytes, file]
  simp only [Except.mapError, Utf8.decode?_encode, parsed]
  rfl

/-! ### What is written for a configuration -/

theorem RuntimeConfig.isGivenBy_toJson (config : RuntimeConfig) :
    config.IsGivenBy config.toJson := by
  refine ⟨_, rfl, Field.areListed_of_forall₂ (show keys.Nodup by decide) ?_⟩
  exact .cons ⟨rfl, rfl⟩ (.cons ⟨rfl, rfl⟩ (.cons ⟨rfl, rfl⟩ .nil))

theorem Json.ofOption_map {α β : Type} (encode : β → Json) (f : α → β) (value : Option α) :
    Json.ofOption (fun a => encode (f a)) value = .ofOption encode (value.map f) := by
  cases value <;> rfl

theorem ProjectConfig.isGivenBy_toJson (config : ProjectConfig) :
    config.IsGivenBy config.toJson := by
  refine ⟨_, rfl, Field.areListed_of_forall₂ (show keys.Nodup by decide) ?_⟩
  have outDir := Json.ofOption_map .string Path.text config.outDir
  exact .cons ⟨rfl, config.runtime.isGivenBy_toJson⟩
    (.cons ⟨rfl, rfl⟩ (.cons ⟨rfl, outDir⟩ .nil))

theorem Json.spells_ofOption (text : Option Text) (level : Nat) :
    Spells (.value (.ofOption .string text)) ((Json.ofOption .string text).writeAt level) := by
  cases text with
  | none => exact .null
  | some text => exact spells_string text level

theorem RuntimeConfig.spells_toJson (config : RuntimeConfig) (level : Nat) :
    Json.Spells (.value config.toJson) (config.toJson.writeAt level) := by
  apply Json.spells_object
  simp only [List.forall_mem_cons]
  exact ⟨Json.spells_ofOption .., Json.spells_ofOption .., Json.spells_ofOption ..,
    List.forall_mem_nil _⟩

/-- The text that is written for a configuration is a spelling of its object. -/
theorem ProjectConfig.spells_toJson (config : ProjectConfig) :
    Json.Spells (.element config.toJson) config.toJson.write := by
  have value : Json.Spells (.value config.toJson) (config.toJson.writeAt 0) := by
    apply Json.spells_object
    simp only [List.forall_mem_cons]
    refine ⟨config.runtime.spells_toJson 1, ?_, ?_, List.forall_mem_nil _⟩
    · apply Json.spells_array
      intro item member
      obtain ⟨text, -, rfl⟩ := List.mem_map.mp member
      exact Json.spells_string text 2
    · rw [Json.ofOption_map .string Path.text]
      exact Json.spells_ofOption _ 1
  have whole := Json.Spells.element Json.isSpace_nil value Json.isSpace_nil
  rwa [List.nil_append, List.append_nil] at whole

/-- **A configuration survives its file.**  It is loaded from the text that is written for
    it, and from every spelling of every object that lists its fields. -/
theorem loadConfig_written (config : ProjectConfig) (path : Path) (machine : Machine) :
    let load : ExceptT Error (StateM Machine) ProjectConfig := loadConfig path
    (machine.disk.readFile path = .ok (Utf8.encode config.toJson.write) →
      load.run machine = (.ok config, machine)) ∧
    ∀ json text, config.IsGivenBy json → Json.Spells (.element json) text →
      machine.disk.readFile path = .ok (Utf8.encode text) →
        load.run machine = (.ok config, machine) := by
  constructor
  · intro file
    exact run_loadConfig file config.spells_toJson config.isGivenBy_toJson
  · intro json text given spells file
    exact run_loadConfig file spells given

/-- A document with the fields in another order, white space, escapes, and one name for the
    runtime library. -/
def spacedDocument : Text :=
  "\x7b \"outDir\":\"\\uD83c\\udF19/λ\" ,\n\t\"runtime\" : \x7b\"merge\":\"\\\"\"\x7d\x7d\r\n"

def spacedConfig : ProjectConfig where
  runtime := { merge := some ['"'] }
  outDir := some ⟨['🌙', '/', 'λ']⟩

def spacedMembers : List (Text × Json) :=
  [("outDir", .string ['🌙', '/', 'λ']), ("runtime", .object [("merge", .string ['"'])])]

theorem spells_spacedDocument : Json.Spells (.element (.object spacedMembers)) spacedDocument := by
  have space (text : Text) (isSpace : text.all Json.isSpace = true) : Json.IsSpace text :=
    List.all_eq_true.mp isSpace
  have firstHalf : Json.SpellsUnit 0xD83C ['D', '8', '3', 'c'] :=
    .digits (w := 13) (x := 8) (y := 3) (z := 12) (by decide) (by decide) (by decide) (by decide)
  have secondHalf : Json.SpellsUnit 0xDF19 ['d', 'F', '1', '9'] :=
    .digits (w := 13) (x := 15) (y := 1) (z := 9) (by decide) (by decide) (by decide) (by decide)
  have moon : Json.SpellsChar '🌙' _ :=
    .pair firstHalf secondHalf (by decide) (by decide) (by decide) (by decide) (by decide)
  have outDir := Json.Spells.member (space [' '] rfl)
    (Json.spellsText_flatMap_escapeChar "outDir") (space [] rfl)
    (.element (space [] rfl) (.string (.cons moon (Json.spellsText_flatMap_escapeChar ['/', 'λ'])))
      (space [' '] rfl))
  have merge := Json.Spells.member (space [] rfl) (Json.spellsText_flatMap_escapeChar "merge")
    (space [] rfl) (.element (space [] rfl) (Json.spells_string ['"'] 0) (space [] rfl))
  have runtime := Json.Spells.member (space ['\n', '\t'] rfl)
    (Json.spellsText_flatMap_escapeChar "runtime") (space [' '] rfl)
    (.element (space [' '] rfl) (.object (.lastMember merge)) (space [] rfl))
  have whole := Json.Spells.element (space [] rfl)
    (.object (.nextMember outDir (.lastMember runtime))) (space ['\r', '\n'] rfl)
  refine Eq.mp (congrArg (Json.Spells (.element (.object spacedMembers))) ?_) whole
  decide +kernel

theorem isGivenBy_spacedMembers : spacedConfig.IsGivenBy (.object spacedMembers) := by
  have runtime : spacedConfig.runtime.IsGivenBy (.object [("merge", .string ['"'])]) := by
    refine ⟨_, rfl, List.nodup_singleton _, ?_, ?_⟩
    · rw [List.forall_mem_singleton]
      exact ⟨.optionalText "merge" (some ['"']), by simp [RuntimeConfig.fields, spacedConfig],
        rfl, rfl⟩
    · simp only [RuntimeConfig.fields, List.forall_mem_cons]
      exact ⟨fun _ => rfl, fun _ => rfl, fun absent => (absent List.mem_cons_self).elim,
        List.forall_mem_nil _⟩
  refine ⟨_, rfl, by decide +kernel, ?_, ?_⟩
  · simp only [spacedMembers, List.forall_mem_cons]
    exact ⟨⟨.optionalText "outDir" (some ['🌙', '/', 'λ']),
        by simp [ProjectConfig.fields, spacedConfig], rfl, rfl⟩,
      ⟨_, List.mem_cons_self, rfl, runtime⟩, List.forall_mem_nil _⟩
  · simp only [ProjectConfig.fields, List.forall_mem_cons]
    exact ⟨fun absent => (absent (by simp [spacedMembers])).elim, fun _ => rfl,
      fun absent => (absent List.mem_cons_self).elim, List.forall_mem_nil _⟩

/-- A folder with a configuration file. -/
def configuredProject (text : Text) : Machine where
  disk := {
    root := .folder [("moon.json", .file (Utf8.encode text))]
    workingFolder := [] }
  input := []
  processId := 7

theorem loadConfig_written_spaced :
    (loadConfig "moon.json" : ExceptT Error (StateM Machine) ProjectConfig).run
        (configuredProject spacedConfig.toJson.write) =
      (.ok spacedConfig, configuredProject spacedConfig.toJson.write) ∧
    (loadConfig "moon.json" : ExceptT Error (StateM Machine) ProjectConfig).run
        (configuredProject spacedDocument) =
      (.ok spacedConfig, configuredProject spacedDocument) := by
  have file (text : Text) :
      (configuredProject text).disk.readFile "moon.json" = .ok (Utf8.encode text) := rfl
  constructor
  · exact (loadConfig_written spacedConfig "moon.json" _).1 (file _)
  · exact (loadConfig_written spacedConfig "moon.json" _).2 _ _ isGivenBy_spacedMembers
      spells_spacedDocument (file _)

end ViewScript
