/-
  ViewScript/Proofs/Code/Merging.lean
  ===================================
  **Attributes as the arguments of one merge.**

  Every attribute is read as an entry, as a spread, or as nothing.  What is read keeps its order:
  without a spread the entries stand in one row, and with one they are cut at the spreads into
  object literals, none of them empty and no two of them neighbours.

  For the meaning of such code an object is a function from keys to values.  A literal sets its
  entries from left to right and a merge lays its arguments over each other from left to right.
  Then the code means what the attributes mean one after the other.
-/
import Mathlib.Data.List.Chain
import Mathlib.Data.List.Forall2
import Mathlib.Data.List.ReduceOption
import ViewScript.Code.Basic

namespace ViewScript

/-! ### What an attribute is read as -/

namespace Attribute

/-- The source of a spread: the rest of the name, or else the value. -/
inductive SpreadsFrom (item : Attribute Rendered) : Text → Prop
  | name {rest : Text} (dots : item.propertyName = "..." ++ rest) (more : rest ≠ []) :
    SpreadsFrom item rest
  | value {value : Rendered} (dots : item.propertyName = "...") (given : item.value = some value) :
    SpreadsFrom item value.bare
  | nothing (dots : item.propertyName = "...") (absent : item.value = none) :
    SpreadsFrom item []

/-- What an attribute is read as.  A name alone has the value `true`, and a spread of blanks is
    nothing. -/
inductive ReadsAs (item : Attribute Rendered) : Option Property → Prop
  | entry (plain : ¬ ("..." : Text) <+: item.propertyName) :
    ReadsAs item (some (.entry item.propertyName (item.value.elim "true" Rendered.valueCode)))
  | spread {source : Text} (origin : item.SpreadsFrom source) (solid : ¬ source.isBlank) :
    ReadsAs item (some (.spread source))
  | dropped {source : Text} (origin : item.SpreadsFrom source) (blank : source.isBlank) :
    ReadsAs item none

theorem spreadRest?_eq_some_iff {name rest : Text} :
    spreadRest? name = some rest ↔ name = "..." ++ rest := by
  rw [spreadRest?, List.isPrefixOf?_eq_some_iff_append_eq, eq_comm]
  rfl

/-- A name without the dots makes an entry. -/
theorem property?_of_plain {item : Attribute Rendered}
    (plain : ¬ ("..." : Text) <+: item.propertyName) :
    item.property? =
      some (.entry item.propertyName (item.value.elim "true" Rendered.valueCode)) := by
  have none : spreadRest? item.propertyName = none := by
    refine Option.eq_none_iff_forall_ne_some.mpr fun rest found => plain ?_
    rw [spreadRest?_eq_some_iff.mp found]
    exact List.prefix_append _ rest
  rw [property?, none]
  rcases item.value with _ | value <;> rfl

/-- A spread with a source is that spread, unless the source is blank. -/
theorem property?_of_spreadsFrom {item : Attribute Rendered} {source : Text}
    (origin : item.SpreadsFrom source) :
    item.property? = if source.isBlank then none else some (.spread source) := by
  rcases origin with ⟨dots, more⟩ | ⟨dots, given⟩ | ⟨dots, absent⟩
  · simp [property?, spreadRest?_eq_some_iff.mpr dots, more]
  · have bare : spreadRest? item.propertyName = some [] := spreadRest?_eq_some_iff.mpr dots
    simp [property?, bare, given]
  · have bare : spreadRest? item.propertyName = some [] := spreadRest?_eq_some_iff.mpr dots
    simp [property?, bare, absent]

/-- The library reads each attribute that way, and there is one way to read it. -/
theorem readsAs_iff {item : Attribute Rendered} {reading : Option Property} :
    item.ReadsAs reading ↔ item.property? = reading := by
  constructor
  · rintro (plain | ⟨origin, solid⟩ | ⟨origin, blank⟩)
    · exact property?_of_plain plain
    · rw [property?_of_spreadsFrom origin, if_neg solid]
    · rw [property?_of_spreadsFrom origin, if_pos blank]
  · rintro rfl
    by_cases dotted : ("..." : Text) <+: item.propertyName
    · obtain ⟨source, origin⟩ : ∃ source, item.SpreadsFrom source := by
        obtain ⟨rest, dots⟩ := dotted
        rcases rest with _ | ⟨c, rest⟩
        · rcases absent : item.value with _ | value
          · exact ⟨[], .nothing dots.symm absent⟩
          · exact ⟨value.bare, .value dots.symm absent⟩
        · exact ⟨c :: rest, .name dots.symm (List.cons_ne_nil c rest)⟩
      rw [property?_of_spreadsFrom origin]
      by_cases blank : source.isBlank
      · rw [if_pos blank]
        exact .dropped origin blank
      · rw [if_neg blank]
        exact .spread origin blank
    · rw [property?_of_plain dotted]
      exact .entry dotted

end Attribute

/-! ### Arguments of a merge -/

/-- An entry of an object literal. -/
def Property.ofEntry (entry : Text × Text) : Property := .entry entry.1 entry.2

/-- An argument of a merge: an object literal or the source of a spread. -/
inductive MergeArgument where
  | literal (entries : List (Text × Text))
  | spread (source : Text)
deriving DecidableEq, Repr

namespace MergeArgument

def isLiteral : MergeArgument → Bool
  | .literal _ => true
  | .spread _ => false

def code : MergeArgument → Text
  | .literal entries => objectLiteral (entries.map fun entry => (Property.ofEntry entry).code)
  | .spread source => source

/-- What an argument stands for, one by one. -/
def properties : MergeArgument → List Property
  | .literal entries => entries.map Property.ofEntry
  | .spread source => [.spread source]

/-- The literal for entries that wait, if there are any. -/
def flush : List (Text × Text) → List MergeArgument
  | [] => []
  | entries => [.literal entries]

/-- Properties cut at their spreads; `waiting` holds the entries since the last one. -/
def ofProperties (waiting : List (Text × Text)) : List Property → List MergeArgument
  | [] => flush waiting
  | .entry name value :: properties => ofProperties (waiting ++ [(name, value)]) properties
  | .spread source :: properties => flush waiting ++ .spread source :: ofProperties [] properties

theorem code_flush (waiting : List (Text × Text)) :
    (flush waiting).map code =
      flushEntries (waiting.map fun entry => (Property.ofEntry entry).code) := by
  cases waiting <;> rfl

theorem properties_flush (waiting : List (Text × Text)) :
    (flush waiting).flatMap properties = waiting.map Property.ofEntry := by
  cases waiting <;> simp [flush, properties]

/-- The arguments that are written are the codes of these. -/
theorem code_ofProperties (waiting : List (Text × Text)) (list : List Property) :
    (ofProperties waiting list).map code =
      mergeArguments (waiting.map fun entry => (Property.ofEntry entry).code) list := by
  fun_induction ofProperties waiting list with
  | case1 waiting => exact code_flush waiting
  | case2 waiting name value list ih => rw [ih, mergeArguments, List.map_append]; rfl
  | case3 waiting source list ih =>
    rw [List.map_append, List.map_cons, ih, code_flush]
    rfl

/-- Nothing is lost, repeated or moved. -/
theorem properties_ofProperties (waiting : List (Text × Text)) (list : List Property) :
    (ofProperties waiting list).flatMap properties = waiting.map Property.ofEntry ++ list := by
  fun_induction ofProperties waiting list with
  | case1 waiting => rw [properties_flush, List.append_nil]
  | case2 waiting name value list ih =>
    rw [ih, List.map_append, List.append_assoc]
    rfl
  | case3 waiting source list ih =>
    rw [List.flatMap_append, List.flatMap_cons, ih, properties_flush]
    rfl

theorem literal_nil_not_mem_flush (waiting : List (Text × Text)) :
    .literal [] ∉ flush waiting := by
  cases waiting <;> simp [flush]

theorem literal_nil_not_mem_ofProperties (waiting : List (Text × Text)) (list : List Property) :
    .literal [] ∉ ofProperties waiting list := by
  fun_induction ofProperties waiting list with
  | case1 waiting => exact literal_nil_not_mem_flush waiting
  | case2 waiting name value list ih => exact ih
  | case3 waiting source list ih => simp [literal_nil_not_mem_flush, ih]

/-- Two arguments that may be neighbours: not both are literals. -/
def MayMeet (first second : MergeArgument) : Prop := ¬ (first.isLiteral ∧ second.isLiteral)

theorem isChain_ofProperties (waiting : List (Text × Text)) (list : List Property) :
    (ofProperties waiting list).IsChain MayMeet := by
  fun_induction ofProperties waiting list with
  | case1 waiting => cases waiting <;> simp [flush]
  | case2 waiting name value list ih => exact ih
  | case3 waiting source list ih =>
    have behind : (MergeArgument.spread source :: ofProperties [] list).IsChain MayMeet :=
      List.isChain_cons.mpr ⟨fun _ _ => by simp [MayMeet, isLiteral], ih⟩
    rcases waiting with _ | ⟨entry, waiting⟩
    · exact behind
    · exact List.isChain_cons_cons.mpr ⟨by simp [MayMeet, isLiteral], behind⟩

end MergeArgument

/-! ### What objects mean -/

/-- The values of the codes that stand in entries, and the objects of those that are spread. -/
structure Meaning (Value : Type) where
  value : Text → Value
  object : Text → Text → Option Value

namespace Meaning

variable {Value : Type} (meaning : Meaning Value)

/-- Lay an object over another, which it hides where both have a value. -/
def overlay (upper lower : Text → Option Value) : Text → Option Value :=
  fun key => (upper key).or (lower key)

/-- Add a property to an object. -/
def add (object : Text → Option Value) : Property → Text → Option Value
  | .entry name value => fun key => if key = name then some (meaning.value value) else object key
  | .spread source => overlay (meaning.object source) object

/-- Add properties one after the other, to begin with none. -/
def addAll (properties : List Property) : Text → Option Value :=
  properties.foldl meaning.add fun _ => none

/-- What an argument of a merge means; a literal sets its entries from left to right. -/
def ofArgument : MergeArgument → Text → Option Value
  | .literal entries => meaning.addAll (entries.map Property.ofEntry)
  | .spread source => meaning.object source

/-- What a merge means: its arguments laid over each other from left to right. -/
def merged (arguments : List MergeArgument) : Text → Option Value :=
  arguments.foldl (fun object argument => overlay (meaning.ofArgument argument) object) fun _ => none

theorem overlay_foldl_add (properties : List Property) (upper lower : Text → Option Value) :
    overlay (properties.foldl meaning.add upper) lower =
      properties.foldl meaning.add (overlay upper lower) := by
  induction properties generalizing upper with
  | nil => rfl
  | cons property properties ih =>
    rw [List.foldl_cons, List.foldl_cons, ih]
    congr 1
    funext key
    cases property with
    | entry name value => by_cases same : key = name <;> simp [add, overlay, same]
    | spread source => simp [add, overlay, Option.or_assoc]

/-- An argument laid over an object adds what the argument stands for. -/
theorem overlay_ofArgument (argument : MergeArgument) (object : Text → Option Value) :
    overlay (meaning.ofArgument argument) object =
      argument.properties.foldl meaning.add object := by
  cases argument with
  | literal entries =>
    rw [ofArgument, addAll, overlay_foldl_add]
    rfl
  | spread source => rfl

/-- A merge means what its arguments stand for, one after the other. -/
theorem merged_eq_addAll (arguments : List MergeArgument) :
    meaning.merged arguments = meaning.addAll (arguments.flatMap MergeArgument.properties) := by
  simp only [merged, addAll, overlay_ofArgument, List.foldl_flatMap]

end Meaning

/-! ### Lists of attributes -/

/-- Properties without a spread are entries. -/
theorem exists_entries {properties : List Property}
    (plain : properties.any Property.isSpread = false) :
    ∃ entries : List (Text × Text), properties = entries.map Property.ofEntry := by
  induction properties with
  | nil => exact ⟨[], rfl⟩
  | cons property properties ih =>
    simp only [List.any_cons, Bool.or_eq_false_iff] at plain
    obtain ⟨entries, rfl⟩ := ih plain.2
    rcases property with ⟨name, value⟩ | source
    · exact ⟨(name, value) :: entries, rfl⟩
    · exact absurd plain.1 (by simp [Property.isSpread])

theorem separator_propertyList (merge : Text) (properties : List Property) :
    (propertyList merge properties).separator = (if properties = [] then "" else "," : Text) := by
  unfold propertyList
  split
  · rename_i spread
    have some : properties ≠ [] := by rintro rfl; simp at spread
    simp [CodeList.separator, some]
  · cases properties <;> simp [CodeList.separator]

/-- Each attribute of a list is read in its turn, and what is read is written in that order: as a
    row of entries if there is no spread, and otherwise as one merge, whose arguments stand for
    exactly what is read.  Either way the code means the attributes one after the other, so that
    a later one wins. -/
theorem attributeList_renderAttributes (names : RuntimeNames) (source : Text)
    (attributes : List (Attribute Node)) :
    let items := renderAttributes names source attributes
    let list := attributeList names.merge items
    ∃ readings, List.Forall₂ Attribute.ReadsAs items readings ∧
      ((∃ entries : List (Text × Text), readings.reduceOption = entries.map Property.ofEntry ∧
          list.code = Text.join "," (entries.map fun entry => (Property.ofEntry entry).code) ∧
          list.isExpression = false ∧
          list.separator = (if entries = [] then "" else "," : Text) ∧
          ∀ (Value : Type) (meaning : Meaning Value),
            meaning.ofArgument (.literal entries) = meaning.addAll readings.reduceOption) ∨
        ((∃ source, .spread source ∈ readings.reduceOption) ∧
          ∃ arguments : List MergeArgument,
            arguments.flatMap MergeArgument.properties = readings.reduceOption ∧
            .literal [] ∉ arguments ∧
            arguments.IsChain MergeArgument.MayMeet ∧
            list.code = names.merge ++ "(\x7b\x7d, " ++
              Text.join ", " (arguments.map MergeArgument.code) ++ ")" ∧
            list.isExpression = true ∧
            list.separator = "," ∧
            ∀ (Value : Type) (meaning : Meaning Value),
              meaning.merged arguments = meaning.addAll readings.reduceOption)) := by
  intro items list
  refine ⟨items.map Attribute.property?, ?_, ?_⟩
  · exact List.forall₂_map_right_iff.mpr
      (List.forall₂_same.mpr fun item _ => Attribute.readsAs_iff.mpr rfl)
  have kept : (items.map Attribute.property?).reduceOption = items.filterMap Attribute.property? := by
    rw [List.reduceOption, List.filterMap_map]
    rfl
  rw [kept]
  generalize read : items.filterMap Attribute.property? = properties
  have list_eq : list = propertyList names.merge properties := by rw [← read]; rfl
  clear_value list
  subst list_eq
  have comma := separator_propertyList names.merge properties
  cases spread : properties.any Property.isSpread with
  | false =>
    obtain ⟨entries, rfl⟩ := exists_entries spread
    refine .inl ⟨entries, rfl, ?_, ?_, ?_, fun _ _ => rfl⟩
    · simp [propertyList, spread, Function.comp_def]
    · simp [propertyList, spread]
    · simpa using comma
  | true =>
    have found : ∃ source, .spread source ∈ properties := by
      obtain ⟨property, member, isSpread⟩ := List.any_eq_true.mp spread
      rcases property with ⟨name, value⟩ | source
      · simp [Property.isSpread] at isSpread
      · exact ⟨source, member⟩
    have same := MergeArgument.properties_ofProperties [] properties
    refine .inr ⟨found, MergeArgument.ofProperties [] properties, same,
      MergeArgument.literal_nil_not_mem_ofProperties [] properties,
      MergeArgument.isChain_ofProperties [] properties, ?_, ?_, ?_, ?_⟩
    · rw [MergeArgument.code_ofProperties]
      simp [propertyList, spread, mergeCall]
    · simp [propertyList, spread]
    · have some : properties ≠ [] := by rintro rfl; simp at spread
      rw [comma, if_neg some]
    · intro Value meaning
      rw [Meaning.merged_eq_addAll, same]
      rfl

end ViewScript
