/-
  ViewScript/Code/Properties.lean
  ===============================
  **Attributes, as the properties of an object.**

  An attribute is an entry `"name":value` of an object literal, or a spread, whose
  name starts with three dots.  As soon as there is a spread the properties are the
  result of one merge call.  Its arguments keep the order of the source, so that a
  later attribute wins over an earlier one; neighbouring entries share one object
  literal.  A spread of nothing is left out.
-/
import ViewScript.Code.Rendered
import ViewScript.Text.Blank
import ViewScript.Tree

namespace ViewScript

/-- What an attribute adds to the properties. -/
inductive Property where
  | entry (name value : Text)
  | spread (source : Text)
deriving DecidableEq, Repr

namespace Property

def isSpread : Property → Bool
  | .entry _ _ => false
  | .spread _ => true

/-- An entry of an object literal, or the source of a spread. -/
def code : Property → Text
  | .entry name value => name.quoted ++ ":" ++ value
  | .spread source => source

end Property

/-- What follows the three dots of a spread. -/
def spreadRest? (name : Text) : Option Text := List.isPrefixOf? ['.', '.', '.'] name

namespace Attribute

/-- The name of an attribute in its usual spelling. -/
def propertyName (item : Attribute Rendered) : Text := attributeName item.name.bare

/-- The property of an attribute.  The source of a spread is the rest of its name
    or, if nothing is left of the name, its value. -/
def property? (item : Attribute Rendered) : Option Property :=
  match spreadRest? item.propertyName with
  | some rest =>
    let source := if rest.isEmpty then (item.value.map Rendered.bare).getD [] else rest
    if source.isBlank then none else some (.spread source)
  | none =>
    some (.entry item.propertyName
      (match item.value with
        | none => "true"
        | some value => value.valueCode))

end Attribute

/-- An object literal with the given entries. -/
def objectLiteral (entries : List Text) : Text := "\x7b" ++ Text.join "," entries ++ "\x7d"

/-- The object literal for entries that wait, if there are any. -/
def flushEntries : List Text → List Text
  | [] => []
  | entries => [objectLiteral entries]

/-- The arguments of a merge call; `waiting` holds the entries since the last
    spread. -/
def mergeArguments (waiting : List Text) : List Property → List Text
  | [] => flushEntries waiting
  | .entry name value :: properties =>
    mergeArguments (waiting ++ [(Property.entry name value).code]) properties
  | .spread source :: properties => flushEntries waiting ++ source :: mergeArguments [] properties

/-- Merge the given objects, from left to right, into a new one. -/
def mergeCall (merge : Text) (arguments : List Text) : Text :=
  merge ++ "(\x7b\x7d, " ++ Text.join ", " arguments ++ ")"

/-- The code for a list of properties. -/
def propertyList (merge : Text) (properties : List Property) : CodeList :=
  if properties.any Property.isSpread then
    ⟨mergeCall merge (mergeArguments [] properties), true, true⟩
  else
    ⟨Text.join "," (properties.map Property.code), !properties.isEmpty, false⟩

/-- The code for a list of attributes. -/
def attributeList (merge : Text) (attributes : List (Attribute Rendered)) : CodeList :=
  propertyList merge (attributes.filterMap Attribute.property?)

/-- A list of properties as one object. -/
def CodeList.object (list : CodeList) : Text :=
  if list.isExpression then list.code else "\x7b" ++ list.code ++ "\x7d"

/-- Brackets that open a group. -/
def opensGroup : Text → Bool
  | c :: _ => c == '\x7b' || c == '(' || c == '['
  | [] => false

/-- A single bracketed expression without a value, which is passed on as it is.
    A spread in braces is none. -/
def soleExpression? : List (Attribute Rendered) → Option Text
  | [⟨name, none⟩] =>
    if opensGroup name.code && !List.isPrefixOf ['\x7b', '.', '.', '.'] name.code then
      some name.bare
    else none
  | _ => none

/-- What a tag without children passes on for its attributes. -/
def argumentCode (merge : Text) (attributes : List (Attribute Rendered)) : Text :=
  (soleExpression? attributes).getD (attributeList merge attributes).object

end ViewScript
