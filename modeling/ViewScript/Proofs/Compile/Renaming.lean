/-
  ViewScript/Proofs/Compile/Renaming.lean
  =======================================
  **Compiling with other names of the runtime library.**

  `choices` lists what the generator finds out on its way through a tree, each answer
  taken from the code that it looks at: whether a tag is an element of HTML, how an
  attribute is usually spelled, whether it is a spread, where the source of the spread
  stands and whether it is blank, whether an expression is passed on as it is, and
  whether a text is layout.

  For all proper names the answers are the same, and a program compiles to one and the
  same outline, in which only the names themselves are filled in.
-/
import ViewScript.Proofs.Code.Renaming
import ViewScript.Proofs.Compile.HostCode

namespace ViewScript

/-- An answer that decides between branches of the generator. -/
inductive Choice where
  /-- Whether the name of a tag is an element of HTML. -/
  | builtin (found : Bool)
  /-- The usual spelling of an attribute, if it has a second one. -/
  | spelling (usual : Option Text)
  | spread (found : Bool)
  /-- Whether the source of a spread is the rest of its name. -/
  | ownSource (found : Bool)
  /-- Whether a spread is left out. -/
  | skipped (blank : Bool)
  /-- Whether the only attribute of a tag is an expression that is passed on. -/
  | expression (found : Bool)
  | layout (found : Bool)
deriving DecidableEq, Repr

/-- What is asked about the name of a tag. -/
def Rendered.choices : Rendered → List Choice
  | .plain code => [.builtin (isBuiltin code)]
  | .braced _ _ => []

/-- What is asked about an attribute. -/
def Attribute.choices (item : Attribute Rendered) : List Choice :=
  .spelling (attributeAliases.lookup item.name.bare) ::
    match spreadRest? item.propertyName with
    | none => [.spread false]
    | some rest =>
      [.spread true, .ownSource (!rest.isEmpty),
        .skipped (Text.isBlank
          (if rest.isEmpty then (item.value.map Rendered.bare).getD [] else rest))]

section Trees

variable (names : RuntimeNames) (source : Text)

mutual

/-- All that is asked about a node and the nodes below it. -/
def Node.choices : Node → List Choice
  | .verbatim _ | .code _ | .comment _ => []
  | .text span => [.layout (isLayout (span.slice source))]
  | .group _ body => choicesOf body
  | .interpolation body => choicesOf body
  | .reference tag => tagChoices tag
  | .selfClosing tag argument => tagChoices tag ++ argumentChoices argument
  | .element tag attributes children =>
    tagChoices tag ++ (attributesChoices attributes ++ choicesOf children)
  | .fragment children => choicesOf children

def choicesOf : List Node → List Choice
  | [] => []
  | node :: nodes => node.choices ++ choicesOf nodes

def tagChoices : Tag Node → List Choice
  | ⟨leading, name, trailing⟩ =>
    choicesOf leading ++
      (name.choices ++ ((render names source name).choices ++ choicesOf trailing))

def argumentChoices : Argument Node → List Choice
  | .attributes attributes =>
    .expression (soleExpression? (renderAttributes names source attributes)).isSome ::
      attributesChoices attributes
  | .expression value => value.choices

def attributesChoices : List (Attribute Node) → List Choice
  | [] => []
  | ⟨name, value⟩ :: attributes =>
    name.choices ++ (valueChoices value ++
      (Attribute.choices ⟨render names source name, renderValue names source value⟩ ++
        attributesChoices attributes))

def valueChoices : Option Node → List Choice
  | none => []
  | some value => value.choices

end

end Trees

namespace Outline

variable {names names' : RuntimeNames} {source : Text}

theorem renderedChoices_alike {rendered : Rendered} (anchored : rendered.All Anchored) :
    (rendered.toCode names source).choices = (rendered.toCode names' source).choices := by
  cases rendered with
  | braced inside objectLike => rfl
  | plain code =>
    have same : isBuiltin (text names source code) = isBuiltin (text names' source code) :=
      test_alike isBuiltin_of_mark anchored
    simp only [Rendered.toCode, ViewScript.Rendered.choices, same]

/-- What is asked about an attribute, in terms of its outline. -/
theorem choices_attributeCode (item : Attribute Rendered) :
    (attributeCode names source item).choices =
      .spelling (attributeAliases.lookup (text names source item.name.bare)) ::
        match spreadRest? names source (propertyName names source item) with
        | none => [.spread false]
        | some rest =>
          [.spread true, .ownSource (!(text names source rest).isEmpty),
            .skipped (text names source (spreadSource names source item rest)).isBlank] := by
  have spread : ViewScript.spreadRest? (attributeCode names source item).propertyName =
      (spreadRest? names source (propertyName names source item)).map (text names source) := by
    rw [map_text_spreadRest?, text_propertyName]
  rw [Attribute.choices, spread, text_bare]
  cases spreadRest? names source (propertyName names source item) with
  | none => rfl
  | some rest =>
    simp only [Option.map_some, text_spreadSource]
    rfl

theorem attributeChoices_alike (proper : names.IsProper) (proper' : names'.IsProper)
    {item : Attribute Rendered} (legible : Legible names names' source item) :
    (attributeCode names source item).choices = (attributeCode names' source item).choices := by
  have anchored := legible.anchored
  have usual : attributeAliases.lookup (text names source item.name.bare) =
      attributeAliases.lookup (text names' source item.name.bare) :=
    test_alike lookup_of_mark anchored.1.bare
  rw [choices_attributeCode, choices_attributeCode, usual,
    ← spreadName_alike proper proper' legible]
  congr 1
  cases found : spreadRest? names source (propertyName names source item) with
  | none => rfl
  | some rest =>
    obtain ⟨left, given, blank⟩ := @spread_alike names names' source item rest anchored found
    have empty : (text names source rest).isEmpty = (text names' source rest).isEmpty :=
      test_alike isEmpty_of_mark left
    simp only [empty, given, blank]

end Outline

section Trees

variable {names names' : RuntimeNames} {source : Text}

open Outline in
/-- Whether an expression is passed on does not depend on the names. -/
theorem isSome_soleExpression?_alike (proper : names.IsProper) (proper' : names'.IsProper)
    {attributes : List (Attribute Node)}
    (derived : ∀ part ∈ attributesParts attributes, part.IsDerived source) :
    (soleExpression? (renderAttributes names source attributes)).isSome =
      (soleExpression? (renderAttributes names' source attributes)).isSome := by
  have legible := legible_renderAttributes proper proper' derived
  rw [← map_renderAttributes, ← map_renderAttributes, ← map_text_soleExpression?,
    ← map_text_soleExpression?, Option.isSome_map, Option.isSome_map,
    ← renderAttributes_alike proper proper' attributes derived, soleExpression?_alike legible]

mutual

/-- All proper names lead to the same choices. -/
theorem choices_alike (proper : names.IsProper) (proper' : names'.IsProper) (node : Node)
    (derived : ∀ part ∈ node.parts, part.IsDerived source) :
    node.choices names source = node.choices names' source := by
  cases node with
  | verbatim span => rfl
  | code span => rfl
  | comment span => rfl
  | text span => rfl
  | group delimiter body =>
    exact choicesOf_alike proper proper' body (List.forall_mem_cons.mp derived).2
  | interpolation body =>
    exact choicesOf_alike proper proper' body (List.forall_mem_cons.mp derived).2
  | reference tag => exact tagChoices_alike proper proper' tag derived
  | selfClosing tag argument =>
    obtain ⟨opened, given⟩ := List.forall_mem_append.mp derived
    rw [Node.choices, Node.choices, tagChoices_alike proper proper' tag opened,
      argumentChoices_alike proper proper' argument given]
  | element tag attributes children =>
    obtain ⟨opened, inside⟩ := List.forall_mem_append.mp derived
    obtain ⟨given, below⟩ := List.forall_mem_append.mp inside
    rw [Node.choices, Node.choices, tagChoices_alike proper proper' tag opened,
      attributesChoices_alike proper proper' attributes given,
      choicesOf_alike proper proper' children (List.forall_mem_cons.mp below).2]
  | fragment children =>
    exact choicesOf_alike proper proper' children (List.forall_mem_cons.mp derived).2

theorem choicesOf_alike (proper : names.IsProper) (proper' : names'.IsProper) (nodes : List Node)
    (derived : ∀ part ∈ partsOf nodes, part.IsDerived source) :
    choicesOf names source nodes = choicesOf names' source nodes := by
  cases nodes with
  | nil => rfl
  | cons node nodes =>
    obtain ⟨first, rest⟩ := List.forall_mem_append.mp derived
    rw [choicesOf, choicesOf, choices_alike proper proper' node first,
      choicesOf_alike proper proper' nodes rest]

theorem tagChoices_alike (proper : names.IsProper) (proper' : names'.IsProper) (tag : Tag Node)
    (derived : ∀ part ∈ tagParts tag, part.IsDerived source) :
    tagChoices names source tag = tagChoices names' source tag := by
  cases tag with
  | mk leading name trailing =>
    obtain ⟨before, others⟩ := List.forall_mem_append.mp derived
    obtain ⟨word, after⟩ := List.forall_mem_append.mp others
    have below := (List.forall_mem_cons.mp word).2
    have named : (render names source name).choices = (render names' source name).choices := by
      rw [← Outline.toCode_render, ← Outline.toCode_render,
        ← Outline.render_alike proper proper' name below]
      exact Outline.renderedChoices_alike (Outline.anchored_render name)
    rw [tagChoices, tagChoices, named, choices_alike proper proper' name below,
      choicesOf_alike proper proper' leading (List.forall_mem_cons.mp before).2,
      choicesOf_alike proper proper' trailing (List.forall_mem_cons.mp after).2]

theorem argumentChoices_alike (proper : names.IsProper) (proper' : names'.IsProper)
    (argument : Argument Node)
    (derived : ∀ part ∈ argumentParts argument, part.IsDerived source) :
    argumentChoices names source argument = argumentChoices names' source argument := by
  cases argument with
  | attributes attributes =>
    rw [argumentChoices, argumentChoices, isSome_soleExpression?_alike proper proper' derived,
      attributesChoices_alike proper proper' attributes derived]
  | expression value =>
    exact choices_alike proper proper' value (List.forall_mem_cons.mp derived).2

theorem attributesChoices_alike (proper : names.IsProper) (proper' : names'.IsProper)
    (attributes : List (Attribute Node))
    (derived : ∀ part ∈ attributesParts attributes, part.IsDerived source) :
    attributesChoices names source attributes = attributesChoices names' source attributes := by
  cases attributes with
  | nil => rfl
  | cons first attributes =>
    cases first with
    | mk name value =>
      obtain ⟨word, others⟩ := List.forall_mem_append.mp derived
      obtain ⟨given, rest⟩ := List.forall_mem_append.mp others
      have below := (List.forall_mem_cons.mp word).2
      have legible := Outline.legible_renderAttributes proper proper' derived
      have item : Attribute.choices ⟨render names source name, renderValue names source value⟩ =
          Attribute.choices ⟨render names' source name, renderValue names' source value⟩ := by
        rw [← Outline.toCode_render, ← Outline.toCode_render, ← Outline.map_renderValue,
          ← Outline.map_renderValue, ← Outline.render_alike proper proper' name below,
          ← Outline.renderValue_alike proper proper' value given]
        exact Outline.attributeChoices_alike proper proper' (legible _ (List.mem_cons_self ..))
      rw [attributesChoices, attributesChoices, item, choices_alike proper proper' name below,
        valueChoices_alike proper proper' value given,
        attributesChoices_alike proper proper' attributes rest]

theorem valueChoices_alike (proper : names.IsProper) (proper' : names'.IsProper)
    (value : Option Node) (derived : ∀ part ∈ valueParts value, part.IsDerived source) :
    valueChoices names source value = valueChoices names' source value := by
  cases value with
  | none => rfl
  | some value => exact choices_alike proper proper' value (List.forall_mem_cons.mp derived).2

end

end Trees

theorem isProper_default : RuntimeNames.IsProper {} := by
  constructor <;> decide +kernel

/-- **The names of the runtime library only rename.**  A source that can be read has one
    outline and one list of choices, such that for all proper names it compiles to the
    outline with the names filled in, and the generator makes these choices. -/
theorem compile_eq_outline {source : Text} {nodes : List Node} (parsed : parse source = .ok nodes) :
    ∃ (outline : Outline) (choices : List Choice), ∀ names : RuntimeNames, names.IsProper →
      compile names source = .ok (outline.text names source) ∧
        choicesOf names source nodes = choices := by
  have derived : ∀ part ∈ partsOf nodes, part.IsDerived source :=
    (derives_of_parse parsed).isDerived (Text.StandsAt.whole source)
  refine ⟨Outline.renderAll {} source nodes, choicesOf {} source nodes, ?_⟩
  intro names proper
  refine ⟨?_, choicesOf_alike proper isProper_default nodes derived⟩
  rw [← Outline.renderAll_alike proper isProper_default nodes derived, Outline.text_renderAll]
  exact compile_eq_ok_iff.mpr ⟨nodes, parsed, rfl⟩

/-- A tag whose attributes are a spread and an entry, both with a view in their name. -/
theorem compile_eq_outline_nested :
    ∃ nodes, parse "<a \x7b...<b*>\x7d \x7b..<p*>\x7d/>" = .ok nodes ∧
      ∃ (outline : Outline) (choices : List Choice), ∀ names : RuntimeNames, names.IsProper →
        compile names "<a \x7b...<b*>\x7d \x7b..<p*>\x7d/>" =
            .ok (outline.text names "<a \x7b...<b*>\x7d \x7b..<p*>\x7d/>") ∧
          choicesOf names "<a \x7b...<b*>\x7d \x7b..<p*>\x7d/>" nodes = choices := by
  have parsed : parse "<a \x7b...<b*>\x7d \x7b..<p*>\x7d/>" = .ok
      [.selfClosing ⟨[], .code ⟨1, 2⟩, [.verbatim ⟨2, 3⟩]⟩ (.attributes
        [⟨.group .brace [.code ⟨4, 7⟩, .reference ⟨[], .code ⟨8, 9⟩, []⟩], none⟩,
          ⟨.group .brace [.code ⟨14, 16⟩, .reference ⟨[], .code ⟨17, 18⟩, []⟩], none⟩])] := by decide +kernel
  exact ⟨_, parsed, compile_eq_outline parsed⟩

end ViewScript
