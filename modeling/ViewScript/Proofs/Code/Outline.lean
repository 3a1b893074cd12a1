/-
  ViewScript/Proofs/Code/Outline.lean
  ===================================
  **Code with the origin of its pieces.**

  Generated code is put together from three kinds of pieces: text that the generator
  writes itself, names of the runtime library, and what is copied from the source.  In
  the code they are one text.  An *outline* keeps them apart, so that one can say where
  a name of the library, a line comment or a template comment went.

  The functions in the namespace `Outline` follow the functions of the same names that
  make the code, branch by branch.  A branch is chosen by a look at code, so an outline
  is looked at through its text.  `text_renderAll` says that nothing else happens: the
  text of the outline of a program is its code, for every tree and all names.
-/
import Mathlib.Data.List.Basic
import ViewScript.Code.Basic

namespace ViewScript

/-- The names of the runtime library. -/
inductive RuntimeName where
  | components
  | normalizeChildren
  | merge
deriving DecidableEq, Repr

/-- What a name of the library is called. -/
def RuntimeNames.get (names : RuntimeNames) : RuntimeName → Text
  | .components => names.components
  | .normalizeChildren => names.normalizeChildren
  | .merge => names.merge

/-- A piece of code. -/
inductive Piece where
  /-- Text of the generator, or text that it changed. -/
  | written (text : Text)
  /-- A name of the runtime library. -/
  | runtime (name : RuntimeName)
  /-- A string, comment, regular expression or operator of the host code. -/
  | verbatim (span : Span)
  /-- Other host code. -/
  | code (span : Span)
  /-- A template comment, between the marks of a block comment. -/
  | comment (span : Span)
deriving DecidableEq, Repr

/-- Pieces of code, in their order. -/
abbrev Outline := List Piece

def Piece.text (names : RuntimeNames) (source : Text) : Piece → Text
  | .written text => text
  | .runtime name => names.get name
  | .verbatim span | .code span => span.slice source
  | .comment span => "/*" ++ span.slice source ++ "*/"

namespace Outline

variable (names : RuntimeNames) (source : Text)

/-- The code that an outline is the outline of. -/
def text : Outline → Text
  | [] => []
  | piece :: pieces => piece.text names source ++ text pieces

/-- An outline without its first characters.  What is left of a piece that is cut has
    no origin any more. -/
def dropChars : Nat → Outline → Outline
  | 0, outline => outline
  | _ + 1, [] => []
  | count + 1, piece :: pieces =>
    let chars := piece.text names source
    if chars.length ≤ count + 1 then dropChars (count + 1 - chars.length) pieces
    else .written (chars.drop (count + 1)) :: pieces

/-- Outlines one after the other with `separator` between neighbours. -/
def join (separator : Text) : List Outline → Outline
  | [] => []
  | [outline] => outline
  | outline :: outlines => outline ++ .written separator :: join separator outlines

/-! ### Single nodes -/

/-- The outline of a node, with its braces set apart. -/
inductive Rendered where
  | plain (code : Outline)
  | braced (inside : Outline) (objectLike : Bool)

namespace Rendered

def code : Rendered → Outline
  | .plain code => code
  | .braced inside _ => .written "\x7b" :: (inside ++ [.written "\x7d"])

def bare : Rendered → Outline
  | .plain code => code
  | .braced inside _ => inside

def valueCode : Rendered → Outline
  | .braced inside true => (braced inside true).code
  | rendered => rendered.bare

def tagName : Rendered → Outline
  | .braced inside _ => .written "(" :: (inside ++ [.written ")"])
  | .plain code =>
    if isBuiltin (text names source code) then .runtime .components :: .written "." :: code
    else code

/-- Forget the origins. -/
def toCode : Rendered → ViewScript.Rendered
  | .plain code => .plain (text names source code)
  | .braced inside objectLike => .braced (text names source inside) objectLike

end Rendered

def callCode (component argument : Outline) : Outline :=
  component ++ .written "(" :: (argument ++ [.written ")"])

def textCall (expression : Outline) : Outline :=
  .runtime .components :: .written ".text(\x7bdata:" :: (expression ++ [.written "\x7d)"])

def textCode (text : Text) : Outline :=
  if isLayout text then [.written text] else textCall [.written (escapeText text).quoted]

/-! ### Properties -/

inductive Property where
  | entry (name value : Outline)
  | spread (source : Outline)

namespace Property

def isSpread : Property → Bool
  | .entry _ _ => false
  | .spread _ => true

def code : Property → Outline
  | .entry name value => .written "\"" :: (name ++ .written "\":" :: value)
  | .spread source => source

def toCode : Property → ViewScript.Property
  | .entry name value => .entry (text names source name) (text names source value)
  | .spread chars => .spread (text names source chars)

end Property

def spreadRest? (name : Outline) : Option Outline :=
  (ViewScript.spreadRest? (text names source name)).map fun _ => dropChars names source 3 name

/-- The usual spelling of a name; the other one is not looked at any more. -/
def attributeName (name : Outline) : Outline :=
  match attributeAliases.lookup (text names source name) with
  | some usual => [.written usual]
  | none => name

def propertyName (item : Attribute Rendered) : Outline :=
  attributeName names source item.name.bare

/-- The source of a spread, given what is left of its name. -/
def spreadSource (item : Attribute Rendered) (rest : Outline) : Outline :=
  if (text names source rest).isEmpty then (item.value.map Rendered.bare).getD [] else rest

def property? (item : Attribute Rendered) : Option Property :=
  match spreadRest? names source (propertyName names source item) with
  | some rest =>
    let spread := spreadSource names source item rest
    if (text names source spread).isBlank then none else some (.spread spread)
  | none =>
    some (.entry (propertyName names source item)
      (match item.value with
        | none => [.written "true"]
        | some value => value.valueCode))

def objectLiteral (entries : List Outline) : Outline :=
  .written "\x7b" :: (join "," entries ++ [.written "\x7d"])

def flushEntries : List Outline → List Outline
  | [] => []
  | entries => [objectLiteral entries]

def mergeArguments (waiting : List Outline) : List Property → List Outline
  | [] => flushEntries waiting
  | .entry name value :: properties =>
    mergeArguments (waiting ++ [(Property.entry name value).code]) properties
  | .spread source :: properties => flushEntries waiting ++ source :: mergeArguments [] properties

def mergeCall (arguments : List Outline) : Outline :=
  .runtime .merge :: .written "(\x7b\x7d, " :: (join ", " arguments ++ [.written ")"])

/-- The outline of a list of properties or children. -/
structure CodeList where
  code : Outline
  needsComma : Bool
  isExpression : Bool

namespace CodeList

def separator (list : CodeList) : Text := if list.needsComma then "," else ""

def object (list : CodeList) : Outline :=
  if list.isExpression then list.code else .written "\x7b" :: (list.code ++ [.written "\x7d"])

def toCode (list : CodeList) : ViewScript.CodeList :=
  ⟨text names source list.code, list.needsComma, list.isExpression⟩

end CodeList

def propertyList (properties : List Property) : CodeList :=
  if properties.any Property.isSpread then ⟨mergeCall (mergeArguments [] properties), true, true⟩
  else ⟨join "," (properties.map Property.code), !properties.isEmpty, false⟩

def attributeList (attributes : List (Attribute Rendered)) : CodeList :=
  propertyList (attributes.filterMap (property? names source))

def soleExpression? : List (Attribute Rendered) → Option Outline
  | [⟨name, none⟩] =>
    let chars := text names source name.code
    if opensGroup chars && !List.isPrefixOf ['\x7b', '.', '.', '.'] chars then some name.bare
    else none
  | _ => none

def argumentCode (attributes : List (Attribute Rendered)) : Outline :=
  (soleExpression? names source attributes).getD (attributeList names source attributes).object

/-! ### Children -/

inductive Child where
  | layout (code : Outline)
  | item (code : Outline)

namespace Child

def isItem : Child → Bool
  | .layout _ => false
  | .item _ => true

def codeAfter : Bool → List Child → Outline
  | _, [] => []
  | comma, .layout code :: children => code ++ codeAfter comma children
  | comma, .item code :: children =>
    .written (if comma then "," else "") :: (code ++ codeAfter true children)

def toCode : Child → ViewScript.Child
  | .layout code => .layout (text names source code)
  | .item code => .item (text names source code)

end Child

def childList (children : List Child) : CodeList :=
  ⟨Child.codeAfter false children, children.any Child.isItem, false⟩

def childrenProperty (children : List Child) : Outline :=
  .written "children:[" :: ((childList children).code ++ [.written "]"])

def elementCode (attributes : List (Attribute Rendered)) (children : Option (List Child)) :
    Outline :=
  let properties := attributeList names source attributes
  match children with
  | none => properties.object
  | some children =>
    if properties.isExpression then
      mergeCall [properties.code,
        .written "\x7b" :: (childrenProperty children ++ [.written "\x7d"])]
    else
      .written "\x7b" :: (properties.code ++
        .written properties.separator :: (childrenProperty children ++ [.written "\x7d"]))

/-! ### Trees -/

mutual

/-- The outline of a node. -/
def render : Node → Rendered
  | .verbatim span => .plain [.verbatim span]
  | .code span => .plain [.code span]
  | .group .brace body => .braced (renderAll body) (readsAsObject source body)
  | .group delimiter body =>
    .plain (.written [delimiter.opening] :: (renderAll body ++ [.written [delimiter.closing]]))
  | .comment span => .plain [.comment span]
  | .text span => .plain (textCode (span.slice source))
  | .interpolation body => .plain (textCall (renderAll body))
  | .reference tag => .plain (renderTag tag)
  | .selfClosing tag (.attributes attributes) =>
    .plain (callCode (renderTag tag) (argumentCode names source (renderAttributes attributes)))
  | .selfClosing tag (.expression value) => .plain (callCode (renderTag tag) (render value).code)
  | .element tag attributes children =>
    .plain (callCode (renderTag tag) (elementCode names source (renderAttributes attributes)
      (if children.isEmpty then none else some (renderChildren children))))
  | .fragment children =>
    .plain (.written "[" :: ((childList (renderChildren children)).code ++ [.written "]"]))

/-- The outline of several nodes, one after the other. -/
def renderAll : List Node → Outline
  | [] => []
  | node :: nodes => (render node).code ++ renderAll nodes

def renderTag : Tag Node → Outline
  | ⟨leading, name, trailing⟩ =>
    renderAll leading ++ ((render name).tagName names source ++ renderAll trailing)

def renderAttributes : List (Attribute Node) → List (Attribute Rendered)
  | [] => []
  | ⟨name, value⟩ :: attributes => ⟨render name, renderValue value⟩ :: renderAttributes attributes

def renderValue : Option Node → Option Rendered
  | none => none
  | some value => some (render value)

def renderChildren : List Node → List Child
  | [] => []
  | .fragment nested :: children => renderChildren nested ++ renderChildren children
  | .interpolation body :: children =>
    .item (.written "..." :: .runtime .normalizeChildren :: .written "(" ::
      (renderAll body ++ [.written ")"])) :: renderChildren children
  | .text span :: children =>
    let text := span.slice source
    (if isLayout text then .layout (textCode text) else .item (textCode text)) ::
      renderChildren children
  | child :: children => .item (render child).code :: renderChildren children

end

/-! ### The text of an outline -/

section Text

variable {names source}

@[simp] theorem text_nil : text names source [] = [] := rfl

@[simp] theorem text_cons (piece : Piece) (pieces : Outline) :
    text names source (piece :: pieces) = piece.text names source ++ text names source pieces := rfl

@[simp] theorem text_append (front back : Outline) :
    text names source (front ++ back) = text names source front ++ text names source back := by
  induction front with
  | nil => rfl
  | cons piece front ih => simp [ih]

@[simp] theorem text_written (chars : Text) :
    Piece.text names source (.written chars) = chars := rfl

@[simp] theorem text_runtime (name : RuntimeName) :
    Piece.text names source (.runtime name) = names.get name := rfl

theorem text_dropChars (count : Nat) (outline : Outline) :
    text names source (dropChars names source count outline) =
      (text names source outline).drop count := by
  induction outline generalizing count with
  | nil => cases count <;> simp [dropChars]
  | cons piece pieces ih =>
    cases count with
    | zero => simp [dropChars]
    | succ count =>
      by_cases whole : (piece.text names source).length ≤ count + 1
      · simp [dropChars, whole, ih, List.drop_append, List.drop_eq_nil_of_le whole]
      · have inside : count + 1 - (piece.text names source).length = 0 := by omega
        simp [dropChars, whole, List.drop_append, inside]

theorem text_join (separator : Text) (outlines : List Outline) :
    text names source (join separator outlines) =
      Text.join separator (outlines.map (text names source)) := by
  induction outlines with
  | nil => rfl
  | cons outline outlines ih =>
    cases outlines with
    | nil => rfl
    | cons next outlines => simpa [join, Text.join] using ih

theorem text_code (rendered : Rendered) :
    text names source rendered.code = (rendered.toCode names source).code := by
  cases rendered <;> simp [Rendered.code, Rendered.toCode, ViewScript.Rendered.code]

theorem text_bare (rendered : Rendered) :
    text names source rendered.bare = (rendered.toCode names source).bare := by
  cases rendered <;> rfl

theorem text_valueCode (rendered : Rendered) :
    text names source rendered.valueCode = (rendered.toCode names source).valueCode := by
  cases rendered with
  | plain code => rfl
  | braced inside objectLike =>
    cases objectLike with
    | false => rfl
    | true => exact text_code (.braced inside true)

theorem text_tagName (rendered : Rendered) :
    text names source (rendered.tagName names source) =
      (rendered.toCode names source).tagName names.components := by
  cases rendered with
  | braced inside objectLike =>
    simp [Rendered.tagName, Rendered.toCode, ViewScript.Rendered.tagName]
  | plain code =>
    simp only [Rendered.tagName, Rendered.toCode, ViewScript.Rendered.tagName]
    split
    · simp [RuntimeNames.get]
    · rfl

theorem text_callCode (component argument : Outline) :
    text names source (callCode component argument) =
      ViewScript.callCode (text names source component) (text names source argument) := by
  simp [callCode, ViewScript.callCode]

theorem text_textCall (expression : Outline) :
    text names source (textCall expression) =
      ViewScript.textCall names.components (text names source expression) := by
  simp [textCall, ViewScript.textCall, RuntimeNames.get]

theorem text_textCode (chars : Text) :
    text names source (textCode chars) = ViewScript.textCode names.components chars := by
  unfold textCode ViewScript.textCode
  split
  · simp
  · simp [text_textCall]

theorem text_attributeName (name : Outline) :
    text names source (attributeName names source name) =
      ViewScript.attributeName (text names source name) := by
  unfold attributeName ViewScript.attributeName
  cases attributeAliases.lookup (text names source name) <;> simp

/-- An attribute without the origins. -/
def attributeCode (names : RuntimeNames) (source : Text) (item : Attribute Rendered) :
    Attribute ViewScript.Rendered :=
  ⟨item.name.toCode names source, item.value.map (Rendered.toCode names source)⟩

theorem text_propertyName (item : Attribute Rendered) :
    text names source (propertyName names source item) =
      (attributeCode names source item).propertyName := by
  rw [propertyName, text_attributeName, text_bare]
  rfl

theorem map_text_spreadRest? (name : Outline) :
    (spreadRest? names source name).map (text names source) =
      ViewScript.spreadRest? (text names source name) := by
  unfold spreadRest?
  cases found : ViewScript.spreadRest? (text names source name) with
  | none => rfl
  | some rest =>
    have split := List.isPrefixOf?_eq_some_iff_append_eq.mp found
    simp [text_dropChars, ← split]

theorem text_spreadSource (item : Attribute Rendered) (rest : Outline) :
    text names source (spreadSource names source item rest) =
      if (text names source rest).isEmpty then
        ((attributeCode names source item).value.map ViewScript.Rendered.bare).getD []
      else text names source rest := by
  unfold spreadSource
  split
  · cases valued : item.value <;> simp [attributeCode, valued, text_bare]
  · rfl

theorem map_toCode_property? (item : Attribute Rendered) :
    (property? names source item).map (Property.toCode names source) =
      (attributeCode names source item).property? := by
  have spread : (spreadRest? names source (propertyName names source item)).map
      (text names source) =
        ViewScript.spreadRest? (attributeCode names source item).propertyName := by
    rw [map_text_spreadRest?, text_propertyName]
  unfold property? Attribute.property?
  rw [← spread]
  cases spreadRest? names source (propertyName names source item) with
  | none =>
    cases valued : item.value <;>
      simp [Property.toCode, text_propertyName, text_valueCode, attributeCode, valued]
  | some rest =>
    simp only [Option.map_some, ← text_spreadSource]
    by_cases blank : (text names source (spreadSource names source item rest)).isBlank = true
    · simp [blank]
    · simp [blank, Property.toCode]

theorem text_propertyCode (property : Property) :
    text names source property.code = (property.toCode names source).code := by
  cases property <;> simp [Property.code, Property.toCode, ViewScript.Property.code, Text.quoted]

theorem text_objectLiteral (entries : List Outline) :
    text names source (objectLiteral entries) =
      ViewScript.objectLiteral (entries.map (text names source)) := by
  simp [objectLiteral, ViewScript.objectLiteral, text_join]

theorem map_text_flushEntries (entries : List Outline) :
    (flushEntries entries).map (text names source) =
      ViewScript.flushEntries (entries.map (text names source)) := by
  cases entries with
  | nil => rfl
  | cons entry entries =>
    simp only [flushEntries, ViewScript.flushEntries, List.map_cons, List.map_nil,
      text_objectLiteral]

theorem map_text_mergeArguments (waiting : List Outline) (properties : List Property) :
    (mergeArguments waiting properties).map (text names source) =
      ViewScript.mergeArguments (waiting.map (text names source))
        (properties.map (Property.toCode names source)) := by
  induction properties generalizing waiting with
  | nil => exact map_text_flushEntries waiting
  | cons property properties ih =>
    cases property with
    | entry name value =>
      rw [mergeArguments, ih, List.map_append, List.map_singleton, text_propertyCode]
      rfl
    | spread spread =>
      rw [mergeArguments, List.map_append, List.map_cons, map_text_flushEntries, ih]
      rfl

theorem text_mergeCall (arguments : List Outline) :
    text names source (mergeCall arguments) =
      ViewScript.mergeCall names.merge (arguments.map (text names source)) := by
  simp [mergeCall, ViewScript.mergeCall, text_join, RuntimeNames.get]

theorem toCode_propertyList (properties : List Property) :
    (propertyList properties).toCode names source =
      ViewScript.propertyList names.merge (properties.map (Property.toCode names source)) := by
  have spreads : (properties.map (Property.toCode names source)).any ViewScript.Property.isSpread =
      properties.any Property.isSpread := by
    rw [List.any_map]
    congr 1
    funext property
    cases property <;> rfl
  have codes : (properties.map Property.code).map (text names source) =
      (properties.map (Property.toCode names source)).map ViewScript.Property.code := by
    simp [text_propertyCode]
  unfold propertyList ViewScript.propertyList
  rw [spreads]
  split
  · simp [CodeList.toCode, text_mergeCall, map_text_mergeArguments]
  · simp only [CodeList.toCode, text_join, codes]
    cases properties <;> rfl

theorem toCode_attributeList (attributes : List (Attribute Rendered)) :
    (attributeList names source attributes).toCode names source =
      ViewScript.attributeList names.merge (attributes.map (attributeCode names source)) := by
  rw [attributeList, toCode_propertyList, ViewScript.attributeList, List.map_filterMap,
    List.filterMap_map]
  congr 2
  funext item
  exact map_toCode_property? item

theorem text_object (list : CodeList) :
    text names source list.object = (list.toCode names source).object := by
  unfold CodeList.object ViewScript.CodeList.object CodeList.toCode
  split <;> simp

theorem map_text_soleExpression? (attributes : List (Attribute Rendered)) :
    (soleExpression? names source attributes).map (text names source) =
      ViewScript.soleExpression? (attributes.map (attributeCode names source)) := by
  match attributes with
  | [] => rfl
  | [⟨name, some value⟩] => rfl
  | [⟨name, none⟩] =>
    simp only [soleExpression?, List.map_cons, List.map_nil, attributeCode, Option.map_none,
      ViewScript.soleExpression?, text_code]
    split <;> simp [text_bare]
  | _ :: _ :: _ => simp [soleExpression?, ViewScript.soleExpression?]

theorem text_argumentCode (attributes : List (Attribute Rendered)) :
    text names source (argumentCode names source attributes) =
      ViewScript.argumentCode names.merge (attributes.map (attributeCode names source)) := by
  rw [argumentCode, ViewScript.argumentCode, ← map_text_soleExpression?, ← toCode_attributeList,
    ← text_object]
  cases soleExpression? names source attributes <;> rfl

theorem text_codeAfter (comma : Bool) (children : List Child) :
    text names source (Child.codeAfter comma children) =
      ViewScript.Child.codeAfter comma (children.map (Child.toCode names source)) := by
  induction children generalizing comma with
  | nil => rfl
  | cons child children ih =>
    cases child with
    | layout code => simp [Child.codeAfter, ViewScript.Child.codeAfter, Child.toCode, ih]
    | item code =>
      cases comma <;> simp [Child.codeAfter, ViewScript.Child.codeAfter, Child.toCode, ih]

theorem text_childList (children : List Child) :
    text names source (childList children).code =
      (ViewScript.childList (children.map (Child.toCode names source))).code :=
  text_codeAfter false children

theorem text_enclosed (before after : Text) (inside : Outline) :
    text names source (.written before :: (inside ++ [.written after])) =
      before ++ text names source inside ++ after := by
  simp

theorem text_childrenProperty (children : List Child) :
    text names source (childrenProperty children) =
      ViewScript.childrenProperty (children.map (Child.toCode names source)) := by
  refine (text_enclosed _ _ _).trans ?_
  rw [text_childList]
  exact rfl

theorem text_elementCode (attributes : List (Attribute Rendered))
    (children : Option (List Child)) :
    text names source (elementCode names source attributes children) =
      ViewScript.elementCode names.merge (attributes.map (attributeCode names source))
        (children.map (List.map (Child.toCode names source))) := by
  have listed : (attributeList names source attributes).toCode names source = _ :=
    toCode_attributeList attributes
  unfold elementCode ViewScript.elementCode
  rw [← listed]
  generalize attributeList names source attributes = properties
  cases children with
  | none => exact text_object properties
  | some children =>
    have inside : text names source (childrenProperty children) = _ :=
      text_childrenProperty children
    by_cases isExpression : properties.isExpression = true
    · simp [CodeList.toCode, isExpression, text_mergeCall, inside]
    · simp [CodeList.toCode, isExpression, inside, CodeList.separator,
        ViewScript.CodeList.separator]

end Text

section Trees

mutual

theorem toCode_render (node : Node) :
    (render names source node).toCode names source = ViewScript.render names source node := by
  cases node with
  | verbatim span => simp [render, ViewScript.render, Rendered.toCode, Piece.text]
  | code span => simp [render, ViewScript.render, Rendered.toCode, Piece.text]
  | comment span => simp [render, ViewScript.render, Rendered.toCode, Piece.text]
  | text span => simp [render, ViewScript.render, Rendered.toCode, text_textCode]
  | group delimiter body =>
    have inside := text_renderAll body
    cases delimiter <;> simp [render, ViewScript.render, Rendered.toCode, inside]
  | interpolation body =>
    simp [render, ViewScript.render, Rendered.toCode, text_textCall, text_renderAll body]
  | reference tag => simp [render, ViewScript.render, Rendered.toCode, text_renderTag tag]
  | selfClosing tag argument =>
    have opened := text_renderTag tag
    cases argument with
    | attributes attributes =>
      simp [render, ViewScript.render, Rendered.toCode, text_callCode, opened, text_argumentCode,
        map_renderAttributes attributes]
    | expression value =>
      rw [render, Rendered.toCode, text_callCode, opened, text_code, toCode_render value,
        ViewScript.render]
  | element tag attributes children =>
    have listed : Option.map (List.map (Child.toCode names source))
        (if children.isEmpty then none else some (renderChildren names source children)) =
        if children.isEmpty then none
        else some (ViewScript.renderChildren names source children) := by
      split
      · rfl
      · simp [map_renderChildren children]
    simp only [render, ViewScript.render, Rendered.toCode, text_callCode, text_renderTag tag,
      text_elementCode, map_renderAttributes attributes, listed]
  | fragment children =>
    simp [render, ViewScript.render, Rendered.toCode, text_childList, map_renderChildren children]

/-- The text of the outline of a program is its code. -/
theorem text_renderAll (nodes : List Node) :
    text names source (renderAll names source nodes) = ViewScript.renderAll names source nodes := by
  cases nodes with
  | nil => rfl
  | cons node nodes =>
    rw [renderAll, text_append, text_code, toCode_render node, text_renderAll nodes]
    rfl

theorem text_renderTag (tag : Tag Node) :
    text names source (renderTag names source tag) = ViewScript.renderTag names source tag := by
  cases tag with
  | mk leading name trailing =>
    simp [renderTag, ViewScript.renderTag, text_tagName, text_renderAll leading,
      toCode_render name, text_renderAll trailing]

theorem map_renderAttributes (attributes : List (Attribute Node)) :
    (renderAttributes names source attributes).map (attributeCode names source) =
      ViewScript.renderAttributes names source attributes := by
  cases attributes with
  | nil => rfl
  | cons first attributes =>
    cases first with
    | mk name value =>
      simp [renderAttributes, ViewScript.renderAttributes, attributeCode, toCode_render name,
        map_renderValue value, map_renderAttributes attributes]

theorem map_renderValue (value : Option Node) :
    (renderValue names source value).map (Rendered.toCode names source) =
      ViewScript.renderValue names source value := by
  cases value with
  | none => rfl
  | some node => simp [renderValue, ViewScript.renderValue, toCode_render node]

theorem map_renderChildren (children : List Node) :
    (renderChildren names source children).map (Child.toCode names source) =
      ViewScript.renderChildren names source children := by
  cases children with
  | nil => rfl
  | cons child children =>
    have item := toCode_render child
    have rest := map_renderChildren children
    cases child with
    | fragment nested =>
      simp [renderChildren, ViewScript.renderChildren, map_renderChildren nested, rest]
    | interpolation body =>
      simp [renderChildren, ViewScript.renderChildren, Child.toCode, text_renderAll body, rest,
        RuntimeNames.get]
    | text span =>
      simp only [renderChildren, ViewScript.renderChildren, List.map_cons, rest]
      split <;> simp [Child.toCode, text_textCode]
    | _ =>
      simp only [renderChildren, ViewScript.renderChildren, List.map_cons, Child.toCode, text_code,
        item, rest]

end

end Trees

end Outline

end ViewScript
