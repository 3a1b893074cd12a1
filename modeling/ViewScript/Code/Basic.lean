/-
  ViewScript/Code/Basic.lean
  ==========================
  **From the tree to code.**

  Host code is copied.  A view becomes a call: `<p a="1">x</p>` is the call of the
  component `p` with the properties `"a":"1"` and `children`.  Fragments among
  children are flattened into them.

  `render` reads a span without a text as empty, so it is defined for every tree.
  A tree is *readable* when each span that is read has a text; `generate?` yields
  code for readable trees only.
-/
import ViewScript.Code.Children
import ViewScript.Code.TextLiteral

namespace ViewScript

variable (names : RuntimeNames) (source : Text)

/-- Whether the inside of braces reads as an object literal: a colon and no
    question mark in its own code.  Groups and strings in it are not looked at. -/
def readsAsObject (body : List Node) : Bool :=
  let codes := body.filterMap fun
    | .code span => some (span.slice source)
    | _ => none
  codes.any (·.contains ':') && !codes.any (·.contains '?')

/-- A call of a component. -/
def callCode (component argument : Text) : Text := component ++ "(" ++ argument ++ ")"

mutual

/-- The code of a node. -/
def render : Node → Rendered
  | .verbatim span => .plain (span.slice source)
  | .code span => .plain (span.slice source)
  | .group .brace body => .braced (renderAll body) (readsAsObject source body)
  | .group delimiter body =>
    .plain ([delimiter.opening] ++ renderAll body ++ [delimiter.closing])
  | .comment span => .plain ("/*" ++ span.slice source ++ "*/")
  | .text span => .plain (textCode names.components (span.slice source))
  | .interpolation body => .plain (textCall names.components (renderAll body))
  | .reference tag => .plain (renderTag tag)
  | .selfClosing tag (.attributes attributes) =>
    .plain (callCode (renderTag tag) (argumentCode names.merge (renderAttributes attributes)))
  | .selfClosing tag (.expression value) => .plain (callCode (renderTag tag) (render value).code)
  | .element tag attributes children =>
    .plain (callCode (renderTag tag) (elementCode names.merge (renderAttributes attributes)
      (if children.isEmpty then none else some (renderChildren children))))
  | .fragment children => .plain ("[" ++ (childList (renderChildren children)).code ++ "]")

/-- The code of several nodes, one after the other. -/
def renderAll : List Node → Text
  | [] => []
  | node :: nodes => (render node).code ++ renderAll nodes

/-- The code that constructs what a tag names, between the tag's separators. -/
def renderTag : Tag Node → Text
  | ⟨leading, name, trailing⟩ =>
    renderAll leading ++ (render name).tagName names.components ++ renderAll trailing

def renderAttributes : List (Attribute Node) → List (Attribute Rendered)
  | [] => []
  | ⟨name, value⟩ :: attributes => ⟨render name, renderValue value⟩ :: renderAttributes attributes

def renderValue : Option Node → Option Rendered
  | none => none
  | some value => some (render value)

/-- The children of a tag or fragment. -/
def renderChildren : List Node → List Child
  | [] => []
  | .fragment nested :: children => renderChildren nested ++ renderChildren children
  | .interpolation body :: children =>
    .item ("..." ++ names.normalizeChildren ++ "(" ++ renderAll body ++ ")") ::
      renderChildren children
  | .text span :: children =>
    let text := span.slice source
    let code := textCode names.components text
    (if isLayout text then .layout code else .item code) :: renderChildren children
  | child :: children => .item (render child).code :: renderChildren children

end

/-! ### Trees whose spans can be read -/

/-- Whether the name of an attribute is a spread that holds its own source; the
    value of such an attribute is not read. -/
def Rendered.isWholeSpread (name : Rendered) : Bool :=
  (spreadRest? (attributeName name.bare)).any fun rest => !rest.isEmpty

mutual

/-- Whether each span that is read for the code of a node has a text. -/
def readable : Node → Bool
  | .verbatim span | .code span | .comment span | .text span => span.isValid source
  | .group _ body => allReadable body
  | .interpolation body => allReadable body
  | .reference tag => tagReadable tag
  | .selfClosing tag argument => tagReadable tag && argumentReadable argument
  | .element tag attributes children =>
    tagReadable tag && attributesReadable attributes && allReadable children
  | .fragment children => allReadable children

def allReadable : List Node → Bool
  | [] => true
  | node :: nodes => readable node && allReadable nodes

def tagReadable : Tag Node → Bool
  | ⟨leading, name, trailing⟩ => allReadable leading && readable name && allReadable trailing

def argumentReadable : Argument Node → Bool
  | .attributes attributes => attributesReadable attributes
  | .expression value => readable value

def attributesReadable : List (Attribute Node) → Bool
  | [] => true
  | ⟨name, value⟩ :: attributes =>
    readable name && ((render names source name).isWholeSpread || valueReadable value) &&
      attributesReadable attributes

def valueReadable : Option Node → Bool
  | none => true
  | some value => readable value

end

/-- The code of a program, if its tree can be read. -/
def generate? (nodes : List Node) : Option Text :=
  if allReadable names source nodes then some (renderAll names source nodes) else none

@[simp] theorem renderAll_append (front back : List Node) :
    renderAll names source (front ++ back) =
      renderAll names source front ++ renderAll names source back := by
  induction front with
  | nil => simp [renderAll]
  | cons node nodes ih => simp only [List.cons_append, renderAll, ih, List.append_assoc]

@[simp] theorem allReadable_append (front back : List Node) :
    allReadable names source (front ++ back) =
      (allReadable names source front && allReadable names source back) := by
  induction front with
  | nil => simp [allReadable]
  | cons node nodes ih => simp only [List.cons_append, allReadable, ih, Bool.and_assoc]

end ViewScript
