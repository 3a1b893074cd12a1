/-
  ViewScript/Code/Children.lean
  =============================
  **Children, as the items of an array.**

  A child is an item, or layout that is copied between the items.  Every item but
  the first has a comma before it; layout has none.
-/
import ViewScript.Code.Properties

namespace ViewScript

/-- A child in generated code. -/
inductive Child where
  | layout (text : Text)
  | item (code : Text)
deriving DecidableEq, Repr

namespace Child

def isItem : Child → Bool
  | .layout _ => false
  | .item _ => true

/-- The code of children; `comma` tells whether an item came before them. -/
def codeAfter : Bool → List Child → Text
  | _, [] => []
  | comma, .layout text :: children => text ++ codeAfter comma children
  | comma, .item code :: children => (if comma then "," else "") ++ code ++ codeAfter true children

end Child

/-- The code for a list of children. -/
def childList (children : List Child) : CodeList :=
  ⟨Child.codeAfter false children, children.any Child.isItem, false⟩

/-- The property that holds the children. -/
def childrenProperty (children : List Child) : Text :=
  "children:[" ++ (childList children).code ++ "]"

/-- What an element passes on: its attributes and, unless it was written without
    any, its children. -/
def elementCode (merge : Text) (attributes : List (Attribute Rendered))
    (children : Option (List Child)) : Text :=
  let properties := attributeList merge attributes
  match children with
  | none => properties.object
  | some children =>
    if properties.isExpression then
      mergeCall merge [properties.code, "\x7b" ++ childrenProperty children ++ "\x7d"]
    else
      "\x7b" ++ properties.code ++ properties.separator ++ childrenProperty children ++ "\x7d"

end ViewScript
