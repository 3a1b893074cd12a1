/-
  ViewScript/Code/Rendered.lean
  =============================
  **Code of a node, with its braces set apart.**

  Where a tag has a name or an attribute has a value, braces around an expression
  only mark it as one.  They are dropped there, and kept everywhere else.
-/
import ViewScript.Code.Names

namespace ViewScript

/-- The code of a node. -/
inductive Rendered where
  | plain (code : Text)
  /-- Code in braces, which stand around `inside`.  `objectLike` tells whether it
      reads as an object literal rather than as an expression in braces. -/
  | braced (inside : Text) (objectLike : Bool)
deriving DecidableEq, Repr

namespace Rendered

/-- All of the code. -/
def code : Rendered → Text
  | .plain code => code
  | .braced inside _ => "\x7b" ++ inside ++ "\x7d"

/-- The code without the braces. -/
def bare : Rendered → Text
  | .plain code => code
  | .braced inside _ => inside

/-- The code as the value of an attribute.  An object literal needs its braces. -/
def valueCode : Rendered → Text
  | .braced inside true => (braced inside true).code
  | rendered => rendered.bare

/-- The code that constructs what a tag names: an expression, a component of the
    library, or a name as it stands. -/
def tagName (components : Text) : Rendered → Text
  | .braced inside _ => "(" ++ inside ++ ")"
  | .plain code => if isBuiltin code then components ++ "." ++ code else code

end Rendered

/-- Code for a list of properties or children. -/
structure CodeList where
  code : Text
  /-- Whether a comma is due before one more item. -/
  needsComma : Bool
  /-- Whether the code is an expression by itself, and not a row of items. -/
  isExpression : Bool
deriving DecidableEq, Repr

/-- What has to stand before one more item. -/
def CodeList.separator (list : CodeList) : Text := if list.needsComma then "," else ""

end ViewScript
