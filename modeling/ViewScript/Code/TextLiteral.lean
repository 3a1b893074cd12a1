/-
  ViewScript/Code/TextLiteral.lean
  ================================
  **Text among children, as code.**

  Text becomes the inside of a string literal in double quotes.  A backslash and
  the character after it are an escape already and stay as they are.  A line break
  is written as an escape and, after a backslash, as itself, so that code after it
  keeps its line.

  Text that only lays out the source, blanks with a line break among them, is no
  child at all and is copied.
-/
import ViewScript.Text.Blank

namespace ViewScript

/-- Write a text as the inside of a string literal. -/
def escapeText : Text → Text
  | [] => []
  | '\\' :: c :: cs => '\\' :: c :: escapeText cs
  | '"' :: cs => '\\' :: '"' :: escapeText cs
  | '\n' :: cs => '\\' :: 'n' :: '\\' :: '\n' :: escapeText cs
  | '\r' :: cs => '\\' :: 'r' :: escapeText cs
  | c :: cs => c :: escapeText cs

/-- Whether a text only lays out the source. -/
def isLayout (text : Text) : Bool := text.contains '\n' && text.isBlank

/-- The call that makes a text node of the value of an expression. -/
def textCall (components expression : Text) : Text :=
  components ++ ".text(\x7bdata:" ++ expression ++ "\x7d)"

/-- The code of a text. -/
def textCode (components text : Text) : Text :=
  if isLayout text then text else textCall components (escapeText text).quoted

end ViewScript
