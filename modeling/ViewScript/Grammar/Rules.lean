/-
  ViewScript/Grammar/Rules.lean
  =============================
  **The rules that nest, open in what they nest.**

  Two rules come back to themselves: an *expression*, which is host code with
  views in it, and the *children* of a tag.  Every rule here takes the parsers for
  these two as an argument and uses them for what stands inside brackets and tags.

  A mark that can begin several things is read by ordered choice.  A slash begins
  a comment, or else a regular expression, or else is an operator; a `<` begins one
  of the four kinds of view, or else is an operator.
-/
import ViewScript.Grammar.Lexical

namespace ViewScript.Grammar

open ViewScript.Parser

/-- The parsers for what is nested inside a rule. -/
structure Nested where
  expression : Parser (List Node)
  children : Parser (List Node)

namespace Rules

variable (nested : Nested)

/-- An expression in brackets. -/
def group (delimiter : Delimiter) : Parser Node := do
  let _ ← char delimiter.opening
  let body ← nested.expression
  let _ ← char delimiter.closing
  return .group delimiter body

/-- A name, a string, or an expression in brackets. -/
def value : Parser Node :=
  firstOf [name, quoted '"', quoted '\'', quoted '\x60',
    group nested .paren, group nested .bracket, group nested .brace]

/-- An attribute, `name` or `name=value`, and the separator after it. -/
def entry : Parser (Attribute Node) := do
  let name ← value nested
  let value ← optional do let _ ← char '='; value nested
  let _ ← separator
  return ⟨name, value⟩

def attributes : Parser (List (Attribute Node)) := many (entry nested)

/-- An expression in braces among the children of a tag. -/
def interpolation : Parser Node := do
  let _ ← char '\x7b'
  let body ← nested.expression
  let _ ← char '\x7d'
  return .interpolation body

/-- What a tag opens with: `<`, its name and the separators around the name. -/
def opening : Parser (Tag Node) := do
  let _ ← char '<'
  let leading ← separator
  let name ← value nested
  let trailing ← separator
  return ⟨leading, name, trailing⟩

/-- A reference to a view, `<Name*>`. -/
def reference : Parser Node := do
  let tag ← opening nested
  let _ ← word ['*', '>']
  return .reference tag

/-- The attributes of a tag without children, or one value. -/
def argument : Parser (Argument Node) :=
  orElse (attempt (.attributes <$> attributes nested)) (.expression <$> value nested)

/-- A tag without children, `<name attributes/>`. -/
def selfClosing : Parser Node := do
  let tag ← opening nested
  let argument ← argument nested
  let _ ← word ['/', '>']
  return .selfClosing tag argument

/-- An element, `<name attributes>children</name>`.  The name in the closing tag is
    skipped, whatever it is. -/
def element : Parser Node := do
  let tag ← opening nested
  let attributes ← attributes nested
  let _ ← char '>'
  let children ← nested.children
  let _ ← word ['<', '/']
  let _ ← many (exclude [['>']])
  let _ ← char '>'
  return .element tag attributes children

/-- A fragment, `<>children</>`. -/
def fragment : Parser Node := do
  let _ ← word ['<', '>']
  let children ← nested.children
  let _ ← word ['<', '/', '>']
  return .fragment children

/-- The four kinds of view, none of which commits the choice it stands in. -/
def views : List (Parser Node) :=
  [attempt (reference nested), attempt (selfClosing nested), attempt (element nested),
    attempt (fragment nested)]

/-- Views, text and interpolations. -/
def children : Parser (List Node) :=
  many (firstOf (views nested ++ [text, interpolation nested]))

/-- Host code with views in it.  It ends where the text ends or a closing bracket
    is left for the group around it. -/
def expression : Parser (List Node) :=
  many (firstOf (
    [lineComment, blockComment, attempt regex, comment, value nested] ++ views nested ++
      [operator '/', operator '<', plainCode]))

end Rules

end ViewScript.Grammar
