/-
  ViewScript/Grammar/Basic.lean
  =============================
  **The grammar, closed.**

  What is nested in an expression or in children starts at least one character
  further on.  So the rules can be nested in each other with a budget, the number
  of levels that are left, and a budget of one more than the characters ahead is
  never used up.
-/
import ViewScript.Grammar.Rules

namespace ViewScript.Grammar

open ViewScript.Parser

/-- Nest the rules once more. -/
def Nested.deepen (nested : Nested) : Nested where
  expression := Rules.expression nested
  children := Rules.children nested

/-- The rules nested `budget` times in each other, with `bottom` inside. -/
def Nested.levels (bottom : Nested) : Nat → Nested
  | 0 => bottom
  | budget + 1 => (levels bottom budget).deepen

/-- Parsers that find nothing, for the bottom of the nesting. -/
def Nested.nothing : Nested where
  expression := failHere .alternatives
  children := failHere .alternatives

/-- Close a rule: what is nested in it has as many levels as the text ahead can
    need. -/
def close {α : Type} (rule : Nested → Parser α) : Parser α := fun cursor =>
  rule (Nested.nothing.levels (cursor.rest.length + 1)) cursor

def value : Parser Node := close Rules.value

def attributes : Parser (List (Attribute Node)) := close Rules.attributes

def interpolation : Parser Node := close Rules.interpolation

def reference : Parser Node := close Rules.reference

def selfClosing : Parser Node := close Rules.selfClosing

def element : Parser Node := close Rules.element

def fragment : Parser Node := close Rules.fragment

def children : Parser (List Node) := close Rules.children

def expression : Parser (List Node) := close Rules.expression

/-- A whole program: an expression that ends where the text ends. -/
def program : Parser (List Node) := do
  let nodes ← expression
  let _ ← endOfInput
  return nodes

end ViewScript.Grammar

namespace ViewScript

/-- Read a program into its tree. -/
def parse (source : Text) : Except Failure (List Node) :=
  match Grammar.program (Cursor.ofText source) with
  | .ok nodes _ => .ok nodes
  | .fail failure => .error failure

end ViewScript
