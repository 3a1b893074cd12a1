/-
  ViewScript/Parser/Pattern.lean
  ==============================
  **Patterns: parsers written down as data.**

  A pattern names the combinators of a parser and how they are nested, so that
  one can speak about every parser that can be built from them.  Running a
  pattern yields a capture, which records what each part matched.
-/
import ViewScript.Parser.Basic

namespace ViewScript

/-- How a parser is put together. -/
inductive Pattern where
  | char (c : Char)
  | word (text : Text)
  | charOf (className : Text) (test : Char → Bool)
  | anyChar
  | endOfInput
  | exclude (words : List Text)
  | seq (parts : List Pattern)
  | both (first second : Pattern)
  | orElse (first second : Pattern)
  | attempt (pattern : Pattern)
  | firstOf (alternatives : List Pattern)
  | many (pattern : Pattern)
  | many1 (pattern : Pattern)
  | optional (pattern : Pattern)
  | labelled (pattern : Pattern) (label : Text)
  | spanned (pattern : Pattern)

/-- What a pattern matched. -/
inductive Capture where
  | span (span : Span)
  | seq (parts : List Capture)
  | both (first second : Capture)
  | many (captures : List Capture)
  | optional (capture : Option Capture)
  | labelled (label : Text) (capture : Capture)
deriving Repr

namespace Pattern

mutual

/-- The parser that a pattern describes. -/
def parser : Pattern → Parser Capture
  | .char c => .span <$> Parser.char c
  | .word text => .span <$> Parser.word text
  | .charOf className test => .span <$> Parser.charOf className test
  | .anyChar => .span <$> Parser.anyChar
  | .endOfInput => .span <$> Parser.endOfInput
  | .exclude words => .span <$> Parser.exclude words
  | .seq parts => .seq <$> sequence parts
  | .both first second => do
    let a ← first.parser
    let b ← second.parser
    return .both a b
  | .orElse first second => Parser.orElse first.parser second.parser
  | .attempt pattern => Parser.attempt pattern.parser
  | .firstOf alternatives => Parser.firstOf (parsers alternatives)
  | .many pattern => .many <$> Parser.many pattern.parser
  | .many1 pattern => .many <$> Parser.many1 pattern.parser
  | .optional pattern => .optional <$> Parser.optional pattern.parser
  | .labelled pattern label => .labelled label <$> pattern.parser
  | .spanned pattern => .span <$> Parser.spanned pattern.parser

/-- The parsers of several patterns, run one after the other. -/
def sequence : List Pattern → Parser (List Capture)
  | [] => pure []
  | pattern :: patterns => do
    let capture ← pattern.parser
    let captures ← sequence patterns
    return capture :: captures

/-- The parsers of several patterns. -/
def parsers : List Pattern → List (Parser Capture)
  | [] => []
  | pattern :: patterns => pattern.parser :: parsers patterns

end

/-- Run a pattern from an offset of a text. -/
def runAt (pattern : Pattern) (text : Text) (offset : Nat) : Reply Capture :=
  pattern.parser.runAt text offset

end Pattern

end ViewScript
