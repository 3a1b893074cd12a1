/-
  ViewScript/Grammar/Lexical.lean
  ===============================
  **The rules that do not nest: separators, comments, quotes, text.**

  Inside quotes, template comments and text a backslash takes the next character
  with it, so that a delimiter after it does not count.
-/
import ViewScript.Parser.Basic
import ViewScript.Tree

namespace ViewScript.Grammar

open ViewScript.Parser

/-- The characters of a name: letters, digits and a few marks of ASCII. -/
def isNameChar (c : Char) : Bool := c.isAlphanum || c == '_' || c == '$' || c == '.' || c == '-'

/-- The white space that separates the parts of a tag. -/
def isSeparatorChar (c : Char) : Bool := c == ' ' || c == '\t' || c == '\n' || c == '\r'

/-- The words that end a run of plain host code. -/
def codeDelimiters : List Text :=
  [['/'], ['#'], ['"'], ['\''], ['\x60'], ['('], [')'], ['['], [']'], ['\x7b'], ['\x7d'], ['<']]

/-- A backslash with the character after it, or a character that is no delimiter. -/
def escapedOr (delimiters : List Text) : Parser Span :=
  orElse (spanned do let _ ← char '\\'; anyChar) (exclude delimiters)

/-- A comment, `#content#`. -/
def comment : Parser Node := do
  let _ ← char '#'
  let content ← spanned (many (escapedOr [['#']]))
  let _ ← char '#'
  return .comment content

/-- A stretch of white space. -/
def whitespace : Parser Node := .verbatim <$> spanned (many1 (charOf "whitespace" isSeparatorChar))

/-- White space and comments. -/
def separator : Parser (List Node) := many (orElse whitespace comment)

/-- A run of name characters. -/
def name : Parser Node := .code <$> spanned (many1 (charOf "identifier" isNameChar))

/-- A string between two equal marks, which belong to it. -/
def quoted (mark : Char) : Parser Node :=
  .verbatim <$> spanned do
    let _ ← char mark
    let _ ← many (escapedOr [[mark]])
    char mark

/-- Text among the children of a tag, up to a brace or a tag. -/
def text : Parser Node := .text <$> spanned (many1 (escapedOr [['\x7b'], ['<']]))

/-- A comment up to the end of the line. -/
def lineComment : Parser Node :=
  .verbatim <$> spanned do
    let _ ← word ['/', '/']
    many (exclude [['\n']])

/-- A comment between `/*` and the nearest `*/`. -/
def blockComment : Parser Node :=
  .verbatim <$> spanned do
    let _ ← word ['/', '*']
    let _ ← many (exclude [['*', '/']])
    word ['*', '/']

/-- A regular expression: at least one item on one line between two slashes. -/
def regex : Parser Node :=
  .verbatim <$> spanned do
    let _ ← char '/'
    let _ ← many1 (orElse (spanned do let _ ← char '\\'; exclude [['\n']])
      (exclude [['/'], ['\n']]))
    char '/'

/-- One character of host code that is an operator. -/
def operator (c : Char) : Parser Node := .verbatim <$> char c

/-- A run of plain host code. -/
def plainCode : Parser Node := .code <$> spanned (many1 (exclude codeDelimiters))

end ViewScript.Grammar
