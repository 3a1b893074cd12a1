/-
  ViewScript/Diagnostic/Excerpt.lean
  ==================================
  **Showing where a source is wrong.**

  Two excerpts of a source with a caret under the place: `detailed?` quotes the
  line, `context?` quotes the lines around it as well, with their numbers in a
  gutter.  Neither exists for an offset inside a character, and the second one only
  as long as its caret stands in one of the first 65535 columns.
-/
import ViewScript.Source.Lines

namespace ViewScript.Excerpt

/-- The message for an expectation that was not met, with the line quoted and a caret
    below it.  At the end of the source there is nothing to quote. -/
def detailed? (source : Text) (offset : Nat) (expected : Text) : Option Text :=
  let message : Text := "Parse error: expected " ++ expected ++ " at "
  if source.byteSize ≤ offset then some (message ++ "end of input")
  else do
    let index := LineIndex.ofSource source
    let position ← index.position? offset
    let place := Text.ofNat position.line ++ ":" ++ Text.ofNat position.column
    let line := (index.line? position.line).getD []
    return message ++ place ++ "\n" ++ place ++ " " ++ line ++ "\n" ++
      Text.blanks (place.length + position.column) ++ "^"

/-- Blanks at the end of a source, so that there is a character at the offset. -/
def padTo (source : Text) (offset : Nat) : Text :=
  source ++ Text.blanks (offset + 1 - source.byteSize)

/-- A line with its number, which is aligned in a gutter. -/
def numbered (width line : Nat) (text : Text) : Text :=
  (Text.ofNat line ++ "| ").alignRight width ++ text

/-- The last column that the caret of `context?` can stand in. -/
def lastColumn : Nat := 65535

/-- The line of an offset and its two neighbours, with a caret below the offset.  An
    offset too far past the end is turned down before any blanks are added. -/
def context? (source : Text) (offset : Nat) : Option Text := do
  guard (offset < source.byteSize + lastColumn)
  let index := LineIndex.ofSource (padTo source offset)
  let position ← index.position? offset
  guard (position.column ≤ lastColumn)
  let line := position.line
  let width := (Text.ofNat (line + 1)).length + 2
  let before : Text := match index.line? (line - 1) with
    | some text => numbered width (line - 1) text ++ "\n"
    | none => []
  let after : Text := match index.line? (line + 1) with
    | some text => "\n" ++ numbered width (line + 1) text
    | none => []
  return before ++ numbered width line ((index.line? line).getD []) ++ "\n" ++
    Text.alignRight width "| " ++ Text.alignRight position.column "^" ++ after

end ViewScript.Excerpt
