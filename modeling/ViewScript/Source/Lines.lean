/-
  ViewScript/Source/Lines.lean
  ============================
  **Lines and columns.**

  A line index holds the offsets at which the lines of a source start.  They grow,
  so the line of an offset is found by halving.  Lines and columns are counted from
  one, and columns count characters.
-/
import ViewScript.Source.Span

namespace ViewScript

/-- A place in a source as people name it. -/
structure Position where
  line : Nat
  column : Nat
deriving DecidableEq, Repr

/-- A source with the offsets at which its lines start. -/
structure LineIndex where
  source : Text
  starts : Array Nat
deriving Repr

namespace LineIndex

/-- The offset after each line break; the text starts at `offset`. -/
def startsFrom (offset : Nat) : Text → List Nat
  | [] => []
  | c :: cs =>
    if c = '\n' then (offset + c.utf8Size) :: startsFrom (offset + c.utf8Size) cs
    else startsFrom (offset + c.utf8Size) cs

/-- The line index of a source.  The first line starts at the beginning. -/
def ofSource (source : Text) : LineIndex := ⟨source, (0 :: startsFrom 0 source).toArray⟩

/-- The number of starts up to `offset`, given that it is at least `low` and at most
    `high`. -/
def countUpTo (starts : Array Nat) (offset low high : Nat) : Nat :=
  if low < high then
    let middle := (low + high) / 2
    if starts.getD middle 0 ≤ offset then countUpTo starts offset (middle + 1) high
    else countUpTo starts offset low middle
  else low
termination_by high - low

/-- The place of an offset; an offset past the end stands for the end.  There is
    none for an offset inside a character. -/
def position? (index : LineIndex) (offset : Nat) : Option Position :=
  let line := countUpTo index.starts offset 0 index.starts.size
  let span : Span := ⟨index.starts.getD (line - 1) 0, min offset index.source.byteSize⟩
  (span.slice? index.source).map fun before => ⟨line, before.length + 1⟩

/-- A line without its line break. -/
def line? (index : LineIndex) : Nat → Option Text
  | 0 => none
  | line + 1 => do
    let start ← index.starts[line]?
    let stop := match index.starts[line + 1]? with
      | some next => next - 1
      | none => index.source.byteSize
    Span.slice? index.source ⟨start, stop⟩

end LineIndex

/-- The place of an offset of a source. -/
def Text.position? (source : Text) (offset : Nat) : Option Position :=
  (LineIndex.ofSource source).position? offset

end ViewScript
