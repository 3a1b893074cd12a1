/-
  ViewScript/Source/Span.lean
  ===========================
  **Spans: stretches of a source text.**

  A span is given by the byte offsets of its ends.  The tree of a program holds
  spans, not text; `slice?` reads one back.
-/
import ViewScript.Text.Basic

namespace ViewScript

/-- The bytes from `start` up to `stop`. -/
structure Span where
  start : Nat
  stop : Nat
deriving DecidableEq, Repr, Inhabited

namespace Span

/-- The text of a span; `none` if the span ends before it starts, reaches past the
    end of the source, or splits a character. -/
def slice? (source : Text) (span : Span) : Option Text :=
  if span.start ≤ span.stop then
    (source.dropBytes? span.start).bind fun rest => Text.takeBytes? (span.stop - span.start) rest
  else none

/-- The text of a span; empty when the span has none. -/
def slice (source : Text) (span : Span) : Text := (span.slice? source).getD []

/-- A span that has a text. -/
def isValid (source : Text) (span : Span) : Bool := (span.slice? source).isSome

/-- The middle of three texts is the slice between their borders. -/
theorem slice?_append (front middle back : Text) :
    slice? (front ++ middle ++ back)
      ⟨front.byteSize, front.byteSize + middle.byteSize⟩ = some middle := by
  have cut : Text.dropBytes? front.byteSize (front ++ (middle ++ back)) = some (middle ++ back) :=
    Text.dropBytes?_append front (middle ++ back)
  simp only [slice?, Nat.le_add_right, if_true, List.append_assoc, cut, Option.bind_some,
    Nat.add_sub_cancel_left, Text.takeBytes?_append]

end Span

end ViewScript
