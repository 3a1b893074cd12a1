/-
  ViewScript/Proofs/Tree/Spans.lean
  =================================
  **The spans of a tree, and how they lie in a text.**

  A list of spans is a *tiling* of a text when the text is cut into pieces of which
  some are the spans, in order, and the others are gaps.  The spans of a tiling are
  then whole characters of the text, one after the other, and no two of them
  overlap.
-/
import ViewScript.Proofs.Parser.Contract
import ViewScript.Tree

namespace ViewScript

/-! ### The spans of a tree -/

mutual

/-- The spans of a node, at any depth and in the order of the source. -/
def Node.spans : Node → List Span
  | .verbatim span | .code span | .comment span | .text span => [span]
  | .group _ body => spansOf body
  | .interpolation body => spansOf body
  | .reference tag => tagSpans tag
  | .selfClosing tag argument => tagSpans tag ++ argumentSpans argument
  | .element tag attributes children =>
    tagSpans tag ++ (attributesSpans attributes ++ spansOf children)
  | .fragment children => spansOf children

/-- The spans of a list of nodes. -/
def spansOf : List Node → List Span
  | [] => []
  | node :: nodes => node.spans ++ spansOf nodes

def tagSpans : Tag Node → List Span
  | ⟨leading, name, trailing⟩ => spansOf leading ++ (name.spans ++ spansOf trailing)

def argumentSpans : Argument Node → List Span
  | .attributes attributes => attributesSpans attributes
  | .expression value => value.spans

def attributesSpans : List (Attribute Node) → List Span
  | [] => []
  | ⟨name, value⟩ :: attributes => name.spans ++ (optionSpans value ++ attributesSpans attributes)

def optionSpans : Option Node → List Span
  | none => []
  | some node => node.spans

end

theorem spansOf_append (front back : List Node) :
    spansOf (front ++ back) = spansOf front ++ spansOf back := by
  induction front with
  | nil => rfl
  | cons node front ih => rw [List.cons_append, spansOf, spansOf, ih, List.append_assoc]

/-! ### Tilings -/

/-- The text at the offset is cut into gaps and the given spans, in order. -/
inductive Tiling : Nat → Text → List Span → Prop
  | gap {o : Nat} (text : Text) : Tiling o text []
  | cover {o : Nat} {gap covered rest : Text} {spans : List Span} :
    Tiling (o + gap.byteSize + covered.byteSize) rest spans →
      Tiling o (gap ++ (covered ++ rest)) (.ofText (o + gap.byteSize) covered :: spans)

namespace Tiling

variable {o : Nat} {text more : Text} {spans others : List Span}

theorem prepend (gap : Text) (tiling : Tiling (o + gap.byteSize) text spans) :
    Tiling o (gap ++ text) spans := by
  generalize start : o + gap.byteSize = offset at tiling
  cases tiling with
  | gap => exact .gap _
  | @cover _ inner covered rest spans tiling =>
    subst start
    have whole : Tiling o ((gap ++ inner) ++ (covered ++ rest))
        (.ofText (o + (gap ++ inner).byteSize) covered :: spans) := by
      refine .cover ?_
      rw [Text.byteSize_append, ← Nat.add_assoc]
      exact tiling
    rw [Text.byteSize_append, ← Nat.add_assoc, List.append_assoc] at whole
    exact whole

theorem append (first : Tiling o text spans) (second : Tiling (o + text.byteSize) more others) :
    Tiling o (text ++ more) (spans ++ others) := by
  induction first with
  | gap text => exact prepend text second
  | cover _ ih =>
    rw [List.append_assoc, List.append_assoc]
    refine .cover (ih ?_)
    simpa [Nat.add_assoc] using second

theorem whole (o : Nat) (text : Text) : Tiling o text [.ofText o text] := by
  have single : Tiling o ([] ++ (text ++ [])) [.ofText (o + Text.byteSize []) text] :=
    .cover (.gap [])
  simpa using single

theorem extend (tiling : Tiling o text spans) (gap : Text) : Tiling o (text ++ gap) spans := by
  have longer := tiling.append (.gap gap)
  rwa [List.append_nil] at longer

/-- A tiling with a gap before it and a gap after it. -/
theorem enclose (front back : Text) (tiling : Tiling (o + front.byteSize) text spans) :
    Tiling o (front ++ (text ++ back)) spans :=
  prepend front (tiling.extend back)

theorem mem (tiling : Tiling o text spans) {span : Span} (member : span ∈ spans) :
    span.Covers o text := by
  induction tiling with
  | gap => cases member
  | @cover o gap covered rest spans _ ih =>
    rcases List.mem_cons.mp member with rfl | member
    · exact ⟨gap, covered, rest, rfl, rfl⟩
    · have later := ih member
      rw [Nat.add_assoc, ← Text.byteSize_append] at later
      rw [← List.append_assoc]
      exact later.prepend (gap ++ covered)

/-- The spans of a tiling can be read wherever the text stands. -/
theorem within (front back : Text) (tiling : Tiling front.byteSize text spans) {span : Span}
    (member : span ∈ spans) : span.Within (front ++ (text ++ back)) :=
  (tiling.mem member).within

end Tiling

end ViewScript
