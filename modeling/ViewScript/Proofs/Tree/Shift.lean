/-
  ViewScript/Proofs/Tree/Shift.lean
  =================================
  **Shifting a tree.**

  The tree of a program changes in one way when text is put before the program: every
  span in it moves by as many bytes.
-/
import ViewScript.Proofs.Parser.Simulation
import ViewScript.Proofs.Tree.Spans

namespace ViewScript

variable (k : Nat)

mutual

/-- A node with every span in it some bytes further on. -/
def Node.shift : Node → Node
  | .verbatim span => .verbatim (span.shift k)
  | .code span => .code (span.shift k)
  | .group delimiter body => .group delimiter (shiftAll body)
  | .comment span => .comment (span.shift k)
  | .text span => .text (span.shift k)
  | .interpolation body => .interpolation (shiftAll body)
  | .reference tag => .reference (shiftTag tag)
  | .selfClosing tag argument => .selfClosing (shiftTag tag) (shiftArgument argument)
  | .element tag attributes children =>
    .element (shiftTag tag) (shiftAttributes attributes) (shiftAll children)
  | .fragment children => .fragment (shiftAll children)

def shiftAll : List Node → List Node
  | [] => []
  | node :: nodes => node.shift :: shiftAll nodes

def shiftTag : Tag Node → Tag Node
  | ⟨leading, name, trailing⟩ => ⟨shiftAll leading, name.shift, shiftAll trailing⟩

def shiftArgument : Argument Node → Argument Node
  | .attributes attributes => .attributes (shiftAttributes attributes)
  | .expression value => .expression value.shift

def shiftAttributes : List (Attribute Node) → List (Attribute Node)
  | [] => []
  | ⟨name, value⟩ :: attributes => ⟨name.shift, shiftOption value⟩ :: shiftAttributes attributes

def shiftOption : Option Node → Option Node
  | none => none
  | some node => some node.shift

end

def shiftAttribute : Attribute Node → Attribute Node
  | ⟨name, value⟩ => ⟨name.shift k, shiftOption k value⟩

theorem map_shift : List.map (Node.shift k) = shiftAll k := by
  funext nodes
  induction nodes with
  | nil => rfl
  | cons node nodes ih => rw [List.map_cons, ih]; rfl

theorem map_shiftAttribute : List.map (shiftAttribute k) = shiftAttributes k := by
  funext attributes
  induction attributes with
  | nil => rfl
  | cons first others ih => rw [List.map_cons, ih]; rfl

theorem map_shift_option : Option.map (Node.shift k) = shiftOption k := by
  funext value
  cases value with
  | none => rfl
  | some node => rfl

mutual

theorem Node.shift_zero (node : Node) : node.shift 0 = node := by
  match node with
  | .verbatim _ | .code _ | .comment _ | .text _ => rfl
  | .group _ body => rw [Node.shift, shiftAll_zero body]
  | .interpolation body => rw [Node.shift, shiftAll_zero body]
  | .reference tag => rw [Node.shift, shiftTag_zero tag]
  | .selfClosing tag argument => rw [Node.shift, shiftTag_zero tag, shiftArgument_zero argument]
  | .element tag attributes children =>
    rw [Node.shift, shiftTag_zero tag, shiftAttributes_zero attributes, shiftAll_zero children]
  | .fragment children => rw [Node.shift, shiftAll_zero children]

theorem shiftAll_zero (nodes : List Node) : shiftAll 0 nodes = nodes := by
  match nodes with
  | [] => rfl
  | node :: nodes => rw [shiftAll, node.shift_zero, shiftAll_zero nodes]

theorem shiftTag_zero (tag : Tag Node) : shiftTag 0 tag = tag := by
  match tag with
  | ⟨leading, name, trailing⟩ =>
    rw [shiftTag, shiftAll_zero leading, name.shift_zero, shiftAll_zero trailing]

theorem shiftArgument_zero (argument : Argument Node) : shiftArgument 0 argument = argument := by
  match argument with
  | .attributes attributes => rw [shiftArgument, shiftAttributes_zero attributes]
  | .expression value => rw [shiftArgument, value.shift_zero]

theorem shiftAttributes_zero (attributes : List (Attribute Node)) :
    shiftAttributes 0 attributes = attributes := by
  match attributes with
  | [] => rfl
  | ⟨name, value⟩ :: attributes =>
    rw [shiftAttributes, name.shift_zero, shiftOption_zero value, shiftAttributes_zero attributes]

theorem shiftOption_zero (value : Option Node) : shiftOption 0 value = value := by
  match value with
  | none => rfl
  | some node => rw [shiftOption, node.shift_zero]

end

mutual

theorem Node.spans_shift (node : Node) : (node.shift k).spans = node.spans.map (Span.shift k) := by
  cases node with
  | verbatim _ | code _ | comment _ | text _ => rfl
  | group _ body => exact spansOf_shiftAll body
  | interpolation body => exact spansOf_shiftAll body
  | reference tag => exact tagSpans_shiftTag tag
  | selfClosing tag argument =>
    simp only [Node.shift, Node.spans, tagSpans_shiftTag tag, argumentSpans_shiftArgument argument,
      List.map_append]
  | element tag attributes children =>
    simp only [Node.shift, Node.spans, tagSpans_shiftTag tag,
      attributesSpans_shiftAttributes attributes, spansOf_shiftAll children, List.map_append]
  | fragment children => exact spansOf_shiftAll children

theorem spansOf_shiftAll (nodes : List Node) :
    spansOf (shiftAll k nodes) = (spansOf nodes).map (Span.shift k) := by
  cases nodes with
  | nil => rfl
  | cons node nodes =>
    simp only [shiftAll, spansOf, node.spans_shift, spansOf_shiftAll nodes, List.map_append]

theorem tagSpans_shiftTag (tag : Tag Node) :
    tagSpans (shiftTag k tag) = (tagSpans tag).map (Span.shift k) := by
  cases tag with
  | mk leading name trailing =>
    simp only [shiftTag, tagSpans, spansOf_shiftAll leading, name.spans_shift,
      spansOf_shiftAll trailing, List.map_append]

theorem argumentSpans_shiftArgument (argument : Argument Node) :
    argumentSpans (shiftArgument k argument) = (argumentSpans argument).map (Span.shift k) := by
  cases argument with
  | attributes attributes => exact attributesSpans_shiftAttributes attributes
  | expression value => exact value.spans_shift

theorem attributesSpans_shiftAttributes (attributes : List (Attribute Node)) :
    attributesSpans (shiftAttributes k attributes) =
      (attributesSpans attributes).map (Span.shift k) := by
  cases attributes with
  | nil => rfl
  | cons first attributes =>
    cases first with
    | mk name value =>
      simp only [shiftAttributes, attributesSpans, name.spans_shift, optionSpans_shiftOption value,
        attributesSpans_shiftAttributes attributes, List.map_append]

theorem optionSpans_shiftOption (value : Option Node) :
    optionSpans (shiftOption k value) = (optionSpans value).map (Span.shift k) := by
  cases value with
  | none => rfl
  | some node => exact node.spans_shift

end

end ViewScript
