/-
  ViewScript/Proofs/Code/Locality.lean
  ====================================
  **Code depends on the texts of the spans only.**

  A tree may be moved to another source: if every span, shifted, has there the text that it
  had before, the code stays the same.  So a tree can be read from its own source, and from
  a longer one that this source is a part of.
-/
import ViewScript.Code.Basic
import ViewScript.Proofs.Tree.Shift
import ViewScript.Proofs.Tree.Spans

namespace ViewScript

variable (names : RuntimeNames) {source longer : Text} {k : Nat}

/-- The spans have the same texts in the longer source, where they are shifted. -/
def SameTexts (k : Nat) (source longer : Text) (spans : List Span) : Prop :=
  ∀ span ∈ spans, (span.shift k).slice longer = span.slice source

theorem SameTexts.left {front back : List Span}
    (same : SameTexts k source longer (front ++ back)) : SameTexts k source longer front :=
  (List.forall_mem_append.mp same).1

theorem SameTexts.right {front back : List Span}
    (same : SameTexts k source longer (front ++ back)) : SameTexts k source longer back :=
  (List.forall_mem_append.mp same).2

theorem SameTexts.slice_eq {span : Span} (same : SameTexts k source longer [span]) :
    (span.shift k).slice longer = span.slice source := same span (List.mem_singleton_self span)

theorem readsAsObject_shift (body : List Node)
    (same : SameTexts k source longer (spansOf body)) :
    readsAsObject longer (shiftAll k body) = readsAsObject source body := by
  unfold readsAsObject
  refine congrArg
    (fun codes : List Text => codes.any (·.contains ':') && !codes.any (·.contains '?')) ?_
  induction body with
  | nil => rfl
  | cons node body ih =>
    have rest := ih same.right
    cases node with
    | code span =>
      simp only [shiftAll, Node.shift, List.filterMap_cons, rest]
      rw [same.left.slice_eq]
    | _ =>
      simp only [shiftAll, Node.shift, List.filterMap_cons, rest]

mutual

theorem render_shift (node : Node) (same : SameTexts k source longer node.spans) :
    render names longer (node.shift k) = render names source node := by
  cases node with
  | verbatim span => rw [Node.shift, render, render, same.slice_eq]
  | code span => rw [Node.shift, render, render, same.slice_eq]
  | comment span => rw [Node.shift, render, render, same.slice_eq]
  | text span => rw [Node.shift, render, render, same.slice_eq]
  | group delimiter body =>
    have inside := renderAll_shift body same
    have object := readsAsObject_shift body same
    cases delimiter <;> simp only [Node.shift, render, inside, object]
  | interpolation body => rw [Node.shift, render, render, renderAll_shift body same]
  | reference tag => rw [Node.shift, render, render, renderTag_shift tag same]
  | selfClosing tag argument =>
    have opened := renderTag_shift tag same.left
    cases argument with
    | attributes attributes =>
      have listed := renderAttributes_shift attributes same.right
      simp only [Node.shift, shiftArgument, render, opened, listed]
    | expression value =>
      have one := render_shift value same.right
      simp only [Node.shift, shiftArgument, render, opened, one]
  | element tag attributes children =>
    have opened := renderTag_shift tag same.left
    have listed := renderAttributes_shift attributes same.right.left
    have inside := renderChildren_shift children same.right.right
    have empty : (shiftAll k children).isEmpty = children.isEmpty := by
      cases children <;> rfl
    simp only [Node.shift, render, opened, listed, inside, empty]
  | fragment children => rw [Node.shift, render, render, renderChildren_shift children same]

theorem renderAll_shift (nodes : List Node) (same : SameTexts k source longer (spansOf nodes)) :
    renderAll names longer (shiftAll k nodes) = renderAll names source nodes := by
  cases nodes with
  | nil => rfl
  | cons node nodes =>
    rw [shiftAll, renderAll, renderAll, render_shift node same.left,
      renderAll_shift nodes same.right]

theorem renderTag_shift (tag : Tag Node) (same : SameTexts k source longer (tagSpans tag)) :
    renderTag names longer (shiftTag k tag) = renderTag names source tag := by
  cases tag with
  | mk leading name trailing =>
    rw [shiftTag, renderTag, renderTag, renderAll_shift leading same.left,
      render_shift name same.right.left, renderAll_shift trailing same.right.right]

theorem renderAttributes_shift (attributes : List (Attribute Node))
    (same : SameTexts k source longer (attributesSpans attributes)) :
    renderAttributes names longer (shiftAttributes k attributes) =
      renderAttributes names source attributes := by
  cases attributes with
  | nil => rfl
  | cons first attributes =>
    cases first with
    | mk name value =>
      rw [shiftAttributes, renderAttributes, renderAttributes, render_shift name same.left,
        renderValue_shift value same.right.left, renderAttributes_shift attributes same.right.right]

theorem renderValue_shift (value : Option Node)
    (same : SameTexts k source longer (optionSpans value)) :
    renderValue names longer (shiftOption k value) = renderValue names source value := by
  cases value with
  | none => rfl
  | some node => rw [shiftOption, renderValue, renderValue, render_shift node same]

theorem renderChildren_shift (children : List Node)
    (same : SameTexts k source longer (spansOf children)) :
    renderChildren names longer (shiftAll k children) = renderChildren names source children := by
  cases children with
  | nil => rfl
  | cons child children =>
    have item := render_shift child same.left
    have rest := renderChildren_shift children same.right
    cases child with
    | fragment nested =>
      rw [shiftAll, Node.shift, renderChildren, renderChildren,
        renderChildren_shift nested same.left, rest]
    | interpolation body =>
      have inside := renderAll_shift body same.left
      rw [shiftAll, Node.shift, renderChildren, renderChildren, inside, rest]
    | text span =>
      rw [shiftAll, Node.shift, renderChildren, renderChildren, same.left.slice_eq, rest]
    | _ =>
      rw [Node.shift] at item
      simp only [shiftAll, Node.shift, renderChildren, item, rest]

end

end ViewScript
