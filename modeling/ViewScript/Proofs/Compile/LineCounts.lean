/-
  ViewScript/Proofs/Compile/LineCounts.lean
  =========================================
  **Compiling keeps lines, but for what tags drop.**

  Of a source, the tree keeps spans, and the code has the line breaks of those that stand
  outside attributes.  What else stands in the source is markup without line breaks, except
  in two places: the list of attributes of a tag, and the name in a closing tag.  These are
  the *stretches* of a source.

  So the code has at most the line breaks of the source, and it lacks no more of them than
  lie in the stretches.
-/
import ViewScript.Proofs.Code.LineBreaks
import ViewScript.Proofs.Compile.HostCode

namespace ViewScript

open Grammar

/-! ### Spans and gaps -/

theorem breaksAt_cons_ofText {source text : Text} {o : Nat} (stands : source.StandsAt o text)
    (spans : List Span) :
    breaksAt source (.ofText o text :: spans) = text.breaks + breaksAt source spans := by
  simp [breaksAt, stands.slice_eq]

theorem breaksAt_ofText {source text : Text} {o : Nat} (stands : source.StandsAt o text) :
    breaksAt source [.ofText o text] = text.breaks :=
  breaksAt_cons_ofText stands []

/-- The spans of a tiling have no more line breaks than the text. -/
theorem Tiling.breaksAt_le {source text : Text} {o : Nat} {spans : List Span}
    (tiling : Tiling o text spans) (stands : source.StandsAt o text) :
    breaksAt source spans ≤ text.breaks := by
  induction tiling with
  | gap text => exact Nat.zero_le _
  | @cover o gap covered rest spans _ ih =>
    have behind := ih stands.right.right
    rw [breaksAt_cons_ofText stands.right.left, Text.breaks_append, Text.breaks_append]
    omega

/-! ### Sources with stretches -/

/-- The text at the offset is the argument of a tag without children. -/
def IsArgumentAt (offset : Nat) (text : Text) : Argument Node → Prop
  | .attributes attributes => Derives .attributes offset text attributes
  | .expression value => Derives .value offset text value

/-- The text at the offset is the source of the nodes.  For each of their tags the stretches
    are the list of attributes, from the end of the separator behind the name up to the mark
    that ends the tag, and the name in the closing tag.  A tag inside the list of another
    one has no stretches of its own, since it lies in that list with all that belongs to
    it. -/
inductive LaidOut : Nat → Text → List Node → List Span → Prop
  | nil {o : Nat} : LaidOut o [] [] []
  | append {o : Nat} {text more : Text} {nodes others : List Node}
      {stretches stretches' : List Span} :
    LaidOut o text nodes stretches → LaidOut (o + text.byteSize) more others stretches' →
      LaidOut o (text ++ more) (nodes ++ others) (stretches ++ stretches')
  | verbatim {o : Nat} {text : Text} : LaidOut o text [.verbatim (.ofText o text)] []
  | code {o : Nat} {text : Text} : LaidOut o text [.code (.ofText o text)] []
  | text {o : Nat} {text : Text} : LaidOut o text [.text (.ofText o text)] []
  | comment {o : Nat} {content : Text} :
    LaidOut o ('#' :: (content ++ ['#'])) [.comment (.ofText (o + 1) content)] []
  | group {o : Nat} {delimiter : Delimiter} {inside : Text} {body : List Node}
      {stretches : List Span} :
    LaidOut (o + 1) inside body stretches →
      LaidOut o (delimiter.opening :: (inside ++ [delimiter.closing])) [.group delimiter body]
        stretches
  | interpolation {o : Nat} {inside : Text} {body : List Node} {stretches : List Span} :
    LaidOut (o + 1) inside body stretches →
      LaidOut o ('\x7b' :: (inside ++ ['\x7d'])) [.interpolation body] stretches
  | reference {o : Nat} {opened : Text} {leading trailing : List Node} {name : Node}
      {stretches : List Span} :
    LaidOut (o + 1) opened (leading ++ name :: trailing) stretches →
      LaidOut o ('<' :: (opened ++ ['*', '>'])) [.reference ⟨leading, name, trailing⟩] stretches
  | selfClosing {o : Nat} {opened list : Text} {leading trailing : List Node} {name : Node}
      {argument : Argument Node} {stretches : List Span} :
    LaidOut (o + 1) opened (leading ++ name :: trailing) stretches →
      IsArgumentAt (o + 1 + opened.byteSize) list argument →
        LaidOut o ('<' :: (opened ++ (list ++ ['/', '>'])))
          [.selfClosing ⟨leading, name, trailing⟩ argument]
          (stretches ++ [.ofText (o + 1 + opened.byteSize) list])
  | element {o : Nat} {opened list inside closing : Text} {leading trailing : List Node}
      {name : Node} {attributes : List (Attribute Node)} {children : List Node}
      {stretches stretches' : List Span} :
    LaidOut (o + 1) opened (leading ++ name :: trailing) stretches →
      Derives .attributes (o + 1 + opened.byteSize) list attributes →
        LaidOut (o + 1 + opened.byteSize + list.byteSize + 1) inside children stretches' →
          '>' ∉ closing →
            LaidOut o
              ('<' :: (opened ++ (list ++ ('>' :: (inside ++ ('<' :: '/' :: (closing ++ ['>'])))))))
              [.element ⟨leading, name, trailing⟩ attributes children]
              (stretches ++ .ofText (o + 1 + opened.byteSize) list :: (stretches' ++
                [.ofText (o + 1 + opened.byteSize + list.byteSize + 1 + inside.byteSize + 2)
                  closing]))
  | fragment {o : Nat} {inside : Text} {children : List Node} {stretches : List Span} :
    LaidOut (o + 2) inside children stretches →
      LaidOut o ('<' :: '>' :: (inside ++ ['<', '/', '>'])) [.fragment children] stretches

/-! ### Every program has stretches -/

/-- The trees of a production are laid out in the text. -/
def Grammar.Production.IsLaidOut (o : Nat) (text : Text) :
    (production : Production) → production.Value → Prop
  | .separator, nodes | .children, nodes | .expression, nodes | .program, nodes =>
    ∃ stretches, LaidOut o text nodes stretches
  | .attributes, _ => True
  | .opening, tag => ∃ opened stretches, text = '<' :: opened ∧
    LaidOut (o + 1) opened (tag.leading ++ tag.name :: tag.trailing) stretches
  | .comment, node | .value, node | .text, node | .interpolation, node | .reference, node
  | .selfClosing, node | .element, node | .fragment, node | .view, node =>
    ∃ stretches, LaidOut o text [node] stretches

theorem exists_laidOut_append {o : Nat} {item rest : Text} {nodes others : List Node}
    (first : ∃ stretches, LaidOut o item nodes stretches)
    (second : ∃ stretches, LaidOut (o + item.byteSize) rest others stretches) :
    ∃ stretches, LaidOut o (item ++ rest) (nodes ++ others) stretches := by
  obtain ⟨stretches, first⟩ := first
  obtain ⟨stretches', second⟩ := second
  exact ⟨stretches ++ stretches', first.append second⟩

theorem Grammar.Derives.isLaidOut {production : Production} {o : Nat} {text : Text}
    {value : production.Value} (derives : Derives production o text value) :
    production.IsLaidOut o text value := by
  induction derives with
  | separatorEnd | childrenEnd | expressionEnd => exact ⟨[], .nil⟩
  | attributesEnd | attributesName _ _ _ _ _ _ | attributesValue _ _ _ _ _ _ _ _ => trivial
  | separatorBlank _ _ rest | expressionMark _ _ rest =>
    exact exists_laidOut_append ⟨[], .verbatim⟩ rest
  | expressionCode _ _ rest => exact exists_laidOut_append ⟨[], .code⟩ rest
  | separatorComment _ _ first rest | childrenView _ _ first rest | childrenText _ _ first rest
  | childrenInterpolation _ _ first rest | expressionComment _ _ first rest
  | expressionValue _ _ first rest | expressionView _ _ first rest =>
    exact exists_laidOut_append first rest
  | comment _ => exact ⟨[], .comment⟩
  | name _ => exact ⟨[], .code⟩
  | quoted _ _ => exact ⟨[], .verbatim⟩
  | text _ _ => exact ⟨[], .text⟩
  | group _ ih =>
    obtain ⟨stretches, inside⟩ := ih
    exact ⟨stretches, .group inside⟩
  | interpolation _ ih =>
    obtain ⟨stretches, inside⟩ := ih
    exact ⟨stretches, .interpolation inside⟩
  | fragment _ ih =>
    obtain ⟨stretches, inside⟩ := ih
    exact ⟨stretches, .fragment inside⟩
  | opening _ _ _ before name after =>
    obtain ⟨stretches, opened⟩ :=
      exists_laidOut_append before (exists_laidOut_append name after)
    exact ⟨_, stretches, rfl, opened⟩
  | reference _ ih =>
    obtain ⟨opened, stretches, rfl, tag⟩ := ih
    exact ⟨stretches, .reference tag⟩
  | selfClosing _ listed tag _ =>
    obtain ⟨opened, stretches, rfl, tag⟩ := tag
    rw [Text.byteSize_cons, ← Nat.add_assoc] at listed
    exact ⟨_, .selfClosing tag listed⟩
  | selfClosingValue _ given tag _ =>
    obtain ⟨opened, stretches, rfl, tag⟩ := tag
    rw [Text.byteSize_cons, ← Nat.add_assoc] at given
    exact ⟨_, .selfClosing tag given⟩
  | element _ listed _ free tag _ inside =>
    obtain ⟨opened, stretches, rfl, tag⟩ := tag
    obtain ⟨stretches', inside⟩ := inside
    rw [Text.byteSize_cons, ← Nat.add_assoc] at listed inside
    exact ⟨_, .element tag listed inside free⟩
  | viewReference _ ih | viewSelfClosing _ ih | viewElement _ ih | viewFragment _ ih
  | program _ ih => exact ih

/-! ### Counting -/

/-- The line breaks of a source are those of the spans outside attributes and those of the
    stretches. -/
theorem LaidOut.breaks_eq {source text : Text} {o : Nat} {nodes : List Node}
    {stretches : List Span} (laidOut : LaidOut o text nodes stretches)
    (stands : source.StandsAt o text) :
    text.breaks = breaksAt source (keptSpansOf nodes) + breaksAt source stretches := by
  induction laidOut with
  | nil => rfl
  | append _ _ first second =>
    have front := first stands.left
    have back := second stands.right
    rw [Text.breaks_append, keptSpansOf_append, breaksAt_append, breaksAt_append]
    omega
  | verbatim => exact (breaksAt_ofText stands).symm
  | code => exact (breaksAt_ofText stands).symm
  | text => exact (breaksAt_ofText stands).symm
  | @comment o content =>
    have inner : source.StandsAt (o + 1) content := stands.tail.left
    simpa [Node.keptSpans, breaksAt] using (breaksAt_ofText inner).symm
  | @group o delimiter inside _ _ _ ih =>
    have inner : source.StandsAt (o + 1) inside := by
      cases delimiter <;> exact stands.tail.left
    have marks : Text.breaks (delimiter.opening :: (inside ++ [delimiter.closing])) =
        inside.breaks := by
      cases delimiter <;> simp [Delimiter.opening, Delimiter.closing]
    simpa [marks, Node.keptSpans] using ih inner
  | interpolation _ ih => simpa [Node.keptSpans] using ih stands.tail.left
  | reference _ ih => simpa [Node.keptSpans, keptSpansOf_tag] using ih stands.tail.left
  | @selfClosing o opened list _ _ _ _ _ _ _ ih =>
    have opens : source.StandsAt (o + 1) (opened ++ (list ++ ['/', '>'])) := stands.tail
    have marks : Text.breaks ('<' :: (opened ++ (list ++ ['/', '>']))) =
        opened.breaks + list.breaks := by simp
    rw [marks, ih opens.left, breaksAt_append, breaksAt_ofText opens.right.left, keptSpansOf_tag,
      keptSpansOf_singleton, Node.keptSpans, Nat.add_assoc]
  | @element o opened list inside closing _ _ _ _ _ _ _ _ _ _ _ ih ih' =>
    have opens : source.StandsAt (o + 1)
      (opened ++ (list ++ ('>' :: (inside ++ ('<' :: '/' :: (closing ++ ['>'])))))) := stands.tail
    have body : source.StandsAt (o + 1 + opened.byteSize + list.byteSize + 1)
      (inside ++ ('<' :: '/' :: (closing ++ ['>']))) := opens.right.right.tail
    have ends : source.StandsAt (o + 1 + opened.byteSize + list.byteSize + 1 + inside.byteSize + 2)
      (closing ++ ['>']) := body.right.tail.tail
    have marks : Text.breaks
        ('<' :: (opened ++ (list ++ ('>' :: (inside ++ ('<' :: '/' :: (closing ++ ['>']))))))) =
          opened.breaks + (list.breaks + (inside.breaks + closing.breaks)) := by simp
    rw [marks, ih opens.left, ih' body.left, keptSpansOf_singleton, Node.keptSpans, breaksAt_append,
      breaksAt_append, breaksAt_cons_ofText opens.right.left, breaksAt_append,
      breaksAt_ofText ends.left, keptSpansOf_tag]
    omega
  | fragment _ ih => simpa [Node.keptSpans] using ih stands.tail.tail.left

/-! ### Compiling -/

theorem breaksAt_eq_zero {source : Text} {spans : List Span} :
    breaksAt source spans = 0 ↔ ∀ span ∈ spans, '\n' ∉ span.slice source := by
  simp [breaksAt, List.sum_eq_zero_iff_forall_eq_nat, Text.breaks_eq_zero]

/-- **Compiling keeps lines.**  If no name of the runtime library has a line break, the code
    has at most the line breaks of the source, and it lacks no more than lie in the stretches.
    If no line break of the source lies in a stretch, the two have equally many. -/
theorem compile_breaks {names : RuntimeNames} {source output : Text} (unbroken : names.Unbroken)
    (compiled : compile names source = .ok output) :
    output.breaks ≤ source.breaks ∧
      ∃ nodes, parse source = .ok nodes ∧ (∃ stretches, LaidOut 0 source nodes stretches) ∧
        ∀ stretches, LaidOut 0 source nodes stretches →
          source.breaks ≤ output.breaks + breaksAt source stretches ∧
            ((∀ stretch ∈ stretches, '\n' ∉ stretch.slice source) →
              output.breaks = source.breaks) := by
  obtain ⟨nodes, parsed, rfl⟩ := compile_eq_ok_iff.mp compiled
  have derived := derives_of_parse parsed
  have stands := Text.StandsAt.whole source
  have bounded := bounded_renderAll source unbroken nodes
  have most := bounded.upper.trans (derived.tiling.breaksAt_le stands)
  refine ⟨most, nodes, parsed, derived.isLaidOut, ?_⟩
  intro stretches laidOut
  have least :
      source.breaks ≤ (renderAll names source nodes).breaks + breaksAt source stretches := by
    rw [laidOut.breaks_eq stands]
    exact Nat.add_le_add_right bounded.lower _
  refine ⟨least, ?_⟩
  intro free
  rw [breaksAt_eq_zero.mpr free, Nat.add_zero] at least
  exact Nat.le_antisymm most least

/-- A line break before the attributes, and one among the children. -/
theorem compile_breaks_element :
    compile {} "<p\n a>\n</p>" = .ok "Moon.view.components.p\n (\x7b\"a\":true,children:[\n]\x7d)" ∧
      LaidOut 0 "<p\n a>\n</p>"
        [.element ⟨[], .code ⟨1, 2⟩, [.verbatim ⟨2, 4⟩]⟩ [⟨.code ⟨4, 5⟩, none⟩] [.text ⟨6, 7⟩]]
        [⟨4, 5⟩, ⟨9, 10⟩] ∧
      Text.breaks "Moon.view.components.p\n (\x7b\"a\":true,children:[\n]\x7d)" =
        Text.breaks "<p\n a>\n</p>" := by
  have unbroken : RuntimeNames.Unbroken {} := ⟨by decide, by decide, by decide⟩
  have parsed : parse "<p\n a>\n</p>" = .ok [.element ⟨[], .code ⟨1, 2⟩, [.verbatim ⟨2, 4⟩]⟩
      [⟨.code ⟨4, 5⟩, none⟩] [.text ⟨6, 7⟩]] := by decide +kernel
  have compiled : compile {} "<p\n a>\n</p>" =
      .ok "Moon.view.components.p\n (\x7b\"a\":true,children:[\n]\x7d)" :=
    compile_eq_ok_iff.mpr ⟨_, parsed, by decide +kernel⟩
  have name : LaidOut 1 ['p'] [.code ⟨1, 2⟩] [] := .code
  have gap : LaidOut 2 ['\n', ' '] [.verbatim ⟨2, 4⟩] [] := .verbatim
  have opened : LaidOut 1 ['p', '\n', ' '] ([] ++ .code ⟨1, 2⟩ :: [.verbatim ⟨2, 4⟩]) [] :=
    name.append gap
  have word : Derives .value 4 ['a'] (.code ⟨4, 5⟩) :=
    .name ⟨List.cons_ne_nil _ _, List.forall_mem_singleton.mpr rfl⟩
  have list : Derives .attributes 4 ['a'] [⟨.code ⟨4, 5⟩, none⟩] :=
    .attributesName word .separatorEnd .attributesEnd
  have inside : LaidOut 6 ['\n'] [.text ⟨6, 7⟩] [] := .text
  have laidOut : LaidOut 0 "<p\n a>\n</p>" [.element ⟨[], .code ⟨1, 2⟩, [.verbatim ⟨2, 4⟩]⟩
      [⟨.code ⟨4, 5⟩, none⟩] [.text ⟨6, 7⟩]] [⟨4, 5⟩, ⟨9, 10⟩] :=
    LaidOut.element opened list inside (by decide : '>' ∉ ['p'])
  obtain ⟨-, nodes, same, -, kept⟩ := compile_breaks unbroken compiled
  cases parsed.symm.trans same
  exact ⟨compiled, laidOut, (kept _ laidOut).2 (by decide)⟩

/-- The list of a tag ends behind the line break, so the code has none. -/
example : (compile {} "<p a\n/>").toOption.map Text.breaks = some 0 := by decide +kernel

end ViewScript
