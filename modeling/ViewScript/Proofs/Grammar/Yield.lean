/-
  ViewScript/Proofs/Grammar/Yield.lean
  ====================================
  **What a derivation says about the source.**

  The spans of a derived tree tile the text it is derived from.  So whatever a
  production reads, at any boundary of any source, is the text of a derivation, and
  the spans of its value are pieces of that text in the order of the source.
-/
import ViewScript.Proofs.Grammar.Soundness
import ViewScript.Proofs.Tree.Spans

namespace ViewScript.Grammar

/-- The spans of the trees of a production. -/
def Production.spans : (production : Production) → production.Value → List Span
  | .separator | .children | .expression | .program => spansOf
  | .attributes => attributesSpans
  | .opening => tagSpans
  | .comment | .value | .text | .interpolation | .reference | .selfClosing | .element
  | .fragment | .view => Node.spans

theorem Derives.tiling {production : Production} {offset : Nat} {text : Text}
    {value : production.Value} (derives : Derives production offset text value) :
    Tiling offset text (production.spans value) := by
  induction derives with
  | separatorEnd => exact .gap []
  | separatorBlank _ _ rest => exact (Tiling.whole _ _).append rest
  | separatorComment _ _ note rest => exact note.append rest
  | comment _ => exact Tiling.enclose ['#'] ['#'] (.whole _ _)
  | name _ => exact .whole _ _
  | quoted _ _ => exact .whole _ _
  | @group o delimiter inside body _ ih =>
    refine Tiling.enclose [delimiter.opening] [delimiter.closing] ?_
    have one : Text.byteSize [delimiter.opening] = 1 := by cases delimiter <;> rfl
    rw [one]
    exact ih
  | attributesEnd => exact .gap []
  | attributesName _ _ _ name _ rest => exact name.append (rest.prepend _)
  | attributesValue _ _ _ _ name value _ rest =>
    exact name.append (Tiling.prepend ['='] (value.append (rest.prepend _)))
  | text _ _ => exact .whole _ _
  | interpolation _ ih => exact Tiling.enclose ['\x7b'] ['\x7d'] ih
  | opening _ _ _ leading name trailing =>
    exact Tiling.prepend ['<'] (leading.append (name.append trailing))
  | reference _ tag => exact tag.extend _
  | selfClosing _ _ tag attributes => exact tag.append (attributes.extend _)
  | selfClosingValue _ _ tag value => exact tag.append (value.extend _)
  | element _ _ _ _ tag attributes children =>
    exact tag.append (attributes.append (Tiling.enclose ['>'] _ children))
  | fragment _ children => exact Tiling.enclose ['<', '>'] ['<', '/', '>'] children
  | viewReference _ ih => exact ih
  | viewSelfClosing _ ih => exact ih
  | viewElement _ ih => exact ih
  | viewFragment _ ih => exact ih
  | childrenEnd => exact .gap []
  | childrenView _ _ item rest => exact item.append rest
  | childrenText _ _ item rest => exact item.append rest
  | childrenInterpolation _ _ item rest => exact item.append rest
  | expressionEnd => exact .gap []
  | expressionMark _ _ rest => exact (Tiling.whole _ _).append rest
  | expressionCode _ _ rest => exact (Tiling.whole _ _).append rest
  | expressionComment _ _ item rest => exact item.append rest
  | expressionValue _ _ item rest => exact item.append rest
  | expressionView _ _ item rest => exact item.append rest
  | program _ ih => exact ih

/-- **Every production reads what the grammar derives.**  Wherever a production starts
    at a boundary and succeeds, the text between the start and the place where it ends
    is derived from the production with exactly the value as its tree, and the spans of
    the value tile that text. -/
theorem read_derives (production : Production) (source : Text) (start : Nat)
    (boundary : source.IsBoundary start) {value : production.Value} {next : Cursor}
    (done : production.parser.runAt source start = .ok value next) :
    ∃ read, Span.slice? source ⟨start, next.offset⟩ = some read ∧
      Derives production start read value ∧ Tiling start read (production.spans value) := by
  obtain ⟨front, ahead, rfl, rfl⟩ := boundary.exists_append
  rw [Parser.runAt, Cursor.ofOffset_append] at done
  obtain ⟨read, reads, derived⟩ := (sound_production production).ok done
  obtain rfl : ahead = read ++ next.rest := reads.rest_eq
  refine ⟨read, ?_, derived, derived.tiling⟩
  rw [reads.offset_eq]
  exact Span.slice?_ofText front read next.rest

theorem read_derives_element :
    Text.IsBoundary "é<p a>x</q>;" 2 ∧
      Production.element.parser.runAt "é<p a>x</q>;" 2 =
        .ok (.element ⟨[], .code ⟨3, 4⟩, [.verbatim ⟨4, 5⟩]⟩ [⟨.code ⟨5, 6⟩, none⟩] [.text ⟨7, 8⟩])
          ⟨12, .chars [';']⟩ ∧
      ∃ read, Span.slice? "é<p a>x</q>;" ⟨2, 12⟩ = some read ∧
        Derives .element 2 read
          (.element ⟨[], .code ⟨3, 4⟩, [.verbatim ⟨4, 5⟩]⟩ [⟨.code ⟨5, 6⟩, none⟩]
            [.text ⟨7, 8⟩]) ∧
        Tiling 2 read [⟨3, 4⟩, ⟨4, 5⟩, ⟨5, 6⟩, ⟨7, 8⟩] := by
  have boundary : Text.IsBoundary "é<p a>x</q>;" 2 := by decide
  have done : Production.element.parser.runAt "é<p a>x</q>;" 2 =
      .ok (.element ⟨[], .code ⟨3, 4⟩, [.verbatim ⟨4, 5⟩]⟩ [⟨.code ⟨5, 6⟩, none⟩] [.text ⟨7, 8⟩])
        ⟨12, .chars [';']⟩ := by decide +kernel
  exact ⟨boundary, done, read_derives .element _ 2 boundary done⟩

end ViewScript.Grammar

namespace ViewScript

open Grammar

theorem parse_eq_ok_iff {source : Text} {nodes : List Node} :
    parse source = .ok nodes ↔ ∃ next, program (Cursor.ofText source) = .ok nodes next := by
  unfold parse
  cases program (Cursor.ofText source) with
  | ok value next => simp
  | fail failure => simp

theorem parse_eq_error_iff {source : Text} {failure : Failure} :
    parse source = .error failure ↔ program (Cursor.ofText source) = .fail failure := by
  unfold parse
  cases program (Cursor.ofText source) with
  | ok value next => simp
  | fail failure => simp

/-- A program is derived as an expression, all of it. -/
theorem derives_of_parse {source : Text} {nodes : List Node} (parsed : parse source = .ok nodes) :
    Derives .expression 0 source nodes := by
  obtain ⟨next, done⟩ := parse_eq_ok_iff.mp parsed
  obtain ⟨read, reads, derived, finished⟩ := meets_program.ok done
  have whole : source = read ++ next.rest := reads.rest_eq
  rw [finished, List.append_nil] at whole
  subst whole
  exact derived

theorem isBoundary_of_parse_error {source : Text} {failure : Failure}
    (failed : parse source = .error failure) : source.IsBoundary failure.position := by
  obtain ⟨read, place, reads, position⟩ := meets_program.fail (parse_eq_error_iff.mp failed)
  have whole : source = read ++ place.rest := reads.rest_eq
  have offset : place.offset = 0 + read.byteSize := reads.offset_eq
  rw [position, offset, Nat.zero_add, whole]
  exact Text.isBoundary_append read place.rest

end ViewScript
