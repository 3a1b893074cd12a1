/-
  ViewScript/Proofs/Compile/Comments.lean
  =======================================
  **Comments in generated code.**

  The generator drops braces and sets commas, brackets and calls right behind code that
  it copies.  None of that may end up in a line comment.  In the tree a line comment is
  followed by code on a new line, and this code is copied right behind it; so in the
  outline the comment is followed by it too, whatever is put around them.

  A template comment gets other marks: `#c#` becomes a block comment with `c` in it.
  Nothing in `c` is changed, so the block comment ends early if `c` contains its closing
  mark.
-/
import ViewScript.Proofs.Code.Closure
import ViewScript.Proofs.Grammar.LineComments
import ViewScript.Proofs.Scanner.Basic

namespace ViewScript

namespace Outline

variable {names : RuntimeNames} {source : Text}

/-! ### Line comments -/

/-- The outline starts with code on a new line. -/
def BreaksLine (source : Text) (outline : Outline) : Prop :=
  ∃ span rest, outline = .code span :: rest ∧ (span.slice source).head? = some '\n'

/-- Each line comment is followed by code on a new line, or it comes last, if that is
    allowed. -/
def Settled (source : Text) (last : Prop) : Outline → Prop
  | [] => True
  | piece :: pieces =>
    (∀ span, piece = .verbatim span → span.IsLineComment source →
      BreaksLine source pieces ∨ (pieces = [] ∧ last)) ∧ Settled source last pieces

theorem settled_cons {last : Prop} {piece : Piece} {pieces : Outline}
    (other : ∀ span, piece ≠ .verbatim span) (rest : Settled source last pieces) :
    Settled source last (piece :: pieces) :=
  ⟨fun span same => (other span same).elim, rest⟩

theorem settled_append {last : Prop} {front back : Outline} (first : Settled source False front)
    (rest : Settled source last back) : Settled source last (front ++ back) := by
  induction front with
  | nil => exact rest
  | cons piece front ih =>
    refine ⟨?_, ih first.2⟩
    intro span same comment
    rcases first.1 span same comment with ⟨next, others, rfl, isBreak⟩ | ⟨-, ⟨⟩⟩
    exact .inl ⟨next, others ++ back, rfl, isBreak⟩

theorem settled_dropChars (count : Nat) {outline : Outline}
    (settled : Settled source False outline) :
    Settled source False (dropChars names source count outline) := by
  induction outline generalizing count with
  | nil => cases count <;> exact settled
  | cons piece pieces ih =>
    cases count with
    | zero => exact settled
    | succ count =>
      simp only [dropChars]
      split
      · exact ih _ settled.2
      · exact settled_cons (by simp) settled.2

theorem closed_settled : Closed names source (Settled source False) where
  nil := trivial
  append := settled_append
  written _ := settled_cons (by simp) trivial
  code _ := settled_cons (by simp) trivial
  comment _ := settled_cons (by simp) trivial
  called _ _ _ := settled_cons (by simp) (settled_cons (by simp) trivial)
  drop := settled_dropChars

theorem settled_verbatim {last : Prop} {span : Span} (other : ¬ span.IsLineComment source) :
    Settled source last [.verbatim span] := by
  refine ⟨?_, trivial⟩
  rintro _ ⟨⟩ comment
  exact (other comment).elim

/-- Nodes of one list, whose line comments are followed by new lines in the list. -/
theorem settled_renderAll {last : Span → Prop} {allowed : Prop} {nodes : List Node}
    (ends : CommentsEnd source last nodes) (allows : ∀ span, last span → allowed)
    (each : ∀ node ∈ nodes, (∀ span, node ≠ .verbatim span) →
      Settled source False (render names source node).code) :
    Settled source allowed (renderAll names source nodes) := by
  induction nodes with
  | nil => trivial
  | cons node nodes ih =>
    obtain ⟨first, rest⟩ := List.forall_mem_cons.mp each
    have behind : CommentsEnd source last nodes := by
      rintro front span back rfl
      exact ends (node :: front) span back rfl
    have others := ih behind rest
    cases node with
    | verbatim span =>
      refine ⟨?_, others⟩
      rintro _ ⟨⟩ comment
      rcases ends [] span nodes rfl comment with ⟨next, more, rfl, isBreak⟩ | ⟨rfl, isLast⟩
      · exact .inl ⟨next, renderAll names source more, rfl, isBreak⟩
      · exact .inr ⟨rfl, allows span isLast⟩
    | _ => exact settled_append (first (by simp)) others

theorem keeps_settled {part : Part} (derived : part.IsDerived source)
    (ends : CommentsEnd source (fun _ => False) part.nodes) :
    Keeps names source (Settled source False) part := by
  cases part with
  | row nodes =>
    exact settled_renderAll ends fun _ => id
  | children nodes => exact fun span member => (derived _ member).elim
  | single node =>
    rintro span rfl
    exact settled_verbatim (Grammar.not_isLineComment_of_isValue derived)

/-- What comes behind a line comment in a settled outline starts a line. -/
theorem head?_of_settled {last : Prop} {outline front back : Outline} {span : Span}
    (settled : Settled source last outline) (split : outline = front ++ .verbatim span :: back)
    (comment : span.IsLineComment source) :
    back.text names source = [] ∨ (back.text names source).head? = some '\n' := by
  induction front generalizing outline with
  | nil =>
    subst split
    rcases settled.1 span rfl comment with ⟨next, rest, rfl, isBreak⟩ | ⟨rfl, -⟩
    · right
      obtain ⟨more, same⟩ := List.head?_eq_some_iff.mp isBreak
      simp [Piece.text, same]
    · exact .inl rfl
  | cons piece front ih =>
    subst split
    exact ih settled.2 rfl

end Outline

/-- **No generated code gets into a line comment.**  Of a source that compiles, a line
    comment in the list of the program is followed by code on a new line or ends the
    source, and one in any other list of the tree is followed by code on a new line.  In
    the output each line comment is followed by a line break, or the output ends. -/
theorem compile_lineComments_end {names : RuntimeNames} {source output : Text}
    (compiled : compile names source = .ok output) :
    ∃ nodes, parse source = .ok nodes ∧
      CommentsEnd source (fun span => span.stop = source.byteSize) nodes ∧
      (∀ part ∈ partsOf nodes, CommentsEnd source (fun _ => False) part.nodes) ∧
      ∀ (front back : Outline) (span : Span),
        Outline.renderAll names source nodes = front ++ .verbatim span :: back →
          output = front.text names source ++ (span.slice source ++ back.text names source) ∧
            (span.IsLineComment source →
              back.text names source = [] ∨ (back.text names source).head? = some '\n') := by
  obtain ⟨nodes, parsed, rfl⟩ := compile_eq_ok_iff.mp compiled
  obtain ⟨top, below⟩ := commentsEnd_of_parse parsed
  have derived := (derives_of_parse parsed).isDerived (Text.StandsAt.whole source)
  have keeps : ∀ part ∈ partsOf nodes,
      Outline.Keeps names source (Outline.Settled source False) part := fun part member =>
    Outline.keeps_settled (derived part member) (below part member)
  have settled : Outline.Settled source True (Outline.renderAll names source nodes) :=
    Outline.settled_renderAll top (fun _ _ => trivial) (Outline.closed_settled.each nodes keeps)
  refine ⟨nodes, parsed, top, below, ?_⟩
  intro front back span split
  refine ⟨?_, Outline.head?_of_settled settled split⟩
  rw [← Outline.text_renderAll, split, Outline.text_append, Outline.text_cons]
  rfl

/-- A line comment in the name of an attribute, and one that ends the source. -/
theorem compile_lineComments_end_braces :
    let source : Text := "<p \x7ba//b\n\x7d=\x7bc\x7d/>//d"
    let output : Text := "Moon.view.components.p (\x7b\"a//b\n\":c\x7d)//d"
    compile {} source = .ok output ∧
      ∃ nodes, parse source = .ok nodes ∧
        CommentsEnd source (fun span => span.stop = source.byteSize) nodes ∧
        (∀ part ∈ partsOf nodes, CommentsEnd source (fun _ => False) part.nodes) ∧
        ∀ (front back : Outline) (span : Span),
          Outline.renderAll {} source nodes = front ++ .verbatim span :: back →
            output = front.text {} source ++ (span.slice source ++ back.text {} source) ∧
              (span.IsLineComment source →
                back.text {} source = [] ∨ (back.text {} source).head? = some '\n') := by
  intro source output
  have compiled : compile {} source = .ok output := by decide +kernel
  exact ⟨compiled, compile_lineComments_end compiled⟩

/-! ### Template comments -/

theorem blockLength?_cons {c : Char} {rest : Text} (other : ¬ ['*', '/'] <+: c :: rest) :
    Scanner.blockLength? (c :: rest) = (Scanner.blockLength? rest).map (· + 1) := by
  rw [Scanner.blockLength?]
  rintro tail rfl rfl
  exact other ⟨tail, rfl⟩

/-- A block comment ends behind its content unless the content has a closing mark. -/
theorem blockLength?_append_iff (content back : Text) :
    Scanner.blockLength? (content ++ '*' :: '/' :: back) = some (content.length + 2) ↔
      ¬ ['*', '/'] <:+: content := by
  induction content with
  | nil => simp [Scanner.blockLength?]
  | cons c content ih =>
    rw [List.infix_cons_iff, not_or]
    by_cases early : ['*', '/'] <+: c :: content
    · obtain ⟨tail, split⟩ := early
      rw [← split]
      simp [Scanner.blockLength?]
    · have later : ¬ ['*', '/'] <+: c :: (content ++ '*' :: '/' :: back) := by
        rintro ⟨tail, split⟩
        cases content with
        | nil => cases split
        | cons d content =>
          obtain ⟨rfl, behind⟩ := List.cons.inj split
          obtain ⟨rfl, -⟩ := List.cons.inj behind
          exact early ⟨content, rfl⟩
      rw [List.cons_append, blockLength?_cons later, List.length_cons, Option.map_eq_some_iff]
      simp only [early, not_false_eq_true, true_and, ← ih]
      constructor
      · rintro ⟨length, found, same⟩
        rw [found]
        congr 1
        omega
      · intro found
        exact ⟨_, found, by omega⟩

/-- **Where template comments end.**  A template comment that is emitted is put between
    the marks of a block comment as it is.  Read from its start, this block comment ends
    at the closing mark that was put there just when the template comment has no such
    mark in it. -/
theorem compile_comment_ends_iff {names : RuntimeNames} {source output : Text}
    (compiled : compile names source = .ok output) :
    ∃ nodes, parse source = .ok nodes ∧
      ∀ (front back : Outline) (span : Span),
        Outline.renderAll names source nodes = front ++ .comment span :: back →
          output = front.text names source ++ '/' :: '*' ::
            (span.slice source ++ '*' :: '/' :: back.text names source) ∧
          (Scanner.blockLength?
              (span.slice source ++ '*' :: '/' :: back.text names source) =
                some ((span.slice source).length + 2) ↔
            ¬ ['*', '/'] <:+: span.slice source) := by
  obtain ⟨nodes, parsed, rfl⟩ := compile_eq_ok_iff.mp compiled
  refine ⟨nodes, parsed, ?_⟩
  intro front back span split
  refine ⟨?_, blockLength?_append_iff _ _⟩
  rw [← Outline.text_renderAll, split, Outline.text_append, Outline.text_cons]
  simp [Piece.text]

/-- The comment `#a*/b#` ends early: of its block comment `b*/` is left as code. -/
theorem compile_comment_ends_early :
    compile {} "#a*/b#" = .ok "/*a*/b*/" ∧
      Scanner.blockLength? "a*/b*/" = some 3 ∧
      ∃ nodes, parse "#a*/b#" = .ok nodes ∧
        ∀ (front back : Outline) (span : Span),
          Outline.renderAll {} "#a*/b#" nodes = front ++ .comment span :: back →
            "/*a*/b*/" = front.text {} "#a*/b#" ++ '/' :: '*' ::
              (span.slice "#a*/b#" ++ '*' :: '/' :: back.text {} "#a*/b#") ∧
            (Scanner.blockLength?
                (span.slice "#a*/b#" ++ '*' :: '/' :: back.text {} "#a*/b#") =
                  some ((span.slice "#a*/b#").length + 2) ↔
              ¬ ['*', '/'] <:+: span.slice "#a*/b#") := by
  have compiled : compile {} "#a*/b#" = .ok "/*a*/b*/" := by decide +kernel
  exact ⟨compiled, by decide +kernel, compile_comment_ends_iff compiled⟩

end ViewScript
