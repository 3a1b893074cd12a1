/-
  ViewScript/Proofs/Compile/HostCode.lean
  =======================================
  **Host code is copied.**

  A source is cut into segments, one for each node of the program and, inside
  brackets, one for each node of the group.  Compiling goes over the segments from
  left to right: host code and brackets are copied, a comment gets other marks, and a
  view is replaced by its code.
-/
import ViewScript.Proofs.Grammar.Yield
import ViewScript.Compile

namespace ViewScript

open Grammar

/-! ### Segments -/

/-- A stretch of a source that is compiled on its own. -/
inductive Segment where
  /-- Host code, which is copied. -/
  | host (text : Text)
  /-- A comment between two marks `#`. -/
  | comment (content : Text)
  /-- A tag or fragment, with its node. -/
  | view (text : Text) (node : Node)
  /-- Brackets and the segments between them. -/
  | group (delimiter : Delimiter) (body : List Segment)

namespace Segment

mutual

/-- The stretch of the source. -/
def source : Segment → Text
  | .host text => text
  | .comment content => '#' :: (content ++ ['#'])
  | .view text _ => text
  | .group delimiter body => delimiter.opening :: (sourceAll body ++ [delimiter.closing])

/-- Segments one after the other. -/
def sourceAll : List Segment → Text
  | [] => []
  | segment :: segments => segment.source ++ sourceAll segments

end

mutual

/-- What a segment is compiled to, given the code of the views. -/
def output (viewCode : Node → Text) : Segment → Text
  | .host text => text
  | .comment content => ['/', '*'] ++ content ++ ['*', '/']
  | .view _ node => viewCode node
  | .group delimiter body => delimiter.opening :: (outputAll viewCode body ++ [delimiter.closing])

def outputAll (viewCode : Node → Text) : List Segment → Text
  | [] => []
  | segment :: segments => segment.output viewCode ++ outputAll viewCode segments

end

mutual

/-- The segment, standing at the offset, is the one of the node. -/
def Covers (offset : Nat) : Segment → Node → Prop
  | .host text, .verbatim span => span = .ofText offset text
  | .host text, .code span => span = .ofText offset text
  | .comment content, .comment span => span = .ofText (offset + 1) content
  | .view text same, node => same = node ∧ node.isView = true ∧ text.head? = some '<' ∧
    text.getLast? = some '>' ∧ Derives .view offset text node
  | .group delimiter body, .group same nodes => delimiter = same ∧ CoversAll (offset + 1) body nodes
  | _, _ => False

/-- The segments, one after the other from the offset on, are those of the nodes. -/
def CoversAll (offset : Nat) : List Segment → List Node → Prop
  | [], [] => True
  | segment :: segments, node :: nodes =>
    segment.Covers offset node ∧ CoversAll (offset + segment.source.byteSize) segments nodes
  | _, _ => False

end

end Segment

/-! ### Counting comments -/

mutual

/-- The number of comments in a node, itself included. -/
def Node.commentCount : Node → Nat
  | .verbatim _ | .code _ | .text _ => 0
  | .comment _ => 1
  | .group _ body => commentCount body
  | .interpolation body => commentCount body
  | .reference tag => tagCommentCount tag
  | .selfClosing tag argument => tagCommentCount tag + argumentCommentCount argument
  | .element tag attributes children =>
    tagCommentCount tag + attributesCommentCount attributes + commentCount children
  | .fragment children => commentCount children

/-- The number of comments in a list of nodes. -/
def commentCount : List Node → Nat
  | [] => 0
  | node :: nodes => node.commentCount + commentCount nodes

def tagCommentCount : Tag Node → Nat
  | ⟨leading, name, trailing⟩ =>
    commentCount leading + name.commentCount + commentCount trailing

def argumentCommentCount : Argument Node → Nat
  | .attributes attributes => attributesCommentCount attributes
  | .expression value => value.commentCount

def attributesCommentCount : List (Attribute Node) → Nat
  | [] => 0
  | ⟨name, value⟩ :: attributes =>
    name.commentCount + optionCommentCount value + attributesCommentCount attributes

def optionCommentCount : Option Node → Nat
  | none => 0
  | some node => node.commentCount

end

/-! ### Cutting a source -/

theorem exists_cons_of_opening {offset : Nat} {text : Text} {tag : Tag Node}
    (derives : Derives .opening offset text tag) : ∃ rest, text = '<' :: rest := by
  cases derives with
  | opening => exact ⟨_, rfl⟩

/-- A view starts with `<` and ends with `>`. -/
theorem isView_of_derives {offset : Nat} {text : Text} {node : Node}
    (derives : Derives .view offset text node) :
    node.isView = true ∧ text.head? = some '<' ∧ text.getLast? = some '>' := by
  cases derives with
  | viewReference derives =>
    cases derives with
    | reference opened =>
      obtain ⟨rest, rfl⟩ := exists_cons_of_opening opened
      exact ⟨rfl, rfl, by simp [List.getLast?_append, List.getLast?_cons]⟩
  | viewSelfClosing derives =>
    cases derives with
    | selfClosing opened _ =>
      obtain ⟨rest, rfl⟩ := exists_cons_of_opening opened
      exact ⟨rfl, rfl, by simp [List.getLast?_append, List.getLast?_cons]⟩
    | selfClosingValue opened _ =>
      obtain ⟨rest, rfl⟩ := exists_cons_of_opening opened
      exact ⟨rfl, rfl, by simp [List.getLast?_append, List.getLast?_cons]⟩
  | viewElement derives =>
    cases derives with
    | element opened _ _ _ =>
      obtain ⟨rest, rfl⟩ := exists_cons_of_opening opened
      exact ⟨rfl, rfl, by simp [List.getLast?_append, List.getLast?_cons]⟩
  | viewFragment derives =>
    cases derives with
    | fragment _ => exact ⟨rfl, rfl, by simp [List.getLast?_append, List.getLast?_cons]⟩

/-- The trees of a production that stands in host code are cut into segments. -/
def Grammar.Production.IsCut (offset : Nat) (text : Text) :
    (production : Production) → production.Value → Prop
  | .expression, nodes =>
    ∃ segments, Segment.CoversAll offset segments nodes ∧ Segment.sourceAll segments = text
  | .comment, node | .value, node =>
    ∃ segment : Segment, segment.Covers offset node ∧ segment.source = text
  | _, _ => True

theorem exists_segments_cons {offset : Nat} {item rest : Text} {node : Node} {nodes : List Node}
    (first : ∃ segment : Segment, segment.Covers offset node ∧ segment.source = item)
    (others : ∃ segments, Segment.CoversAll (offset + item.byteSize) segments nodes ∧
      Segment.sourceAll segments = rest) :
    ∃ segments, Segment.CoversAll offset segments (node :: nodes) ∧
      Segment.sourceAll segments = item ++ rest := by
  obtain ⟨segment, covers, rfl⟩ := first
  obtain ⟨segments, coversAll, rfl⟩ := others
  exact ⟨segment :: segments, ⟨covers, coversAll⟩, rfl⟩

theorem Grammar.Derives.isCut {production : Production} {offset : Nat} {text : Text}
    {value : production.Value} (derives : Derives production offset text value) :
    production.IsCut offset text value := by
  induction derives with
  | @comment o content _ => exact ⟨.comment content, rfl, rfl⟩
  | @name o run _ => exact ⟨.host run, rfl, rfl⟩
  | @quoted o mark content _ _ => exact ⟨.host (mark :: (content ++ [mark])), rfl, rfl⟩
  | @group o delimiter inside body _ ih =>
    obtain ⟨segments, covers, rfl⟩ := ih
    exact ⟨.group delimiter segments, ⟨rfl, covers⟩, rfl⟩
  | expressionEnd => exact ⟨[], trivial, rfl⟩
  | @expressionMark o item _ _ _ _ rest => exact exists_segments_cons ⟨.host item, rfl, rfl⟩ rest
  | @expressionCode o item _ _ _ _ rest => exact exists_segments_cons ⟨.host item, rfl, rfl⟩ rest
  | expressionComment _ _ first rest => exact exists_segments_cons first rest
  | expressionValue _ _ first rest => exact exists_segments_cons first rest
  | @expressionView o item _ node _ view _ _ rest =>
    obtain ⟨isView, first, last⟩ := isView_of_derives view
    exact exists_segments_cons ⟨.view item node, ⟨rfl, isView, first, last, view⟩, rfl⟩ rest
  | _ => exact trivial

/-! ### Copying -/

section Copying

variable (names : RuntimeNames) {source : Text}

theorem code_render_group (delimiter : Delimiter) (body : List Node) :
    (render names source (.group delimiter body)).code =
      delimiter.opening :: (renderAll names source body ++ [delimiter.closing]) := by
  cases delimiter with
  | paren => rfl
  | bracket => rfl
  | brace => rfl

mutual

theorem output_eq_code {offset : Nat} {segment : Segment} {node : Node}
    (stands : source.StandsAt offset segment.source) (covers : segment.Covers offset node) :
    segment.output (fun view => renderAll names source [view]) =
      (render names source node).code := by
  match segment, node, covers with
  | .host text, .verbatim _, rfl => exact stands.slice_eq.symm
  | .host text, .code _, rfl => exact stands.slice_eq.symm
  | .comment content, .comment _, rfl =>
    have content_eq : (Span.ofText (offset + 1) content).slice source = content :=
      stands.tail.left.slice_eq
    show _ = _ ++ Span.slice _ _ ++ _
    rw [content_eq]
    rfl
  | .view text _, node, ⟨rfl, _⟩ => exact List.append_nil _
  | .group delimiter body, .group _ nodes, ⟨rfl, covers⟩ =>
    have one : delimiter.opening.utf8Size = 1 := by cases delimiter <;> rfl
    have inside := stands.tail.left
    rw [one] at inside
    rw [Segment.output, code_render_group, outputAll_eq_renderAll inside covers]

theorem outputAll_eq_renderAll {offset : Nat} {segments : List Segment} {nodes : List Node}
    (stands : source.StandsAt offset (Segment.sourceAll segments))
    (covers : Segment.CoversAll offset segments nodes) :
    Segment.outputAll (fun view => renderAll names source [view]) segments =
      renderAll names source nodes := by
  match segments, nodes, covers with
  | [], [], _ => rfl
  | segment :: segments, node :: nodes, ⟨first, others⟩ =>
    rw [Segment.outputAll, output_eq_code stands.left first,
      outputAll_eq_renderAll stands.right others]
    rfl

end

end Copying

theorem viewCount_pos_of_isView {node : Node} (isView : node.isView = true) :
    0 < node.viewCount := by
  cases node with
  | reference _ | selfClosing _ _ | element _ _ _ | fragment _ =>
    simp only [Node.viewCount]
    omega
  | _ => cases isView

mutual

theorem output_eq_source (viewCode : Node → Text) {offset : Nat} {segment : Segment} {node : Node}
    (covers : segment.Covers offset node) (noViews : node.viewCount = 0)
    (noComments : node.commentCount = 0) : segment.output viewCode = segment.source := by
  match segment, node, covers with
  | .host _, .verbatim _, _ => rfl
  | .host _, .code _, _ => rfl
  | .comment _, .comment _, _ => exact absurd noComments Nat.one_ne_zero
  | .view _ _, node, ⟨_, isView, _⟩ =>
    exact absurd noViews (viewCount_pos_of_isView isView).ne'
  | .group _ body, .group _ nodes, ⟨_, covers⟩ =>
    rw [Segment.output, Segment.source, outputAll_eq_sourceAll viewCode covers noViews noComments]

theorem outputAll_eq_sourceAll (viewCode : Node → Text) {offset : Nat} {segments : List Segment}
    {nodes : List Node} (covers : Segment.CoversAll offset segments nodes)
    (noViews : viewCount nodes = 0) (noComments : commentCount nodes = 0) :
    Segment.outputAll viewCode segments = Segment.sourceAll segments := by
  match segments, nodes, covers with
  | [], [], _ => rfl
  | segment :: segments, node :: nodes, ⟨first, others⟩ =>
    obtain ⟨noView, noViews⟩ := Nat.add_eq_zero_iff.mp noViews
    obtain ⟨noComment, noComments⟩ := Nat.add_eq_zero_iff.mp noComments
    rw [Segment.outputAll, Segment.sourceAll, output_eq_source viewCode first noView noComment,
      outputAll_eq_sourceAll viewCode others noViews noComments]

end

/-! ### Compiling -/

theorem compile_eq_ok_iff {names : RuntimeNames} {source output : Text} :
    compile names source = .ok output ↔
      ∃ nodes, parse source = .ok nodes ∧ renderAll names source nodes = output := by
  unfold compile check
  cases parse source with
  | ok nodes => simp [Except.map, Except.mapError]
  | error failure => simp [Except.map, Except.mapError]

/-- **Compiling copies host code.**  A source that compiles is cut into segments, one
    for each node of the program and of every group in it.  The output has, segment
    for segment, the same host code and brackets, the same comments between other
    marks, and in place of each view the code of that view alone.  A program without
    views and comments is left as it is. -/
theorem compile_copies_host {names : RuntimeNames} {source output : Text}
    (compiled : compile names source = .ok output) :
    ∃ nodes segments, parse source = .ok nodes ∧ Segment.CoversAll 0 segments nodes ∧
      Segment.sourceAll segments = source ∧
      Segment.outputAll (fun view => renderAll names source [view]) segments = output ∧
      (viewCount nodes = 0 → commentCount nodes = 0 → output = source) := by
  obtain ⟨nodes, parsed, rfl⟩ := compile_eq_ok_iff.mp compiled
  obtain ⟨segments, covers, cut⟩ := (derives_of_parse parsed).isCut
  have stands : source.StandsAt 0 (Segment.sourceAll segments) := by
    rw [cut]
    exact Text.StandsAt.whole source
  have copied := outputAll_eq_renderAll names stands covers
  refine ⟨nodes, segments, parsed, covers, cut, copied, ?_⟩
  intro noViews noComments
  rw [← copied, outputAll_eq_sourceAll _ covers noViews noComments, cut]

theorem compile_copies_host_division :
    compile {} "[<p*>]/2#é#" = .ok "[Moon.view.components.p]/2/*é*/" ∧
      ∃ nodes segments, parse "[<p*>]/2#é#" = .ok nodes ∧ Segment.CoversAll 0 segments nodes ∧
        Segment.sourceAll segments = "[<p*>]/2#é#" ∧
        Segment.outputAll (fun view => renderAll {} "[<p*>]/2#é#" [view]) segments =
          "[Moon.view.components.p]/2/*é*/" ∧
        (viewCount nodes = 0 → commentCount nodes = 0 →
          ("[Moon.view.components.p]/2/*é*/" : Text) = "[<p*>]/2#é#") := by
  have parsed : parse "[<p*>]/2#é#" = .ok [.group .bracket [.reference ⟨[], .code ⟨2, 3⟩, []⟩],
      .verbatim ⟨6, 7⟩, .code ⟨7, 8⟩, .comment ⟨9, 11⟩] := by decide +kernel
  have compiled : compile {} "[<p*>]/2#é#" = .ok "[Moon.view.components.p]/2/*é*/" :=
    compile_eq_ok_iff.mpr ⟨_, parsed, by decide +kernel⟩
  exact ⟨compiled, compile_copies_host compiled⟩

end ViewScript
