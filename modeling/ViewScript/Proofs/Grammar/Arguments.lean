/-
  ViewScript/Proofs/Grammar/Arguments.lean
  ========================================
  **The argument of a tag is a list of attributes.**

  A tag without children has a second reading of what stands behind its name, one value, for
  when there is no list of attributes.  But a value that is followed by `/` is a list of one
  attribute already, so the second reading never gets to the end of a tag.

  Hence the second reading can be left out of the grammar.  In the grammar without it each
  rule makes trees with lists only, and the trees of the two grammars are the same.
-/
import ViewScript.Proofs.Grammar.LineComments
import ViewScript.Proofs.Grammar.Views

namespace ViewScript.Grammar

open ViewScript.Parser

/-! ### Arguments are lists -/

/-- A tag without children, whose argument can only be a list of attributes. -/
def Rules.listClosing (nested : Nested) : Parser Node := do
  let tag ← opening nested
  let attributes ← attributes nested
  let _ ← word ['/', '>']
  return .selfClosing tag (.attributes attributes)

theorem selfClosing_eq_ok_iff {nested : Nested} {cursor next : Cursor} {node : Node} :
    Rules.selfClosing nested cursor = .ok node next ↔
      Rules.listClosing nested cursor = .ok node next := by
  constructor
  · intro done
    obtain ⟨tag, middle, opened, behind⟩ := bind_eq_ok_iff.mp done
    obtain ⟨argument, last, read, behind⟩ := bind_eq_ok_iff.mp behind
    obtain ⟨_, _, slash, finished⟩ := bind_eq_ok_iff.mp behind
    obtain ⟨attributes, rfl, listed⟩ := attributes_of_argument read (head?_of_word slash)
    rw [Rules.listClosing, bind_of_ok opened, bind_of_ok listed, bind_of_ok slash]
    exact finished
  · intro done
    obtain ⟨tag, middle, opened, behind⟩ := bind_eq_ok_iff.mp done
    obtain ⟨attributes, last, listed, behind⟩ := bind_eq_ok_iff.mp behind
    have argument : Rules.argument nested middle = .ok (.attributes attributes) last := by
      have list : (Argument.attributes <$> Rules.attributes nested) middle =
          .ok (.attributes attributes) last := bind_of_ok listed
      rw [Rules.argument, orElse, attempt, list]
    rw [Rules.selfClosing, bind_of_ok opened, bind_of_ok argument]
    exact behind

/-- The alternatives for views, without the second reading of an argument. -/
def Rules.listViews (nested : Nested) : List (Parser Node) :=
  [attempt (reference nested), attempt (listClosing nested), attempt (element nested),
    attempt (fragment nested)]

theorem alike_listViews (nested : Nested) :
    Alike (firstOf (Rules.listViews nested)) (firstOf (Rules.views nested)) := by
  have closing : Alike (attempt (Rules.listClosing nested)) (attempt (Rules.selfClosing nested)) :=
    alike_attempt fun _ _ _ => selfClosing_eq_ok_iff.symm
  exact (Alike.refl _).firstOf_cons (closing.firstOf_cons (.refl _))

/-- The grammar without the second reading of an argument. -/
def listChoices : Choices := ⟨Rules.listViews, Rules.listViews⟩

theorem isAlike_listChoices : listChoices.IsAlike := ⟨alike_listViews, alike_listViews⟩

/-! ### Trees with lists only -/

/-- If the node is a tag without children, its argument is a list of attributes. -/
def HoldsList (node : Node) : Prop :=
  ∀ tag argument, node = .selfClosing tag argument → ∃ attributes, argument = .attributes attributes

def HoldLists (parts : List Part) : Prop := ∀ part ∈ parts, ∀ node ∈ part.nodes, HoldsList node

theorem holdLists_append {front back : List Part} (first : HoldLists front)
    (second : HoldLists back) : HoldLists (front ++ back) :=
  List.forall_mem_append.mpr ⟨first, second⟩

theorem holdLists_node {node : Node} (own : HoldsList node) (parts : HoldLists node.parts) :
    HoldLists (nodeParts node) :=
  List.forall_mem_cons.mpr ⟨List.forall_mem_singleton.mpr own, parts⟩

theorem holdLists_row_nil : HoldLists (rowParts []) := by
  intro part member node inside
  cases List.mem_singleton.mp member
  cases inside

theorem holdLists_row_cons {node : Node} {nodes : List Node} (first : HoldLists (nodeParts node))
    (rest : HoldLists (rowParts nodes)) : HoldLists (rowParts (node :: nodes)) := by
  obtain ⟨own, below⟩ := List.forall_mem_cons.mp first
  obtain ⟨row, belowRow⟩ := List.forall_mem_cons.mp rest
  refine List.forall_mem_cons.mpr ⟨?_, List.forall_mem_append.mpr ⟨below, belowRow⟩⟩
  exact List.forall_mem_cons.mpr ⟨own node (List.mem_singleton_self node), row⟩

/-- Whether a list of nodes is a row or stands among children makes no difference here. -/
theorem holdLists_children {nodes : List Node} (row : HoldLists (rowParts nodes)) :
    HoldLists (.children nodes :: partsOf nodes) :=
  List.forall_mem_cons.mpr (List.forall_mem_cons.mp row)

/-- The parts of what is read hold lists. -/
abbrev Holding {α : Type} (parts : α → List Part) : Contract α :=
  fun _ _ _ value => HoldLists (parts value)

theorem meets_row {parser : Parser Node} (meets : parser.Meets (Holding nodeParts)) :
    (many parser).Meets (Holding rowParts) :=
  Meets.many meets holdLists_row_nil holdLists_row_cons

section Lexical

theorem holdLists_leaf {node : Node} (own : HoldsList node) (leaf : node.parts = []) :
    HoldLists (nodeParts node) := by
  refine holdLists_node own ?_
  rw [leaf]
  exact fun part member => nomatch member

theorem holdLists_verbatim (span : Span) : HoldLists (nodeParts (.verbatim span)) :=
  holdLists_leaf (by rintro _ _ ⟨⟩) rfl

theorem holdLists_code (span : Span) : HoldLists (nodeParts (.code span)) :=
  holdLists_leaf (by rintro _ _ ⟨⟩) rfl

theorem holding_mark {parser : Parser Node} (isMark : IsMark parser) :
    parser.Meets (Holding nodeParts) :=
  isMark.weaken fun ⟨_, node⟩ => node ▸ holdLists_verbatim _

theorem holding_comment : comment.Meets (Holding nodeParts) := by
  refine sound_comment.weaken ?_
  intro _ _ _ node derives
  cases derives with
  | comment => exact holdLists_leaf (by rintro _ _ ⟨⟩) rfl

theorem holding_text : text.Meets (Holding nodeParts) := by
  refine sound_text.weaken ?_
  intro _ _ _ node derives
  cases derives with
  | text => exact holdLists_leaf (by rintro _ _ ⟨⟩) rfl

theorem holding_separator : separator.Meets (Holding rowParts) :=
  meets_row ((meets_whitespace.weaken fun ⟨_, node⟩ => node ▸ holdLists_verbatim _).orElse
    holding_comment)

end Lexical

/-- What is nested in a rule has trees with lists only. -/
structure Nested.HoldsLists (nested : Nested) : Prop where
  expression : nested.expression.Meets (Holding rowParts)
  children : nested.children.Meets (Holding rowParts)

section Rules

variable {nested : Nested} (inner : nested.HoldsLists)

include inner

theorem holding_group (delimiter : Delimiter) :
    (Rules.group nested delimiter).Meets (Holding nodeParts) := by
  refine (meets_char _).bind fun _ _ _ => inner.expression.bind fun _ _ _ => ?_
  refine (meets_char _).bind fun _ _ _ => meets_pure ?_
  intro _ _ _ _ _ body _ _
  exact holdLists_node (by rintro _ _ ⟨⟩) body

theorem holding_value : (Rules.value nested).Meets (Holding nodeParts) := by
  refine meets_firstOf fun parser member => ?_
  have string : ∀ {mark : Char}, mark ∈ quotes → (quoted mark).Meets (Holding nodeParts) := by
    intro mark known cursor
    cases reply : quoted mark cursor with
    | fail failure => exact (sound_quoted known).fail reply
    | ok node next =>
      obtain ⟨read, reads, -⟩ := (sound_quoted known).ok reply
      obtain ⟨span, _, -, same⟩ := bind_eq_ok_iff.mp reply
      cases same
      exact ⟨read, reads, holdLists_verbatim span⟩
  simp only [List.mem_cons, List.not_mem_nil, or_false] at member
  rcases member with rfl | rfl | rfl | rfl | rfl | rfl | rfl
  · exact meets_name.weaken fun ⟨_, node⟩ => node ▸ holdLists_code _
  · exact string (by simp [quotes])
  · exact string (by simp [quotes])
  · exact string (by simp [quotes])
  · exact holding_group inner .paren
  · exact holding_group inner .bracket
  · exact holding_group inner .brace

theorem holding_interpolation : (Rules.interpolation nested).Meets (Holding nodeParts) := by
  refine (meets_char _).bind fun _ _ _ => inner.expression.bind fun _ _ _ => ?_
  refine (meets_char _).bind fun _ _ _ => meets_pure ?_
  intro _ _ _ _ _ body _ _
  exact holdLists_node (by rintro _ _ ⟨⟩) body

theorem holding_opening : (Rules.opening nested).Meets (Holding tagParts) := by
  refine (meets_char '<').bind fun _ _ _ => holding_separator.bind fun _ _ _ => ?_
  refine (holding_value inner).bind fun _ _ _ => holding_separator.bind fun _ _ _ => meets_pure ?_
  intro _ _ _ trailing _ name _ leading _ _
  exact holdLists_append leading (holdLists_append name trailing)

theorem holding_attributes : (Rules.attributes nested).Meets (Holding attributesParts) := by
  have value := holding_value inner
  have behind : (do let _ ← char '='; Rules.value nested).Meets (Holding nodeParts) :=
    (meets_char '=').bind fun _ _ _ => value.weaken fun given _ _ => given
  have assigned : (optional do let _ ← char '='; Rules.value nested).Meets (Holding valueParts) :=
    behind.optional id fun part member => nomatch member
  have entry : (Rules.entry nested).Meets
      fun _ _ _ item => HoldLists (nodeParts item.name ++ valueParts item.value) := by
    refine value.bind fun _ _ _ => assigned.bind fun _ _ _ => ?_
    refine holding_separator.bind fun _ _ _ => meets_pure ?_
    intro _ _ _ _ _ given _ name
    exact holdLists_append name given
  refine Meets.many entry (fun part member => nomatch member) ?_
  intro _ _ _ _ item items first rest
  obtain ⟨name, given⟩ := List.forall_mem_append.mp first
  exact holdLists_append name (holdLists_append given rest)

theorem holding_listViews :
    ∀ parser ∈ Rules.listViews nested, parser.Meets (Holding nodeParts) := by
  intro parser member
  have opening := holding_opening inner
  have attributes := holding_attributes inner
  simp only [Rules.listViews, List.mem_cons, List.not_mem_nil, or_false] at member
  rcases member with rfl | rfl | rfl | rfl
  · refine (opening.bind fun _ _ _ => (meets_word _).bind fun _ _ _ => meets_pure ?_).attempt
    intro _ _ _ _ _ tag
    exact holdLists_node (by rintro _ _ ⟨⟩) tag
  · refine (opening.bind fun _ _ _ => attributes.bind fun _ _ _ => (meets_word _).bind
      fun _ _ _ => meets_pure ?_).attempt
    intro _ _ _ _ _ list _ tag
    refine holdLists_node ?_ (holdLists_append tag list)
    rintro _ _ ⟨⟩
    exact ⟨_, rfl⟩
  · refine (opening.bind fun _ _ _ => attributes.bind fun _ _ _ => (meets_char '>').bind
      fun _ _ _ => inner.children.bind fun _ _ _ => (meets_word _).bind fun _ _ _ =>
        (meets_many_exclude '>').bind fun _ _ _ => (meets_char '>').bind
          fun _ _ _ => meets_pure ?_).attempt
    intro _ _ _ _ _ _ _ _ _ children _ _ _ list _ tag
    exact holdLists_node (by rintro _ _ ⟨⟩)
      (holdLists_append tag (holdLists_append list (holdLists_children children)))
  · refine ((meets_word _).bind fun _ _ _ => inner.children.bind fun _ _ _ =>
      (meets_word _).bind fun _ _ _ => meets_pure ?_).attempt
    intro _ _ _ _ _ children _ _
    exact holdLists_node (by rintro _ _ ⟨⟩) (holdLists_children children)

theorem holding_children : (Rules.children nested).Meets (Holding rowParts) := by
  rw [← Choices.children_eq isAlike_listChoices]
  refine meets_row (meets_firstOf fun parser member => ?_)
  rcases List.mem_append.mp member with view | other
  · exact holding_listViews inner parser view
  simp only [List.mem_cons, List.not_mem_nil, or_false] at other
  rcases other with rfl | rfl
  · exact holding_text
  · exact holding_interpolation inner

theorem holding_expression : (Rules.expression nested).Meets (Holding rowParts) := by
  rw [← Choices.expression_eq isAlike_listChoices]
  refine meets_row (meets_firstOf fun parser member => ?_)
  simp only [List.mem_append, List.mem_cons, List.not_mem_nil, or_false] at member
  rcases member with ((rfl | rfl | rfl | rfl | rfl) | view) | rfl | rfl | rfl
  · exact holding_mark isMark_lineComment
  · exact holding_mark isMark_blockComment
  · exact (holding_mark isMark_regex).attempt
  · exact holding_comment
  · exact holding_value inner
  · exact holding_listViews inner parser view
  · exact holding_mark (isMark_operator .slash)
  · exact holding_mark (isMark_operator .lessThan)
  · exact meets_plainCode.weaken fun ⟨_, node⟩ => node ▸ holdLists_code _

end Rules

theorem holdsLists_levels (budget : Nat) : (Nested.nothing.levels budget).HoldsLists := by
  induction budget with
  | zero => exact ⟨meets_failHere .alternatives, meets_failHere .alternatives⟩
  | succ budget ih => exact ⟨holding_expression ih, holding_children ih⟩

theorem holdLists_of_parse {source : Text} {nodes : List Node}
    (parsed : ViewScript.parse source = .ok nodes) : HoldLists (rowParts nodes) := by
  have expression : Grammar.expression.Meets (Holding rowParts) :=
    fun cursor => holding_expression (holdsLists_levels _) cursor
  obtain ⟨_, done⟩ := parse_eq_ok_iff.mp parsed
  obtain ⟨_, _, read, behind⟩ := bind_eq_ok_iff.mp done
  obtain ⟨_, _, -, same⟩ := bind_eq_ok_iff.mp behind
  cases same
  obtain ⟨_, -, holds⟩ := expression.ok read
  exact holds

/-- **The argument of a tag is a list of attributes.**  Wherever the rule for a tag without
    children succeeds, the tag holds a list of attributes.  So does every such tag of a
    program, in any list of nodes, name or value of its tree.  A grammar without the other
    reading of an argument has the same tree or the same failure for every source. -/
theorem arguments_are_lists :
    (∀ (source : Text) (offset : Nat) (node : Node) (next : Cursor),
      Grammar.selfClosing.runAt source offset = .ok node next →
        ∃ tag attributes, node = .selfClosing tag (.attributes attributes)) ∧
    (∀ (source : Text) (nodes : List Node), ViewScript.parse source = .ok nodes →
      ∀ part ∈ .row nodes :: partsOf nodes, ∀ tag argument,
        .selfClosing tag argument ∈ part.nodes →
          ∃ attributes, argument = .attributes attributes) ∧
    ∀ source : Text, listChoices.parse source = ViewScript.parse source := by
  refine ⟨?_, ?_, Choices.parse_eq isAlike_listChoices⟩
  · intro source offset node next done
    have plain := selfClosing_eq_ok_iff.mp done
    obtain ⟨tag, _, -, behind⟩ := bind_eq_ok_iff.mp plain
    obtain ⟨attributes, _, -, behind⟩ := bind_eq_ok_iff.mp behind
    obtain ⟨_, _, -, same⟩ := bind_eq_ok_iff.mp behind
    cases same
    exact ⟨tag, attributes, rfl⟩
  · intro source nodes parsed part member tag argument inside
    exact holdLists_of_parse parsed part member _ inside tag argument rfl

/-- A tag in the value of an attribute of another tag. -/
theorem arguments_are_lists_nested :
    Grammar.selfClosing.runAt "<p a=\x7b<b c/>\x7d/>" 6 =
        .ok (.selfClosing ⟨[], .code ⟨7, 8⟩, [.verbatim ⟨8, 9⟩]⟩
          (.attributes [⟨.code ⟨9, 10⟩, none⟩])) ⟨12, .chars "\x7d/>"⟩ ∧
      (∃ tag attributes, Node.selfClosing ⟨[], .code ⟨7, 8⟩, [.verbatim ⟨8, 9⟩]⟩
        (.attributes [⟨.code ⟨9, 10⟩, none⟩]) = .selfClosing tag (.attributes attributes)) ∧
      ∃ nodes, ViewScript.parse "<p a=\x7b<b c/>\x7d/>" = .ok nodes ∧
        .row [.selfClosing ⟨[], .code ⟨7, 8⟩, [.verbatim ⟨8, 9⟩]⟩
          (.attributes [⟨.code ⟨9, 10⟩, none⟩])] ∈ Part.row nodes :: partsOf nodes ∧
        (∀ part ∈ .row nodes :: partsOf nodes, ∀ tag argument,
          .selfClosing tag argument ∈ part.nodes →
            ∃ attributes, argument = .attributes attributes) ∧
        listChoices.parse "<p a=\x7b<b c/>\x7d/>" = .ok nodes := by
  have read : Grammar.selfClosing.runAt "<p a=\x7b<b c/>\x7d/>" 6 =
      .ok (.selfClosing ⟨[], .code ⟨7, 8⟩, [.verbatim ⟨8, 9⟩]⟩
        (.attributes [⟨.code ⟨9, 10⟩, none⟩])) ⟨12, .chars "\x7d/>"⟩ := by decide +kernel
  have parsed : ViewScript.parse "<p a=\x7b<b c/>\x7d/>" =
      .ok [.selfClosing ⟨[], .code ⟨1, 2⟩, [.verbatim ⟨2, 3⟩]⟩ (.attributes [⟨.code ⟨3, 4⟩,
        some (.group .brace [.selfClosing ⟨[], .code ⟨7, 8⟩, [.verbatim ⟨8, 9⟩]⟩
          (.attributes [⟨.code ⟨9, 10⟩, none⟩])])⟩])] := by decide +kernel
  refine ⟨read, arguments_are_lists.1 _ _ _ _ read, _, parsed, ?_,
    arguments_are_lists.2.1 _ _ parsed, (arguments_are_lists.2.2 _).trans parsed⟩
  simp [partsOf, Node.parts, tagParts, argumentParts, attributesParts, valueParts]

end ViewScript.Grammar
