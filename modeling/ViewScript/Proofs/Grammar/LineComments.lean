/-
  ViewScript/Proofs/Grammar/LineComments.lean
  ===========================================
  **Line comments in the tree.**

  A line comment is read up to the end of its line, and the line break is left for what
  comes after it.  That much is local to the rule for comments, and it holds of every
  comment in a tree because each rule only collects what its parts have read.

  The rest is a matter of the grammar.  The line break cannot begin anything but plain
  code, so if the list that the comment stands in goes on, it goes on with code that
  starts with the line break.  If it does not go on, then a closing bracket follows,
  which is no line break, or the source ends.
-/
import Mathlib.Data.List.TakeWhile
import ViewScript.Proofs.Compile.HostCode
import ViewScript.Proofs.Grammar.Execution
import ViewScript.Proofs.Tree.Parts

namespace ViewScript

/-- What stands in a text behind an offset. -/
def Text.after (text : Text) (offset : Nat) : Text := (text.dropBytes? offset).getD []

/-- The text stands in the source at the offset, and `back` behind it. -/
def Text.Around (source : Text) (offset : Nat) (text back : Text) : Prop :=
  ∃ front, source = front ++ (text ++ back) ∧ front.byteSize = offset

namespace Text.Around

variable {source text more back : Text} {offset : Nat}

theorem left (around : source.Around offset (text ++ more) back) :
    source.Around offset text (more ++ back) := by
  obtain ⟨front, rfl, rfl⟩ := around
  exact ⟨front, by rw [List.append_assoc], rfl⟩

theorem right (around : source.Around offset (text ++ more) back) :
    source.Around (offset + text.byteSize) more back := by
  obtain ⟨front, rfl, rfl⟩ := around
  refine ⟨front ++ text, ?_, byteSize_append front text⟩
  rw [List.append_assoc, List.append_assoc]

theorem stands (around : source.Around offset text back) : source.StandsAt offset text := by
  obtain ⟨front, split, size⟩ := around
  exact ⟨front, back, split, size⟩

theorem after_eq (around : source.Around offset text back) :
    source.after (offset + text.byteSize) = back := by
  obtain ⟨front, rfl, rfl⟩ := around
  rw [after, ← List.append_assoc, ← byteSize_append, dropBytes?_append]
  rfl

end Text.Around

theorem Text.StandsAt.around {source text : Text} {offset : Nat}
    (stands : source.StandsAt offset text) : ∃ back, source.Around offset text back := by
  obtain ⟨front, back, split, size⟩ := stands
  exact ⟨back, front, split, size⟩

/-! ### Line comments -/

/-- Copied code that starts as a line comment does. -/
def Span.IsLineComment (source : Text) (span : Span) : Prop := ['/', '/'] <+: span.slice source

/-- The nodes start with code on a new line. -/
def StartsLine (source : Text) (nodes : List Node) : Prop :=
  ∃ span others, nodes = .code span :: others ∧ (span.slice source).head? = some '\n'

/-- Every line comment in a list of nodes is followed by a new line; or it comes last,
    and then it is one of those that may. -/
def CommentsEnd (source : Text) (last : Span → Prop) (nodes : List Node) : Prop :=
  ∀ front span back, nodes = front ++ .verbatim span :: back → span.IsLineComment source →
    StartsLine source back ∨ (back = [] ∧ last span)

/-- In the source, a line comment is followed by a line break or by nothing. -/
def Span.EndsLine (source : Text) (span : Span) : Prop :=
  span.IsLineComment source → Parser.Stops (· ≠ '\n') (source.after span.stop)

def Part.EndsLines (source : Text) (part : Part) : Prop :=
  ∀ span, .verbatim span ∈ part.nodes → span.EndsLine source

theorem commentsEnd_nil {source : Text} {last : Span → Prop} : CommentsEnd source last [] := by
  intro front span back split
  cases front <;> cases split

theorem commentsEnd_cons {source : Text} {last : Span → Prop} {node : Node} {nodes : List Node}
    (first : ∀ span, node = .verbatim span → span.IsLineComment source →
      StartsLine source nodes ∨ (nodes = [] ∧ last span))
    (rest : CommentsEnd source last nodes) : CommentsEnd source last (node :: nodes) := by
  intro front span back split
  cases front with
  | nil =>
    obtain ⟨rfl, rfl⟩ := List.cons.inj split
    exact first span rfl
  | cons other front =>
    obtain ⟨rfl, rfl⟩ := List.cons.inj split
    exact rest front span back rfl

/-- A list without line comments. -/
theorem commentsEnd_of_none {source : Text} {last : Span → Prop} {nodes : List Node}
    (none : ∀ span, .verbatim span ∈ nodes → ¬ span.IsLineComment source) :
    CommentsEnd source last nodes := by
  intro front span back split comment
  refine (none span ?_ comment).elim
  rw [split]
  exact List.mem_append_right front (List.mem_cons_self ..)

namespace Grammar

open ViewScript.Parser

/-! ### Every line comment is read to the end of its line -/

section Reading

variable (source : Text)

/-- Each line comment in the value ends its line. -/
def Clear {α : Type} (parts : α → List Part) : Contract α := fun offset read back value =>
  source.Around offset read back → ∀ part ∈ parts value, part.EndsLines source

def nodeParts (node : Node) : List Part := .single node :: node.parts

def rowParts (nodes : List Node) : List Part := .row nodes :: partsOf nodes

variable {source}

/-- A node that is no copied code has only the line comments below it. -/
theorem clear_node {node : Node} (other : ∀ span, node ≠ .verbatim span)
    (below : ∀ part ∈ node.parts, part.EndsLines source) :
    ∀ part ∈ nodeParts node, part.EndsLines source := by
  refine List.forall_mem_cons.mpr ⟨?_, below⟩
  intro span member
  exact (other span (List.mem_singleton.mp member).symm).elim

theorem clear_leaf {node : Node} (other : ∀ span, node ≠ .verbatim span) (leaf : node.parts = []) :
    ∀ part ∈ nodeParts node, part.EndsLines source := by
  refine clear_node other ?_
  rw [leaf]
  simp

theorem clear_verbatim {span : Span} (ends : span.EndsLine source) :
    ∀ part ∈ nodeParts (.verbatim span), part.EndsLines source := by
  refine List.forall_mem_cons.mpr ⟨?_, by simp [Node.parts]⟩
  intro other member
  cases List.mem_singleton.mp member
  exact ends

/-- Copied code that starts in another way is no line comment. -/
theorem endsLine_of_not_begins {offset : Nat} {text : Text} (stands : source.StandsAt offset text)
    (other : ¬ ['/', '/'] <+: text) : (Span.ofText offset text).EndsLine source := by
  intro comment
  rw [Span.IsLineComment, stands.slice_eq] at comment
  exact (other comment).elim

theorem clear_list {parser : Parser Node} (item : parser.Meets (Clear source nodeParts)) :
    (many parser).Meets (Clear source rowParts) := by
  refine Meets.many item ?_ ?_
  · intro offset back _
    simp [rowParts, partsOf, Part.EndsLines, Part.nodes]
  · intro offset read more back node nodes first rest around
    obtain ⟨own, below⟩ := List.forall_mem_cons.mp (first around.left)
    obtain ⟨others, under⟩ := List.forall_mem_cons.mp (rest around.right)
    refine List.forall_mem_cons.mpr ⟨?_, List.forall_mem_append.mpr ⟨below, under⟩⟩
    intro span member
    rcases List.mem_cons.mp member with rfl | member
    · exact own span (List.mem_singleton_self _)
    · exact others span member

theorem meets_lineComment_stops : lineComment.Meets fun offset read back node =>
    node = .verbatim (.ofText offset read) ∧ Stops (· ≠ '\n') back := by
  intro cursor
  cases reply : lineComment cursor with
  | fail failure => exact meets_lineComment.fail reply
  | ok node next =>
    obtain ⟨read, reads, ⟨content, -, rfl⟩, same⟩ := meets_lineComment.ok reply
    refine ⟨_, reads, same, ?_⟩
    -- The comment is read as far as possible, and parsers are functions.
    cases reads with
    | @char offset _ rest _ _ reads =>
      cases reads with
      | @char _ _ rest _ _ reads =>
        have free : '\n' ∉ rest.takeWhile (· ≠ '\n') := by
          intro member
          simpa using List.mem_takeWhile_imp member
        have yields : lineComment.Yields offset _ _ _ :=
          yields_lineComment free (stops_dropWhile _ rest)
        rw [Yields, List.cons_append, List.cons_append, List.takeWhile_append_dropWhile,
          reply] at yields
        cases yields
        exact stops_dropWhile _ rest

theorem clear_lineComment : lineComment.Meets (Clear source nodeParts) := by
  refine meets_lineComment_stops.weaken ?_
  rintro offset read back _ ⟨rfl, stops⟩ around
  refine clear_verbatim fun _ => ?_
  rw [Span.ofText, around.after_eq]
  exact stops

/-- A sequence reads first what its first part reads. -/
theorem meets_begins {α β : Type} {first : Parser α} {following : α → Parser β} {start : Text}
    (begins : first.Meets fun _ read _ _ => read = start)
    (rest : ∀ value, (following value).Meets fun _ _ _ _ => True) :
    (first >>= following).Meets fun _ read _ _ => start <+: read := by
  refine begins.bind fun _ _ value => (rest value).weaken ?_
  rintro _ _ _ _ - - rfl
  exact List.prefix_append _ _

/-- Copied code that does not start with two slashes. -/
theorem clear_copied {parser : Parser Node} {contract : Text → Prop}
    (copied : parser.Meets fun offset read _ node =>
      contract read ∧ node = .verbatim (.ofText offset read))
    (other : ∀ {read}, contract read → ¬ ['/', '/'] <+: read) :
    parser.Meets (Clear source nodeParts) := by
  refine copied.weaken ?_
  rintro _ _ _ _ ⟨holds, rfl⟩ around
  exact clear_verbatim (endsLine_of_not_begins around.stands (other holds))

theorem not_prefix_cons {c : Char} {rest : Text} (other : c ≠ '/') :
    ¬ ['/', '/'] <+: c :: rest := by
  rintro ⟨back, split⟩
  exact other (List.cons.inj split).1.symm

theorem clear_blockComment : blockComment.Meets (Clear source nodeParts) := by
  have inside : (many (exclude [['*', '/']])).Meets fun _ _ _ _ => True :=
    Meets.many (meets_exclude _) trivial fun _ _ => trivial
  have begins : (do
      let _ ← word ['/', '*']
      let _ ← many (exclude [['*', '/']])
      word ['*', '/']).Meets fun _ read _ _ => ['/', '*'] <+: read :=
    meets_begins (meets_word _) fun _ => inside.bind fun _ _ _ => (meets_word _).weaken
      fun _ _ _ => trivial
  refine clear_copied (begins.spanned.map fun ⟨span, _, begins⟩ => ⟨begins, congrArg _ span⟩) ?_
  rintro _ ⟨rest, rfl⟩ ⟨back, split⟩
  cases split

theorem clear_regex : regex.Meets (Clear source nodeParts) := by
  refine clear_copied meets_regex ?_
  rintro _ ⟨items, some, run, rfl⟩ ⟨back, split⟩
  obtain ⟨-, split⟩ := List.cons.inj split
  cases run with
  | nil => exact some rfl
  | escape _ _ => cases split
  | plain _ free _ =>
    cases split
    exact free (List.mem_cons_self ..)

theorem clear_operator (c : Char) : (operator c).Meets (Clear source nodeParts) := by
  have copied : (operator c).Meets fun offset read _ node =>
      read = [c] ∧ node = .verbatim (.ofText offset read) := by
    refine (meets_satisfy _ _).map ?_
    rintro _ _ _ _ ⟨rfl, d, rfl, same⟩
    obtain rfl : d = c := by simpa using same
    exact ⟨rfl, rfl⟩
  refine clear_copied copied ?_
  rintro _ rfl ⟨back, split⟩
  cases split

theorem clear_whitespace : whitespace.Meets (Clear source nodeParts) := by
  refine clear_copied meets_whitespace ?_
  rintro _ ⟨-, blank⟩ ⟨back, rfl⟩
  have slash := blank '/' (List.mem_cons_self ..)
  cases slash

theorem clear_quoted {mark : Char} (known : mark ∈ quotes) :
    (quoted mark).Meets (Clear source nodeParts) := by
  refine clear_copied (meets_quoted mark) ?_
  rintro _ ⟨content, -, rfl⟩
  refine not_prefix_cons ?_
  rintro rfl
  exact absurd known (by decide)

theorem clear_comment : comment.Meets (Clear source nodeParts) := by
  refine sound_comment.weaken ?_
  intro _ _ _ _ derives _
  cases derives
  exact clear_leaf (by simp) rfl

theorem clear_separator (source : Text) : separator.Meets (Clear source rowParts) :=
  clear_list (clear_whitespace.orElse clear_comment)

theorem clear_name : name.Meets (Clear source nodeParts) := by
  refine meets_name.weaken ?_
  rintro _ _ _ _ ⟨-, rfl⟩ _
  exact clear_leaf (by simp) rfl

theorem clear_text : text.Meets (Clear source nodeParts) := by
  refine sound_text.weaken ?_
  intro _ _ _ _ derives _
  cases derives
  exact clear_leaf (by simp) rfl

theorem clear_plainCode : plainCode.Meets (Clear source nodeParts) := by
  refine meets_plainCode.weaken ?_
  rintro _ _ _ _ ⟨-, rfl⟩ _
  exact clear_leaf (by simp) rfl

end Reading

/-! ### Rules that nest -/

theorem clear_children_of_row {source : Text} {nodes : List Node}
    (row : ∀ part ∈ rowParts nodes, part.EndsLines source) :
    ∀ part ∈ .children nodes :: partsOf nodes, part.EndsLines source := by
  obtain ⟨own, below⟩ := List.forall_mem_cons.mp row
  exact List.forall_mem_cons.mpr ⟨own, below⟩

/-- What is nested in a rule has only line comments that end their lines. -/
structure Nested.IsClear (source : Text) (nested : Nested) : Prop where
  expression : nested.expression.Meets (Clear source rowParts)
  children : nested.children.Meets (Clear source rowParts)

section Rules

variable {source : Text} {nested : Nested}

theorem clear_group (clear : nested.IsClear source) (delimiter : Delimiter) :
    (Rules.group nested delimiter).Meets (Clear source nodeParts) := by
  refine (meets_char _).bind fun _ _ _ => clear.expression.bind fun _ _ _ => ?_
  refine (meets_char _).bind fun _ _ _ => meets_pure ?_
  rintro _ _ - - rfl body rfl - around
  exact clear_node (by simp) (body around.right.left)

theorem clear_value (clear : nested.IsClear source) :
    (Rules.value nested).Meets (Clear source nodeParts) := by
  refine meets_firstOf fun parser member => ?_
  simp only [List.mem_cons, List.not_mem_nil, or_false] at member
  rcases member with rfl | rfl | rfl | rfl | rfl | rfl | rfl
  · exact clear_name
  · exact clear_quoted (by simp [quotes])
  · exact clear_quoted (by simp [quotes])
  · exact clear_quoted (by simp [quotes])
  · exact clear_group clear .paren
  · exact clear_group clear .bracket
  · exact clear_group clear .brace

theorem clear_interpolation (clear : nested.IsClear source) :
    (Rules.interpolation nested).Meets (Clear source nodeParts) := by
  refine (meets_char _).bind fun _ _ _ => clear.expression.bind fun _ _ _ => ?_
  refine (meets_char _).bind fun _ _ _ => meets_pure ?_
  rintro _ _ - - rfl body rfl - around
  exact clear_node (by simp) (body around.right.left)

theorem clear_opening (clear : nested.IsClear source) :
    (Rules.opening nested).Meets (Clear source tagParts) := by
  refine (meets_char '<').bind fun _ _ _ => (clear_separator source).bind fun _ _ _ => ?_
  refine (clear_value clear).bind fun _ _ _ => (clear_separator source).bind fun _ _ _ =>
    meets_pure ?_
  rintro _ _ - trailing rfl name rfl leading rfl - around
  have before := around.right.left
  have word := around.right.right.left
  have after := around.right.right.right.left
  exact List.forall_mem_append.mpr
    ⟨leading before, List.forall_mem_append.mpr ⟨name word, trailing after⟩⟩

theorem clear_entry (clear : nested.IsClear source) :
    (Rules.entry nested).Meets (Clear source fun item => attributesParts [item]) := by
  have assigned : (optional do let _ ← char '='; Rules.value nested).Meets
      (Clear source valueParts) := by
    have given : (do let _ ← char '='; Rules.value nested).Meets (Clear source nodeParts) := by
      refine (meets_char '=').bind fun _ _ _ => (clear_value clear).weaken ?_
      rintro _ _ _ _ value rfl - around
      exact value around.right
    refine given.optional ?_ ?_
    · intro _ _ _ _ value around
      exact value around
    · intro _ _ _ part member
      cases member
  refine (clear_value clear).bind fun _ _ _ => assigned.bind fun _ _ _ => ?_
  refine (clear_separator source).bind fun _ _ _ => meets_pure ?_
  rintro _ _ - - rfl value rfl name around
  have word := around.left
  have given := around.right.left
  refine List.forall_mem_append.mpr ⟨name word, List.forall_mem_append.mpr ⟨value given, ?_⟩⟩
  intro part member
  cases member

theorem clear_attributes (clear : nested.IsClear source) :
    (Rules.attributes nested).Meets (Clear source attributesParts) := by
  refine Meets.many (clear_entry clear) ?_ ?_
  · intro _ _ _ part member
    cases member
  · intro _ _ _ _ item items first rest around
    have own := first around.left
    have others := rest around.right
    simp only [attributesParts, List.append_nil, List.forall_mem_append] at own ⊢
    exact ⟨own.1, own.2, others⟩

theorem clear_reference (clear : nested.IsClear source) :
    (Rules.reference nested).Meets (Clear source nodeParts) := by
  refine (clear_opening clear).bind fun _ _ _ => (meets_word _).bind fun _ _ _ => meets_pure ?_
  rintro _ _ - - - tag around
  exact clear_node (by simp) (tag around.left)

theorem clear_selfClosing (clear : nested.IsClear source) :
    (Rules.selfClosing nested).Meets (Clear source nodeParts) := by
  have argument : (Rules.argument nested).Meets (Clear source argumentParts) := by
    refine Meets.orElse (Meets.attempt ((clear_attributes clear).map ?_))
      ((clear_value clear).map ?_)
    · intro _ _ _ _ attributes around
      exact attributes around
    · intro _ _ _ _ value around
      exact value around
  refine (clear_opening clear).bind fun _ _ _ => argument.bind fun _ _ _ => ?_
  refine (meets_word _).bind fun _ _ _ => meets_pure ?_
  rintro _ _ - - - given rfl tag around
  exact clear_node (by simp)
    (List.forall_mem_append.mpr ⟨tag around.left, given around.right.left⟩)

theorem clear_element (clear : nested.IsClear source) :
    (Rules.element nested).Meets (Clear source nodeParts) := by
  refine (clear_opening clear).bind fun _ _ _ => (clear_attributes clear).bind fun _ _ _ => ?_
  refine (meets_char '>').bind fun _ _ _ => clear.children.bind fun _ _ _ => ?_
  refine (meets_word _).bind fun _ _ _ => (meets_many_exclude '>').bind fun _ _ _ => ?_
  refine (meets_char '>').bind fun _ _ _ => meets_pure ?_
  rintro _ _ - - - - - - rfl children rfl - rfl list rfl tag around
  have given := around.right.left
  have inside := around.right.right.right.left
  exact clear_node (by simp) (List.forall_mem_append.mpr
    ⟨tag around.left,
      List.forall_mem_append.mpr ⟨list given, clear_children_of_row (children inside)⟩⟩)

theorem clear_fragment (clear : nested.IsClear source) :
    (Rules.fragment nested).Meets (Clear source nodeParts) := by
  refine (meets_word _).bind fun _ _ _ => clear.children.bind fun _ _ _ => ?_
  refine (meets_word _).bind fun _ _ _ => meets_pure ?_
  rintro _ _ - - rfl children rfl - around
  exact clear_node (by simp)
    (clear_children_of_row (children around.right.left))

theorem clear_views (clear : nested.IsClear source) :
    ∀ parser ∈ Rules.views nested, parser.Meets (Clear source nodeParts) := by
  intro parser member
  simp only [Rules.views, List.mem_cons, List.not_mem_nil, or_false] at member
  rcases member with rfl | rfl | rfl | rfl
  · exact (clear_reference clear).attempt
  · exact (clear_selfClosing clear).attempt
  · exact (clear_element clear).attempt
  · exact (clear_fragment clear).attempt

theorem clear_children (clear : nested.IsClear source) :
    (Rules.children nested).Meets (Clear source rowParts) := by
  refine clear_list (meets_firstOf fun parser member => ?_)
  rcases List.mem_append.mp member with view | other
  · exact clear_views clear parser view
  simp only [List.mem_cons, List.not_mem_nil, or_false] at other
  rcases other with rfl | rfl
  · exact clear_text
  · exact clear_interpolation clear

theorem clear_expression (clear : nested.IsClear source) :
    (Rules.expression nested).Meets (Clear source rowParts) := by
  refine clear_list (meets_firstOf fun parser member => ?_)
  simp only [List.mem_append, List.mem_cons, List.not_mem_nil, or_false] at member
  rcases member with ((rfl | rfl | rfl | rfl | rfl) | view) | rfl | rfl | rfl
  · exact clear_lineComment
  · exact clear_blockComment
  · exact clear_regex.attempt
  · exact clear_comment
  · exact clear_value clear
  · exact clear_views clear parser view
  · exact clear_operator '/'
  · exact clear_operator '<'
  · exact clear_plainCode

theorem isClear_levels (source : Text) (budget : Nat) :
    (Nested.nothing.levels budget).IsClear source := by
  induction budget with
  | zero => exact ⟨meets_failHere .alternatives, meets_failHere .alternatives⟩
  | succ budget ih => exact ⟨clear_expression ih, clear_children ih⟩

end Rules

/-! ### What comes after a line comment in its list -/

theorem exists_cons_of_mark {item : Text} (mark : HostMark item) :
    ∃ c rest, item = c :: rest ∧ c ≠ '\n' := by
  cases mark <;> exact ⟨_, _, rfl, by decide⟩

theorem exists_cons_of_value {offset : Nat} {text : Text} {node : Node}
    (derives : Derives .value offset text node) : ∃ c rest, text = c :: rest ∧ c ≠ '\n' := by
  cases derives with
  | name run =>
    obtain ⟨c, rest, rfl⟩ := List.exists_cons_of_ne_nil run.1
    refine ⟨c, rest, rfl, ?_⟩
    rintro rfl
    exact absurd (run.2 '\n' (List.mem_cons_self ..)) (by decide)
  | quoted known _ =>
    refine ⟨_, _, rfl, ?_⟩
    rintro rfl
    exact absurd known (by decide)
  | @group _ delimiter _ _ _ => exact ⟨_, _, rfl, by cases delimiter <;> decide⟩

/-- What an expression can start with: nothing, plain code, or something else that is no
    line break. -/
theorem expression_cases {offset : Nat} {text : Text} {nodes : List Node}
    (derives : Derives .expression offset text nodes) :
    (text = [] ∧ nodes = []) ∨
      (∃ item rest others, IsRun isCodeChar item ∧ text = item ++ rest ∧
        nodes = .code (.ofText offset item) :: others) ∨
      ∃ c rest, text = c :: rest ∧ c ≠ '\n' := by
  have other : ∀ {item rest : Text}, (∃ c more, item = c :: more ∧ c ≠ '\n') →
      ∃ c more, item ++ rest = c :: more ∧ c ≠ '\n' := by
    rintro _ rest ⟨c, more, rfl, different⟩
    exact ⟨c, more ++ rest, rfl, different⟩
  cases derives with
  | expressionEnd => exact .inl ⟨rfl, rfl⟩
  | expressionCode run _ => exact .inr (.inl ⟨_, _, _, run, rfl, rfl⟩)
  | expressionMark mark _ => exact .inr (.inr (other (exists_cons_of_mark mark)))
  | expressionValue value _ => exact .inr (.inr (other (exists_cons_of_value value)))
  | expressionComment note _ =>
    cases note
    exact .inr (.inr (other ⟨_, _, rfl, by decide⟩))
  | expressionView view _ =>
    obtain ⟨-, first, -⟩ := isView_of_derives view
    obtain ⟨rest, rfl⟩ := List.head?_eq_some_iff.mp first
    exact .inr (.inr (other ⟨_, _, rfl, by decide⟩))

/-- Behind the end of a line, an expression is empty or goes on with a new line. -/
theorem startsLine_or_nil {source text back : Text} {offset : Nat} {nodes : List Node}
    (derives : Derives .expression offset text nodes) (around : source.Around offset text back)
    (stops : Stops (· ≠ '\n') (text ++ back)) :
    StartsLine source nodes ∨ (text = [] ∧ nodes = []) := by
  rcases expression_cases derives with empty | ⟨item, rest, others, run, rfl, rfl⟩ |
    ⟨c, rest, rfl, different⟩
  · exact .inr empty
  · left
    obtain ⟨c, item, rfl⟩ := List.exists_cons_of_ne_nil run.1
    have isBreak : c = '\n' := by simpa [Stops] using stops
    subst isBreak
    refine ⟨_, _, rfl, ?_⟩
    rw [around.left.stands.slice_eq]
    rfl
  · exact absurd stops (by simpa [Stops] using different)

theorem not_isLineComment_of_isValue {source : Text} {span : Span}
    (value : (Node.verbatim span).IsValue source) : ¬ span.IsLineComment source := by
  rintro ⟨more, same⟩
  obtain ⟨mark, known, first⟩ := value
  rw [← same] at first
  obtain rfl := Option.some.inj first
  exact absurd known (by decide)

theorem not_isLineComment_of_separator {source text : Text} {offset : Nat} {nodes : List Node}
    (derives : Derives .separator offset text nodes) (stands : source.StandsAt offset text) :
    ∀ span, .verbatim span ∈ nodes → ¬ span.IsLineComment source := by
  induction nodes generalizing offset text with
  | nil => simp
  | cons node nodes ih =>
    intro span member
    cases derives with
    | separatorBlank blank derives =>
      rcases List.mem_cons.mp member with same | member
      · cases same
        rw [Span.IsLineComment, stands.left.slice_eq]
        rintro ⟨more, rfl⟩
        exact absurd (blank.2 '/' (List.mem_cons_self ..)) (by decide)
      · exact ih derives stands.right span member
    | separatorComment note derives =>
      cases note
      rcases List.mem_cons.mp member with same | member
      · cases same
      · exact ih derives stands.right span member

/-- A line comment in an expression is followed by a new line, or it ends where the
    expression ends. -/
theorem commentsEnd_of_derives {source text : Text} {offset : Nat} {nodes : List Node}
    (derives : Derives .expression offset text nodes) (stands : source.StandsAt offset text)
    (ends : (Part.row nodes).EndsLines source) :
    CommentsEnd source (fun span => span.stop = offset + text.byteSize) nodes := by
  induction nodes generalizing offset text with
  | nil => exact commentsEnd_nil
  | cons node nodes ih =>
    have others : (Part.row nodes).EndsLines source := fun span member =>
      ends span (List.mem_cons_of_mem _ member)
    -- The list behind the first node, with the end of the whole text.
    have behind : ∀ {item rest : Text}, text = item ++ rest →
        Derives .expression (offset + item.byteSize) rest nodes →
          CommentsEnd source (fun span => span.stop = offset + text.byteSize) nodes := by
      rintro item rest rfl derives
      have all := ih derives stands.right others
      rwa [Nat.add_assoc, ← Text.byteSize_append] at all
    cases derives with
    | @expressionMark _ item rest _ mark derives =>
      refine commentsEnd_cons ?_ (behind rfl derives)
      rintro span ⟨⟩ comment
      obtain ⟨back, around⟩ := stands.around
      have stops := ends _ (List.mem_cons_self ..) comment
      rw [Span.ofText, around.left.after_eq] at stops
      rcases startsLine_or_nil derives around.right stops with starts | ⟨rfl, rfl⟩
      · exact .inl starts
      · right
        simp [Span.ofText]
    | expressionCode _ derives =>
      exact commentsEnd_cons (by simp) (behind rfl derives)
    | expressionComment note derives =>
      cases note
      exact commentsEnd_cons (by simp) (behind rfl derives)
    | expressionValue value derives =>
      refine commentsEnd_cons ?_ (behind rfl derives)
      rintro span rfl comment
      exact (not_isLineComment_of_isValue (isValue_of_derives value stands.left) comment).elim
    | expressionView view derives =>
      refine commentsEnd_cons ?_ (behind rfl derives)
      rintro span rfl
      exact (isChild_of_view view).elim

/-- No line comment comes last in brackets. -/
theorem commentsEnd_body {source inside : Text} {offset : Nat} {body : List Node}
    (delimiter : Delimiter) (derives : Derives .expression offset inside body)
    (stands : source.StandsAt offset (inside ++ [delimiter.closing]))
    (ends : (Part.row body).EndsLines source) : CommentsEnd source (fun _ => False) body := by
  intro front span back split comment
  rcases commentsEnd_of_derives derives stands.left ends front span back split comment with
    starts | ⟨rfl, stop⟩
  · exact .inl starts
  · -- The closing bracket would have to be a line break.
    obtain ⟨back, around⟩ := stands.around
    have stops := ends span (by simp [Part.nodes, split]) comment
    rw [stop, around.left.after_eq] at stops
    cases delimiter <;> simp [Stops, Delimiter.closing] at stops

/-- In every list below a derived tree, a line comment is followed by a new line. -/
theorem commentsEnd_parts {production : Production} {source text : Text} {offset : Nat}
    {value : production.Value} (derives : Derives production offset text value)
    (stands : source.StandsAt offset text)
    (ends : ∀ part ∈ production.parts value, part.EndsLines source) :
    ∀ part ∈ production.parts value, CommentsEnd source (fun _ => False) part.nodes := by
  have all : ∀ part ∈ production.parts value,
      part.EndsLines source → CommentsEnd source (fun _ => False) part.nodes := by
    refine derives.forall_parts ?_ ?_ ?_ ?_ stands
    · intro offset text nodes derives stands _
      exact commentsEnd_of_none (not_isLineComment_of_separator derives stands)
    · intro delimiter offset inside body derives stands ends
      exact commentsEnd_body delimiter derives stands ends
    · intro offset text nodes derives _ _
      exact commentsEnd_of_none fun span member => (isChild_of_children derives _ member).elim
    · intro offset text node derives stands _
      refine commentsEnd_of_none fun span member => ?_
      cases List.mem_singleton.mp member
      exact not_isLineComment_of_isValue (isValue_of_derives derives stands)
  intro part member
  exact all part member (ends part member)

end Grammar

open Grammar in
/-- **Line comments in a tree.**  In the list of a program a line comment is followed by
    a new line or comes last and ends the source; in every other list of the tree it is
    followed by a new line. -/
theorem commentsEnd_of_parse {source : Text} {nodes : List Node}
    (parsed : parse source = .ok nodes) :
    CommentsEnd source (fun span => span.stop = source.byteSize) nodes ∧
      ∀ part ∈ partsOf nodes, CommentsEnd source (fun _ => False) part.nodes := by
  have derives := derives_of_parse parsed
  have stands := Text.StandsAt.whole source
  obtain ⟨_, done⟩ := parse_eq_ok_iff.mp parsed
  obtain ⟨nodes, next, begun, rest⟩ := Parser.bind_eq_ok_iff.mp done
  obtain ⟨_, _, -, rest⟩ := Parser.bind_eq_ok_iff.mp rest
  cases rest
  obtain ⟨read, reads, clear⟩ := (clear_expression (isClear_levels source _)).ok begun
  obtain ⟨own, below⟩ := List.forall_mem_cons.mp (clear ⟨[], reads.rest_eq, rfl⟩)
  refine ⟨?_, commentsEnd_parts derives stands below⟩
  have ends := commentsEnd_of_derives derives stands own
  rwa [Nat.zero_add] at ends

end ViewScript
