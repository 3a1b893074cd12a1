/-
  ViewScript/Proofs/Grammar/Views.lean
  ====================================
  **A tag is read in one way only.**

  A `<` can begin four kinds of views, which are tried one after the other.  Three of them
  begin alike, with a name and perhaps attributes, and read this beginning again each time.
  They read it in the same way, and then a single character decides: `*`, `/` or `>`.  A
  fragment has no such beginning.

  Hence the order in which the kinds are tried does not matter.
-/
import ViewScript.Proofs.Grammar.Execution
import ViewScript.Proofs.Grammar.Yield
import ViewScript.Proofs.Parser.Choice

namespace ViewScript.Grammar

open ViewScript.Parser

/-! ### What decides -/

section Deciding

variable {nested : Nested} {cursor next : Cursor}

theorem head?_of_word {c : Char} {text : Text} {span : Span}
    (done : word (c :: text) cursor = .ok span next) : cursor.rest.head? = some c := by
  obtain ⟨read, reads, rfl⟩ := (meets_word (c :: text)).ok done
  rw [reads.rest_eq]
  rfl

theorem head?_of_char {c : Char} {span : Span} (done : char c cursor = .ok span next) :
    cursor.rest.head? = some c := by
  obtain ⟨read, reads, rfl⟩ := (meets_char c).ok done
  rw [reads.rest_eq]
  rfl

theorem stops_of_head? {test : Char → Bool} {c : Char} (head : cursor.rest.head? = some c)
    (fails : test c = false) : Stops test cursor.rest := by
  obtain ⟨rest, ahead⟩ := List.head?_eq_some_iff.mp head
  rw [ahead]
  exact fails

theorem entry_declines (stops : Stops startsValue cursor.rest) :
    (Rules.entry nested).Declines cursor := (startsIn_value nested cursor stops).bind

theorem attributes_of_stops (stops : Stops startsValue cursor.rest) :
    Rules.attributes nested cursor = .ok [] cursor := (entry_declines stops).many_eq

/-- Whether a list of attributes can go on with the character after a value. -/
def continuesList (c : Char) : Bool := c == '=' || startsSeparator c || startsValue c

/-- A value with nothing behind it that belongs to a list of attributes is such a list by
    itself. -/
theorem exists_attributes_of_value {node : Node} (done : Rules.value nested cursor = .ok node next)
    (stops : Stops continuesList next.rest) :
    ∃ last, Rules.attributes nested cursor = .ok [⟨node, none⟩] last := by
  have noEquals : Stops (· == '=') next.rest := stops.mono fun c other =>
    (Bool.or_eq_false_iff.mp (Bool.or_eq_false_iff.mp other).1).1
  have noSeparator : Stops startsSeparator next.rest := stops.mono fun c other =>
    (Bool.or_eq_false_iff.mp (Bool.or_eq_false_iff.mp other).1).2
  have noValue : Stops startsValue next.rest := stops.mono fun c other =>
    (Bool.or_eq_false_iff.mp other).2
  have assigned : (do let _ ← char '='; Rules.value nested).Declines next :=
    (startsIn_char '=' next noEquals).bind
  have gap : separator next = .ok [] next := (startsIn_blank next noSeparator).many_eq
  have entry : Rules.entry nested cursor = .ok ⟨node, none⟩ next := by
    unfold Rules.entry
    rw [bind_of_ok done, bind_of_ok assigned.optional_eq, bind_of_ok gap]
    rfl
  exact exists_many_singleton entry (entry_declines noValue)

/-- Before a slash the argument of a tag has been read as a list of attributes. -/
theorem attributes_of_argument {argument : Argument Node}
    (done : Rules.argument nested cursor = .ok argument next)
    (slash : next.rest.head? = some '/') :
    ∃ attributes, argument = .attributes attributes ∧
      Rules.attributes nested cursor = .ok attributes next := by
  unfold Rules.argument at done
  cases list : Rules.attributes nested cursor with
  | ok attributes last =>
    have listed : (Argument.attributes <$> Rules.attributes nested) cursor =
        .ok (.attributes attributes) last := bind_of_ok list
    rw [orElse, attempt, listed] at done
    cases done
    exact ⟨attributes, rfl, rfl⟩
  | fail failure =>
    have failed : (Argument.attributes <$> Rules.attributes nested).Fails cursor :=
      Fails.bind ⟨failure, list⟩
    rw [failed.attempt.orElse] at done
    obtain ⟨value, _, read, same⟩ := bind_eq_ok_iff.mp done
    cases same
    obtain ⟨last, listed⟩ := exists_attributes_of_value read (stops_of_head? slash rfl)
    rw [list] at listed
    cases listed

/-- The character behind the name and the attributes of a tag, if there is a tag. -/
def markBehind (nested : Nested) (cursor : Cursor) : Option Char :=
  match (do let _ ← Rules.opening nested; Rules.attributes nested) cursor with
  | .ok _ next => next.rest.head?
  | .fail _ => none

theorem markBehind_of_ok {tag : Tag Node} {middle : Cursor} {attributes : List (Attribute Node)}
    (opened : Rules.opening nested cursor = .ok tag middle)
    (listed : Rules.attributes nested middle = .ok attributes next) :
    markBehind nested cursor = next.rest.head? := by
  rw [markBehind, bind_of_ok opened, listed]

/-- The name of a tag cannot start with `>`. -/
theorem markBehind_of_fragment {span : Span} (done : word ['<', '>'] cursor = .ok span next) :
    markBehind nested cursor = none := by
  obtain ⟨read, reads, rfl⟩ := (meets_word ['<', '>']).ok done
  obtain ⟨offset, rest, rfl⟩ : ∃ offset rest, cursor = ⟨offset, .chars ('<' :: '>' :: rest)⟩ := by
    cases reads with
    | char reads =>
      cases reads with
      | char reads => exact ⟨_, _, rfl⟩
  have noSeparator : Stops startsSeparator ('>' :: rest) := rfl
  have noName : (Rules.value nested).Fails ⟨offset + 1, .chars ('>' :: rest)⟩ :=
    ((startsIn_value nested).declines rfl).fails
  have noTag : (Rules.opening nested).Fails ⟨offset, .chars ('<' :: '>' :: rest)⟩ :=
    (yields_char '<').fails_bind ((yields_separator_nil noSeparator).fails_bind noName.bind)
  have noPrefix : (do let _ ← Rules.opening nested; Rules.attributes nested).Fails
      ⟨offset, .chars ('<' :: '>' :: rest)⟩ := noTag.bind
  obtain ⟨failure, failed⟩ := noPrefix
  rw [markBehind, failed]

end Deciding

/-! ### The four readings -/

/-- The kinds of views, as readings of what a `<` begins. -/
inductive Reading where
  | reference
  | selfClosing
  | element
  | fragment
deriving DecidableEq, Repr

namespace Reading

/-- The rule for a kind of view, open in what it nests. -/
def rule : Reading → Nested → Parser Node
  | .reference => Rules.reference
  | .selfClosing => Rules.selfClosing
  | .element => Rules.element
  | .fragment => Rules.fragment

/-- The rule for a kind of view. -/
def parser : Reading → Parser Node
  | .reference => Grammar.reference
  | .selfClosing => Grammar.selfClosing
  | .element => Grammar.element
  | .fragment => Grammar.fragment

theorem parser_eq (reading : Reading) : reading.parser = close reading.rule := by
  cases reading <;> rfl

/-- The readings in the order in which the grammar tries them. -/
def inTurn : List Reading := [.reference, .selfClosing, .element, .fragment]

/-- What decides for a reading. -/
def mark? : Reading → Option Char
  | .reference => some '*'
  | .selfClosing => some '/'
  | .element => some '>'
  | .fragment => none

theorem eq_of_mark?_eq {first second : Reading} (same : first.mark? = second.mark?) :
    first = second := by
  cases first <;> cases second <;> simp [mark?] at same ⊢

end Reading

section Readings

variable {nested : Nested} {cursor next : Cursor}

theorem markBehind_of_reading {reading : Reading} {node : Node}
    (done : reading.rule nested cursor = .ok node next) :
    markBehind nested cursor = reading.mark? := by
  cases reading with
  | reference =>
    obtain ⟨tag, middle, opened, behind⟩ := bind_eq_ok_iff.mp done
    obtain ⟨_, _, star, -⟩ := bind_eq_ok_iff.mp behind
    have head := head?_of_word star
    rw [markBehind_of_ok opened (attributes_of_stops (stops_of_head? head rfl)), head]
    rfl
  | selfClosing =>
    obtain ⟨tag, middle, opened, behind⟩ := bind_eq_ok_iff.mp done
    obtain ⟨argument, last, read, behind⟩ := bind_eq_ok_iff.mp behind
    obtain ⟨_, _, slash, -⟩ := bind_eq_ok_iff.mp behind
    have head := head?_of_word slash
    obtain ⟨attributes, -, listed⟩ := attributes_of_argument read head
    rw [markBehind_of_ok opened listed, head]
    rfl
  | element =>
    obtain ⟨tag, middle, opened, behind⟩ := bind_eq_ok_iff.mp done
    obtain ⟨attributes, last, listed, behind⟩ := bind_eq_ok_iff.mp behind
    obtain ⟨_, _, ends, -⟩ := bind_eq_ok_iff.mp behind
    rw [markBehind_of_ok opened listed, head?_of_char ends]
    rfl
  | fragment =>
    obtain ⟨_, _, begins, -⟩ := bind_eq_ok_iff.mp done
    exact markBehind_of_fragment begins

/-- At one place at most one reading succeeds. -/
theorem reading_unique {first second : Reading} (succeeds : (first.rule nested).Succeeds cursor)
    (succeeds' : (second.rule nested).Succeeds cursor) : first = second := by
  obtain ⟨node, next, done⟩ := succeeds
  obtain ⟨node', next', done'⟩ := succeeds'
  apply Reading.eq_of_mark?_eq
  rw [← markBehind_of_reading done, ← markBehind_of_reading done']

end Readings

/-! ### Grammars with other alternatives for views -/

/-- The parsers that are tried for a view in an expression and among children, open in what
    they nest. -/
structure Choices where
  inExpression : Nested → List (Parser Node)
  inChildren : Nested → List (Parser Node)

namespace Choices

variable (choices : Choices)

/-- Children with these alternatives for views. -/
def children (nested : Nested) : Parser (List Node) :=
  many (firstOf (choices.inChildren nested ++ [text, Rules.interpolation nested]))

/-- Expressions with these alternatives for views. -/
def expression (nested : Nested) : Parser (List Node) :=
  many (firstOf (
    [lineComment, blockComment, attempt regex, comment, Rules.value nested] ++
      choices.inExpression nested ++ [operator '/', operator '<', plainCode]))

/-- The rules with these alternatives, nested in each other. -/
def levels : Nat → Nested
  | 0 => .nothing
  | budget + 1 => ⟨choices.expression (levels budget), choices.children (levels budget)⟩

def program : Parser (List Node) := do
  let nodes ← fun cursor => choices.expression (choices.levels (cursor.rest.length + 1)) cursor
  let _ ← endOfInput
  return nodes

/-- Read a program with these alternatives for views. -/
def parse (source : Text) : Except Failure (List Node) :=
  match choices.program (Cursor.ofText source) with
  | .ok nodes _ => .ok nodes
  | .fail failure => .error failure

/-- The alternatives are alike those of the grammar. -/
structure IsAlike : Prop where
  inExpression (nested : Nested) :
    Alike (firstOf (choices.inExpression nested)) (firstOf (Rules.views nested))
  inChildren (nested : Nested) :
    Alike (firstOf (choices.inChildren nested)) (firstOf (Rules.views nested))

variable {choices} (alike : choices.IsAlike)

include alike

theorem expression_eq (nested : Nested) : choices.expression nested = Rules.expression nested :=
  Alike.many_eq (((Alike.refl _).firstOf_append (alike.inExpression nested)).firstOf_append
    (.refl _))

theorem children_eq (nested : Nested) : choices.children nested = Rules.children nested :=
  Alike.many_eq ((alike.inChildren nested).firstOf_append (.refl _))

theorem levels_eq (budget : Nat) : choices.levels budget = Nested.nothing.levels budget := by
  induction budget with
  | zero => rfl
  | succ budget ih => rw [levels, ih, expression_eq alike, children_eq alike]; rfl

/-- A grammar whose alternatives for views are alike reads every source alike. -/
theorem parse_eq (source : Text) : choices.parse source = ViewScript.parse source := by
  have program : choices.program = Grammar.program := by
    unfold Choices.program Grammar.program Grammar.expression close
    simp only [levels_eq alike, expression_eq alike]
  rw [Choices.parse, program]
  rfl

end Choices

/-! ### Views in another order -/

/-- The parsers for views, tried in the given order. -/
def Rules.viewsIn (order : List Reading) (nested : Nested) : List (Parser Node) :=
  order.map fun reading => attempt (reading.rule nested)

theorem alike_viewsIn {order : List Reading} (perm : order.Perm Reading.inTurn) (nested : Nested) :
    Alike (firstOf (Rules.viewsIn order nested)) (firstOf (Rules.views nested)) := by
  have different : order.Nodup := perm.symm.nodup (by decide)
  refine alike_firstOf_of_perm (perm.map _) ?_ ?_
  · intro parser member
    obtain ⟨reading, -, rfl⟩ := List.mem_map.mp member
    exact tentative_attempt _
  · refine List.pairwise_map.mpr (different.imp fun other cursor succeeds succeeds' => ?_)
    exact other (reading_unique succeeds.of_attempt succeeds'.of_attempt)

/-- **A tag is read in one way only.**  At every offset of every source at most one of the
    four rules for views succeeds.  If they are tried in another order, in expressions and
    among children, every source has the same tree or the same failure as before. -/
theorem readings_exclude :
    (∀ (source : Text) (offset : Nat) (first second : Reading),
      (∃ node next, first.parser.runAt source offset = .ok node next) →
        (∃ node next, second.parser.runAt source offset = .ok node next) → first = second) ∧
    ∀ inExpression inChildren : List Reading,
      inExpression.Perm Reading.inTurn → inChildren.Perm Reading.inTurn → ∀ source : Text,
        Choices.parse ⟨Rules.viewsIn inExpression, Rules.viewsIn inChildren⟩ source =
          ViewScript.parse source := by
  constructor
  · intro source offset first second succeeds succeeds'
    simp only [Reading.parser_eq] at succeeds succeeds'
    exact reading_unique succeeds succeeds'
  · intro inExpression inChildren perm perm' source
    exact Choices.parse_eq ⟨alike_viewsIn perm, alike_viewsIn perm'⟩ source

theorem readings_exclude_element :
    (∃ node next, Reading.element.parser.runAt "é<p a>x</p>" 2 = .ok node next) ∧
      (¬ ∃ node next, Reading.selfClosing.parser.runAt "é<p a>x</p>" 2 = .ok node next) ∧
      [Reading.fragment, .element, .reference, .selfClosing].Perm Reading.inTurn ∧
      [Reading.selfClosing, .fragment, .element, .reference].Perm Reading.inTurn ∧
      Choices.parse
        ⟨Rules.viewsIn [.fragment, .element, .reference, .selfClosing],
          Rules.viewsIn [.selfClosing, .fragment, .element, .reference]⟩ "<p><b*><></></q>" =
        .ok [.element ⟨[], .code ⟨1, 2⟩, []⟩ []
          [.reference ⟨[], .code ⟨4, 5⟩, []⟩, .fragment []]] := by
  have element : ∃ node next, Reading.element.parser.runAt "é<p a>x</p>" 2 = .ok node next :=
    ⟨.element ⟨[], .code ⟨3, 4⟩, [.verbatim ⟨4, 5⟩]⟩ [⟨.code ⟨5, 6⟩, none⟩] [.text ⟨7, 8⟩],
      ⟨12, .chars []⟩, by decide +kernel⟩
  have perm : [Reading.fragment, .element, .reference, .selfClosing].Perm Reading.inTurn := by
    decide
  have perm' : [Reading.selfClosing, .fragment, .element, .reference].Perm Reading.inTurn := by
    decide
  have parsed : ViewScript.parse "<p><b*><></></q>" = .ok [.element ⟨[], .code ⟨1, 2⟩, []⟩ []
      [.reference ⟨[], .code ⟨4, 5⟩, []⟩, .fragment []]] := by decide +kernel
  refine ⟨element, ?_, perm, perm', (readings_exclude.2 _ _ perm perm' _).trans parsed⟩
  intro selfClosing
  cases readings_exclude.1 _ _ _ _ element selfClosing

end ViewScript.Grammar
