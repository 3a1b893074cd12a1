/-
  ViewScript/Proofs/Grammar/Termination.lean
  ==========================================
  **Reading ends.**

  The rules come back to themselves through an expression or through children only.
  They do so after a character has been read, so what is nested stands at a greater
  offset, and as many levels of nesting as there are bytes left are always enough.
  Between two such steps a rule calls rules that it stands above, and its repetitions go
  forward with every run but the last.

  There is no reply for running out of levels.  Instead the bottom of the levels is left
  open: a reply that is the same whatever stands at the bottom does not come from there.
-/
import ViewScript.Proofs.Grammar.Execution
import ViewScript.Proofs.Parser.Locality

namespace ViewScript.Grammar

open ViewScript.Parser

/-! ### Productions, open in what they nest -/

namespace Production

/-- The rule of a production. -/
def rule : (production : Production) → Nested → Parser production.Value
  | .separator, _ => Grammar.separator
  | .comment, _ => Grammar.comment
  | .value, nested => Rules.value nested
  | .attributes, nested => Rules.attributes nested
  | .text, _ => Grammar.text
  | .interpolation, nested => Rules.interpolation nested
  | .opening, nested => Rules.opening nested
  | .reference, nested => Rules.reference nested
  | .selfClosing, nested => Rules.selfClosing nested
  | .element, nested => Rules.element nested
  | .fragment, nested => Rules.fragment nested
  | .view, nested => firstOf (Rules.views nested)
  | .children, nested => Rules.children nested
  | .expression, nested => Rules.expression nested
  | .program, nested => do
    let nodes ← Rules.expression nested
    let _ ← endOfInput
    return nodes

theorem parser_eq_close (production : Production) : production.parser = close production.rule := by
  cases production <;> rfl

/-- The tree of a production, some bytes further on. -/
def shift (k : Nat) : (production : Production) → production.Value → production.Value
  | .separator | .children | .expression | .program => shiftAll k
  | .attributes => shiftAttributes k
  | .opening => shiftTag k
  | .comment | .value | .text | .interpolation | .reference | .selfClosing | .element
  | .fragment | .view => Node.shift k

theorem shift_zero (production : Production) (value : production.Value) :
    production.shift 0 value = value := by
  cases production with
  | separator | children | expression | program => exact shiftAll_zero value
  | attributes => exact shiftAttributes_zero value
  | opening => exact shiftTag_zero value
  | comment | value | text | interpolation | reference | selfClosing | element | fragment | view =>
    exact Node.shift_zero value

end Production

theorem follows_endOfInput {k n : Nat} : Follows k n 0 (Span.shift k) endOfInput endOfInput := by
  intro cursor below
  unfold endOfInput
  have same : (cursor.shift k).atEnd = cursor.atEnd := rfl
  rw [same]
  split
  · exact .inl ⟨_, cursor, rfl, rfl, Nat.le_refl _⟩
  · exact follows_failHere .endOfInput _ cursor below

theorem follows_rule {k n : Nat} {nested follower : Nested} (inner : nested.Follows k n follower)
    (production : Production) :
    Follows k (n + 1) 0 (production.shift k) (production.rule nested)
      (production.rule follower) := by
  cases production with
  | separator => exact follows_separator
  | comment => exact follows_comment
  | value => exact follows_value inner
  | attributes => exact follows_attributes inner
  | text => exact follows_text
  | interpolation => exact follows_interpolation inner
  | opening => exact follows_opening inner
  | reference => exact follows_reference inner
  | selfClosing => exact follows_selfClosing inner
  | element => exact follows_element inner
  | fragment => exact follows_fragment inner
  | view => exact follows_firstOf (follows_views inner)
  | children => exact follows_children inner
  | expression => exact follows_expression inner
  | program =>
    exact (follows_expression inner).bind fun _ => follows_endOfInput.bind fun _ => follows_pure rfl

/-- As many levels as there are characters ahead are enough, whatever stands below them. -/
theorem rule_levels_eq (production : Production) (bottom : Nested) {budget : Nat} {cursor : Cursor}
    (enough : cursor.rest.length ≤ budget) :
    production.rule (bottom.levels budget) cursor = production.parser cursor := by
  have towers : (bottom.levels budget).Follows 0 cursor.rest.length
      (Nested.nothing.levels (cursor.rest.length + 1)) :=
    levels_follows_levels enough (Nat.le_succ _)
  rw [production.parser_eq_close]
  exact (follows_rule towers production).apply_eq production.shift_zero (Nat.lt_succ_self _)

/-- Every production reads the same some bytes further on. -/
theorem follows_production (production : Production) (k n : Nat) :
    Follows k n 0 (production.shift k) production.parser production.parser := by
  intro cursor _
  have inner : (Nested.nothing.levels cursor.rest.length).Follows k cursor.rest.length
      (Nested.nothing.levels cursor.rest.length) := follows_levels _ _ _
  have here : production.rule (Nested.nothing.levels cursor.rest.length) cursor = _ :=
    rule_levels_eq production .nothing (Nat.le_refl _)
  have there : production.rule (Nested.nothing.levels cursor.rest.length) (cursor.shift k) = _ :=
    rule_levels_eq production .nothing (Nat.le_refl cursor.rest.length)
  rw [← here, ← there]
  exact follows_rule inner production cursor (Nat.lt_succ_self _)

/-! ### Rules look ahead only -/

/-- What is nested in two rules agrees from the offset on. -/
structure Nested.AgreeFrom (start : Nat) (nested other : Nested) : Prop where
  expression : Parser.AgreeFrom start nested.expression other.expression
  children : Parser.AgreeFrom start nested.children other.children

section Rules

variable {start : Nat} {nested other : Nested} (sound : nested.IsSound)
  (agree : nested.AgreeFrom (start + 1) other)

include sound agree

theorem agreeFrom_group (delimiter : Delimiter) :
    AgreeFrom start (Rules.group nested delimiter) (Rules.group other delimiter) :=
  agreeFrom_after_char _ fun _ => agree.expression.bind sound.expression fun _ =>
    agreeFrom_refl _ _

theorem agreeFrom_value : AgreeFrom start (Rules.value nested) (Rules.value other) := by
  have same := @agreeFrom_refl Node start
  have group := agreeFrom_group sound agree
  exact agreeFrom_firstOf (.cons (same _) (.cons (same _) (.cons (same _) (.cons (same _)
    (.cons (group _) (.cons (group _) (.cons (group _) .nil)))))))

theorem agreeFrom_attributes :
    AgreeFrom start (Rules.attributes nested) (Rules.attributes other) := by
  have value := agreeFrom_value sound agree
  have assigned : AgreeFrom start (do let _ ← char '='; Rules.value nested)
      (do let _ ← char '='; Rules.value other) :=
    (agreeFrom_refl _ _).bind (meets_char '=') fun _ => value
  have entry : AgreeFrom start (Rules.entry nested) (Rules.entry other) :=
    value.bind (sound_value sound) fun _ => assigned.optional.bind (meets_assigned sound) fun _ =>
      agreeFrom_refl _ _
  exact entry.many (meets_entry sound)

theorem agreeFrom_interpolation :
    AgreeFrom start (Rules.interpolation nested) (Rules.interpolation other) :=
  agreeFrom_after_char _ fun _ => agree.expression.bind sound.expression fun _ =>
    agreeFrom_refl _ _

theorem agreeFrom_opening : AgreeFrom start (Rules.opening nested) (Rules.opening other) :=
  (agreeFrom_refl _ _).bind (meets_char '<') fun _ =>
    (agreeFrom_refl _ _).bind sound_separator fun _ =>
      (agreeFrom_value sound agree).bind (sound_value sound) fun _ => agreeFrom_refl _ _

theorem agreeFrom_reference : AgreeFrom start (Rules.reference nested) (Rules.reference other) :=
  (agreeFrom_opening sound agree).bind (sound_opening sound) fun _ => agreeFrom_refl _ _

theorem agreeFrom_selfClosing :
    AgreeFrom start (Rules.selfClosing nested) (Rules.selfClosing other) := by
  have list := (agreeFrom_attributes sound agree).map (f := Argument.attributes)
    (sound_attributes sound)
  have one := (agreeFrom_value sound agree).map (f := Argument.expression) (sound_value sound)
  have forward : (Rules.argument nested).Meets fun _ _ _ _ => True :=
    Meets.orElse ((sound_attributes sound).map fun _ => trivial).attempt
      ((sound_value sound).map fun _ => trivial)
  exact (agreeFrom_opening sound agree).bind (sound_opening sound) fun _ =>
    (list.attempt.orElse one).bind forward fun _ => agreeFrom_refl _ _

theorem agreeFrom_element : AgreeFrom start (Rules.element nested) (Rules.element other) :=
  (agreeFrom_opening sound agree).bind (sound_opening sound) fun _ =>
    (agreeFrom_attributes sound agree).bind (sound_attributes sound) fun _ =>
      agreeFrom_after_char '>' fun _ => agree.children.bind sound.children fun _ =>
        agreeFrom_refl _ _

theorem agreeFrom_fragment : AgreeFrom start (Rules.fragment nested) (Rules.fragment other) := by
  refine AgreeFrom.after (meets_word ['<', '>']) ?_ fun _ =>
    agree.children.bind sound.children fun _ => agreeFrom_refl _ _
  rintro _ _ _ _ rfl
  exact List.cons_ne_nil _ _

theorem agreeFrom_views :
    List.Forall₂ (AgreeFrom start) (Rules.views nested) (Rules.views other) :=
  .cons (agreeFrom_reference sound agree).attempt
    (.cons (agreeFrom_selfClosing sound agree).attempt
      (.cons (agreeFrom_element sound agree).attempt
        (.cons (agreeFrom_fragment sound agree).attempt .nil)))

theorem agreeFrom_children : AgreeFrom start (Rules.children nested) (Rules.children other) := by
  have items : AgreeFrom start (Rules.child nested) (Rules.child other) := by
    refine agreeFrom_firstOf (List.rel_append (agreeFrom_views sound agree) ?_)
    exact .cons (agreeFrom_refl _ _) (.cons (agreeFrom_interpolation sound agree) .nil)
  exact items.many (meets_child sound)

theorem agreeFrom_expression :
    AgreeFrom start (Rules.expression nested) (Rules.expression other) := by
  have same := @agreeFrom_refl Node start
  have terms : AgreeFrom start (Rules.term nested) (Rules.term other) := by
    refine agreeFrom_firstOf
      (List.rel_append (List.rel_append ?_ (agreeFrom_views sound agree)) ?_)
    · exact .cons (same _) (.cons (same _) (.cons (same _) (.cons (same _)
        (.cons (agreeFrom_value sound agree) .nil))))
    · exact .cons (same _) (.cons (same _) (.cons (same _) .nil))
  exact terms.many (meets_term sound)

theorem agreeFrom_rule (production : Production) :
    AgreeFrom start (production.rule nested) (production.rule other) := by
  cases production with
  | separator | comment | text => exact agreeFrom_refl _ _
  | value => exact agreeFrom_value sound agree
  | attributes => exact agreeFrom_attributes sound agree
  | interpolation => exact agreeFrom_interpolation sound agree
  | opening => exact agreeFrom_opening sound agree
  | reference => exact agreeFrom_reference sound agree
  | selfClosing => exact agreeFrom_selfClosing sound agree
  | element => exact agreeFrom_element sound agree
  | fragment => exact agreeFrom_fragment sound agree
  | view => exact agreeFrom_firstOf (agreeFrom_views sound agree)
  | children => exact agreeFrom_children sound agree
  | expression => exact agreeFrom_expression sound agree
  | program =>
    exact (agreeFrom_expression sound agree).bind (sound_expression sound) fun _ =>
      agreeFrom_refl _ _

end Rules

/-- A closed production is its rule, applied to the closed rules. -/
theorem parser_eq_rule_closed (production : Production) :
    production.parser = production.rule .closed := by
  rw [production.parser_eq_close]
  exact close_eq (fun inner => follows_rule inner production) production.shift_zero

/-! ### Repetitions -/

/-- The parsers that the rules repeat. -/
inductive Repeated (nested : Nested) : {α : Type} → Parser α → Prop
  | whitespace : Repeated nested (charOf "whitespace" isSeparatorChar)
  | name : Repeated nested (charOf "identifier" isNameChar)
  | comment : Repeated nested (escapedOr [['#']])
  | quoted (mark : Char) : Repeated nested (escapedOr [[mark]])
  | text : Repeated nested (escapedOr [['\x7b'], ['<']])
  | lineComment : Repeated nested (exclude [['\n']])
  | blockComment : Repeated nested (exclude [['*', '/']])
  | regex : Repeated nested regexItem
  | plainCode : Repeated nested (exclude codeDelimiters)
  | closingName : Repeated nested (exclude [['>']])
  | separator : Repeated nested (orElse Grammar.whitespace Grammar.comment)
  | attributes : Repeated nested (Rules.entry nested)
  | children : Repeated nested (Rules.child nested)
  | expression : Repeated nested (Rules.term nested)

theorem Repeated.loops {nested : Nested} (sound : nested.IsSound) {α : Type} {parser : Parser α}
    (repeated : Repeated nested parser) : parser.Loops := by
  cases repeated with
  | whitespace => exact (meets_satisfy _ _).loops
  | name => exact (meets_satisfy _ _).loops
  | comment => exact (meets_escapedItem ['#'] meets_anyChar).loops
  | quoted mark => exact (meets_escapedItem [mark] meets_anyChar).loops
  | text => exact (meets_escapedItem ['\x7b', '<'] meets_anyChar).loops
  | lineComment => exact (meets_exclude _).loops
  | blockComment => exact (meets_exclude _).loops
  | regex => exact (meets_escapedItem ['/', '\n'] meets_regexChar).loops
  | plainCode => exact (meets_exclude _).loops
  | closingName => exact (meets_exclude _).loops
  | separator =>
    exact ((meets_whitespace.weaken fun _ => trivial).orElse
      (sound_comment.weaken fun _ => trivial) : Meets _ fun _ _ _ _ => True).loops
  | attributes => exact (meets_entry sound).loops
  | children => exact (meets_child sound).loops
  | expression => exact (meets_term sound).loops

/-! ### Reading ends -/

/-- **Reading a production ends**, from any offset of any source.

    * As many levels of nesting as there are bytes left are enough: with these or with more
      the reply is the one of the production, whatever stands at the bottom.
    * An expression or children that are nested in the production start at a greater
      offset: the reply stays the same if any parsers stand in their place that agree with
      them after the start.
    * The repetitions in it are loops that end: a run goes forward or is the last one. -/
theorem production_terminates (production : Production) (source : Text) (start : Nat) :
    (∀ (bottom : Nested) (budget : Nat), source.byteSize - start ≤ budget →
      (production.rule (bottom.levels budget)).runAt source start =
        production.parser.runAt source start) ∧
    (∀ other : Nested, Nested.closed.AgreeFrom (start + 1) other →
      (production.rule other).runAt source start = production.parser.runAt source start) ∧
    ∀ {α : Type} (parser : Parser α), Repeated .closed parser → parser.Loops := by
  refine ⟨?_, ?_, ?_⟩
  · intro bottom budget enough
    exact rule_levels_eq production bottom
      (Nat.le_trans (Cursor.length_rest_ofOffset_le source start) enough)
  · intro other agree
    rw [parser_eq_rule_closed]
    exact (agreeFrom_rule isSound_closed agree production _ (Nat.le_refl start)).symm
  · intro α parser repeated
    exact repeated.loops isSound_closed

end ViewScript.Grammar
