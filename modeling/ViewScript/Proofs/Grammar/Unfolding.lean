/-
  ViewScript/Proofs/Grammar/Unfolding.lean
  ========================================
  **The closed rules are the open rules applied to themselves.**

  What is nested in a rule starts after a character that the rule has read.  So a
  rule whose nested parsers agree on texts with less than `n` characters agrees on
  texts with less than `n + 1`, and two towers of `n` levels agree on texts with less
  than `n` characters, whatever stands at their bottoms.  A closed rule never gets to
  the bottom of its tower, and the levels can be forgotten.
-/
import Mathlib.Data.List.Forall2
import ViewScript.Grammar.Basic
import ViewScript.Proofs.Tree.Shift

namespace ViewScript.Grammar

open ViewScript.Parser

variable {k n : Nat}

/-! ### Lexical rules -/

theorem follows_escapedOr (delimiters : List Text) :
    Follows k n 0 (Span.shift k) (escapedOr delimiters) (escapedOr delimiters) :=
  ((follows_char '\\').bind fun _ => (follows_satisfy _ _).weaken).spanned.orElse
    (follows_exclude delimiters).weaken

theorem follows_comment : Follows k n 0 (Node.shift k) comment comment :=
  (follows_char '#').bind fun _ => (follows_escapedOr _).many.spanned.bind fun _ =>
    (follows_char '#').bind fun _ => follows_pure rfl

theorem follows_separator : Follows k n 0 (shiftAll k) separator separator := by
  have whitespace : Follows k n 0 (Node.shift k) whitespace whitespace :=
    (follows_satisfy _ _).many1.spanned.map fun _ => rfl
  rw [← map_shift]
  exact (whitespace.orElse follows_comment).many

theorem follows_name : Follows k n 0 (Node.shift k) name name :=
  (follows_satisfy _ _).many1.spanned.map fun _ => rfl

theorem follows_quoted (mark : Char) :
    Follows k n 0 (Node.shift k) (quoted mark) (quoted mark) :=
  ((follows_char mark).bind fun _ => (follows_escapedOr _).many.bind fun _ =>
    (follows_char mark).weaken).spanned.map fun _ => rfl

theorem follows_text : Follows k n 0 (Node.shift k) text text :=
  (follows_escapedOr _).many1.spanned.map fun _ => rfl

theorem follows_lineComment : Follows k n 0 (Node.shift k) lineComment lineComment :=
  ((follows_word '/' _).bind fun _ => (follows_exclude _).many).spanned.map fun _ => rfl

theorem follows_blockComment : Follows k n 0 (Node.shift k) blockComment blockComment :=
  ((follows_word '/' _).bind fun _ => (follows_exclude _).many.bind fun _ =>
    (follows_word '*' _).weaken).spanned.map fun _ => rfl

theorem follows_regex : Follows k n 0 (Node.shift k) regex regex := by
  have item : Follows k n 0 (Span.shift k)
      (orElse (spanned do let _ ← char '\\'; exclude [['\n']]) (exclude [['/'], ['\n']]))
      (orElse (spanned do let _ ← char '\\'; exclude [['\n']]) (exclude [['/'], ['\n']])) :=
    ((follows_char '\\').bind fun _ => (follows_exclude _).weaken).spanned.orElse
      (follows_exclude _).weaken
  exact ((follows_char '/').bind fun _ => item.many1.bind fun _ =>
    (follows_char '/').weaken).spanned.map fun _ => rfl

theorem follows_operator (c : Char) : Follows k n 0 (Node.shift k) (operator c) (operator c) :=
  (follows_char c).map fun _ => rfl

theorem follows_plainCode : Follows k n 0 (Node.shift k) plainCode plainCode :=
  (follows_exclude _).many1.spanned.map fun _ => rfl

/-! ### Rules that nest -/

/-- The nested parsers of one rule follow those of another. -/
structure Nested.Follows (k n : Nat) (nested follower : Nested) : Prop where
  expression : Parser.Follows k n 0 (shiftAll k) nested.expression follower.expression
  children : Parser.Follows k n 0 (shiftAll k) nested.children follower.children

section Rules

variable {nested follower : Nested} (inner : nested.Follows k n follower)

include inner

theorem follows_group (delimiter : Delimiter) : Follows k (n + 1) 0 (Node.shift k)
    (Rules.group nested delimiter) (Rules.group follower delimiter) :=
  (follows_char _).after fun _ => inner.expression.bind fun _ =>
    (follows_char _).bind fun _ => follows_pure rfl

theorem follows_value :
    Follows k (n + 1) 0 (Node.shift k) (Rules.value nested) (Rules.value follower) :=
  follows_firstOf (.cons follows_name (.cons (follows_quoted _) (.cons (follows_quoted _)
    (.cons (follows_quoted _) (.cons (follows_group inner _) (.cons (follows_group inner _)
      (.cons (follows_group inner _) .nil)))))))

theorem follows_attributes : Follows k (n + 1) 0 (shiftAttributes k)
    (Rules.attributes nested) (Rules.attributes follower) := by
  have assigned : Follows k (n + 1) 0 (shiftOption k)
      (optional do let _ ← char '='; Rules.value nested)
      (optional do let _ ← char '='; Rules.value follower) := by
    rw [← map_shift_option]
    exact ((follows_char '=').bind fun _ => follows_value inner).optional
  have entry : Follows k (n + 1) 0 (shiftAttribute k)
      (Rules.entry nested) (Rules.entry follower) :=
    (follows_value inner).bind fun _ => assigned.bind fun _ => follows_separator.bind fun _ =>
      follows_pure rfl
  rw [← map_shiftAttribute]
  exact entry.many

theorem follows_interpolation : Follows k (n + 1) 0 (Node.shift k)
    (Rules.interpolation nested) (Rules.interpolation follower) :=
  (follows_char _).after fun _ => inner.expression.bind fun _ =>
    (follows_char _).bind fun _ => follows_pure rfl

theorem follows_opening :
    Follows k (n + 1) 0 (shiftTag k) (Rules.opening nested) (Rules.opening follower) :=
  (follows_char '<').bind fun _ => follows_separator.bind fun _ => (follows_value inner).bind
    fun _ => follows_separator.bind fun _ => follows_pure rfl

theorem follows_reference : Follows k (n + 1) 0 (Node.shift k)
    (Rules.reference nested) (Rules.reference follower) :=
  (follows_opening inner).bind fun _ => (follows_word '*' _).bind fun _ => follows_pure rfl

theorem follows_selfClosing : Follows k (n + 1) 0 (Node.shift k)
    (Rules.selfClosing nested) (Rules.selfClosing follower) := by
  have list : Follows k (n + 1) 0 (shiftArgument k)
      (Argument.attributes <$> Rules.attributes nested)
      (Argument.attributes <$> Rules.attributes follower) :=
    (follows_attributes inner).map fun _ => rfl
  have one : Follows k (n + 1) 0 (shiftArgument k)
      (Argument.expression <$> Rules.value nested)
      (Argument.expression <$> Rules.value follower) :=
    (follows_value inner).map fun _ => rfl
  exact (follows_opening inner).bind fun _ => (list.attempt.orElse one).bind fun _ =>
    (follows_word '/' _).bind fun _ => follows_pure rfl

theorem follows_element : Follows k (n + 1) 0 (Node.shift k)
    (Rules.element nested) (Rules.element follower) :=
  (follows_opening inner).bind fun _ => (follows_attributes inner).bind fun _ =>
    (follows_char '>').after fun _ => inner.children.bind fun _ =>
      (follows_word '<' _).bind fun _ => (follows_exclude _).many.bind fun _ =>
        (follows_char '>').bind fun _ => follows_pure rfl

theorem follows_fragment : Follows k (n + 1) 0 (Node.shift k)
    (Rules.fragment nested) (Rules.fragment follower) :=
  (follows_word '<' _).after fun _ => inner.children.bind fun _ =>
    (follows_word '<' _).bind fun _ => follows_pure rfl

theorem follows_views :
    List.Forall₂ (Follows k (n + 1) 0 (Node.shift k)) (Rules.views nested)
      (Rules.views follower) :=
  .cons (follows_reference inner).attempt (.cons (follows_selfClosing inner).attempt
    (.cons (follows_element inner).attempt (.cons (follows_fragment inner).attempt .nil)))

theorem follows_children : Follows k (n + 1) 0 (shiftAll k)
    (Rules.children nested) (Rules.children follower) := by
  rw [← map_shift]
  refine (follows_firstOf (List.rel_append (follows_views inner) ?_)).many
  exact .cons follows_text (.cons (follows_interpolation inner) .nil)

theorem follows_expression : Follows k (n + 1) 0 (shiftAll k)
    (Rules.expression nested) (Rules.expression follower) := by
  rw [← map_shift]
  refine (follows_firstOf (List.rel_append (List.rel_append ?_ (follows_views inner)) ?_)).many
  · exact .cons follows_lineComment (.cons follows_blockComment (.cons follows_regex.attempt
      (.cons follows_comment (.cons (follows_value inner) .nil))))
  · exact .cons (follows_operator '/') (.cons (follows_operator '<') (.cons follows_plainCode .nil))

theorem Nested.Follows.deepen : nested.deepen.Follows k (n + 1) follower.deepen where
  expression := follows_expression inner
  children := follows_children inner

end Rules

/-! ### Levels -/

theorem follows_levels (bottom bottom' : Nested) (n : Nat) :
    (bottom.levels n).Follows k n (bottom'.levels n) := by
  induction n with
  | zero =>
    exact ⟨fun _ below => absurd below (Nat.not_lt_zero _),
      fun _ below => absurd below (Nat.not_lt_zero _)⟩
  | succ n ih => exact ih.deepen

theorem levels_levels (bottom : Nested) (first : Nat) (n : Nat) :
    (bottom.levels first).levels n = bottom.levels (first + n) := by
  induction n with
  | zero => rfl
  | succ n ih => rw [Nested.levels, ih]; rfl

/-- The closed rules, nested in each other. -/
def Nested.closed : Nested := ⟨Grammar.expression, Grammar.children⟩

/-- Towers agree on the texts that both are high enough for. -/
theorem levels_follows_levels {bottom bottom' : Nested} {high high' : Nat} (le : n ≤ high)
    (le' : n ≤ high') : (bottom.levels high).Follows k n (bottom'.levels high') := by
  obtain ⟨more, rfl⟩ := Nat.exists_eq_add_of_le' le
  obtain ⟨more', rfl⟩ := Nat.exists_eq_add_of_le' le'
  rw [← levels_levels, ← levels_levels]
  exact follows_levels _ _ n

theorem levels_follows_closed (n : Nat) : (Nested.nothing.levels n).Follows 0 n .closed := by
  have towers : ∀ cursor : Cursor, cursor.rest.length < n →
      (Nested.nothing.levels n).Follows 0 (cursor.rest.length + 1)
        (Nested.nothing.levels (cursor.rest.length + 2)) :=
    fun _ below => levels_follows_levels below (Nat.le_succ _)
  exact ⟨fun cursor below => (towers cursor below).expression cursor (Nat.lt_succ_self _),
    fun cursor below => (towers cursor below).children cursor (Nat.lt_succ_self _)⟩

/-- **Closing a rule is applying it to the closed rules.** -/
theorem close_eq {α : Type} {moved : α → α} {rule : Nested → Parser α}
    (follows : ∀ {n : Nat} {nested follower : Nested}, nested.Follows 0 n follower →
      Follows 0 (n + 1) 0 moved (rule nested) (rule follower))
    (same : ∀ value, moved value = value) : close rule = rule .closed := by
  funext cursor
  have towers := follows (levels_follows_closed (cursor.rest.length + 1))
  exact towers.apply_eq same (Nat.lt_succ_of_lt (Nat.lt_succ_self _))

theorem expression_eq : Grammar.expression = Rules.expression .closed :=
  close_eq follows_expression shiftAll_zero

theorem children_eq : Grammar.children = Rules.children .closed :=
  close_eq follows_children shiftAll_zero

end ViewScript.Grammar
