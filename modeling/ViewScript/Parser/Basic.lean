/-
  ViewScript/Parser/Basic.lean
  ============================
  **Parsers, and the combinators they are built from.**

  A parser looks at a cursor and either yields a value with the cursor just past
  what it read, or fails with what it expected and where.

  Choice is ordered.  It goes on to the next alternative only after a failure *at
  the start*, one that was noticed where the choice began.  A failure further on
  commits the choice, unless `attempt` moves it back to the start.  Repetition
  follows the same rule: a failure at the start ends it, a failure further on is
  the failure of the whole.
-/
import ViewScript.Parser.Cursor
import ViewScript.Source.Span

namespace ViewScript

/-- What a parser wanted to see. -/
inductive Expected where
  /-- Exactly this word. -/
  | word (text : Text)
  /-- A character of a class, which is named. -/
  | oneOf (className : Text)
  /-- Any character at all. -/
  | anyChar
  /-- A character at which none of these words starts. -/
  | noneOf (words : List Text)
  | endOfInput
  /-- One of no alternatives. -/
  | alternatives
deriving DecidableEq, Repr

/-- The words in which an expectation is reported. -/
def Expected.describe : Expected → Text
  | .word text => text.quoted
  | .oneOf className => className
  | .anyChar => "any"
  | .noneOf words => "not " ++ Text.join ", " (words.map Text.quoted)
  | .endOfInput => "end of input"
  | .alternatives => "alternatives"

/-- Why a parser failed: what was expected, and at which offset. -/
structure Failure where
  expected : Expected
  position : Nat
deriving DecidableEq, Repr

/-- A failure in one line. -/
def Failure.message (failure : Failure) : Text :=
  "expected " ++ failure.expected.describe ++ " at offset " ++ Text.ofNat failure.position

/-- What a parser answers. -/
inductive Reply (α : Type) where
  | ok (value : α) (next : Cursor)
  | fail (failure : Failure)
deriving DecidableEq, Repr

/-- A parser for values of a type. -/
def Parser (α : Type) := Cursor → Reply α

namespace Parser

variable {α β : Type}

/-- Run a parser from an offset of a text. -/
def runAt (parser : Parser α) (text : Text) (offset : Nat) : Reply α :=
  parser (Cursor.ofOffset text offset)

/-! ### Sequencing -/

/-- Read nothing and yield a value. -/
protected def pure (value : α) : Parser α := fun cursor => .ok value cursor

/-- Run a parser and then the parser that its value chooses. -/
protected def bind (parser : Parser α) (following : α → Parser β) : Parser β := fun cursor =>
  match parser cursor with
  | .ok value next => following value next
  | .fail failure => .fail failure

instance : Monad Parser where
  pure := Parser.pure
  bind := Parser.bind

/-! ### Reading characters -/

/-- Fail here. -/
def failHere (expected : Expected) : Parser α := fun cursor => .fail ⟨expected, cursor.offset⟩

/-- One character that passes a test. -/
def satisfy (expected : Expected) (test : Char → Bool) : Parser Span := fun cursor =>
  match cursor.next? with
  | some (c, next) =>
    if test c then .ok ⟨cursor.offset, next.offset⟩ next else failHere expected cursor
  | none => failHere expected cursor

/-- One given character. -/
def char (c : Char) : Parser Span := satisfy (.word [c]) (· == c)

/-- One character of a named class. -/
def charOf (className : Text) (test : Char → Bool) : Parser Span := satisfy (.oneOf className) test

/-- Any one character. -/
def anyChar : Parser Span := satisfy .anyChar fun _ => true

/-- A given word.  The empty word is found at every boundary. -/
def word (text : Text) : Parser Span := fun cursor =>
  match cursor.skip? text with
  | some next => .ok ⟨cursor.offset, next.offset⟩ next
  | none => failHere (.word text) cursor

/-- One character at which none of the given words starts. -/
def exclude (words : List Text) : Parser Span := fun cursor =>
  match cursor.next? with
  | none => failHere (.noneOf words) cursor
  | some (_, next) =>
    match words.find? cursor.startsWith with
    | some word => failHere (.noneOf [word]) cursor
    | none => .ok ⟨cursor.offset, next.offset⟩ next

/-- Nothing, at the end of the text. -/
def endOfInput : Parser Span := fun cursor =>
  if cursor.atEnd then .ok ⟨cursor.offset, cursor.offset⟩ cursor else failHere .endOfInput cursor

/-! ### Choice -/

/-- The first parser, or the second if the first fails at the start. -/
def orElse (first second : Parser α) : Parser α := fun cursor =>
  match first cursor with
  | .ok value next => .ok value next
  | .fail failure => if failure.position = cursor.offset then second cursor else .fail failure

/-- Move a failure back to the start. -/
def attempt (parser : Parser α) : Parser α := fun cursor =>
  match parser cursor with
  | .ok value next => .ok value next
  | .fail failure => .fail ⟨failure.expected, cursor.offset⟩

/-- The first alternative that does not fail at the start.  If all do, the failure
    of the first one is reported. -/
def firstOf : List (Parser α) → Parser α
  | [], cursor => failHere .alternatives cursor
  | parser :: parsers, cursor =>
    match parser cursor with
    | .ok value next => .ok value next
    | .fail failure =>
      if failure.position = cursor.offset then
        match firstOf parsers cursor with
        | .ok value next => .ok value next
        | .fail later => if later.position = cursor.offset then .fail failure else .fail later
      else .fail failure

/-- A value, or none if the parser fails at the start. -/
def optional (parser : Parser α) : Parser (Option α) := fun cursor =>
  match parser cursor with
  | .ok value next => .ok (some value) next
  | .fail failure => if failure.position = cursor.offset then .ok none cursor else .fail failure

/-! ### Repetition -/

/-- Run a parser again and again, at most once more than `bound` has characters.  A
    run that reads nothing is the last one. -/
def manyWithin (parser : Parser α) : Text → Parser (List α)
  | bound, cursor =>
    match parser cursor with
    | .ok value next =>
      if next.offset = cursor.offset then .ok [value] cursor
      else
        match bound with
        | [] => .ok [value] next
        | _ :: bound =>
          match manyWithin parser bound next with
          | .ok values last => .ok (value :: values) last
          | .fail failure => .fail failure
    | .fail failure => if failure.position = cursor.offset then .ok [] cursor else .fail failure

/-- Run a parser until it fails at the start or reads nothing.  Every run but the
    last one reads a character, so the characters ahead are a bound. -/
def many (parser : Parser α) : Parser (List α) := fun cursor =>
  manyWithin parser cursor.rest cursor

/-- Like `many`, but the first run has to succeed. -/
def many1 (parser : Parser α) : Parser (List α) := fun cursor =>
  match parser cursor with
  | .ok value next =>
    if next.offset = cursor.offset then .ok [value] next
    else
      match many parser next with
      | .ok values last => .ok (value :: values) last
      | .fail failure => .fail failure
  | .fail failure => .fail failure

/-! ### Spans -/

/-- Yield the stretch that a parser read in place of its value. -/
def spanned (parser : Parser α) : Parser Span := fun cursor =>
  match parser cursor with
  | .ok _ next => .ok ⟨cursor.offset, next.offset⟩ next
  | .fail failure => .fail failure

/-! ### Small laws -/

@[simp] theorem pure_apply (value : α) (cursor : Cursor) :
    (pure value : Parser α) cursor = .ok value cursor := rfl

/-- A sequence succeeds just when its parts do, one after the other. -/
theorem bind_eq_ok_iff {parser : Parser α} {following : α → Parser β} {cursor last : Cursor}
    {result : β} :
    (parser >>= following) cursor = .ok result last ↔
      ∃ value next, parser cursor = .ok value next ∧ following value next = .ok result last := by
  show Parser.bind parser following cursor = _ ↔ _
  unfold Parser.bind
  cases parser cursor with
  | fail failure => simp
  | ok value next =>
    constructor
    · intro done
      exact ⟨value, next, rfl, done⟩
    · rintro ⟨_, _, ⟨⟩, done⟩
      exact done

/-- A sequence fails with the failure of its first part that fails. -/
theorem bind_eq_fail_iff {parser : Parser α} {following : α → Parser β} {cursor : Cursor}
    {failure : Failure} :
    (parser >>= following) cursor = .fail failure ↔
      parser cursor = .fail failure ∨
        ∃ value next, parser cursor = .ok value next ∧ following value next = .fail failure := by
  show Parser.bind parser following cursor = _ ↔ _
  unfold Parser.bind
  cases parser cursor with
  | fail earlier => simp
  | ok value next =>
    constructor
    · intro failed
      exact .inr ⟨value, next, rfl, failed⟩
    · intro failed
      cases failed with
      | inl atOnce => cases atOnce
      | inr later =>
        obtain ⟨_, _, ⟨⟩, failed⟩ := later
        exact failed

end Parser

end ViewScript
