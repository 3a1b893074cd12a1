/-
  ViewScript/Parser/Cursor.lean
  =============================
  **Cursors: a place in a text, and what can be read there.**

  A parser may be started at any offset.  At a boundary the rest of the text lies
  ahead.  Inside a character, or past the end, nothing can be read; the two differ
  only in whether the text counts as finished.

  A cursor holds all that a parser may look at, and it does not hold what lies
  behind.  So a parser cannot tell how much text came before it, except through
  the offset.
-/
import ViewScript.Text.Basic

namespace ViewScript

/-- What lies ahead of an offset. -/
inductive Ahead where
  /-- The offset is a boundary with these characters after it. -/
  | chars (rest : Text)
  /-- The offset splits a character. -/
  | insideChar
  /-- The offset is past the end. -/
  | pastEnd
deriving DecidableEq, Repr

/-- An offset together with what lies ahead of it. -/
structure Cursor where
  offset : Nat
  ahead : Ahead
deriving DecidableEq, Repr

namespace Cursor

/-- The cursor at an offset of a text. -/
def ofOffset (text : Text) (offset : Nat) : Cursor where
  offset := offset
  ahead := match text.dropBytes? offset with
    | some rest => .chars rest
    | none => if text.byteSize ≤ offset then .pastEnd else .insideChar

/-- The cursor at the start of a text. -/
def ofText (text : Text) : Cursor := ⟨0, .chars text⟩

/-- The characters that can still be read. -/
def rest (cursor : Cursor) : Text :=
  match cursor.ahead with
  | .chars rest => rest
  | _ => []

/-- Nothing of the text is left. -/
def atEnd (cursor : Cursor) : Bool :=
  match cursor.ahead with
  | .chars rest => rest.isEmpty
  | .insideChar => false
  | .pastEnd => true

/-- Read one character. -/
def next? (cursor : Cursor) : Option (Char × Cursor) :=
  match cursor.ahead with
  | .chars (c :: rest) => some (c, ⟨cursor.offset + c.utf8Size, .chars rest⟩)
  | _ => none

/-- Read a given word. -/
def skip? (word : Text) (cursor : Cursor) : Option Cursor :=
  match cursor.ahead with
  | .chars rest =>
    (word.isPrefixOf? rest).map fun rest => ⟨cursor.offset + word.byteSize, .chars rest⟩
  | _ => none

/-- Whether a given word comes next. -/
def startsWith (cursor : Cursor) (word : Text) : Bool := (cursor.skip? word).isSome

@[simp] theorem ofOffset_zero (text : Text) : ofOffset text 0 = ofText text := by
  simp [ofOffset, ofText]

@[simp] theorem offset_ofOffset (text : Text) (offset : Nat) :
    (ofOffset text offset).offset = offset := rfl

/-- The cursor after `front` has `back` ahead of it. -/
theorem ofOffset_append (front back : Text) :
    ofOffset (front ++ back) front.byteSize = ⟨front.byteSize, .chars back⟩ := by
  simp [ofOffset]

end Cursor

end ViewScript
