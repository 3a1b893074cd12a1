/-
  ViewScript/Proofs/Scanner/Basic.lean
  ====================================
  **A scanner for host code.**

  The scanner goes over a text once, from left to right, and keeps a stack of the
  brackets that are open.  Comments, regular expressions and strings are skipped as a
  whole, and so is a view, if the scanner is told how long it is.  Any other character
  is skipped by itself.

  The verdict is a failure unless the end of the text is reached with an empty stack.
-/
import Mathlib.Data.List.Infix
import ViewScript.Grammar.Basic

namespace ViewScript.Scanner

/-! ### Lexemes -/

/-- How far something goes on behind its first character. -/
inductive Extent where
  /-- As many characters more belong to it. -/
  | skipped (more : Nat)
  /-- It does not end; this would have ended it. -/
  | endless (missing : Expected)
deriving DecidableEq, Repr

/-- What stands at the front of a text, judged by its first character. -/
inductive Lexeme where
  | opened (delimiter : Delimiter)
  | closed (delimiter : Delimiter)
  /-- Anything but a bracket. -/
  | whole (extent : Extent)
deriving DecidableEq, Repr

/-- The number of characters before the first of the given ends.  A backslash takes the
    next character with it; there is no number if there is none to take. -/
def runLength? (ends : List Char) : Text → Option Nat
  | [] => some 0
  | ['\\'] => none
  | '\\' :: _ :: rest => (runLength? ends rest).map (· + 2)
  | c :: rest => if c ∈ ends then some 0 else (runLength? ends rest).map (· + 1)

/-- A string or a template comment, behind its first mark. -/
def marked (mark : Char) (rest : Text) : Extent :=
  match runLength? [mark] rest with
  | none => .endless .anyChar
  | some length => if length < rest.length then .skipped (length + 1) else .endless (.word [mark])

/-- The number of characters up to the end of a block comment, the end included. -/
def blockLength? : Text → Option Nat
  | [] => none
  | '*' :: '/' :: _ => some 2
  | _ :: rest => (blockLength? rest).map (· + 1)

/-- A block comment, behind its first mark. -/
def block (rest : Text) : Extent :=
  match blockLength? rest with
  | some length => .skipped (length + 1)
  | none => .endless (.word ['*', '/'])

/-- The number of characters of a regular expression behind its first slash.  Its items
    are characters other than slashes, line breaks and backslashes, and backslashes with
    a character after them that is no line break. -/
def regexLength? : Text → Option Nat
  | [] => none
  | '/' :: _ => some 1
  | '\\' :: c :: rest => if c = '\n' then none else (regexLength? rest).map (· + 2)
  | c :: rest => if c = '\n' ∨ c = '\\' then none else (regexLength? rest).map (· + 1)

/-- What a slash begins: a line comment, a block comment, a regular expression or
    nothing.  A regular expression has an item, since two slashes begin a comment. -/
def slash : Text → Extent
  | '/' :: rest => .skipped ((rest.takeWhile (· ≠ '\n')).length + 1)
  | '*' :: rest => block rest
  | rest => .skipped ((regexLength? rest).getD 0)

/-- The lexeme of a character and what follows it; `view?` tells how much of that
    belongs to a view. -/
def lexeme (view? : Text → Option Nat) (c : Char) (rest : Text) : Lexeme :=
  match c with
  | '/' => .whole (slash rest)
  | '#' => .whole (marked '#' rest)
  | '"' => .whole (marked '"' rest)
  | '\'' => .whole (marked '\'' rest)
  | '\x60' => .whole (marked '\x60' rest)
  | '(' => .opened .paren
  | '[' => .opened .bracket
  | '\x7b' => .opened .brace
  | ')' => .closed .paren
  | ']' => .closed .bracket
  | '\x7d' => .closed .brace
  | '<' => .whole (.skipped ((view? rest).getD 0))
  | _ => .whole (.skipped 0)

/-! ### Scanning -/

/-- Scan a text that stands at the offset, with the given brackets open, the innermost
    one first. -/
def scan (viewAt : Nat → Text → Option Nat) (stack : List Delimiter) (offset : Nat)
    (text : Text) : Except Failure Unit :=
  match text with
  | [] =>
    match stack with
    | [] => .ok ()
    | due :: _ => .error ⟨.word [due.closing], offset⟩
  | c :: rest =>
    match lexeme (viewAt offset) c rest with
    | .whole (.skipped more) =>
      scan viewAt stack (offset + Text.byteSize (c :: rest.take more)) (rest.drop more)
    | .opened delimiter => scan viewAt (delimiter :: stack) (offset + c.utf8Size) rest
    | .closed delimiter =>
      match stack with
      | [] => .error ⟨.endOfInput, offset⟩
      | due :: stack =>
        if delimiter = due then scan viewAt stack (offset + c.utf8Size) rest
        else .error ⟨.word [due.closing], offset⟩
    | .whole (.endless missing) => .error ⟨missing, offset + Text.byteSize (c :: rest)⟩
termination_by text.length
decreasing_by all_goals simp only [List.length_cons, List.length_drop]; omega

section Step

variable {viewAt : Nat → Text → Option Nat} {offset : Nat} {rest : Text} (stack : List Delimiter)

theorem scan_skipped {c : Char} {more : Nat}
    (skipped : lexeme (viewAt offset) c rest = .whole (.skipped more)) :
    scan viewAt stack offset (c :: rest) =
      scan viewAt stack (offset + Text.byteSize (c :: rest.take more)) (rest.drop more) := by
  rw [scan, skipped]

theorem scan_endless {c : Char} {missing : Expected}
    (endless : lexeme (viewAt offset) c rest = .whole (.endless missing)) :
    scan viewAt stack offset (c :: rest) =
      .error ⟨missing, offset + Text.byteSize (c :: rest)⟩ := by
  rw [scan, endless]

theorem scan_opening (delimiter : Delimiter) :
    scan viewAt stack offset (delimiter.opening :: rest) =
      scan viewAt (delimiter :: stack) (offset + Text.byteSize [delimiter.opening]) rest := by
  have opened : lexeme (viewAt offset) delimiter.opening rest = .opened delimiter := by
    cases delimiter <;> rfl
  rw [scan, opened]
  rfl

theorem eq_opening {view? : Text → Option Nat} {c : Char} {delimiter : Delimiter}
    (opened : lexeme view? c rest = .opened delimiter) : c = delimiter.opening := by
  unfold lexeme at opened
  split at opened <;> cases opened <;> rfl

theorem eq_closing {view? : Text → Option Nat} {c : Char} {delimiter : Delimiter}
    (closed : lexeme view? c rest = .closed delimiter) : c = delimiter.closing := by
  unfold lexeme at closed
  split at closed <;> cases closed <;> rfl

theorem lexeme_closing (view? : Text → Option Nat) (delimiter : Delimiter) (rest : Text) :
    lexeme view? delimiter.closing rest = .closed delimiter := by
  cases delimiter <;> rfl

theorem scan_closing (delimiter : Delimiter) :
    scan viewAt (delimiter :: stack) offset (delimiter.closing :: rest) =
      scan viewAt stack (offset + Text.byteSize [delimiter.closing]) rest := by
  rw [scan, lexeme_closing]
  exact if_pos rfl

theorem scan_closing_of_ne {found due : Delimiter} (other : found ≠ due) :
    scan viewAt (due :: stack) offset (found.closing :: rest) =
      .error ⟨.word [due.closing], offset⟩ := by
  rw [scan, lexeme_closing]
  exact if_neg other

theorem scan_closing_nil (found : Delimiter) :
    scan viewAt [] offset (found.closing :: rest) = .error ⟨.endOfInput, offset⟩ := by
  rw [scan, lexeme_closing]

theorem scan_nil_cons (due : Delimiter) :
    scan viewAt (due :: stack) offset [] = .error ⟨.word [due.closing], offset⟩ := by
  rw [scan]

end Step

/-- Scan a text for which no view is known. -/
def scanHost (text : Text) : Except Failure Unit := scan (fun _ _ => none) [] 0 text

example : scanHost "f(/[)]/, 'it\\'s') // )\n]" = .error ⟨.endOfInput, 23⟩ := by decide +kernel

end ViewScript.Scanner
