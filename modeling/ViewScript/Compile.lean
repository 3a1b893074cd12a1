/-
  ViewScript/Compile.lean
  =======================
  **Compiling a source.**

  A source that is no program gives a syntax error, which carries the excerpts that
  show where.  If they cannot be drawn, there is no syntax error either, and all that
  is known is the failure.
-/
import ViewScript.Code.Basic
import ViewScript.Diagnostic.Excerpt
import ViewScript.Grammar.Basic

namespace ViewScript

/-- Where a source is no program, and what was expected there. -/
structure SyntaxError where
  failure : Failure
  detailed : Text
  context : Text
deriving DecidableEq, Repr

namespace SyntaxError

/-- The syntax error for a failure, if the place of the failure can be shown. -/
def ofFailure? (source : Text) (failure : Failure) : Option SyntaxError := do
  let detailed ← Excerpt.detailed? source failure.position failure.expected.describe
  let context ← Excerpt.context? source failure.position
  return ⟨failure, detailed, context⟩

/-- What was expected, in words. -/
def expected (error : SyntaxError) : Text := error.failure.expected.describe

/-- The offset of the error. -/
def position (error : SyntaxError) : Nat := error.failure.position

/-- The error with its excerpts. -/
def message (error : SyntaxError) : Text :=
  "Invalid Moon view syntax.\n" ++ error.detailed ++ "\n\nContext:\n" ++ error.context

end SyntaxError

/-- Why a source cannot be compiled. -/
inductive SourceError where
  /-- The source is no program. -/
  | invalid (error : SyntaxError)
  /-- The source is no program, but the place of the failure cannot be shown. -/
  | unshowable (failure : Failure)
deriving DecidableEq, Repr

/-- What a failure says about a source. -/
def SourceError.ofFailure (source : Text) (failure : Failure) : SourceError :=
  match SyntaxError.ofFailure? source failure with
  | some error => .invalid error
  | none => .unshowable failure

/-- Read a program, or say where it is wrong. -/
def check (source : Text) : Except SourceError (List Node) :=
  (parse source).mapError (SourceError.ofFailure source)

/-- Compile a program. -/
def compile (names : RuntimeNames) (source : Text) : Except SourceError Text :=
  (check source).map (renderAll names source)

end ViewScript
