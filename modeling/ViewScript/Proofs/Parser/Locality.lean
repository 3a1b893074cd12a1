/-
  ViewScript/Proofs/Parser/Locality.lean
  ======================================
  **Where a parser looks, and how its loops end.**

  Two parsers *agree from* an offset when they give the same reply there and anywhere
  after it.  A combinator passes agreement on, since reading only goes forward.  After
  a character has been read, it is enough to agree from the next offset on: this is how
  one sees that a rule asks for what is nested in it further on only.

  A repetition is written with a bound on its runs.  For a parser that only goes forward
  the bound is of no account, and the repetition is the plain loop.
-/
import Mathlib.Data.List.Forall2
import ViewScript.Proofs.Parser.Execution

namespace ViewScript.Parser

variable {α β : Type} {parser other second second' : Parser α} {contract : Contract α}
  {start : Nat}

/-! ### Agreement -/

/-- The parsers give the same replies at the offset and after it. -/
def AgreeFrom (start : Nat) (parser other : Parser α) : Prop :=
  ∀ cursor, start ≤ cursor.offset → parser cursor = other cursor

theorem agreeFrom_refl (start : Nat) (parser : Parser α) : AgreeFrom start parser parser :=
  fun _ _ => rfl

section Sequence

variable {following following' : α → Parser β}

theorem AgreeFrom.bind (meets : parser.Meets contract) (first : AgreeFrom start parser other)
    (rest : ∀ value, AgreeFrom start (following value) (following' value)) :
    AgreeFrom start (parser >>= following) (other >>= following') := by
  intro cursor later
  show Parser.bind parser following cursor = Parser.bind other following' cursor
  unfold Parser.bind
  rw [← first cursor later]
  cases begun : parser cursor with
  | fail failure => rfl
  | ok value next =>
    obtain ⟨read, reads, -⟩ := meets.ok begun
    exact rest value next (Nat.le_trans later reads.offset_le)

/-- What comes after a character has to agree from the next offset on only. -/
theorem AgreeFrom.after (meets : parser.Meets contract)
    (filled : ∀ {offset read back value}, contract offset read back value → read ≠ [])
    (rest : ∀ value, AgreeFrom (start + 1) (following value) (following' value)) :
    AgreeFrom start (parser >>= following) (parser >>= following') := by
  intro cursor later
  show Parser.bind parser following cursor = Parser.bind parser following' cursor
  unfold Parser.bind
  cases begun : parser cursor with
  | fail failure => rfl
  | ok value next =>
    obtain ⟨read, reads, holds⟩ := meets.ok begun
    exact rest value next (Nat.lt_of_le_of_lt later (reads.offset_lt (filled holds)))

theorem agreeFrom_after_char (c : Char)
    {following following' : Span → Parser β}
    (rest : ∀ span, AgreeFrom (start + 1) (following span) (following' span)) :
    AgreeFrom start (char c >>= following) (char c >>= following') := by
  refine AgreeFrom.after (meets_char c) ?_ rest
  rintro _ _ _ _ rfl
  exact List.cons_ne_nil c []

theorem AgreeFrom.map {f : α → β} (meets : parser.Meets contract)
    (agree : AgreeFrom start parser other) : AgreeFrom start (f <$> parser) (f <$> other) :=
  agree.bind meets fun value => agreeFrom_refl start (pure (f value))

end Sequence

theorem AgreeFrom.orElse (first : AgreeFrom start parser other)
    (rest : AgreeFrom start second second') :
    AgreeFrom start (orElse parser second) (orElse other second') := by
  intro cursor later
  simp only [Parser.orElse, first cursor later, rest cursor later]

theorem AgreeFrom.attempt (agree : AgreeFrom start parser other) :
    AgreeFrom start (attempt parser) (attempt other) := by
  intro cursor later
  simp only [Parser.attempt, agree cursor later]

theorem AgreeFrom.optional (agree : AgreeFrom start parser other) :
    AgreeFrom start (optional parser) (optional other) := by
  intro cursor later
  simp only [Parser.optional, agree cursor later]

theorem agreeFrom_firstOf {parsers others : List (Parser α)}
    (agree : List.Forall₂ (AgreeFrom start) parsers others) :
    AgreeFrom start (firstOf parsers) (firstOf others) := by
  intro cursor later
  induction agree with
  | nil => rfl
  | cons first _ ih => simp only [firstOf, first cursor later, ih]

theorem AgreeFrom.manyWithin (meets : parser.Meets contract)
    (agree : AgreeFrom start parser other) (bound : Text) :
    AgreeFrom start (manyWithin parser bound) (manyWithin other bound) := by
  intro cursor later
  unfold Parser.manyWithin
  rw [← agree cursor later]
  cases begun : parser cursor with
  | fail failure => rfl
  | ok value next =>
    cases bound with
    | nil => rfl
    | cons _ bound =>
      obtain ⟨read, reads, -⟩ := meets.ok begun
      simp only [agree.manyWithin meets bound next (Nat.le_trans later reads.offset_le)]

theorem AgreeFrom.many (meets : parser.Meets contract) (agree : AgreeFrom start parser other) :
    AgreeFrom start (many parser) (many other) :=
  fun cursor => agree.manyWithin meets cursor.rest cursor

/-! ### Loops -/

/-- Running the parser again and again is a loop that ends.  A run that does not end it
    goes forward, the loop is what it says without any bound, and every bound that covers
    the characters ahead gives the same. -/
structure Loops (parser : Parser α) : Prop where
  advances : ∀ {cursor next : Cursor} {value : α}, parser cursor = .ok value next →
    next.offset ≠ cursor.offset →
      cursor.offset < next.offset ∧ next.rest.length < cursor.rest.length
  many_eq : ∀ cursor : Cursor, many parser cursor =
    match parser cursor with
    | .ok value next =>
      if next.offset = cursor.offset then .ok [value] cursor
      else match many parser next with
        | .ok values last => .ok (value :: values) last
        | .fail failure => .fail failure
    | .fail failure => if failure.position = cursor.offset then .ok [] cursor else .fail failure
  manyWithin_eq : ∀ (bound : Text) (cursor : Cursor), cursor.rest.length ≤ bound.length →
    manyWithin parser bound cursor = many parser cursor

theorem Meets.loops (meets : parser.Meets contract) : parser.Loops where
  advances := by
    intro cursor next value begun moved
    obtain ⟨read, reads, -⟩ := meets.ok begun
    have after : cursor.offset < next.offset := Nat.lt_of_le_of_ne reads.offset_le (Ne.symm moved)
    exact ⟨after, length_lt_of_moved meets begun moved⟩
  many_eq := by
    intro cursor
    cases begun : parser cursor with
    | fail failure =>
      rw [Parser.many, Parser.manyWithin, begun]
    | ok value next =>
      by_cases still : next.offset = cursor.offset
      · rw [Parser.many, Parser.manyWithin, begun]
        simp only [still, if_true]
      · rw [many_eq_of_ok meets begun still]
        refine Eq.trans ?_ (if_neg still).symm
        cases Parser.many parser next with
        | ok values last => rfl
        | fail failure => rfl
  manyWithin_eq bound cursor covers :=
    Parser.manyWithin_eq meets bound cursor.rest cursor covers (Nat.le_refl _)

end ViewScript.Parser
