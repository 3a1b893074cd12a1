/-
  ViewScript/Proofs/Parser/Choice.lean
  ====================================
  **When the order of a choice does not matter.**

  Two parsers are *alike* when they give the same reply wherever one of them gets further
  than its start.  Where both fail at the start they may expect different things.  A choice
  cannot tell alike alternatives apart except by what it expects, and a repetition cannot
  tell them apart at all, because a failure at the start ends it.

  The alternatives of a choice may be permuted if their failures never commit and no two of
  them succeed at the same place.
-/
import Mathlib.Data.List.Perm.Basic
import ViewScript.Proofs.Parser.Execution

namespace ViewScript.Parser

variable {α : Type} {parser other third : Parser α} {parsers others : List (Parser α)}
  {cursor : Cursor}

/-! ### Parsers that are alike -/

/-- From every cursor the two parsers give the same reply or both fail at the start. -/
def Alike (parser other : Parser α) : Prop :=
  ∀ cursor, parser cursor = other cursor ∨ (parser.Declines cursor ∧ other.Declines cursor)

theorem Alike.refl (parser : Parser α) : Alike parser parser := fun _ => .inl rfl

theorem Alike.symm (alike : Alike parser other) : Alike other parser := by
  intro cursor
  rcases alike cursor with same | ⟨declines, declines'⟩
  · exact .inl same.symm
  · exact .inr ⟨declines', declines⟩

theorem Alike.declines (alike : Alike parser other) (declines : parser.Declines cursor) :
    other.Declines cursor := by
  rcases alike cursor with same | ⟨-, declines'⟩
  · rwa [Declines, ← same]
  · exact declines'

theorem Alike.not_declines (alike : Alike parser other) (committed : ¬ parser.Declines cursor) :
    ¬ other.Declines cursor := fun declines => committed (alike.symm.declines declines)

theorem Alike.eq_of_not_declines (alike : Alike parser other)
    (committed : ¬ parser.Declines cursor) : parser cursor = other cursor := by
  rcases alike cursor with same | ⟨declines, -⟩
  · exact same
  · exact absurd declines committed

theorem Alike.trans (first : Alike parser other) (second : Alike other third) :
    Alike parser third := by
  intro cursor
  by_cases declines : parser.Declines cursor
  · exact .inr ⟨declines, second.declines (first.declines declines)⟩
  · exact .inl ((first.eq_of_not_declines declines).trans
      (second.eq_of_not_declines (first.not_declines declines)))

/-- Attempts that succeed in the same way are alike. -/
theorem alike_attempt
    (same : ∀ cursor value next, parser cursor = .ok value next ↔ other cursor = .ok value next) :
    Alike (attempt parser) (attempt other) := by
  intro cursor
  cases reply : parser cursor with
  | ok value next =>
    have reply' := (same cursor value next).mp reply
    exact .inl (by rw [attempt, attempt, reply, reply'])
  | fail failure =>
    cases reply' : other cursor with
    | ok value next =>
      rw [(same cursor value next).mpr reply'] at reply
      cases reply
    | fail failure' =>
      exact .inr ⟨Fails.attempt ⟨failure, reply⟩, Fails.attempt ⟨failure', reply'⟩⟩

/-! ### Alternatives that are alike -/

theorem firstOf_append_of_declines (declines : (firstOf parsers).Declines cursor)
    (committed : ¬ (firstOf others).Declines cursor) :
    firstOf (parsers ++ others) cursor = firstOf others cursor :=
  firstOf_append_eq (declines_of_firstOf declines) committed

theorem declines_firstOf_append_iff :
    (firstOf (parsers ++ others)).Declines cursor ↔
      (firstOf parsers).Declines cursor ∧ (firstOf others).Declines cursor := by
  constructor
  · intro declines
    have each := List.forall_mem_append.mp (declines_of_firstOf declines)
    exact ⟨declines_firstOf each.1, declines_firstOf each.2⟩
  · rintro ⟨first, second⟩
    exact declines_firstOf (List.forall_mem_append.mpr
      ⟨declines_of_firstOf first, declines_of_firstOf second⟩)

theorem Alike.firstOf_append {parsers' others' : List (Parser α)}
    (first : Alike (firstOf parsers) (firstOf parsers'))
    (second : Alike (firstOf others) (firstOf others')) :
    Alike (firstOf (parsers ++ others)) (firstOf (parsers' ++ others')) := by
  intro cursor
  by_cases early : (firstOf parsers).Declines cursor
  · have early' := first.declines early
    by_cases late : (firstOf others).Declines cursor
    · exact .inr ⟨declines_firstOf_append_iff.mpr ⟨early, late⟩,
        declines_firstOf_append_iff.mpr ⟨early', second.declines late⟩⟩
    · rw [firstOf_append_of_declines early late,
        firstOf_append_of_declines early' (second.not_declines late)]
      exact .inl (second.eq_of_not_declines late)
  · rw [firstOf_append_left early, firstOf_append_left (first.not_declines early)]
    exact .inl (first.eq_of_not_declines early)

/-- A choice with a single alternative. -/
theorem alike_firstOf_singleton (parser : Parser α) : Alike (firstOf [parser]) parser := by
  intro cursor
  by_cases declines : parser.Declines cursor
  · exact .inr ⟨declines_firstOf (List.forall_mem_singleton.mpr declines), declines⟩
  · exact .inl (firstOf_cons_eq declines)

theorem Alike.firstOf_cons (first : Alike parser other)
    (rest : Alike (firstOf parsers) (firstOf others)) :
    Alike (firstOf (parser :: parsers)) (firstOf (other :: others)) := by
  have single : Alike (firstOf [parser]) (firstOf [other]) :=
    (alike_firstOf_singleton parser).trans (first.trans (alike_firstOf_singleton other).symm)
  exact single.firstOf_append rest

/-! ### Alternatives in another order -/

/-- From the cursor the parser succeeds. -/
def Succeeds (parser : Parser α) (cursor : Cursor) : Prop :=
  ∃ value next, parser cursor = .ok value next

/-- Every failure of the parser is at its start. -/
def Tentative (parser : Parser α) : Prop :=
  ∀ cursor, ¬ parser.Declines cursor → parser.Succeeds cursor

theorem tentative_attempt (parser : Parser α) : (attempt parser).Tentative := by
  intro cursor committed
  cases reply : parser cursor with
  | ok value next => exact ⟨value, next, by rw [attempt, reply]⟩
  | fail failure => exact absurd (Fails.attempt ⟨failure, reply⟩) committed

theorem Succeeds.of_attempt (succeeds : (attempt parser).Succeeds cursor) :
    parser.Succeeds cursor := by
  obtain ⟨value, next, done⟩ := succeeds
  cases reply : parser cursor with
  | ok value next => exact ⟨value, next, reply⟩
  | fail failure =>
    rw [attempt, reply] at done
    cases done

/-- The two parsers never succeed at the same place. -/
def Excludes (parser other : Parser α) : Prop :=
  ∀ cursor, parser.Succeeds cursor → ¬ other.Succeeds cursor

theorem Excludes.symm (excludes : Excludes parser other) : Excludes other parser :=
  fun cursor succeeds' succeeds => excludes cursor succeeds succeeds'

/-- Two neighbours that exclude each other change places. -/
theorem alike_firstOf_swap (tentative : parser.Tentative) (tentative' : other.Tentative)
    (excludes : Excludes parser other) :
    Alike (firstOf [parser, other]) (firstOf [other, parser]) := by
  intro cursor
  by_cases declines : parser.Declines cursor
  · by_cases declines' : other.Declines cursor
    · exact .inr ⟨declines_firstOf (by simp [declines, declines']),
        declines_firstOf (by simp [declines, declines'])⟩
    · have front : ∀ early ∈ [parser], early.Declines cursor := by simpa using declines
      left
      calc firstOf ([parser] ++ [other]) cursor = other cursor :=
            firstOf_append_cons_eq front declines'
        _ = firstOf [other, parser] cursor := (firstOf_cons_eq declines').symm
  · have declines' : other.Declines cursor := by
      by_contra committed
      exact excludes cursor (tentative cursor declines) (tentative' cursor committed)
    have front : ∀ early ∈ [other], early.Declines cursor := by simpa using declines'
    left
    calc firstOf [parser, other] cursor = parser cursor := firstOf_cons_eq declines
      _ = firstOf ([other] ++ [parser]) cursor := (firstOf_append_cons_eq front declines).symm

/-- Alternatives of which no two succeed at the same place may be tried in any order. -/
theorem alike_firstOf_of_perm (perm : parsers.Perm others)
    (tentative : ∀ parser ∈ parsers, parser.Tentative) (excludes : parsers.Pairwise Excludes) :
    Alike (firstOf parsers) (firstOf others) := by
  induction perm with
  | nil => exact .refl _
  | cons parser _ ih =>
    obtain ⟨-, tentative⟩ := List.forall_mem_cons.mp tentative
    exact (Alike.refl parser).firstOf_cons (ih tentative (List.pairwise_cons.mp excludes).2)
  | swap parser other parsers =>
    obtain ⟨first, tentative⟩ := List.forall_mem_cons.mp tentative
    obtain ⟨second, -⟩ := List.forall_mem_cons.mp tentative
    have apart : Excludes other parser := (List.pairwise_cons.mp excludes).1 parser (by simp)
    exact (alike_firstOf_swap first second apart).firstOf_append (.refl (firstOf parsers))
  | trans perm _ ih ih' =>
    have between := fun parser member => tentative parser (perm.mem_iff.mpr member)
    exact (ih tentative excludes).trans (ih' between (perm.pairwise excludes Excludes.symm))

/-! ### Repetition -/

theorem Declines.optional_eq (declines : parser.Declines cursor) :
    Parser.optional parser cursor = .ok none cursor := by
  obtain ⟨expected, failed⟩ := declines
  rw [Parser.optional, failed]
  exact if_pos rfl

theorem Declines.manyWithin_eq (declines : parser.Declines cursor) (bound : Text) :
    Parser.manyWithin parser bound cursor = .ok [] cursor := by
  obtain ⟨expected, failed⟩ := declines
  rw [manyWithin, failed]
  exact if_pos rfl

theorem Declines.many_eq (declines : parser.Declines cursor) :
    Parser.many parser cursor = .ok [] cursor := declines.manyWithin_eq cursor.rest

/-- A repetition of which the second run declines. -/
theorem exists_many_singleton {value : α} {next : Cursor} (done : parser cursor = .ok value next)
    (declines : parser.Declines next) : ∃ last, many parser cursor = .ok [value] last := by
  rw [many, manyWithin, done]
  by_cases still : next.offset = cursor.offset
  · exact ⟨cursor, by simp only [still, if_true]⟩
  · cases cursor.rest with
    | nil => exact ⟨next, by simp only [still, if_false]⟩
    | cons c bound => exact ⟨next, by simp only [still, if_false, declines.manyWithin_eq bound]⟩

theorem Alike.manyWithin_eq (alike : Alike parser other) (bound : Text) (cursor : Cursor) :
    manyWithin parser bound cursor = manyWithin other bound cursor := by
  induction bound generalizing cursor with
  | nil =>
    by_cases declines : parser.Declines cursor
    · rw [declines.manyWithin_eq, (alike.declines declines).manyWithin_eq]
    · rw [manyWithin, manyWithin, alike.eq_of_not_declines declines]
  | cons c bound ih =>
    by_cases declines : parser.Declines cursor
    · rw [declines.manyWithin_eq, (alike.declines declines).manyWithin_eq]
    · rw [manyWithin, manyWithin, alike.eq_of_not_declines declines]
      simp only [ih]

/-- Repetitions of alike parsers are the same. -/
theorem Alike.many_eq (alike : Alike parser other) : many parser = many other := by
  funext cursor
  exact alike.manyWithin_eq cursor.rest cursor

end ViewScript.Parser
