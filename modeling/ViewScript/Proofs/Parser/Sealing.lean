/-
  ViewScript/Proofs/Parser/Sealing.lean
  =====================================
  **Parsers that end with a mark of their own.**

  A stable parser that reads up to the end of a text can read on when there is more behind.
  A *sealed* parser cannot: it ends with a mark, and if the mark stands in the text, the
  parser stops there whatever follows.  Such a parser can be attempted, provided it never
  finds its mark in what was put behind.

  A parser is *kept* when it stops at the end of a text for any reason, be it a mark or the
  first character behind.
-/
import ViewScript.Proofs.Parser.Extension

namespace ViewScript.Parser

variable {α β : Type} {more : Text} {parser second : Parser α} {cursor next : Cursor}

/-! ### Sealed parsers -/

/-- A stable parser that reads something, and that succeeds on a text just when it succeeds
    within the text with more behind. -/
structure Sealed (more : Text) (parser : Parser α) : Prop extends Stable more parser where
  advances : parser.Meets fun _ read _ _ => read ≠ []
  exact : ∀ {offset place : Nat} {text back : Text} {value : α},
    parser ⟨offset, .chars text⟩ = .ok value ⟨place, .chars back⟩ ↔
      parser ⟨offset, .chars (text ++ more)⟩ = .ok value ⟨place, .chars (back ++ more)⟩

theorem sealed_of_yields {parser : Parser Span} {text : Text} (stable : Stable more parser)
    (filled : text ≠ []) (meets : parser.Meets fun _ read _ _ => read = text)
    (yields : ∀ offset back, parser.Yields offset text back (.ofText offset text)) :
    Sealed more parser where
  toStable := stable
  advances := meets.weaken fun isText => isText ▸ filled
  exact := by
    intro offset place rest back value
    constructor
    · intro done
      obtain ⟨_, reads, rfl⟩ := meets.ok done
      obtain ⟨_, rfl, ⟨⟩⟩ := reads.exists_chars
      have here := yields offset back
      rw [Yields, done] at here
      cases here
      have longer := yields offset (back ++ more)
      rwa [Yields, ← List.append_assoc] at longer
    · intro done
      obtain ⟨_, reads, rfl⟩ := meets.ok done
      obtain ⟨_, split, ⟨⟩⟩ := reads.exists_chars
      have longer := yields offset (back ++ more)
      rw [Yields, ← split, done] at longer
      cases longer
      rw [← List.append_assoc] at split
      rw [List.append_cancel_right split]
      exact yields offset back

theorem sealed_char (c : Char) : Sealed more (char c) :=
  sealed_of_yields (stable_char c) (List.cons_ne_nil c []) (meets_char c) fun _ _ => yields_char c

theorem sealed_word {first c : Char} {others text : Text} (free : first ∉ text) :
    Sealed (first :: others) (word (c :: text)) :=
  sealed_of_yields (stable_word free) (List.cons_ne_nil c text) (meets_word _)
    fun _ _ => yields_word (c :: text)

/-- What follows a stable parser seals it. -/
theorem Stable.sealed_bind {following : α → Parser β} (first : Stable more parser)
    (rest : ∀ value, Sealed more (following value)) : Sealed more (parser >>= following) where
  toStable := first.bind fun value => (rest value).toStable
  advances := first.reads.bind fun _ _ value => (rest value).advances.weaken fun filled _ _ => by
    simp [filled]
  exact := by
    intro offset place text back result
    constructor
    · intro done
      obtain ⟨value, middle, begun, final⟩ := bind_eq_ok_iff.mp done
      obtain ⟨read, reads, -⟩ := first.reads.ok begun
      obtain ⟨between, rfl, rfl⟩ := reads.exists_chars
      obtain ⟨last, reads, filled⟩ := (rest value).advances.ok final
      obtain ⟨_, rfl, ⟨⟩⟩ := reads.exists_chars
      have left : last ++ back ≠ [] := by simp [filled]
      have begun' := (first.ok_iff left).mp begun
      exact bind_eq_ok_iff.mpr ⟨value, _, begun', (rest value).exact.mp final⟩
    · intro done
      obtain ⟨value, middle, begun, final⟩ := bind_eq_ok_iff.mp done
      obtain ⟨read, reads, -⟩ := first.reads.ok begun
      obtain ⟨between, split, rfl⟩ := reads.exists_chars
      obtain ⟨last, reads, filled⟩ := (rest value).advances.ok final
      obtain ⟨_, rfl, ⟨⟩⟩ := reads.exists_chars
      have left : last ++ back ≠ [] := by simp [filled]
      rw [← List.append_assoc] at begun final
      have begun' := (first.ok_iff left).mpr begun
      exact bind_eq_ok_iff.mpr ⟨value, _, begun', (rest value).exact.mpr final⟩

theorem Sealed.map {f : α → β} (sealed : Sealed more parser) : Sealed more (f <$> parser) where
  toStable := sealed.toStable.map
  advances := sealed.advances.map fun filled => filled
  exact := by
    intro offset place text back result
    constructor
    · intro done
      obtain ⟨value, _, begun, ⟨⟩⟩ := bind_eq_ok_iff.mp done
      exact bind_eq_ok_iff.mpr ⟨value, _, sealed.exact.mp begun, rfl⟩
    · intro done
      obtain ⟨value, _, begun, ⟨⟩⟩ := bind_eq_ok_iff.mp done
      exact bind_eq_ok_iff.mpr ⟨value, _, sealed.exact.mpr begun, rfl⟩

theorem spanned_eq_ok_iff {span : Span} : spanned parser cursor = .ok span next ↔
    span = ⟨cursor.offset, next.offset⟩ ∧ ∃ value, parser cursor = .ok value next := by
  unfold Parser.spanned
  cases parser cursor with
  | ok value last =>
    constructor
    · rintro ⟨⟩
      exact ⟨rfl, value, rfl⟩
    · rintro ⟨rfl, _, ⟨⟩⟩
      rfl
  | fail failure => simp

theorem Sealed.spanned (sealed : Sealed more parser) : Sealed more (spanned parser) where
  toStable := sealed.toStable.spanned
  advances := sealed.advances.spanned.weaken fun ⟨_, _, filled⟩ => filled
  exact := by
    intro offset place text back span
    rw [spanned_eq_ok_iff, spanned_eq_ok_iff]
    exact and_congr Iff.rfl (exists_congr fun _ => sealed.exact)

theorem attempt_eq_ok_iff {value : α} :
    attempt parser cursor = .ok value next ↔ parser cursor = .ok value next := by
  unfold Parser.attempt
  cases parser cursor with
  | ok value last => rfl
  | fail failure => simp

theorem Sealed.congr (sealed : Sealed more parser) (reads : second.Meets fun _ _ _ _ => True)
    (alike : ∀ cursor, Reply.Alike cursor.offset (parser cursor) (second cursor)) :
    Sealed more second where
  toStable := sealed.toStable.congr reads alike
  advances := by
    intro cursor
    cases reply : second cursor with
    | ok value next => exact sealed.advances.ok ((alike cursor).ok_iff.mpr reply)
    | fail failure => exact reads.fail reply
  exact := by
    intro offset place text back value
    rw [← (alike ⟨offset, .chars text⟩).ok_iff, ← (alike ⟨offset, .chars (text ++ more)⟩).ok_iff]
    exact sealed.exact

/-- What is read goes on into the text that was put behind. -/
def ReadsInto (more read : Text) : Prop :=
  ∃ front tail, read = front ++ tail ∧ tail ≠ [] ∧ tail <+: more

/-- A sealed parser can be attempted if it never reads into what was put behind. -/
theorem Sealed.attempt (sealed : Sealed more parser)
    (bounded : parser.Meets fun _ read _ _ => ¬ ReadsInto more read) :
    Sealed more (attempt parser) where
  advances := sealed.advances.attempt
  exact := by
    intro offset place text back value
    rw [attempt_eq_ok_iff, attempt_eq_ok_iff]
    exact sealed.exact
  reads := sealed.reads.attempt
  extend offset text filled := by
    cases sealed.extend offset text filled with
    | inside value place back left done done' =>
      exact .inside value place back left (attempt_eq_ok_iff.mpr done) (attempt_eq_ok_iff.mpr done')
    | declined expected expected' failed failed' =>
      exact .declined expected expected' (by rw [Parser.attempt, failed])
        (by rw [Parser.attempt, failed'])
    | across _ short =>
      cases reply : parser ⟨offset, .chars text⟩ with
      | ok value next =>
        obtain ⟨read, reads, -⟩ := sealed.reads.ok reply
        obtain ⟨back, rfl, rfl⟩ := reads.exists_chars
        exact .ok (attempt_eq_ok_iff.mpr reply) (attempt_eq_ok_iff.mpr (sealed.exact.mp reply))
      | fail failure =>
        cases longer : parser ⟨offset, .chars (text ++ more)⟩ with
        | fail failure' =>
          exact .declined failure.expected failure'.expected (by rw [Parser.attempt, reply])
            (by rw [Parser.attempt, longer])
        | ok value next =>
          -- The success ends just where the text ends, so it is there without more behind.
          rw [longer] at short
          obtain ⟨read, reads, outside⟩ := bounded.ok longer
          obtain ⟨back, split, rfl⟩ := reads.exists_chars
          have isMore : back = [] ++ more := by
            rcases List.append_eq_append_iff.mp split with ⟨tail, rfl, isMore⟩ | ⟨tail, -, rfl⟩
            · by_contra other
              refine outside ⟨text, tail, rfl, ?_, back, isMore.symm⟩
              rintro rfl
              exact other isMore.symm
            · have size : (tail ++ more).length ≤ more.length := short
              rw [List.length_append] at size
              rw [List.length_eq_zero_iff.mp (by omega : tail.length = 0)]
          rw [isMore] at longer
          have within := sealed.exact.mpr longer
          rw [reply] at within
          cases within

/-! ### Kept parsers -/

/-- A stable parser that reads all of a text stops there with more behind as well. -/
structure Kept (more : Text) (parser : Parser α) : Prop extends Stable more parser where
  kept : ∀ {offset : Nat} {text : Text} {value : α}, text ≠ [] →
    parser.Yields offset text [] value → parser.Yields offset text more value

theorem Sealed.kept (sealed : Sealed more parser) : Kept more parser where
  toStable := sealed.toStable
  kept _ done := by
    rw [Yields, List.append_nil] at done
    exact sealed.exact.mp done

theorem Kept.orElse (first : Kept more parser) (other : Kept more second) :
    Kept more (orElse parser second) where
  toStable := first.toStable.orElse other.toStable
  kept {offset text value} filled done := by
    by_cases declines : parser.Declines ⟨offset, .chars text⟩
    · have longer := (first.toStable.declines_iff filled).mp declines
      rw [Yields, List.append_nil, declines.orElse] at done
      have last : second.Yields offset text [] value := by rwa [Yields, List.append_nil]
      exact longer.orElse.trans (other.kept filled last)
    · have here : parser.Yields offset text [] value := by
        rw [Yields, List.append_nil] at done ⊢
        rwa [orElse_eq declines] at done
      exact (first.kept filled here).orElse

theorem kept_firstOf {parsers : List (Parser α)} (kept : ∀ parser ∈ parsers, Kept more parser) :
    Kept more (firstOf parsers) := by
  induction parsers with
  | nil => exact ⟨stable_failHere .alternatives, fun _ done => nomatch done⟩
  | cons parser parsers ih =>
    have others := ih fun parser member => kept parser (List.mem_cons_of_mem _ member)
    have choice := (kept parser List.mem_cons_self).orElse others
    have alike := alike_firstOf_cons parser parsers
    refine ⟨stable_firstOf fun parser member => (kept parser member).toStable, ?_⟩
    intro offset text value filled done
    exact (alike _).ok_iff.mp (choice.kept filled ((alike _).ok_iff.mpr done))

end ViewScript.Parser
