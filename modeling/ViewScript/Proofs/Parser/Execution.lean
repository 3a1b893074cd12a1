/-
  ViewScript/Proofs/Parser/Execution.lean
  =======================================
  **Running a parser on a text that is known.**

  `Yields` says that a parser reads a given text, no more and no less, and what it
  yields.  `Declines` says that it fails at the start, so that a choice goes on and a
  repetition ends.  Every combinator is run by one lemma about each.

  Most parsers decline because of the next character alone.  `StartsIn` bounds the
  characters that a parser can start with.
-/
import ViewScript.Proofs.Parser.Contract

namespace ViewScript.Parser

variable {α β : Type} {parser second : Parser α} {contract : Contract α}
  {offset : Nat} {text more back : Text} {value : α} {cursor : Cursor}

/-- Standing before the text, the parser reads just the text and yields the value. -/
def Yields (parser : Parser α) (offset : Nat) (text back : Text) (value : α) : Prop :=
  parser ⟨offset, .chars (text ++ back)⟩ = .ok value ⟨offset + text.byteSize, .chars back⟩

theorem Yields.meets (yields : parser.Yields offset text back value)
    (meets : parser.Meets contract) : contract offset text back value := by
  obtain ⟨read, reads, holds⟩ := meets.ok yields
  have split : text ++ back = read ++ back := reads.rest_eq
  rwa [List.append_cancel_right split]

theorem Yields.runAt {source : Text} (yields : parser.Yields offset text back value)
    (ahead : source.dropBytes? offset = some (text ++ back)) :
    parser.runAt source offset = .ok value (.ofOffset source (offset + text.byteSize)) := by
  have place := Cursor.ofOffset_of_dropBytes? ahead
  have reads := Cursor.Reads.of_append offset text back
  rw [← place] at reads
  rw [Parser.runAt, place, yields]
  exact congrArg _ reads.place.1

def Fails (parser : Parser α) (cursor : Cursor) : Prop := ∃ failure, parser cursor = .fail failure

/-- The parser fails at the start. -/
def Declines (parser : Parser α) (cursor : Cursor) : Prop :=
  ∃ expected, parser cursor = .fail ⟨expected, cursor.offset⟩

theorem Declines.fails (declines : parser.Declines cursor) : parser.Fails cursor := by
  obtain ⟨expected, failed⟩ := declines
  exact ⟨_, failed⟩

/-! ### Sequencing -/

section Sequence

variable {following : α → Parser β} {result : β}

theorem Yields.bind (first : parser.Yields offset text (more ++ back) value)
    (rest : (following value).Yields (offset + text.byteSize) more back result) :
    (parser >>= following).Yields offset (text ++ more) back result := by
  have final : offset + (text ++ more).byteSize = offset + text.byteSize + more.byteSize := by
    rw [Text.byteSize_append, Nat.add_assoc]
  rw [Yields, List.append_assoc, final]
  exact bind_eq_ok_iff.mpr ⟨_, _, first, rest⟩

theorem Yields.nil_bind (first : parser.Yields offset [] (text ++ back) value)
    (rest : (following value).Yields offset text back result) :
    (parser >>= following).Yields offset text back result := Yields.bind first rest

theorem Yields.bind_pure (last : parser.Yields offset text back value)
    (returns : following value = pure result) :
    (parser >>= following).Yields offset text back result :=
  bind_eq_ok_iff.mpr ⟨_, _, last, by rw [returns]; rfl⟩

theorem Yields.map (f : α → β) (yields : parser.Yields offset text back value) :
    (f <$> parser).Yields offset text back (f value) :=
  bind_eq_ok_iff.mpr ⟨_, _, yields, rfl⟩

theorem Fails.bind (fails : parser.Fails cursor) : (parser >>= following).Fails cursor := by
  obtain ⟨failure, failed⟩ := fails
  exact ⟨failure, bind_eq_fail_iff.mpr (.inl failed)⟩

theorem Yields.fails_bind (first : parser.Yields offset text back value)
    (rest : (following value).Fails ⟨offset + text.byteSize, .chars back⟩) :
    (parser >>= following).Fails ⟨offset, .chars (text ++ back)⟩ := by
  obtain ⟨failure, failed⟩ := rest
  exact ⟨failure, bind_eq_fail_iff.mpr (.inr ⟨_, _, first, failed⟩)⟩

theorem bind_of_ok {next : Cursor} (done : parser cursor = .ok value next) :
    (parser >>= following) cursor = following value next := by
  show Parser.bind parser following cursor = _
  rw [Parser.bind, done]

theorem Yields.bind_eq_fail {failure : Failure} (first : parser.Yields offset text back value)
    (failed : following value ⟨offset + text.byteSize, .chars back⟩ = .fail failure) :
    (parser >>= following) ⟨offset, .chars (text ++ back)⟩ = .fail failure :=
  bind_eq_fail_iff.mpr (.inr ⟨_, _, first, failed⟩)

theorem Declines.bind (declines : parser.Declines cursor) :
    (parser >>= following).Declines cursor := by
  obtain ⟨expected, failed⟩ := declines
  exact ⟨expected, bind_eq_fail_iff.mpr (.inl failed)⟩

theorem Declines.map {f : α → β} (declines : parser.Declines cursor) :
    (f <$> parser).Declines cursor := declines.bind

end Sequence

theorem Yields.spanned (yields : parser.Yields offset text back value) :
    (spanned parser).Yields offset text back (.ofText offset text) := by
  unfold Yields Parser.spanned
  rw [yields]
  rfl

theorem spanned_eq_fail {failure : Failure} (failed : parser cursor = .fail failure) :
    spanned parser cursor = .fail failure := by
  rw [Parser.spanned, failed]

theorem map_spanned_eq_ok_iff {f : Span → β} {result : β} {next : Cursor} :
    (f <$> spanned parser) cursor = .ok result next ↔
      ∃ value, parser cursor = .ok value next ∧ result = f ⟨cursor.offset, next.offset⟩ := by
  show Parser.bind (spanned parser) _ cursor = _ ↔ _
  unfold Parser.bind Parser.spanned
  cases parser cursor with
  | fail failure => simp
  | ok value last =>
    constructor
    · rintro ⟨⟩
      exact ⟨value, rfl, rfl⟩
    · rintro ⟨_, ⟨⟩, rfl⟩
      rfl

theorem Declines.spanned (declines : parser.Declines cursor) :
    (spanned parser).Declines cursor := by
  obtain ⟨expected, failed⟩ := declines
  exact ⟨expected, by rw [Parser.spanned, failed]⟩

/-! ### Choice -/

theorem Yields.attempt (yields : parser.Yields offset text back value) :
    (attempt parser).Yields offset text back value := by
  unfold Yields Parser.attempt
  rw [yields]

theorem Fails.attempt (fails : parser.Fails cursor) : (attempt parser).Declines cursor := by
  obtain ⟨failure, failed⟩ := fails
  exact ⟨failure.expected, by rw [Parser.attempt, failed]⟩

theorem Yields.orElse (yields : parser.Yields offset text back value) :
    (orElse parser second).Yields offset text back value := by
  unfold Yields Parser.orElse
  rw [yields]

theorem Declines.orElse (declines : parser.Declines cursor) :
    orElse parser second cursor = second cursor := by
  obtain ⟨expected, failed⟩ := declines
  rw [Parser.orElse, failed]
  exact if_pos rfl

theorem orElse_eq_fail {failure : Failure} (failed : parser cursor = .fail failure)
    (later : failure.position ≠ cursor.offset) : orElse parser second cursor = .fail failure := by
  rw [Parser.orElse, failed]
  exact if_neg later

theorem Yields.firstOf {parsers : List (Parser α)} (yields : parser.Yields offset text back value) :
    (firstOf (parser :: parsers)).Yields offset text back value := by
  unfold Yields Parser.firstOf
  rw [yields]

theorem Declines.firstOf {parsers : List (Parser α)}
    (declines : parser.Declines ⟨offset, .chars (text ++ back)⟩)
    (others : (firstOf parsers).Yields offset text back value) :
    (Parser.firstOf (parser :: parsers)).Yields offset text back value := by
  obtain ⟨expected, failed⟩ := declines
  unfold Yields Parser.firstOf
  rw [failed, others]
  exact if_pos rfl

theorem yields_firstOf_append {front parsers : List (Parser α)}
    (declines : ∀ parser ∈ front, parser.Declines ⟨offset, .chars (text ++ back)⟩)
    (others : (firstOf parsers).Yields offset text back value) :
    (firstOf (front ++ parsers)).Yields offset text back value := by
  induction front with
  | nil => exact others
  | cons parser front ih =>
    have rest := ih fun parser member => declines parser (List.mem_cons_of_mem _ member)
    exact (declines parser List.mem_cons_self).firstOf rest

theorem declines_firstOf_cons {parsers : List (Parser α)} (declines : parser.Declines cursor)
    (others : (firstOf parsers).Declines cursor) :
    (firstOf (parser :: parsers)).Declines cursor := by
  obtain ⟨expected, failed⟩ := declines
  obtain ⟨_, others⟩ := others
  refine ⟨expected, ?_⟩
  unfold Parser.firstOf
  rw [failed, others]
  simp only [if_true]

theorem declines_firstOf {parsers : List (Parser α)}
    (declines : ∀ parser ∈ parsers, parser.Declines cursor) :
    (firstOf parsers).Declines cursor := by
  induction parsers with
  | nil => exact ⟨.alternatives, rfl⟩
  | cons parser parsers ih =>
    exact declines_firstOf_cons (declines parser List.mem_cons_self)
      (ih fun parser member => declines parser (List.mem_cons_of_mem _ member))

/-- A failure further on commits the choice. -/
theorem firstOf_eq_fail {parsers : List (Parser α)} {failure : Failure}
    (failed : parser cursor = .fail failure) (later : failure.position ≠ cursor.offset) :
    firstOf (parser :: parsers) cursor = .fail failure := by
  rw [Parser.firstOf, failed]
  exact if_neg later

theorem firstOf_append_eq_fail {front parsers : List (Parser α)} {failure : Failure}
    (declines : ∀ parser ∈ front, parser.Declines cursor)
    (failed : firstOf parsers cursor = .fail failure) (later : failure.position ≠ cursor.offset) :
    firstOf (front ++ parsers) cursor = .fail failure := by
  induction front with
  | nil => exact failed
  | cons parser front ih =>
    obtain ⟨expected, declined⟩ := declines parser List.mem_cons_self
    have rest := ih fun parser member => declines parser (List.mem_cons_of_mem _ member)
    rw [List.cons_append, firstOf, declined, rest]
    simp only [if_true, if_neg later]

theorem not_declines_of_fail {failure : Failure} (failed : parser cursor = .fail failure)
    (later : failure.position ≠ cursor.offset) : ¬ parser.Declines cursor := by
  rintro ⟨expected, declined⟩
  rw [failed] at declined
  cases declined
  exact later rfl

theorem not_declines_of_ok {next : Cursor} (done : parser cursor = .ok value next) :
    ¬ parser.Declines cursor := by
  rintro ⟨expected, declined⟩
  rw [done] at declined
  cases declined

/-- The first alternative that does not decline gives the reply. -/
theorem firstOf_cons_eq {parsers : List (Parser α)} (committed : ¬ parser.Declines cursor) :
    firstOf (parser :: parsers) cursor = parser cursor := by
  rw [Parser.firstOf]
  cases reply : parser cursor with
  | ok value next => rfl
  | fail failure =>
    refine if_neg fun here => committed ⟨failure.expected, ?_⟩
    rw [reply, ← here]

theorem firstOf_append_eq {front parsers : List (Parser α)}
    (declines : ∀ parser ∈ front, parser.Declines cursor)
    (committed : ¬ (firstOf parsers).Declines cursor) :
    firstOf (front ++ parsers) cursor = firstOf parsers cursor := by
  induction front with
  | nil => rfl
  | cons parser front ih =>
    obtain ⟨expected, declined⟩ := declines parser List.mem_cons_self
    have rest := ih fun parser member => declines parser (List.mem_cons_of_mem _ member)
    rw [List.cons_append, Parser.firstOf, declined, rest]
    simp only [if_true]
    cases reply : firstOf parsers cursor with
    | ok value next => rfl
    | fail later =>
      refine if_neg fun here => committed ⟨later.expected, ?_⟩
      rw [reply, ← here]

theorem firstOf_append_cons_eq {front parsers : List (Parser α)}
    (declines : ∀ other ∈ front, other.Declines cursor) (committed : ¬ parser.Declines cursor) :
    firstOf (front ++ parser :: parsers) cursor = parser cursor := by
  have first : firstOf (parser :: parsers) cursor = parser cursor := firstOf_cons_eq committed
  rw [firstOf_append_eq declines, first]
  rwa [Declines, first]

theorem firstOf_append_left {front parsers : List (Parser α)}
    (committed : ¬ (firstOf front).Declines cursor) :
    firstOf (front ++ parsers) cursor = firstOf front cursor := by
  induction front with
  | nil => exact absurd ⟨.alternatives, rfl⟩ committed
  | cons parser front ih =>
    by_cases declines : parser.Declines cursor
    · have later : ¬ (firstOf front).Declines cursor := by
        intro others
        exact committed (declines_firstOf_cons declines others)
      have single : ∀ other ∈ [parser], other.Declines cursor := by simpa using declines
      have whole : ¬ (firstOf (front ++ parsers)).Declines cursor := by
        rwa [Declines, ih later]
      exact (firstOf_append_eq single whole).trans
        ((ih later).trans (firstOf_append_eq single later).symm)
    · rw [List.cons_append, firstOf_cons_eq declines, firstOf_cons_eq declines]

theorem declines_of_firstOf {parsers : List (Parser α)}
    (declines : (firstOf parsers).Declines cursor) :
    ∀ parser ∈ parsers, parser.Declines cursor := by
  induction parsers with
  | nil => exact fun _ member => nomatch member
  | cons parser parsers ih =>
    have first : parser.Declines cursor := by
      by_contra committed
      rw [Declines, firstOf_cons_eq committed] at declines
      exact committed declines
    have others : (firstOf parsers).Declines cursor := by
      by_contra committed
      have single : ∀ other ∈ [parser], other.Declines cursor := by simpa using first
      have same : firstOf (parser :: parsers) cursor = firstOf parsers cursor :=
        firstOf_append_eq single committed
      rw [Declines, same] at declines
      exact committed declines
    exact List.forall_mem_cons.mpr ⟨first, ih others⟩

/-- Where a choice between attempts fails, all of them decline. -/
theorem declines_of_firstOf_attempts {parsers : List (Parser α)}
    (fails : (firstOf (parsers.map attempt)).Fails cursor) :
    ∀ parser ∈ parsers.map attempt, parser.Declines cursor := by
  induction parsers with
  | nil => exact fun _ member => nomatch member
  | cons parser parsers ih =>
    have attempted : (attempt parser).Declines cursor := by
      refine Fails.attempt ?_
      cases reply : parser cursor with
      | fail failure => exact ⟨failure, reply⟩
      | ok value next =>
        obtain ⟨failure, failed⟩ := fails
        rw [List.map_cons, Parser.firstOf, Parser.attempt, reply] at failed
        cases failed
    have others : (firstOf (parsers.map attempt)).Fails cursor := by
      cases reply : firstOf (parsers.map attempt) cursor with
      | fail failure => exact ⟨failure, reply⟩
      | ok value next =>
        obtain ⟨_, declined⟩ := attempted
        obtain ⟨failure, failed⟩ := fails
        rw [List.map_cons, Parser.firstOf, declined, reply] at failed
        simp at failed
    intro other member
    rcases List.mem_cons.mp member with rfl | member
    · exact attempted
    · exact ih others other member

theorem Yields.optional (yields : parser.Yields offset text back value) :
    (optional parser).Yields offset text back (some value) := by
  unfold Yields Parser.optional
  rw [yields]

theorem Declines.optional (declines : parser.Declines ⟨offset, .chars back⟩) :
    (optional parser).Yields offset [] back none := by
  obtain ⟨expected, failed⟩ := declines
  unfold Yields Parser.optional
  rw [List.nil_append, failed]
  exact if_pos rfl

/-! ### Repetition -/

theorem length_lt_of_moved (meets : parser.Meets contract) {next : Cursor}
    (begun : parser cursor = .ok value next) (moved : next.offset ≠ cursor.offset) :
    next.rest.length < cursor.rest.length := by
  obtain ⟨read, reads, -⟩ := meets.ok begun
  have some : read ≠ [] := by
    rintro rfl
    exact moved reads.offset_eq
  rw [reads.rest_eq, List.length_append]
  exact Nat.lt_add_of_pos_left (List.length_pos_iff.mpr some)

/-- A bound that covers the characters ahead does not matter. -/
theorem manyWithin_eq (meets : parser.Meets contract) (bound bound' : Text) (cursor : Cursor)
    (covers : cursor.rest.length ≤ bound.length) (covers' : cursor.rest.length ≤ bound'.length) :
    manyWithin parser bound cursor = manyWithin parser bound' cursor := by
  unfold manyWithin
  cases begun : parser cursor with
  | fail failure => rfl
  | ok value next =>
    by_cases still : next.offset = cursor.offset
    · simp only [still, if_true]
    · have shorter := length_lt_of_moved meets begun still
      simp only [if_neg still]
      have some : 0 < cursor.rest.length := Nat.zero_lt_of_lt shorter
      cases bound with
      | nil => exact absurd covers (Nat.not_le.mpr some)
      | cons _ bound =>
        cases bound' with
        | nil => exact absurd covers' (Nat.not_le.mpr some)
        | cons _ bound' =>
          rw [List.length_cons] at covers covers'
          have same := manyWithin_eq meets bound bound' next (by omega) (by omega)
          simp only [same]

theorem many_eq_of_ok (meets : parser.Meets contract) {next : Cursor}
    (begun : parser cursor = .ok value next) (moved : next.offset ≠ cursor.offset) :
    many parser cursor = match many parser next with
      | .ok values last => .ok (value :: values) last
      | .fail failure => .fail failure := by
  have shorter := length_lt_of_moved meets begun moved
  unfold many
  rw [manyWithin, begun]
  simp only [if_neg moved]
  cases ahead : cursor.rest with
  | nil => simp [ahead] at shorter
  | cons c rest =>
    rw [ahead, List.length_cons] at shorter
    have same := manyWithin_eq meets rest next.rest next (Nat.le_of_lt_succ shorter) (Nat.le_refl _)
    show (match manyWithin parser rest next with
      | .ok values last => Reply.ok (value :: values) last
      | .fail failure => .fail failure) = _
    rw [same]

theorem Declines.many (declines : parser.Declines ⟨offset, .chars back⟩) :
    (many parser).Yields offset [] back [] := by
  obtain ⟨expected, failed⟩ := declines
  unfold Yields Parser.many Parser.manyWithin
  rw [List.nil_append, failed]
  exact if_pos rfl

theorem many_eq_fail {failure : Failure} (failed : parser cursor = .fail failure)
    (later : failure.position ≠ cursor.offset) : many parser cursor = .fail failure := by
  rw [Parser.many, Parser.manyWithin, failed]
  exact if_neg later

theorem Yields.offset_ne (filled : text ≠ []) :
    (⟨offset + text.byteSize, .chars back⟩ : Cursor).offset ≠
      (⟨offset, .chars (text ++ back)⟩ : Cursor).offset := by
  have size : text.byteSize ≠ 0 := fun zero => filled (Text.eq_nil_of_byteSize_eq_zero zero)
  simpa using size

theorem Yields.many {values : List α} (meets : parser.Meets contract) (filled : text ≠ [])
    (first : parser.Yields offset text (more ++ back) value)
    (others : (many parser).Yields (offset + text.byteSize) more back values) :
    (Parser.many parser).Yields offset (text ++ more) back (value :: values) := by
  unfold Yields
  rw [List.append_assoc, many_eq_of_ok meets first (Yields.offset_ne filled), others,
    Text.byteSize_append, Nat.add_assoc]

theorem Yields.many_eq_fail {failure : Failure} (meets : parser.Meets contract)
    (filled : text ≠ []) (first : parser.Yields offset text back value)
    (others : Parser.many parser ⟨offset + text.byteSize, .chars back⟩ = .fail failure) :
    Parser.many parser ⟨offset, .chars (text ++ back)⟩ = .fail failure := by
  rw [many_eq_of_ok meets first (Yields.offset_ne filled), others]

theorem Yields.many1 {values : List α} (filled : text ≠ [])
    (first : parser.Yields offset text (more ++ back) value)
    (others : (Parser.many parser).Yields (offset + text.byteSize) more back values) :
    (Parser.many1 parser).Yields offset (text ++ more) back (value :: values) := by
  unfold Yields Parser.many1
  rw [List.append_assoc, first]
  simp only [if_neg (Yields.offset_ne filled)]
  rw [others, Text.byteSize_append, Nat.add_assoc]

theorem Declines.many1 (declines : parser.Declines cursor) : (many1 parser).Declines cursor := by
  obtain ⟨expected, failed⟩ := declines
  exact ⟨expected, by rw [Parser.many1, failed]⟩

/-! ### Repetition before something else -/

section Before

variable {following : Parser β} {next : Cursor}

theorem many_bind_of_ok (meets : parser.Meets contract) (begun : parser cursor = .ok value next)
    (moved : next.offset ≠ cursor.offset) :
    (do let _ ← many parser; following) cursor = (do let _ ← many parser; following) next := by
  show Parser.bind (many parser) _ cursor = Parser.bind (many parser) _ next
  unfold Parser.bind
  rw [many_eq_of_ok meets begun moved]
  cases many parser next with
  | ok values last => rfl
  | fail failure => rfl

theorem Yields.many_bind (meets : parser.Meets contract) (filled : text ≠ [])
    (first : parser.Yields offset text back value) :
    (do let _ ← Parser.many parser; following) ⟨offset, .chars (text ++ back)⟩ =
      (do let _ ← Parser.many parser; following) ⟨offset + text.byteSize, .chars back⟩ :=
  many_bind_of_ok meets first (Yields.offset_ne filled)

theorem Declines.many_bind (declines : parser.Declines cursor) :
    (do let _ ← Parser.many parser; following) cursor = following cursor := by
  obtain ⟨expected, failed⟩ := declines
  show Parser.bind (Parser.many parser) _ cursor = _
  unfold Parser.bind Parser.many Parser.manyWithin
  rw [failed]
  simp only [if_true]

/-- Once a run has been read, it does not matter that there had to be one. -/
theorem many1_eq_many (meets : parser.Meets contract) (begun : parser cursor = .ok value next)
    (moved : next.offset ≠ cursor.offset) : many1 parser cursor = many parser cursor := by
  rw [many_eq_of_ok meets begun moved, Parser.many1, begun]
  exact if_neg moved

/-- If every run reads something, there was one just when the repetition went forward. -/
theorem many1_eq_ok_iff (meets : parser.Meets contract)
    (filled : ∀ {offset read back value}, contract offset read back value → read ≠ [])
    {values : List α} :
    many1 parser cursor = .ok values next ↔
      many parser cursor = .ok values next ∧ cursor.offset < next.offset := by
  cases begun : parser cursor with
  | fail failure =>
    rw [Parser.many1, Parser.many, Parser.manyWithin, begun]
    constructor
    · rintro ⟨⟩
    · rintro ⟨done, moved⟩
      dsimp only at done
      split at done
      · cases done
        exact absurd moved (Nat.lt_irrefl _)
      · cases done
  | ok value middle =>
    obtain ⟨read, reads, holds⟩ := meets.ok begun
    have before := reads.offset_lt (filled holds)
    have runs : (many parser).Meets fun _ _ _ _ => True := Meets.many meets trivial fun _ _ => trivial
    rw [many1_eq_many meets begun (Nat.ne_of_gt before)]
    refine ⟨fun done => ⟨done, ?_⟩, And.left⟩
    rw [many_eq_of_ok meets begun (Nat.ne_of_gt before)] at done
    cases rest : many parser middle with
    | fail failure => simp [rest] at done
    | ok others last =>
      obtain ⟨more, readsMore, -⟩ := runs.ok rest
      rw [rest] at done
      cases done
      exact Nat.lt_of_lt_of_le before readsMore.offset_le

end Before

/-! ### Reading characters -/

theorem yields_satisfy {expected : Expected} {test : Char → Bool} {c : Char}
    (passes : test c = true) :
    (satisfy expected test).Yields offset [c] back (.ofText offset [c]) := by
  show satisfy expected test ⟨offset, .chars (c :: back)⟩ = _
  unfold satisfy
  exact if_pos passes

theorem yields_char (c : Char) : (char c).Yields offset [c] back (.ofText offset [c]) :=
  yields_satisfy (beq_self_eq_true c)

theorem char_eq_fail {c : Char} {rest : Text} (other : rest.head? ≠ some c) :
    char c ⟨offset, .chars rest⟩ = .fail ⟨.word [c], offset⟩ := by
  cases rest with
  | nil => rfl
  | cons d rest =>
    have differs : (d == c) = false := by simpa using other
    show satisfy _ _ ⟨offset, .chars (d :: rest)⟩ = _
    unfold satisfy
    exact if_neg (Bool.eq_false_iff.mp differs)

theorem yields_word (text : Text) : (word text).Yields offset text back (.ofText offset text) := by
  have found : Cursor.skip? text ⟨offset, .chars (text ++ back)⟩ =
      some ⟨offset + text.byteSize, .chars back⟩ := by
    simp [Cursor.skip?, List.isPrefixOf?_eq_some_iff_append_eq.mpr]
  unfold Yields word
  rw [found]
  rfl

theorem declines_word {rest : Text} (absent : ¬ text <+: rest) :
    (word text).Declines ⟨offset, .chars rest⟩ := by
  refine ⟨.word text, ?_⟩
  unfold word
  split
  next next found =>
    obtain ⟨back, split, -⟩ := (Cursor.Reads.of_skip? found).exists_chars
    exact absurd ⟨back, split.symm⟩ absent
  · rfl

theorem startsWith_iff {word rest : Text} :
    Cursor.startsWith ⟨offset, .chars rest⟩ word = true ↔ word <+: rest := by
  simp only [Cursor.startsWith, Cursor.skip?, Option.isSome_map, Option.isSome_iff_exists,
    List.isPrefixOf?_eq_some_iff_append_eq]
  rfl

theorem yields_exclude_of_forall {words : List Text} {c : Char}
    (free : ∀ word ∈ words, ¬ word <+: c :: back) :
    (exclude words).Yields offset [c] back (.ofText offset [c]) := by
  have unmatched : words.find? (Cursor.startsWith ⟨offset, .chars (c :: back)⟩) = none := by
    rw [List.find?_eq_none]
    intro word member starts
    exact free word member (startsWith_iff.mp starts)
  show exclude words ⟨offset, .chars (c :: back)⟩ = _
  unfold exclude
  rw [unmatched]
  rfl

theorem yields_exclude {ends : List Char} {c : Char} (free : c ∉ ends) :
    (exclude (ends.map ([·]))).Yields offset [c] back (.ofText offset [c]) := by
  refine yields_exclude_of_forall fun word member starts => ?_
  obtain ⟨d, isEnd, rfl⟩ := List.mem_map.mp member
  obtain ⟨same, -⟩ := List.cons_prefix_cons.mp starts
  exact free (same ▸ isEnd)

theorem declines_exclude {words : List Text} {word rest : Text} (member : word ∈ words)
    (starts : word <+: rest) : (exclude words).Declines ⟨offset, .chars rest⟩ := by
  cases rest with
  | nil => exact ⟨_, rfl⟩
  | cons c rest =>
    have matched : (words.find? (Cursor.startsWith ⟨offset, .chars (c :: rest)⟩)).isSome := by
      rw [List.find?_isSome]
      exact ⟨word, member, startsWith_iff.mpr starts⟩
    obtain ⟨found, isFound⟩ := Option.isSome_iff_exists.mp matched
    refine ⟨.noneOf [found], ?_⟩
    show exclude words ⟨offset, .chars (c :: rest)⟩ = _
    unfold exclude
    rw [isFound]
    rfl

/-! ### First characters -/

/-- No character that passes the test comes next. -/
def Stops (test : Char → Bool) : Text → Prop
  | [] => True
  | c :: _ => test c = false

/-- The parser declines unless a character that passes the test comes next. -/
def StartsIn (parser : Parser α) (test : Char → Bool) : Prop :=
  ∀ cursor, Stops test cursor.rest → parser.Declines cursor

variable {test wider : Char → Bool}

theorem Stops.mono (stops : Stops wider text) (implies : ∀ c, wider c = false → test c = false) :
    Stops test text := by
  cases text with
  | nil => exact stops
  | cons c rest => exact implies c stops

theorem stops_dropWhile (test : Char → Bool) (text : Text) : Stops test (text.dropWhile test) := by
  induction text with
  | nil => trivial
  | cons c rest ih =>
    by_cases passes : test c = true
    · rwa [List.dropWhile_cons_of_pos passes]
    · rw [List.dropWhile_cons_of_neg passes]
      exact Bool.eq_false_iff.mpr passes

theorem StartsIn.mono (starts : parser.StartsIn test)
    (implies : ∀ c, wider c = false → test c = false) : parser.StartsIn wider :=
  fun cursor stops => starts cursor (stops.mono implies)

theorem StartsIn.declines {offset : Nat} {c : Char} (starts : parser.StartsIn test)
    (fails : test c = false) : parser.Declines ⟨offset, .chars (c :: text)⟩ := starts _ fails

theorem StartsIn.of_char {d : Char} (starts : parser.StartsIn (· == d)) (passes : test d = true) :
    parser.StartsIn test := by
  refine starts.mono fun c other => ?_
  rw [beq_eq_false_iff_ne]
  rintro rfl
  rw [passes] at other
  cases other

theorem startsIn_satisfy (expected : Expected) (test : Char → Bool) :
    (satisfy expected test).StartsIn test := by
  intro cursor stops
  refine ⟨expected, ?_⟩
  unfold satisfy
  split
  next c next step =>
    rw [(Cursor.Reads.of_next? step).rest_eq] at stops
    have fails : test c = false := stops
    simp only [fails, Bool.false_eq_true, if_false]
    rfl
  · rfl

theorem startsIn_char (c : Char) : (char c).StartsIn (· == c) := startsIn_satisfy _ _

theorem startsIn_word (c : Char) (text : Text) : (word (c :: text)).StartsIn (· == c) := by
  intro cursor stops
  refine ⟨.word (c :: text), ?_⟩
  unfold word
  split
  next next found =>
    rw [(Cursor.Reads.of_skip? found).rest_eq] at stops
    have differs : (c == c) = false := stops
    simp at differs
  · rfl

theorem startsIn_exclude (words : List Text) :
    (exclude words).StartsIn fun c => !words.contains [c] := by
  intro cursor stops
  obtain ⟨offset, ahead⟩ := cursor
  match ahead with
  | .chars [] | .insideChar | .pastEnd => exact ⟨_, rfl⟩
  | .chars (c :: rest) =>
    have excluded : [c] ∈ words := by simpa [Stops, Cursor.rest] using stops
    exact declines_exclude excluded ⟨rest, rfl⟩

theorem StartsIn.bind {following : α → Parser β} (starts : parser.StartsIn test) :
    (parser >>= following).StartsIn test := fun cursor stops => (starts cursor stops).bind

theorem StartsIn.map {f : α → β} (starts : parser.StartsIn test) : (f <$> parser).StartsIn test :=
  fun cursor stops => (starts cursor stops).map

theorem StartsIn.spanned (starts : parser.StartsIn test) : (spanned parser).StartsIn test :=
  fun cursor stops => (starts cursor stops).spanned

theorem StartsIn.attempt (starts : parser.StartsIn test) : (attempt parser).StartsIn test :=
  fun cursor stops => (starts cursor stops).fails.attempt

theorem StartsIn.many1 (starts : parser.StartsIn test) : (many1 parser).StartsIn test :=
  fun cursor stops => (starts cursor stops).many1

theorem StartsIn.orElse (starts : parser.StartsIn test) (other : second.StartsIn test) :
    (orElse parser second).StartsIn test := by
  intro cursor stops
  rw [Declines, (starts cursor stops).orElse]
  exact other cursor stops

theorem startsIn_firstOf {parsers : List (Parser α)}
    (starts : ∀ parser ∈ parsers, parser.StartsIn test) : (firstOf parsers).StartsIn test :=
  fun cursor stops => declines_firstOf fun parser member => starts parser member cursor stops

/-! ### Runs -/

section Runs

variable {run : Text} (meets : parser.Meets contract) (starts : parser.StartsIn test)
  (each : ∀ c ∈ run, ∀ offset rest, ∃ value, parser.Yields offset [c] rest value)
  (stops : Stops test back) (offset : Nat)

include meets starts each stops

/-- A run of characters that are read one by one, up to a place where none is. -/
theorem exists_yields_many : ∃ values, (many parser).Yields offset run back values := by
  induction run generalizing offset with
  | nil => exact ⟨[], (starts ⟨offset, .chars back⟩ stops).many⟩
  | cons c run ih =>
    obtain ⟨value, first⟩ := each c List.mem_cons_self offset (run ++ back)
    obtain ⟨values, others⟩ :=
      ih (fun d member => each d (List.mem_cons_of_mem c member)) (offset + Text.byteSize [c])
    exact ⟨value :: values, first.many meets (List.cons_ne_nil c []) others⟩

theorem exists_yields_many1 (filled : run ≠ []) :
    ∃ values, (many1 parser).Yields offset run back values := by
  cases run with
  | nil => exact absurd rfl filled
  | cons c run =>
    obtain ⟨value, first⟩ := each c List.mem_cons_self offset (run ++ back)
    obtain ⟨values, others⟩ := exists_yields_many meets starts
      (fun d member => each d (List.mem_cons_of_mem c member)) stops (offset + Text.byteSize [c])
    exact ⟨value :: values, first.many1 (List.cons_ne_nil c []) others⟩

end Runs

end ViewScript.Parser
