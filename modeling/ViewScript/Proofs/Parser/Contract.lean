/-
  ViewScript/Proofs/Parser/Contract.lean
  ======================================
  **What a parser reads, and what it promises about it.**

  `Reads` says that one cursor is reached from another by reading a text.  A parser
  *meets* a contract when every success reads some text and the contract holds of
  it, and every failure is noticed at a place that reading can reach.  So a parser
  that meets any contract at all never leaves the characters of its text.

  There is one lemma for each combinator.  The contract of a sequence is threaded
  through its parts from the front: what the first part promises is at hand where
  the contract of the second part is proved.
-/
import Mathlib.Data.List.Basic
import ViewScript.Parser.Basic
import ViewScript.Proofs.Source.Span

namespace ViewScript

variable {α β : Type}

/-! ### Reading -/

/-- From the first cursor the text is read, and the second cursor is where that
    ends.  Where nothing can be read, only the empty text is. -/
inductive Cursor.Reads : Cursor → Text → Cursor → Prop
  | nothing (cursor : Cursor) : Reads cursor [] cursor
  | char {offset : Nat} {c : Char} {rest read : Text} {next : Cursor} :
    Reads ⟨offset + c.utf8Size, .chars rest⟩ read next →
      Reads ⟨offset, .chars (c :: rest)⟩ (c :: read) next

namespace Cursor.Reads

variable {cursor middle next : Cursor} {read more : Text}

theorem trans (first : cursor.Reads read middle) (second : middle.Reads more next) :
    cursor.Reads (read ++ more) next := by
  induction first with
  | nothing => exact second
  | char _ ih => exact .char (ih second)

theorem offset_eq (reads : cursor.Reads read next) :
    next.offset = cursor.offset + read.byteSize := by
  induction reads with
  | nothing => rfl
  | char _ ih => simp only [ih, Text.byteSize_cons, Nat.add_assoc]

theorem rest_eq (reads : cursor.Reads read next) : cursor.rest = read ++ next.rest := by
  induction reads with
  | nothing => rfl
  | char _ ih => simpa [Cursor.rest] using ih

theorem of_append (offset : Nat) (read back : Text) :
    Reads ⟨offset, .chars (read ++ back)⟩ read ⟨offset + read.byteSize, .chars back⟩ := by
  induction read generalizing offset with
  | nil => exact .nothing _
  | cons c read ih =>
    have reads := ih (offset + c.utf8Size)
    rw [Nat.add_assoc] at reads
    exact .char reads

theorem of_next? {c : Char} (read : cursor.next? = some (c, next)) : cursor.Reads [c] next := by
  obtain ⟨offset, ahead⟩ := cursor
  match ahead, read with
  | .chars (_ :: _), rfl => exact .char (.nothing _)

theorem of_skip? {word : Text} (found : cursor.skip? word = some next) :
    cursor.Reads word next := by
  obtain ⟨offset, ahead⟩ := cursor
  match ahead, found with
  | .chars rest, found =>
    obtain ⟨back, split, rfl⟩ := Option.map_eq_some_iff.mp found
    rw [List.isPrefixOf?_eq_some_iff_append_eq] at split
    subst split
    exact of_append offset word back

/-- Reading characters leads to characters. -/
theorem exists_chars {offset : Nat} {text : Text}
    (reads : Reads ⟨offset, .chars text⟩ read next) :
    ∃ back, text = read ++ back ∧ next = ⟨offset + read.byteSize, .chars back⟩ := by
  induction read generalizing offset text with
  | nil =>
    cases reads
    exact ⟨text, rfl, rfl⟩
  | cons c read ih =>
    cases reads with
    | char reads =>
      obtain ⟨back, rfl, rfl⟩ := ih reads
      exact ⟨back, rfl, by rw [Text.byteSize_cons, Nat.add_assoc]⟩

theorem eq_nil_of_offset (reads : cursor.Reads read next) (still : next.offset = cursor.offset) :
    read = [] := by
  cases reads with
  | nothing => rfl
  | @char offset c rest read _ reads =>
    have positive := c.utf8Size_pos
    have moved := reads.offset_eq
    simp only at moved still
    omega

theorem offset_le (reads : cursor.Reads read next) : cursor.offset ≤ next.offset := by
  rw [reads.offset_eq]
  exact Nat.le_add_right _ _

theorem offset_lt (reads : cursor.Reads read next) (filled : read ≠ []) :
    cursor.offset < next.offset := by
  refine Nat.lt_of_le_of_ne reads.offset_le fun still => filled ?_
  exact reads.eq_nil_of_offset still.symm

theorem eq_of_offset (reads : cursor.Reads read next) (still : next.offset = cursor.offset) :
    next = cursor := by
  have empty := reads.eq_nil_of_offset still
  subst empty
  cases reads
  rfl

end Cursor.Reads

/-! ### Places in a source -/

theorem Cursor.ofOffset_of_dropBytes? {source rest : Text} {start : Nat}
    (ahead : source.dropBytes? start = some rest) :
    ofOffset source start = ⟨start, .chars rest⟩ := by
  rw [ofOffset, ahead]

theorem Cursor.rest_ofOffset_eq_nil {source : Text} {start : Nat}
    (outside : ¬ source.IsBoundary start) : (ofOffset source start).rest = [] := by
  have cut : source.dropBytes? start = none := Option.not_isSome_iff_eq_none.mp outside
  by_cases past : source.byteSize ≤ start <;> simp [ofOffset, Cursor.rest, cut, past]

theorem Cursor.length_rest_ofOffset_le (source : Text) (start : Nat) :
    (ofOffset source start).rest.length ≤ source.byteSize - start := by
  by_cases boundary : source.IsBoundary start
  · obtain ⟨front, back, rfl, rfl⟩ := boundary.exists_append
    have short := Text.length_le_byteSize back
    rw [ofOffset_append, Text.byteSize_append]
    simp only [Cursor.rest]
    omega
  · rw [rest_ofOffset_eq_nil boundary]
    exact Nat.zero_le _

/-- Reading stays on the boundaries of a source, and where there is none it stays in place. -/
theorem Cursor.Reads.place {source read : Text} {start : Nat} {next : Cursor}
    (reads : (ofOffset source start).Reads read next) :
    next = ofOffset source next.offset ∧
      (source.IsBoundary start → source.IsBoundary next.offset) ∧
      (¬ source.IsBoundary start → next.offset = start) := by
  by_cases boundary : source.IsBoundary start
  · obtain ⟨front, rest, rfl, rfl⟩ := boundary.exists_append
    rw [ofOffset_append] at reads
    obtain ⟨back, rfl, rfl⟩ := reads.exists_chars
    have after := ofOffset_append (front ++ read) back
    have inside := Text.isBoundary_append (front ++ read) back
    rw [Text.byteSize_append, List.append_assoc] at after inside
    exact ⟨after.symm, fun _ => inside, fun outside => absurd boundary outside⟩
  · have nothing := reads.rest_eq
    rw [rest_ofOffset_eq_nil boundary] at nothing
    obtain rfl : read = [] := (List.append_eq_nil_iff.mp nothing.symm).1
    obtain rfl := reads.eq_of_offset reads.offset_eq
    exact ⟨rfl, fun inside => absurd inside boundary, fun _ => rfl⟩

/-- What is read at an offset stands there. -/
theorem Cursor.Reads.standsAt {source read : Text} {start : Nat} {next : Cursor}
    (reads : (ofOffset source start).Reads read next) (filled : read ≠ []) :
    source.StandsAt start read := by
  by_cases boundary : source.IsBoundary start
  · obtain ⟨front, back, rfl, rfl⟩ := boundary.exists_append
    rw [ofOffset_append] at reads
    exact ⟨front, next.rest, congrArg (front ++ ·) reads.rest_eq, rfl⟩
  · have empty := reads.rest_eq
    rw [rest_ofOffset_eq_nil boundary] at empty
    exact absurd (List.append_eq_nil_iff.mp empty.symm).1 filled

/-! ### Contracts -/

/-- What is promised of a success: of the offset where it starts, the text that is
    read, the text that is left and the value. -/
abbrev Contract (α : Type) := Nat → Text → Text → α → Prop

/-- A success reads a text for which the contract holds; a failure is noticed at a
    place that reading can reach. -/
def Reply.Meets (cursor : Cursor) (contract : Contract α) : Reply α → Prop
  | .ok value next => ∃ read, cursor.Reads read next ∧ contract cursor.offset read next.rest value
  | .fail failure => ∃ read place, cursor.Reads read place ∧ failure.position = place.offset

namespace Parser

/-- A parser meets a contract when its replies do, wherever it starts. -/
def Meets (parser : Parser α) (contract : Contract α) : Prop :=
  ∀ cursor, (parser cursor).Meets cursor contract

variable {parser second : Parser α} {contract weaker : Contract α}

theorem Meets.ok (meets : parser.Meets contract) {cursor next : Cursor} {value : α}
    (done : parser cursor = .ok value next) :
    ∃ read, cursor.Reads read next ∧ contract cursor.offset read next.rest value := by
  have reply := meets cursor
  rwa [done] at reply

theorem Meets.fail (meets : parser.Meets contract) {cursor : Cursor} {failure : Failure}
    (failed : parser cursor = .fail failure) :
    ∃ read place, cursor.Reads read place ∧ failure.position = place.offset := by
  have reply := meets cursor
  rwa [failed] at reply

theorem Meets.weaken (meets : parser.Meets contract)
    (implies : ∀ {offset read back value}, contract offset read back value →
      weaker offset read back value) : parser.Meets weaker := by
  intro cursor
  cases reply : parser cursor with
  | ok value next =>
    obtain ⟨read, reads, holds⟩ := meets.ok reply
    exact ⟨read, reads, implies holds⟩
  | fail failure => exact meets.fail reply

/-- A failure that is noticed at once is a reply to every contract. -/
theorem meets_failHere (expected : Expected) (cursor : Cursor) :
    (failHere expected cursor).Meets cursor contract := ⟨[], cursor, .nothing cursor, rfl⟩

/-! ### Sequencing -/

theorem meets_pure {value : α} (holds : ∀ offset back, contract offset [] back value) :
    (pure value : Parser α).Meets contract :=
  fun cursor => ⟨[], .nothing cursor, holds _ _⟩

theorem Meets.bind {following : α → Parser β} {result : Contract β}
    (first : parser.Meets contract)
    (rest : ∀ (offset : Nat) (read : Text) (value : α), (following value).Meets
      fun start more back final => start = offset + read.byteSize →
        contract offset read (more ++ back) value → result offset (read ++ more) back final) :
    (parser >>= following).Meets result := by
  intro cursor
  show (Parser.bind parser following cursor).Meets cursor result
  unfold Parser.bind
  cases begun : parser cursor with
  | fail failure => exact first.fail begun
  | ok value middle =>
    obtain ⟨read, reads, holds⟩ := first.ok begun
    have final := rest cursor.offset read value
    cases reply : following value middle with
    | fail failure =>
      obtain ⟨more, place, readsMore, position⟩ := final.fail reply
      simp only [reply]
      exact ⟨read ++ more, place, reads.trans readsMore, position⟩
    | ok value next =>
      obtain ⟨more, readsMore, conclude⟩ := final.ok reply
      rw [readsMore.rest_eq] at holds
      simp only [reply]
      exact ⟨read ++ more, reads.trans readsMore, conclude reads.offset_eq holds⟩

theorem Meets.map {f : α → β} {result : Contract β} (meets : parser.Meets contract)
    (implies : ∀ {offset read back value}, contract offset read back value →
      result offset read back (f value)) : (f <$> parser).Meets result := by
  refine Meets.bind meets fun offset read value => meets_pure fun start back => ?_
  intro _ holds
  rw [List.append_nil]
  exact implies holds

/-! ### Reading characters -/

/-- One character that passes a test, which may look at what comes after it. -/
def OneChar (test : Char → Text → Prop) : Contract Span := fun offset read back span =>
  span = .ofText offset read ∧ ∃ c, read = [c] ∧ test c back

theorem meets_satisfy (expected : Expected) (test : Char → Bool) :
    (satisfy expected test).Meets (OneChar fun c _ => test c = true) := by
  intro cursor
  unfold satisfy
  split
  next c next step =>
    split
    next passes =>
      have reads := Cursor.Reads.of_next? step
      exact ⟨[c], reads, by rw [reads.offset_eq]; rfl, c, rfl, passes⟩
    · exact meets_failHere expected cursor
  · exact meets_failHere expected cursor

theorem meets_char (c : Char) : (char c).Meets fun _ read _ _ => read = [c] :=
  (meets_satisfy _ _).weaken fun ⟨_, d, read, same⟩ => by simpa [read] using same

theorem meets_word (text : Text) : (word text).Meets fun _ read _ _ => read = text := by
  intro cursor
  unfold word
  split
  next next found => exact ⟨text, .of_skip? found, rfl⟩
  · exact meets_failHere _ cursor

theorem meets_exclude (words : List Text) :
    (exclude words).Meets (OneChar fun c back => ∀ word ∈ words, ¬ word <+: c :: back) := by
  intro cursor
  unfold exclude
  split
  · exact meets_failHere _ cursor
  next c next step =>
    split
    · exact meets_failHere _ cursor
    next unmatched =>
      have reads := Cursor.Reads.of_next? step
      refine ⟨[c], reads, by rw [reads.offset_eq]; rfl, c, rfl, ?_⟩
      rintro word member ⟨back, split⟩
      have ahead : cursor.ahead = .chars (c :: next.rest) := by
        cases reads with
        | char nothing => cases nothing; rfl
      apply List.find?_eq_none.mp unmatched word member
      simp [Cursor.startsWith, Cursor.skip?, ahead,
        List.isPrefixOf?_eq_some_iff_append_eq.mpr split]

theorem meets_endOfInput : endOfInput.Meets fun _ read back _ => read = [] ∧ back = [] := by
  intro cursor
  unfold endOfInput
  split
  next atEnd =>
    refine ⟨[], .nothing cursor, rfl, ?_⟩
    unfold Cursor.atEnd at atEnd
    unfold Cursor.rest
    split at atEnd
    next rest ahead => simpa [ahead] using atEnd
    · cases atEnd
    next ahead => simp [ahead]
  · exact meets_failHere _ cursor

/-! ### Choice -/

theorem Meets.orElse (first : parser.Meets contract) (other : second.Meets contract) :
    (orElse parser second).Meets contract := by
  intro cursor
  unfold Parser.orElse
  split
  next reply => exact first.ok reply
  next reply =>
    split
    · exact other cursor
    · exact first.fail reply

theorem Meets.attempt (meets : parser.Meets contract) : (attempt parser).Meets contract := by
  intro cursor
  unfold Parser.attempt
  split
  next reply => exact meets.ok reply
  next failure reply => exact meets_failHere failure.expected cursor

theorem meets_firstOf {parsers : List (Parser α)}
    (meets : ∀ parser ∈ parsers, parser.Meets contract) : (firstOf parsers).Meets contract := by
  induction parsers with
  | nil => exact meets_failHere .alternatives
  | cons parser parsers ih =>
    have first := meets parser (by simp)
    have others := ih fun parser member => meets parser (by simp [member])
    intro cursor
    unfold firstOf
    split
    next reply => exact first.ok reply
    next reply =>
      split
      · split
        next later => exact others.ok later
        next later =>
          split
          · exact first.fail reply
          · exact others.fail later
      · exact first.fail reply

theorem Meets.optional {result : Contract (Option α)} (meets : parser.Meets contract)
    (present : ∀ {offset read back value}, contract offset read back value →
      result offset read back (some value))
    (absent : ∀ {offset back}, result offset [] back none) :
    (optional parser).Meets result := by
  intro cursor
  unfold Parser.optional
  split
  next reply =>
    obtain ⟨read, reads, holds⟩ := meets.ok reply
    exact ⟨read, reads, present holds⟩
  next reply =>
    split
    · exact ⟨[], .nothing cursor, absent⟩
    · exact meets.fail reply

/-! ### Repetition -/

section Repetition

variable {result : Contract (List α)} (meets : parser.Meets contract)
  (nil : ∀ {offset back}, result offset [] back [])
  (cons : ∀ {offset read more back value values}, contract offset read (more ++ back) value →
    result (offset + read.byteSize) more back values →
    result offset (read ++ more) back (value :: values))

include meets nil cons

theorem Meets.manyWithin (bound : Text) : (manyWithin parser bound).Meets result := by
  -- A run after which nothing more is read.
  have single : ∀ {offset read back value}, contract offset read back value →
      result offset read back [value] := by
    intro offset read back value holds
    have whole : result offset (read ++ []) back [value] := cons holds nil
    rwa [List.append_nil] at whole
  intro cursor
  fun_induction Parser.manyWithin parser bound cursor with
  | case1 bound cursor value next begun still =>
    obtain ⟨read, reads, holds⟩ := meets.ok begun
    obtain rfl := reads.eq_of_offset still
    exact ⟨read, reads, single holds⟩
  | case2 cursor value next begun moved =>
    obtain ⟨read, reads, holds⟩ := meets.ok begun
    exact ⟨read, reads, single holds⟩
  | case3 cursor value next begun moved c bound values last following ih =>
    obtain ⟨read, reads, holds⟩ := meets.ok begun
    rw [following] at ih
    obtain ⟨more, readsMore, rest⟩ := ih
    rw [readsMore.rest_eq] at holds
    rw [reads.offset_eq] at rest
    exact ⟨read ++ more, reads.trans readsMore, cons holds rest⟩
  | case4 cursor value next begun moved c bound failure following ih =>
    obtain ⟨read, reads, -⟩ := meets.ok begun
    rw [following] at ih
    obtain ⟨more, place, readsMore, position⟩ := ih
    exact ⟨read ++ more, place, reads.trans readsMore, position⟩
  | case5 bound cursor failure begun here => exact ⟨[], .nothing cursor, nil⟩
  | case6 bound cursor failure begun later => exact meets.fail begun

theorem Meets.many : (many parser).Meets result :=
  fun cursor => Meets.manyWithin meets nil cons cursor.rest cursor

end Repetition

theorem Meets.many1 {others result : Contract (List α)} (meets : parser.Meets contract)
    (rest : (Parser.many parser).Meets others) (nil : ∀ {offset back}, others offset [] back [])
    (cons : ∀ {offset read more back value values}, contract offset read (more ++ back) value →
      others (offset + read.byteSize) more back values →
      result offset (read ++ more) back (value :: values)) :
    (many1 parser).Meets result := by
  intro cursor
  unfold Parser.many1
  split
  next value next begun =>
    obtain ⟨read, reads, holds⟩ := meets.ok begun
    split
    · have whole : result cursor.offset (read ++ []) next.rest [value] := cons holds nil
      rw [List.append_nil] at whole
      exact ⟨read, reads, whole⟩
    · split
      next values last following =>
        obtain ⟨more, readsMore, run⟩ := rest.ok following
        rw [readsMore.rest_eq] at holds
        rw [reads.offset_eq] at run
        exact ⟨read ++ more, reads.trans readsMore, cons holds run⟩
      next failure following =>
        obtain ⟨more, place, readsMore, position⟩ := rest.fail following
        exact ⟨read ++ more, place, reads.trans readsMore, position⟩
  next failure begun => exact meets.fail begun

/-! ### Spans -/

theorem Meets.spanned (meets : parser.Meets contract) : (spanned parser).Meets
    fun offset read back span =>
      span = .ofText offset read ∧ ∃ value, contract offset read back value := by
  intro cursor
  unfold Parser.spanned
  split
  next value next reply =>
    obtain ⟨read, reads, holds⟩ := meets.ok reply
    rw [reads.offset_eq]
    exact ⟨read, reads, rfl, value, holds⟩
  next reply => exact meets.fail reply

end Parser

end ViewScript
