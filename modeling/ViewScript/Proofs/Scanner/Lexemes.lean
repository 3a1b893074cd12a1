/-
  ViewScript/Proofs/Scanner/Lexemes.lean
  ======================================
  **The lexical rules read what the scanner skips.**

  For each function that measures a lexeme there are two lemmas about the parser for it:
  where there is a length, the parser reads as many characters, and where there is none,
  it fails.  The induction follows the function; each of its steps is one run of the
  repetition in the parser.
-/
import Mathlib.Data.List.TakeWhile
import ViewScript.Proofs.Grammar.Execution
import ViewScript.Proofs.Scanner.Basic

namespace ViewScript.Scanner

open Grammar ViewScript.Parser

variable {rest : Text} {n : Nat}

/-- The parser reads the first `n` characters of the text. -/
def ReadsFirst {α : Type} (parser : Parser α) (offset n : Nat) (text : Text) : Prop :=
  ∃ read back value, text = read ++ back ∧ read.length = n ∧ parser.Yields offset read back value

section ReadsFirst

variable {α : Type} {parser : Parser α} {offset : Nat}

theorem ReadsFirst.exists_yields (reads : ReadsFirst parser offset n rest) :
    ∃ value, parser.Yields offset (rest.take n) (rest.drop n) value := by
  obtain ⟨read, back, value, rfl, rfl, yields⟩ := reads
  exact ⟨value, by rwa [List.take_left, List.drop_left]⟩

/-- What is read behind some other text is the end of what is read as a whole. -/
theorem ReadsFirst.of_eq {front : Text}
    (later : ReadsFirst parser (offset + front.byteSize) n rest)
    (eq : parser ⟨offset, .chars (front ++ rest)⟩ =
      parser ⟨offset + front.byteSize, .chars rest⟩) :
    ReadsFirst parser offset (n + front.length) (front ++ rest) := by
  obtain ⟨read, back, value, rfl, rfl, yields⟩ := later
  refine ⟨front ++ read, back, value, ?_, ?_, ?_⟩
  · rw [List.append_assoc]
  · rw [List.length_append, Nat.add_comm]
  · rw [Yields, List.append_assoc, eq, yields, Text.byteSize_append, Nat.add_assoc]

end ReadsFirst

/-! ### Escaped runs -/

section Escapes

variable {ends : List Char}

theorem yields_escapedPair (words : List Text) (offset : Nat) (c : Char) (back : Text) :
    (escapedOr words).Yields offset ['\\', c] back (.ofText offset ['\\', c]) := by
  have pair : (do let _ ← char '\\'; anyChar).Yields offset (['\\'] ++ [c]) back _ :=
    (yields_char '\\').bind (yields_satisfy rfl)
  exact pair.spanned.orElse

theorem escapedOr_backslash (words : List Text) (offset : Nat) :
    escapedOr words ⟨offset, .chars ['\\']⟩ = .fail ⟨.anyChar, offset + 1⟩ := by
  have pair : (spanned do let _ ← char '\\'; anyChar) ⟨offset, .chars ['\\']⟩ =
      .fail ⟨.anyChar, offset + 1⟩ := rfl
  exact orElse_eq_fail pair (Nat.succ_ne_self offset)

-- A character that no pattern with a backslash in it takes.
theorem ne_backslash {c : Char} (single : c = '\\' → rest = [] → False)
    (pair : ∀ d tail, c = '\\' → rest = d :: tail → False) : c ≠ '\\' := by
  intro same
  cases rest with
  | nil => exact single same rfl
  | cons d tail => exact pair d tail same rfl

theorem many_escapedOr_of_some (noEscape : '\\' ∉ ends) (found : runLength? ends rest = some n)
    (offset : Nat) : ReadsFirst (many (escapedOr (ends.map ([·])))) offset n rest := by
  have meets := meets_escapedItem ends meets_anyChar
  have starts := startsIn_escapedOr (ends.map ([·]))
  fun_induction runLength? ends rest generalizing n offset with
  | case1 =>
    cases found
    exact ⟨[], [], [], rfl, rfl, (starts ⟨offset, .chars []⟩ trivial).many⟩
  | case2 => cases found
  | case3 c rest ih =>
    obtain ⟨m, later, rfl⟩ := Option.map_eq_some_iff.mp found
    obtain ⟨run, back, values, rfl, rfl, others⟩ := ih later (offset + Text.byteSize ['\\', c])
    exact ⟨'\\' :: c :: run, back, _, rfl, rfl,
      (yields_escapedPair _ offset c _).many meets (List.cons_ne_nil _ _) others⟩
  | case4 c rest _ _ isEnd =>
    cases found
    have plain : c ≠ '\\' := fun same => noEscape (same ▸ isEnd)
    have stops : Stops (fun c => c == '\\' || !(ends.map ([·])).contains [c]) (c :: rest) := by
      simp [Stops, plain, isEnd]
    exact ⟨[], c :: rest, [], rfl, rfl, (starts ⟨offset, .chars (c :: rest)⟩ stops).many⟩
  | case5 c rest single pair free ih =>
    obtain ⟨m, later, rfl⟩ := Option.map_eq_some_iff.mp found
    obtain ⟨run, back, values, rfl, rfl, others⟩ := ih later (offset + Text.byteSize [c])
    have plain : c ≠ '\\' := ne_backslash single pair
    exact ⟨c :: run, back, _, rfl, rfl,
      (yields_escapedOr plain free).many meets (List.cons_ne_nil _ _) others⟩

theorem many_escapedOr_of_none (missing : runLength? ends rest = none)
    (offset : Nat) : many (escapedOr (ends.map ([·]))) ⟨offset, .chars rest⟩ =
      .fail ⟨.anyChar, offset + rest.byteSize⟩ := by
  have meets := meets_escapedItem ends meets_anyChar
  fun_induction runLength? ends rest generalizing offset with
  | case1 => cases missing
  | case2 =>
    exact many_eq_fail (escapedOr_backslash _ offset) (Nat.succ_ne_self offset)
  | case3 c rest ih =>
    have first := yields_escapedPair (ends.map ([·])) offset c rest
    have others := ih (Option.map_eq_none_iff.mp missing) (offset + Text.byteSize ['\\', c])
    rw [Nat.add_assoc, ← Text.byteSize_append] at others
    exact first.many_eq_fail meets (List.cons_ne_nil _ _) others
  | case4 c rest _ _ isEnd => cases missing
  | case5 c rest single pair free ih =>
    have plain : c ≠ '\\' := ne_backslash single pair
    have first : (escapedOr (ends.map ([·]))).Yields offset [c] rest _ :=
      yields_escapedOr plain free
    have others := ih (Option.map_eq_none_iff.mp missing) (offset + Text.byteSize [c])
    rw [Nat.add_assoc, ← Text.byteSize_append] at others
    exact first.many_eq_fail meets (List.cons_ne_nil _ _) others

/-- A run stops at one of its ends or at the end of the text. -/
theorem drop_of_runLength? (found : runLength? ends rest = some n) :
    rest.drop n = [] ∨ ∃ c ∈ ends, ∃ back, rest.drop n = c :: back := by
  fun_induction runLength? ends rest generalizing n with
  | case1 => exact .inl List.drop_nil
  | case2 => cases found
  | case3 c rest ih =>
    obtain ⟨m, later, rfl⟩ := Option.map_eq_some_iff.mp found
    exact ih later
  | case4 c rest _ _ isEnd =>
    cases found
    exact .inr ⟨c, isEnd, rest, rfl⟩
  | case5 c rest _ _ _ ih =>
    obtain ⟨m, later, rfl⟩ := Option.map_eq_some_iff.mp found
    exact ih later

end Escapes

/-! ### Strings and template comments -/

section Marked

variable {mark : Char} {more : Nat} {missing : Expected} (noEscape : '\\' ∉ [mark])

include noEscape

theorem exists_run_of_skipped (skipped : marked mark rest = .skipped more) (offset : Nat) :
    ∃ content back values, rest = content ++ mark :: back ∧ more = content.length + 1 ∧
      (many (escapedOr [[mark]])).Yields offset content (mark :: back) values := by
  unfold marked at skipped
  split at skipped
  · cases skipped
  next n found =>
    obtain ⟨content, back, values, rfl, rfl, run⟩ := many_escapedOr_of_some noEscape found offset
    have stops := drop_of_runLength? found
    rw [List.drop_left] at stops
    rcases stops with rfl | ⟨c, isEnd, back, rfl⟩
    · simp at skipped
    · obtain rfl : c = mark := List.mem_singleton.mp isEnd
      refine ⟨content, back, values, rfl, ?_, run⟩
      simpa using skipped.symm

theorem run_of_endless (endless : marked mark rest = .endless missing) (offset : Nat) :
    (missing = .anyChar ∧ many (escapedOr [[mark]]) ⟨offset, .chars rest⟩ =
      .fail ⟨.anyChar, offset + rest.byteSize⟩) ∨
    (missing = .word [mark] ∧
      ∃ values, (many (escapedOr [[mark]])).Yields offset rest [] values) := by
  unfold marked at endless
  split at endless
  next none =>
    cases endless
    exact .inl ⟨rfl, many_escapedOr_of_none none offset⟩
  next n found =>
    split at endless
    · cases endless
    next outside =>
      cases endless
      obtain ⟨content, back, values, rfl, rfl, run⟩ := many_escapedOr_of_some noEscape found offset
      obtain rfl : back = [] := by simpa using outside
      rw [List.append_nil]
      exact .inr ⟨rfl, values, run⟩

theorem readsFirst_quoted (skipped : marked mark rest = .skipped more) (offset : Nat) :
    ReadsFirst (quoted mark) offset (more + 1) (mark :: rest) := by
  obtain ⟨content, back, values, rfl, rfl, run⟩ :=
    exists_run_of_skipped noEscape skipped (offset + Text.byteSize [mark])
  refine ⟨mark :: (content ++ [mark]), back, _, ?_, ?_, yields_quoted_of_run run⟩
  · simp
  · simp

theorem quoted_eq_fail (endless : marked mark rest = .endless missing) (offset : Nat) :
    quoted mark ⟨offset, .chars (mark :: rest)⟩ =
      .fail ⟨missing, offset + Text.byteSize (mark :: rest)⟩ := by
  have inside : (do let _ ← many (escapedOr [[mark]]); char mark)
      ⟨offset + Text.byteSize [mark], .chars rest⟩ =
        .fail ⟨missing, offset + Text.byteSize [mark] + rest.byteSize⟩ := by
    rcases run_of_endless noEscape endless (offset + Text.byteSize [mark]) with
      ⟨rfl, failed⟩ | ⟨rfl, values, run⟩
    · exact bind_eq_fail_iff.mpr (.inl failed)
    · rw [Yields, List.append_nil] at run
      exact bind_eq_fail_iff.mpr (.inr ⟨_, _, run, rfl⟩)
  rw [Nat.add_assoc, ← Text.byteSize_append] at inside
  have string : (do let _ ← char mark; let _ ← many (escapedOr [[mark]]); char mark)
      ⟨offset, .chars ([mark] ++ rest)⟩ = _ := (yields_char mark).bind_eq_fail inside
  exact bind_eq_fail_iff.mpr (.inl (spanned_eq_fail string))

end Marked

theorem readsFirst_comment {more : Nat} (skipped : marked '#' rest = .skipped more)
    (offset : Nat) : ReadsFirst comment offset (more + 1) ('#' :: rest) := by
  obtain ⟨content, back, values, rfl, rfl, run⟩ :=
    exists_run_of_skipped (by decide) skipped (offset + Text.byteSize ['#'])
  refine ⟨'#' :: (content ++ ['#']), back, _, ?_, ?_, yields_comment_of_run run⟩
  · simp
  · simp

theorem comment_eq_fail {missing : Expected} (endless : marked '#' rest = .endless missing)
    (offset : Nat) : comment ⟨offset, .chars ('#' :: rest)⟩ =
      .fail ⟨missing, offset + Text.byteSize ('#' :: rest)⟩ := by
  have inside : (do
      let content ← spanned (many (escapedOr [['#']]))
      let _ ← char '#'
      return Node.comment content) ⟨offset + Text.byteSize ['#'], .chars rest⟩ =
        .fail ⟨missing, offset + Text.byteSize ['#'] + rest.byteSize⟩ := by
    rcases run_of_endless (by decide) endless (offset + Text.byteSize ['#']) with
      ⟨rfl, failed⟩ | ⟨rfl, values, run⟩
    · exact bind_eq_fail_iff.mpr (.inl (spanned_eq_fail failed))
    · have content := run.spanned
      rw [Yields, List.append_nil] at content
      exact bind_eq_fail_iff.mpr (.inr ⟨_, _, content, rfl⟩)
  rw [Nat.add_assoc, ← Text.byteSize_append] at inside
  exact (yields_char '#').bind_eq_fail inside

/-! ### What a slash begins -/

theorem readsFirst_lineComment (rest : Text) (offset : Nat) :
    ReadsFirst lineComment offset ((rest.takeWhile (· ≠ '\n')).length + 2)
      ('/' :: '/' :: rest) := by
  have free : '\n' ∉ rest.takeWhile (· ≠ '\n') := by
    intro member
    simpa using List.mem_takeWhile_imp member
  refine ⟨'/' :: '/' :: rest.takeWhile (· ≠ '\n'), _, _, ?_, rfl,
    yields_lineComment free (stops_dropWhile _ rest)⟩
  rw [List.cons_append, List.cons_append, List.takeWhile_append_dropWhile]

/-- A block comment behind its first mark. -/
def blockEnd : Parser Span := do
  let _ ← many (exclude [['*', '/']])
  word ['*', '/']

theorem blockEnd_cons {c : Char} (noEnd : ∀ tail, c = '*' → rest = '/' :: tail → False)
    (offset : Nat) : blockEnd ⟨offset, .chars ([c] ++ rest)⟩ =
      blockEnd ⟨offset + Text.byteSize [c], .chars rest⟩ := by
  have inside : (exclude [['*', '/']]).Yields offset [c] rest (.ofText offset [c]) := by
    refine yields_exclude_of_forall fun word member starts => ?_
    obtain rfl := List.mem_singleton.mp member
    obtain ⟨tail, split⟩ := starts
    obtain ⟨rfl, rfl⟩ := List.cons.inj split
    exact noEnd tail rfl rfl
  exact inside.many_bind (meets_exclude _) (List.cons_ne_nil c [])

theorem readsFirst_blockEnd (found : blockLength? rest = some n) (offset : Nat) :
    ReadsFirst blockEnd offset n rest := by
  fun_induction blockLength? rest generalizing n offset with
  | case1 => cases found
  | case2 tail =>
    cases found
    have ends : (exclude [['*', '/']]).Declines ⟨offset, .chars ('*' :: '/' :: tail)⟩ :=
      declines_exclude List.mem_cons_self ⟨tail, rfl⟩
    have yields := ends.many_bind.trans (yields_word ['*', '/'])
    exact ⟨['*', '/'], tail, _, rfl, rfl, yields⟩
  | case3 c rest noEnd ih =>
    obtain ⟨m, later, rfl⟩ := Option.map_eq_some_iff.mp found
    exact (ih later (offset + Text.byteSize [c])).of_eq (blockEnd_cons noEnd offset)

theorem blockEnd_eq_fail (missing : blockLength? rest = none) (offset : Nat) :
    blockEnd ⟨offset, .chars rest⟩ = .fail ⟨.word ['*', '/'], offset + rest.byteSize⟩ := by
  fun_induction blockLength? rest generalizing offset with
  | case1 =>
    have ends : (exclude [['*', '/']]).Declines ⟨offset, .chars []⟩ := startsIn_exclude _ _ trivial
    exact ends.many_bind
  | case2 tail => cases missing
  | case3 c rest noEnd ih =>
    have later := ih (Option.map_eq_none_iff.mp missing) (offset + Text.byteSize [c])
    rw [Nat.add_assoc, ← Text.byteSize_append] at later
    exact (blockEnd_cons noEnd offset).trans later

/-- A regular expression behind its first slash, the first item being read already. -/
def regexEnd : Parser Span := do
  let _ ← many regexItem
  char '/'

theorem meets_regexItem : regexItem.Meets fun _ read _ _ => EscapedItem ['/', '\n'] ['\n'] read :=
  meets_escapedItem ['/', '\n'] meets_regexChar

theorem startsIn_regexItem :
    regexItem.StartsIn fun c => c == '\\' || !([['/'], ['\n']].contains [c]) := by
  refine StartsIn.orElse ?_ ?_
  · exact (startsIn_char '\\').bind.spanned.mono fun c other => (Bool.or_eq_false_iff.mp other).1
  · exact (startsIn_exclude _).mono fun c other => (Bool.or_eq_false_iff.mp other).2

theorem yields_regexPair {c : Char} (sameLine : c ≠ '\n') (offset : Nat) (back : Text) :
    regexItem.Yields offset ['\\', c] back (.ofText offset ['\\', c]) := by
  have other : c ∉ ['\n'] := by simpa using sameLine
  have pair : (do let _ ← char '\\'; exclude [['\n']]).Yields offset (['\\'] ++ [c]) back _ :=
    (yields_char '\\').bind (yields_exclude other)
  exact pair.spanned.orElse

theorem yields_regexSingle {c : Char} (plain : c ≠ '\\') (free : c ∉ ['/', '\n']) (offset : Nat)
    (back : Text) : regexItem.Yields offset [c] back (.ofText offset [c]) := by
  have declines : (spanned do let _ ← char '\\'; exclude [['\n']]).Declines
      ⟨offset, .chars (c :: back)⟩ :=
    (startsIn_char '\\').bind.spanned.declines (beq_eq_false_iff_ne.mpr plain)
  exact declines.orElse.trans (yields_exclude free)

theorem readsFirst_regexEnd (found : regexLength? rest = some n) (offset : Nat) :
    ReadsFirst regexEnd offset n rest := by
  fun_induction regexLength? rest generalizing n offset with
  | case1 => cases found
  | case2 tail =>
    cases found
    have ends : regexItem.Declines ⟨offset, .chars ('/' :: tail)⟩ := startsIn_regexItem.declines rfl
    exact ⟨['/'], tail, _, rfl, rfl, ends.many_bind.trans (yields_char '/')⟩
  | case3 => cases found
  | case4 c rest sameLine ih =>
    obtain ⟨m, later, rfl⟩ := Option.map_eq_some_iff.mp found
    have item := yields_regexPair sameLine offset rest
    exact (ih later (offset + Text.byteSize ['\\', c])).of_eq
      (item.many_bind meets_regexItem (List.cons_ne_nil _ _))
  | case5 => cases found
  | case6 c rest notSlash _ other ih =>
    obtain ⟨m, later, rfl⟩ := Option.map_eq_some_iff.mp found
    rw [not_or] at other
    have free : c ∉ ['/', '\n'] := by simpa using ⟨notSlash, other.1⟩
    have item := yields_regexSingle other.2 free offset rest
    exact (ih later (offset + Text.byteSize [c])).of_eq
      (item.many_bind meets_regexItem (List.cons_ne_nil _ _))

theorem exists_regexItem (found : regexLength? rest = some n)
    (noSlash : ∀ tail, rest ≠ '/' :: tail) (offset : Nat) :
    ∃ item back value, rest = item ++ back ∧ item ≠ [] ∧
      regexItem.Yields offset item back value := by
  fun_cases regexLength? rest with
  | case1 => cases found
  | case2 tail => exact absurd rfl (noSlash tail)
  | case3 => simp [regexLength?] at found
  | case4 c rest sameLine =>
    exact ⟨['\\', c], rest, _, rfl, List.cons_ne_nil _ _, yields_regexPair sameLine offset rest⟩
  | case5 c rest => simp_all [regexLength?]
  | case6 c rest notSlash _ other =>
    rw [not_or] at other
    have free : c ∉ ['/', '\n'] := by simpa using ⟨notSlash, other.1⟩
    exact ⟨[c], rest, _, rfl, List.cons_ne_nil _ _, yields_regexSingle other.2 free offset rest⟩

theorem readsFirst_regex (found : regexLength? rest = some n)
    (noSlash : ∀ tail, rest ≠ '/' :: tail) (offset : Nat) :
    ReadsFirst regex offset (n + 1) ('/' :: rest) := by
  obtain ⟨item, others, _, split, filled, first⟩ :=
    exists_regexItem found noSlash (offset + Text.byteSize ['/'])
  obtain ⟨read, back, value, rfl, rfl, yields⟩ :=
    readsFirst_regexEnd found (offset + Text.byteSize ['/'])
  have same : many1 regexItem ⟨offset + Text.byteSize ['/'], .chars (item ++ others)⟩ =
      many regexItem ⟨offset + Text.byteSize ['/'], .chars (item ++ others)⟩ :=
    many1_eq_many meets_regexItem first (Yields.offset_ne filled)
  rw [← split] at same
  have rest : (do let _ ← many1 regexItem; char '/').Yields (offset + Text.byteSize ['/']) read back
      value := by
    show Parser.bind (many1 regexItem) _ _ = _
    rw [Parser.bind, same]
    exact yields
  have whole : (do let _ ← char '/'; let _ ← many1 regexItem; char '/').Yields offset
      (['/'] ++ read) back value := (yields_char '/').bind rest
  exact ⟨'/' :: read, back, _, rfl, rfl, whole.spanned.map Node.verbatim⟩

theorem regexLength?_of_items {items : Text} (run : EscapedRun ['/', '\n'] ['\n'] items)
    (back : Text) : regexLength? (items ++ '/' :: back) = some (items.length + 1) := by
  induction run with
  | nil => rfl
  | @escape c items sameLine _ ih =>
    have other : c ≠ '\n' := by simpa using sameLine
    simp [regexLength?, other, ih]
  | @plain c items plain free _ ih =>
    have others : c ≠ '/' ∧ c ≠ '\n' := by simpa using free
    simp [regexLength?, plain, others, ih]

theorem fails_regex (missing : regexLength? rest = none) (offset : Nat) :
    regex.Fails ⟨offset, .chars ('/' :: rest)⟩ := by
  cases reply : regex ⟨offset, .chars ('/' :: rest)⟩ with
  | fail failure => exact ⟨failure, reply⟩
  | ok node next =>
    obtain ⟨read, reads, ⟨items, -, run, rfl⟩, -⟩ := meets_regex.ok reply
    obtain ⟨back, split, -⟩ := reads.exists_chars
    obtain rfl : rest = items ++ '/' :: back := by simpa using split
    rw [regexLength?_of_items run back] at missing
    cases missing

end ViewScript.Scanner
