/-
  ViewScript/Proofs/Scanner/Terms.lean
  ====================================
  **What an expression reads first is what the scanner takes first.**

  The rule for one node of an expression tries its alternatives in order.  A character
  that ends plain code leaves few of them, and the one that takes it does what the lexeme
  says: it reads the characters that are skipped, or fails at the end of the text.  A view
  is skipped where one can be read.

  Plain code is read in longer pieces than the scanner takes, all of whose characters the
  scanner skips one by one.
-/
import Mathlib.Data.List.Nodup
import ViewScript.Proofs.Compile.HostCode
import ViewScript.Proofs.Scanner.Lexemes

namespace ViewScript.Scanner

open Grammar ViewScript.Parser

variable {offset : Nat} {rest : Text}

/-! ### Doing what a lexeme says -/

/-- The parser reads what is skipped, and fails at the end of the text where something
    does not end. -/
def Scans {α : Type} (parser : Parser α) (offset : Nat) (text : Text) : Extent → Prop
  | .skipped more => ReadsFirst parser offset (more + 1) text
  | .endless missing => parser ⟨offset, .chars text⟩ = .fail ⟨missing, offset + text.byteSize⟩

theorem Scans.firstOf {α : Type} {parser : Parser α} {text : Text} {extent : Extent}
    (scans : Scans parser offset text extent) (filled : text ≠ []) {front : List (Parser α)}
    (declines : ∀ other ∈ front, other.Declines ⟨offset, .chars text⟩)
    (parsers : List (Parser α)) :
    Scans (Parser.firstOf (front ++ parser :: parsers)) offset text extent := by
  cases extent with
  | skipped more =>
    obtain ⟨read, back, value, rfl, size, yields⟩ := scans
    exact ⟨read, back, value, rfl, size, yields_firstOf_append declines yields.firstOf⟩
  | endless missing =>
    have later : offset + text.byteSize ≠ offset := by
      have size : text.byteSize ≠ 0 := fun zero => filled (Text.eq_nil_of_byteSize_eq_zero zero)
      omega
    exact firstOf_append_eq_fail declines (firstOf_eq_fail scans later) later

theorem scans_quoted {mark : Char} (noEscape : '\\' ∉ [mark]) :
    Scans (quoted mark) offset (mark :: rest) (marked mark rest) := by
  cases is : marked mark rest with
  | skipped more => exact readsFirst_quoted noEscape is offset
  | endless missing => exact quoted_eq_fail noEscape is offset

theorem scans_comment : Scans comment offset ('#' :: rest) (marked '#' rest) := by
  cases is : marked '#' rest with
  | skipped more => exact readsFirst_comment is offset
  | endless missing => exact comment_eq_fail is offset

theorem scans_blockComment : Scans blockComment offset ('/' :: '*' :: rest) (block rest) := by
  unfold block
  cases found : blockLength? rest with
  | some length =>
    obtain ⟨read, back, span, rfl, rfl, yields⟩ :=
      readsFirst_blockEnd found (offset + Text.byteSize ['/', '*'])
    have comment : (do let _ ← word ['/', '*']; blockEnd).Yields offset
        (['/', '*'] ++ read) back span := (yields_word ['/', '*']).bind yields
    exact ⟨'/' :: '*' :: read, back, _, rfl, rfl, comment.spanned.map Node.verbatim⟩
  | none =>
    have failed := blockEnd_eq_fail found (offset + Text.byteSize ['/', '*'])
    rw [Nat.add_assoc, ← Text.byteSize_append] at failed
    have comment : (do let _ ← word ['/', '*']; blockEnd)
        ⟨offset, .chars (['/', '*'] ++ rest)⟩ = _ := (yields_word ['/', '*']).bind_eq_fail failed
    exact bind_eq_fail_iff.mpr (.inl (spanned_eq_fail comment))

theorem scans_operator (c : Char) : Scans (operator c) offset (c :: rest) (.skipped 0) :=
  ⟨[c], rest, _, rfl, rfl, (yields_char c).map Node.verbatim⟩

/-! ### Nodes that start with a slash -/

section Slash

variable (nested : Nested)

theorem declines_lineComment (other : ∀ tail, rest ≠ '/' :: tail) :
    lineComment.Declines ⟨offset, .chars ('/' :: rest)⟩ := by
  have absent : ¬ ['/', '/'] <+: '/' :: rest := by
    rintro ⟨tail, split⟩
    exact other tail (List.cons.inj split).2.symm
  exact (declines_word absent).bind.spanned.map

theorem declines_blockComment (other : ∀ tail, rest ≠ '*' :: tail) :
    blockComment.Declines ⟨offset, .chars ('/' :: rest)⟩ := by
  have absent : ¬ ['/', '*'] <+: '/' :: rest := by
    rintro ⟨tail, split⟩
    exact other tail (List.cons.inj split).2.symm
  exact (declines_word absent).bind.spanned.map

theorem scans_slash : Scans (Rules.term nested) offset ('/' :: rest) (slash rest) := by
  fun_cases slash rest with
  | case1 rest =>
    have scans : Scans lineComment offset ('/' :: '/' :: rest) (slash ('/' :: rest)) :=
      readsFirst_lineComment rest offset
    exact scans.firstOf (List.cons_ne_nil _ _) (List.forall_mem_nil _) _
  | case2 rest =>
    have noLine : lineComment.Declines ⟨offset, .chars ('/' :: '*' :: rest)⟩ :=
      declines_lineComment (by simp)
    exact scans_blockComment.firstOf (List.cons_ne_nil _ _) (List.forall_mem_singleton.mpr noLine) _
  | case3 rest noLine noBlock =>
    have comments : ∀ parser ∈ [lineComment, blockComment],
        parser.Declines ⟨offset, .chars ('/' :: rest)⟩ :=
      List.forall_mem_cons.mpr
        ⟨declines_lineComment noLine, List.forall_mem_singleton.mpr (declines_blockComment noBlock)⟩
    cases found : regexLength? rest with
    | some length =>
      have scans : Scans (attempt regex) offset ('/' :: rest) (.skipped length) := by
        obtain ⟨read, back, node, split, size, yields⟩ := readsFirst_regex found noLine offset
        exact ⟨read, back, node, split, size, yields.attempt⟩
      exact scans.firstOf (List.cons_ne_nil _ _) comments _
    | none =>
      have noRegex : (attempt regex).Declines ⟨offset, .chars ('/' :: rest)⟩ :=
        (fails_regex found offset).attempt
      have earlier : ∀ parser ∈ marks ++ Rules.value nested :: Rules.views nested,
          parser.Declines ⟨offset, .chars ('/' :: rest)⟩ := by
        intro parser member
        simp only [marks, List.cons_append, List.nil_append, List.mem_cons] at member
        rcases member with rfl | rfl | rfl | rfl | rfl | view
        · exact declines_lineComment noLine
        · exact declines_blockComment noBlock
        · exact noRegex
        · exact (startsIn_char '#').bind.declines rfl
        · exact (startsIn_value nested).declines rfl
        · exact (startsIn_views nested parser view).declines rfl
      exact (scans_operator '/').firstOf (List.cons_ne_nil _ _) earlier [operator '<', plainCode]

end Slash

/-! ### Nodes that start with a value -/

section Value

variable (nested : Nested) {mark : Char}

theorem declines_marks {c : Char} (other : (c == '/' || c == '#') = false) :
    ∀ parser ∈ marks, parser.Declines ⟨offset, .chars (c :: rest)⟩ :=
  fun parser member => (startsIn_marks parser member).declines other

/-- The alternatives for a value after a name, with the characters they start with. -/
def keyedValues : List (Char × Parser Node) :=
  [('"', quoted '"'), ('\'', quoted '\''), ('\x60', quoted '\x60'),
    ('(', Rules.group nested .paren), ('[', Rules.group nested .bracket),
    ('\x7b', Rules.group nested .brace)]

theorem startsIn_keyedValues :
    ∀ keyed ∈ keyedValues nested, keyed.2.StartsIn (· == keyed.1) := by
  intro keyed member
  simp only [keyedValues, List.mem_cons, List.not_mem_nil, or_false] at member
  rcases member with rfl | rfl | rfl | rfl | rfl | rfl
  · exact startsIn_quoted _
  · exact startsIn_quoted _
  · exact startsIn_quoted _
  · exact (startsIn_char _).bind
  · exact (startsIn_char _).bind
  · exact (startsIn_char _).bind

/-- All that is tried for a value before the alternative for the next character declines. -/
theorem exists_value_eq (offset : Nat) (rest : Text) {c : Char} {parser : Parser Node}
    (noName : isNameChar c = false) (member : (c, parser) ∈ keyedValues nested) :
    ∃ front parsers, Rules.value nested = firstOf (front ++ parser :: parsers) ∧
      ∀ other ∈ front, other.Declines ⟨offset, .chars (c :: rest)⟩ := by
  have distinct : ((keyedValues nested).map (·.1)).Nodup := by
    simp [keyedValues]
  have starts := startsIn_keyedValues nested
  have rule : Rules.value nested = firstOf (name :: (keyedValues nested).map (·.2)) := rfl
  obtain ⟨before, after, split⟩ := List.append_of_mem member
  rw [split] at distinct starts rule
  refine ⟨name :: before.map (·.2), after.map (·.2), ?_, ?_⟩
  · rw [rule, List.map_append, List.map_cons, List.cons_append]
  · refine List.forall_mem_cons.mpr ⟨startsIn_name.declines noName, ?_⟩
    intro other earlier
    obtain ⟨keyed, isBefore, rfl⟩ := List.mem_map.mp earlier
    refine (starts keyed (List.mem_append_left _ isBefore)).declines ?_
    rw [beq_eq_false_iff_ne]
    rintro rfl
    rw [List.map_append, List.map_cons] at distinct
    exact List.disjoint_of_nodup_append distinct (List.mem_map_of_mem isBefore) List.mem_cons_self

theorem scans_term_quoted (isQuote : mark ∈ quotes) :
    Scans (Rules.term nested) offset (mark :: rest) (marked mark rest) := by
  have facts : isNameChar mark = false ∧ '\\' ∉ [mark] ∧ (mark == '/' || mark == '#') = false ∧
      (mark, quoted mark) ∈ keyedValues nested := by
    simp only [quotes, List.mem_cons, List.not_mem_nil, or_false] at isQuote
    rcases isQuote with rfl | rfl | rfl
    · exact ⟨rfl, by decide, rfl, by simp [keyedValues]⟩
    · exact ⟨rfl, by decide, rfl, by simp [keyedValues]⟩
    · exact ⟨rfl, by decide, rfl, by simp [keyedValues]⟩
  obtain ⟨noName, noEscape, noMark, member⟩ := facts
  obtain ⟨front, parsers, rule, declines⟩ := exists_value_eq nested offset rest noName member
  have value : Scans (Rules.value nested) offset (mark :: rest) (marked mark rest) := by
    rw [rule]
    exact (scans_quoted noEscape).firstOf (List.cons_ne_nil _ _) declines parsers
  exact value.firstOf (List.cons_ne_nil _ _) (declines_marks noMark) _

/-- Once brackets are open, there is no going back. -/
theorem term_opening (delimiter : Delimiter) (committed : ¬ (Rules.group nested delimiter).Declines
      ⟨offset, .chars (delimiter.opening :: rest)⟩) :
    Rules.term nested ⟨offset, .chars (delimiter.opening :: rest)⟩ =
      Rules.group nested delimiter ⟨offset, .chars (delimiter.opening :: rest)⟩ := by
  have facts : isNameChar delimiter.opening = false ∧
      (delimiter.opening == '/' || delimiter.opening == '#') = false ∧
      (delimiter.opening, Rules.group nested delimiter) ∈ keyedValues nested := by
    cases delimiter with
    | paren => exact ⟨rfl, rfl, by simp [keyedValues, Delimiter.opening]⟩
    | bracket => exact ⟨rfl, rfl, by simp [keyedValues, Delimiter.opening]⟩
    | brace => exact ⟨rfl, rfl, by simp [keyedValues, Delimiter.opening]⟩
  obtain ⟨noName, noMark, member⟩ := facts
  obtain ⟨front, parsers, rule, declines⟩ := exists_value_eq nested offset rest noName member
  have value : Rules.value nested ⟨offset, .chars (delimiter.opening :: rest)⟩ =
      Rules.group nested delimiter ⟨offset, .chars (delimiter.opening :: rest)⟩ := by
    rw [rule]
    exact firstOf_append_cons_eq declines committed
  rw [← value]
  refine firstOf_append_cons_eq (declines_marks noMark) ?_
  rwa [Declines, value]

end Value

/-! ### Views -/

/-- The number of characters of a view behind its `<`, if one can be read. -/
def viewLength? (offset : Nat) (rest : Text) : Option Nat :=
  match firstOf (Rules.views .closed) ⟨offset, .chars ('<' :: rest)⟩ with
  | .ok _ next => some (rest.length - next.rest.length)
  | .fail _ => none

theorem scans_term_lessThan : Scans (Rules.term .closed) offset ('<' :: rest)
    (.skipped ((viewLength? offset rest).getD 0)) := by
  have noMark : ∀ parser ∈ marks, parser.Declines ⟨offset, .chars ('<' :: rest)⟩ :=
    declines_marks rfl
  have noValue : (Rules.value .closed).Declines ⟨offset, .chars ('<' :: rest)⟩ :=
    (startsIn_value .closed).declines rfl
  unfold viewLength?
  cases reply : firstOf (Rules.views .closed) ⟨offset, .chars ('<' :: rest)⟩ with
  | ok node next =>
    obtain ⟨read, reads, derived⟩ := (meets_firstOf (sound_views isSound_closed)).ok reply
    obtain ⟨inside, rfl⟩ := List.head?_eq_some_iff.mp (isView_of_derives derived).2.1
    obtain ⟨back, split, rfl⟩ := reads.exists_chars
    obtain rfl : rest = inside ++ back := (List.cons.inj split).2
    have view :
        (firstOf (Rules.views .closed ++ leftovers)).Yields offset ('<' :: inside) back node :=
      (firstOf_append_left (not_declines_of_ok reply)).trans reply
    have term :
        (firstOf (marks ++ Rules.value .closed :: (Rules.views .closed ++ leftovers))).Yields
        offset ('<' :: inside) back node := yields_firstOf_append noMark (noValue.firstOf view)
    refine ⟨'<' :: inside, back, node, rfl, ?_, term⟩
    simp [Cursor.rest]
  | fail failure =>
    have fails : (firstOf ([Rules.reference .closed, Rules.selfClosing .closed,
        Rules.element .closed, Rules.fragment .closed].map attempt)).Fails
        ⟨offset, .chars ('<' :: rest)⟩ := ⟨failure, reply⟩
    have noView : ∀ parser ∈ Rules.views .closed, parser.Declines ⟨offset, .chars ('<' :: rest)⟩ :=
      declines_of_firstOf_attempts fails
    have earlier :
        ∀ parser ∈ marks ++ Rules.value .closed :: (Rules.views .closed ++ [operator '/']),
        parser.Declines ⟨offset, .chars ('<' :: rest)⟩ := by
      intro parser member
      rcases List.mem_append.mp member with mark | member
      · exact noMark parser mark
      rcases List.mem_cons.mp member with rfl | member
      · exact noValue
      rcases List.mem_append.mp member with view | slash
      · exact noView parser view
      · obtain rfl := List.mem_singleton.mp slash
        exact (startsIn_char '/').map.declines rfl
    exact (scans_operator '<').firstOf (List.cons_ne_nil _ _) earlier [plainCode]

/-! ### Every next character -/

theorem scans_term {c : Char} {extent : Extent} (delimiter : isCodeChar c = false)
    (is : lexeme (viewLength? offset) c rest = .whole extent) :
    Scans (Rules.term .closed) offset (c :: rest) extent := by
  have known : [c] ∈ codeDelimiters := by simpa [isCodeChar] using delimiter
  simp only [codeDelimiters, List.mem_cons, List.cons.injEq, and_true, List.not_mem_nil,
    or_false] at known
  -- The brackets have no extent.
  rcases known with rfl | rfl | rfl | rfl | rfl | rfl | rfl | rfl | rfl | rfl | rfl | rfl <;>
    cases is
  · exact scans_slash .closed
  · have earlier : ∀ parser ∈ [lineComment, blockComment, attempt regex],
        parser.Declines ⟨offset, .chars ('#' :: rest)⟩ := by
      intro parser member
      simp only [List.mem_cons, List.not_mem_nil, or_false] at member
      rcases member with rfl | rfl | rfl
      · exact (startsIn_word '/' _).bind.spanned.map.declines rfl
      · exact (startsIn_word '/' _).bind.spanned.map.declines rfl
      · exact (startsIn_char '/').bind.spanned.map.attempt.declines rfl
    exact scans_comment.firstOf (List.cons_ne_nil _ _) earlier _
  · exact scans_term_quoted .closed (by decide)
  · exact scans_term_quoted .closed (by decide)
  · exact scans_term_quoted .closed (by decide)
  · exact scans_term_lessThan

theorem lexeme_code {c : Char} (isCode : isCodeChar c = true) (view? : Text → Option Nat) :
    lexeme view? c rest = .whole (.skipped 0) := by
  unfold lexeme
  split <;> first | rfl | cases isCode

theorem isCodeChar_of_isNameChar {c : Char} (isName : isNameChar c = true) :
    isCodeChar c = true := by
  by_contra other
  have known : [c] ∈ codeDelimiters := by simpa [isCodeChar] using other
  simp only [codeDelimiters, List.mem_cons, List.cons.injEq, and_true, List.not_mem_nil,
    or_false] at known
  rcases known with rfl | rfl | rfl | rfl | rfl | rfl | rfl | rfl | rfl | rfl | rfl | rfl <;>
    cases isName

/-- Plain code is read as a name, as far as that goes, or as a run of code. -/
theorem exists_yields_term_code {c : Char} (isCode : isCodeChar c = true) :
    ∃ run back node, c :: rest = run ++ back ∧ IsRun isCodeChar run ∧
      (Rules.term .closed).Yields offset run back node := by
  by_cases isName : isNameChar c = true
  · have isRun : IsRun isNameChar ((c :: rest).takeWhile isNameChar) :=
      ⟨by simp [isName], fun d member => List.mem_takeWhile_imp member⟩
    refine ⟨_, _, _, List.takeWhile_append_dropWhile.symm, ?_,
      yields_term_run .closed isRun (stops_dropWhile isNameChar (c :: rest))⟩
    exact ⟨isRun.1, fun d member => isCodeChar_of_isNameChar (isRun.2 d member)⟩
  · have noValue : startsValue c = false := by
      by_contra value
      rw [Bool.not_eq_false, startsValue, Bool.or_eq_true, List.contains_iff_mem] at value
      rcases value with name | mark
      · exact isName name
      · simp only [List.mem_cons, List.not_mem_nil, or_false] at mark
        rcases mark with rfl | rfl | rfl | rfl | rfl | rfl <;> cases isCode
    have run : (c :: rest).takeWhile isCodeChar = c :: rest.takeWhile isCodeChar := by
      simp [isCode]
    have isRun : IsRun isCodeChar (c :: rest.takeWhile isCodeChar) :=
      ⟨List.cons_ne_nil _ _, fun d member => List.mem_takeWhile_imp (run ▸ member)⟩
    refine ⟨c :: rest.takeWhile isCodeChar, rest.dropWhile isCodeChar, _, ?_, isRun,
      yields_term_code .closed isRun noValue (stops_dropWhile isCodeChar rest)⟩
    rw [List.cons_append, List.takeWhile_append_dropWhile]

end ViewScript.Scanner
