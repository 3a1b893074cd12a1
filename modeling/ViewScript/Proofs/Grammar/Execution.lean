/-
  ViewScript/Proofs/Grammar/Execution.lean
  ========================================
  **Running the rules on a text that is known.**

  The lexical rules are run on the runs of characters they read.  For the rules that
  nest it is said which characters they can start with, so that they decline before
  any other.
-/
import ViewScript.Proofs.Grammar.Soundness
import ViewScript.Proofs.Grammar.Unfolding
import ViewScript.Proofs.Parser.Execution

namespace ViewScript.Grammar

open ViewScript.Parser

variable {offset : Nat} {run content back : Text}

/-! ### Runs -/

theorem startsIn_escapedOr (words : List Text) :
    (escapedOr words).StartsIn fun c => c == '\\' || !words.contains [c] := by
  refine StartsIn.orElse ?_ ?_
  · exact (startsIn_char '\\').bind.spanned.mono fun c other => (Bool.or_eq_false_iff.mp other).1
  · exact (startsIn_exclude words).mono fun c other => (Bool.or_eq_false_iff.mp other).2

theorem yields_escapedOr {ends : List Char} {c : Char} (plain : c ≠ '\\') (free : c ∉ ends) :
    (escapedOr (ends.map ([·]))).Yields offset [c] back (.ofText offset [c]) := by
  have declines : (spanned do let _ ← char '\\'; anyChar).Declines ⟨offset, .chars (c :: back)⟩ :=
    (startsIn_char '\\').bind.spanned.declines (beq_eq_false_iff_ne.mpr plain)
  exact declines.orElse.trans (yields_exclude free)

theorem startsIn_name : name.StartsIn isNameChar := (startsIn_satisfy _ _).many1.spanned.map

theorem yields_name (isRun : IsRun isNameChar run) (stops : Stops isNameChar back) :
    name.Yields offset run back (.code (.ofText offset run)) := by
  obtain ⟨values, yields⟩ := exists_yields_many1 (meets_satisfy (.oneOf "identifier") isNameChar)
    (startsIn_satisfy _ _) (fun c member _ _ => ⟨_, yields_satisfy (isRun.2 c member)⟩) stops
    offset isRun.1
  exact yields.spanned.map Node.code

theorem startsIn_quoted (mark : Char) : (quoted mark).StartsIn (· == mark) :=
  (startsIn_char mark).bind.spanned.map

theorem yields_quoted_of_run {mark : Char} {values : List Span}
    (run : (many (escapedOr [[mark]])).Yields (offset + Text.byteSize [mark]) content
      (mark :: back) values) :
    (quoted mark).Yields offset (mark :: (content ++ [mark])) back
      (.verbatim (.ofText offset (mark :: (content ++ [mark])))) := by
  have string : (do let _ ← char mark; let _ ← many (escapedOr [[mark]]); char mark).Yields
      offset ([mark] ++ (content ++ [mark])) back _ :=
    (yields_char mark).bind (run.bind (yields_char mark))
  exact string.spanned.map Node.verbatim

theorem yields_quoted {mark : Char} (mark_ne : mark ≠ '\\')
    (plain : ∀ c ∈ content, c ≠ mark ∧ c ≠ '\\') :
    (quoted mark).Yields offset (mark :: (content ++ [mark])) back
      (.verbatim (.ofText offset (mark :: (content ++ [mark])))) := by
  have stops : Stops (fun c => c == '\\' || !([[mark]].contains [c])) (mark :: back) := by
    simpa [Stops] using mark_ne
  obtain ⟨values, run⟩ := exists_yields_many (meets_escapedItem [mark] meets_anyChar)
    (startsIn_escapedOr [[mark]])
    (fun c member _ _ =>
      ⟨_, yields_escapedOr (plain c member).2 (by simpa using (plain c member).1)⟩)
    stops (offset + Text.byteSize [mark])
  exact yields_quoted_of_run run

theorem yields_comment_of_run {values : List Span}
    (run : (many (escapedOr [['#']])).Yields (offset + Text.byteSize ['#']) content
      ('#' :: back) values) :
    comment.Yields offset ('#' :: (content ++ ['#'])) back
      (.comment (.ofText (offset + Text.byteSize ['#']) content)) :=
  (yields_char '#').bind (run.spanned.bind ((yields_char '#').bind_pure rfl))

/-- Whether text can start with the character. -/
def startsText (c : Char) : Bool := c == '\\' || !([['\x7b'], ['<']].contains [c])

theorem startsIn_text : text.StartsIn startsText := (startsIn_escapedOr _).many1.spanned.map

theorem yields_text (filled : run ≠ []) (plain : ∀ c ∈ run, c ≠ '\x7b' ∧ c ≠ '<' ∧ c ≠ '\\')
    (stops : Stops startsText back) :
    text.Yields offset run back (.text (.ofText offset run)) := by
  obtain ⟨values, yields⟩ := exists_yields_many1
    (meets_escapedItem ['\x7b', '<'] meets_anyChar) (startsIn_escapedOr _)
    (fun c member _ _ =>
      ⟨_, yields_escapedOr (plain c member).2.2
        (by simpa using ⟨(plain c member).1, (plain c member).2.1⟩)⟩)
    stops offset filled
  exact yields.spanned.map Node.text

theorem startsIn_plainCode : plainCode.StartsIn isCodeChar :=
  (startsIn_exclude _).many1.spanned.map

theorem yields_plainCode (isRun : IsRun isCodeChar run) (stops : Stops isCodeChar back) :
    plainCode.Yields offset run back (.code (.ofText offset run)) := by
  -- The delimiters are single characters.
  have delimiters : codeDelimiters = (codeDelimiters.map (·.headD ' ')).map ([·]) := rfl
  have each : ∀ c ∈ run, ∀ offset rest, ∃ value,
      (exclude codeDelimiters).Yields offset [c] rest value := by
    intro c member offset rest
    rw [delimiters]
    refine ⟨_, yields_exclude fun isEnd => ?_⟩
    have excluded : [c] ∈ codeDelimiters := by
      rw [delimiters]
      exact List.mem_map.mpr ⟨c, isEnd, rfl⟩
    have passes := isRun.2 c member
    simp [isCodeChar, excluded] at passes
  obtain ⟨values, yields⟩ := exists_yields_many1 (meets_exclude codeDelimiters)
    (startsIn_exclude codeDelimiters) each stops offset isRun.1
  exact yields.spanned.map Node.code

theorem yields_lineComment (free : '\n' ∉ content) (stops : Stops (· ≠ '\n') back) :
    lineComment.Yields offset ('/' :: '/' :: content) back
      (.verbatim (.ofText offset ('/' :: '/' :: content))) := by
  have ends : Stops (fun c => !([['\n']].contains [c])) back :=
    stops.mono fun c isBreak => by simpa using isBreak
  have each : ∀ c ∈ content, ∀ offset rest, ∃ value,
      (exclude [['\n']]).Yields offset [c] rest value := by
    intro c member offset rest
    have other : c ∉ ['\n'] := by
      rw [List.mem_singleton]
      rintro rfl
      exact free member
    exact ⟨_, yields_exclude other⟩
  obtain ⟨values, yields⟩ := exists_yields_many (meets_exclude [['\n']]) (startsIn_exclude _)
    each ends (offset + Text.byteSize ['/', '/'])
  exact ((yields_word ['/', '/']).bind yields).spanned.map Node.verbatim

/-- One item of a regular expression. -/
def regexItem : Parser Span :=
  orElse (spanned do let _ ← char '\\'; exclude [['\n']]) (exclude [['/'], ['\n']])

/-! ### Separators -/

/-- Whether a separator can start with the character. -/
def startsSeparator (c : Char) : Bool := isSeparatorChar c || c == '#'

theorem startsIn_blank : (orElse whitespace comment).StartsIn startsSeparator := by
  refine StartsIn.orElse ?_ ?_
  · have starts : whitespace.StartsIn isSeparatorChar := (startsIn_satisfy _ _).many1.spanned.map
    exact starts.mono fun c other => (Bool.or_eq_false_iff.mp other).1
  · have starts : comment.StartsIn (· == '#') := (startsIn_char '#').bind
    exact starts.mono fun c other => (Bool.or_eq_false_iff.mp other).2

theorem yields_separator_nil (stops : Stops startsSeparator back) :
    separator.Yields offset [] back [] :=
  (startsIn_blank ⟨offset, .chars back⟩ stops).many

theorem yields_separator (isRun : IsRun isSeparatorChar run) (stops : Stops startsSeparator back) :
    separator.Yields offset run back [.verbatim (.ofText offset run)] := by
  have meets : (orElse whitespace comment).Meets fun _ _ _ _ => True :=
    (meets_whitespace.weaken fun _ => trivial).orElse (sound_comment.weaken fun _ => trivial)
  obtain ⟨values, blanks⟩ :=
    exists_yields_many1 (meets_satisfy (.oneOf "whitespace") isSeparatorChar)
      (startsIn_satisfy _ _) (fun c member _ _ => ⟨_, yields_satisfy (isRun.2 c member)⟩)
      (stops.mono fun c other => (Bool.or_eq_false_iff.mp other).1) offset isRun.1
  have first : (orElse whitespace comment).Yields offset run ([] ++ back)
      (.verbatim (.ofText offset run)) := (blanks.spanned.map Node.verbatim).orElse
  have all := first.many meets isRun.1 (yields_separator_nil stops)
  rwa [List.append_nil] at all

/-! ### Rules that nest -/

/-- Whether a value can start with the character. -/
def startsValue (c : Char) : Bool :=
  isNameChar c || ['"', '\'', '\x60', '(', '[', '\x7b'].contains c

section Rules

variable (nested : Nested)

theorem startsIn_value : (Rules.value nested).StartsIn startsValue := by
  refine startsIn_firstOf fun parser member => ?_
  simp only [List.mem_cons, List.not_mem_nil, or_false] at member
  rcases member with rfl | rfl | rfl | rfl | rfl | rfl | rfl
  · exact startsIn_name.mono fun c other => (Bool.or_eq_false_iff.mp other).1
  · exact (startsIn_quoted _).of_char rfl
  · exact (startsIn_quoted _).of_char rfl
  · exact (startsIn_quoted _).of_char rfl
  · exact (startsIn_char _).bind.of_char rfl
  · exact (startsIn_char _).bind.of_char rfl
  · exact (startsIn_char _).bind.of_char rfl

theorem startsIn_views : ∀ parser ∈ Rules.views nested, parser.StartsIn (· == '<') := by
  intro parser member
  have opening : (Rules.opening nested).StartsIn (· == '<') := (startsIn_char '<').bind
  simp only [Rules.views, List.mem_cons, List.not_mem_nil, or_false] at member
  rcases member with rfl | rfl | rfl | rfl
  · exact opening.bind.attempt
  · exact opening.bind.attempt
  · exact opening.bind.attempt
  · exact (startsIn_word '<' _).bind.attempt

/-- The first rules that are tried in an expression: those for comments and regular
    expressions. -/
def marks : List (Parser Node) := [lineComment, blockComment, attempt regex, comment]

/-- The last rules that are tried in an expression. -/
def leftovers : List (Parser Node) := [operator '/', operator '<', plainCode]

theorem term_eq : Rules.term nested =
    firstOf (marks ++ (Rules.value nested :: (Rules.views nested ++ leftovers))) := rfl

theorem startsIn_marks : ∀ parser ∈ marks, parser.StartsIn fun c => c == '/' || c == '#' := by
  intro parser member
  simp only [marks, List.mem_cons, List.not_mem_nil, or_false] at member
  rcases member with rfl | rfl | rfl | rfl
  · exact (startsIn_word '/' _).bind.spanned.map.of_char rfl
  · exact (startsIn_word '/' _).bind.spanned.map.of_char rfl
  · exact (startsIn_char '/').bind.spanned.map.attempt.of_char rfl
  · exact (startsIn_char '#').bind.of_char rfl

/-- Whether a node of an expression can start with the character. -/
def startsTerm (c : Char) : Bool := !([')', ']', '\x7d'].contains c)

theorem startsIn_term : (Rules.term nested).StartsIn startsTerm := by
  have wider : ∀ {parser : Parser Node} {test : Char → Bool}, parser.StartsIn test →
      test ')' = false → test ']' = false → test '\x7d' = false →
        parser.StartsIn startsTerm := by
    intro parser test starts paren bracket brace
    refine starts.mono fun c other => ?_
    have closing : c = ')' ∨ c = ']' ∨ c = '\x7d' := by
      simpa [startsTerm, ← or_iff_not_imp_left] using other
    rcases closing with rfl | rfl | rfl
    · exact paren
    · exact bracket
    · exact brace
  rw [term_eq]
  refine startsIn_firstOf fun parser member => ?_
  rcases List.mem_append.mp member with mark | member
  · exact wider (startsIn_marks parser mark) rfl rfl rfl
  rcases List.mem_cons.mp member with rfl | member
  · exact wider (startsIn_value nested) rfl rfl rfl
  rcases List.mem_append.mp member with view | last
  · exact wider (startsIn_views nested parser view) rfl rfl rfl
  simp only [leftovers, List.mem_cons, List.not_mem_nil, or_false] at last
  rcases last with rfl | rfl | rfl
  · exact wider (startsIn_char '/').map rfl rfl rfl
  · exact wider (startsIn_char '<').map rfl rfl rfl
  · exact wider startsIn_plainCode rfl rfl rfl

theorem yields_term_run (isRun : IsRun isNameChar run) (stops : Stops isNameChar back) :
    (Rules.term nested).Yields offset run back (.code (.ofText offset run)) := by
  have noMark : Stops (fun c => c == '/' || c == '#') (run ++ back) := by
    cases run with
    | nil => exact absurd rfl isRun.1
    | cons c run =>
      have passes := isRun.2 c List.mem_cons_self
      by_contra mark
      have known : c = '/' ∨ c = '#' := by simpa [Stops, ← or_iff_not_imp_left] using mark
      rcases known with rfl | rfl <;> cases passes
  rw [term_eq]
  exact yields_firstOf_append (fun parser member => startsIn_marks parser member _ noMark)
    (yields_name isRun stops).firstOf.firstOf

/-- Host code that does not start with a value is read as plain code. -/
theorem yields_term_code {c : Char} (isRun : IsRun isCodeChar (c :: run))
    (noValue : startsValue c = false) (stops : Stops isCodeChar back) :
    (Rules.term nested).Yields offset (c :: run) back (.code (.ofText offset (c :: run))) := by
  have other : ∀ d, isCodeChar d = false → (c == d) = false := by
    intro d delimiter
    rw [beq_eq_false_iff_ne]
    rintro rfl
    rw [isRun.2 c List.mem_cons_self] at delimiter
    cases delimiter
  have last : (firstOf leftovers).Yields offset (c :: run) back
      (.code (.ofText offset (c :: run))) :=
    ((startsIn_char '/').map.declines (other '/' rfl)).firstOf
      (((startsIn_char '<').map.declines (other '<' rfl)).firstOf
        (yields_plainCode isRun stops).firstOf)
  have noMark : ∀ parser ∈ marks, parser.Declines ⟨offset, .chars (c :: run ++ back)⟩ := by
    intro parser mark
    refine (startsIn_marks parser mark).declines ?_
    rw [other '/' rfl, other '#' rfl]
    rfl
  have noView : ∀ parser ∈ Rules.views nested,
      parser.Declines ⟨offset, .chars (c :: run ++ back)⟩ :=
    fun parser view => (startsIn_views nested parser view).declines (other '<' rfl)
  rw [term_eq]
  exact yields_firstOf_append noMark
    (((startsIn_value nested).declines noValue).firstOf (yields_firstOf_append noView last))

end Rules

theorem isSound_closed : Nested.closed.IsSound where
  expression := sound_close sound_expression
  children := sound_close sound_children

/-- An expression that is a single node. -/
theorem yields_expression {offset : Nat} {text back : Text} {node : Node}
    (first : (Rules.term .closed).Yields offset text back node) (filled : text ≠ [])
    (stops : Stops startsTerm back) :
    Grammar.expression.Yields offset text back [node] := by
  have none : (many (Rules.term .closed)).Yields (offset + text.byteSize) [] back [] :=
    Declines.many (startsIn_term _ _ stops)
  have all : (many (Rules.term .closed)).Yields offset (text ++ []) back [node] :=
    first.many (meets_term isSound_closed) filled none
  rw [List.append_nil] at all
  rw [expression_eq]
  exact all

end ViewScript.Grammar
