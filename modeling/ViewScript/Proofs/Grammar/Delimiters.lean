/-
  ViewScript/Proofs/Grammar/Delimiters.lean
  =========================================
  **Escaped runs stop at the right delimiter.**

  Comments, strings and text are read as runs in which a backslash takes the next character
  with it.  The parser pairs the backslashes from the left, as it comes to them.  Whether a
  delimiter counts can also be told by looking back from it: the backslashes right before it
  are even in number.

  The two agree because an item of a run, a pair or a plain character, ends with an even
  number of backslashes.  Whatever follows it, leaving the item away changes the number of
  backslashes before a place further on by an even number.
-/
import Mathlib.Algebra.Ring.Parity
import Mathlib.Order.Bounds.Basic
import ViewScript.Proofs.Scanner.Lexemes

namespace ViewScript

/-! ### Backslashes at the end of a text -/

namespace Text

/-- The number of backslashes that a text ends with. -/
def backslashes (text : Text) : Nat := (text.reverse.takeWhile (· == '\\')).length

theorem backslashes_append (front text : Text) : (front ++ text).backslashes =
    if text.backslashes = text.length then text.length + front.backslashes
    else text.backslashes := by
  unfold backslashes
  rw [List.reverse_append, List.takeWhile_append, List.length_reverse]
  split
  · rw [List.length_append, List.length_reverse]
  · rfl

theorem backslashes_concat (text : Text) : (text ++ ['\\']).backslashes = text.backslashes + 1 := by
  simp [backslashes]

/-- What ends with an even number of backslashes can be left away. -/
theorem even_backslashes_append {front : Text} (even : Even front.backslashes) (text : Text) :
    Even (front ++ text).backslashes ↔ Even text.backslashes := by
  rw [backslashes_append]
  split
  next all => rw [all, Nat.even_add, iff_true_right even]
  · exact Iff.rfl

theorem even_backslashes_cons {c : Char} (plain : c ≠ '\\') (text : Text) :
    Even (backslashes (c :: text)) ↔ Even text.backslashes := by
  have single : Even (backslashes [c]) := by simp [backslashes, plain]
  exact even_backslashes_append single text

theorem even_backslashes_pair (c : Char) (text : Text) :
    Even (backslashes ('\\' :: c :: text)) ↔ Even text.backslashes := by
  have pair : Even (backslashes ['\\', c]) := by
    by_cases same : c = '\\'
    · subst same
      decide
    · simp [backslashes, same]
  exact even_backslashes_append pair text

theorem StandsAt.exists_dropBytes? {source text : Text} {offset : Nat}
    (stands : source.StandsAt offset text) :
    ∃ back, source.dropBytes? offset = some (text ++ back) := by
  obtain ⟨front, back, rfl, rfl⟩ := stands
  exact ⟨back, dropBytes?_append front (text ++ back)⟩

end Text

namespace Grammar

open ViewScript.Parser Scanner

variable {ends : List Char} {run : Text}

/-! ### Pairs from the left, parity from the right -/

theorem EscapedRun.even_backslashes (isRun : EscapedRun ends [] run) : Even run.backslashes := by
  induction isRun with
  | nil => exact Even.zero
  | @escape c rest _ _ ih => exact (Text.even_backslashes_pair c rest).mpr ih
  | @plain c rest plain _ _ ih => exact (Text.even_backslashes_cons plain rest).mpr ih

/-- Inside a run a delimiter has an odd number of backslashes before it. -/
theorem EscapedRun.not_even_backslashes (noEscape : '\\' ∉ ends) (isRun : EscapedRun ends [] run)
    {before after : Text} {c : Char} (split : run = before ++ c :: after) (isEnd : c ∈ ends) :
    ¬ Even before.backslashes := by
  induction isRun generalizing before with
  | nil => simp at split
  | @escape d rest _ _ ih =>
    cases before with
    | nil =>
      obtain ⟨rfl, -⟩ := List.cons.inj split
      exact absurd isEnd noEscape
    | cons first before =>
      obtain ⟨rfl, tail⟩ := List.cons.inj split
      -- The delimiter is the one that the backslash takes, or stands behind the pair.
      cases before with
      | nil => decide
      | cons second before =>
        obtain ⟨rfl, others⟩ := List.cons.inj tail
        rw [Text.even_backslashes_pair]
        exact ih others
  | @plain d rest plain free _ ih =>
    cases before with
    | nil =>
      obtain ⟨rfl, -⟩ := List.cons.inj split
      exact absurd isEnd free
    | cons first before =>
      obtain ⟨rfl, tail⟩ := List.cons.inj split
      rw [Text.even_backslashes_cons plain]
      exact ih tail

/-- So a delimiter that counts does not come before the end of the run. -/
theorem EscapedRun.isPrefix_before (noEscape : '\\' ∉ ends) (isRun : EscapedRun ends [] run)
    {tail before after : Text} {c : Char} (split : run ++ tail = before ++ c :: after)
    (isEnd : c ∈ ends) (even : Even before.backslashes) : run <+: before := by
  rcases List.append_eq_append_iff.mp split with ⟨more, rfl, -⟩ | ⟨more, rfl, rest⟩
  · exact List.prefix_append run more
  · cases more with
    | nil => simp
    | cons d more =>
      obtain ⟨rfl, -⟩ := List.cons.inj rest
      exact absurd even (isRun.not_even_backslashes noEscape rfl isEnd)

/-! ### The delimiters of a source -/

/-- The places, from the start on, of the delimiters that have an even number of backslashes
    right before them.  Backslashes before the start are not counted. -/
def delimiters (ends : List Char) (source : Text) (start : Nat) : Set Nat :=
  {stop | ∃ (before : Text) (c : Char) (after : Text),
    source.dropBytes? start = some (before ++ c :: after) ∧ c ∈ ends ∧
      Even before.backslashes ∧ stop = start + before.byteSize}

/-- From the start on, the source ends with an odd number of backslashes. -/
def Dangles (source : Text) (start : Nat) : Prop :=
  ∃ rest, source.dropBytes? start = some rest ∧ Odd rest.backslashes

section Delimiters

variable {source : Text} {start : Nat} (noEscape : '\\' ∉ ends) (isRun : EscapedRun ends [] run)

include noEscape isRun

theorem isLeast_delimiters {c : Char} {back : Text} (isEnd : c ∈ ends)
    (ahead : source.dropBytes? start = some (run ++ c :: back)) :
    IsLeast (delimiters ends source start) (start + run.byteSize) := by
  constructor
  · exact ⟨run, c, back, ahead, isEnd, isRun.even_backslashes, rfl⟩
  · rintro _ ⟨before, d, after, ahead', isEnd', even, rfl⟩
    have split := Option.some.inj (ahead.symm.trans ahead')
    obtain ⟨more, rfl⟩ := isRun.isPrefix_before noEscape split isEnd' even
    rw [Text.byteSize_append]
    omega

theorem delimiters_eq_empty {tail : Text} (ahead : source.dropBytes? start = some (run ++ tail))
    (free : ∀ c ∈ tail, c ∉ ends) : delimiters ends source start = ∅ := by
  apply Set.eq_empty_of_forall_notMem
  rintro _ ⟨before, d, after, ahead', isEnd, even, rfl⟩
  have split := Option.some.inj (ahead.symm.trans ahead')
  obtain ⟨more, rfl⟩ := isRun.isPrefix_before noEscape split isEnd even
  rw [List.append_assoc] at split
  refine free d ?_ isEnd
  rw [List.append_cancel_left split]
  simp

end Delimiters

/-! ### Where a run goes -/

/-- Where a run fails, a backslash is left over. -/
theorem exists_run_of_none {rest : Text} (missing : runLength? ends rest = none) :
    ∃ run, EscapedRun ends [] run ∧ rest = run ++ ['\\'] := by
  fun_induction runLength? ends rest with
  | case1 => cases missing
  | case2 => exact ⟨[], .nil, rfl⟩
  | case3 c rest ih =>
    obtain ⟨run, isRun, rfl⟩ := ih (Option.map_eq_none_iff.mp missing)
    exact ⟨'\\' :: c :: run, .escape List.not_mem_nil isRun, rfl⟩
  | case4 => cases missing
  | case5 c rest single pair free ih =>
    obtain ⟨run, isRun, rfl⟩ := ih (Option.map_eq_none_iff.mp missing)
    exact ⟨c :: run, .plain (ne_backslash single pair) free isRun, rfl⟩

/-- A run goes up to the first delimiter that counts, or else to the end of the source, where
    it fails if a backslash is left over. -/
theorem run_cases (noEscape : '\\' ∉ ends) {source rest : Text} {start : Nat}
    (ahead : source.dropBytes? start = some rest) :
    (∃ run, ∃ c ∈ ends, ∃ back values, rest = run ++ c :: back ∧
      IsLeast (delimiters ends source start) (start + run.byteSize) ∧
      (many (escapedOr (ends.map ([·])))).Yields start run (c :: back) values) ∨
    (delimiters ends source start = ∅ ∧ ¬ Dangles source start ∧
      ∃ values, (many (escapedOr (ends.map ([·])))).Yields start rest [] values) ∨
    (delimiters ends source start = ∅ ∧ Dangles source start ∧
      many (escapedOr (ends.map ([·]))) ⟨start, .chars rest⟩ =
        .fail ⟨.anyChar, start + rest.byteSize⟩) := by
  cases found : runLength? ends rest with
  | none =>
    have failed := many_escapedOr_of_none found start
    obtain ⟨run, isRun, rfl⟩ := exists_run_of_none found
    -- What is behind the run is a backslash, and no delimiter is one.
    have free : ∀ c ∈ ['\\'], c ∉ ends := by simpa using noEscape
    have odd : Odd (run ++ ['\\']).backslashes := by
      rw [Text.backslashes_concat]
      exact isRun.even_backslashes.add_one
    exact .inr (.inr ⟨delimiters_eq_empty noEscape isRun ahead free, ⟨_, ahead, odd⟩, failed⟩)
  | some n =>
    obtain ⟨run, back, values, rfl, rfl, yields⟩ := many_escapedOr_of_some noEscape found start
    have isRun := yields.meets (meets_escapedOr ends)
    have stops := drop_of_runLength? found
    rw [List.drop_left] at stops
    rcases stops with rfl | ⟨c, isEnd, back, rfl⟩
    · have paired : ¬ Dangles source start := by
        rintro ⟨rest, ahead', odd⟩
        rw [Option.some.inj (ahead'.symm.trans ahead), List.append_nil] at odd
        exact Nat.not_even_iff_odd.mpr odd isRun.even_backslashes
      refine .inr (.inl ⟨delimiters_eq_empty noEscape isRun ahead (by simp), paired, values, ?_⟩)
      rwa [List.append_nil]
    · exact .inl ⟨run, c, isEnd, back, values, rfl,
        isLeast_delimiters noEscape isRun isEnd ahead, yields⟩

section Run

variable {source : Text} {start : Nat} (noEscape : '\\' ∉ ends)
  (boundary : source.IsBoundary start)

include noEscape boundary

/-- The same with places in the source. -/
theorem runAt_cases :
    (∃ stop values, IsLeast (delimiters ends source start) stop ∧
      (many (escapedOr (ends.map ([·])))).runAt source start =
        .ok values (.ofOffset source stop)) ∨
    (delimiters ends source start = ∅ ∧ ¬ Dangles source start ∧
      ∃ values, (many (escapedOr (ends.map ([·])))).runAt source start =
        .ok values (.ofOffset source source.byteSize)) ∨
    (delimiters ends source start = ∅ ∧ Dangles source start ∧
      (many (escapedOr (ends.map ([·])))).runAt source start =
        .fail ⟨.anyChar, source.byteSize⟩) := by
  obtain ⟨rest, ahead⟩ := Option.isSome_iff_exists.mp boundary
  have size : start + rest.byteSize = source.byteSize := by
    obtain ⟨front, rfl, rfl⟩ := Text.exists_append_of_dropBytes? ahead
    rw [Text.byteSize_append]
  rcases run_cases noEscape ahead with
    ⟨run, c, -, back, values, rfl, least, yields⟩ | ⟨empty, paired, values, yields⟩ |
      ⟨empty, dangles, failed⟩
  · exact .inl ⟨_, values, least, yields.runAt ahead⟩
  · refine .inr (.inl ⟨empty, paired, values, ?_⟩)
    rw [← List.append_nil rest] at ahead
    rw [← size]
    exact yields.runAt ahead
  · refine .inr (.inr ⟨empty, dangles, ?_⟩)
    rw [runAt, Cursor.ofOffset_of_dropBytes? ahead, failed, size]

theorem run_eq_ok_iff (next : Cursor) :
    (∃ values, (many (escapedOr (ends.map ([·])))).runAt source start = .ok values next) ↔
      ∃ stop, next = .ofOffset source stop ∧ (IsLeast (delimiters ends source start) stop ∨
        delimiters ends source start = ∅ ∧ ¬ Dangles source start ∧ stop = source.byteSize) := by
  rcases runAt_cases noEscape boundary with
    ⟨stop, values, least, done⟩ | ⟨empty, paired, values, done⟩ | ⟨empty, dangles, failed⟩
  · rw [done]
    constructor
    · rintro ⟨_, ⟨⟩⟩
      exact ⟨stop, rfl, .inl least⟩
    · rintro ⟨other, rfl, other_least | ⟨empty, -, -⟩⟩
      · rw [least.unique other_least]
        exact ⟨values, rfl⟩
      · exact absurd empty least.nonempty.ne_empty
  · rw [done]
    constructor
    · rintro ⟨_, ⟨⟩⟩
      exact ⟨source.byteSize, rfl, .inr ⟨empty, paired, rfl⟩⟩
    · rintro ⟨other, rfl, least | ⟨-, -, rfl⟩⟩
      · exact absurd empty least.nonempty.ne_empty
      · exact ⟨values, rfl⟩
  · rw [failed]
    constructor
    · rintro ⟨_, ⟨⟩⟩
    · rintro ⟨other, -, least | ⟨-, paired, -⟩⟩
      · exact absurd empty least.nonempty.ne_empty
      · exact absurd dangles paired

theorem run_eq_fail_iff (failure : Failure) :
    (many (escapedOr (ends.map ([·])))).runAt source start = .fail failure ↔
      failure = ⟨.anyChar, source.byteSize⟩ ∧ delimiters ends source start = ∅ ∧
        Dangles source start := by
  rcases runAt_cases noEscape boundary with
    ⟨stop, values, least, done⟩ | ⟨empty, paired, values, done⟩ | ⟨empty, dangles, failed⟩
  · rw [done]
    constructor
    · rintro ⟨⟩
    · rintro ⟨-, empty, -⟩
      exact absurd empty least.nonempty.ne_empty
  · rw [done]
    constructor
    · rintro ⟨⟩
    · rintro ⟨-, -, dangles⟩
      exact absurd dangles paired
  · rw [failed]
    constructor
    · rintro ⟨⟩
      exact ⟨rfl, empty, dangles⟩
    · rintro ⟨rfl, -, -⟩
      rfl

end Run

/-! ### Between two equal marks -/

theorem byteSize_marked (mark : Char) (content : Text) (start : Nat) :
    start + Text.byteSize (mark :: (content ++ [mark])) =
      start + mark.utf8Size + content.byteSize + mark.utf8Size := by
  rw [Text.byteSize_cons, Text.byteSize_append, Text.byteSize_cons, Text.byteSize_nil]
  omega

section Marks

variable {mark : Char} {source : Text} {start : Nat} (plain : mark ≠ '\\')

include plain

/-- What is read between two marks ends at the first mark that counts. -/
theorem isLeast_of_reads {content : Text} {next : Cursor} (isRun : EscapedRun [mark] [] content)
    (reads : (Cursor.ofOffset source start).Reads (mark :: (content ++ [mark])) next) :
    source.StandsAt start [mark] ∧
      IsLeast (delimiters [mark] source (start + mark.utf8Size))
        (start + mark.utf8Size + content.byteSize) ∧
      next = .ofOffset source (start + mark.utf8Size + content.byteSize + mark.utf8Size) := by
  have noEscape : '\\' ∉ [mark] := by simpa using plain.symm
  have stands : source.StandsAt start ([mark] ++ (content ++ [mark])) :=
    reads.standsAt (List.cons_ne_nil _ _)
  obtain ⟨back, ahead⟩ := stands.right.exists_dropBytes?
  rw [List.append_assoc] at ahead
  refine ⟨stands.left, isLeast_delimiters noEscape isRun List.mem_cons_self ahead, ?_⟩
  rw [← byteSize_marked]
  exact reads.offset_eq ▸ reads.place.1

/-- The first mark that counts ends a run. -/
theorem exists_run_of_isLeast {stop : Nat} (stands : source.StandsAt start [mark])
    (least : IsLeast (delimiters [mark] source (start + mark.utf8Size)) stop) :
    ∃ (content back : Text) (values : List Span),
      source.dropBytes? start = some (mark :: (content ++ [mark]) ++ back) ∧
      stop = start + mark.utf8Size + content.byteSize ∧
      (many (escapedOr [[mark]])).Yields (start + mark.utf8Size) content (mark :: back) values := by
  have noEscape : '\\' ∉ [mark] := by simpa using plain.symm
  have some : delimiters [mark] source (start + mark.utf8Size) ≠ ∅ :=
    least.nonempty.ne_empty
  obtain ⟨front, rest, rfl, rfl⟩ := stands
  have ahead : (front ++ ([mark] ++ rest)).dropBytes? (front.byteSize + mark.utf8Size) =
      .some rest := by
    have cut := Text.dropBytes?_append (front ++ [mark]) rest
    rwa [Text.byteSize_append, List.append_assoc] at cut
  rcases run_cases noEscape ahead with
    ⟨content, c, isEnd, back, values, rfl, least', yields⟩ | ⟨empty, -⟩ | ⟨empty, -⟩
  · obtain rfl := List.mem_singleton.mp isEnd
    refine ⟨content, back, values, ?_, least.unique least', yields⟩
    rw [Text.dropBytes?_append]
    simp
  · exact absurd empty some
  · exact absurd empty some

theorem quoted_eq_ok_iff (node : Node) (next : Cursor) :
    (quoted mark).runAt source start = .ok node next ↔
      source.StandsAt start [mark] ∧
      ∃ stop, IsLeast (delimiters [mark] source (start + mark.utf8Size)) stop ∧
        node = .verbatim ⟨start, stop + mark.utf8Size⟩ ∧
        next = .ofOffset source (stop + mark.utf8Size) := by
  constructor
  · intro read
    obtain ⟨_, reads, ⟨content, isRun, rfl⟩, rfl⟩ := (meets_quoted mark).ok read
    obtain ⟨stands, least, place⟩ := isLeast_of_reads plain isRun reads
    refine ⟨stands, _, least, ?_, place⟩
    rw [Span.ofText, Cursor.offset_ofOffset, byteSize_marked]
  · rintro ⟨stands, stop, least, rfl, rfl⟩
    obtain ⟨content, back, values, ahead, rfl, run⟩ := exists_run_of_isLeast plain stands least
    rw [← byteSize_marked]
    exact (yields_quoted_of_run run).runAt ahead

end Marks

theorem comment_eq_ok_iff {source : Text} {start : Nat} (node : Node) (next : Cursor) :
    comment.runAt source start = .ok node next ↔
      source.StandsAt start ['#'] ∧
      ∃ stop, IsLeast (delimiters ['#'] source (start + 1)) stop ∧
        node = .comment ⟨start + 1, stop⟩ ∧ next = .ofOffset source (stop + 1) := by
  constructor
  · intro read
    obtain ⟨_, reads, derives⟩ := sound_comment.ok read
    cases derives with
    | comment isRun =>
      obtain ⟨stands, least, place⟩ := isLeast_of_reads (by decide) isRun reads
      exact ⟨stands, _, least, rfl, place⟩
  · rintro ⟨stands, stop, least, rfl, rfl⟩
    obtain ⟨content, back, values, ahead, rfl, run⟩ :=
      exists_run_of_isLeast (by decide) stands least
    have done := (yields_comment_of_run run).runAt ahead
    rw [byteSize_marked] at done
    exact done

theorem text_eq_ok_iff {source : Text} {start : Nat} (node : Node) (next : Cursor) :
    text.runAt source start = .ok node next ↔
      (∃ values, (many (escapedOr [['\x7b'], ['<']])).runAt source start = .ok values next) ∧
        start < next.offset ∧ node = .text ⟨start, next.offset⟩ := by
  have filled : ∀ {read : Text}, EscapedItem ['\x7b', '<'] [] read → read ≠ [] := by
    rintro _ (⟨c, -, rfl⟩ | ⟨c, -, -, rfl⟩) <;> simp
  have runs := @many1_eq_ok_iff _ (escapedOr [['\x7b'], ['<']]) _ (.ofOffset source start) next
    (meets_escapedItem ['\x7b', '<'] meets_anyChar) filled
  refine map_spanned_eq_ok_iff.trans ?_
  constructor
  · rintro ⟨values, done, rfl⟩
    obtain ⟨run, moved⟩ := runs.mp done
    exact ⟨⟨values, run⟩, moved, rfl⟩
  · rintro ⟨⟨values, run⟩, moved, rfl⟩
    exact ⟨values, runs.mpr ⟨run, moved⟩, rfl⟩

/-- **Escaped runs stop at the right delimiter.**  Backslashes count from where the run
    starts, and a delimiter counts if the number of them right before it is even.

    * A run ends at the first delimiter that counts.  If there is none, it ends with the
      source, or fails there for want of a character if a backslash is left over.
    * A comment and a string succeed just when, behind their first mark, there is a mark that
      counts, and they end behind the first such mark.
    * Text succeeds just when the run does and goes forward. -/
theorem runs_stop_at_delimiters (source : Text) (start : Nat) :
    (∀ ends : List Char, '\\' ∉ ends → source.IsBoundary start →
      (∀ next, (∃ values,
          (many (escapedOr (ends.map ([·])))).runAt source start = .ok values next) ↔
        ∃ stop, next = .ofOffset source stop ∧ (IsLeast (delimiters ends source start) stop ∨
          delimiters ends source start = ∅ ∧ ¬ Dangles source start ∧ stop = source.byteSize)) ∧
      ∀ failure, (many (escapedOr (ends.map ([·])))).runAt source start = .fail failure ↔
        failure = ⟨.anyChar, source.byteSize⟩ ∧ delimiters ends source start = ∅ ∧
          Dangles source start) ∧
    (∀ node next, comment.runAt source start = .ok node next ↔
      source.StandsAt start ['#'] ∧
      ∃ stop, IsLeast (delimiters ['#'] source (start + 1)) stop ∧
        node = .comment ⟨start + 1, stop⟩ ∧ next = .ofOffset source (stop + 1)) ∧
    (∀ mark, mark ≠ '\\' → ∀ node next, (quoted mark).runAt source start = .ok node next ↔
      source.StandsAt start [mark] ∧
      ∃ stop, IsLeast (delimiters [mark] source (start + mark.utf8Size)) stop ∧
        node = .verbatim ⟨start, stop + mark.utf8Size⟩ ∧
        next = .ofOffset source (stop + mark.utf8Size)) ∧
    ∀ node next, text.runAt source start = .ok node next ↔
      (∃ values, (many (escapedOr [['\x7b'], ['<']])).runAt source start = .ok values next) ∧
        start < next.offset ∧ node = .text ⟨start, next.offset⟩ := by
  refine ⟨?_, comment_eq_ok_iff, ?_, text_eq_ok_iff⟩
  · intro ends noEscape boundary
    exact ⟨run_eq_ok_iff noEscape boundary, run_eq_fail_iff noEscape boundary⟩
  · intro mark plain
    exact quoted_eq_ok_iff plain

/-- The first mark has one backslash before it and does not count, the second has two. -/
theorem runs_stop_at_delimiters_comment :
    '\\' ∉ ['#'] ∧ Text.IsBoundary "#a\\#é\\\\#x" 1 ∧
      comment.runAt "#a\\#é\\\\#x" 0 = .ok (.comment ⟨1, 8⟩) ⟨9, .chars ['x']⟩ ∧
      IsLeast (delimiters ['#'] "#a\\#é\\\\#x" 1) 8 ∧
      ∃ values, (many (escapedOr [['#']])).runAt "#a\\#é\\\\#x" 1 =
        .ok values ⟨8, .chars ['#', 'x']⟩ := by
  have noEscape : '\\' ∉ ['#'] := by decide
  have boundary : Text.IsBoundary "#a\\#é\\\\#x" 1 := by decide
  have read : comment.runAt "#a\\#é\\\\#x" 0 = .ok (.comment ⟨1, 8⟩) ⟨9, .chars ['x']⟩ := by decide +kernel
  have place : (⟨8, .chars ['#', 'x']⟩ : Cursor) = .ofOffset "#a\\#é\\\\#x" 8 := by decide +kernel
  obtain ⟨-, comments, -, -⟩ := runs_stop_at_delimiters "#a\\#é\\\\#x" 0
  obtain ⟨-, stop, least, node, -⟩ := (comments _ _).mp read
  have same : 8 = stop := congrArg Span.stop (Node.comment.inj node)
  rw [← same] at least
  obtain ⟨runs, -, -, -⟩ := runs_stop_at_delimiters "#a\\#é\\\\#x" 1
  obtain ⟨stops, -⟩ := runs ['#'] noEscape boundary
  exact ⟨noEscape, boundary, read, least, (stops _).mpr ⟨8, place, .inl least⟩⟩

end Grammar

end ViewScript
