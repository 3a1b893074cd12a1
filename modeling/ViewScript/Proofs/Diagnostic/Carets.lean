/-
  ViewScript/Proofs/Diagnostic/Carets.lean
  ========================================
  **Carets stand below the place they are about.**

  A failure is shown three times: with the lines around it, with its own line, and as a
  place in a document.  The two excerpts are read here as a reader does, row by row.  A row
  has a gutter and then a text, and the gutters of an excerpt are equally wide.  So a caret
  stands below a character if as many characters are before the one as before the other.

  What stands before the place in its line is told by the text before the place alone.  All
  three displays depend on it in the same way, and so they agree.
-/
import ViewScript.Command.Document
import ViewScript.Proofs.Compile.Slices
import ViewScript.Proofs.Source.Counting

namespace ViewScript

namespace Excerpt

/-! ### What an excerpt shows -/

/-- A gutter of a width: a label, aligned to the right, and a bar. -/
structure IsGutter (width : Nat) (label gutter : Text) : Prop where
  length : gutter.length = width
  aligned : ∃ fill, gutter = Text.blanks fill ++ label ++ "| "

/-- A row that shows a text with a number in the gutter. -/
def Shows (width number : Nat) (text row : Text) : Prop :=
  ∃ gutter, IsGutter width (Text.ofNat number) gutter ∧ row = gutter ++ text

/-- The line with a number; the first line has the number one. -/
def lineOf? (lines : List Text) : Nat → Option Text
  | 0 => none
  | n + 1 => lines[n]?

/-- The text shows the line of the place between `front` and `back`, a caret below the place,
    and the two neighbours of the line as far as there are any. -/
def IsContext (front back text : Text) : Prop :=
  let lines := (front ++ back).splitOn '\n'
  let place := front.endPlace
  ∃ (width : Nat) (previous next : List Text) (gutter margin : Text),
    text.splitOn '\n' = previous ++
      (gutter ++ (front.lastLine ++ back.takeWhile (· ≠ '\n'))) ::
      (margin ++ (Text.blanks (place.column - 1) ++ "^")) :: next ∧
    lineOf? lines place.line = some (front.lastLine ++ back.takeWhile (· ≠ '\n')) ∧
    IsGutter width (Text.ofNat place.line) gutter ∧ IsGutter width "" margin ∧
    front.lastLine.length = place.column - 1 ∧
    List.Forall₂ (Shows width (place.line - 1)) (lineOf? lines (place.line - 1)).toList previous ∧
    List.Forall₂ (Shows width (place.line + 1)) (lineOf? lines (place.line + 1)).toList next

/-- The text tells what was expected and the place between `front` and `back`, quotes the line
    of the place and has a caret below the place. -/
def IsDetailed (front back expected text : Text) : Prop :=
  let place := Text.ofNat front.endPlace.line ++ ":" ++ Text.ofNat front.endPlace.column
  ∃ rows margin : Text,
    text = "Parse error: expected " ++ expected ++ " at " ++ place ++ "\n" ++ rows ∧
    rows.splitOn '\n' =
      [place ++ " " ++ front.lastLine ++ back.takeWhile (· ≠ '\n'), margin ++ "^"] ∧
    margin = Text.blanks (place ++ " " ++ front.lastLine).length

/-! ### Gutters -/

theorem isGutter_alignRight {width : Nat} {label : Text} (fits : label.length + 2 ≤ width) :
    IsGutter width label (Text.alignRight width (label ++ "| ")) := by
  have bar : ("| " : Text).length = 2 := rfl
  constructor
  · simp only [Text.alignRight, Text.blanks, List.length_append, List.length_replicate, bar]
    omega
  · exact ⟨width - (label ++ "| ").length, by rw [Text.alignRight, List.append_assoc]⟩

/-- A larger number has no fewer digits. -/
theorem length_ofNat_mono {m n : Nat} (le : m ≤ n) :
    (Text.ofNat m).length ≤ (Text.ofNat n).length := by
  have positive : 0 < (Nat.toDigits 10 n).length := Nat.length_toDigits_pos
  have bound : n < 10 ^ (Nat.toDigits 10 n).length :=
    (Nat.length_toDigits_le_iff (by decide) positive).mp (Nat.le_refl _)
  exact (Nat.length_toDigits_le_iff (by decide) positive).mpr (Nat.lt_of_le_of_lt le bound)

theorem break_notMem_ofNat (n : Nat) : '\n' ∉ Text.ofNat n := by
  intro member
  have digit := Nat.isDigit_of_mem_toDigits (by decide) (by decide) member
  exact absurd digit (by decide)

theorem break_notMem_blanks (n : Nat) : '\n' ∉ Text.blanks n := by
  simp [Text.blanks, List.mem_replicate]

theorem IsGutter.break_notMem {width : Nat} {label gutter : Text}
    (isGutter : IsGutter width label gutter) (oneLine : '\n' ∉ label) : '\n' ∉ gutter := by
  obtain ⟨fill, rfl⟩ := isGutter.aligned
  simp only [List.mem_append, not_or]
  exact ⟨⟨break_notMem_blanks fill, oneLine⟩, by decide⟩

/-! ### The place in a padded source -/

theorem lineOf?_splitOn (source : Text) (n : Nat) :
    lineOf? (source.splitOn '\n') n = (LineIndex.ofSource source).line? n := by
  cases n with
  | zero => rfl
  | succ n => rw [LineIndex.line?_ofSource, lineOf?]

theorem break_notMem_lineOf? {source line : Text} {n : Nat}
    (found : lineOf? (source.splitOn '\n') n = some line) : '\n' ∉ line := by
  cases n with
  | zero => cases found
  | succ n => exact Text.break_notMem_of_mem_splitOn (List.mem_of_getElem? found)

/-- Past the end blanks lead to the offset, on the last line. -/
theorem le_length_lastLine (source : Text) (count : Nat) :
    count ≤ (source ++ Text.blanks count).lastLine.length := by
  induction count with
  | zero => exact Nat.zero_le _
  | succ count ih =>
    have more : source ++ Text.blanks (count + 1) = source ++ Text.blanks count ++ [' '] := by
      rw [Text.blanks, Text.blanks, List.replicate_succ', List.append_assoc]
    rw [Text.lastLine] at ih ⊢
    rw [more, List.rtakeWhile_concat_pos _ _ _ (by decide), List.length_append]
    exact Nat.add_le_add_right ih 1

/-- A padded source has a character at the offset. -/
theorem exists_padTo {source : Text} {offset : Nat}
    (reachable : source.IsBoundary offset ∨ source.byteSize ≤ offset) :
    ∃ (front back : Text) (c : Char), padTo source offset = front ++ c :: back ∧
      front.byteSize = offset ∧
      (offset < source.byteSize → padTo source offset = source) ∧
      (source.byteSize + lastColumn ≤ offset → lastColumn < front.endPlace.column) := by
  by_cases past : source.byteSize ≤ offset
  · refine ⟨source ++ Text.blanks (offset - source.byteSize), [], ' ', ?_, ?_, ?_, ?_⟩
    · have count : offset + 1 - source.byteSize = offset - source.byteSize + 1 := by omega
      rw [padTo, count, Text.blanks, Text.blanks, List.replicate_succ', List.append_assoc]
    · rw [Text.byteSize_append, byteSize_blanks]
      omega
    · intro before
      omega
    · intro far
      have long := le_length_lastLine source (offset - source.byteSize)
      simp only [Text.endPlace]
      omega
  · have boundary := reachable.resolve_right past
    obtain ⟨front, back, rfl, rfl⟩ := boundary.exists_append
    rw [Text.byteSize_append] at past
    cases back with
    | nil => simp at past
    | cons c back =>
      have none : front.byteSize + 1 - (front ++ c :: back).byteSize = 0 := by
        rw [Text.byteSize_append]
        omega
      have same : padTo (front ++ c :: back) front.byteSize = front ++ c :: back := by
        rw [padTo, none, Text.blanks, List.replicate_zero, List.append_nil]
      refine ⟨front, back, c, same, rfl, fun _ => same, ?_⟩
      rw [Text.byteSize_append]
      omega

theorem exists_padTo_append (front back : Text) :
    ∃ c rest, padTo (front ++ back) front.byteSize = front ++ c :: rest := by
  have filled : back ++ Text.blanks (front.byteSize + 1 - (front ++ back).byteSize) ≠ [] := by
    cases back with
    | nil => simp [Text.blanks]
    | cons c back => exact List.cons_ne_nil _ _
  obtain ⟨c, rest, same⟩ := List.exists_cons_of_ne_nil filled
  exact ⟨c, rest, by rw [padTo, List.append_assoc, same]⟩

/-! ### The lines around a place -/

section Context

variable (front back : Text)

/-- The width of the gutters around a place. -/
def gutterWidth : Nat := (Text.ofNat (front.endPlace.line + 1)).length + 2

/-- The row of a line, if there is such a line. -/
def neighbour (n : Nat) : List Text :=
  (lineOf? ((front ++ back).splitOn '\n') n).toList.map (numbered (gutterWidth front) n)

/-- The rows of an excerpt around a place. -/
def contextRows : List Text :=
  neighbour front back (front.endPlace.line - 1) ++
    numbered (gutterWidth front) front.endPlace.line
      (front.lastLine ++ back.takeWhile (· ≠ '\n')) ::
    (Text.alignRight (gutterWidth front) "| " ++ Text.alignRight front.endPlace.column "^") ::
    neighbour front back (front.endPlace.line + 1)

theorem isGutter_numbered {n : Nat} (near : n ≤ front.endPlace.line + 1) :
    IsGutter (gutterWidth front) (Text.ofNat n)
      (Text.alignRight (gutterWidth front) (Text.ofNat n ++ "| ")) :=
  isGutter_alignRight (Nat.add_le_add_right (length_ofNat_mono near) 2)

theorem isGutter_margin :
    IsGutter (gutterWidth front) "" (Text.alignRight (gutterWidth front) "| ") :=
  isGutter_alignRight (Nat.le_add_left 2 _)

theorem forall_shows_neighbour {n : Nat} (near : n ≤ front.endPlace.line + 1) :
    List.Forall₂ (Shows (gutterWidth front) n) (lineOf? ((front ++ back).splitOn '\n') n).toList
      (neighbour front back n) := by
  refine List.forall₂_map_right_iff.mpr (List.forall₂_same.mpr fun line _ => ?_)
  exact ⟨_, isGutter_numbered front near, rfl⟩

theorem break_notMem_numbered {n : Nat} {text : Text} (near : n ≤ front.endPlace.line + 1)
    (oneLine : '\n' ∉ text) : '\n' ∉ numbered (gutterWidth front) n text := by
  rw [numbered, List.mem_append, not_or]
  exact ⟨(isGutter_numbered front near).break_notMem (break_notMem_ofNat n), oneLine⟩

theorem break_notMem_neighbour {n : Nat} (near : n ≤ front.endPlace.line + 1) :
    ∀ row ∈ neighbour front back n, '\n' ∉ row := by
  intro row member
  obtain ⟨line, isLine, rfl⟩ := List.mem_map.mp member
  exact break_notMem_numbered front near (break_notMem_lineOf? (Option.mem_toList.mp isLine))

theorem lineOf?_endPlace :
    lineOf? ((front ++ back).splitOn '\n') front.endPlace.line =
      some (front.lastLine ++ back.takeWhile (· ≠ '\n')) := by
  rw [lineOf?_splitOn, LineIndex.line?_endPlace]

/-- The caret at the end of blanks. -/
theorem alignRight_caret :
    Text.alignRight front.endPlace.column "^" = Text.blanks (front.endPlace.column - 1) ++ "^" := rfl

theorem break_notMem_contextRows : ∀ row ∈ contextRows front back, '\n' ∉ row := by
  intro row member
  simp only [contextRows, List.mem_append, List.mem_cons] at member
  rcases member with before | rfl | rfl | after
  · exact break_notMem_neighbour front back (by omega) row before
  · exact break_notMem_numbered front (Nat.le_succ _)
      (break_notMem_lineOf? (lineOf?_endPlace front back))
  · rw [alignRight_caret]
    simp only [List.mem_append, not_or]
    exact ⟨(isGutter_margin front).break_notMem (by decide), break_notMem_blanks _, by decide⟩
  · exact break_notMem_neighbour front back (Nat.le_refl _) row after

/-- The rows, with line breaks between them, show the place. -/
theorem isContext_contextRows :
    IsContext front back (['\n'].intercalate (contextRows front back)) := by
  have rows : (['\n'].intercalate (contextRows front back)).splitOn '\n' = contextRows front back :=
    List.splitOn_intercalate '\n' (break_notMem_contextRows front back) (by simp [contextRows])
  refine ⟨gutterWidth front, neighbour front back (front.endPlace.line - 1),
    neighbour front back (front.endPlace.line + 1), _, _, rows, lineOf?_endPlace front back,
    isGutter_numbered front (Nat.le_succ _), isGutter_margin front, rfl, ?_, ?_⟩
  · exact forall_shows_neighbour front back (by omega)
  · exact forall_shows_neighbour front back (Nat.le_refl _)

end Context

/-- The lines around a place are drawn as long as its column is not too large. -/
theorem context?_of_padTo {source front back : Text} {offset : Nat}
    (padded : padTo source offset = front ++ back) (size : front.byteSize = offset)
    (far : source.byteSize + lastColumn ≤ offset → lastColumn < front.endPlace.column) :
    context? source offset =
      if front.endPlace.column ≤ lastColumn then
        some (['\n'].intercalate (contextRows front back))
      else none := by
  subst size
  have place := LineIndex.position?_ofSource_append front back
  have quoted := LineIndex.line?_endPlace front back
  by_cases small : front.endPlace.column ≤ lastColumn
  · have near : front.byteSize < source.byteSize + lastColumn := by
      by_contra past
      have large := far (by omega)
      omega
    have isBreak : ("\n" : Text) = ['\n'] := rfl
    rw [if_pos small]
    simp only [context?, guard, if_pos near, padded, place, if_pos small, quoted, Option.pure_def,
      Option.bind_eq_bind, Option.bind_some, Option.getD_some, contextRows, neighbour,
      lineOf?_splitOn]
    cases (LineIndex.ofSource (front ++ back)).line? (front.endPlace.line - 1) <;>
      cases (LineIndex.ofSource (front ++ back)).line? (front.endPlace.line + 1) <;>
      simp [isBreak, List.intercalate, gutterWidth]
  · rw [if_neg small]
    by_cases near : front.byteSize < source.byteSize + lastColumn
    · simp [context?, near, padded, place, small, guard]
    · simp only [context?, guard, if_neg near]
      rfl

example : context? "ab\ncd\ne" 4 = some "1| ab\n2| cd\n |  ^\n3| e" := by decide +kernel

/-! ### The line of a place -/

theorem detailed?_append (front back : Text) (c : Char) (expected : Text) :
    ∃ text, detailed? (front ++ c :: back) front.byteSize expected = some text ∧
      IsDetailed front (c :: back) expected text := by
  have inside : ¬ (front ++ c :: back).byteSize ≤ front.byteSize := by
    have positive := c.utf8Size_pos
    rw [Text.byteSize_append, Text.byteSize_cons]
    omega
  have place := LineIndex.position?_ofSource_append front (c :: back)
  have quoted := LineIndex.line?_endPlace front (c :: back)
  generalize isPlace : Text.ofNat front.endPlace.line ++ ":" ++ Text.ofNat front.endPlace.column =
    words
  have oneWord : '\n' ∉ words := by
    rw [← isPlace]
    simp only [List.mem_append, not_or]
    exact ⟨⟨break_notMem_ofNat _, by decide⟩, break_notMem_ofNat _⟩
  generalize isMargin : Text.blanks (words ++ " " ++ front.lastLine).length = margin
  let rows : List Text :=
    [words ++ " " ++ front.lastLine ++ (c :: back).takeWhile (· ≠ '\n'), margin ++ "^"]
  refine ⟨"Parse error: expected " ++ expected ++ " at " ++ words ++ "\n" ++
    ['\n'].intercalate rows, ?_, ['\n'].intercalate rows, margin, ?_, ?_, ?_⟩
  · have caret : words.length + front.endPlace.column =
        (words ++ " " ++ front.lastLine).length := by
      simp only [List.length_append, Text.endPlace]
      have blank : (" " : Text).length = 1 := rfl
      omega
    have isBreak : ("\n" : Text) = ['\n'] := rfl
    simp only [detailed?, if_neg inside, place, quoted, Option.pure_def, Option.bind_eq_bind,
      Option.bind_some, Option.getD_some, isPlace, caret, isMargin]
    simp [rows, isBreak, List.intercalate]
  · rw [isPlace]
  · rw [isPlace]
    refine List.splitOn_intercalate '\n' ?_ (by simp [rows])
    have oneLine := break_notMem_lineOf? (lineOf?_endPlace front (c :: back))
    intro row member
    rcases List.mem_cons.mp member with rfl | last
    · rw [List.append_assoc]
      simp only [List.mem_append, not_or] at oneLine ⊢
      exact ⟨⟨oneWord, by decide⟩, oneLine⟩
    · rw [List.mem_singleton.mp last, ← isMargin]
      simp only [List.mem_append, not_or]
      exact ⟨break_notMem_blanks _, by decide⟩
  · rw [isPlace, isMargin]

end Excerpt

/-! ### Failures -/

/-- The excerpts of a syntax error are those of its failure. -/
theorem excerpts_of_compile {names : RuntimeNames} {source : Text} {failure : Failure}
    {error : SyntaxError} (failed : parse source = .error failure)
    (compiled : compile names source = .error (.invalid error)) :
    error.failure = failure ∧
      Excerpt.detailed? source failure.position failure.expected.describe = some error.detailed ∧
      Excerpt.context? source failure.position = some error.context := by
  have shown : SourceError.ofFailure source failure = .invalid error := by
    have run : compile names source = .error (.ofFailure source failure) := by
      rw [compile, check, failed]
      rfl
    exact Except.error.inj (run.symm.trans compiled)
  unfold SourceError.ofFailure at shown
  split at shown
  next found =>
    obtain rfl := SourceError.invalid.inj shown
    obtain ⟨detailed, isDetailed, rest⟩ := Option.bind_eq_some_iff.mp found
    obtain ⟨context, isContext, same⟩ := Option.bind_eq_some_iff.mp rest
    obtain rfl := Option.some.inj same
    exact ⟨rfl, isDetailed, isContext⟩
  next => cases shown

open Excerpt in
/-- The excerpts of a syntax error show the place of its failure. -/
theorem shows_of_compile {names : RuntimeNames} {front back : Text} {failure : Failure}
    {error : SyntaxError} (failed : parse (front ++ back) = .error failure)
    (size : front.byteSize = failure.position) (small : front.endPlace.column ≤ lastColumn)
    (compiled : compile names (front ++ back) = .error (.invalid error)) :
    (∃ c rest, padTo (front ++ back) failure.position = front ++ c :: rest ∧
      IsContext front (c :: rest) error.context) ∧
    (back ≠ [] → IsDetailed front back error.expected error.detailed) := by
  obtain ⟨rfl, isDetailed, isContext⟩ := excerpts_of_compile failed compiled
  constructor
  · obtain ⟨c, rest, padded⟩ := exists_padTo_append front back
    rw [size] at padded
    have drawn := context?_of_padTo padded size fun far => by
      have inside : error.failure.position ≤ (front ++ back).byteSize :=
        (isBoundary_of_parse_error failed).le_byteSize
      have positive : 0 < lastColumn := by decide
      omega
    rw [if_pos small, isContext] at drawn
    refine ⟨c, rest, padded, ?_⟩
    rw [Option.some.inj drawn]
    exact isContext_contextRows front (c :: rest)
  · intro more
    obtain ⟨c, rest, rfl⟩ := List.exists_cons_of_ne_nil more
    obtain ⟨text, isText, shows⟩ := detailed?_append front rest c error.expected
    rw [size] at isText
    obtain rfl := Option.some.inj (isText.symm.trans isDetailed)
    exact shows

theorem position?_of_byteSize_eq {front back : Text} {offset : Nat}
    (size : front.byteSize = offset) : (front ++ back).position? offset = some front.endPlace := by
  rw [← size]
  exact LineIndex.position?_append front back

/-- The place of a syntax error in a document. -/
theorem toJson_invalidSource {front back : Text} {error : SyntaxError}
    (size : front.byteSize = error.position) (path : Path) :
    (Error.invalidSource path (front ++ back) error).toJson =
      .object [Json.member "message" (.string error.detailed),
        Json.member "expected" (.string error.expected),
        Json.member "position" (.ofNat error.position),
        Json.member "line" (.ofNat front.endPlace.line),
        Json.member "column" (.ofNat front.endPlace.column)] := by
  simp only [Error.toJson, Error.syntaxError?, position?_of_byteSize_eq size, Option.map_some, Json.optionalMember]
  rfl

open Excerpt in
/-- **Carets stand below the place they are about, and all reports agree.**  At an offset that
    is a boundary or past the end stands a character of the padded source.  The lines around
    the offset are shown with a caret below this character, unless its column is larger than
    the last one that a caret can stand in.  Before the end the line of the offset is quoted
    with a caret below the character, and the place is told.  For a source that is no program
    the place in a document is the one of both excerpts. -/
theorem carets_point (source : Text) :
    (∀ offset expected, source.IsBoundary offset ∨ source.byteSize ≤ offset →
      ∃ (front back : Text) (c : Char), padTo source offset = front ++ c :: back ∧
        front.byteSize = offset ∧
        (if front.endPlace.column ≤ lastColumn then
          ∃ text, context? source offset = some text ∧ IsContext front (c :: back) text
        else context? source offset = none) ∧
        (offset < source.byteSize → source = front ++ c :: back ∧
          ∃ text, detailed? source offset expected = some text ∧
            IsDetailed front (c :: back) expected text)) ∧
    ∀ (names : RuntimeNames) (path : Path) (failure : Failure), parse source = .error failure →
      ∃ front back, source = front ++ back ∧ front.byteSize = failure.position ∧
        if front.endPlace.column ≤ lastColumn then
          ∃ error, compile names source = .error (.invalid error) ∧ error.failure = failure ∧
            (∃ c rest, padTo source failure.position = front ++ c :: rest ∧
              IsContext front (c :: rest) error.context) ∧
            (back ≠ [] → IsDetailed front back error.expected error.detailed) ∧
            (Error.invalidSource path source error).toJson =
              .object [Json.member "message" (.string error.detailed),
                Json.member "expected" (.string error.expected),
                Json.member "position" (.ofNat error.position),
                Json.member "line" (.ofNat front.endPlace.line),
                Json.member "column" (.ofNat front.endPlace.column)]
        else compile names source = .error (.unshowable failure) := by
  constructor
  · intro offset expected reachable
    obtain ⟨front, back, c, padded, size, whole, far⟩ := exists_padTo reachable
    refine ⟨front, back, c, padded, size, ?_, ?_⟩
    · rw [context?_of_padTo padded size far]
      split
      · exact ⟨_, rfl, isContext_contextRows front (c :: back)⟩
      · rfl
    · intro before
      have same := (whole before).symm.trans padded
      refine ⟨same, ?_⟩
      rw [same, ← size]
      exact detailed?_append front back c expected
  · intro names path failure failed
    have boundary := isBoundary_of_parse_error failed
    obtain ⟨front, back, rfl, size⟩ := boundary.exists_append
    refine ⟨front, back, rfl, size, ?_⟩
    have compiled := compile_of_parse_error names failed (position?_of_byteSize_eq size)
    split
    next small =>
      rw [if_pos small] at compiled
      obtain ⟨error, compiled, rfl⟩ := compiled
      obtain ⟨isContext, isDetailed⟩ := shows_of_compile failed size small compiled
      exact ⟨error, compiled, rfl, isContext, isDetailed, toJson_invalidSource size path⟩
    next large => rwa [if_neg large] at compiled

/-! ### A failure in a column that is too large -/

/-- The place at the end of a line that opens a bracket. -/
theorem endPlace_open_paren {n : Nat} {front back rest : Text}
    (split : '(' :: Text.blanks n ++ rest = front ++ back) (size : front.byteSize = n + 1) :
    front.endPlace.column = n + 2 := by
  obtain ⟨rfl, -⟩ :=
    Text.append_inj_of_byteSize split ((byteSize_open_paren n).trans size.symm)
  have oneLine : '\n' ∉ '(' :: Text.blanks n := by simp [Text.blanks, List.mem_replicate]
  simp only [Text.endPlace, Text.lastLine_eq_self oneLine]
  simp [Text.blanks]

/-- In a line with an open bracket and 65534 blanks the caret would have to stand in the
    column 65536, and there is no excerpt and no syntax error. -/
theorem carets_point_far :
    let source : Text := '(' :: Text.blanks 65534
    let failure : Failure := ⟨.word [')'], 65535⟩
    source.byteSize ≤ 65535 ∧ Excerpt.context? source 65535 = none ∧
      parse source = .error failure ∧
      compile {} source = .error (.unshowable failure) := by
  intro source failure
  obtain ⟨drawn, failing⟩ := carets_point source
  have past : source.byteSize ≤ 65535 := Nat.le_of_eq (byteSize_open_paren 65534)
  have failed : parse source = .error failure := parse_open_paren 65534
  have tooFar : ¬ 65534 + 2 ≤ Excerpt.lastColumn := by decide
  refine ⟨past, ?_, failed, ?_⟩
  · obtain ⟨front, back, c, padded, size, context, -⟩ := drawn 65535 "" (.inr past)
    rwa [endPlace_open_paren padded size, if_neg tooFar] at context
  · obtain ⟨front, back, split, size, compiled⟩ := failing {} "" failure failed
    have place := endPlace_open_paren ((List.append_nil source).trans split) size
    rw [if_neg (place ▸ tooFar)] at compiled
    exact compiled

end ViewScript
