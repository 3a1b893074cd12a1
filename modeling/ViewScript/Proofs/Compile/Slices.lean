/-
  ViewScript/Proofs/Compile/Slices.lean
  =====================================
  **Nothing that compiling reads lies outside the source or splits a character.**

  The source is read in few places.  Code is generated from the spans of the tree.  A
  failure is shown with the line it stands on, the lines around it and its place, and
  a report marks the character there.  Each of these stretches lies within the source.

  There is one way left in which a failure cannot be shown: its column is too large
  for the excerpt.
-/
import Mathlib.Data.Option.Basic
import ViewScript.Proofs.Grammar.Execution
import ViewScript.Proofs.Grammar.Yield
import ViewScript.Proofs.Source.Lines
import ViewScript.Project.Error

namespace ViewScript

/-! ### Code -/

section Readable

variable (names : RuntimeNames) {source : Text}

mutual

theorem readable_of_within (node : Node) (within : ∀ span ∈ node.spans, span.Within source) :
    readable names source node = true := by
  match node with
  | .verbatim span => exact (within span (List.mem_singleton_self span)).isValid
  | .code span => exact (within span (List.mem_singleton_self span)).isValid
  | .comment span => exact (within span (List.mem_singleton_self span)).isValid
  | .text span => exact (within span (List.mem_singleton_self span)).isValid
  | .group _ body => exact allReadable_of_within body within
  | .interpolation body => exact allReadable_of_within body within
  | .reference tag => exact tagReadable_of_within tag within
  | .selfClosing tag argument =>
    obtain ⟨ofTag, ofArgument⟩ := List.forall_mem_append.mp within
    simp only [readable, Bool.and_eq_true]
    exact ⟨tagReadable_of_within tag ofTag, argumentReadable_of_within argument ofArgument⟩
  | .element tag attributes children =>
    obtain ⟨ofTag, others⟩ := List.forall_mem_append.mp within
    obtain ⟨ofAttributes, ofChildren⟩ := List.forall_mem_append.mp others
    simp only [readable, Bool.and_eq_true]
    exact ⟨⟨tagReadable_of_within tag ofTag, attributesReadable_of_within attributes ofAttributes⟩,
      allReadable_of_within children ofChildren⟩
  | .fragment children => exact allReadable_of_within children within

theorem allReadable_of_within (nodes : List Node)
    (within : ∀ span ∈ spansOf nodes, span.Within source) :
    allReadable names source nodes = true := by
  match nodes with
  | [] => rfl
  | node :: nodes =>
    obtain ⟨first, others⟩ := List.forall_mem_append.mp within
    simp only [allReadable, Bool.and_eq_true]
    exact ⟨readable_of_within node first, allReadable_of_within nodes others⟩

theorem tagReadable_of_within (tag : Tag Node)
    (within : ∀ span ∈ tagSpans tag, span.Within source) : tagReadable names source tag = true := by
  match tag with
  | ⟨leading, name, trailing⟩ =>
    obtain ⟨ofLeading, others⟩ := List.forall_mem_append.mp within
    obtain ⟨ofName, ofTrailing⟩ := List.forall_mem_append.mp others
    simp only [tagReadable, Bool.and_eq_true]
    exact ⟨⟨allReadable_of_within leading ofLeading, readable_of_within name ofName⟩,
      allReadable_of_within trailing ofTrailing⟩

theorem argumentReadable_of_within (argument : Argument Node)
    (within : ∀ span ∈ argumentSpans argument, span.Within source) :
    argumentReadable names source argument = true := by
  match argument with
  | .attributes attributes => exact attributesReadable_of_within attributes within
  | .expression value => exact readable_of_within value within

theorem attributesReadable_of_within (attributes : List (Attribute Node))
    (within : ∀ span ∈ attributesSpans attributes, span.Within source) :
    attributesReadable names source attributes = true := by
  match attributes with
  | [] => rfl
  | ⟨name, value⟩ :: attributes =>
    obtain ⟨ofName, others⟩ := List.forall_mem_append.mp within
    obtain ⟨ofValue, others⟩ := List.forall_mem_append.mp others
    simp only [attributesReadable, Bool.and_eq_true, Bool.or_eq_true]
    exact ⟨⟨readable_of_within name ofName, Or.inr (valueReadable_of_within value ofValue)⟩,
      attributesReadable_of_within attributes others⟩

theorem valueReadable_of_within (value : Option Node)
    (within : ∀ span ∈ optionSpans value, span.Within source) :
    valueReadable names source value = true := by
  match value with
  | none => rfl
  | some value => exact readable_of_within value within

end

end Readable

theorem within_of_parse {source : Text} {nodes : List Node} (parsed : parse source = .ok nodes)
    {span : Span} (member : span ∈ spansOf nodes) : span.Within source := by
  have tiling : Tiling (Text.byteSize []) source (spansOf nodes) :=
    (derives_of_parse parsed).tiling
  have within := tiling.within [] [] member
  rwa [List.nil_append, List.append_nil] at within

/-! ### Failures -/

/-- Every line that the index knows can be read. -/
def LineIndex.Readable (index : LineIndex) : Prop :=
  ∀ n < index.starts.size, (index.line? (n + 1)).isSome

/-- The stretch that a label marks. -/
def Label.span (label : Label) : Span := ⟨label.offset, label.offset + label.size⟩

/-- What is read of a source to show a failure can be read, and the report of the
    failure marks a stretch of the source. -/
structure Failure.Readable (source : Text) (failure : Failure) : Prop where
  isBoundary : source.IsBoundary failure.position
  lines : (LineIndex.ofSource source).Readable
  paddedLines : (LineIndex.ofSource (Excerpt.padTo source failure.position)).Readable
  detailed : (Excerpt.detailed? source failure.position failure.expected.describe).isSome
  place : (source.position? failure.position).isSome
  paddedPlace : (LineIndex.ofSource (Excerpt.padTo source failure.position)).position?
    failure.position = source.position? failure.position
  labels : ∀ (path : Path) (error : SyntaxError), error.failure = failure →
    ∀ label ∈ (Error.invalidSource path source error).report.labels, label.span.Within source

theorem within_charSizeAt {source : Text} {offset : Nat} (boundary : source.IsBoundary offset) :
    Span.Within source ⟨offset, offset + source.charSizeAt offset⟩ := by
  obtain ⟨front, back, rfl, rfl⟩ := boundary.exists_append
  cases back with
  | nil =>
    have size : (front ++ []).charSizeAt front.byteSize = 0 := by
      rw [Text.charSizeAt, Text.dropBytes?_append]
    rw [size]
    exact Span.within_ofText front [] []
  | cons c back =>
    have size : (front ++ c :: back).charSizeAt front.byteSize = Text.byteSize [c] := by
      simp [Text.charSizeAt]
    rw [size]
    exact Span.within_ofText front [c] back

theorem isSome_detailed? {source : Text} {offset : Nat} (boundary : source.IsBoundary offset)
    (expected : Text) : (Excerpt.detailed? source offset expected).isSome := by
  unfold Excerpt.detailed?
  obtain ⟨place, found⟩ := LineIndex.exists_position? boundary
  split
  · rfl
  · simp only [found]
    rfl

theorem Failure.readable {source : Text} {failure : Failure}
    (boundary : source.IsBoundary failure.position) : failure.Readable source where
  isBoundary := boundary
  lines _ known := LineIndex.isSome_line? _ known
  paddedLines _ known := LineIndex.isSome_line? _ known
  detailed := isSome_detailed? boundary _
  place := by
    obtain ⟨place, found⟩ := LineIndex.exists_position? boundary
    exact Option.isSome_iff_exists.mpr ⟨place, found⟩
  paddedPlace := LineIndex.position?_append_blanks boundary _
  labels := by
    rintro path error rfl label member
    obtain rfl := List.mem_singleton.mp member
    have here : min error.position source.byteSize = error.position :=
      Nat.min_eq_left boundary.le_byteSize
    simp only [Label.span, here]
    exact within_charSizeAt boundary

/-- The excerpt with the lines around a boundary exists as long as the column is not
    too large. -/
theorem isSome_context?_iff {source : Text} {offset : Nat} {place : Position}
    (boundary : source.IsBoundary offset) (found : source.position? offset = some place) :
    (Excerpt.context? source offset).isSome ↔ place.column ≤ Excerpt.lastColumn := by
  have near : offset < source.byteSize + Excerpt.lastColumn :=
    Nat.lt_of_le_of_lt boundary.le_byteSize (Nat.lt_add_of_pos_right (by decide))
  have padded : (LineIndex.ofSource (Excerpt.padTo source offset)).position? offset = some place :=
    (LineIndex.position?_append_blanks boundary _).trans found
  simp only [Excerpt.context?, near, padded]
  by_cases small : place.column ≤ Excerpt.lastColumn
  · simp [small, guard]
  · simp [small, guard]

/-! ### Compiling -/

/-- A source that is no program gives a syntax error as long as the column of the failure
    is not too large. -/
theorem compile_of_parse_error (names : RuntimeNames) {source : Text} {failure : Failure}
    {place : Position} (failed : parse source = .error failure)
    (found : source.position? failure.position = some place) :
    if place.column ≤ Excerpt.lastColumn then
      ∃ error, compile names source = .error (.invalid error) ∧ error.failure = failure
    else compile names source = .error (.unshowable failure) := by
  have boundary := isBoundary_of_parse_error failed
  have exact := isSome_context?_iff boundary found
  obtain ⟨detailed, shown⟩ :=
    Option.isSome_iff_exists.mp (isSome_detailed? boundary failure.expected.describe)
  have compiled : compile names source = .error (.ofFailure source failure) := by
    rw [compile, check, failed]
    rfl
  rw [compiled, SourceError.ofFailure, SyntaxError.ofFailure?, shown]
  split
  next small =>
    obtain ⟨context, drawn⟩ := Option.isSome_iff_exists.mp (exact.mpr small)
    exact ⟨⟨failure, detailed, context⟩, by rw [drawn]; rfl, rfl⟩
  next large =>
    have missing : Excerpt.context? source failure.position = none := by
      rw [← Option.not_isSome_iff_eq_none]
      exact fun drawn => large (exact.mp drawn)
    rw [missing]
    rfl

/-- **Compiling reads whole characters of its source.**  If the source is a program,
    every span of its tree lies within the source, so its code can be generated.  If it
    is none, what is read to show the failure lies within the source as well; there is a
    syntax error unless the column of the failure is too large for the excerpt. -/
theorem compile_reads_within (names : RuntimeNames) (source : Text) :
    match parse source with
    | .ok nodes => (∀ span ∈ spansOf nodes, span.Within source) ∧
      generate? names source nodes = some (renderAll names source nodes) ∧
      compile names source = .ok (renderAll names source nodes)
    | .error failure => failure.Readable source ∧
      ∃ place, source.position? failure.position = some place ∧
        if place.column ≤ Excerpt.lastColumn then
          ∃ error, compile names source = .error (.invalid error) ∧ error.failure = failure
        else compile names source = .error (.unshowable failure) := by
  cases parsed : parse source with
  | ok nodes =>
    have within : ∀ span ∈ spansOf nodes, span.Within source := fun _ => within_of_parse parsed
    refine ⟨within, ?_, ?_⟩
    · rw [generate?, if_pos (allReadable_of_within names nodes within)]
    · rw [compile, check, parsed]
      rfl
  | error failure =>
    have readable := Failure.readable (isBoundary_of_parse_error parsed)
    obtain ⟨place, found⟩ := Option.isSome_iff_exists.mp readable.place
    exact ⟨readable, place, found, compile_of_parse_error names parsed found⟩

/-! ### A failure that cannot be shown -/

section OpenParen

open Grammar ViewScript.Parser

theorem exists_yields_blanks (n : Nat) :
    ∃ nodes, Grammar.expression.Yields 1 (Text.blanks n) [] nodes := by
  cases n with
  | zero =>
    rw [expression_eq]
    exact ⟨[], Declines.many (startsIn_term _ _ trivial)⟩
  | succ n =>
    have isRun : IsRun isCodeChar (' ' :: Text.blanks n) := by
      refine ⟨List.cons_ne_nil _ _, fun c member => ?_⟩
      have isBlank : c ∈ List.replicate (n + 1) ' ' := member
      rw [List.eq_of_mem_replicate isBlank]
      rfl
    exact ⟨_, yields_expression (yields_term_code .closed isRun rfl trivial)
      (List.cons_ne_nil _ _) trivial⟩

theorem byteSize_blanks (n : Nat) : (Text.blanks n).byteSize = n := by
  induction n with
  | zero => rfl
  | succ n ih =>
    have split : Text.blanks (n + 1) = ' ' :: Text.blanks n := rfl
    rw [split, Text.byteSize_cons, ih, Nat.add_comm]
    rfl

/-- A bracket that is never closed is noticed at the end. -/
theorem parse_open_paren (n : Nat) :
    parse ('(' :: Text.blanks n) = .error ⟨.word [')'], n + 1⟩ := by
  let start : Cursor := ⟨0, .chars ('(' :: Text.blanks n)⟩
  let failure : Failure := ⟨.word [')'], n + 1⟩
  have later : failure.position ≠ start.offset := Nat.succ_ne_zero n
  have group : Rules.group .closed .paren start = .fail failure := by
    obtain ⟨nodes, inside⟩ := exists_yields_blanks n
    rw [Yields, List.append_nil, byteSize_blanks, Nat.add_comm] at inside
    exact bind_eq_fail_iff.mpr (.inr ⟨_, _, yields_char '(',
      bind_eq_fail_iff.mpr (.inr ⟨nodes, _, inside, rfl⟩)⟩)
  have noString : ∀ parser ∈ [name, quoted '"', quoted '\'', quoted '\x60'],
      parser.Declines start := by
    intro parser member
    simp only [List.mem_cons, List.not_mem_nil, or_false] at member
    rcases member with rfl | rfl | rfl | rfl
    · exact startsIn_name.declines rfl
    · exact (startsIn_quoted _).declines rfl
    · exact (startsIn_quoted _).declines rfl
    · exact (startsIn_quoted _).declines rfl
  have value : Rules.value .closed start = .fail failure :=
    firstOf_append_eq_fail noString (firstOf_eq_fail group later) later
  have noMark : ∀ parser ∈ marks, parser.Declines start :=
    fun parser member => (startsIn_marks parser member).declines rfl
  have term : Rules.term .closed start = .fail failure := by
    rw [term_eq]
    exact firstOf_append_eq_fail noMark (firstOf_eq_fail value later) later
  have expression : Grammar.expression start = .fail failure := by
    rw [expression_eq]
    exact many_eq_fail term later
  exact parse_eq_error_iff.mpr (bind_eq_fail_iff.mpr (.inl expression))

end OpenParen

theorem byteSize_open_paren (n : Nat) : Text.byteSize ('(' :: Text.blanks n) = n + 1 := by
  rw [Text.byteSize_cons, byteSize_blanks, Nat.add_comm]
  rfl

/-- Failures with large columns exist: a long line with an open bracket. -/
theorem compile_open_paren (names : RuntimeNames) {n : Nat} (long : Excerpt.lastColumn ≤ n + 1) :
    compile names ('(' :: Text.blanks n) = .error (.unshowable ⟨.word [')'], n + 1⟩) := by
  have oneLine : '\n' ∉ '(' :: Text.blanks n := by simp [Text.blanks, List.mem_replicate]
  have found := LineIndex.position?_byteSize oneLine
  rw [byteSize_open_paren, List.length_cons, Text.blanks, List.length_replicate] at found
  have compiled := compile_of_parse_error names (parse_open_paren n) found
  rwa [if_neg (by simp only; omega)] at compiled

end ViewScript
