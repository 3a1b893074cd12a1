/-
  ViewScript/Proofs/Parser/Combinators.lean
  =========================================
  **Parsers that are built from the combinators stay in their text.**

  A choice goes on after a failure *at the start*, and a repetition ends with a run that
  leaves the offset as it was.  Both compare offsets only, so they do what they should only
  if no parser ever reports a place before its start.  That is so for every nesting of the
  combinators, and places are boundaries as long as the start is one.

  One induction over the nesting carries all of it.  Its statement is a contract: a success reads
  some text and every span of the value is a stretch of that text, and a failure is noticed
  where reading can reach.  Offsets, boundaries and the number of runs follow from what it
  means to read.

  The number of runs is counted on the plain loop, which has no bound and so might not end.
-/
import ViewScript.Parser.Pattern
import ViewScript.Proofs.Parser.Locality

namespace ViewScript

variable {α β : Type}

/-! ### Spans in what was read -/

/-- Every span of the value is a stretch of what was read. -/
def Covering (spans : α → List Span) : Contract α := fun offset read _ value =>
  ∀ span ∈ spans value, span.Covers offset read

section Covering

variable {spans : α → List Span} {spans' : β → List Span} {offset : Nat} {read more back : Text}
  {value : α} {value' : β}

theorem covering_append (first : Covering spans offset read (more ++ back) value)
    (second : Covering spans' (offset + read.byteSize) more back value') :
    ∀ span ∈ spans value ++ spans' value', span.Covers offset (read ++ more) := by
  intro span member
  rcases List.mem_append.mp member with member | member
  · exact (first span member).append more
  · exact (second span member).prepend read

theorem covering_nil :
    Covering (fun values : List α => values.flatMap spans) offset [] back [] :=
  fun _ member => nomatch member

theorem covering_cons {values : List α} (first : Covering spans offset read (more ++ back) value)
    (others : Covering (fun values => values.flatMap spans) (offset + read.byteSize) more back
      values) :
    Covering (fun values => values.flatMap spans) offset (read ++ more) back (value :: values) := by
  rw [Covering, List.flatMap_cons]
  exact covering_append first others

end Covering

/-! ### The combinators -/

namespace Parser

/-- Run parsers one after the other and collect their values. -/
def inOrder : List (Parser α) → Parser (List α)
  | [] => pure []
  | part :: parts => do
    let value ← part
    let values ← inOrder parts
    return value :: values

/-- The parsers that can be built from the combinators; `spans` tells which spans are in a
    value.  Parts with values of several types are put in order two by two.  A function that
    is mapped over the values may build anything from them, and the spans of what it builds
    are those that it takes from there. -/
inductive Built : {α : Type} → (α → List Span) → Parser α → Prop
  | char (c : Char) : Built (fun span => [span]) (char c)
  | word (text : Text) : Built (fun span => [span]) (word text)
  | charOf (className : Text) (test : Char → Bool) :
    Built (fun span => [span]) (charOf className test)
  | anyChar : Built (fun span => [span]) anyChar
  | endOfInput : Built (fun span => [span]) endOfInput
  | exclude (words : List Text) : Built (fun span => [span]) (exclude words)
  | inOrder {α : Type} {spans : α → List Span} {parts : List (Parser α)} :
    (∀ part ∈ parts, Built spans part) → Built (fun values => values.flatMap spans) (inOrder parts)
  | both {α β : Type} {spans : α → List Span} {spans' : β → List Span} {first : Parser α}
      {second : Parser β} :
    Built spans first → Built spans' second →
      Built (fun pair => spans pair.1 ++ spans' pair.2)
        (do let a ← first; let b ← second; return (a, b))
  | orElse {α : Type} {spans : α → List Span} {first second : Parser α} :
    Built spans first → Built spans second → Built spans (orElse first second)
  | attempt {α : Type} {spans : α → List Span} {parser : Parser α} :
    Built spans parser → Built spans (attempt parser)
  | firstOf {α : Type} {spans : α → List Span} {parsers : List (Parser α)} :
    (∀ parser ∈ parsers, Built spans parser) → Built spans (firstOf parsers)
  | many {α : Type} {spans : α → List Span} {parser : Parser α} :
    Built spans parser → Built (fun values => values.flatMap spans) (many parser)
  | many1 {α : Type} {spans : α → List Span} {parser : Parser α} :
    Built spans parser → Built (fun values => values.flatMap spans) (many1 parser)
  | optional {α : Type} {spans : α → List Span} {parser : Parser α} :
    Built spans parser → Built (fun value => value.toList.flatMap spans) (optional parser)
  | map {α β : Type} {spans : α → List Span} {spans' : β → List Span} {parser : Parser α}
      (build : α → β) :
    Built spans parser → (∀ value, spans' (build value) ⊆ spans value) →
      Built spans' (build <$> parser)
  | spanned {α : Type} {spans : α → List Span} {parser : Parser α} :
    Built spans parser → Built (fun span => [span]) (spanned parser)

section Contracts

variable {spans : α → List Span} {spans' : β → List Span} {parser : Parser α}

/-- A parser that yields the span of what it reads. -/
theorem Meets.covering {reader : Parser Span}
    (meets : reader.Meets fun offset read _ span => span = .ofText offset read) :
    reader.Meets (Covering fun span => [span]) := by
  refine meets.weaken ?_
  rintro offset read back _ rfl span member
  obtain rfl := List.mem_singleton.mp member
  exact .whole offset read

theorem covering_satisfy (expected : Expected) (test : Char → Bool) :
    (satisfy expected test).Meets (Covering fun span => [span]) :=
  ((meets_satisfy expected test).weaken fun reads => reads.1).covering

theorem covering_word (text : Text) : (word text).Meets (Covering fun span => [span]) := by
  refine Meets.covering fun cursor => ?_
  unfold word
  split
  next next found =>
    have reads := Cursor.Reads.of_skip? found
    exact ⟨text, reads, by rw [reads.offset_eq]; rfl⟩
  · exact meets_failHere _ cursor

theorem covering_endOfInput : endOfInput.Meets (Covering fun span => [span]) := by
  refine Meets.covering fun cursor => ?_
  unfold endOfInput
  split
  · exact ⟨[], .nothing cursor, rfl⟩
  · exact meets_failHere _ cursor

theorem covering_inOrder {parts : List (Parser α)}
    (each : ∀ part ∈ parts, part.Meets (Covering spans)) :
    (inOrder parts).Meets (Covering fun values => values.flatMap spans) := by
  induction parts with
  | nil => exact meets_pure fun _ _ => covering_nil
  | cons part parts ih =>
    have others := ih fun part member => each part (List.mem_cons_of_mem _ member)
    refine (each part List.mem_cons_self).bind fun offset read value =>
      others.bind fun start more values => meets_pure ?_
    intro _ back _ rest rfl first
    rw [List.append_nil] at first ⊢
    exact covering_cons first rest

theorem covering_both {second : Parser β} (first : parser.Meets (Covering spans))
    (rest : second.Meets (Covering spans')) :
    (do let a ← parser; let b ← second; return (a, b)).Meets
      (Covering fun pair => spans pair.1 ++ spans' pair.2) := by
  refine first.bind fun offset read a => rest.bind fun start more b => meets_pure ?_
  intro _ back _ covers rfl covered
  rw [List.append_nil] at covered ⊢
  exact covering_append covered covers

/-- What a built parser reads covers every span of its value. -/
theorem Built.meets (built : Built spans parser) : parser.Meets (Covering spans) := by
  induction built with
  | char c => exact covering_satisfy _ _
  | word text => exact covering_word text
  | charOf className test => exact covering_satisfy _ _
  | anyChar => exact covering_satisfy _ _
  | endOfInput => exact covering_endOfInput
  | exclude words => exact ((meets_exclude words).weaken fun reads => reads.1).covering
  | inOrder _ ih => exact covering_inOrder ih
  | both _ _ first second => exact covering_both first second
  | orElse _ _ first second => exact first.orElse second
  | attempt _ ih => exact ih.attempt
  | firstOf _ ih => exact meets_firstOf ih
  | many _ ih => exact Meets.many ih covering_nil covering_cons
  | @many1 _ spans parser _ ih =>
    have runs : (Parser.many parser).Meets (Covering fun values => values.flatMap spans) :=
      Meets.many ih covering_nil covering_cons
    exact Meets.many1 ih runs covering_nil covering_cons
  | optional _ ih =>
    refine Meets.optional ih ?_ fun _ member => nomatch member
    intro offset read back value covers
    simpa [Covering] using covers
  | map build _ keeps ih => exact ih.map fun covers span member => covers span (keeps _ member)
  | spanned _ ih => exact (ih.spanned.weaken fun reads => reads.1).covering

end Contracts

end Parser

/-! ### Patterns -/

mutual

/-- The spans of a capture, at any depth. -/
def Capture.spans : Capture → List Span
  | .span span => [span]
  | .seq captures | .many captures => captureSpans captures
  | .both first second => first.spans ++ second.spans
  | .optional none => []
  | .optional (some capture) => capture.spans
  | .labelled _ capture => capture.spans

def captureSpans : List Capture → List Span
  | [] => []
  | capture :: captures => capture.spans ++ captureSpans captures

end

theorem captureSpans_eq (captures : List Capture) :
    captureSpans captures = captures.flatMap Capture.spans := by
  induction captures with
  | nil => rw [captureSpans, List.flatMap_nil]
  | cons capture captures ih => rw [captureSpans, List.flatMap_cons, ih]

namespace Pattern

open ViewScript.Parser (Built inOrder)

theorem sequence_eq (patterns : List Pattern) : sequence patterns = inOrder (parsers patterns) := by
  induction patterns with
  | nil => rw [sequence, parsers, inOrder]
  | cons pattern patterns ih => rw [sequence, parsers, inOrder, ih]

theorem map_both (build : α → β → Capture) (first : Parser α) (second : Parser β) :
    (do let a ← first; let b ← second; return build a b) =
      (fun pair => build pair.1 pair.2) <$> (do let a ← first; let b ← second; return (a, b)) := by
  funext cursor
  show Parser.bind first (fun a => Parser.bind second fun b => Parser.pure (build a b)) cursor =
    Parser.bind (Parser.bind first fun a => Parser.bind second fun b => Parser.pure (a, b))
      (fun pair => Parser.pure (build pair.1 pair.2)) cursor
  simp only [Parser.bind]
  cases first cursor with
  | fail failure => rfl
  | ok a middle =>
    dsimp only
    cases second middle <;> rfl

theorem built_map {spans : α → List Span} {parser : Parser α} (build : α → Capture)
    (built : Built spans parser) (same : ∀ value, (build value).spans = spans value) :
    Built Capture.spans (build <$> parser) := by
  refine .map build built fun value => ?_
  rw [same]
  exact List.Subset.refl _

theorem built_span {reader : Parser Span} (built : Built (fun span => [span]) reader) :
    Built Capture.spans (Capture.span <$> reader) :=
  built_map Capture.span built fun _ => by rw [Capture.spans]

mutual

/-- Every pattern describes a built parser. -/
theorem built : (pattern : Pattern) → Built Capture.spans pattern.parser
  | .char c => by rw [parser]; exact built_span (.char c)
  | .word text => by rw [parser]; exact built_span (.word text)
  | .charOf className test => by rw [parser]; exact built_span (.charOf className test)
  | .anyChar => by rw [parser]; exact built_span .anyChar
  | .endOfInput => by rw [parser]; exact built_span .endOfInput
  | .exclude words => by rw [parser]; exact built_span (.exclude words)
  | .seq parts => by
    rw [parser, sequence_eq]
    exact built_map _ (.inOrder (built_parsers parts)) fun _ => by
      rw [Capture.spans, captureSpans_eq]
  | .both first second => by
    rw [parser, map_both]
    exact built_map _ (.both (built first) (built second)) fun _ => by rw [Capture.spans]
  | .orElse first second => by
    rw [parser]
    exact .orElse (built first) (built second)
  | .attempt pattern => by
    rw [parser]
    exact .attempt (built pattern)
  | .firstOf alternatives => by
    rw [parser]
    exact .firstOf (built_parsers alternatives)
  | .many pattern => by
    rw [parser]
    exact built_map _ (.many (built pattern)) fun _ => by rw [Capture.spans, captureSpans_eq]
  | .many1 pattern => by
    rw [parser]
    exact built_map _ (.many1 (built pattern)) fun _ => by rw [Capture.spans, captureSpans_eq]
  | .optional pattern => by
    rw [parser]
    refine built_map _ (.optional (built pattern)) fun capture => ?_
    cases capture <;> simp [Capture.spans]
  | .labelled pattern label => by
    rw [parser]
    exact built_map _ (built pattern) fun _ => by rw [Capture.spans]
  | .spanned pattern => by
    rw [parser]
    exact built_span (.spanned (built pattern))

theorem built_parsers :
    (patterns : List Pattern) → ∀ parser ∈ parsers patterns, Built Capture.spans parser
  | [] => by
    rw [parsers]
    exact fun _ member => nomatch member
  | pattern :: patterns => by
    rw [parsers]
    exact List.forall_mem_cons.mpr ⟨built pattern, built_parsers patterns⟩

end

end Pattern

/-! ### Repetition as a loop -/

/-- Put a value before those of a reply. -/
def Reply.cons (value : α) : Reply (List α) → Reply (List α)
  | .ok values last => .ok (value :: values) last
  | .fail failure => .fail failure

namespace Parser

/-- What one run of a repeated parser leads to: the end of the repetition or another run. -/
inductive Turn (α : Type) where
  | last (reply : Reply (List α))
  | another (value : α) (next : Cursor)

/-- Run the parser once.  A run that goes forward is followed by another one.  A failure at
    the start ends the repetition well, unless this run was required. -/
def turn (parser : Parser α) (required : Bool) (cursor : Cursor) : Turn α :=
  match parser cursor with
  | .ok value next =>
    if next.offset = cursor.offset then .last (.ok [value] next) else .another value next
  | .fail failure =>
    if failure.position = cursor.offset ∧ required = false then .last (.ok [] cursor)
    else .last (.fail failure)

/-- The plain loop, without any bound, ends after so many runs with the reply.  A loop that
    does not end has no derivation. -/
inductive Repeats (parser : Parser α) : Bool → Cursor → Nat → Reply (List α) → Prop
  | last {required : Bool} {cursor : Cursor} {reply : Reply (List α)} :
    turn parser required cursor = .last reply → Repeats parser required cursor 1 reply
  | another {required : Bool} {cursor next : Cursor} {value : α} {runs : Nat}
      {reply : Reply (List α)} :
    turn parser required cursor = .another value next → Repeats parser false next runs reply →
      Repeats parser required cursor (runs + 1) (reply.cons value)

section Repetition

variable {parser : Parser α} {contract : Contract α} {required : Bool} {cursor : Cursor}
  {runs runs' : Nat} {reply reply' : Reply (List α)}

/-- A loop ends in one way at most. -/
theorem Repeats.unique (first : Repeats parser required cursor runs reply)
    (second : Repeats parser required cursor runs' reply') : runs' = runs ∧ reply' = reply := by
  induction first generalizing runs' reply' with
  | last ends =>
    cases second with
    | last ends' =>
      cases ends.symm.trans ends'
      exact ⟨rfl, rfl⟩
    | another goes => cases ends.symm.trans goes
  | another goes _ ih =>
    cases second with
    | last ends => cases goes.symm.trans ends
    | another goes' rest =>
      cases goes.symm.trans goes'
      obtain ⟨rfl, rfl⟩ := ih rest
      exact ⟨rfl, rfl⟩

theorem Repeats.pos (repeats : Repeats parser required cursor runs reply) : 0 < runs := by
  cases repeats with
  | last => exact Nat.one_pos
  | another => exact Nat.succ_pos _

theorem Repeats.of_moved {next : Cursor} {value : α} (begun : parser cursor = .ok value next)
    (moved : next.offset ≠ cursor.offset) (rest : Repeats parser false next runs reply) :
    Repeats parser required cursor (runs + 1) (reply.cons value) := by
  refine .another ?_ rest
  rw [turn, begun]
  exact if_neg moved

/-- A repetition is the plain loop, and every run of it but the last reads a character. -/
theorem Meets.exists_repeats (meets : parser.Meets contract) (cursor : Cursor) :
    ∃ runs, Repeats parser false cursor runs (Parser.many parser cursor) ∧
      runs ≤ cursor.rest.length + 1 := by
  -- By induction on the characters ahead, of which a run that is not the last takes one or more.
  induction size : cursor.rest.length using Nat.strong_induction_on generalizing cursor with
  | _ n ih =>
  subst size
  cases begun : parser cursor with
  | fail failure =>
    refine ⟨1, .last ?_, Nat.le_add_left 1 _⟩
    rw [turn, Parser.many, Parser.manyWithin, begun]
    by_cases here : failure.position = cursor.offset <;> simp [here]
  | ok value next =>
    by_cases still : next.offset = cursor.offset
    · -- The cursor is the same if its offset is.
      refine ⟨1, .last ?_, Nat.le_add_left 1 _⟩
      obtain ⟨read, reads, -⟩ := meets.ok begun
      obtain rfl := reads.eq_of_offset still
      rw [turn, Parser.many, Parser.manyWithin, begun]
      simp
    · have shorter := length_lt_of_moved meets begun still
      obtain ⟨runs, repeats, few⟩ := ih _ shorter next rfl
      have same : Parser.many parser cursor = (Parser.many parser next).cons value := by
        rw [many_eq_of_ok meets begun still]
        cases Parser.many parser next <;> rfl
      rw [same]
      exact ⟨runs + 1, repeats.of_moved begun still, by omega⟩

theorem Meets.exists_repeats1 (meets : parser.Meets contract) (cursor : Cursor) :
    ∃ runs, Repeats parser true cursor runs (Parser.many1 parser cursor) ∧
      runs ≤ cursor.rest.length + 1 := by
  cases begun : parser cursor with
  | fail failure =>
    refine ⟨1, .last ?_, Nat.le_add_left 1 _⟩
    rw [turn, Parser.many1, begun]
    simp
  | ok value next =>
    by_cases still : next.offset = cursor.offset
    · refine ⟨1, .last ?_, Nat.le_add_left 1 _⟩
      rw [turn, Parser.many1, begun]
      simp [still]
    · have shorter := length_lt_of_moved meets begun still
      obtain ⟨runs, repeats, few⟩ := meets.exists_repeats next
      have same : Parser.many1 parser cursor = (Parser.many parser next).cons value := by
        rw [Parser.many1, begun]
        refine (if_neg still).trans ?_
        cases Parser.many parser next <;> rfl
      rw [same]
      exact ⟨runs + 1, repeats.of_moved begun still, by omega⟩

end Repetition

end Parser

/-! ### Staying in the text -/

/-- A reply to a parser at the start that stays in the source.  It is at the start or further
    on.  From a boundary it leads to a boundary, and the ends of every span in the value are
    boundaries too.  From inside a character or past the end it leads nowhere. -/
structure Reply.StaysIn (source : Text) (start : Nat) (spans : α → List Span) (reply : Reply α) :
    Prop where
  le_of_ok : ∀ {value next}, reply = .ok value next →
    start ≤ next.offset ∧ next = Cursor.ofOffset source next.offset
  le_of_fail : ∀ {failure}, reply = .fail failure → start ≤ failure.position
  isBoundary_of_ok : source.IsBoundary start → ∀ {value next}, reply = .ok value next →
    source.IsBoundary next.offset ∧ ∀ span ∈ spans value, span.Within source
  isBoundary_of_fail : source.IsBoundary start → ∀ {failure}, reply = .fail failure →
    source.IsBoundary failure.position
  still_of_ok : ¬ source.IsBoundary start → ∀ {value next}, reply = .ok value next →
    next.offset = start
  still_of_fail : ¬ source.IsBoundary start → ∀ {failure}, reply = .fail failure →
    failure.position = start

namespace Parser

/-- Repeating the parser from the start ends with the reply and in no other way.  It takes no
    more runs than bytes are left and one, and a single run where nothing can be read. -/
def StopsWith (parser : Parser α) (required : Bool) (source : Text) (start : Nat)
    (reply : Reply (List α)) : Prop :=
  ∃ runs, (∀ n other, Repeats parser required (.ofOffset source start) n other ↔
      n = runs ∧ other = reply) ∧
    (start ≤ source.byteSize → runs ≤ source.byteSize - start + 1) ∧
    (¬ source.IsBoundary start → runs = 1)

variable {spans : α → List Span} {parser : Parser α}

theorem Meets.staysIn (meets : parser.Meets (Covering spans)) (source : Text) (start : Nat) :
    (parser.runAt source start).StaysIn source start spans where
  le_of_ok done := by
    obtain ⟨read, reads, -⟩ := meets.ok done
    exact ⟨reads.offset_le, reads.place.1⟩
  le_of_fail failed := by
    obtain ⟨read, place, reads, position⟩ := meets.fail failed
    rw [position]
    exact reads.offset_le
  isBoundary_of_ok boundary {value next} done := by
    obtain ⟨read, reads, covers⟩ := meets.ok done
    refine ⟨reads.place.2.1 boundary, fun span member => ?_⟩
    obtain ⟨front, rest, rfl, rfl⟩ := boundary.exists_append
    rw [Cursor.ofOffset_append] at reads
    obtain ⟨back, rfl, -⟩ := reads.exists_chars
    exact (covers span member).within
  isBoundary_of_fail boundary {failure} failed := by
    obtain ⟨read, place, reads, position⟩ := meets.fail failed
    rw [position]
    exact reads.place.2.1 boundary
  still_of_ok outside {value next} done := by
    obtain ⟨read, reads, -⟩ := meets.ok done
    exact reads.place.2.2 outside
  still_of_fail outside {failure} failed := by
    obtain ⟨read, place, reads, position⟩ := meets.fail failed
    exact position.trans (reads.place.2.2 outside)

theorem stopsWith_of_repeats {required : Bool} {source : Text} {start runs : Nat}
    {reply : Reply (List α)}
    (repeats : Repeats parser required (.ofOffset source start) runs reply)
    (few : runs ≤ (Cursor.ofOffset source start).rest.length + 1) :
    StopsWith parser required source start reply := by
  refine ⟨runs, fun n other => ⟨repeats.unique, ?_⟩, fun _ => ?_, fun outside => ?_⟩
  · rintro ⟨rfl, rfl⟩
    exact repeats
  · have short := Cursor.length_rest_ofOffset_le source start
    omega
  · rw [Cursor.rest_ofOffset_eq_nil outside] at few
    exact Nat.le_antisymm few repeats.pos

/-- **Built parsers stay in their text.**  Wherever a parser that is built from the combinators
    starts, its reply stays in the source, and repeating it is a loop that ends in time. -/
theorem built_stays_in_text (built : Built spans parser) (source : Text) (start : Nat) :
    (parser.runAt source start).StaysIn source start spans ∧
      StopsWith parser false source start ((many parser).runAt source start) ∧
      StopsWith parser true source start ((many1 parser).runAt source start) := by
  have meets := built.meets
  obtain ⟨runs, repeats, few⟩ := meets.exists_repeats (.ofOffset source start)
  obtain ⟨runs1, repeats1, few1⟩ := meets.exists_repeats1 (.ofOffset source start)
  exact ⟨meets.staysIn source start, stopsWith_of_repeats repeats few,
    stopsWith_of_repeats repeats1 few1⟩

/-- A string between double quotes, in which a backslash takes the next character with it. -/
def stringPattern : Pattern :=
  .labelled (.seq [.char '"', .many (.orElse (.both (.char '\\') .anyChar) (.exclude [['"']])),
    .char '"']) "string"

/-- The string is read from the start with all its parts.  Nothing can be read from inside its
    second character. -/
theorem built_stays_in_text_string :
    Built Capture.spans stringPattern.parser ∧
      (∃ capture, stringPattern.runAt "\"é\\\"\"" 0 = .ok capture ⟨6, .chars []⟩ ∧
        capture.spans = [⟨0, 1⟩, ⟨1, 3⟩, ⟨3, 4⟩, ⟨4, 5⟩, ⟨5, 6⟩] ∧
        Text.IsBoundary "\"é\\\"\"" 6 ∧ ∀ span ∈ capture.spans, span.Within "\"é\\\"\"") ∧
      ¬ Text.IsBoundary "\"é\\\"\"" 2 ∧
      (stringPattern.runAt "\"é\\\"\"" 2).StaysIn "\"é\\\"\"" 2 Capture.spans ∧
      StopsWith stringPattern.parser false "\"é\\\"\"" 2
        ((many stringPattern.parser).runAt "\"é\\\"\"" 2) := by
  have built := Pattern.built stringPattern
  have told : (Capture.spans <$> stringPattern.parser).runAt "\"é\\\"\"" 0 =
      .ok [⟨0, 1⟩, ⟨1, 3⟩, ⟨3, 4⟩, ⟨4, 5⟩, ⟨5, 6⟩] ⟨6, .chars []⟩ := by decide +kernel
  obtain ⟨capture, next, run, same⟩ := bind_eq_ok_iff.mp told
  obtain ⟨spans, rfl⟩ := Reply.ok.inj same
  have start : Text.IsBoundary "\"é\\\"\"" 0 := by decide
  have outside : ¬ Text.IsBoundary "\"é\\\"\"" 2 := by decide
  obtain ⟨stays, -, -⟩ := built_stays_in_text built "\"é\\\"\"" 0
  obtain ⟨boundary, within⟩ := stays.isBoundary_of_ok start run
  obtain ⟨inside, loop, -⟩ := built_stays_in_text built "\"é\\\"\"" 2
  exact ⟨built, ⟨capture, run, spans, boundary, within⟩, outside, inside, loop⟩

end Parser

end ViewScript
