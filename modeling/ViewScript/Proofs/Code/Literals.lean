/-
  ViewScript/Proofs/Code/Literals.lean
  ====================================
  **Text literals are closed, and mean the text.**

  The inside of a string literal is read from the left: a backslash takes the next
  character with it, and any other character stands by itself.  The parser pairs the
  backslashes of a text in this way, the generator pairs them again, and what it adds are
  whole pairs.  So no quote and no line break is left unpaired, and the literal ends where
  the generator ends it.

  What a pair stands for is left open, apart from the four pairs that the generator writes
  by itself.  Under every such reading the literal has the value of the text.
-/
import ViewScript.Code.Basic
import ViewScript.Proofs.Grammar.Soundness
import ViewScript.Proofs.Scanner.Basic

namespace ViewScript

open Grammar

/-! ### Reading the inside of a literal -/

/-- The characters that stand in a string literal only after a backslash. -/
def literalEnds : List Char := ['"', '\n', '\r']

/-- The value of the inside of a literal; `pair c` is what a backslash and `c` stand
    for. -/
def literalValue (pair : Char → Text) : Text → Text
  | [] => []
  | '\\' :: c :: rest => pair c ++ literalValue pair rest
  | c :: rest => c :: literalValue pair rest

/-- The pairs that the generator writes stand for what it replaced by them; a line break
    after a backslash stands for nothing. -/
structure ReadsEscapes (pair : Char → Text) : Prop where
  quote : pair '"' = ['"']
  lineFeed : pair 'n' = ['\n']
  carriageReturn : pair 'r' = ['\r']
  continuation : pair '\n' = []

/-- The reading in which every other character after a backslash stands for itself. -/
def usualPair (c : Char) : Text :=
  if c = 'n' then ['\n'] else if c = 'r' then ['\r'] else if c = '\n' then [] else [c]

theorem readsEscapes_usualPair : ReadsEscapes usualPair := ⟨rfl, rfl, rfl, rfl⟩

theorem literalValue_cons (pair : Char → Text) {c : Char} (plain : c ≠ '\\') (rest : Text) :
    literalValue pair (c :: rest) = c :: literalValue pair rest := by
  rw [literalValue]
  rintro _ _ rfl
  exact absurd rfl plain

theorem runLength?_of_escapedRun {ends never : List Char} {run : Text} (noEscape : '\\' ∉ ends)
    (isRun : EscapedRun ends never run) {c : Char} (isEnd : c ∈ ends) (rest : Text) :
    Scanner.runLength? ends (run ++ c :: rest) = some run.length := by
  have cons : ∀ {d : Char} {tail : Text}, d ≠ '\\' → Scanner.runLength? ends (d :: tail) =
      if d ∈ ends then some 0 else (Scanner.runLength? ends tail).map (· + 1) := by
    intro d tail plain
    rw [Scanner.runLength?]
    · exact fun same _ => plain same
    · exact fun _ _ same _ => plain same
  induction isRun with
  | nil =>
    rw [List.nil_append, cons (fun same => noEscape (same ▸ isEnd)), if_pos isEnd]
    rfl
  | escape _ _ ih =>
    simp only [List.cons_append, Scanner.runLength?, ih, Option.map_some, List.length_cons]
  | plain plain free _ ih =>
    rw [List.cons_append, cons plain, if_neg free, ih]
    rfl

/-! ### What the generator writes -/

theorem escapeText_cons {c : Char} (plain : c ≠ '\\') (free : c ∉ literalEnds) (rest : Text) :
    escapeText (c :: rest) = c :: escapeText rest := by
  simp only [literalEnds, List.mem_cons, List.not_mem_nil, or_false, not_or] at free
  obtain ⟨noQuote, noFeed, noReturn⟩ := free
  rw [escapeText]
  · exact fun _ _ same _ => plain same
  · exact noQuote
  · exact noFeed
  · exact noReturn

/-- Where backslashes are paired before, they are after, and then the characters that
    could end the literal have one before them. -/
theorem escapedRun_escapeText {ends never : List Char} {text : Text}
    (isRun : EscapedRun ends never text) : EscapedRun literalEnds [] (escapeText text) := by
  have pair : ∀ (c : Char) {rest : Text}, EscapedRun literalEnds [] rest →
      EscapedRun literalEnds [] ('\\' :: c :: rest) := fun c _ => .escape (List.not_mem_nil)
  induction isRun with
  | nil => exact .nil
  | @escape c _ _ _ ih => exact pair c ih
  | @plain c rest plain _ _ ih =>
    by_cases isEnd : c ∈ literalEnds
    · simp only [literalEnds, List.mem_cons, List.not_mem_nil, or_false] at isEnd
      rcases isEnd with rfl | rfl | rfl
      · exact pair '"' ih
      · exact pair 'n' (pair '\n' ih)
      · exact pair 'r' ih
    · rw [escapeText_cons plain isEnd]
      exact .plain plain isEnd ih

theorem literalValue_escapeText {pair : Char → Text} (reads : ReadsEscapes pair) (text : Text) :
    literalValue pair (escapeText text) = literalValue pair text := by
  fun_induction escapeText text with
  | case1 => rfl
  | case2 c rest ih => simp only [literalValue, ih]
  | case3 rest ih =>
    rw [literalValue, reads.quote, ih, literalValue_cons pair (by decide)]
    rfl
  | case4 rest ih =>
    rw [literalValue, literalValue, reads.lineFeed, reads.continuation, ih,
      literalValue_cons pair (by decide)]
    rfl
  | case5 rest ih =>
    rw [literalValue, reads.carriageReturn, ih, literalValue_cons pair (by decide)]
    rfl
  | case6 c rest noPair _ _ _ ih =>
    -- A backslash that nothing follows stands by itself on both sides.
    by_cases last : c = '\\'
    · subst last
      cases rest with
      | nil => rfl
      | cons d rest => exact (noPair d rest rfl rfl).elim
    · rw [literalValue_cons pair last, literalValue_cons pair last, ih]

/-! ### Texts of a source -/

/-- The text rule reads a text in which every backslash is paired. -/
theorem exists_run_of_text {source : Text} {start : Nat} {node : Node} {next : Cursor}
    (read : Grammar.text.runAt source start = .ok node next) :
    ∃ raw, node = .text (.ofText start raw) ∧ source.StandsAt start raw ∧
      EscapedRun ['\x7b', '<'] [] raw := by
  obtain ⟨raw, reads, derives⟩ := sound_text.ok read
  cases derives with
  | text filled isRun => exact ⟨raw, rfl, reads.standsAt filled, isRun⟩

/-- **Text literals are closed, and mean the text.**  Wherever the text rule reads a text
    that is no layout, the code of the text is a call with one string literal, as a node
    and as a child.  Inside the literal each quote and each line break has a backslash of
    its own and no backslash is left over, so that the literal ends at its last quote.  Its
    value is the value of the text, whatever other pairs of the text stand for. -/
theorem textLiteral_of_read (names : RuntimeNames) {source : Text} {start : Nat} {node : Node}
    {next : Cursor} (read : Grammar.text.runAt source start = .ok node next) :
    ∃ span raw, node = .text span ∧ span.slice? source = some raw ∧
      (isLayout raw = false → ∃ inside,
        (render names source node).code =
          names.components ++ ".text(\x7bdata:\"" ++ inside ++ "\"\x7d)" ∧
        renderChildren names source [node] = [.item (render names source node).code] ∧
        EscapedRun literalEnds [] inside ∧
        (∀ rest, Scanner.runLength? literalEnds (inside ++ '"' :: rest) = some inside.length) ∧
        ∀ pair, ReadsEscapes pair → literalValue pair inside = literalValue pair raw) := by
  obtain ⟨raw, rfl, stands, isRun⟩ := exists_run_of_text read
  refine ⟨_, raw, rfl, stands.slice?_eq, ?_⟩
  intro noLayout
  have closed : EscapedRun literalEnds [] (escapeText raw) := escapedRun_escapeText isRun
  refine ⟨escapeText raw, ?_, ?_, closed, ?_, ?_⟩
  · simp [render, Rendered.code, textCode, textCall, Text.quoted, stands.slice_eq, noLayout]
  · simp [renderChildren, render, Rendered.code, stands.slice_eq, noLayout]
  · intro rest
    exact runLength?_of_escapedRun (by decide) closed (by decide) rest
  · intro pair reads
    exact literalValue_escapeText reads raw

/-- A quote, a quote in a pair, a line break, a line break in a pair and a pair of
    backslashes. -/
theorem textLiteral_of_read_pairs :
    Grammar.text.runAt "\x7ba\"\\\"\n\\\n\\\\<" 1 =
        .ok (.text ⟨1, 10⟩) ⟨10, .chars ['<']⟩ ∧
      isLayout "a\"\\\"\n\\\n\\\\" = false ∧
      ∃ inside,
        (render {} "\x7ba\"\\\"\n\\\n\\\\<" (.text ⟨1, 10⟩)).code =
          "Moon.view.components.text(\x7bdata:\"" ++ inside ++ "\"\x7d)" ∧
        EscapedRun literalEnds [] inside ∧
        (∀ rest, Scanner.runLength? literalEnds (inside ++ '"' :: rest) = some inside.length) ∧
        literalValue usualPair inside = "a\"\"\n\\" := by
  have read : Grammar.text.runAt "\x7ba\"\\\"\n\\\n\\\\<" 1 =
      .ok (.text ⟨1, 10⟩) ⟨10, .chars ['<']⟩ := by decide +kernel
  have sliced : Span.slice? "\x7ba\"\\\"\n\\\n\\\\<" ⟨1, 10⟩ =
      some ("a\"\\\"\n\\\n\\\\" : Text) := by decide +kernel
  have noLayout : isLayout "a\"\\\"\n\\\n\\\\" = false := by decide +kernel
  have value : literalValue usualPair "a\"\\\"\n\\\n\\\\" = "a\"\"\n\\" := by decide +kernel
  obtain ⟨_, raw, ⟨⟩, found, literal⟩ := textLiteral_of_read {} read
  obtain rfl := Option.some.inj (sliced.symm.trans found)
  obtain ⟨inside, code, -, closed, ends, means⟩ := literal noLayout
  refine ⟨read, noLayout, inside, code, closed, ends, ?_⟩
  rw [means usualPair readsEscapes_usualPair, value]

end ViewScript
