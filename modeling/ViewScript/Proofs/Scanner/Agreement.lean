/-
  ViewScript/Proofs/Scanner/Agreement.lean
  ========================================
  **The grammar agrees with the scanner.**

  An expression stops at the end of the text or at a closing bracket.  Up to there the
  scanner opens and closes brackets of its own, so it comes there with the stack it
  started with, whatever that was; and where the expression fails, the scanner fails in
  the same way.  The proof goes by induction on the length of the text: what stands in
  brackets is an expression in a shorter text, and so is what comes after them.

  Hence the grammar accepts a text just when the scanner does, and a failure is one of the
  scanner's.
-/
import ViewScript.Proofs.Scanner.Terms

namespace ViewScript.Scanner

open Grammar ViewScript.Parser

variable {offset : Nat} {text back : Text}

/-! ### Where an expression stops -/

theorem exists_closing {c : Char} (stops : startsTerm c = false) :
    ∃ found : Delimiter, c = found.closing := by
  have known : c = ')' ∨ c = ']' ∨ c = '\x7d' := by
    simpa [startsTerm, ← or_iff_not_imp_left] using stops
  rcases known with rfl | rfl | rfl
  · exact ⟨.paren, rfl⟩
  · exact ⟨.bracket, rfl⟩
  · exact ⟨.brace, rfl⟩

theorem scan_due {viewAt : Nat → Text → Option Nat} (due : Delimiter)
    (stops : Stops startsTerm back) (other : back.head? ≠ some due.closing)
    (stack : List Delimiter) :
    scan viewAt (due :: stack) offset back = .error ⟨.word [due.closing], offset⟩ := by
  cases back with
  | nil => exact scan_nil_cons stack due
  | cons c back =>
    obtain ⟨found, rfl⟩ := exists_closing stops
    refine scan_closing_of_ne stack ?_
    rintro rfl
    exact other rfl

theorem scan_code {viewAt : Nat → Text → Option Nat} {run : Text}
    (isCode : ∀ c ∈ run, isCodeChar c = true) (stack : List Delimiter) :
    scan viewAt stack offset (run ++ back) =
      scan viewAt stack (offset + run.byteSize) back := by
  induction run generalizing offset with
  | nil => rfl
  | cons c run ih =>
    have skipped : lexeme (viewAt offset) c (run ++ back) = .whole (.skipped 0) :=
      lexeme_code (isCode c List.mem_cons_self) (viewAt offset)
    rw [List.cons_append, scan_skipped stack skipped, List.take_zero, List.drop_zero,
      ih fun d member => isCode d (List.mem_cons_of_mem c member), Nat.add_assoc,
      ← Text.byteSize_append]
    rfl

/-! ### Tracking an expression -/

/-- The scanner, whatever brackets are open around the text, comes to where the
    expression ends, or fails as it does. -/
def Tracks (offset : Nat) (text : Text) : Reply (List Node) → Prop
  | .ok _ next => ∃ back, next.ahead = .chars back ∧ Stops startsTerm back ∧
      ∀ stack, scan viewLength? stack offset text = scan viewLength? stack next.offset back
  | .fail failure => ∀ stack, scan viewLength? stack offset text = .error failure

theorem expression_eq_many : Grammar.expression = many (Rules.term .closed) := expression_eq

theorem tracks_of_stops (stops : Stops startsTerm text) :
    Tracks offset text (Grammar.expression ⟨offset, .chars text⟩) := by
  have none : (many (Rules.term .closed)).Yields offset [] text [] :=
    Declines.many (startsIn_term _ _ stops)
  rw [Yields, List.nil_append] at none
  rw [expression_eq_many, none]
  exact ⟨text, rfl, stops, fun stack => rfl⟩

theorem tracks_of_fail {failure : Failure}
    (failed : Rules.term .closed ⟨offset, .chars text⟩ = .fail failure)
    (later : failure.position ≠ offset)
    (same : ∀ stack, scan viewLength? stack offset text = .error failure) :
    Tracks offset text (Grammar.expression ⟨offset, .chars text⟩) := by
  rw [expression_eq_many, many_eq_fail failed later]
  exact same

theorem Tracks.cons {read : Text} {node : Node}
    (first : (Rules.term .closed).Yields offset read back node) (filled : read ≠ [])
    (skips : ∀ stack, scan viewLength? stack offset (read ++ back) =
      scan viewLength? stack (offset + read.byteSize) back)
    (others : Tracks (offset + read.byteSize) back
      (Grammar.expression ⟨offset + read.byteSize, .chars back⟩)) :
    Tracks offset (read ++ back) (Grammar.expression ⟨offset, .chars (read ++ back)⟩) := by
  rw [expression_eq_many] at others ⊢
  rw [many_eq_of_ok (meets_term isSound_closed) first (Yields.offset_ne filled)]
  cases reply : many (Rules.term .closed) ⟨offset + read.byteSize, .chars back⟩ with
  | ok nodes next =>
    rw [reply] at others
    obtain ⟨after, ahead, stops, same⟩ := others
    exact ⟨after, ahead, stops, fun stack => (skips stack).trans (same stack)⟩
  | fail failure =>
    rw [reply] at others
    exact fun stack => (skips stack).trans (others stack)

section Brackets

variable (delimiter : Delimiter) {rest : Text}

/-- A failure in brackets or where they should end is the failure of the expression. -/
theorem tracks_of_group_fail {failure : Failure}
    (failed : Rules.group .closed delimiter ⟨offset, .chars (delimiter.opening :: rest)⟩ =
      .fail failure)
    (later : offset < failure.position)
    (same : ∀ stack, scan viewLength? (delimiter :: stack)
      (offset + Text.byteSize [delimiter.opening]) rest = .error failure) :
    Tracks offset (delimiter.opening :: rest)
      (Grammar.expression ⟨offset, .chars (delimiter.opening :: rest)⟩) := by
  have committed := not_declines_of_fail failed (Nat.ne_of_gt later)
  exact tracks_of_fail ((term_opening .closed delimiter committed).trans failed)
    (Nat.ne_of_gt later) fun stack => (scan_opening stack delimiter).trans (same stack)

/-- Brackets are closed with the stack they were opened with. -/
theorem tracks_of_group {inside after : Text} {nodes : List Node}
    (body : Grammar.expression.Yields (offset + Text.byteSize [delimiter.opening]) inside
      (delimiter.closing :: after) nodes)
    (same : ∀ stack, scan viewLength? stack (offset + Text.byteSize [delimiter.opening])
        (inside ++ delimiter.closing :: after) =
      scan viewLength? stack (offset + Text.byteSize [delimiter.opening] + inside.byteSize)
        (delimiter.closing :: after))
    (others : ∀ offset, Tracks offset after (Grammar.expression ⟨offset, .chars after⟩)) :
    Tracks offset (delimiter.opening :: (inside ++ delimiter.closing :: after))
      (Grammar.expression
        ⟨offset, .chars (delimiter.opening :: (inside ++ delimiter.closing :: after))⟩) := by
  have closed : Grammar.expression.Yields (offset + Text.byteSize [delimiter.opening]) inside
      ([delimiter.closing] ++ after) nodes := body
  have group : (Rules.group .closed delimiter).Yields offset
      ([delimiter.opening] ++ (inside ++ [delimiter.closing])) after (.group delimiter nodes) :=
    (yields_char delimiter.opening).bind
      (closed.bind ((yields_char delimiter.closing).bind_pure rfl))
  have split : delimiter.opening :: (inside ++ delimiter.closing :: after) =
      ([delimiter.opening] ++ (inside ++ [delimiter.closing])) ++ after := by simp
  have first : (Rules.term .closed).Yields offset
      ([delimiter.opening] ++ (inside ++ [delimiter.closing])) after (.group delimiter nodes) := by
    rw [Yields, ← split] at group ⊢
    exact (term_opening .closed delimiter (not_declines_of_ok group)).trans group
  rw [split]
  refine Tracks.cons first (by simp) (fun stack => ?_) (others _)
  rw [← split, scan_opening, same, scan_closing, Text.byteSize_append, Text.byteSize_append,
    ← Nat.add_assoc, ← Nat.add_assoc]

/-- Brackets are tracked if what is in them and what is after them is. -/
theorem tracks_opening (ih : ∀ (later : Text) (offset : Nat), later.length ≤ rest.length →
      Tracks offset later (Grammar.expression ⟨offset, .chars later⟩)) :
    Tracks offset (delimiter.opening :: rest)
      (Grammar.expression ⟨offset, .chars (delimiter.opening :: rest)⟩) := by
  have opened : (char delimiter.opening).Yields offset [delimiter.opening] rest _ :=
    yields_char delimiter.opening
  have positive : 0 < Text.byteSize [delimiter.opening] := by cases delimiter <;> decide
  have inside := ih rest (offset + Text.byteSize [delimiter.opening]) (Nat.le_refl _)
  cases reply : Grammar.expression ⟨offset + Text.byteSize [delimiter.opening], .chars rest⟩ with
  | fail failure =>
    rw [reply] at inside
    obtain ⟨read, place, reads, position⟩ := isSound_closed.expression.fail reply
    refine tracks_of_group_fail delimiter
      (opened.bind_eq_fail (bind_eq_fail_iff.mpr (.inl reply))) ?_
      fun stack => inside (delimiter :: stack)
    rw [position]
    exact Nat.lt_of_lt_of_le (Nat.lt_add_of_pos_right positive) reads.offset_le
  | ok nodes next =>
    rw [reply] at inside
    obtain ⟨read, reads, -⟩ := isSound_closed.expression.ok reply
    obtain ⟨back, rfl, rfl⟩ := reads.exists_chars
    obtain ⟨_, ⟨⟩, stops, same⟩ := inside
    by_cases ends : back.head? = some delimiter.closing
    · obtain ⟨after, rfl⟩ := List.head?_eq_some_iff.mp ends
      refine tracks_of_group delimiter reply same fun offset => ih after offset ?_
      simp only [List.length_append, List.length_cons]
      omega
    · -- The expression stops at the end or at another bracket.
      have failed : Rules.group .closed delimiter
          ⟨offset, .chars (delimiter.opening :: (read ++ back))⟩ = .fail _ :=
        opened.bind_eq_fail (bind_eq_fail_iff.mpr
          (.inr ⟨nodes, _, reply, bind_eq_fail_iff.mpr (.inl (char_eq_fail ends))⟩))
      refine tracks_of_group_fail delimiter failed ?_ fun stack => ?_
      · show offset < offset + Text.byteSize [delimiter.opening] + read.byteSize
        omega
      · exact (same (delimiter :: stack)).trans (scan_due delimiter stops ends stack)

end Brackets

theorem tracks_expression (text : Text) (offset : Nat) :
    Tracks offset text (Grammar.expression ⟨offset, .chars text⟩) := by
  induction size : text.length using Nat.strong_induction_on generalizing text offset with
  | _ n ih =>
  subst size
  cases text with
  | nil => exact tracks_of_stops trivial
  | cons c rest =>
    by_cases isCode : isCodeChar c = true
    · obtain ⟨run, back, node, split, isRun, first⟩ := exists_yields_term_code isCode
      rw [split] at ih ⊢
      refine Tracks.cons first isRun.1 (scan_code isRun.2) (ih back.length ?_ back _ rfl)
      have positive := List.length_pos_iff.mpr isRun.1
      rw [List.length_append]
      omega
    cases is : lexeme (viewLength? offset) c rest with
    | opened delimiter =>
      obtain rfl := eq_opening is
      exact tracks_opening delimiter fun later offset short =>
        ih later.length (Nat.lt_succ_of_le short) later offset rfl
    | closed delimiter =>
      obtain rfl := eq_closing is
      exact tracks_of_stops (by cases delimiter <;> rfl)
    | whole extent =>
      have scans := scans_term (Bool.eq_false_iff.mpr isCode) is
      cases extent with
      | skipped more =>
        obtain ⟨node, first⟩ := scans.exists_yields
        have split : c :: rest = (c :: rest.take more) ++ rest.drop more := by
          rw [List.cons_append, List.take_append_drop]
        have skips : ∀ stack,
            scan viewLength? stack offset ((c :: rest.take more) ++ rest.drop more) =
            scan viewLength? stack (offset + Text.byteSize (c :: rest.take more))
              (rest.drop more) := by
          intro stack
          rw [← split]
          exact scan_skipped stack is
        have shorter : (rest.drop more).length < (c :: rest).length := by
          rw [List.length_drop, List.length_cons]
          omega
        rw [split]
        exact Tracks.cons first (List.cons_ne_nil _ _) skips (ih _ shorter (rest.drop more) _ rfl)
      | endless missing =>
        refine tracks_of_fail scans ?_ fun stack => scan_endless stack is
        have positive := c.utf8Size_pos
        simp only [Text.byteSize_cons]
        omega

/-! ### Programs -/

theorem parse_eq_scan (source : Text) :
    (parse source).map (fun _ => ()) = scan viewLength? [] 0 source := by
  have tracks := tracks_expression source 0
  cases reply : Grammar.expression ⟨0, .chars source⟩ with
  | fail failure =>
    rw [reply] at tracks
    have failed : parse source = .error failure :=
      parse_eq_error_iff.mpr (bind_eq_fail_iff.mpr (.inl reply))
    rw [failed, tracks []]
    rfl
  | ok nodes next =>
    rw [reply] at tracks
    obtain ⟨offset, ahead⟩ := next
    obtain ⟨back, rfl, stops, same⟩ := tracks
    rw [same []]
    cases back with
    | nil =>
      have parsed : parse source = .ok nodes :=
        parse_eq_ok_iff.mpr ⟨_, bind_eq_ok_iff.mpr ⟨nodes, _, reply, rfl⟩⟩
      rw [parsed, scan]
      rfl
    | cons c back =>
      obtain ⟨found, rfl⟩ := exists_closing stops
      have failed : parse source = .error ⟨.endOfInput, offset⟩ :=
        parse_eq_error_iff.mpr (bind_eq_fail_iff.mpr (.inr ⟨nodes, _, reply, rfl⟩))
      rw [failed, scan_closing_nil]
      rfl

/-! ### Texts without views -/

theorem lexeme_eq_of_ne {c : Char} (other : c ≠ '<') (view? view?' : Text → Option Nat)
    (rest : Text) : lexeme view? c rest = lexeme view?' c rest := by
  unfold lexeme
  split <;> first | rfl | exact absurd rfl other

theorem scan_eq_of_not_mem (viewAt viewAt' : Nat → Text → Option Nat) (stack : List Delimiter)
    (offset : Nat) (text : Text) (noView : '<' ∉ text) :
    scan viewAt stack offset text = scan viewAt' stack offset text := by
  fun_induction scan viewAt stack offset text with
  | case1 => rw [scan]
  | case2 => rw [scan]
  | case3 stack offset c rest more is ih =>
    rw [lexeme_eq_of_ne (List.ne_of_not_mem_cons noView).symm _ (viewAt' offset)] at is
    rw [scan_skipped stack is]
    exact ih fun member => noView (List.mem_cons_of_mem c (List.mem_of_mem_drop member))
  | case4 stack offset c rest delimiter is ih =>
    obtain rfl := eq_opening is
    rw [scan_opening]
    exact ih (List.not_mem_of_not_mem_cons noView)
  | case5 offset c rest delimiter is =>
    obtain rfl := eq_closing is
    rw [scan_closing_nil]
  | case6 offset c rest due stack is ih =>
    obtain rfl := eq_closing is
    rw [scan_closing]
    exact ih (List.not_mem_of_not_mem_cons noView)
  | case7 offset c rest found is due stack other =>
    obtain rfl := eq_closing is
    rw [scan_closing_of_ne stack other]
  | case8 stack offset c rest missing is =>
    rw [lexeme_eq_of_ne (List.ne_of_not_mem_cons noView).symm _ (viewAt' offset)] at is
    rw [scan_endless stack is]

/-- **One pass over host code decides it.**  A source without `<` is a program just when
    the scanner comes to its end with all brackets closed, and otherwise the failure is the
    scanner's, in what was expected and where. -/
theorem parse_eq_scanHost (source : Text) (noView : '<' ∉ source) :
    (parse source).map (fun _ => ()) = scanHost source := by
  rw [parse_eq_scan]
  exact scan_eq_of_not_mem viewLength? _ [] 0 source noView

theorem parse_eq_scanHost_mismatch :
    '<' ∉ ("f(/[)]/, 'it\\'s') + g[é\x7d" : Text) ∧
      (parse "f(/[)]/, 'it\\'s') + g[é\x7d").map (fun _ => ()) =
        .error ⟨.word [']'], 24⟩ := by
  have noView : '<' ∉ ("f(/[)]/, 'it\\'s') + g[é\x7d" : Text) := by decide
  have verdict : scanHost "f(/[)]/, 'it\\'s') + g[é\x7d" = .error ⟨.word [']'], 24⟩ := by decide +kernel
  exact ⟨noView, (parse_eq_scanHost _ noView).trans verdict⟩

end ViewScript.Scanner
