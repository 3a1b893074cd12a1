/-
  ViewScript/Proofs/Compile/Modularity.lean
  =========================================
  **Compiling one program behind another.**

  The trees of two programs that stand one behind the other are put together, with the
  spans of the second shifted.  Every span has the text that it has in its own program, so
  the code of the two is put together as well.  If the second is no program, the failure is
  shifted; it stands on the same line as before, behind the line break at the seam, and can
  be shown as before.
-/
import ViewScript.Proofs.Code.Locality
import ViewScript.Proofs.Compile.Slices
import ViewScript.Proofs.Grammar.Joining
import ViewScript.Proofs.Scanner.Failures
import ViewScript.Proofs.Source.Places

namespace ViewScript

open Grammar

/-! ### Spans in a longer source -/

namespace Span

variable {source : Text} {span : Span}

theorem Within.append (within : span.Within source) (more : Text) :
    span.Within (source ++ more) := by
  obtain ⟨front, covered, back, rfl, rfl⟩ := within.exists_ofText
  rw [List.append_assoc, List.append_assoc]
  exact within_ofText front covered (back ++ more)

theorem shift_ofText (front before covered : Text) :
    (ofText before.byteSize covered).shift front.byteSize =
      ofText (front ++ before).byteSize covered := by
  simp only [Span.shift, ofText, Text.byteSize_append, Span.mk.injEq]
  omega

theorem Within.shift (within : span.Within source) (front : Text) :
    (span.shift front.byteSize).Within (front ++ source) := by
  obtain ⟨before, covered, back, rfl, rfl⟩ := within.exists_ofText
  rw [shift_ofText, ← List.append_assoc]
  exact within_ofText (front ++ before) covered back

theorem Within.slice_shift (within : span.Within source) (front : Text) :
    (span.shift front.byteSize).slice (front ++ source) = span.slice source := by
  obtain ⟨before, covered, back, rfl, rfl⟩ := within.exists_ofText
  rw [shift_ofText, ← List.append_assoc, slice, slice, slice?_ofText, slice?_ofText]

/-- Two spans that meet, read as one. -/
theorem slice_append_slice {start seam stop : Nat} (first : Within source ⟨start, seam⟩)
    (second : Within source ⟨seam, stop⟩) :
    slice source ⟨start, stop⟩ = slice source ⟨start, seam⟩ ++ slice source ⟨seam, stop⟩ := by
  obtain ⟨longer, later, back, whole, isLater⟩ := second.exists_ofText
  obtain ⟨front, tail, split, rfl⟩ := first.start_isBoundary.exists_append
  obtain ⟨rfl, rfl⟩ := Span.mk.inj isLater
  obtain ⟨covered, rfl⟩ :=
    Text.prefix_of_byteSize_le ⟨tail, split.symm⟩ ⟨_, whole.symm⟩ first.ordered
  have isFirst : slice source (ofText front.byteSize covered) = covered := by
    rw [whole, List.append_assoc, slice, slice?_ofText, Option.getD_some]
  have isSecond : slice source (ofText (front ++ covered).byteSize later) = later := by
    rw [whole, slice, slice?_ofText, Option.getD_some]
  have isWhole : slice source (ofText front.byteSize (covered ++ later)) = covered ++ later := by
    rw [whole, List.append_assoc, ← List.append_assoc covered, slice, slice?_ofText,
      Option.getD_some]
  simp only [ofText, Text.byteSize_append, ← Nat.add_assoc] at isFirst isSecond isWhole ⊢
  rw [isFirst, isSecond, isWhole]

end Span

/-! ### Code -/

section Code

variable (names : RuntimeNames) {source sequel : Text} {nodes later whole : List Node}

theorem renderAll_of_parse_append (parsed : parse source = .ok nodes) :
    renderAll names (source ++ sequel) nodes = renderAll names source nodes := by
  have same : SameTexts 0 source (source ++ sequel) (spansOf nodes) := by
    intro span member
    show (span.slice? (source ++ sequel)).getD [] = (span.slice? source).getD []
    rw [(within_of_parse parsed member).slice?_append_eq]
  have code := renderAll_shift names nodes same
  rwa [shiftAll_zero] at code

theorem renderAll_shift_of_parse (parsed : parse sequel = .ok later) :
    renderAll names (source ++ sequel) (shiftAll source.byteSize later) =
      renderAll names sequel later :=
  renderAll_shift names later fun _ member => (within_of_parse parsed member).slice_shift source

/-- Code that is read as one node across the seam is the code before it and the code behind
    it. -/
theorem renderAll_joins (before : ∀ span ∈ spansOf nodes, span.Within source)
    (behind : ∀ span ∈ spansOf later, span.Within source) (joins : Joins nodes later whole) :
    renderAll names source whole =
      renderAll names source nodes ++ renderAll names source later := by
  cases joins with
  | apart => exact renderAll_append names source nodes later
  | code front later start seam stop =>
    have first : Span.Within source ⟨start, seam⟩ := by
      refine before _ ?_
      rw [spansOf_append]
      exact List.mem_append_right _ (List.mem_singleton_self _)
    have second : Span.Within source ⟨seam, stop⟩ := behind _ (List.mem_cons_self ..)
    have code := Span.slice_append_slice first second
    simp only [renderAll_append, renderAll, render, Rendered.code, code, List.append_assoc,
      List.append_nil]

end Code

/-! ### Failures -/

/-- A failure points behind a line break at the beginning. -/
theorem exists_append_of_parse_error {sequel : Text} {failure : Failure}
    (begins : sequel.head? = some '\n') (failed : parse sequel = .error failure) :
    ∃ front back, sequel = front ++ back ∧ failure.position = front.byteSize ∧ '\n' ∈ front := by
  obtain ⟨rest, rfl⟩ := List.head?_eq_some_iff.mp begins
  rcases Scanner.pointsInto_of_parse failed with
    ⟨position, -⟩ | ⟨front, back, found, split, position, -⟩
  · exact ⟨'\n' :: rest, [], (List.append_nil _).symm, by omega, List.mem_cons_self ..⟩
  · refine ⟨front, found.closing :: back, split, by omega, ?_⟩
    cases front with
    | nil =>
      -- No bracket is a line break.
      have closing : '\n' = found.closing := (List.cons.inj split).1
      cases found <;> cases closing
    | cons c front =>
      obtain rfl : '\n' = c := (List.cons.inj split).1
      exact List.mem_cons_self ..

theorem exists_column_of_parse_error {source sequel : Text} {failure : Failure}
    (begins : sequel.head? = some '\n') (failed : parse sequel = .error failure) :
    ∃ here there, sequel.position? failure.position = some here ∧
      (source ++ sequel).position? (failure.shift source.byteSize).position = some there ∧
        there.column = here.column := by
  obtain ⟨front, back, rfl, position, hasBreak⟩ := exists_append_of_parse_error begins failed
  have shifted : (failure.shift source.byteSize).position = (source ++ front).byteSize := by
    rw [Text.byteSize_append, ← position]
    exact Nat.add_comm _ _
  rw [shifted, position, ← List.append_assoc]
  refine ⟨_, _, LineIndex.position?_append front back, LineIndex.position?_append _ back, ?_⟩
  show (source ++ front).lastLine.length + 1 = front.lastLine.length + 1
  rw [Text.lastLine_append hasBreak]

/-! ### Compiling -/

theorem compile_append_of_parse (names : RuntimeNames) {source rest : Text}
    {nodes later : List Node} (noEnd : '>' ∉ '\n' :: rest) (parsed : parse source = .ok nodes)
    (parsed' : parse ('\n' :: rest) = .ok later) :
    compile names (source ++ '\n' :: rest) =
      .ok (renderAll names source nodes ++ renderAll names ('\n' :: rest) later) := by
  have joined := parse_append noEnd parsed
  rw [parsed'] at joined
  obtain ⟨whole, joins, longer⟩ := joined
  have before : ∀ span ∈ spansOf nodes, span.Within (source ++ '\n' :: rest) :=
    fun span member => (within_of_parse parsed member).append _
  have behind : ∀ span ∈ spansOf (shiftAll source.byteSize later),
      span.Within (source ++ '\n' :: rest) := by
    rw [spansOf_shiftAll, List.forall_mem_map]
    exact fun span member => (within_of_parse parsed' member).shift source
  refine compile_eq_ok_iff.mpr ⟨whole, longer, ?_⟩
  rw [renderAll_joins names before behind joins, renderAll_of_parse_append names parsed,
    renderAll_shift_of_parse names parsed']

/-- **Compiling goes line by line.**  Let a source compile, and let a text follow that begins
    with a line break and holds no `>`.  If the text compiles, so does the whole, and the
    output is put together from the two outputs.  If it does not, then the whole does not
    either, and the same is expected there, as many bytes further on as the source has. -/
theorem compile_append (names : RuntimeNames) {source sequel code : Text}
    (compiled : compile names source = .ok code) (begins : sequel.head? = some '\n')
    (noEnd : '>' ∉ sequel) :
    match compile names sequel with
    | .ok more => compile names (source ++ sequel) = .ok (code ++ more)
    | .error (.invalid error) =>
      ∃ error', compile names (source ++ sequel) = .error (.invalid error') ∧
        error'.expected = error.expected ∧ error'.position = error.position + source.byteSize
    | .error (.unshowable failure) => compile names (source ++ sequel) =
      .error (.unshowable (failure.shift source.byteSize)) := by
  obtain ⟨nodes, parsed, rfl⟩ := compile_eq_ok_iff.mp compiled
  obtain ⟨rest, rfl⟩ := List.head?_eq_some_iff.mp begins
  cases reply : parse ('\n' :: rest) with
  | ok later =>
    rw [compile_eq_ok_iff.mpr ⟨later, reply, rfl⟩]
    exact compile_append_of_parse names noEnd parsed reply
  | error failure =>
    have joined := parse_append noEnd parsed
    rw [reply] at joined
    obtain ⟨here, there, found, found', column⟩ := exists_column_of_parse_error begins reply
    -- The column decides whether there is a syntax error, and it is the same for both.
    have alone := compile_of_parse_error names reply found
    have longer := compile_of_parse_error names joined found'
    rw [column] at longer
    split at longer
    next shown =>
      rw [if_pos shown] at alone
      obtain ⟨error, failed, rfl⟩ := alone
      obtain ⟨error', failed', moved⟩ := longer
      rw [failed]
      refine ⟨error', failed', ?_, ?_⟩
      · rw [SyntaxError.expected, SyntaxError.expected, moved]
        rfl
      · rw [SyntaxError.position, SyntaxError.position, moved]
        rfl
    next hidden =>
      rw [if_neg hidden] at alone
      rw [alone]
      exact longer

theorem compile_append_lineComment :
    compile {} "<p*>//é" = .ok "Moon.view.components.p//é" ∧
      (compile {} "\n#a#" = .ok "\n/*a*/" ∧
        compile {} "<p*>//é\n#a#" = .ok "Moon.view.components.p//é\n/*a*/") ∧
      ∃ error error', compile {} "\n(a]" = .error (.invalid error) ∧ error.position = 3 ∧
        compile {} "<p*>//é\n(a]" = .error (.invalid error') ∧ error'.expected = error.expected ∧
          error'.position = 3 + 8 := by
  have compiled : compile {} "<p*>//é" = .ok "Moon.view.components.p//é" := by decide +kernel
  have more : compile {} "\n#a#" = .ok "\n/*a*/" := by decide +kernel
  have failed : parse "\n(a]" = .error ⟨.word [')'], 3⟩ := by decide +kernel
  have place : Text.position? "\n(a]" 3 = some ⟨2, 3⟩ := by decide +kernel
  refine ⟨compiled, ⟨more, ?_⟩, ?_⟩
  · have begins : ("\n#a#" : Text).head? = some '\n' := rfl
    have whole := compile_append {} compiled begins (by decide)
    rwa [more] at whole
  · have begins : ("\n(a]" : Text).head? = some '\n' := rfl
    have whole := compile_append {} compiled begins (by decide)
    obtain ⟨error, alone, failure⟩ := compile_of_parse_error {} failed place
    have position : error.position = 3 := by rw [SyntaxError.position, failure]
    rw [alone] at whole
    obtain ⟨error', longer, expected, moved⟩ := whole
    rw [position] at moved
    exact ⟨error, error', alone, position, longer, expected, moved⟩

end ViewScript
