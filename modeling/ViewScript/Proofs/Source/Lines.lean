/-
  ViewScript/Proofs/Source/Lines.lean
  ===================================
  **Reading lines and places from a line index.**

  The index of a source holds the offsets at which the pieces between its line breaks
  start.  So every line that the index knows can be read, and every boundary has a
  place.
-/
import ViewScript.Proofs.Source.Span
import ViewScript.Source.Lines

namespace ViewScript.LineIndex

/-! ### Lines -/

/-- Where lines start, the first one at the offset. -/
def lineStarts (offset : Nat) : List Text → List Nat
  | [] => []
  | line :: lines => offset :: lineStarts (offset + line.byteSize + 1) lines

theorem length_lineStarts (offset : Nat) (lines : List Text) :
    (lineStarts offset lines).length = lines.length := by
  induction lines generalizing offset with
  | nil => rfl
  | cons line lines ih => simp [lineStarts, ih]

theorem cons_startsFrom (offset : Nat) (text : Text) :
    offset :: startsFrom offset text = lineStarts offset (text.splitOn '\n') := by
  induction text generalizing offset with
  | nil => rfl
  | cons c cs ih =>
    rw [List.splitOn_cons_eq_if_modifyHead]
    by_cases isBreak : c = '\n'
    · subst isBreak
      simp only [beq_self_eq_true, if_true, lineStarts]
      rw [startsFrom, if_pos rfl, ih]
      rfl
    · obtain ⟨line, lines, split⟩ := List.exists_cons_of_ne_nil (List.splitOn_ne_nil '\n' cs)
      have tail := ih (offset + c.utf8Size)
      rw [split, lineStarts, List.cons.injEq] at tail
      simp only [beq_iff_eq, isBreak, if_false, split, List.modifyHead_cons, lineStarts]
      rw [startsFrom, if_neg isBreak, tail.2, Text.byteSize_cons, ← Nat.add_assoc]

/-- The text from where a line starts up to the break before the next line, or up to
    the end of the source, is the line. -/
theorem slice?_lineStarts (front : Text) (lines : List Text) {n : Nat} {line : Text}
    (found : lines[n]? = some line) :
    ∃ start, (lineStarts front.byteSize lines)[n]? = some start ∧
      Span.slice? (front ++ ['\n'].intercalate lines) ⟨start,
        match (lineStarts front.byteSize lines)[n + 1]? with
        | some next => next - 1
        | none => (front ++ ['\n'].intercalate lines).byteSize⟩ = some line := by
  induction lines generalizing front n with
  | nil => cases found
  | cons first lines ih =>
    cases n with
    | zero =>
      obtain rfl : first = line := by simpa using found
      refine ⟨front.byteSize, rfl, ?_⟩
      cases lines with
      | nil => simpa [lineStarts, Span.ofText] using Span.slice?_ofText front first []
      | cons second lines =>
        simpa [lineStarts, Span.ofText] using
          Span.slice?_ofText front first (['\n'] ++ ['\n'].intercalate (second :: lines))
    | succ n =>
      have found : lines[n]? = some line := by simpa using found
      have filled : lines ≠ [] := by
        rintro rfl
        cases found
      have size : (front ++ (first ++ ['\n'])).byteSize = front.byteSize + first.byteSize + 1 := by
        simp only [Text.byteSize_append, Nat.add_assoc]
        rfl
      have rest := ih (front ++ (first ++ ['\n'])) found
      rw [size] at rest
      simpa [lineStarts, List.intercalate_cons_of_ne_nil filled] using rest

theorem starts_ofSource (source : Text) :
    (ofSource source).starts = (lineStarts 0 (source.splitOn '\n')).toArray := by
  rw [ofSource, cons_startsFrom]

/-- The lines of the index are the pieces between the line breaks. -/
theorem line?_ofSource (source : Text) (n : Nat) :
    (ofSource source).line? (n + 1) = (source.splitOn '\n')[n]? := by
  simp only [line?, starts_ofSource, List.getElem?_toArray]
  cases found : (source.splitOn '\n')[n]? with
  | none =>
    have none : (lineStarts 0 (source.splitOn '\n'))[n]? = none := by
      rw [List.getElem?_eq_none_iff, length_lineStarts]
      exact List.getElem?_eq_none_iff.mp found
    rw [none]
    rfl
  | some line =>
    obtain ⟨start, starts, sliced⟩ := slice?_lineStarts [] (source.splitOn '\n') found
    rw [List.nil_append, List.intercalate_splitOn, Text.byteSize_nil] at sliced
    rw [Text.byteSize_nil] at starts
    rw [starts]
    exact sliced

theorem isSome_line? (source : Text) {n : Nat} (known : n < (ofSource source).starts.size) :
    ((ofSource source).line? (n + 1)).isSome := by
  rw [starts_ofSource, List.size_toArray, length_lineStarts] at known
  rw [line?_ofSource, List.getElem?_eq_getElem known]
  rfl

/-! ### Places -/

theorem isBoundary_of_mem_starts {source : Text} {start : Nat}
    (member : start ∈ (ofSource source).starts) : source.IsBoundary start := by
  rw [starts_ofSource, List.mem_toArray] at member
  obtain ⟨n, known, rfl⟩ := List.getElem_of_mem member
  have isLine : n < (source.splitOn '\n').length := by rwa [length_lineStarts] at known
  obtain ⟨start, starts, sliced⟩ :=
    slice?_lineStarts [] (source.splitOn '\n') (List.getElem?_eq_getElem isLine)
  rw [List.nil_append, List.intercalate_splitOn] at sliced
  rw [Text.byteSize_nil, List.getElem?_eq_getElem known, Option.some.injEq] at starts
  rw [starts]
  exact Span.isBoundary_of_slice? sliced

theorem isBoundary_getD_starts (source : Text) (n : Nat) :
    source.IsBoundary ((ofSource source).starts.getD n 0) := by
  by_cases known : n < (ofSource source).starts.size
  · rw [Array.getD_eq_getD_getElem?, Array.getElem?_eq_getElem known]
    exact isBoundary_of_mem_starts (Array.getElem_mem known)
  · rw [Array.getD_eq_getD_getElem?, Array.getElem?_eq_none (by omega)]
    exact Text.isBoundary_append [] source

/-- Halving keeps to the left of the offset. -/
theorem getD_countUpTo_le (starts : Array Nat) (offset low high : Nat)
    (before : starts.getD (low - 1) 0 ≤ offset) :
    starts.getD (countUpTo starts offset low high - 1) 0 ≤ offset := by
  fun_induction countUpTo starts offset low high with
  | case1 low high more middle left ih => exact ih left
  | case2 low high more middle right ih => exact ih before
  | case3 low high done => exact before

/-- The start of the line of a boundary and the boundary itself. -/
theorem within_line {source : Text} {offset : Nat} (boundary : source.IsBoundary offset) :
    Span.Within source
      ⟨(ofSource source).starts.getD
        (countUpTo (ofSource source).starts offset 0 (ofSource source).starts.size - 1) 0,
        min offset source.byteSize⟩ := by
  rw [Nat.min_eq_left boundary.le_byteSize]
  refine ⟨getD_countUpTo_le _ _ _ _ ?_, boundary.le_byteSize, isBoundary_getD_starts _ _, boundary⟩
  exact Nat.zero_le offset

theorem exists_position? {source : Text} {offset : Nat} (boundary : source.IsBoundary offset) :
    ∃ place, (ofSource source).position? offset = some place := by
  obtain ⟨before, sliced⟩ := Option.isSome_iff_exists.mp (within_line boundary).isValid
  exact ⟨_, Option.map_eq_some_iff.mpr ⟨before, sliced, rfl⟩⟩

theorem startsFrom_append_blanks (offset : Nat) (text : Text) (count : Nat) :
    startsFrom offset (text ++ Text.blanks count) = startsFrom offset text := by
  induction text generalizing offset with
  | nil =>
    show startsFrom offset (Text.blanks count) = []
    induction count generalizing offset with
    | zero => rfl
    | succ count ih => exact ih _
  | cons c cs ih => simp only [List.cons_append, startsFrom, ih]

/-- Blanks at the end of a source do not change the place of a boundary. -/
theorem position?_append_blanks {source : Text} {offset : Nat} (boundary : source.IsBoundary offset)
    (count : Nat) :
    (ofSource (source ++ Text.blanks count)).position? offset =
      (ofSource source).position? offset := by
  have same : (ofSource (source ++ Text.blanks count)).starts = (ofSource source).starts := by
    simp only [ofSource, startsFrom_append_blanks]
  have longer : offset ≤ (source ++ Text.blanks count).byteSize := by
    rw [Text.byteSize_append]
    exact Nat.le_trans boundary.le_byteSize (Nat.le_add_right _ _)
  have within := within_line boundary
  unfold position?
  rw [same]
  simp only [ofSource, Nat.min_eq_left longer, Nat.min_eq_left boundary.le_byteSize] at within ⊢
  rw [within.slice?_append_eq]

/-- The end of a source with one line. -/
theorem position?_byteSize {source : Text} (oneLine : '\n' ∉ source) :
    source.position? source.byteSize = some ⟨1, source.length + 1⟩ := by
  have noBreak : ∀ (offset : Nat) (text : Text), '\n' ∉ text → startsFrom offset text = [] := by
    intro offset text free
    induction text generalizing offset with
    | nil => rfl
    | cons c cs ih =>
      rw [List.mem_cons, not_or] at free
      rw [startsFrom, if_neg (Ne.symm free.1), ih _ free.2]
  have line : countUpTo #[0] source.byteSize 0 1 = 1 := by simp [countUpTo]
  have sliced : Span.slice? source ⟨0, source.byteSize⟩ = some source := by
    simpa [Span.ofText] using (Text.StandsAt.whole source).slice?_eq
  simp [Text.position?, position?, ofSource, noBreak 0 source oneLine, line, sliced]

end ViewScript.LineIndex
