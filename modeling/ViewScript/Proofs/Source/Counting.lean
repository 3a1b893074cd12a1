/-
  ViewScript/Proofs/Source/Counting.lean
  ======================================
  **Lines and columns are what one would count.**

  The place of a boundary is counted in the text before it: its line is one more than the
  line breaks there, and its column one more than the characters behind the last of them.
  Offsets past the end have the place of the end, and offsets inside a character have none.

  The lines of an index are the pieces between the line breaks.  The line of a boundary is
  what stands before it since the last break and what stands behind it up to the next one,
  so that the column leads to the character at the boundary.
-/
import Mathlib.Data.List.DropRight
import ViewScript.Proofs.Source.Places

namespace ViewScript

namespace Text

/-! ### Boundaries and characters -/

/-- The offset lies between the bytes of a character. -/
def SplitsAt (source : Text) (offset : Nat) : Prop :=
  ∃ (front back : Text) (c : Char), source = front ++ c :: back ∧
    front.byteSize < offset ∧ offset < front.byteSize + c.utf8Size

/-- Every offset up to the end is a boundary or lies inside a character. -/
theorem exists_append_or_splitsAt {source : Text} {offset : Nat} (inside : offset ≤ source.byteSize) :
    (∃ front back, source = front ++ back ∧ front.byteSize = offset) ∨ source.SplitsAt offset := by
  induction source generalizing offset with
  | nil => exact .inl ⟨[], [], rfl, (Nat.le_zero.mp inside).symm⟩
  | cons c cs ih =>
    by_cases atStart : offset = 0
    · exact .inl ⟨[], c :: cs, rfl, atStart.symm⟩
    by_cases within : offset < c.utf8Size
    · exact .inr ⟨[], cs, c, rfl, by simp only [byteSize_nil]; omega, by simpa using within⟩
    rw [byteSize_cons] at inside
    rcases @ih (offset - c.utf8Size) (by omega) with
      ⟨front, back, rfl, size⟩ | ⟨front, back, d, rfl, after, before⟩
    · exact .inl ⟨c :: front, back, rfl, by rw [byteSize_cons]; omega⟩
    · exact .inr ⟨c :: front, back, d, rfl, by rw [byteSize_cons]; omega,
        by rw [byteSize_cons]; omega⟩

theorem SplitsAt.lt_byteSize {source : Text} {offset : Nat} (splits : source.SplitsAt offset) :
    offset < source.byteSize := by
  obtain ⟨front, back, c, rfl, -, before⟩ := splits
  rw [byteSize_append, byteSize_cons]
  omega

theorem SplitsAt.not_isBoundary {source : Text} {offset : Nat} (splits : source.SplitsAt offset) :
    ¬ source.IsBoundary offset := by
  intro boundary
  obtain ⟨front, back, c, rfl, after, before⟩ := splits
  obtain ⟨front', back', split, rfl⟩ := boundary.exists_append
  -- The text before the boundary goes on after `front`, and so has all of `c`.
  obtain ⟨more, rfl⟩ : front <+: front' :=
    prefix_of_byteSize_le ⟨c :: back, rfl⟩ ⟨back', split.symm⟩ (Nat.le_of_lt after)
  rw [List.append_assoc, List.append_cancel_left_eq] at split
  cases more with
  | nil => simp at after
  | cons d more =>
    obtain ⟨rfl, -⟩ := List.cons.inj split
    rw [byteSize_append, byteSize_cons] at before
    omega

/-- Two ways to cut a text after the same number of bytes are one. -/
theorem append_inj_of_byteSize {front back front' back' : Text}
    (same : front ++ back = front' ++ back') (size : front.byteSize = front'.byteSize) :
    front = front' ∧ back = back' := by
  have first : front <+: front' :=
    prefix_of_byteSize_le ⟨back, rfl⟩ ⟨back', same.symm⟩ (Nat.le_of_eq size)
  have second : front' <+: front :=
    prefix_of_byteSize_le ⟨back', same.symm⟩ ⟨back, rfl⟩ (Nat.le_of_eq size.symm)
  have length : front.length = front'.length :=
    Nat.le_antisymm first.length_le second.length_le
  exact List.append_inj same length

/-! ### The last line of a text -/

theorem lastLine_eq_self {text : Text} (oneLine : '\n' ∉ text) : text.lastLine = text := by
  refine List.rtakeWhile_eq_self_iff.mpr fun c member => ?_
  have other : c ≠ '\n' := fun isBreak => oneLine (isBreak ▸ member)
  simpa using other

theorem lastLine_cons_break (text : Text) : lastLine ('\n' :: text) = text.lastLine := by
  by_cases hasBreak : '\n' ∈ text
  · exact lastLine_append hasBreak ['\n']
  · rw [lastLine_eq_self hasBreak, lastLine]
    induction text using List.reverseRecOn with
    | nil => rfl
    | append_singleton text c ih =>
      obtain ⟨inFront, inLast⟩ : '\n' ∉ text ∧ '\n' ∉ [c] := by
        simpa only [List.mem_append, not_or] using hasBreak
      have other : c ≠ '\n' := fun isBreak => inLast (by simp [isBreak])
      rw [← List.cons_append, List.rtakeWhile_concat_pos _ _ _ (by simpa using other), ih inFront]

theorem break_notMem_of_mem_splitOn {source line : Text} (member : line ∈ source.splitOn '\n') :
    '\n' ∉ line := by
  induction source generalizing line with
  | nil =>
    rw [List.splitOn_nil, List.mem_singleton] at member
    simp [member]
  | cons c source ih =>
    rw [List.splitOn_cons_eq_if_modifyHead] at member
    by_cases isBreak : c = '\n'
    · rw [if_pos (beq_iff_eq.mpr isBreak), List.mem_cons] at member
      rcases member with rfl | member
      · exact List.not_mem_nil
      · exact ih member
    · obtain ⟨first, lines, split⟩ := List.exists_cons_of_ne_nil (List.splitOn_ne_nil '\n' source)
      rw [if_neg (by simpa using isBreak), split, List.modifyHead_cons, List.mem_cons] at member
      rw [split] at ih
      rcases member with rfl | member
      · rw [List.mem_cons, not_or]
        exact ⟨Ne.symm isBreak, ih List.mem_cons_self⟩
      · exact ih (List.mem_cons_of_mem _ member)

/-- The line that a text ends in goes on behind the text up to the next break. -/
theorem getElem?_splitOn (front back : Text) :
    ((front ++ back).splitOn '\n')[front.count '\n']? =
      some (front.lastLine ++ back.takeWhile (· ≠ '\n')) := by
  induction front with
  | nil =>
    induction back with
    | nil => rfl
    | cons c back ih =>
      rw [List.nil_append, List.splitOn_cons_eq_if_modifyHead]
      by_cases isBreak : c = '\n'
      · simp [isBreak, lastLine]
      · obtain ⟨line, lines, split⟩ := List.exists_cons_of_ne_nil (List.splitOn_ne_nil '\n' back)
        rw [List.nil_append, split] at ih
        obtain rfl : line = back.takeWhile (· ≠ '\n') := by simpa [lastLine] using ih
        simp [isBreak, split, lastLine]
  | cons c front ih =>
    rw [List.cons_append, List.splitOn_cons_eq_if_modifyHead]
    by_cases isBreak : c = '\n'
    · subst isBreak
      simpa [lastLine_cons_break] using ih
    · simp only [beq_iff_eq, isBreak, if_false, List.getElem?_modifyHead]
      have same : List.count '\n' (c :: front) = front.count '\n' :=
        List.count_cons_of_ne isBreak
      rw [same, ih]
      by_cases hasBreak : '\n' ∈ front
      · have behind : lastLine (c :: front) = lastLine front := lastLine_append hasBreak [c]
        have later : front.count '\n' ≠ 0 := Nat.ne_of_gt (List.count_pos_iff.mpr hasBreak)
        simp [behind, later]
      · have first : front.count '\n' = 0 := List.count_eq_zero.mpr hasBreak
        have whole : lastLine (c :: front) = c :: front :=
          lastLine_eq_self (by simp [hasBreak, Ne.symm isBreak])
        simp [first, whole, lastLine_eq_self hasBreak]

/-- The place behind a text, counted. -/
def endPlace (text : Text) : Position := ⟨text.count '\n' + 1, text.lastLine.length + 1⟩

end Text

namespace LineIndex

/-! ### Places -/

theorem position?_ofSource_append (front back : Text) :
    (ofSource (front ++ back)).position? front.byteSize = some front.endPlace :=
  position?_append front back

/-- An offset past the end stands for the end. -/
theorem position?_of_byteSize_le {source : Text} {offset : Nat} (past : source.byteSize ≤ offset) :
    (ofSource source).position? offset = some source.endPlace := by
  have all : ∀ offset, source.byteSize ≤ offset →
      countUpTo (ofSource source).starts offset 0 (ofSource source).starts.size =
        source.count '\n' + 1 := by
    intro offset past
    have upTo : ∀ start ∈ 0 :: startsFrom 0 source, start ≤ offset := by
      intro start member
      rcases List.mem_cons.mp member with rfl | member
      · exact Nat.zero_le _
      · have atMost := (mem_startsFrom member).2
        omega
    have none : ∀ start ∈ ([] : List Nat), offset < start := by simp
    simpa [ofSource, length_startsFrom] using countUpTo_append upTo none
  have atEnd := position?_ofSource_append source []
  rw [List.append_nil] at atEnd
  rw [← atEnd, position?, position?, all offset past, all _ (Nat.le_refl _)]
  have stop : (ofSource source).source = source := rfl
  rw [stop, Nat.min_eq_right past, Nat.min_self]

/-- Only offsets inside a character have no place. -/
theorem position?_eq_none_iff {source : Text} {offset : Nat} :
    (ofSource source).position? offset = none ↔ source.SplitsAt offset := by
  constructor
  · intro none
    by_cases past : source.byteSize ≤ offset
    · rw [position?_of_byteSize_le past] at none
      cases none
    rcases Text.exists_append_or_splitsAt (Nat.le_of_not_le past) with
      ⟨front, back, rfl, rfl⟩ | splits
    · rw [position?_ofSource_append] at none
      cases none
    · exact splits
  · intro splits
    refine Option.eq_none_iff_forall_ne_some.mpr fun place found => splits.not_isBoundary ?_
    obtain ⟨before, sliced, -⟩ := Option.map_eq_some_iff.mp found
    have stop := Span.isBoundary_stop_of_slice? sliced
    have inside : min offset (ofSource source).source.byteSize = offset :=
      Nat.min_eq_left (Nat.le_of_lt splits.lt_byteSize)
    rwa [inside] at stop

/-! ### Lines -/

theorem length_splitOn_break (source : Text) :
    (source.splitOn '\n').length = source.count '\n' + 1 := by
  rw [← length_lineStarts 0, ← cons_startsFrom, List.length_cons, length_startsFrom]

theorem line?_eq_none {source : Text} {n : Nat} (beyond : source.count '\n' + 1 < n) :
    (ofSource source).line? n = none := by
  obtain ⟨m, rfl⟩ : ∃ m, n = m + 1 := ⟨n - 1, by omega⟩
  rw [line?_ofSource, List.getElem?_eq_none_iff, length_splitOn_break]
  omega

/-- The line of a boundary. -/
theorem line?_endPlace (front back : Text) :
    (ofSource (front ++ back)).line? front.endPlace.line =
      some (front.lastLine ++ back.takeWhile (· ≠ '\n')) := by
  rw [Text.endPlace, line?_ofSource, Text.getElem?_splitOn]

/-- **The line index agrees with counting.**  The place of a boundary is that behind the text
    before it, an offset past the end has the place of the end, and an offset has no place
    just when it lies inside a character.  The index has as many lines as there are line
    breaks and one more; with the breaks between them they are the source.  At the place of
    a character that is no line break stands this character. -/
theorem lines_are_counted (source : Text) :
    let index := ofSource source
    let count := source.count '\n' + 1
    (∀ front back : Text, source = front ++ back →
      index.position? front.byteSize =
        some ⟨front.count '\n' + 1, (front.rtakeWhile (· ≠ '\n')).length + 1⟩) ∧
    (∀ offset, source.byteSize ≤ offset →
      index.position? offset = index.position? source.byteSize) ∧
    (∀ offset, index.position? offset = none ↔ source.SplitsAt offset) ∧
    (∃ lines : List Text, lines.length = count ∧ (∀ n, index.line? (n + 1) = lines[n]?) ∧
      ['\n'].intercalate lines = source) ∧
    (∀ n, n = 0 ∨ count < n → index.line? n = none) ∧
    ∀ (front back : Text) (c : Char), source = front ++ c :: back → c ≠ '\n' →
      ∃ place text, index.position? front.byteSize = some place ∧
        index.line? place.line = some text ∧ 1 ≤ place.column ∧
        text[place.column - 1]? = some c := by
  refine ⟨?_, ?_, fun offset => position?_eq_none_iff, ?_, ?_, ?_⟩
  · rintro front back rfl
    exact position?_ofSource_append front back
  · intro offset past
    rw [position?_of_byteSize_le past, position?_of_byteSize_le (Nat.le_refl _)]
  · exact ⟨source.splitOn '\n', length_splitOn_break source, line?_ofSource source,
      List.intercalate_splitOn '\n'⟩
  · rintro n (rfl | beyond)
    · rfl
    · exact line?_eq_none beyond
  · rintro front back c rfl other
    refine ⟨front.endPlace, _, position?_ofSource_append front (c :: back),
      line?_endPlace front (c :: back), Nat.le_add_left _ _, ?_⟩
    simp [Text.endPlace, other]

/-- Two lines with a wide character and an empty third one. -/
theorem lines_are_counted_wide :
    let source : Text := "ab\né<\n"
    let index := ofSource source
    index.position? 5 = some ⟨2, 2⟩ ∧ index.position? 9 = index.position? 7 ∧
      index.position? 7 = some ⟨3, 1⟩ ∧ index.position? 4 = none ∧
      (∃ lines : List Text, lines.length = 3 ∧ (∀ n, index.line? (n + 1) = lines[n]?) ∧
        ['\n'].intercalate lines = source) ∧
      index.line? 0 = none ∧ index.line? 4 = none ∧
      ∃ place text, index.position? 5 = some place ∧ index.line? place.line = some text ∧
        1 ≤ place.column ∧ text[place.column - 1]? = some '<' := by
  intro source index
  obtain ⟨places, past, inside, lines, others, columns⟩ := lines_are_counted source
  refine ⟨places "ab\né" "<\n" rfl, past 9 (by decide), places source [] rfl, ?_, lines,
    others 0 (.inl rfl), others 4 (.inr (by decide)), columns "ab\né" "\n" '<' rfl (by decide)⟩
  exact (inside 4).mpr ⟨"ab\n", "<\n", 'é', rfl, by decide, by decide⟩

end LineIndex

end ViewScript
