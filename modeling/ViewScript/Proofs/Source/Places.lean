/-
  ViewScript/Proofs/Source/Places.lean
  ====================================
  **The place of a boundary.**

  The starts of the lines grow, so halving finds how many of them stand up to an offset.
  These are the start of the source and the starts after the line breaks before the
  offset.  So the line of a boundary counts the line breaks before it, and the column
  counts the characters since the last of them.
-/
import Mathlib.Data.List.DropRight
import ViewScript.Proofs.Source.Lines

namespace ViewScript

/-- What stands behind the last line break of a text. -/
def Text.lastLine (text : Text) : Text := text.rtakeWhile (· ≠ '\n')

theorem Text.lastLine_append {text : Text} (hasBreak : '\n' ∈ text) (front : Text) :
    (front ++ text).lastLine = text.lastLine := by
  induction text using List.reverseRecOn with
  | nil => cases hasBreak
  | append_singleton text c ih =>
    simp only [Text.lastLine] at ih ⊢
    rw [← List.append_assoc]
    by_cases isBreak : c = '\n'
    · rw [List.rtakeWhile_concat_neg _ _ _ (by simp [isBreak]),
        List.rtakeWhile_concat_neg _ _ _ (by simp [isBreak])]
    · have inside : '\n' ∈ text := by
        rcases List.mem_append.mp hasBreak with inside | last
        · exact inside
        · exact absurd (List.mem_singleton.mp last).symm isBreak
      rw [List.rtakeWhile_concat_pos _ _ _ (by simp [isBreak]),
        List.rtakeWhile_concat_pos _ _ _ (by simp [isBreak]), ih inside]

namespace LineIndex

/-! ### Starts up to an offset -/

theorem startsFrom_append (offset : Nat) (front back : Text) :
    startsFrom offset (front ++ back) =
      startsFrom offset front ++ startsFrom (offset + front.byteSize) back := by
  induction front generalizing offset with
  | nil => rfl
  | cons c front ih =>
    rw [List.cons_append, startsFrom, startsFrom, ih, Text.byteSize_cons, ← Nat.add_assoc]
    split
    · rfl
    · rfl

theorem length_startsFrom (offset : Nat) (text : Text) :
    (startsFrom offset text).length = text.count '\n' := by
  induction text generalizing offset with
  | nil => rfl
  | cons c text ih =>
    rw [startsFrom, List.count_cons]
    split
    next isBreak => rw [List.length_cons, ih, if_pos (beq_iff_eq.mpr isBreak)]
    next noBreak => rw [ih, if_neg (by simpa using noBreak), Nat.add_zero]

theorem mem_startsFrom {offset start : Nat} {text : Text}
    (member : start ∈ startsFrom offset text) :
    offset < start ∧ start ≤ offset + text.byteSize := by
  induction text generalizing offset with
  | nil => cases member
  | cons c text ih =>
    have size : 0 < c.utf8Size := c.utf8Size_pos
    have later : start ∈ startsFrom (offset + c.utf8Size) text →
        offset < start ∧ start ≤ offset + Text.byteSize (c :: text) := by
      intro member
      obtain ⟨after, before⟩ := ih member
      rw [Text.byteSize_cons]
      omega
    rw [startsFrom] at member
    split at member
    · rcases List.mem_cons.mp member with rfl | member
      · rw [Text.byteSize_cons]
        omega
      · exact later member
    · exact later member

/-- The last line of a text stands behind the last start. -/
theorem exists_append_lastLine (offset : Nat) (text : Text) :
    ∃ front : Text, text = front ++ text.lastLine ∧
      (offset :: startsFrom offset text).getLast? = some (offset + front.byteSize) := by
  induction text using List.reverseRecOn with
  | nil => exact ⟨[], rfl, rfl⟩
  | append_singleton text c ih =>
    rw [startsFrom_append]
    by_cases isBreak : c = '\n'
    · subst isBreak
      refine ⟨text ++ ['\n'], ?_, ?_⟩
      · rw [Text.lastLine, List.rtakeWhile_concat_neg _ _ _ (by simp), List.append_nil]
      · rw [← List.cons_append, Text.byteSize_append, ← Nat.add_assoc]
        exact List.getLast?_concat
    · obtain ⟨front, split, last⟩ := ih
      have none : startsFrom (offset + Text.byteSize text) [c] = [] := by
        rw [startsFrom, if_neg isBreak, startsFrom]
      refine ⟨front, ?_, ?_⟩
      · rw [Text.lastLine, List.rtakeWhile_concat_pos _ _ _ (by simp [isBreak]),
          ← List.append_assoc, ← Text.lastLine, ← split]
      · rw [none, List.append_nil, last]

/-! ### Halving -/

/-- Halving finds the border between the starts up to the offset and the others. -/
theorem countUpTo_eq {starts : Array Nat} {offset low high count : Nat} (least : low ≤ count)
    (most : count ≤ high) (upTo : ∀ n < count, starts.getD n 0 ≤ offset)
    (beyond : ∀ n, count ≤ n → n < high → offset < starts.getD n 0) :
    countUpTo starts offset low high = count := by
  fun_induction countUpTo starts offset low high with
  | case1 low high more middle left ih =>
    -- A start up to the offset stands before the border.
    have before : middle < count := by
      by_contra after
      have far := beyond middle (by omega) (by omega)
      omega
    exact ih before most beyond
  | case2 low high more middle right ih =>
    have after : count ≤ middle := by
      by_contra before
      exact right (upTo middle (by omega))
    exact ih least after fun n border less => beyond n border (by omega)
  | case3 low high done => omega

theorem countUpTo_append {before beyond : List Nat} {offset : Nat}
    (upTo : ∀ start ∈ before, start ≤ offset) (later : ∀ start ∈ beyond, offset < start) :
    countUpTo (before ++ beyond).toArray offset 0 (before ++ beyond).toArray.size =
      before.length := by
  refine countUpTo_eq (Nat.zero_le _) ?_ ?_ ?_
  · simp
  · intro n inside
    have found : (before ++ beyond).toArray.getD n 0 = before[n] := by
      simp [List.getElem?_append_left inside, inside]
    rw [found]
    exact upTo _ (List.getElem_mem inside)
  · intro n outside inside
    have less : n - before.length < beyond.length := by
      rw [List.size_toArray, List.length_append] at inside
      omega
    have found : (before ++ beyond).toArray.getD n 0 = beyond[n - before.length] := by
      simp [List.getElem?_append_right outside, less]
    rw [found]
    exact later _ (List.getElem_mem less)

/-! ### Places -/

/-- The place of a boundary, counted. -/
theorem position?_append (front back : Text) :
    (front ++ back).position? front.byteSize =
      some ⟨front.count '\n' + 1, front.lastLine.length + 1⟩ := by
  -- The starts of the lines of `front` stand up to the boundary, the others behind it.
  have starts : (ofSource (front ++ back)).starts =
      ((0 :: startsFrom 0 front) ++ startsFrom front.byteSize back).toArray := by
    rw [ofSource, startsFrom_append, Nat.zero_add, List.cons_append]
  have line : countUpTo (ofSource (front ++ back)).starts front.byteSize 0
      (ofSource (front ++ back)).starts.size = front.count '\n' + 1 := by
    rw [starts, countUpTo_append, List.length_cons, length_startsFrom]
    · intro start member
      rcases List.mem_cons.mp member with rfl | member
      · exact Nat.zero_le _
      · simpa using (mem_startsFrom member).2
    · intro start member
      exact (mem_startsFrom member).1
  obtain ⟨before, split, last⟩ := exists_append_lastLine 0 front
  have start : (ofSource (front ++ back)).starts.getD (front.count '\n') 0 = before.byteSize := by
    rw [List.getLast?_eq_getElem?, List.length_cons, length_startsFrom, Nat.add_sub_cancel,
      Nat.zero_add] at last
    have inside : front.count '\n' < (0 :: startsFrom 0 front).length := by
      rw [List.length_cons, length_startsFrom]
      exact Nat.lt_succ_self _
    rw [starts, Array.getD_eq_getD_getElem?, List.getElem?_toArray,
      List.getElem?_append_left inside, last, Option.getD_some]
  have stop : min front.byteSize (front ++ back).byteSize = front.byteSize := by
    rw [Text.byteSize_append]
    exact Nat.min_eq_left (Nat.le_add_right _ _)
  have sliced : Span.slice? (front ++ back) ⟨before.byteSize, front.byteSize⟩ =
      some front.lastLine := by
    have cut := Span.slice?_ofText before front.lastLine back
    rwa [← List.append_assoc, ← split, Span.ofText, ← Text.byteSize_append, ← split] at cut
  rw [Text.position?, position?, line, Nat.add_sub_cancel, start]
  show Option.map _ (Span.slice? (front ++ back) ⟨_, min _ (front ++ back).byteSize⟩) = _
  rw [stop, sliced]
  rfl

end LineIndex

end ViewScript
