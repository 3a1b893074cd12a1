/-
  ViewScript/Proofs/Source/Span.lean
  ==================================
  **Spans that can be read.**

  A span lies *within* a source when both of its ends are boundaries of the source,
  in order.  These are the spans that cover a stretch of whole characters, and the
  spans that have a text.
-/
import Mathlib.Data.List.Infix
import ViewScript.Source.Span

namespace ViewScript

/-! ### Boundaries -/

namespace Text

theorem isBoundary_append (front back : Text) : (front ++ back).IsBoundary front.byteSize := by
  simp [IsBoundary]

theorem IsBoundary.exists_append {source : Text} {offset : Nat}
    (boundary : source.IsBoundary offset) :
    ∃ front back, source = front ++ back ∧ front.byteSize = offset := by
  obtain ⟨back, cut⟩ := Option.isSome_iff_exists.mp boundary
  obtain ⟨front, split, size⟩ := exists_append_of_dropBytes? cut
  exact ⟨front, back, split, size⟩

theorem IsBoundary.le_byteSize {source : Text} {offset : Nat}
    (boundary : source.IsBoundary offset) : offset ≤ source.byteSize := by
  obtain ⟨front, back, rfl, rfl⟩ := boundary.exists_append
  rw [byteSize_append]
  exact Nat.le_add_right _ _

theorem exists_append_of_takeBytes? {n : Nat} {text front : Text}
    (taken : takeBytes? n text = some front) :
    ∃ back, text = front ++ back ∧ byteSize front = n := by
  fun_induction takeBytes? n text generalizing front with
  | case1 text => exact ⟨text, by simp_all, by simp_all⟩
  | case2 => cases taken
  | case3 n c cs fits ih =>
    obtain ⟨rest, isRest, rfl⟩ := Option.map_eq_some_iff.mp taken
    obtain ⟨back, rfl, size⟩ := ih isRest
    exact ⟨back, rfl, by rw [byteSize_cons, size]; omega⟩
  | case4 => cases taken

theorem eq_nil_of_byteSize_eq_zero {text : Text} (empty : text.byteSize = 0) : text = [] := by
  have short := length_le_byteSize text
  exact List.length_eq_zero_iff.mp (by omega)

/-- Of two beginnings of one text, the one with fewer bytes is the beginning of the
    other. -/
theorem prefix_of_byteSize_le {source first second : Text} (isFirst : first <+: source)
    (isSecond : second <+: source) (le : first.byteSize ≤ second.byteSize) : first <+: second := by
  rcases List.prefix_or_prefix_of_prefix isFirst isSecond with isPrefix | ⟨more, rfl⟩
  · exact isPrefix
  · rw [byteSize_append] at le
    obtain rfl : more = [] := eq_nil_of_byteSize_eq_zero (by omega)
    rw [List.append_nil]

end Text

namespace Span

/-- The span of a text that stands at an offset. -/
def ofText (offset : Nat) (text : Text) : Span := ⟨offset, offset + text.byteSize⟩

/-- A span that ends no earlier than it starts, not after the end of the source, and
    splits no character. -/
structure Within (source : Text) (span : Span) : Prop where
  ordered : span.start ≤ span.stop
  inside : span.stop ≤ source.byteSize
  start_isBoundary : source.IsBoundary span.start
  stop_isBoundary : source.IsBoundary span.stop

theorem slice?_ofText (front covered back : Text) :
    (ofText front.byteSize covered).slice? (front ++ (covered ++ back)) = some covered := by
  rw [← List.append_assoc]
  exact slice?_append front covered back

theorem within_ofText (front covered back : Text) :
    (ofText front.byteSize covered).Within (front ++ (covered ++ back)) where
  ordered := Nat.le_add_right _ _
  inside := by
    simp only [ofText, Text.byteSize_append]
    omega
  start_isBoundary := Text.isBoundary_append front (covered ++ back)
  stop_isBoundary := by
    have boundary := Text.isBoundary_append (front ++ covered) back
    rwa [Text.byteSize_append, List.append_assoc] at boundary

namespace Within

variable {source : Text} {span : Span}

theorem exists_ofText (within : span.Within source) :
    ∃ front covered back, source = front ++ (covered ++ back) ∧
      span = ofText front.byteSize covered := by
  obtain ⟨start, stop⟩ := span
  obtain ⟨front, tail, split, rfl⟩ := within.start_isBoundary.exists_append
  obtain ⟨longer, back, rfl, rfl⟩ := within.stop_isBoundary.exists_append
  obtain ⟨covered, rfl⟩ :=
    Text.prefix_of_byteSize_le ⟨tail, split.symm⟩ ⟨back, rfl⟩ within.ordered
  refine ⟨front, covered, back, List.append_assoc .., ?_⟩
  rw [ofText, Text.byteSize_append]

theorem isValid (within : span.Within source) : span.isValid source = true := by
  obtain ⟨front, covered, back, rfl, rfl⟩ := within.exists_ofText
  rw [Span.isValid, slice?_ofText]
  rfl

/-- A span is read from a longer source as from the source itself. -/
theorem slice?_append_eq (within : span.Within source) (more : Text) :
    span.slice? (source ++ more) = span.slice? source := by
  obtain ⟨front, covered, back, rfl, rfl⟩ := within.exists_ofText
  rw [slice?_ofText, List.append_assoc, List.append_assoc, slice?_ofText]

end Within

theorem isBoundary_of_slice? {source covered : Text} {span : Span}
    (sliced : span.slice? source = some covered) : source.IsBoundary span.start := by
  unfold slice? at sliced
  split at sliced
  · obtain ⟨rest, cut, -⟩ := Option.bind_eq_some_iff.mp sliced
    exact Option.isSome_iff_exists.mpr ⟨rest, cut⟩
  · cases sliced

theorem isBoundary_stop_of_slice? {source covered : Text} {span : Span}
    (sliced : span.slice? source = some covered) : source.IsBoundary span.stop := by
  unfold slice? at sliced
  split at sliced
  next ordered =>
    obtain ⟨rest, cut, taken⟩ := Option.bind_eq_some_iff.mp sliced
    obtain ⟨front, rfl, start⟩ := Text.exists_append_of_dropBytes? cut
    obtain ⟨back, rfl, size⟩ := Text.exists_append_of_takeBytes? taken
    have boundary := Text.isBoundary_append (front ++ covered) back
    rw [Text.byteSize_append, List.append_assoc, start, size, Nat.add_sub_of_le ordered] at boundary
    exact boundary
  next => cases sliced

end Span

/-! ### Spans inside a text -/

/-- The span is a stretch of the text that stands at the offset. -/
def Span.Covers (offset : Nat) (text : Text) (span : Span) : Prop :=
  ∃ front covered back, text = front ++ (covered ++ back) ∧
    span = .ofText (offset + front.byteSize) covered

namespace Span.Covers

variable {offset : Nat} {text : Text} {span : Span}

theorem whole (offset : Nat) (text : Text) : Covers offset text (.ofText offset text) :=
  ⟨[], text, [], by simp, rfl⟩

theorem append (covers : Covers offset text span) (more : Text) :
    Covers offset (text ++ more) span := by
  obtain ⟨front, covered, back, rfl, rfl⟩ := covers
  exact ⟨front, covered, back ++ more, by simp, rfl⟩

theorem prepend (front : Text) (covers : Covers (offset + front.byteSize) text span) :
    Covers offset (front ++ text) span := by
  obtain ⟨inner, covered, back, rfl, rfl⟩ := covers
  refine ⟨front ++ inner, covered, back, by simp, ?_⟩
  rw [Text.byteSize_append, Nat.add_assoc]

theorem within {front back : Text} (covers : Covers front.byteSize text span) :
    span.Within (front ++ (text ++ back)) := by
  obtain ⟨before, covered, after, rfl, rfl⟩ := covers
  have within := Span.within_ofText (front ++ before) covered (after ++ back)
  simpa using within

end Span.Covers

/-! ### A text inside a source -/

/-- The text stands in the source at the offset. -/
def Text.StandsAt (source : Text) (offset : Nat) (text : Text) : Prop :=
  ∃ front back, source = front ++ (text ++ back) ∧ front.byteSize = offset

namespace Text.StandsAt

variable {source first second : Text} {offset : Nat}

theorem whole (source : Text) : source.StandsAt 0 source :=
  ⟨[], [], by rw [List.nil_append, List.append_nil], rfl⟩

theorem left (stands : source.StandsAt offset (first ++ second)) :
    source.StandsAt offset first := by
  obtain ⟨front, back, rfl, rfl⟩ := stands
  exact ⟨front, second ++ back, by rw [List.append_assoc], rfl⟩

theorem right (stands : source.StandsAt offset (first ++ second)) :
    source.StandsAt (offset + first.byteSize) second := by
  obtain ⟨front, back, rfl, rfl⟩ := stands
  exact ⟨front ++ first, back, by rw [List.append_assoc, List.append_assoc],
    byteSize_append front first⟩

theorem tail {c : Char} (stands : source.StandsAt offset (c :: second)) :
    source.StandsAt (offset + c.utf8Size) second := by
  have split : source.StandsAt offset ([c] ++ second) := stands
  exact split.right

theorem slice?_eq (stands : source.StandsAt offset first) :
    (Span.ofText offset first).slice? source = some first := by
  obtain ⟨front, back, rfl, rfl⟩ := stands
  exact Span.slice?_ofText front first back

theorem slice_eq (stands : source.StandsAt offset first) :
    (Span.ofText offset first).slice source = first := by
  rw [Span.slice, stands.slice?_eq, Option.getD_some]

end Text.StandsAt

end ViewScript
