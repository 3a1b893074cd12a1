/-
  ViewScript/Proofs/Scanner/Failures.lean
  =======================================
  **Where syntax errors point.**

  Every failure of a program is a failure of the scanner, and the scanner fails in two
  kinds of places only.  At the end of the text something is not closed; at a closing
  bracket another one is due, or none.  The rules for tags fail in many more places, but
  no such failure gets out: where no view can be read, a `<` is an operator.
-/
import ViewScript.Proofs.Scanner.Agreement

namespace ViewScript.Scanner

open Grammar ViewScript.Parser

variable {offset : Nat} {text : Text} {failure : Failure}

/-! ### What is missing at the end -/

/-- What can be missing where a text ends. -/
def endings : List Expected :=
  [.word [')'], .word [']'], .word ['\x7d'], .word ['*', '/'], .word ['#'], .word ['"'],
    .word ['\''], .word ['\x60'], .anyChar]

theorem closing_mem_endings (due : Delimiter) : .word [due.closing] ∈ endings := by
  cases due <;> decide

section Missing

variable {rest : Text} {missing : Expected}

theorem marked_endless {mark : Char} (endless : marked mark rest = .endless missing) :
    missing = .anyChar ∨ missing = .word [mark] := by
  unfold marked at endless
  split at endless
  · cases endless
    exact .inl rfl
  · split at endless
    · cases endless
    · cases endless
      exact .inr rfl

theorem slash_endless (endless : slash rest = .endless missing) : missing = .word ['*', '/'] := by
  unfold slash block at endless
  split at endless
  · cases endless
  · split at endless
    · cases endless
    · cases endless
      rfl
  · cases endless

theorem missing_mem_endings {view? : Text → Option Nat} {c : Char}
    (endless : lexeme view? c rest = .whole (.endless missing)) : missing ∈ endings := by
  unfold lexeme at endless
  split at endless
  · obtain rfl := slash_endless (Lexeme.whole.inj endless)
    decide
  all_goals first
    | cases endless
    | rcases marked_endless (Lexeme.whole.inj endless) with rfl | rfl <;> decide

end Missing

/-! ### Failures of the scanner -/

/-- The failure points to the end of the text, where something is missing, or to a closing
    bracket, where none or another one is due. -/
def PointsInto (text : Text) (offset : Nat) (failure : Failure) : Prop :=
  (failure.position = offset + text.byteSize ∧ failure.expected ∈ endings) ∨
  ∃ (front back : Text) (found : Delimiter), text = front ++ found.closing :: back ∧
    failure.position = offset + front.byteSize ∧
      (failure.expected = .endOfInput ∨
        ∃ due : Delimiter, due ≠ found ∧ failure.expected = .word [due.closing])

theorem PointsInto.append (front : Text)
    (later : PointsInto text (offset + front.byteSize) failure) :
    PointsInto (front ++ text) offset failure := by
  rcases later with ⟨position, missing⟩ | ⟨between, back, found, rfl, position, expected⟩
  · refine .inl ⟨?_, missing⟩
    rw [position, Text.byteSize_append, Nat.add_assoc]
  · refine .inr ⟨front ++ between, back, found, ?_, ?_, expected⟩
    · rw [List.append_assoc]
    · rw [position, Text.byteSize_append, Nat.add_assoc]

theorem pointsInto_of_scan {viewAt : Nat → Text → Option Nat} {stack : List Delimiter}
    (failed : scan viewAt stack offset text = .error failure) : PointsInto text offset failure := by
  fun_induction scan viewAt stack offset text with
  | case1 => cases failed
  | case2 offset due stack =>
    cases failed
    exact .inl ⟨rfl, closing_mem_endings due⟩
  | case3 stack offset c rest more is ih =>
    have whole := PointsInto.append (c :: rest.take more) (ih failed)
    rwa [List.cons_append, List.take_append_drop] at whole
  | case4 stack offset c rest delimiter is ih => exact PointsInto.append [c] (ih failed)
  | case5 offset c rest found is =>
    cases failed
    obtain rfl := eq_closing is
    exact .inr ⟨[], rest, found, rfl, rfl, .inl rfl⟩
  | case6 offset c rest due stack is ih => exact PointsInto.append [c] (ih failed)
  | case7 offset c rest found is due stack other =>
    cases failed
    obtain rfl := eq_closing is
    exact .inr ⟨[], rest, found, rfl, rfl, .inr ⟨due, Ne.symm other, rfl⟩⟩
  | case8 stack offset c rest missing is =>
    cases failed
    exact .inl ⟨rfl, missing_mem_endings is⟩

theorem pointsInto_of_parse {source : Text} (failed : parse source = .error failure) :
    PointsInto source 0 failure := by
  have scanned : scan viewLength? [] 0 source = .error failure := by
    rw [← parse_eq_scan, failed]
    rfl
  exact pointsInto_of_scan scanned

/-! ### The words of a report -/

/-- The marks that tags are made of. -/
def tagMarks : List Text :=
  [['<'], ['>'], ['<', '>'], ['<', '/'], ['<', '/', '>'], ['/', '>'], ['*', '>']]

theorem describe_ending {expected : Expected} (missing : expected ∈ endings) :
    expected.describe ∈ (["\")\"", "\"]\"", "\"\x7d\"", "\"*/\"", "\"#\"", "\"\"\"", "\"'\"",
      "\"\x60\"", "any"] : List Text) ∧
    expected.describe ∉ tagMarks.map Text.quoted := by
  revert expected
  decide

end ViewScript.Scanner

namespace ViewScript

open Scanner

/-- **Where syntax errors point.**  If a source is no program, something that is not closed
    is reported at its end, or else a closing bracket at which none, or another one, is
    due.  What a tag is missing is never reported. -/
theorem parse_error_points (source : Text) (failure : Failure)
    (failed : parse source = .error failure) :
    ((failure.position = source.byteSize ∧
        failure.expected.describe ∈ (["\")\"", "\"]\"", "\"\x7d\"", "\"*/\"", "\"#\"", "\"\"\"",
          "\"'\"", "\"\x60\"", "any"] : List Text)) ∨
      ∃ (front back : Text) (found : Delimiter), source = front ++ found.closing :: back ∧
        failure.position = front.byteSize ∧
          (failure.expected.describe = "end of input" ∨
            ∃ due : Delimiter, due ≠ found ∧
              failure.expected.describe = Text.quoted [due.closing])) ∧
    failure.expected.describe ∉ tagMarks.map Text.quoted := by
  rcases pointsInto_of_parse failed with
    ⟨position, missing⟩ | ⟨front, back, found, split, position, expected⟩
  · rw [Nat.zero_add] at position
    exact ⟨.inl ⟨position, (describe_ending missing).1⟩, (describe_ending missing).2⟩
  · rw [Nat.zero_add] at position
    rcases expected with none | ⟨due, other, isDue⟩
    · refine ⟨.inr ⟨front, back, found, split, position, .inl ?_⟩, ?_⟩
      · rw [none]
        rfl
      · rw [none]
        decide
    · refine ⟨.inr ⟨front, back, found, split, position, .inr ⟨due, other, ?_⟩⟩, ?_⟩
      · rw [isDue]
        rfl
      · rw [isDue]
        exact (describe_ending (closing_mem_endings due)).2

theorem parse_error_points_tag :
    parse "f(<p a=[1)>" = .error ⟨.word [']'], 9⟩ ∧
      ∃ (front back : Text) (found due : Delimiter),
        ("f(<p a=[1)>" : Text) = front ++ found.closing :: back ∧ 9 = front.byteSize ∧
          due ≠ found ∧ Text.quoted [']'] = Text.quoted [due.closing] := by
  have failed : parse "f(<p a=[1)>" = .error ⟨.word [']'], 9⟩ := by decide +kernel
  refine ⟨failed, ?_⟩
  rcases (parse_error_points _ _ failed).1 with
    ⟨atEnd, -⟩ | ⟨front, back, found, split, position, none | ⟨due, other, isDue⟩⟩
  · exact absurd atEnd (by decide)
  · exact absurd none (by decide)
  · exact ⟨front, back, found, due, split, position, other, isDue⟩

end ViewScript
