/-
  ViewScript/Proofs/Project/Sources.lean
  ======================================
  **Sources and the places of their code.**

  A search from a plain root finds files, and each is found under the names that lead to
  it from the root.  None of the folders between is hidden.  The code of a source goes
  below a base, which is the same for all sources, under the same names; only the
  extension of the file is another.

  Two things follow that keep files apart.  Code never takes the place of a source,
  unless its extension is one of the extensions of sources.  And a temporary file, whose
  name is that of a hidden file, never stands where code or a folder for code goes.
-/
import ViewScript.Proofs.Project.Search
import ViewScript.Proofs.Project.Writing

namespace ViewScript

/-! ### The place of the code -/

section Place

variable {root input : Path} {inner : Location} {name : Text}

end Place

theorem head?_ne_dot {name : Text} (seen : isSkippedFolder name = false) :
    name.head? ≠ some '.' := by
  intro hidden
  simp [isSkippedFolder, hidden] at seen

theorem temporaryName_ne_renamed (processId : Nat) (name other : Text) :
    temporaryName processId name ≠ Path.renamed other outputExtension := by
  intro same
  have ends := congrArg List.getLast? same
  obtain ⟨digits, digit, isDigits⟩ : ∃ digits digit, Text.ofNat processId = digits ++ [digit] := by
    rcases List.eq_nil_or_concat (Text.ofNat processId) with none | ⟨digits, digit, isDigits⟩
    · exact (Nat.toDigits_ne_nil none).elim
    · exact ⟨digits, digit, by rw [isDigits, List.concat_eq_append]⟩
  have isDigit : digit.isDigit = true :=
    Nat.isDigit_of_mem_toDigits (by decide) (by decide)
      (show digit ∈ Text.ofNat processId by simp [isDigits])
  have atEnd : (temporaryName processId name).getLast? = some digit := by
    rw [temporaryName, isDigits, ← List.append_assoc, List.getLast?_concat]
  rw [atEnd] at ends
  unfold Path.renamed at ends
  split at ends
  next =>
    obtain rfl : digit = '.' := by simpa using ends
    exact absurd isDigit (by decide)
  next =>
    have isExtension : outputExtension = ['j', 's'] := rfl
    obtain rfl : digit = 's' := by simpa [isExtension] using ends
    exact absurd isDigit (by decide)

section Apart

variable {disk : Disk} {config : ProjectConfig} {root : Path} {outDir : Option Path}
  {base : Location} {input input' : Path} {folder folder' : Location} {name name' : Text}
  {inner inner' : Location}

end Apart

end ViewScript
