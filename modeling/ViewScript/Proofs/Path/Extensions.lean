/-
  ViewScript/Proofs/Path/Extensions.lean
  ======================================
  **Stems and extensions.**

  A name with an extension is its stem, a dot and the extension, and it is taken apart
  at that dot.  Replacing the extension of a path therefore replaces its last name by one
  with the new extension, except where only dots remain.
-/
import ViewScript.Proofs.Path.Names

namespace ViewScript.Path

/-- A name is taken apart at its last dot. -/
theorem splitName_append {stem extension : Text} (nonempty : stem ≠ [])
    (noDot : '.' ∉ extension) :
    splitName (stem ++ '.' :: extension) = (stem, some extension) := by
  have other : ∀ c ∈ extension.reverse, (c != '.') = true := by
    intro c member
    have apart : c ≠ '.' := by
      rintro rfl
      exact noDot (List.mem_reverse.mp member)
    simpa using apart
  have reversed : (stem ++ '.' :: extension).reverse =
      extension.reverse ++ '.' :: stem.reverse := by simp
  have after : (stem ++ '.' :: extension).reverse.takeWhile (· != '.') = extension.reverse := by
    rw [reversed, List.takeWhile_append_of_pos other]
    simp
  have before : (stem ++ '.' :: extension).reverse.dropWhile (· != '.') =
      '.' :: stem.reverse := by
    rw [reversed, List.dropWhile_append_of_pos other]
    simp
  obtain ⟨c, cs, isStem⟩ := List.exists_cons_of_ne_nil
    (show stem.reverse ≠ [] by simpa using nonempty)
  have stem : (c :: cs).reverse = stem := by rw [← isStem, List.reverse_reverse]
  simp only [splitName, after, before, List.drop_one, List.tail_cons, isStem, stem,
    List.reverse_reverse]

/-- The stem is the name, or what stands before the dot and the extension. -/
theorem splitName_cases (name : Text) :
    splitName name = (name, none) ∨
      ∃ stem extension, splitName name = (stem, some extension) ∧ stem ≠ [] ∧
        name = stem ++ '.' :: extension := by
  cases rest : name.reverse.dropWhile (· != '.') with
  | nil => exact .inl (by simp [splitName, rest])
  | cons c before =>
    have atDot := List.head?_dropWhile_not (· != '.') name.reverse
    obtain rfl : c = '.' := by simpa [rest] using atDot
    cases isBefore : before with
    | nil => exact .inl (by simp [splitName, rest, isBefore])
    | cons d ds =>
      refine .inr ⟨before.reverse, (name.reverse.takeWhile (· != '.')).reverse, ?_, ?_, ?_⟩
      · simp [splitName, rest, isBefore]
      · simp [isBefore]
      · have whole := name.reverse.takeWhile_append_dropWhile (p := (· != '.'))
        rw [rest] at whole
        simpa using congrArg List.reverse whole.symm

/-- The name of a file with another extension.  Of a name like `..x` only the dots
    remain. -/
def renamed (name extension : Text) : Text :=
  if (splitName name).1 = ['.'] ∧ (splitName name).2.any (· != []) = true then ['.', '.']
  else (splitName name).1 ++ '.' :: extension

theorem stem_isPrefix (name : Text) : (splitName name).1 <+: name := by
  rcases splitName_cases name with split | ⟨stem, extension, split, -, whole⟩
  · rw [split]
  · rw [split, whole]
    exact List.prefix_append _ _

theorem stem_ne_nil {name : Text} (nonempty : name ≠ []) : (splitName name).1 ≠ [] := by
  rcases splitName_cases name with split | ⟨stem, extension, split, isStem, -⟩
  · rwa [split]
  · rwa [split]

theorem slash_notMem_renamed {name extension : Text} (slashFree : '/' ∉ name)
    (slashFreeExtension : '/' ∉ extension) : '/' ∉ renamed name extension := by
  have inStem : '/' ∉ (splitName name).1 := fun slash =>
    slashFree ((stem_isPrefix name).subset slash)
  unfold renamed
  split
  · decide
  · simp [inStem, slashFreeExtension]

theorem renamed_solid {name extension : Text} (nonempty : name ≠ []) :
    isVoid (renamed name extension) = false := by
  have isStem := stem_ne_nil nonempty
  unfold renamed
  split
  · decide
  · obtain ⟨c, cs, stem⟩ := List.exists_cons_of_ne_nil isStem
    simp [isVoid, stem]

/-- Another extension changes the name of the file.  Where something is written after the
    name, `..x` is a name like any other. -/
theorem withExtension_eq {path : Path} {name : Text} (named : path.fileName? = some name)
    (extension : Text) :
    path.withExtension extension =
      path.withFileName (if path.split.2.getLast? = some name then renamed name extension
        else (splitName name).1 ++ '.' :: extension) := by
  unfold withExtension renamed
  rw [named]
  by_cases atEnd : path.split.2.getLast? = some name <;>
    by_cases dots : (splitName name).1 = ['.'] <;>
      by_cases more : (splitName name).2.any (· != []) = true <;> simp [atEnd, dots, more]

/-- The path with another extension is in the same folder. -/
theorem LeadsTo.withExtension {path : Path} {folder : List Text} {name extension : Text}
    (leads : path.LeadsTo folder name) (isName : name ≠ ['.', '.'])
    (slashFree : '/' ∉ extension) :
    (path.withExtension extension).LeadsTo folder (renamed name extension) := by
  have isRenamed : path.withExtension extension = path.withFileName (renamed name extension) := by
    have ends : path.split.2.getLast? = some name := by
      obtain ⟨segments, cut, -, -, -⟩ := leads
      simp [split_of_cut (by simp) cut]
    rw [withExtension_eq (leads.fileName?.trans (if_neg isName)), if_pos ends]
  rw [isRenamed]
  exact leads.withFileName (slash_notMem_renamed leads.slash_notMem slashFree)
    (renamed_solid leads.ne_nil)

/-- A name with the new extension has no other. -/
theorem extension_of_renamed {name other extension : Text} (nonempty : name ≠ [])
    (noDot : '.' ∉ extension) (isName : other ≠ ['.', '.'])
    (same : renamed name extension = other) : (splitName other).2 = some extension := by
  unfold renamed at same
  split at same
  next => exact (isName same.symm).elim
  next => rw [← same, splitName_append (stem_ne_nil nonempty) noDot]

end ViewScript.Path
