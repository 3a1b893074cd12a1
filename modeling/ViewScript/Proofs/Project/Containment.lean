/-
  ViewScript/Proofs/Project/Containment.lean
  ==========================================
  **Code in the output folder.**

  What is kept of the path of a source is what follows the root, or the name of the file, or
  else all of it.  Code goes below the output folder under the path that is kept.  It lies
  in the folder if that path is relative and takes no step up that remains.

  Neither is always so.  A `..` after the root is kept, and what follows the empty root is
  the whole path.  That there are no other conditions is seen from an output folder whose
  name occurs nowhere else.
-/
import ViewScript.Proofs.Path.Relative
import ViewScript.Proofs.Project.Steps

namespace ViewScript

/-! ### The part of a path that is kept -/

variable {input root : Path} {name : Text}

theorem keptPath_cases (input root : Path) :
    (input.relativeTo? root = some (keptPath input root) ∧ (keptPath input root).text ≠ []) ∨
      (∃ name, input.fileName? = some name ∧ keptPath input root = ⟨name⟩) ∨
      input.fileName? = none ∧ keptPath input root = input := by
  unfold keptPath
  split
  next c cs isRest => exact .inl ⟨isRest, List.cons_ne_nil c cs⟩
  next =>
    right
    cases named : input.fileName? with
    | some name => exact .inl ⟨name, rfl, rfl⟩
    | none => exact .inr ⟨rfl, rfl⟩

/-- The kept path ends with the name of the file. -/
theorem keptPath_ends_of_fileName? (named : input.fileName? = some name) (root : Path) :
    ∃ front, (keptPath input root).Ends front name := by
  obtain ⟨front, ends, names, -⟩ := Path.exists_ends named
  rcases keptPath_cases input root with ⟨isRest, written⟩ | ⟨other, isOther, kept⟩ | ⟨unnamed, -⟩
  · by_cases empty : root.text = []
    · rw [Path.eq_tidied_of_relativeTo? isRest empty]
      exact ⟨front, ends⟩
    · obtain ⟨-, sameNames, isEnds⟩ := Path.of_relativeTo? isRest empty
      obtain ⟨front', last, restEnds⟩ := isEnds written
      rw [restEnds.names_eq, names, ← List.append_assoc] at sameNames
      obtain ⟨-, sameLast⟩ := List.append_inj' sameNames rfl
      obtain rfl := List.singleton_inj.mp sameLast
      exact ⟨front', restEnds⟩
  · obtain rfl := Option.some.inj (named.symm.trans isOther)
    rw [kept]
    exact ⟨[], Path.cutAtSlashes_of_notMem (ends.slashFree name (by simp)), ends.solid⟩
  · rw [named] at unnamed
    cases unnamed

/-- The kept path is relative, unless an absolute input is taken relative to the empty path. -/
theorem keptPath_isAbsolute (named : input.fileName? = some name)
    (relative : root.text ≠ [] ∨ input.isAbsolute = false) :
    (keptPath input root).isAbsolute = false := by
  rcases keptPath_cases input root with ⟨isRest, -⟩ | ⟨other, isOther, kept⟩ | ⟨unnamed, -⟩
  · by_cases empty : root.text = []
    · rw [Path.eq_tidied_of_relativeTo? isRest empty, Path.isAbsolute_tidied]
      exact relative.resolve_left (not_not_intro empty)
    · exact (Path.of_relativeTo? isRest empty).1
  · rw [kept]
    exact Path.isAbsolute_eq_false (Path.slash_notMem_fileName? isOther)
  · rw [named] at unnamed
    cases unnamed

/-- Of a path below the root the names below the root are kept. -/
theorem names_keptPath_join (root : Path) {below : Path} (relative : below.isAbsolute = false)
    (some : below.names ≠ []) : (keptPath (root.join below) root).names = below.names := by
  obtain ⟨rest, isRest, names⟩ : ∃ rest, (root.join below).relativeTo? root = .some rest ∧
      rest.names = below.names := by
    by_cases empty : root.text = []
    · obtain ⟨text⟩ := root
      obtain rfl : text = [] := empty
      rw [Path.join_of_text_eq_nil rfl relative]
      exact ⟨below.tidied, rfl, below.names_tidied⟩
    · have isPrefix : root.components <+: (root.join below).components := by
        rw [Path.components_join empty relative]
        exact List.prefix_append _ _
      have isRest := Path.relativeTo?_of_isPrefix empty isPrefix
      obtain ⟨-, names, -⟩ := Path.of_relativeTo? isRest empty
      rw [(Path.continues_join root relative).names] at names
      exact ⟨_, isRest, (List.append_cancel_left names).symm⟩
  unfold keptPath
  rw [isRest]
  split
  next c cs same =>
    rw [← Option.some.inj same]
    exact names
  next other =>
    exfalso
    apply some
    rw [← names]
    apply Path.names_of_text_eq_nil
    obtain ⟨text⟩ := rest
    cases text with
    | nil => rfl
    | cons c cs => exact (other c cs rfl).elim

/-! ### The path of the code -/

/-- The path of the code, as it stands below the output folder. -/
def innerPath (input root : Path) : Path := (keptPath input root).withExtension outputExtension

theorem slash_notMem_outputExtension : '/' ∉ outputExtension := by decide

theorem isAbsolute_innerPath (input root : Path) :
    (innerPath input root).isAbsolute = (keptPath input root).isAbsolute :=
  Path.isAbsolute_withExtension _ slash_notMem_outputExtension

theorem names_innerPath (named : input.fileName? = some name) (root : Path) :
    (innerPath input root).names =
      (keptPath input root).names.dropLast ++ [Path.renamed name outputExtension] := by
  obtain ⟨front, ends⟩ := keptPath_ends_of_fileName? named root
  obtain ⟨-, -, -, notUp, -⟩ := Path.exists_ends named
  have newEnds := ends.withExtension notUp slash_notMem_outputExtension
  rw [innerPath, newEnds.names_eq, ends.names_eq, List.dropLast_concat]

/-- A kept path without a name is left as it is. -/
theorem innerPath_of_names_eq_nil (none : (keptPath input root).names = []) :
    innerPath input root = keptPath input root := by
  apply Path.withExtension_of_none
  rw [Path.fileName?_eq, none]
  rfl

/-- Code whose path is relative goes below the output folder. -/
theorem targetPath_continues (relative : (innerPath input root).isAbsolute = false)
    (some : (keptPath input root).names ≠ []) (outDir : Path) :
    (targetPath input root (.some outDir)).Continues outDir (innerPath input root) := by
  rw [isAbsolute_innerPath] at relative
  exact Path.continues_withExtension_join outDir relative some slash_notMem_outputExtension

/-- Code whose path is absolute goes there, whatever the output folder is. -/
theorem targetPath_of_isAbsolute (absolute : (innerPath input root).isAbsolute = true)
    (outDir : Path) : targetPath input root (some outDir) = innerPath input root := by
  rw [isAbsolute_innerPath] at absolute
  simp only [targetPath, innerPath, Path.join, absolute, if_true]

/-! ### A folder with a name of its own -/

/-- Some name is longer than all texts of a list. -/
theorem exists_longer (texts : List Text) :
    ∃ name, Path.IsName name ∧ '.' ∉ name ∧ ∀ text ∈ texts, text.length < name.length := by
  have only : ∀ c ∈ List.replicate (texts.flatten.length + 1) 'a', c = 'a' :=
    fun c member => List.eq_of_mem_replicate member
  refine ⟨List.replicate (texts.flatten.length + 1) 'a', ⟨?_, ?_, ?_⟩, ?_, ?_⟩
  · exact fun slash => absurd (only _ slash) (by decide)
  · simp [Path.isVoid, List.replicate_succ]
  · simp [List.replicate_succ]
  · exact fun dot => absurd (only _ dot) (by decide)
  · intro text member
    rw [List.length_replicate, Nat.lt_succ_iff]
    exact (List.sublist_flatten_of_mem member).length_le

theorem names_of_isName (isName : Path.IsName name) : Path.names ⟨name⟩ = [name] := by
  rw [Path.names, Path.cutAtSlashes_of_notMem isName.slashFree, Path.namesIn_singleton isName.solid]

theorem resolve_of_isName (isName : Path.IsName name) :
    Path.resolve ⟨name⟩ = { isAbsolute := false, names := [name] } := by
  have names := names_of_isName isName
  rw [Path.resolve_of_noUp (by simpa [names] using isName.notUp.symm), names,
    Path.isAbsolute_eq_false isName.slashFree]

/-- Without a kept name the name of the output folder is taken for that of the file. -/
theorem names_targetPath_of_names_eq_nil (relative : (innerPath input root).isAbsolute = false)
    (none : (keptPath input root).names = []) (isName : Path.IsName name) (noDot : '.' ∉ name) :
    (targetPath input root (some ⟨name⟩)).names = [name ++ '.' :: outputExtension] := by
  rw [isAbsolute_innerPath] at relative
  have joined := (Path.continues_join ⟨name⟩ relative).names
  rw [none, names_of_isName isName, List.append_nil] at joined
  have named : (Path.join ⟨name⟩ (keptPath input root)).fileName? = some name := by
    simp [Path.fileName?_eq, joined, isName.notUp]
  have whole : Path.splitName name = (name, Option.none) := by
    rcases Path.splitName_cases name with whole | ⟨stem, extension, -, -, isDotted⟩
    · exact whole
    · exact (noDot (by simp [isDotted])).elim
  have notDots : Path.renamedIn (Path.join ⟨name⟩ (keptPath input root)) name outputExtension =
      name ++ '.' :: outputExtension := by
    simp [Path.renamedIn, Path.renamed, whole]
  unfold targetPath
  dsimp only
  rw [Path.names_withExtension named slash_notMem_outputExtension, joined, notDots]
  rfl

/-- Code whose path is relative and leads out of the folder where it starts leads out of some
    output folder. -/
theorem exists_not_liesIn (relative : (innerPath input root).isAbsolute = false)
    (outward : ¬ (innerPath input root).LiesIn ⟨[]⟩) :
    ∃ outDir target, outputPath input root (some outDir) = .ok target ∧ ¬ target.LiesIn outDir := by
  obtain ⟨name, isName, noDot, longer⟩ :=
    exists_longer (input.names ++ (innerPath input root).names)
  have isOutDir := resolve_of_isName isName
  refine ⟨⟨name⟩, targetPath input root (some ⟨name⟩), ?_⟩
  rw [outputPath_eq_ok_iff]
  by_cases none : (keptPath input root).names = []
  · -- Then code goes beside the output folder.
    have names := names_targetPath_of_names_eq_nil relative none isName noDot
    refine ⟨⟨rfl, ?_⟩, ?_⟩
    · intro same
      have isInput := (Path.names_of_same same).symm.trans names
      have shorter := longer (name ++ '.' :: outputExtension) (by simp [isInput])
      rw [List.length_append] at shorter
      omega
    · rintro ⟨-, -, isPrefix, -⟩
      rw [isOutDir] at isPrefix
      rcases Way.mem_names_follow (isPrefix.subset List.mem_cons_self) with before | segment
      · cases before
      · simp [names] at segment
  · have continues := targetPath_continues relative none ⟨name⟩
    refine ⟨⟨rfl, ?_⟩, continues.not_liesIn relative outward isOutDir ?_⟩
    · intro same
      have isInput := (Path.names_of_same same).symm.trans continues.names
      exact lt_irrefl _ (longer name (by simp [isInput, names_of_isName isName]))
    · intro member
      exact lt_irrefl _ (longer name (List.mem_append_right _ member))

/-! ### Code in the output folder -/

/-- Code stays in every output folder just if its path takes no step up that remains, or if
    it is never written. -/
theorem liesIn_iff (input root : Path) :
    (∀ outDir target, outputPath input root (some outDir) = .ok target → target.LiesIn outDir) ↔
      (innerPath input root).LiesIn ⟨[]⟩ ∨
        (innerPath input root).isAbsolute = true ∧ (innerPath input root).Same input := by
  constructor
  · intro inside
    by_contra outside
    rw [not_or, not_and] at outside
    obtain ⟨outward, other⟩ := outside
    cases absolute : (innerPath input root).isAbsolute with
    | false =>
      obtain ⟨outDir, target, isTarget, notInside⟩ := exists_not_liesIn absolute outward
      exact notInside (inside outDir target isTarget)
    | true =>
      -- No absolute path lies in a relative folder.
      have isTarget := targetPath_of_isAbsolute absolute ⟨[]⟩
      have lies := inside ⟨[]⟩ (innerPath input root) (by
        rw [outputPath_eq_ok_iff, isTarget]
        exact ⟨rfl, other absolute⟩)
      rw [lies.isAbsolute] at absolute
      cases absolute
  · rintro (inward | ⟨absolute, same⟩) outDir target isTarget
    · obtain ⟨rfl, -⟩ := outputPath_eq_ok_iff.mp isTarget
      obtain ⟨relative, -, remains⟩ := Path.liesIn_nil_iff.mp inward
      refine (targetPath_continues relative ?_ outDir).liesIn inward
      intro none
      apply remains
      rw [innerPath_of_names_eq_nil none, Path.resolve, none]
      rfl
    · obtain ⟨-, other⟩ := outputPath_eq_ok_iff.mp isTarget
      rw [targetPath_of_isAbsolute absolute] at other
      exact absurd same other

/-- A file with a proper name and no `..` on the way from the root has code that stays in
    every output folder. -/
theorem innerPath_liesIn (named : input.fileName? = some name)
    (notUp : Path.renamed name outputExtension ≠ ['.', '.'])
    (relative : root.text ≠ [] ∨ input.isAbsolute = false)
    (noUp : ['.', '.'] ∉ (keptPath input root).names) : (innerPath input root).LiesIn ⟨[]⟩ := by
  have names := names_innerPath named root
  have noUps : ['.', '.'] ∉ (innerPath input root).names := by
    rw [names, List.mem_append, List.mem_singleton, not_or]
    exact ⟨fun inFolder => noUp (List.mem_of_mem_dropLast inFolder), notUp.symm⟩
  have resolved := Path.resolve_of_noUp noUps
  rw [Path.liesIn_nil_iff, resolved, isAbsolute_innerPath]
  refine ⟨keptPath_isAbsolute named relative, rfl, ?_⟩
  simp [names]

/-- The code of a file below the root goes below the output folder under the same names. -/
theorem targetPath_join {below : Path} (root outDir : Path) (relative : below.isAbsolute = false)
    (named : below.fileName? = some name) :
    (targetPath (root.join below) root (some outDir)).isAbsolute = outDir.isAbsolute ∧
      (targetPath (root.join below) root (some outDir)).names =
        outDir.names ++ (below.names.dropLast ++ [Path.renamed name outputExtension]) := by
  obtain ⟨front, -, names, -⟩ := Path.exists_ends named
  have some : below.names ≠ [] := by simp [names]
  have sameName : (root.join below).fileName? = .some name := by
    rw [← named, Path.fileName?_eq, Path.fileName?_eq, (Path.continues_join root relative).names,
      List.getLast?_append_of_ne_nil _ some]
  have kept := names_keptPath_join root relative some
  have inner := names_innerPath sameName root
  have keptRelative : (keptPath (root.join below) root).isAbsolute = false := by
    apply keptPath_isAbsolute sameName
    by_cases empty : root.text = []
    · rw [Path.join_of_text_eq_nil empty relative]
      exact .inr relative
    · exact .inl empty
  rw [← isAbsolute_innerPath] at keptRelative
  have continues := targetPath_continues keptRelative (by rwa [kept]) outDir
  rw [kept] at inner
  exact ⟨continues.start, by rw [continues.names, inner]⟩

/-- **When code stays in the output folder.**  Whatever the output folder is, the code of an
    input lies in it just if no step up remains in the path that is kept, or if that path is
    absolute and the code would overwrite its source, which is refused.  No step up remains
    if there is none on the way from the root to a file with a proper name.  The code of a
    file below the root has the names below the output folder that the file has below the
    root, but for the extension. -/
theorem outputPath_liesIn_iff (input root : Path) :
    let inner := (keptPath input root).withExtension outputExtension
    ((∀ outDir target, outputPath input root (some outDir) = .ok target → target.LiesIn outDir) ↔
      inner.LiesIn "" ∨ inner.isAbsolute = true ∧ inner.Same input) ∧
    (∀ name, input.fileName? = some name → Path.renamed name outputExtension ≠ ['.', '.'] →
      (root.text ≠ [] ∨ input.isAbsolute = false) →
      ['.', '.'] ∉ (keptPath input root).names → inner.LiesIn "") ∧
    ∀ outDir below name, input = root.join below → below.isAbsolute = false →
      below.fileName? = some name →
      ∃ target, target.isAbsolute = outDir.isAbsolute ∧
        target.names =
          outDir.names ++ (below.names.dropLast ++ [Path.renamed name outputExtension]) ∧
        outputPath input root (some outDir) =
          if target.Same input then .error (.outputIsInput target) else .ok target := by
  refine ⟨liesIn_iff input root, ?_, ?_⟩
  · intro name named notUp relative noUp
    exact innerPath_liesIn named notUp relative noUp
  · rintro outDir below name rfl relative named
    obtain ⟨start, names⟩ := targetPath_join root outDir relative named
    exact ⟨_, start, names, rfl⟩

theorem outputPath_liesIn_iff_up :
    (∀ outDir target, outputPath "d/src/a.moon" "d" (some outDir) = .ok target →
      target.LiesIn outDir) ∧
    (∃ target : Path, target.isAbsolute = false ∧ target.names = ["out", "src", "a.js"] ∧
      outputPath "d/src/a.moon" "d" (some "out") =
        if target.Same "d/src/a.moon" then .error (.outputIsInput target) else .ok target) ∧
    (outputPath "d/../a.moon" "d" (some "out") = .ok "out/../a.js" ∧
      ¬ Path.LiesIn "out/../a.js" "out") ∧
    outputPath "/etc/x.moon" "" (some "/out") = .ok "/etc/x.js" ∧
      ¬ Path.LiesIn "/etc/x.js" "/out" := by
  obtain ⟨inside, proper, below⟩ := outputPath_liesIn_iff "d/src/a.moon" "d"
  refine ⟨inside.mpr (.inl ?_), ?_, ⟨rfl, by decide +kernel⟩, rfl, by decide +kernel⟩
  · exact proper "a.moon" rfl (by decide +kernel) (.inl (by decide +kernel)) (by decide +kernel)
  · exact below "out" "src/a.moon" "a.moon" rfl rfl rfl

end ViewScript
