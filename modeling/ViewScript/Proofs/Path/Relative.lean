/-
  ViewScript/Proofs/Path/Relative.lean
  ====================================
  **Joining, and what follows a base.**

  Here a path may be absolute or relative and may have dots and slashes anywhere.  A
  relative path goes on from the path it is joined to.  Conversely, a path goes on from a
  base that it starts with as what follows the base says, and what follows is relative.
  The empty base is an exception: what follows it is the whole path, which may be absolute.

  Another extension changes the last name and nothing else, whether it is replaced before
  paths are joined or after.
-/
import ViewScript.Proofs.Path.Resolution
import ViewScript.Proofs.Project.Targets

namespace ViewScript.Path

variable {path base rest : Path} {front : List Text} {last name : Text}

/-! ### Paths that are joined -/

theorem join_of_text_eq_nil (empty : base.text = []) (relative : path.isAbsolute = false) :
    base.join path = path := by
  simp [join, relative, empty]

theorem names_of_text_eq_nil (empty : base.text = []) : base.names = [] := by
  rw [names, empty]
  rfl

theorem isAbsolute_of_text_eq_nil (empty : base.text = []) : base.isAbsolute = false := by
  rw [isAbsolute, empty]
  rfl

/-- A relative path goes on from the path it is joined to. -/
theorem continues_join (base : Path) (relative : path.isAbsolute = false) :
    (base.join path).Continues base path := by
  by_cases empty : base.text = []
  · rw [join_of_text_eq_nil empty relative]
    constructor
    · rw [relative, isAbsolute_of_text_eq_nil empty]
    · rw [names_of_text_eq_nil empty, List.nil_append]
  · have after := (extends_join_of_relative empty relative).after empty
    refine ⟨after.isAbsolute, ?_⟩
    obtain ⟨segments, split, baseNames⟩ := after
    rw [names_eq_split, split, namesIn_append, baseNames]
    rfl

theorem components_join (written : base.text ≠ []) (relative : path.isAbsolute = false) :
    (base.join path).components = base.components ++ path.names.map componentOf := by
  have continues := continues_join base relative
  obtain ⟨segments, split, -⟩ := (extends_join_of_relative written relative).after written
  rw [components_eq, components_eq base, continues.names, split, List.map_append,
    List.append_assoc]

theorem getLast?_cut_join (base : Path) (relative : path.isAbsolute = false) :
    (cutAtSlashes (base.join path).text).getLast? = (cutAtSlashes path.text).getLast? := by
  by_cases empty : base.text = []
  · rw [join_of_text_eq_nil empty relative]
  · rcases extends_join_of_relative empty relative with ⟨none, -⟩ | ⟨some, front, cut, -⟩
    · exact absurd none (cutAtSlashes_ne_nil _)
    · rw [cut, List.getLast?_append_of_ne_nil _ some]

/-! ### File names -/

theorem Ends.names_eq (ends : path.Ends front last) : path.names = namesIn front ++ [last] := by
  rw [Path.names, ends.cut, namesIn_append, namesIn_singleton ends.solid]

/-- The file is named by the last component. -/
theorem fileName?_eq (path : Path) :
    path.fileName? =
      path.names.getLast?.bind fun name => if name = ['.', '.'] then none else some name := by
  unfold fileName?
  rw [names_eq_split]
  rcases trimEnd_cases path.split.2 with ⟨trimmed, none⟩ | ⟨front, last, trimmed, -, names, -⟩
  · rw [trimmed, none]
    rfl
  · rw [trimmed, names]
    simp

/-! ### Segments without what follows the last component -/

theorem ends_ofSplit (anchor : Anchor) (solid : isVoid last = false)
    (slashFree : ∀ segment ∈ front ++ [last], '/' ∉ segment) :
    (ofSplit anchor (front ++ [last])).Ends (anchor.segments ++ front) last := by
  refine ⟨?_, solid⟩
  rw [cut_ofSplit anchor (by simp) slashFree, List.append_assoc]

theorem namesIn_segments (anchor : Anchor) (front : List Text) :
    namesIn (anchor.segments ++ front) = namesIn front := by
  rw [namesIn_append, namesIn_eq_nil fun _ => isVoid_of_mem_segments, List.nil_append]

/-- Trimming keeps the names. -/
theorem names_ofSplit_trimEnd (anchor : Anchor) {segments : List Text}
    (slashFree : ∀ segment ∈ segments, '/' ∉ segment) :
    (ofSplit anchor (trimEnd segments)).names = namesIn segments := by
  rcases trimEnd_cases segments with
    ⟨trimmed, none⟩ | ⟨front, last, trimmed, solid, names, isPrefix⟩
  · rw [trimmed, none]
    cases anchor <;> rfl
  · have ends := ends_ofSplit anchor solid fun segment member =>
      slashFree segment (isPrefix.subset member)
    rw [trimmed, names, ends.names_eq, namesIn_segments]

/-- The path without what is written after its last component. -/
def tidied (path : Path) : Path := ofSplit path.split.1 (trimEnd path.split.2)

theorem names_tidied (path : Path) : path.tidied.names = path.names := by
  rw [tidied, names_ofSplit_trimEnd _ fun _ => slash_notMem_of_mem_split, names_eq_split]

theorem isAbsolute_tidied (path : Path) : path.tidied.isAbsolute = path.isAbsolute := by
  have isPrefix : path.tidied.text <+: path.text := by
    have shorter := text_ofSplit_isPrefix path.split.1 (trimEnd_isPrefix path.split.2)
    rwa [ofSplit_split] at shorter
  by_cases empty : path.tidied.text = []
  · rw [isAbsolute_of_text_eq_nil empty]
    by_contra absolute
    have root : path.split.1 = .root := isAbsolute_iff.mp (by simpa using absolute)
    simp [tidied, root, ofSplit] at empty
  · exact isAbsolute_of_isPrefix empty isPrefix

/-- Another name takes the place of the last component, and the folder is the same. -/
theorem exists_ends (named : path.fileName? = some name) :
    ∃ front, path.tidied.Ends front name ∧ path.names = namesIn front ++ [name] ∧
      name ≠ ['.', '.'] ∧
      ∀ new, '/' ∉ new → isVoid new = false → (path.withFileName new).Ends front new := by
  unfold fileName? at named
  rcases trimEnd_cases path.split.2 with
    ⟨trimmed, -⟩ | ⟨front, last, trimmed, solid, names, isPrefix⟩
  · rw [trimmed] at named
    cases named
  · have inSplit : ∀ segment ∈ front ++ [last], '/' ∉ segment := fun segment member =>
      slash_notMem_of_mem_split (isPrefix.subset member)
    rw [trimmed, List.getLast?_concat] at named
    dsimp only at named
    split_ifs at named with isUp
    obtain rfl := Option.some.inj named
    refine ⟨path.split.1.segments ++ front, ?_, ?_, isUp, ?_⟩
    · rw [tidied, trimmed]
      exact ends_ofSplit path.split.1 solid inSplit
    · rw [names_eq_split, names, namesIn_segments]
    · intro new slashFree newSolid
      have renamed : path.withFileName new = ofSplit path.split.1 (front ++ [new]) := by
        simp [withFileName, trimmed]
      rw [renamed]
      apply ends_ofSplit path.split.1 newSolid
      intro segment member
      rcases List.mem_append.mp member with before | isLast
      · exact inSplit segment (List.mem_append_left _ before)
      · rwa [List.mem_singleton.mp isLast]

/-! ### Other extensions -/

/-- The name with another extension, in a path that ends with the name or goes on after it. -/
def renamedIn (path : Path) (name extension : Text) : Text :=
  if path.split.2.getLast? = some name then renamed name extension
  else (splitName name).1 ++ '.' :: extension

/-- A segment that has a component is no anchor. -/
theorem getLast?_split_iff (solid : isVoid name = false) :
    path.split.2.getLast? = some name ↔ (cutAtSlashes path.text).getLast? = some name := by
  rw [cut_eq_split, List.getLast?_append]
  cases path.split.2.getLast? with
  | some last => simp
  | none =>
    have other : path.split.1.segments.getLast? ≠ some name := by
      intro isLast
      have void := isVoid_of_mem_segments (List.mem_of_getLast? isLast)
      rw [solid] at void
      cases void
    simpa using other

theorem withExtension_of_none (unnamed : path.fileName? = none) (extension : Text) :
    path.withExtension extension = path := by
  rw [withExtension, unnamed]

theorem renamedIn_cases (path : Path) (name extension : Text) :
    path.renamedIn name extension = ['.', '.'] ∨
      path.renamedIn name extension = (splitName name).1 ++ '.' :: extension := by
  unfold renamedIn renamed
  split_ifs
  · exact .inl rfl
  · exact .inr rfl
  · exact .inr rfl

/-- The path with another extension ends with the new name, in the same folder. -/
theorem ends_withExtension (named : path.fileName? = some name) {extension : Text}
    (slashFree : '/' ∉ extension) :
    ∃ front, path.tidied.Ends front name ∧ path.names = namesIn front ++ [name] ∧
      (path.withExtension extension).Ends front (path.renamedIn name extension) := by
  obtain ⟨front, ends, names, -, renames⟩ := exists_ends named
  have isRenamed : path.withExtension extension =
      path.withFileName (path.renamedIn name extension) := withExtension_eq named extension
  refine ⟨front, ends, names, ?_⟩
  rw [isRenamed]
  have inStem : '/' ∉ (splitName name).1 := fun slash =>
    ends.slashFree name (by simp) ((stem_isPrefix name).subset slash)
  obtain ⟨c, cs, stem⟩ := List.exists_cons_of_ne_nil (stem_ne_nil ends.ne_nil)
  apply renames
  · rcases renamedIn_cases path name extension with isNew | isNew
    · rw [isNew]
      decide
    · rw [isNew]
      simp [inStem, slashFree]
  · rcases renamedIn_cases path name extension with isNew | isNew
    · rw [isNew]
      decide
    · rw [isNew, stem]
      simp [isVoid]

theorem names_withExtension (named : path.fileName? = some name) {extension : Text}
    (slashFree : '/' ∉ extension) :
    (path.withExtension extension).names =
      path.names.dropLast ++ [path.renamedIn name extension] := by
  obtain ⟨front, -, names, ends⟩ := ends_withExtension named slashFree
  rw [ends.names_eq, names, List.dropLast_concat]

theorem isAbsolute_withExtension (path : Path) {extension : Text} (slashFree : '/' ∉ extension) :
    (path.withExtension extension).isAbsolute = path.isAbsolute := by
  cases named : path.fileName? with
  | none => rw [withExtension_of_none named]
  | some name =>
    obtain ⟨front, ends, -, newEnds⟩ := ends_withExtension named slashFree
    rw [ends.isAbsolute_congr newEnds, isAbsolute_tidied]

/-- The extension is replaced in what follows a base. -/
theorem continues_withExtension_join (base : Path) (relative : path.isAbsolute = false)
    (some : path.names ≠ []) {extension : Text} (slashFree : '/' ∉ extension) :
    ((base.join path).withExtension extension).Continues base (path.withExtension extension) := by
  have joined := continues_join base relative
  have sameName : (base.join path).fileName? = path.fileName? := by
    rw [fileName?_eq, fileName?_eq, joined.names, List.getLast?_append_of_ne_nil _ some]
  refine ⟨by rw [isAbsolute_withExtension _ slashFree, joined.start], ?_⟩
  cases named : path.fileName? with
  | none =>
    rw [withExtension_of_none named, withExtension_of_none (sameName.trans named), joined.names]
  | some name =>
    obtain ⟨front, ends, -⟩ := exists_ends named
    have sameEnd : (base.join path).split.2.getLast? = .some name ↔
        path.split.2.getLast? = .some name := by
      rw [getLast?_split_iff ends.solid, getLast?_cut_join base relative,
        getLast?_split_iff ends.solid]
    rw [names_withExtension (sameName.trans named) slashFree, names_withExtension named slashFree,
      joined.names, List.dropLast_append_of_ne_nil some, renamedIn, renamedIn, List.append_assoc]
    simp only [sameEnd]

/-! ### What follows a base -/

/-- With enough names the segments up to and with the last of them are dropped, and those
    without a component after it. -/
theorem exists_dropComponents {count : Nat} {segments : List Text}
    (enough : count ≤ (namesIn segments).length) :
    ∃ front, segments = front ++ dropComponents count segments ∧ (namesIn front).length = count ∧
      ∀ first ∈ (dropComponents count segments).head?, isVoid first = false := by
  induction segments generalizing count with
  | nil =>
    obtain rfl : count = 0 := Nat.le_zero.mp enough
    exact ⟨[], rfl, rfl, by simp [dropComponents]⟩
  | cons segment segments ih =>
    cases count with
    | zero =>
      refine ⟨(segment :: segments).takeWhile isVoid, List.takeWhile_append_dropWhile.symm, ?_, ?_⟩
      · rw [namesIn_eq_nil fun other member => ?_]
        · rfl
        · exact List.all_eq_true.mp List.all_takeWhile other member
      · intro first isFirst
        have atFirst := List.head?_dropWhile_not isVoid (segment :: segments)
        rw [dropComponents] at isFirst
        rw [Option.mem_def.mp isFirst] at atFirst
        simpa using atFirst
    | succ count =>
      cases void : isVoid segment with
      | true =>
        have sameNames : namesIn (segment :: segments) = namesIn segments := by simp [namesIn, void]
        rw [sameNames] at enough
        obtain ⟨front, whole, length, solid⟩ := ih enough
        have dropped : dropComponents (count + 1) (segment :: segments) =
            dropComponents (count + 1) segments := by simp [dropComponents, void]
        rw [dropped]
        refine ⟨segment :: front, by rw [List.cons_append, ← whole], ?_, solid⟩
        rw [← length]
        simp [namesIn, void]
      | false =>
        have moreNames : namesIn (segment :: segments) = segment :: namesIn segments := by
          simp [namesIn, void]
        rw [moreNames, List.length_cons, Nat.succ_le_succ_iff] at enough
        obtain ⟨front, whole, length, solid⟩ := ih enough
        have dropped : dropComponents (count + 1) (segment :: segments) =
            dropComponents count segments := by simp [dropComponents, void]
        rw [dropped]
        refine ⟨segment :: front, by rw [List.cons_append, ← whole], ?_, solid⟩
        rw [← length]
        simp [namesIn, void]

theorem names_of_same {other : Path} (same : path.Same other) : path.names = other.names := by
  have sameAnchor : path.split.1 = other.split.1 := by
    rw [← anchorOf_components, ← anchorOf_components, same]
  rw [Same, components_eq, components_eq, sameAnchor, List.append_cancel_left_eq] at same
  exact componentOf_injective.list_map same

/-- What follows an empty base is the whole path, but for what is written after its last
    component. -/
theorem eq_tidied_of_relativeTo? (isRest : path.relativeTo? base = some rest)
    (empty : base.text = []) : rest = path.tidied := by
  obtain ⟨text⟩ := base
  obtain rfl : text = [] := empty
  exact (Option.some.inj isRest).symm

theorem isAbsolute_eq_false_of_cut {first : Text} {others : List Text}
    (solid : isVoid first = false) (cut : cutAtSlashes path.text = first :: others) :
    path.isAbsolute = false := by
  have written : first ≠ [] := by
    rintro rfl
    cases solid
  by_contra absolute
  have root := isAbsolute_iff.mp (by simpa using absolute)
  rw [split_of_cut_cons cut, if_neg (by simp [written])] at root
  split_ifs at root

/-- Trimmed segments of which the first has a component make a relative path, which is empty
    or ends with a segment. -/
theorem ofSplit_none_trimEnd {segments : List Text}
    (slashFree : ∀ segment ∈ segments, '/' ∉ segment)
    (solid : ∀ first ∈ segments.head?, isVoid first = false) :
    (ofSplit .none (trimEnd segments)).isAbsolute = false ∧
      ((ofSplit .none (trimEnd segments)).text ≠ [] →
        ∃ front last, (ofSplit .none (trimEnd segments)).Ends front last) := by
  rcases trimEnd_cases segments with ⟨trimmed, -⟩ | ⟨front, last, trimmed, lastSolid, -, isPrefix⟩
  · rw [trimmed]
    exact ⟨rfl, fun written => absurd rfl written⟩
  · have ends := ends_ofSplit .none lastSolid fun segment member =>
      slashFree segment (isPrefix.subset member)
    rw [trimmed]
    refine ⟨?_, fun _ => ⟨_, _, ends⟩⟩
    obtain ⟨first, others, isFirst⟩ := List.exists_cons_of_ne_nil
      (show front ++ [last] ≠ [] by simp)
    obtain ⟨back, rfl⟩ := isPrefix
    apply isAbsolute_eq_false_of_cut (solid first (by simp [isFirst]))
    rw [ends.cut, ← isFirst]
    rfl

/-- What follows a base that is not empty is relative. -/
theorem of_relativeTo? (isRest : path.relativeTo? base = some rest) (written : base.text ≠ []) :
    rest.isAbsolute = false ∧ path.names = base.names ++ rest.names ∧
      (rest.text ≠ [] → ∃ front last, rest.Ends front last) := by
  have isPrefix : base.components <+: path.components := by
    unfold relativeTo? at isRest
    split at isRest
    next isPrefix => exact List.isPrefixOf_iff_prefix.mp isPrefix
    next => cases isRest
  obtain ⟨-, back, isNames⟩ := of_components_isPrefix written isPrefix
  rw [relativeTo?_of_isPrefix written isPrefix] at isRest
  obtain rfl := Option.some.inj isRest
  have enough : base.names.length ≤ (namesIn path.split.2).length := by
    rw [← names_eq_split, ← isNames]
    simp
  obtain ⟨front, whole, length, solid⟩ := exists_dropComponents enough
  have slashFree : ∀ segment ∈ dropComponents base.names.length path.split.2, '/' ∉ segment := by
    intro segment member
    apply slash_notMem_of_mem_split
    rw [whole]
    exact List.mem_append_right front member
  obtain ⟨relative, ends⟩ := ofSplit_none_trimEnd slashFree solid
  refine ⟨relative, ?_, ends⟩
  have allNames := names_eq_split path
  rw [whole, namesIn_append, ← isNames] at allNames
  obtain ⟨-, isBack⟩ := List.append_inj allNames length.symm
  rw [names_ofSplit_trimEnd .none slashFree, ← isBack, isNames]

end ViewScript.Path
