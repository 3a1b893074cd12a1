/-
  ViewScript/Proofs/Project/Targets.lean
  ======================================
  **Where code goes, for paths of every kind.**

  The code of a file goes to a path that ends with the name of the file, with another
  extension.  This is all that can be said of any path.  Of a source that was found below a
  root more is known: the names between the root and the source are kept.
-/
import ViewScript.Proofs.Path.Endings
import ViewScript.Project.OutputPath

namespace ViewScript

namespace Path

variable {path : Path} {front : List Text} {last : Text}

/-! ### Paths below a path -/

theorem split_of_cut_cons {first : Text} {rest : List Text}
    (cut : cutAtSlashes path.text = first :: rest) :
    path.split =
      if first = [] ∧ rest ≠ [] then (.root, rest)
      else if first = ['.'] then (.here, rest)
      else (.none, first :: rest) := by
  unfold split
  rw [cut]
  split
  next segment segments isCut =>
    obtain ⟨rfl, rfl⟩ := List.cons.inj isCut
    simp
  next segments isCut =>
    obtain ⟨rfl, rfl⟩ := List.cons.inj isCut
    simp
  next noRoot noHere =>
    have relative : ¬ (first = [] ∧ rest ≠ []) := by
      rintro ⟨rfl, some⟩
      obtain ⟨segment, segments, rfl⟩ := List.exists_cons_of_ne_nil some
      exact noRoot _ _ rfl
    have noDot : first ≠ ['.'] := by
      rintro rfl
      exact noHere _ rfl
    rw [if_neg relative, if_neg noDot]

/-- A path below another ends as it does. -/
theorem Ends.join (ends : path.Ends front last) (base : Path) :
    ∃ front', (base.join path).Ends front' last := by
  unfold Path.join
  split
  · exact ⟨front, ends⟩
  split
  next void =>
    rcases List.eq_nil_or_concat base.text with empty | ⟨before, c, text⟩
    · exact ⟨front, by simpa [empty] using ends.cut, ends.solid⟩
    · rw [List.concat_eq_append] at text
      obtain rfl : c = '/' := by simpa [text] using void
      refine ⟨cutAtSlashes before ++ front, ?_, ends.solid⟩
      have written : base.text ++ path.text = before ++ '/' :: path.text := by simp [text]
      rw [written, cutAtSlashes_append_slash, ends.cut, List.append_assoc]
  next =>
    refine ⟨cutAtSlashes base.text ++ front, ?_, ends.solid⟩
    rw [cutAtSlashes_append_slash, ends.cut, List.append_assoc]

/-- What stands before the last segment decides on the anchor. -/
theorem exists_split (front : List Text) :
    ∃ anchor inner, ∀ {path last}, Ends path front last → path.split = (anchor, inner ++ [last]) := by
  cases front with
  | nil =>
    refine ⟨.none, [], fun {path last} ends => ?_⟩
    have notDot : last ≠ ['.'] := by
      rintro rfl
      exact absurd ends.solid (by decide)
    rw [split_of_cut_cons ends.cut]
    simp [notDot]
  | cons first rest =>
    by_cases isRoot : first = []
    · refine ⟨.root, rest, fun ends => ?_⟩
      rw [split_of_cut_cons ends.cut]
      simp [isRoot]
    by_cases isHere : first = ['.']
    · refine ⟨.here, rest, fun ends => ?_⟩
      rw [split_of_cut_cons ends.cut]
      simp [isHere]
    · refine ⟨.none, first :: rest, fun ends => ?_⟩
      rw [split_of_cut_cons ends.cut]
      simp [isRoot, isHere]

/-- Paths that differ in their last segment have the same anchor. -/
theorem Ends.split_congr (ends : path.Ends front last) {other : Path} {last' : Text}
    (ends' : other.Ends front last') {anchor : Anchor} {inner : List Text}
    (split : path.split = (anchor, inner ++ [last])) : other.split = (anchor, inner ++ [last']) := by
  obtain ⟨_, _, isSplit⟩ := exists_split front
  rw [isSplit ends] at split
  obtain ⟨rfl, isInner⟩ := Prod.mk.inj split
  rw [isSplit ends', (List.append_inj' isInner rfl).1]

theorem Ends.isAbsolute_congr (ends : path.Ends front last) {other : Path} {last' : Text}
    (ends' : other.Ends front last') : other.isAbsolute = path.isAbsolute := by
  obtain ⟨anchor, inner, split, -⟩ := ends.split
  rw [Bool.eq_iff_iff, isAbsolute_iff, isAbsolute_iff, ends.split_congr ends' split, split]

/-! ### What follows a base -/

theorem dropComponents_isSuffix (count : Nat) (segments : List Text) :
    dropComponents count segments <:+ segments := by
  induction segments generalizing count with
  | nil => cases count <;> simp [dropComponents]
  | cons segment segments ih =>
    cases count with
    | zero => exact List.dropWhile_suffix _
    | succ count =>
      simp only [dropComponents]
      split
      · exact (ih (count + 1)).trans (List.suffix_cons _ _)
      · exact (ih count).trans (List.suffix_cons _ _)

/-- What follows a base is empty, or ends as the path does. -/
theorem Ends.relativeTo? (ends : path.Ends front last) {base rest : Path}
    (isRest : path.relativeTo? base = some rest) :
    rest.text = [] ∨ ∃ front', rest.Ends front' last := by
  have slashFree := ends.slashFree
  have whole := ofSplit_split path
  obtain ⟨anchor, inner, split, rfl⟩ := ends.split
  unfold Path.relativeTo? at isRest
  rw [split] at isRest whole
  split at isRest
  next =>
    dsimp only at isRest
    split at isRest
    next =>
      rw [trimEnd_append_solid inner ends.solid, whole] at isRest
      obtain rfl := Option.some.inj isRest
      exact .inr ⟨_, ends⟩
    next count _ =>
      generalize (if anchor = .none then count + 1 else count) = count at isRest
      obtain rfl := Option.some.inj isRest
      obtain ⟨dropped, isSuffix⟩ := dropComponents_isSuffix count (inner ++ [last])
      generalize dropComponents count (inner ++ [last]) = kept at isSuffix
      rcases List.eq_nil_or_concat kept with rfl | ⟨before, name, rfl⟩
      · exact .inl rfl
      · right
        rw [List.concat_eq_append, ← List.append_assoc] at isSuffix
        obtain ⟨isInner, isLast⟩ := List.append_inj' isSuffix rfl
        obtain rfl := List.singleton_inj.mp isLast
        rw [List.concat_eq_append, trimEnd_append_solid before ends.solid]
        refine ⟨before, ?_, ends.solid⟩
        rw [cut_ofSplit .none (by simp)]
        · rfl
        · intro segment member
          refine slashFree segment ?_
          rw [← isInner]
          rcases List.mem_append.mp member with member | member
          · simp [member]
          · exact List.mem_append_right _ member
  next => cases isRest

/-! ### Names after a root -/

/-- The path is anchored as the root is, and has the given names after those of the root. -/
def After (path root : Path) (names : List Text) : Prop :=
  ∃ segments, path.split = (root.split.1, segments ++ names) ∧ namesIn segments = root.names

section After

variable {root : Path} {names : List Text}

/-- Only the empty path is cut into one empty segment. -/
theorem text_eq_nil_of_cut (cut : cutAtSlashes path.text = [[]]) : path.text = [] := by
  have joined := join_cutAtSlashes path.text
  rw [cut] at joined
  exact joined.symm

theorem Extends.after (ext : path.Extends root names) (written : root.text ≠ []) :
    path.After root names := by
  rcases ext with ⟨rfl, rfl⟩ | ⟨nonempty, front, cut, isFront⟩
  · exact ⟨path.split.2, by simp, (names_eq_split path).symm⟩
  cases front with
  | nil =>
    rcases isFront with none | slash
    · exact (cutAtSlashes_ne_nil _ none).elim
    · exact (written (text_eq_nil_of_cut slash)).elim
  | cons first rest =>
    obtain ⟨slashes, isRoot, void⟩ : ∃ slashes, cutAtSlashes root.text = first :: (rest ++ slashes) ∧
        namesIn slashes = [] := by
      rcases isFront with same | slash
      · exact ⟨[], by simpa using same, rfl⟩
      · exact ⟨[[]], slash, rfl⟩
    have more : rest ++ slashes = [] → first ≠ [] := by
      rintro none rfl
      rw [none] at isRoot
      exact written (text_eq_nil_of_cut isRoot)
    have rootNames : root.names = namesIn (first :: rest) := by
      rw [Path.names, isRoot, ← List.cons_append, namesIn_append, void, List.append_nil]
    rw [After, split_of_cut_cons cut, split_of_cut_cons isRoot, rootNames]
    by_cases isEmpty : first = []
    · have some : rest ++ slashes ≠ [] := fun none => more none isEmpty
      refine ⟨rest, ?_, ?_⟩
      · simp [isEmpty, some, nonempty]
      · simp [isEmpty]
    · by_cases dot : first = ['.']
      · refine ⟨rest, by simp [dot], ?_⟩
        simp [dot, namesIn, isVoid]
      · exact ⟨first :: rest, by simp [isEmpty, dot], rfl⟩

/-- A path that is not empty has an anchor or a name. -/
theorem names_ne_nil (written : path.text ≠ []) (unanchored : path.split.1 = .none) :
    path.names ≠ [] := by
  obtain ⟨first, rest, cut⟩ := List.exists_cons_of_ne_nil (cutAtSlashes_ne_nil path.text)
  rw [split_of_cut_cons cut] at unanchored
  split_ifs at unanchored with isRoot isHere
  have solid : isVoid first = false := by
    by_contra void
    have isVoid : first = [] ∨ first = ['.'] := by
      simpa [isVoid, or_iff_not_imp_left] using void
    rcases isVoid with rfl | rfl
    · obtain rfl : rest = [] := by simpa using isRoot
      exact written (text_eq_nil_of_cut cut)
    · exact isHere rfl
  simp [Path.names, cut, namesIn, solid]

/-- The anchor is told by the first component. -/
def anchorOf : List Component → Anchor
  | .root :: _ => .root
  | .here :: _ => .here
  | _ => .none

theorem anchorOf_components (path : Path) : anchorOf path.components = path.split.1 := by
  rw [components_eq]
  cases path.split.1 with
  | root => rfl
  | here => rfl
  | none =>
    cases path.names with
    | nil => rfl
    | cons name names =>
      simp only [Anchor.components, List.nil_append, List.map_cons, componentOf]
      split_ifs <;> rfl

theorem anchorOf_append {front : List Component} (some : front ≠ []) (back : List Component) :
    anchorOf (front ++ back) = anchorOf front := by
  obtain ⟨first, rest, rfl⟩ := List.exists_cons_of_ne_nil some
  cases first <;> rfl

theorem components_ne_nil (written : root.text ≠ []) : root.components ≠ [] := by
  intro none
  rw [components_eq, List.append_eq_nil_iff, List.map_eq_nil_iff] at none
  obtain ⟨noAnchor, noNames⟩ := none
  have unanchored : root.split.1 = .none := by
    cases isAnchor : root.split.1 <;> simp [isAnchor, Anchor.components] at noAnchor ⊢
  exact names_ne_nil written unanchored noNames

/-- A path that starts with the components of a root has its anchor and starts with its
    names. -/
theorem of_components_isPrefix (written : root.text ≠ [])
    (isPrefix : root.components <+: path.components) :
    root.split.1 = path.split.1 ∧ root.names <+: path.names := by
  obtain ⟨rest, whole⟩ := isPrefix
  have same : root.split.1 = path.split.1 := by
    rw [← anchorOf_components, ← anchorOf_components, ← whole,
      anchorOf_append (components_ne_nil written)]
  rw [components_eq, components_eq, same, List.append_assoc, List.append_cancel_left_eq] at whole
  obtain ⟨front, back, isNames, isFront, -⟩ := List.map_eq_append_iff.mp whole.symm
  rw [isNames, componentOf_injective.list_map isFront]
  exact ⟨same, List.prefix_append _ _⟩

/-- What follows a root that is not empty are the segments after as many names. -/
theorem relativeTo?_of_isPrefix (written : root.text ≠ [])
    (isPrefix : root.components <+: path.components) :
    path.relativeTo? root =
      some (ofSplit .none (trimEnd (dropComponents root.names.length path.split.2))) := by
  obtain ⟨same, -⟩ := of_components_isPrefix written isPrefix
  have counted := congrArg List.length (components_eq root)
  rw [List.length_append, List.length_map] at counted
  obtain ⟨count, isCount⟩ : ∃ count, root.components.length = count + 1 :=
    Nat.exists_eq_succ_of_ne_zero (by simpa using components_ne_nil written)
  unfold relativeTo?
  rw [if_pos (List.isPrefixOf_iff_prefix.mpr isPrefix), isCount]
  dsimp only
  -- An anchor is a component that is not among the segments.
  have names : (if path.split.1 = .none then count + 1 else count) = root.names.length := by
    rw [← same]
    cases isAnchor : root.split.1 <;> rw [isAnchor] at counted <;>
      simp [Anchor.components] at counted ⊢ <;> omega
  rw [names]

/-- Joining puts names after a path, and also after the empty path. -/
theorem after_join (root : Path) (isNames : ∀ name ∈ names, IsName name) (some : names ≠ []) :
    (root.join ⟨Text.join ['/'] names⟩).After root names := by
  by_cases empty : root.text = []
  · have alone : root.join ⟨Text.join ['/'] names⟩ = ⟨Text.join ['/'] names⟩ := by
      simp [join, isAbsolute_join_eq_false isNames, empty]
    have cut := cutAtSlashes_join some fun name member => (isNames name member).slashFree
    obtain ⟨first, rest, rfl⟩ := List.exists_cons_of_ne_nil some
    have isName := isNames first List.mem_cons_self
    have notDot : first ≠ ['.'] := by
      rintro rfl
      exact absurd isName.solid (by decide)
    obtain ⟨text⟩ := root
    obtain rfl : text = [] := empty
    refine ⟨[], ?_, rfl⟩
    rw [alone, split_of_cut_cons cut, if_neg (by simp [isName.ne_nil]), if_neg notDot]
    rfl
  · exact (extends_join empty isNames some).after empty

namespace After

theorem names_eq (after : path.After root names) (solid : ∀ name ∈ names, isVoid name = false) :
    path.names = root.names ++ names := by
  obtain ⟨segments, split, rootNames⟩ := after
  rw [names_eq_split, split, namesIn_append, rootNames, namesIn_eq_self solid]

theorem components (after : path.After root names) (solid : ∀ name ∈ names, isVoid name = false) :
    path.components = root.components ++ names.map componentOf := by
  have isNamed := after.names_eq solid
  obtain ⟨segments, split, -⟩ := after
  rw [components_eq, components_eq root, isNamed, split, List.map_append, List.append_assoc]

theorem isAbsolute (after : path.After root names) : path.isAbsolute = root.isAbsolute := by
  obtain ⟨segments, split, -⟩ := after
  rw [Bool.eq_iff_iff, isAbsolute_iff, isAbsolute_iff, split]

/-- The last of the names is at the end of the path. -/
theorem ends {inner : List Text} {name : Text} (after : path.After root (inner ++ [name]))
    (solid : isVoid name = false) :
    ∃ front, path.Ends (front ++ inner) name ∧ namesIn front = root.names := by
  obtain ⟨segments, split, rootNames⟩ := after
  refine ⟨root.split.1.segments ++ segments, ⟨?_, solid⟩, ?_⟩
  · rw [cut_eq_split, split]
    simp
  · rw [namesIn_append, rootNames, namesIn_eq_nil fun _ => isVoid_of_mem_segments,
      List.nil_append]

/-- Another extension changes the last of the names. -/
theorem withExtension {inner : List Text} {name extension : Text}
    (after : path.After root (inner ++ [name])) (isName : IsName name) (slashFree : '/' ∉ extension) :
    (path.withExtension extension).After root (inner ++ [renamed name extension]) := by
  obtain ⟨front, ends, -⟩ := after.ends isName.solid
  obtain ⟨segments, split, rootNames⟩ := after
  refine ⟨segments, ?_, rootNames⟩
  rw [← List.append_assoc] at split ⊢
  exact ends.split_congr (ends.withExtension isName.notUp slashFree) split

/-- What follows the root are the names that were put after it. -/
theorem relativeTo? (after : path.After root names) (isNames : ∀ name ∈ names, IsName name)
    (written : root.text ≠ []) : path.relativeTo? root = some ⟨Text.join ['/'] names⟩ := by
  have isPrefix : root.components <+: path.components := by
    rw [after.components fun name member => (isNames name member).solid]
    exact List.prefix_append _ _
  obtain ⟨segments, split, rootNames⟩ := after
  have kept : dropComponents root.names.length (segments ++ names) = names := by
    rw [← rootNames, dropComponents_append]
    cases names with
    | nil => rfl
    | cons first rest => simp [dropComponents, (isNames first List.mem_cons_self).solid]
  have trimmed : trimEnd names = names := by
    rcases List.eq_nil_or_concat names with rfl | ⟨front, last, rfl⟩
    · rfl
    · rw [List.concat_eq_append] at isNames ⊢
      exact trimEnd_append_solid front (isNames last (by simp)).solid
  rw [relativeTo?_of_isPrefix written isPrefix, split]
  dsimp only
  rw [kept, trimmed]
  rfl

end After

end After

end Path

/-! ### The target of a file -/

section Target

variable {input root : Path} {front : List Text} {last : Text}

theorem keptPath_ends (ends : input.Ends front last) (isName : last ≠ ['.', '.']) (root : Path) :
    ∃ front', (keptPath input root).Ends front' last := by
  unfold keptPath
  split
  next c cs isRest =>
    rcases ends.relativeTo? isRest with empty | rest
    · cases empty
    · exact rest
  next =>
    rw [ends.fileName?, if_neg isName]
    exact ⟨[], Path.cutAtSlashes_of_notMem (ends.slashFree last (by simp)), ends.solid⟩

theorem keptPath_of_after {inner : List Text} {name : Text}
    (after : input.After root (inner ++ [name]))
    (isNames : ∀ other ∈ inner ++ [name], Path.IsName other) (written : root.text ≠ []) :
    keptPath input root = ⟨Text.join ['/'] (inner ++ [name])⟩ := by
  have cut := Path.cutAtSlashes_join (by simp) fun other member => (isNames other member).slashFree
  unfold keptPath
  rw [after.relativeTo? isNames written]
  cases joined : Text.join ['/'] (inner ++ [name]) with
  | cons c cs => rfl
  | nil =>
    rw [joined, show Path.cutAtSlashes [] = [] ++ [[]] from rfl] at cut
    have last := List.singleton_inj.mp (List.append_inj' cut rfl).2
    exact ((isNames name (by simp)).ne_nil last.symm).elim

theorem keptPath_self (ends : root.Ends front last) (isName : last ≠ ['.', '.']) :
    keptPath root root = ⟨last⟩ := by
  have after : root.After root [] :=
    Path.Extends.after (.inl ⟨rfl, rfl⟩) ends.text_ne_nil
  unfold keptPath
  rw [after.relativeTo? (by simp) ends.text_ne_nil, ends.fileName?, if_neg isName]
  rfl

/-- The target ends with the name of the file, with the extension of code. -/
theorem targetPath_ends (ends : input.Ends front last) (isName : last ≠ ['.', '.']) (root : Path)
    (outDir : Option Path) :
    ∃ front', (targetPath input root outDir).Ends front' (Path.renamed last outputExtension) := by
  unfold targetPath
  cases outDir with
  | none => exact ⟨front, ends.withExtension isName (by decide)⟩
  | some outDir =>
    obtain ⟨kept, keptEnds⟩ := keptPath_ends ends isName root
    obtain ⟨below, joined⟩ := keptEnds.join outDir
    exact ⟨below, joined.withExtension isName (by decide)⟩

end Target

end ViewScript
