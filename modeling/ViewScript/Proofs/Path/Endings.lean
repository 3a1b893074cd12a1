/-
  ViewScript/Proofs/Path/Endings.lean
  ===================================
  **How a path ends.**

  Here a path may be relative and may have dots anywhere.  What it is about is said by its
  last segment, if nothing is written after it: the file, or the folder to be made.  The
  parent, the temporary file and the file with another extension all share what stands
  before the last segment, but for dots and slashes that are dropped from its end.
-/
import ViewScript.Proofs.Path.Extensions

namespace ViewScript

/-- The segments that an anchor is written with. -/
def Anchor.segments : Anchor → List Text
  | .root => [[]]
  | .here => [['.']]
  | .none => []

namespace Path

/-- The path ends with the segment `last`, which has a component, after the segments
    `front`. -/
structure Ends (path : Path) (front : List Text) (last : Text) : Prop where
  cut : cutAtSlashes path.text = front ++ [last]
  solid : isVoid last = false

/-- A path with nothing written after its last component. -/
inductive Tidy : Path → Prop
  | top : Tidy ⟨['/']⟩
  | here : Tidy ⟨['.']⟩
  | ends {path : Path} {front : List Text} {last : Text} (ends : path.Ends front last) : Tidy path

/-! ### Anchors and segments -/

theorem cut_eq_split (path : Path) :
    cutAtSlashes path.text = path.split.1.segments ++ path.split.2 := by
  unfold split
  split
  next segment segments cut => simp [cut, Anchor.segments]
  next segments cut => simp [cut, Anchor.segments]
  next => simp [Anchor.segments]

theorem cut_ofSplit (anchor : Anchor) {segments : List Text} (nonempty : segments ≠ [])
    (slashFree : ∀ segment ∈ segments, '/' ∉ segment) :
    cutAtSlashes (ofSplit anchor segments).text = anchor.segments ++ segments := by
  have cut := cutAtSlashes_join nonempty slashFree
  obtain ⟨first, rest, rfl⟩ := List.exists_cons_of_ne_nil nonempty
  cases anchor with
  | root => simp only [ofSplit, cutAtSlashes_slash, cut, Anchor.segments, List.singleton_append]
  | here =>
    have dot : cutAtSlashes ['.'] = [['.']] := rfl
    rw [ofSplit, show ('.' :: '/' :: Text.join ['/'] (first :: rest)) =
      ['.'] ++ '/' :: Text.join ['/'] (first :: rest) from rfl, cutAtSlashes_append_slash, cut, dot]
    · rfl
    · simp
  | none => simpa [ofSplit, Anchor.segments] using cut

theorem isVoid_of_mem_segments {anchor : Anchor} {segment : Text}
    (member : segment ∈ anchor.segments) : isVoid segment = true := by
  cases anchor <;> simp_all [Anchor.segments, isVoid]

theorem namesIn_eq_nil {segments : List Text} (void : ∀ segment ∈ segments, isVoid segment = true) :
    namesIn segments = [] :=
  List.filter_eq_nil_iff.mpr fun segment member => by simp [void segment member]

theorem names_eq_split (path : Path) : path.names = namesIn path.split.2 := by
  have none : namesIn path.split.1.segments = [] :=
    namesIn_eq_nil fun segment member => isVoid_of_mem_segments member
  rw [names, cut_eq_split, namesIn_append, none, List.nil_append]

/-- The components are that of the anchor and those of the names. -/
theorem components_eq (path : Path) :
    path.components = path.split.1.components ++ path.names.map componentOf := by
  simp [components, names_eq_split, filterMap_componentOf?]

/-- A path is absolute if it is anchored at the root. -/
theorem isAbsolute_iff {path : Path} : path.isAbsolute = true ↔ path.split.1 = .root := by
  constructor
  · intro absolute
    obtain ⟨segments, nonempty, cut⟩ := exists_cut_of_isAbsolute absolute
    rw [split_of_cut nonempty cut]
  · intro root
    unfold split at root
    split at root
    next segment segments cut => exact isAbsolute_of_cut (List.cons_ne_nil _ _) cut
    next => cases root
    next => cases root

/-! ### Paths that end with a segment -/

section Ends

variable {path : Path} {front : List Text} {last : Text}

theorem Ends.split (ends : path.Ends front last) :
    ∃ anchor inner, path.split = (anchor, inner ++ [last]) ∧ front = anchor.segments ++ inner := by
  have cut := (cut_eq_split path).symm.trans ends.cut
  rcases List.eq_nil_or_concat path.split.2 with none | ⟨inner, name, isSplit⟩
  · -- An anchor alone ends with a segment without a component.
    rw [none, List.append_nil] at cut
    have void : isVoid last = true := isVoid_of_mem_segments (cut ▸ List.mem_append_right _ (by simp))
    rw [ends.solid] at void
    cases void
  · rw [List.concat_eq_append] at isSplit
    rw [isSplit, ← List.append_assoc] at cut
    obtain ⟨same, sameLast⟩ := List.append_inj' cut rfl
    obtain rfl := List.singleton_inj.mp sameLast
    exact ⟨path.split.1, inner, Prod.ext rfl isSplit, same.symm⟩

theorem LeadsTo.ends {folder : List Text} (leads : path.LeadsTo folder last) :
    ∃ front, path.Ends front last := by
  obtain ⟨segments, cut, -, -, solid⟩ := leads
  exact ⟨[] :: segments, cut, solid⟩

theorem Ends.slashFree (ends : path.Ends front last) :
    ∀ segment ∈ front ++ [last], '/' ∉ segment := by
  intro segment member
  exact slash_notMem_of_mem_cutAtSlashes (ends.cut ▸ member)

theorem Ends.fileName? (ends : path.Ends front last) :
    path.fileName? = if last = ['.', '.'] then none else some last := by
  obtain ⟨anchor, inner, split, -⟩ := ends.split
  simp [Path.fileName?, split, trimEnd_append_solid inner ends.solid]

theorem Ends.notUp (ends : path.Ends front last) (named : path.fileName? ≠ none) :
    last ≠ ['.', '.'] := by
  intro isUp
  simp [ends.fileName?, isUp] at named

theorem Ends.ne_nil (ends : path.Ends front last) : last ≠ [] := by
  rintro rfl
  exact absurd ends.solid (by decide)

theorem Ends.text_ne_nil (ends : path.Ends front last) : path.text ≠ [] := by
  intro empty
  have cut := ends.cut
  rw [empty, show cutAtSlashes [] = [] ++ [[]] from rfl] at cut
  exact ends.ne_nil (List.singleton_inj.mp (List.append_inj' cut rfl).2).symm

theorem Tidy.text_ne_nil (tidy : path.Tidy) : path.text ≠ [] := by
  cases tidy with
  | top => exact List.cons_ne_nil _ _
  | here => exact List.cons_ne_nil _ _
  | ends ends => exact ends.text_ne_nil

theorem Ends.getLast?_ne_slash (ends : path.Ends front last) :
    path.text.getLast? ≠ some '/' := by
  intro slash
  obtain ⟨before, text⟩ := List.getLast?_eq_some_iff.mp slash
  have cut := ends.cut
  rw [text, cutAtSlashes_append_slash] at cut
  exact ends.ne_nil (List.singleton_inj.mp (List.append_inj' cut rfl).2).symm

/-- Another name takes the place of the last segment. -/
theorem Ends.withFileName (ends : path.Ends front last) {name : Text} (slashFree : '/' ∉ name)
    (solid : isVoid name = false) : (path.withFileName name).Ends front name := by
  have inFront := ends.slashFree
  obtain ⟨anchor, inner, split, rfl⟩ := ends.split
  refine ⟨?_, solid⟩
  have renamed : path.withFileName name = ofSplit anchor (inner ++ [name]) := by
    simp [Path.withFileName, split, trimEnd_append_solid inner ends.solid]
  rw [renamed, cut_ofSplit anchor (by simp), List.append_assoc]
  intro segment member
  rcases List.mem_append.mp member with member | member
  · exact inFront segment (by simp [member])
  · rwa [List.mem_singleton.mp member]

/-- Another extension changes the last segment. -/
theorem Ends.withExtension (ends : path.Ends front last) (isName : last ≠ ['.', '.'])
    {extension : Text} (slashFree : '/' ∉ extension) :
    (path.withExtension extension).Ends front (renamed last extension) := by
  have isRenamed : path.withExtension extension = path.withFileName (renamed last extension) := by
    obtain ⟨anchor, inner, split, -⟩ := ends.split
    have atEnd : path.split.2.getLast? = some last := by simp [split]
    rw [withExtension_eq (ends.fileName?.trans (if_neg isName)), if_pos atEnd]
  rw [isRenamed]
  refine ends.withFileName (slash_notMem_renamed ?_ slashFree) (renamed_solid ends.ne_nil)
  exact ends.slashFree last (by simp)

/-! ### The parent -/

theorem trimEnd_append_void (front : List Text) {back : List Text}
    (void : ∀ segment ∈ back, isVoid segment = true) : trimEnd (front ++ back) = trimEnd front := by
  have voidBack : ∀ segment ∈ back.reverse, isVoid segment = true := by simpa using void
  rw [trimEnd, trimEnd, List.reverse_append, List.dropWhile_append_of_pos voidBack]

theorem forall_isVoid_of_namesIn {segments : List Text} (none : namesIn segments = []) :
    ∀ segment ∈ segments, isVoid segment = true := by
  intro segment member
  have absent := List.filter_eq_nil_iff.mp none segment member
  simpa using absent

/-- Segments without a component have no names, so that trimming keeps all names. -/
theorem namesIn_congr {segments segments' : List Text}
    (same : trimEnd segments = trimEnd segments') : namesIn segments = namesIn segments' := by
  have trimmed : ∀ segments, namesIn (trimEnd segments) = namesIn segments := by
    intro segments
    rcases trimEnd_cases segments with ⟨trimmed, none⟩ | ⟨front, last, trimmed, solid, names, -⟩
    · rw [trimmed, none]
      rfl
    · rw [trimmed, names, namesIn_append, namesIn_singleton solid]
  rw [← trimmed segments, same, trimmed segments']

theorem up_mem_namesIn {segments : List Text} :
    ['.', '.'] ∈ namesIn segments ↔ ['.', '.'] ∈ segments := by
  simp [namesIn, isVoid]

theorem up_mem_congr {segments segments' : List Text}
    (same : trimEnd segments = trimEnd segments') :
    ['.', '.'] ∈ segments ↔ ['.', '.'] ∈ segments' := by
  rw [← up_mem_namesIn, namesIn_congr same, up_mem_namesIn]

theorem text_ofSplit_isPrefix (anchor : Anchor) {front back : List Text} (isPrefix : front <+: back) :
    (ofSplit anchor front).text <+: (ofSplit anchor back).text := by
  obtain ⟨rest, rfl⟩ := isPrefix
  have joined := join_isPrefix front rest
  cases anchor with
  | root => exact List.cons_prefix_cons.mpr ⟨rfl, joined⟩
  | none => exact joined
  | here =>
    cases front with
    | nil => cases rest <;> simp [ofSplit]
    | cons first front =>
      simpa [ofSplit] using joined

theorem isAbsolute_of_isPrefix {shorter : Path} (written : shorter.text ≠ [])
    (isPrefix : shorter.text <+: path.text) : shorter.isAbsolute = path.isAbsolute := by
  obtain ⟨rest, whole⟩ := isPrefix
  obtain ⟨c, cs, text⟩ := List.exists_cons_of_ne_nil written
  simp [isAbsolute, ← whole, text]

/-- Without an anchor the first segment has a component. -/
theorem eq_nil_of_split_eq_none {inner : List Text} (split : path.split = (.none, inner ++ [last]))
    (void : ∀ segment ∈ inner, isVoid segment = true) : inner = [] := by
  have cut := cut_eq_split path
  rw [split, Anchor.segments, List.nil_append] at cut
  cases inner with
  | nil => rfl
  | cons first rest =>
    exfalso
    have isVoid : first = [] ∨ first = ['.'] := by
      simpa [isVoid] using void first List.mem_cons_self
    obtain ⟨next, more, isMore⟩ := List.exists_cons_of_ne_nil
      (show rest ++ [last] ≠ [] by simp)
    rcases isVoid with rfl | rfl
    · simp [Path.split, cut, isMore] at split
    · simp [Path.split, cut] at split

/-- The way to the parent is what stands before the last segment, but for segments without
    a component at its end. -/
theorem Ends.parent? (ends : path.Ends front last) :
    ∃ parent, path.parent? = some parent ∧ parent.text <+: path.text ∧
      trimEnd (cutAtSlashes parent.text) = trimEnd front ∧
      (parent.text = [] ∧ front = [] ∨ parent.text ≠ [] ∧ parent.Tidy) := by
  have slashFree := ends.slashFree
  obtain ⟨anchor, inner, split, rfl⟩ := ends.split
  have above : path.parent? = some (ofSplit anchor (trimEnd inner)) := by
    simp [Path.parent?, split, trimEnd_append_solid inner ends.solid]
  have whole : path = ofSplit anchor (inner ++ [last]) := by
    have same := ofSplit_split path
    rw [split] at same
    exact same.symm
  have isPrefix : trimEnd inner <+: inner ++ [last] :=
    (trimEnd_isPrefix inner).trans (List.prefix_append _ _)
  refine ⟨_, above, whole ▸ text_ofSplit_isPrefix anchor isPrefix, ?_⟩
  rcases trimEnd_cases inner with ⟨trimmed, none⟩ | ⟨before, name, trimmed, solid, names, isPrefix⟩
  · have void := forall_isVoid_of_namesIn none
    rw [trimmed, trimEnd_append_void _ void]
    cases anchor with
    | root => exact ⟨rfl, .inr ⟨List.cons_ne_nil _ _, .top⟩⟩
    | here => exact ⟨rfl, .inr ⟨List.cons_ne_nil _ _, .here⟩⟩
    | none =>
      obtain rfl := eq_nil_of_split_eq_none split void
      exact ⟨rfl, .inl ⟨rfl, rfl⟩⟩
  · obtain ⟨back, rfl⟩ := isPrefix
    have void : ∀ segment ∈ back, isVoid segment = true := by
      apply forall_isVoid_of_namesIn
      rw [namesIn_append, namesIn_append, namesIn_singleton solid] at names
      simpa using names
    have cut : cutAtSlashes (ofSplit anchor (before ++ [name])).text =
        anchor.segments ++ before ++ [name] := by
      rw [cut_ofSplit anchor (by simp), List.append_assoc]
      intro segment member
      refine slashFree segment ?_
      rw [List.append_assoc, List.append_assoc]
      exact List.mem_append_right _ (List.mem_append_left _ member)
    have parentEnds : (ofSplit anchor (before ++ [name])).Ends (anchor.segments ++ before) name :=
      ⟨cut, solid⟩
    rw [trimmed, cut, ← List.append_assoc, trimEnd_append_void _ void, List.append_assoc]
    exact ⟨rfl, .inr ⟨parentEnds.text_ne_nil, .ends parentEnds⟩⟩

theorem isAbsolute_eq_false {name : Text} (slashFree : '/' ∉ name) : isAbsolute ⟨name⟩ = false := by
  cases name with
  | nil => rfl
  | cons c cs =>
    have other : c ≠ '/' := by
      rintro rfl
      simp at slashFree
    simpa [isAbsolute] using other

theorem isAbsolute_join {base : Path} (written : base.text ≠ []) (relative : path.isAbsolute = false) :
    (base.join path).isAbsolute = base.isAbsolute := by
  refine (isAbsolute_of_isPrefix written ?_).symm
  rw [Path.join, relative]
  simp only [Bool.false_eq_true, if_false]
  split <;> exact List.prefix_append _ _

/-- A name below a parent ends the path. -/
theorem Tidy.join {parent : Path} (tidy : parent.Tidy) {name : Text} (slashFree : '/' ∉ name)
    (solid : isVoid name = false) :
    ∃ front, (parent.join ⟨name⟩).Ends front name ∧
      trimEnd front = trimEnd (cutAtSlashes parent.text) := by
  have relative := isAbsolute_eq_false slashFree
  have cutName := cutAtSlashes_of_notMem slashFree
  cases tidy with
  | top =>
    refine ⟨[[]], ⟨?_, solid⟩, rfl⟩
    simp [Path.join, relative, cutAtSlashes_slash, cutName]
  | here =>
    refine ⟨[['.']], ⟨?_, solid⟩, rfl⟩
    have joined : (Path.join ⟨['.']⟩ ⟨name⟩).text = ['.'] ++ '/' :: name := by
      simp [Path.join, relative]
    rw [joined, cutAtSlashes_append_slash, cutName]
    rfl
  | @ends _ front last ends =>
    refine ⟨front ++ [last], ⟨?_, solid⟩, by rw [ends.cut]⟩
    have joined : (parent.join ⟨name⟩).text = parent.text ++ '/' :: name := by
      simp [Path.join, relative, ends.text_ne_nil, ends.getLast?_ne_slash]
    rw [joined, cutAtSlashes_append_slash, cutName, ends.cut]

end Ends

/-! ### Paths of every kind -/

section Parents

variable {path parent : Path}

/-- A text whose last segment is empty ends with a slash. -/
theorem getLast?_of_cut {text : Text} {front : List Text} (nonempty : front ≠ [])
    (cut : cutAtSlashes text = front ++ [[]]) : text.getLast? = some '/' := by
  have behind : ∀ {c : Char} {cs : Text}, cs.getLast? = some '/' →
      List.getLast? (c :: cs) = some '/' := by
    intro c cs last
    rw [List.getLast?_cons, last]
    rfl
  fun_induction cutAtSlashes text generalizing front with
  | case1 =>
    obtain ⟨first, rest, rfl⟩ := List.exists_cons_of_ne_nil nonempty
    simp at cut
  | case2 cs ih =>
    obtain ⟨first, rest, rfl⟩ := List.exists_cons_of_ne_nil nonempty
    obtain ⟨-, others⟩ := List.cons.inj cut
    by_cases only : rest = []
    · have joined := join_cutAtSlashes cs
      rw [others, only] at joined
      rw [← joined]
      rfl
    · exact behind (ih only others)
  | case3 c cs other cut' ih => exact absurd cut' (cutAtSlashes_ne_nil cs)
  | case4 c cs other segment segments cut' ih =>
    obtain ⟨first, rest, rfl⟩ := List.exists_cons_of_ne_nil nonempty
    obtain ⟨-, rfl⟩ := List.cons.inj cut
    exact behind (ih (List.cons_ne_nil segment rest) cut')

theorem slash_notMem_of_mem_split {segment : Text} (member : segment ∈ path.split.2) :
    '/' ∉ segment := by
  have inCut : segment ∈ cutAtSlashes path.text := by
    rw [cut_eq_split]
    exact List.mem_append_right _ member
  exact slash_notMem_of_mem_cutAtSlashes inCut

theorem slash_notMem_of_mem_trimEnd {segment : Text} (member : segment ∈ trimEnd path.split.2) :
    '/' ∉ segment :=
  slash_notMem_of_mem_split ((trimEnd_isPrefix _).mem member)

theorem slash_notMem_fileName? {name : Text} (named : path.fileName? = some name) :
    '/' ∉ name := by
  unfold fileName? at named
  split at named
  next last isLast =>
    split at named
    next => cases named
    next =>
      cases named
      exact slash_notMem_of_mem_trimEnd (List.mem_of_mem_getLast? isLast)
  next => cases named

/-- Nothing is written after the last component of a parent. -/
theorem tidy_of_parent? (above : path.parent? = some parent) :
    parent.text = [] ∨ parent.Tidy := by
  have slashFree : ∀ segment ∈ trimEnd path.split.2, '/' ∉ segment :=
    fun segment member => slash_notMem_of_mem_trimEnd member
  unfold parent? at above
  generalize path.split = split at above slashFree
  obtain ⟨anchor, segments⟩ := split
  dsimp only at above slashFree
  rcases List.eq_nil_or_concat (trimEnd segments) with none | ⟨front, last, trimmed⟩
  · rw [none] at above
    cases anchor <;> cases above
    exact .inl rfl
  rw [List.concat_eq_append] at trimmed
  rw [trimmed] at above slashFree
  have isParent : parent = ofSplit anchor (trimEnd front) := by
    cases front with
    | nil => exact (Option.some.inj above).symm
    | cons first rest =>
      have shorter : (first :: rest ++ [last]).dropLast = first :: rest := List.dropLast_concat
      rw [← shorter]
      exact (Option.some.inj above).symm
  rw [isParent]
  rcases trimEnd_cases front with ⟨none, -⟩ | ⟨before, name, trimmed, solid, -, isPrefix⟩
  · rw [none]
    cases anchor with
    | root => exact .inr .top
    | here => exact .inr .here
    | none => exact .inl rfl
  · have cut : cutAtSlashes (ofSplit anchor (trimEnd front)).text =
        anchor.segments ++ before ++ [name] := by
      rw [trimmed, cut_ofSplit anchor (by simp), List.append_assoc]
      intro segment member
      exact slashFree segment (List.mem_append_left _ (isPrefix.mem member))
    exact .inr (.ends ⟨cut, solid⟩)

/-- Without anything before its last segment a path is relative. -/
theorem Ends.isAbsolute_eq_false {path : Path} {last : Text} (ends : path.Ends [] last) :
    path.isAbsolute = false := by
  by_contra absolute
  obtain ⟨segments, nonempty, cut⟩ := exists_cut_of_isAbsolute (by simpa using absolute)
  rw [ends.cut] at cut
  exact nonempty (List.cons.inj cut).2.symm

/-- The parent is on the way that stands before the last segment. -/
theorem Ends.names_parent? {front : List Text} {last : Text} (ends : path.Ends front last)
    (above : path.parent? = some parent) :
    parent.names = namesIn front ∧ parent.isAbsolute = path.isAbsolute := by
  obtain ⟨other, isOther, isPrefix, sameWay, shape⟩ := ends.parent?
  obtain rfl := Option.some.inj (isOther.symm.trans above)
  refine ⟨namesIn_congr sameWay, ?_⟩
  rcases shape with ⟨empty, rfl⟩ | ⟨written, -⟩
  · rw [ends.isAbsolute_eq_false, isAbsolute, empty]
    rfl
  · exact isAbsolute_of_isPrefix written isPrefix

theorem names_of_parent? (tidy : path.text = [] ∨ path.Tidy) (above : path.parent? = some parent) :
    parent.names <+: path.names ∧ parent.isAbsolute = path.isAbsolute := by
  rcases tidy with empty | tidy
  · obtain ⟨text⟩ := path
    obtain rfl : text = [] := empty
    cases above
  cases tidy with
  | top => cases above
  | here =>
    obtain rfl := Option.some.inj above
    exact ⟨List.nil_prefix, rfl⟩
  | @ends _ front last ends =>
    obtain ⟨names, start⟩ := ends.names_parent? above
    refine ⟨?_, start⟩
    rw [names, Path.names, ends.cut, namesIn_append]
    exact List.prefix_append _ _

/-- The way to an ancestor is the beginning of the way to the path. -/
theorem names_of_mem_ancestorsUpTo {limit : Nat} {other : Path}
    (tidy : path.text = [] ∨ path.Tidy) (member : other ∈ path.ancestorsUpTo limit) :
    other.names <+: path.names ∧ other.isAbsolute = path.isAbsolute := by
  induction limit generalizing path with
  | zero =>
    obtain rfl := List.mem_singleton.mp member
    exact ⟨List.prefix_refl _, rfl⟩
  | succ limit ih =>
    cases above : path.parent? with
    | none =>
      rw [ancestorsUpTo, above] at member
      obtain rfl := List.mem_singleton.mp member
      exact ⟨List.prefix_refl _, rfl⟩
    | some parent =>
      rw [ancestorsUpTo, above] at member
      rcases List.mem_cons.mp member with rfl | member
      · exact ⟨List.prefix_refl _, rfl⟩
      · obtain ⟨names, start⟩ := names_of_parent? tidy above
        obtain ⟨names', start'⟩ := ih (tidy_of_parent? above) member
        exact ⟨names'.trans names, start'.trans start⟩

end Parents

end Path

end ViewScript
