/-
  ViewScript/Proofs/Path/Names.lean
  =================================
  **The names in a path.**

  An absolute path without `..` is a list of names with slashes, dots and nothing else
  between them.  The operations on paths are said here in terms of those names: joining
  puts names after names, the parent has all names but the last, and what follows a root
  are the names that were put after it.

  Two forms of paths occur.  A path *leads to* a last segment in a folder, given by its
  names; nothing is written after the segment, which may be `..`.  A path *reaches* a
  list of names if it is the top or leads to the last of them.
-/
import Mathlib.Data.List.Infix
import ViewScript.Path.Extension

namespace ViewScript.Path

/-- The segments that have a component. -/
def namesIn (segments : List Text) : List Text := segments.filter (!isVoid ·)

/-- The segments of a path that have a component. -/
def names (path : Path) : List Text := namesIn (cutAtSlashes path.text)

/-- An absolute path without `..`. -/
def IsPlain (path : Path) : Prop :=
  path.isAbsolute = true ∧ ['.', '.'] ∉ cutAtSlashes path.text

instance (path : Path) : Decidable path.IsPlain :=
  inferInstanceAs (Decidable (_ ∧ _))

/-- The path ends with the segment `last`, which has a component, and the names before it
    are those of `folder`. -/
def LeadsTo (path : Path) (folder : List Text) (last : Text) : Prop :=
  ∃ segments, cutAtSlashes path.text = [] :: (segments ++ [last]) ∧
    namesIn segments = folder ∧ ['.', '.'] ∉ segments ∧ isVoid last = false

/-- The path is the top, or ends with the last of the names. -/
inductive Reaches : Path → List Text → Prop
  | top : Reaches ⟨['/']⟩ []
  | below {path : Path} {folder : List Text} {name : Text} (leads : path.LeadsTo folder name)
      (isName : name ≠ ['.', '.']) : Reaches path (folder ++ [name])

/-! ### Cutting at slashes -/

theorem cutAtSlashes_slash (text : Text) :
    cutAtSlashes ('/' :: text) = [] :: cutAtSlashes text := by
  simp [cutAtSlashes]

theorem cutAtSlashes_append_slash (front back : Text) :
    cutAtSlashes (front ++ '/' :: back) = cutAtSlashes front ++ cutAtSlashes back := by
  fun_induction cutAtSlashes front with
  | case1 => exact cutAtSlashes_slash back
  | case2 cs ih => simp [cutAtSlashes, ih]
  | case3 c cs other cut ih => exact absurd cut (cutAtSlashes_ne_nil cs)
  | case4 c cs other segment segments cut ih =>
    rw [cut, List.cons_append] at ih
    simp [cutAtSlashes, other, ih]

theorem slash_notMem_of_mem_cutAtSlashes {text segment : Text}
    (member : segment ∈ cutAtSlashes text) : '/' ∉ segment := by
  fun_induction cutAtSlashes text generalizing segment with
  | case1 => simp_all
  | case2 cs ih =>
    rcases List.mem_cons.mp member with rfl | member
    · simp
    · exact ih member
  | case3 c cs other cut ih => exact absurd cut (cutAtSlashes_ne_nil cs)
  | case4 c cs other first segments cut ih =>
    rw [cut] at ih
    rcases List.mem_cons.mp member with rfl | member
    · have inFirst := ih List.mem_cons_self
      simp [Ne.symm other, inFirst]
    · exact ih (List.mem_cons_of_mem first member)

theorem cutAtSlashes_of_notMem {text : Text} (slashFree : '/' ∉ text) :
    cutAtSlashes text = [text] := by
  induction text with
  | nil => rfl
  | cons c cs ih =>
    rw [List.mem_cons, not_or] at slashFree
    simp [cutAtSlashes, Ne.symm slashFree.1, ih slashFree.2]

theorem cutAtSlashes_join {segments : List Text} (nonempty : segments ≠ [])
    (slashFree : ∀ segment ∈ segments, '/' ∉ segment) :
    cutAtSlashes (Text.join ['/'] segments) = segments := by
  induction segments with
  | nil => exact (nonempty rfl).elim
  | cons first rest ih =>
    have inFirst := cutAtSlashes_of_notMem (slashFree first List.mem_cons_self)
    cases rest with
    | nil => exact inFirst
    | cons second rest =>
      have joined : Text.join ['/'] (first :: second :: rest) =
          first ++ '/' :: Text.join ['/'] (second :: rest) := by
        simp [Text.join]
      rw [joined, cutAtSlashes_append_slash, inFirst,
        ih (List.cons_ne_nil second rest) fun segment member =>
          slashFree segment (List.mem_cons_of_mem first member)]
      rfl

theorem join_isPrefix (front back : List Text) :
    Text.join ['/'] front <+: Text.join ['/'] (front ++ back) := by
  induction front with
  | nil => exact List.nil_prefix
  | cons first rest ih =>
    cases rest with
    | nil => cases back <;> simp [Text.join]
    | cons second rest => simpa [Text.join] using ih

/-! ### Segments without a component -/

@[simp] theorem namesIn_append (front back : List Text) :
    namesIn (front ++ back) = namesIn front ++ namesIn back := List.filter_append ..

theorem namesIn_singleton {segment : Text} (solid : isVoid segment = false) :
    namesIn [segment] = [segment] := by
  simp [namesIn, solid]

theorem namesIn_eq_self {segments : List Text}
    (solid : ∀ segment ∈ segments, isVoid segment = false) : namesIn segments = segments :=
  List.filter_eq_self.mpr fun segment member => by simp [solid segment member]

@[simp] theorem namesIn_nil_cons (segments : List Text) :
    namesIn ([] :: segments) = namesIn segments := rfl

theorem trimEnd_append_solid (segments : List Text) {last : Text} (solid : isVoid last = false) :
    trimEnd (segments ++ [last]) = segments ++ [last] := by
  simp [trimEnd, solid]

/-- Trimmed segments are empty or end in one that has a component. -/
theorem trimEnd_cases (segments : List Text) :
    (trimEnd segments = [] ∧ namesIn segments = []) ∨
      ∃ front last, trimEnd segments = front ++ [last] ∧ isVoid last = false ∧
        namesIn segments = namesIn front ++ [last] ∧ front ++ [last] <+: segments := by
  induction segments using List.reverseRecOn with
  | nil => exact .inl ⟨rfl, rfl⟩
  | append_singleton segments last ih =>
    cases void : isVoid last with
    | false =>
      refine .inr ⟨segments, last, trimEnd_append_solid segments void, void, ?_,
        List.prefix_refl _⟩
      rw [namesIn_append, namesIn_singleton void]
    | true =>
      have trimmed : trimEnd (segments ++ [last]) = trimEnd segments := by simp [trimEnd, void]
      have named : namesIn (segments ++ [last]) = namesIn segments := by simp [namesIn, void]
      rw [trimmed, named]
      refine ih.imp_right ?_
      rintro ⟨front, name, ends, solid, names, isPrefix⟩
      exact ⟨front, name, ends, solid, names, isPrefix.trans (List.prefix_append _ _)⟩

theorem trimEnd_isPrefix (segments : List Text) : trimEnd segments <+: segments := by
  rcases trimEnd_cases segments with ⟨trimmed, -⟩ | ⟨front, last, trimmed, -, -, isPrefix⟩
  · rw [trimmed]
    exact List.nil_prefix
  · rwa [trimmed]

/-! ### The two parts of an absolute path -/

theorem split_of_cut {path : Path} {segments : List Text} (nonempty : segments ≠ [])
    (cut : cutAtSlashes path.text = [] :: segments) : path.split = (.root, segments) := by
  obtain ⟨first, rest, rfl⟩ := List.exists_cons_of_ne_nil nonempty
  simp [split, cut]

/-- An absolute path is cut after its leading slash. -/
theorem exists_cut_of_isAbsolute {path : Path} (absolute : path.isAbsolute = true) :
    ∃ segments, segments ≠ [] ∧ cutAtSlashes path.text = [] :: segments := by
  obtain ⟨text⟩ := path
  cases text with
  | nil => simp [isAbsolute] at absolute
  | cons c cs =>
    obtain rfl : c = '/' := by simpa [isAbsolute] using absolute
    exact ⟨cutAtSlashes cs, cutAtSlashes_ne_nil cs, cutAtSlashes_slash cs⟩

theorem text_of_cut {path : Path} {segments : List Text} (nonempty : segments ≠ [])
    (cut : cutAtSlashes path.text = [] :: segments) :
    path.text = '/' :: Text.join ['/'] segments := by
  obtain ⟨first, rest, rfl⟩ := List.exists_cons_of_ne_nil nonempty
  rw [← join_cutAtSlashes path.text, cut]
  rfl

theorem isAbsolute_of_cut {path : Path} {segments : List Text} (nonempty : segments ≠ [])
    (cut : cutAtSlashes path.text = [] :: segments) : path.isAbsolute = true := by
  simp [isAbsolute, text_of_cut nonempty cut]

/-- The component of a segment that has one. -/
def componentOf (segment : Text) : Component :=
  if segment = ['.', '.'] then .up else .name segment

theorem componentOf_injective : Function.Injective componentOf := by
  intro first second same
  unfold componentOf at same
  split_ifs at same with isUp isUp' isUp'
  · rw [isUp, isUp']
  · exact Component.name.inj same

theorem filterMap_componentOf? (segments : List Text) :
    segments.filterMap componentOf? = (namesIn segments).map componentOf := by
  induction segments with
  | nil => rfl
  | cons segment segments ih =>
    cases void : isVoid segment with
    | true => simpa [namesIn, componentOf?, void] using ih
    | false =>
      have found : componentOf? segment = some (componentOf segment) := by
        simp only [componentOf?, componentOf, void, Bool.false_eq_true, if_false]
        split <;> rfl
      simpa [namesIn, found, void] using ih

theorem components_of_cut {path : Path} {segments : List Text} (nonempty : segments ≠ [])
    (cut : cutAtSlashes path.text = [] :: segments) :
    path.components = .root :: (namesIn segments).map componentOf := by
  simp [components, split_of_cut nonempty cut, Anchor.components, filterMap_componentOf?]

/-! ### Paths that lead to a segment -/

section LeadsTo

variable {path : Path} {folder : List Text} {last : Text}

theorem LeadsTo.components (leads : path.LeadsTo folder last) :
    path.components = .root :: (folder ++ [last]).map componentOf := by
  obtain ⟨segments, cut, rfl, -, solid⟩ := leads
  rw [components_of_cut (by simp) cut, namesIn_append, namesIn_singleton solid]

theorem LeadsTo.slash_notMem (leads : path.LeadsTo folder last) : '/' ∉ last := by
  obtain ⟨segments, cut, -, -, -⟩ := leads
  have member : last ∈ cutAtSlashes path.text := by simp [cut]
  exact slash_notMem_of_mem_cutAtSlashes member

theorem LeadsTo.fileName? (leads : path.LeadsTo folder last) :
    path.fileName? = if last = ['.', '.'] then none else some last := by
  obtain ⟨segments, cut, -, -, solid⟩ := leads
  simp [Path.fileName?, split_of_cut (by simp) cut, trimEnd_append_solid segments solid]

theorem LeadsTo.solid (leads : path.LeadsTo folder last) : isVoid last = false := by
  obtain ⟨-, -, -, -, solid⟩ := leads
  exact solid

theorem LeadsTo.ne_nil (leads : path.LeadsTo folder last) : last ≠ [] := by
  rintro rfl
  exact absurd leads.solid (by decide)

/-- The path of the folder is the parent. -/
theorem LeadsTo.parent? (leads : path.LeadsTo folder last) :
    ∃ parent, path.parent? = some parent ∧ parent.Reaches folder ∧
      parent.text <+: path.text := by
  have slashFree : ∀ segment ∈ cutAtSlashes path.text, '/' ∉ segment :=
    fun segment => slash_notMem_of_mem_cutAtSlashes
  obtain ⟨segments, cut, names, plain, solid⟩ := leads
  have text := text_of_cut (by simp) cut
  refine ⟨ofSplit .root (trimEnd segments), ?_, ?_, ?_⟩
  · simp [Path.parent?, split_of_cut (by simp) cut, trimEnd_append_solid segments solid]
  · rcases trimEnd_cases segments with
      ⟨trimmed, none⟩ | ⟨front, name, trimmed, isName, eq, isPrefix⟩
    · rw [trimmed, ← names, none]
      exact .top
    · rw [trimmed, ← names, eq]
      have inside : ∀ segment ∈ front ++ [name], segment ∈ segments :=
        fun segment member => isPrefix.subset member
      have apart : ∀ segment ∈ front ++ [name], segment ≠ ['.', '.'] := by
        rintro segment member rfl
        exact plain (inside _ member)
      refine .below ⟨front, ?_, rfl, fun dots => apart _ (by simp [dots]) rfl, isName⟩
        (apart name (by simp))
      rw [ofSplit, cutAtSlashes_slash, cutAtSlashes_join (by simp)]
      intro segment member
      exact slashFree segment (by simp [cut, inside segment member])
  · obtain ⟨back, whole⟩ := trimEnd_isPrefix segments
    have whole : segments ++ [last] = trimEnd segments ++ (back ++ [last]) := by
      rw [← List.append_assoc, whole]
    rw [text, whole, ofSplit]
    exact List.cons_prefix_cons.mpr ⟨rfl, join_isPrefix _ _⟩

theorem LeadsTo.withFileName (leads : path.LeadsTo folder last) {name : Text}
    (slashFree : '/' ∉ name) (solid : isVoid name = false) :
    (path.withFileName name).LeadsTo folder name := by
  obtain ⟨segments, cut, names, plain, solidLast⟩ := leads
  refine ⟨segments, ?_, names, plain, solid⟩
  have renamed : path.withFileName name = ofSplit .root (segments ++ [name]) := by
    simp [Path.withFileName, split_of_cut (by simp) cut, trimEnd_append_solid segments solidLast]
  rw [renamed, ofSplit, cutAtSlashes_slash, cutAtSlashes_join (by simp)]
  intro segment member
  rcases List.mem_append.mp member with member | member
  · have member : segment ∈ cutAtSlashes path.text := by simp [cut, member]
    exact slash_notMem_of_mem_cutAtSlashes member
  · simpa using List.mem_singleton.mp member ▸ slashFree

theorem LeadsTo.isPlain (leads : path.LeadsTo folder last) (isName : last ≠ ['.', '.']) :
    path.IsPlain := by
  obtain ⟨segments, cut, -, plain, -⟩ := leads
  exact ⟨isAbsolute_of_cut (by simp) cut, by simp [cut, plain, isName.symm]⟩

theorem LeadsTo.names (leads : path.LeadsTo folder last) : path.names = folder ++ [last] := by
  obtain ⟨segments, cut, rfl, -, solid⟩ := leads
  rw [Path.names, cut, namesIn_nil_cons, namesIn_append, namesIn_singleton solid]

end LeadsTo

theorem Reaches.isPlain {path : Path} {location : List Text} (reaches : path.Reaches location) :
    path.IsPlain ∧ path.names = location := by
  cases reaches with
  | top => decide
  | below leads isName => exact ⟨leads.isPlain isName, leads.names⟩

theorem Reaches.eq_top {path : Path} (reaches : path.Reaches []) : path = ⟨['/']⟩ := by
  generalize empty : [] = location at reaches
  cases reaches with
  | top => rfl
  | below => simp at empty

theorem Reaches.leadsTo {path : Path} {folder : List Text} {name : Text}
    (reaches : path.Reaches (folder ++ [name])) : path.LeadsTo folder name ∧ name ≠ ['.', '.'] := by
  generalize whole : folder ++ [name] = location at reaches
  cases reaches with
  | top => simp at whole
  | below leads isName =>
    obtain ⟨rfl, same⟩ := List.append_inj' whole rfl
    obtain rfl := List.singleton_inj.mp same
    exact ⟨leads, isName⟩

/-! ### Names after names -/

/-- A text without a slash, with a component of its own that is not `..`. -/
structure IsName (name : Text) : Prop where
  slashFree : '/' ∉ name
  solid : isVoid name = false
  notUp : name ≠ ['.', '.']

theorem IsName.ne_nil {name : Text} (isName : IsName name) : name ≠ [] := by
  rintro rfl
  exact absurd isName.solid (by decide)

/-- The path is the root with the given names after it. -/
def Extends (path root : Path) (names : List Text) : Prop :=
  (names = [] ∧ path = root) ∨
    names ≠ [] ∧ ∃ front, cutAtSlashes path.text = front ++ names ∧
      (cutAtSlashes root.text = front ∨ cutAtSlashes root.text = front ++ [[]])

theorem isAbsolute_join_eq_false {names : List Text} (isNames : ∀ name ∈ names, IsName name) :
    isAbsolute ⟨Text.join ['/'] names⟩ = false := by
  cases names with
  | nil => rfl
  | cons first rest =>
    obtain ⟨slashFree, solid, -⟩ := isNames first List.mem_cons_self
    cases first with
    | nil => simp [isVoid] at solid
    | cons c cs =>
      have other : c ≠ '/' := by
        rintro rfl
        simp at slashFree
      cases rest <;> simpa [isAbsolute, Text.join] using other

/-- Joining puts the segments of a relative path after a path. -/
theorem extends_join_of_relative {root path : Path} (written : root.text ≠ [])
    (relative : path.isAbsolute = false) :
    (root.join path).Extends root (cutAtSlashes path.text) := by
  refine .inr ⟨cutAtSlashes_ne_nil _, ?_⟩
  rw [join, if_neg (by simp [relative])]
  split
  next slash =>
    have ends : root.text.getLast? = some '/' := by simpa [written] using slash
    obtain ⟨front, text⟩ := List.getLast?_eq_some_iff.mp ends
    refine ⟨cutAtSlashes front, ?_, .inr ?_⟩
    · simp only [text, List.append_assoc, List.singleton_append]
      rw [cutAtSlashes_append_slash]
    · rw [text, cutAtSlashes_append_slash]
      rfl
  next => exact ⟨cutAtSlashes root.text, by rw [cutAtSlashes_append_slash], .inl rfl⟩

/-- Joining puts names after a path. -/
theorem extends_join {root : Path} (nonempty : root.text ≠ []) {names : List Text}
    (isNames : ∀ name ∈ names, IsName name) (some : names ≠ []) :
    (root.join ⟨Text.join ['/'] names⟩).Extends root names := by
  have joined := extends_join_of_relative nonempty (isAbsolute_join_eq_false isNames)
  rwa [cutAtSlashes_join some fun name member => (isNames name member).slashFree] at joined

/-- A name after names is one more name. -/
theorem Extends.join {path root : Path} {names : List Text} (ext : path.Extends root names)
    (nonempty : root.text ≠ []) (isNames : ∀ name ∈ names, IsName name) {name : Text}
    (isName : IsName name) : (path.join ⟨name⟩).Extends root (names ++ [name]) := by
  have isSole : ∀ other ∈ [name], IsName other := by simpa using isName
  rcases ext with ⟨rfl, rfl⟩ | ⟨some, front, cut, isFront⟩
  · exact extends_join nonempty isSole (List.cons_ne_nil name [])
  · refine .inr ⟨by simp, front, ?_, isFront⟩
    -- The last name is not empty, so no slash stands at the end of the path.
    have ends : cutAtSlashes path.text = front ++ names.dropLast ++ [names.getLast some] := by
      rw [cut, List.append_assoc, List.dropLast_concat_getLast]
    have relative : isAbsolute ⟨name⟩ = false := isAbsolute_join_eq_false isSole
    have noSlash : path.text.getLast? ≠ Option.some '/' := by
      intro slash
      obtain ⟨before, text⟩ := List.getLast?_eq_some_iff.mp slash
      rw [text, cutAtSlashes_append_slash] at ends
      have last := (List.append_inj' ends rfl).2
      exact (isNames _ (names.getLast_mem some)).ne_nil (by simpa [cutAtSlashes] using last.symm)
    have written : path.text ≠ [] := by
      intro empty
      rw [empty, show cutAtSlashes [] = [] ++ [[]] from rfl] at ends
      have last := (List.append_inj' ends rfl).2
      exact (isNames _ (names.getLast_mem some)).ne_nil (by simpa using last.symm)
    rw [Path.join, if_neg (by simp [relative]), if_neg (by simp [noSlash, written]),
      cutAtSlashes_append_slash, cut, cutAtSlashes_of_notMem isName.slashFree, List.append_assoc]

/-- The part of a plain root that is kept in the paths below it. -/
theorem exists_front {root : Path} (plain : root.IsPlain) {front : List Text}
    (isFront : cutAtSlashes root.text = front ∨ cutAtSlashes root.text = front ++ [[]]) :
    ∃ segments, front = [] :: segments ∧ namesIn segments = root.names ∧
      ['.', '.'] ∉ segments := by
  obtain ⟨absolute, noUp⟩ := plain
  obtain ⟨segments, nonempty, cut⟩ := exists_cut_of_isAbsolute absolute
  rw [names]
  rcases isFront with isFront | isFront
  · refine ⟨segments, by rw [← isFront, cut], by rw [cut, namesIn_nil_cons], ?_⟩
    exact fun up => noUp (by simp [cut, up])
  · cases front with
    | nil =>
      rw [cut] at isFront
      exact absurd (List.cons.inj isFront).2 nonempty
    | cons first rest =>
      rw [cut] at isFront
      obtain ⟨rfl, rfl⟩ := List.cons.inj isFront
      refine ⟨rest, rfl, by simp [cut, namesIn, isVoid], fun up => noUp (by simp [cut, up])⟩

theorem Extends.leadsTo {path root : Path} {folder : List Text} {last : Text}
    (ext : path.Extends root (folder ++ [last])) (plain : root.IsPlain)
    (isNames : ∀ name ∈ folder ++ [last], IsName name) :
    path.LeadsTo (root.names ++ folder) last := by
  obtain ⟨none, -⟩ | ⟨-, front, cut, isFront⟩ := ext
  · simp at none
  obtain ⟨segments, rfl, names, noUp⟩ := exists_front plain isFront
  refine ⟨segments ++ folder, by simpa using cut, ?_, ?_, (isNames last (by simp)).solid⟩
  · rw [namesIn_append, names, namesIn_eq_self]
    exact fun name member => (isNames name (by simp [member])).solid
  · rw [List.mem_append, not_or]
    exact ⟨noUp, fun up => (isNames _ (by simp [up])).notUp rfl⟩

theorem IsPlain.ne_nil {path : Path} (plain : path.IsPlain) : path.text ≠ [] := by
  intro empty
  simpa [isAbsolute, empty] using plain.1

theorem IsPlain.components {path : Path} (plain : path.IsPlain) :
    path.components = .root :: path.names.map componentOf := by
  obtain ⟨segments, nonempty, cut⟩ := exists_cut_of_isAbsolute plain.1
  rw [components_of_cut nonempty cut, Path.names, cut, namesIn_nil_cons]

theorem dropComponents_append (front back : List Text) :
    dropComponents (namesIn front).length (front ++ back) = dropComponents 0 back := by
  induction front with
  | nil => rfl
  | cons segment front ih =>
    cases void : isVoid segment with
    | false => simpa [namesIn, void, dropComponents] using ih
    | true =>
      have counted : namesIn (segment :: front) = namesIn front := by simp [namesIn, void]
      rw [counted]
      cases count : (namesIn front).length with
      | zero => simpa [dropComponents, void, count] using ih
      | succ count' => simpa [dropComponents, void, count] using ih

end ViewScript.Path
