/-
  ViewScript/Proofs/Path/Resolution.lean
  ======================================
  **Resolving `..` in a path.**

  Without a look at any folder, a name and the `..` after it cancel.  What remains of a
  path is its *way*: some steps up, and then names.  An absolute path takes no steps up,
  since above the root there is nothing.

  The way of a path that goes on from another is the way of that one, with as many of its
  names taken back as there are steps up in what follows, and then the names that remain
  of what follows.  So a path that goes on from a folder stays in it, whatever the folder
  is, just if what follows takes no step up that remains.
-/
import ViewScript.Proofs.Path.Names

namespace ViewScript

/-- What remains of a path: steps up from where it starts, and then names. -/
structure Way where
  isAbsolute : Bool
  ups : Nat := 0
  names : List Text := []
deriving DecidableEq, Repr

namespace Way

/-- One segment more.  A step up takes the last name back. -/
def step (way : Way) (segment : Text) : Way :=
  if segment ≠ ['.', '.'] then { way with names := way.names ++ [segment] }
  else if way.names ≠ [] then { way with names := way.names.dropLast }
  else if way.isAbsolute then way
  else { way with ups := way.ups + 1 }

def follow (way : Way) (segments : List Text) : Way := segments.foldl step way

def climb (way : Way) (count : Nat) : Way := way.follow (List.replicate count ['.', '.'])

def append (way : Way) (names : List Text) : Way := { way with names := way.names ++ names }

/-- The way goes below a folder. -/
def IsBelow (way folder : Way) : Prop :=
  way.isAbsolute = folder.isAbsolute ∧ way.ups = folder.ups ∧
    folder.names <+: way.names ∧ folder.names ≠ way.names

instance (way folder : Way) : Decidable (way.IsBelow folder) :=
  inferInstanceAs (Decidable (_ ∧ _ ∧ _ ∧ _))

/-! ### One step -/

theorem step_name (way : Way) {name : Text} (isName : name ≠ ['.', '.']) :
    way.step name = way.append [name] := by
  rw [step, if_pos isName, append]

/-- A step up takes back the last of the names that were put after a way. -/
theorem step_up_append (way : Way) (names : List Text) (name : Text) :
    (way.append (names ++ [name])).step ['.', '.'] = way.append names := by
  have some : (way.append (names ++ [name])).names ≠ [] := by simp [append]
  rw [step, if_neg (by simp), if_pos some, append, append, ← List.append_assoc,
    List.dropLast_concat]

theorem isAbsolute_step (way : Way) (segment : Text) :
    (way.step segment).isAbsolute = way.isAbsolute := by
  unfold step
  split_ifs <;> rfl

theorem mem_names_step {way : Way} {name segment : Text}
    (member : name ∈ (way.step segment).names) : name ∈ way.names ∨ name = segment := by
  unfold step at member
  split_ifs at member
  · simpa using member
  · exact .inl (List.mem_of_mem_dropLast member)
  · exact .inl member
  · exact .inl member

/-! ### A run of steps -/

theorem isAbsolute_follow (way : Way) (segments : List Text) :
    (way.follow segments).isAbsolute = way.isAbsolute := by
  induction segments generalizing way with
  | nil => rfl
  | cons segment segments ih => exact (ih (way.step segment)).trans (way.isAbsolute_step segment)

/-- Each name of a way was there before or is one of the segments. -/
theorem mem_names_follow {way : Way} {segments : List Text} {name : Text}
    (member : name ∈ (way.follow segments).names) : name ∈ way.names ∨ name ∈ segments := by
  induction segments generalizing way with
  | nil => exact .inl member
  | cons segment segments ih =>
    rcases ih member with before | later
    · rcases mem_names_step before with before | rfl
      · exact .inl before
      · exact .inr List.mem_cons_self
    · exact .inr (List.mem_cons_of_mem segment later)

theorem follow_append (way : Way) (front back : List Text) :
    way.follow (front ++ back) = (way.follow front).follow back := List.foldl_append

theorem climb_succ (way : Way) (count : Nat) :
    way.climb (count + 1) = (way.climb count).step ['.', '.'] := by
  rw [climb, List.replicate_succ', follow_append]
  rfl

@[simp] theorem append_nil (way : Way) : way.append [] = way := by
  rw [append, List.append_nil]

/-- **Segments are followed from any way as they are followed from the start of a relative
    path.** -/
theorem follow_eq (way : Way) (segments : List Text) :
    way.follow segments =
      (way.climb (follow { isAbsolute := false } segments).ups).append
        (follow { isAbsolute := false } segments).names := by
  -- The last step is the same on both sides, so the induction takes segments from the end.
  induction segments using List.reverseRecOn with
  | nil => exact (append_nil way).symm
  | append_singleton segments segment ih =>
    rw [follow_append, follow_append, ih]
    have relative := isAbsolute_follow { isAbsolute := false } segments
    generalize follow { isAbsolute := false } segments = rest at relative ⊢
    show ((way.climb rest.ups).append rest.names).step segment =
      (way.climb (rest.step segment).ups).append (rest.step segment).names
    by_cases isUp : segment = ['.', '.']
    · subst isUp
      rcases List.eq_nil_or_concat rest.names with none | ⟨names, name, isNames⟩
      · have stepped : rest.step ['.', '.'] = { rest with ups := rest.ups + 1 } := by
          simp [step, none, relative]
        rw [stepped, climb_succ, none, append_nil, append_nil]
      · rw [List.concat_eq_append] at isNames
        have stepped : rest.step ['.', '.'] = { rest with names := names } := by
          simp [step, isNames]
        rw [stepped, isNames, step_up_append]
    · rw [step_name _ isUp, step_name _ isUp]
      simp [append]

/-- From below one name the first step up leads out. -/
theorem climb_name (name : Text) (count : Nat) :
    climb { isAbsolute := false, names := [name] } (count + 1) =
      { isAbsolute := false, ups := count } := by
  induction count with
  | zero => rfl
  | succ count ih =>
    rw [climb_succ, ih]
    rfl

end Way

namespace Path

/-- What remains of a path. -/
def resolve (path : Path) : Way := Way.follow { isAbsolute := path.isAbsolute } path.names

/-- The path leads to a place below the folder. -/
def LiesIn (path folder : Path) : Prop := path.resolve.IsBelow folder.resolve

instance (path folder : Path) : Decidable (path.LiesIn folder) :=
  inferInstanceAs (Decidable (Way.IsBelow _ _))

/-- The path goes on from a base as another path says. -/
structure Continues (path base rest : Path) : Prop where
  start : path.isAbsolute = base.isAbsolute
  names : path.names = base.names ++ rest.names

variable {path base rest : Path}

theorem isAbsolute_resolve (path : Path) : path.resolve.isAbsolute = path.isAbsolute :=
  Way.isAbsolute_follow _ _

theorem LiesIn.isAbsolute {folder : Path} (lies : path.LiesIn folder) :
    path.isAbsolute = folder.isAbsolute := by
  rw [← isAbsolute_resolve, lies.1, isAbsolute_resolve]

/-- A path lies in the folder where paths start if its way has names and takes no step up. -/
theorem liesIn_nil_iff :
    path.LiesIn ⟨[]⟩ ↔
      path.isAbsolute = false ∧ path.resolve.ups = 0 ∧ path.resolve.names ≠ [] := by
  constructor
  · rintro ⟨start, ups, -, below⟩
    rw [isAbsolute_resolve] at start
    exact ⟨start, ups, below.symm⟩
  · rintro ⟨relative, ups, some⟩
    refine ⟨?_, ups, List.nil_prefix, some.symm⟩
    rw [isAbsolute_resolve, relative]
    rfl

/-- Without `..` all names remain. -/
theorem resolve_of_noUp (noUp : ['.', '.'] ∉ path.names) :
    path.resolve = { isAbsolute := path.isAbsolute, names := path.names } := by
  have run : ∀ (segments : List Text) (way : Way), ['.', '.'] ∉ segments →
      way.follow segments = way.append segments := by
    intro segments
    induction segments with
    | nil =>
      intro way _
      exact way.append_nil.symm
    | cons segment segments ih =>
      intro way noUp
      rw [List.mem_cons, not_or] at noUp
      show (way.step segment).follow segments = _
      rw [way.step_name (Ne.symm noUp.1), ih _ noUp.2]
      simp [Way.append]
  exact run path.names _ noUp

namespace Continues

theorem resolve_eq (continues : path.Continues base rest) (relative : rest.isAbsolute = false) :
    path.resolve = (base.resolve.climb rest.resolve.ups).append rest.resolve.names := by
  have follows : path.resolve = base.resolve.follow rest.names := by
    rw [resolve, continues.start, continues.names, Way.follow_append]
    rfl
  have isRest : rest.resolve = Way.follow { isAbsolute := false } rest.names := by
    rw [resolve, relative]
  rw [follows, Way.follow_eq, isRest]

/-- What stays below where it starts stays below every folder it goes on from. -/
theorem liesIn (continues : path.Continues base rest) (inward : rest.LiesIn ⟨[]⟩) :
    path.LiesIn base := by
  obtain ⟨relative, noUps, some⟩ := liesIn_nil_iff.mp inward
  have isPath : path.resolve = base.resolve.append rest.resolve.names := by
    rw [continues.resolve_eq relative, noUps]
    rfl
  rw [LiesIn, isPath]
  refine ⟨rfl, rfl, List.prefix_append _ _, ?_⟩
  intro same
  exact some (List.self_eq_append_right.mp same)

/-- What does not stay below where it starts leads out of a folder with a name of its own. -/
theorem not_liesIn (continues : path.Continues base rest) (relative : rest.isAbsolute = false)
    (outward : ¬ rest.LiesIn ⟨[]⟩) {name : Text}
    (isBase : base.resolve = { isAbsolute := false, names := [name] }) (new : name ∉ rest.names) :
    ¬ path.LiesIn base := by
  intro lies
  rw [LiesIn, continues.resolve_eq relative, isBase] at lies
  obtain ⟨-, ups, names, below⟩ := lies
  cases count : rest.resolve.ups with
  | zero =>
    rw [count] at below
    refine outward (liesIn_nil_iff.mpr ⟨relative, count, ?_⟩)
    intro none
    rw [none, Way.append_nil] at below
    exact below rfl
  | succ count' =>
    rw [count, Way.climb_name] at names
    have member : name ∈ rest.resolve.names := by
      have inside := names.subset List.mem_cons_self
      simpa [Way.append] using inside
    rcases Way.mem_names_follow member with before | segment
    · simp at before
    · exact new segment

end Continues

end Path

end ViewScript
