/-
  ViewScript/Proofs/Project/Overlay.lean
  ======================================
  **Independent writes.**

  Several writes are planned for the same contents.  They are *independent* if no file to
  be written is in the place of another or of a folder above it, and the same holds for
  the temporary files.

  Whatever of the plan has been carried out, and in whatever order, the contents are then
  an *overlay* of those from before: the files that could be written are there, the
  folders that could be made are there, and nothing else has changed.  A write meets the
  same error in an overlay that it would have met before, because the overlay differs only
  where the write does not look: in files that are not in its way, and in folders that are
  in its way but are no obstacle.
-/
import ViewScript.Proofs.Project.Writing

namespace ViewScript

open Disk (checkPath obstacle? withFolders IsMade isFileAt outcome)

/-! ### The folders of a write -/

/-- A write makes a folder at a location, if it is missing. -/
def Makes (contents : Location → Option Content) (path : Path) (location : Location) : Prop :=
  path.parent?.bind checkError? = none ∧ location <+: path.names.dropLast ∧
    obstacle? contents [] location = none

instance (contents : Location → Option Content) (path : Path) (location : Location) :
    Decidable (Makes contents path location) :=
  inferInstanceAs (Decidable (_ ∧ _ ∧ _))

theorem withParents_eq (contents : Location → Option Content) (path : Path)
    (location : Location) :
    withParents contents path location =
      if contents location = none ∧ Makes contents path location then some .folder
      else contents location := by
  unfold withParents Makes
  by_cases ok : path.parent?.bind checkError? = none
  · simp only [ok, if_true, true_and]
    rfl
  · simp [ok]

section Congruence

variable {first second : Location → Option Content} {path : Path}

theorem makes_congr
    (above : ∀ location, location <+: path.names.dropLast →
      isFileAt first location = isFileAt second location) (location : Location) :
    Makes first path location ↔ Makes second path location := by
  unfold Makes
  refine and_congr_right fun _ => and_congr_right fun isPrefix => ?_
  have agree : ∀ other, other <+: [] ++ location → isFileAt first other = isFileAt second other :=
    fun other inside => above other (List.IsPrefix.trans inside isPrefix)
  rw [Disk.obstacle?_congr agree]

/-- The error of a write depends on the files above it and on what stands in its place and
    in that of its temporary file. -/
theorem writeError?_congr {processId : Nat}
    (above : ∀ location, location <+: path.names.dropLast →
      isFileAt first location = isFileAt second location)
    (temporary : first (temporaryPath processId path).names =
      second (temporaryPath processId path).names)
    (place : first path.names = second path.names) :
    writeError? first processId path = writeError? second processId path := by
  unfold writeError?
  rw [Disk.obstacle?_congr above, placeError?_congr temporary, placeError?_congr place]

end Congruence

theorem writeError?_eq_none_iff {contents : Location → Option Content} {processId : Nat}
    {path : Path} :
    writeError? contents processId path = none ↔
      path.parent?.bind checkError? = none ∧ obstacle? contents [] path.names.dropLast = none ∧
        placeError? contents (temporaryPath processId path) = none ∧
        placeError? contents path = none := by
  simp only [writeError?, Option.orElse_eq_orElse, Option.orElse_eq_or, Option.or_eq_none_iff]

theorem place_ne_folder {contents : Location → Option Content} {processId : Nat} {path : Path}
    {folder : Location} {last : Text} (leads : path.LeadsTo folder last)
    (ok : writeError? contents processId path = none) :
    contents path.names ≠ some .folder := by
  have inPlace := (writeError?_eq_none_iff.mp ok).2.2.2
  rw [leads.names]
  exact ((placeError?_eq_none_iff leads).mp inPlace).2.2.2

/-! ### Plans and overlays -/

/-- Which code is to be written to which path. -/
abbrev Plan (count : Nat) := Fin count → Option (Path × Text)

variable {count : Nat}

structure Independent (before : Location → Option Content) (processId : Nat) (plan : Plan count) :
    Prop where
  top : before [] = some .folder
  leads : ∀ {i path code}, plan i = some (path, code) → ∃ folder last, path.LeadsTo folder last
  apart : ∀ {i j path code path' code'}, i ≠ j → plan i = some (path, code) →
    plan j = some (path', code') → ¬ path.names <+: path'.names
  temporary : ∀ {i j path code path' code'}, plan i = some (path, code) →
    plan j = some (path', code') → ¬ (temporaryPath processId path).names <+: path'.names
  fresh : ∀ {i path code}, plan i = some (path, code) →
    isFileAt before (temporaryPath processId path).names = false

/-- Code was written to a location. -/
def IsOutput (before : Location → Option Content) (processId : Nat) (plan : Plan count)
    (done : Fin count → Prop) (location : Location) (code : Text) : Prop :=
  ∃ i path, done i ∧ plan i = some (path, code) ∧ writeError? before processId path = none ∧
    location = path.names

/-- A folder was made at a location. -/
def IsParent (before : Location → Option Content) (plan : Plan count) (done : Fin count → Prop)
    (location : Location) : Prop :=
  before location = none ∧ ∃ i path code, done i ∧ plan i = some (path, code) ∧
    Makes before path location

/-- The contents after the writes that are done. -/
structure Overlay (before : Location → Option Content) (processId : Nat) (plan : Plan count)
    (done : Fin count → Prop) (after : Location → Option Content) : Prop where
  output : ∀ {location code}, IsOutput before processId plan done location code →
    after location = some (.file (Utf8.encode code))
  parent : ∀ {location}, (∀ code, ¬ IsOutput before processId plan done location code) →
    IsParent before plan done location → after location = some .folder
  kept : ∀ {location}, (∀ code, ¬ IsOutput before processId plan done location code) →
    ¬ IsParent before plan done location → after location = before location

namespace Overlay

variable {before after : Location → Option Content} {processId : Nat} {plan : Plan count}
  {done : Fin count → Prop}

theorem start : Overlay before processId plan (fun _ => False) before where
  output := by
    rintro location code ⟨i, path, impossible, -⟩
    exact impossible.elim
  parent := by
    rintro location - ⟨-, i, path, code, impossible, -⟩
    exact impossible.elim
  kept := fun _ _ => rfl

/-- There is one overlay. -/
theorem unique {after' : Location → Option Content}
    (first : Overlay before processId plan done after)
    (second : Overlay before processId plan done after') : after = after' := by
  funext location
  by_cases output : ∃ code, IsOutput before processId plan done location code
  · obtain ⟨code, output⟩ := output
    rw [first.output output, second.output output]
  · rw [not_exists] at output
    by_cases parent : IsParent before plan done location
    · rw [first.parent output parent, second.parent output parent]
    · rw [first.kept output parent, second.kept output parent]

/-- Where nothing is planned, at a location or below it, nothing changes. -/
theorem eq_of_not_above (overlay : Overlay before processId plan done after) {location : Location}
    (away : ∀ {i path code}, done i → plan i = some (path, code) → ¬ location <+: path.names) :
    after location = before location := by
  refine overlay.kept ?_ ?_
  · rintro code ⟨i, path, isDone, planned, -, rfl⟩
    exact away isDone planned (List.prefix_refl _)
  · rintro ⟨-, i, path, code, isDone, planned, -, isPrefix, -⟩
    exact away isDone planned (isPrefix.trans (List.dropLast_prefix _))

/-- What was there is still there, unless code was written in its place. -/
theorem eq_of_standing (overlay : Overlay before processId plan done after) {location : Location}
    (other : ∀ code, ¬ IsOutput before processId plan done location code)
    (standing : before location ≠ none) : after location = before location :=
  overlay.kept other fun parent => standing parent.1

section Write

variable {i : Fin count} {path : Path} {code : Text}

/-- Above a path that is still to be written, files are where they were. -/
theorem isFileAt_above (overlay : Overlay before processId plan done after)
    (independent : Independent before processId plan) (todo : ¬ done i)
    (planned : plan i = some (path, code)) {location : Location}
    (above : location <+: path.names.dropLast) :
    isFileAt after location = isFileAt before location := by
  have other : ∀ code, ¬ IsOutput before processId plan done location code := by
    rintro code ⟨j, path', isDone, planned', -, rfl⟩
    have distinct : j ≠ i := by
      rintro rfl
      exact todo isDone
    exact independent.apart distinct planned' planned (above.trans (List.dropLast_prefix _))
  by_cases parent : IsParent before plan done location
  · simp [isFileAt, overlay.parent other parent, parent.1]
  · simp [isFileAt, overlay.kept other parent]

/-- A write meets the same error in an overlay as before. -/
theorem writeError?_eq (overlay : Overlay before processId plan done after)
    (independent : Independent before processId plan) (todo : ¬ done i)
    (planned : plan i = some (path, code)) :
    writeError? after processId path = writeError? before processId path := by
  apply writeError?_congr
  · intro location above
    exact overlay.isFileAt_above independent todo planned above
  · exact overlay.eq_of_not_above fun _ planned' => independent.temporary planned planned'
  · refine overlay.eq_of_not_above fun isDone planned' => ?_
    refine independent.apart ?_ planned planned'
    rintro rfl
    exact todo isDone

/-- One more write makes an overlay of one more. -/
theorem written (overlay : Overlay before processId plan done after)
    (independent : Independent before processId plan) (todo : ¬ done i)
    (planned : plan i = some (path, code)) :
    Overlay before processId plan (fun j => j = i ∨ done j)
      (written after processId path (Utf8.encode code)) := by
  have sameError := overlay.writeError?_eq independent todo planned
  have makes : ∀ location, Makes after path location ↔ Makes before path location :=
    makes_congr fun location above => overlay.isFileAt_above independent todo planned above
  -- Away from the file itself, the write at most makes a folder.
  have elsewhere : ∀ {location}, (∀ code, ¬ IsOutput before processId plan (fun j => j = i ∨ done j)
        location code) → ViewScript.written after processId path (Utf8.encode code) location =
      if after location = none ∧ Makes before path location then some .folder
      else after location := by
    intro location other
    simp only [← makes]
    rw [← withParents_eq]
    refine if_neg ?_
    rintro ⟨ok, rfl⟩
    exact other code ⟨i, path, .inl rfl, planned, sameError ▸ ok, rfl⟩
  have earlier : ∀ {location}, (∀ code, ¬ IsOutput before processId plan (fun j => j = i ∨ done j)
        location code) → ∀ code, ¬ IsOutput before processId plan done location code := by
    rintro location other code ⟨j, path', isDone, rest⟩
    exact other code ⟨j, path', .inr isDone, rest⟩
  refine ⟨?_, ?_, ?_⟩
  · rintro location code' ⟨j, path', rfl | isDone, planned', ok, rfl⟩
    · obtain ⟨rfl, rfl⟩ : path = path' ∧ code = code' := by simpa [planned] using planned'
      exact if_pos ⟨sameError ▸ ok, rfl⟩
    · have distinct : j ≠ i := by
        rintro rfl
        exact todo isDone
      have file := overlay.output ⟨j, path', isDone, planned', ok, rfl⟩
      have away : path'.names ≠ path.names := fun same =>
        independent.apart distinct planned' planned (same ▸ List.prefix_refl _)
      rw [ViewScript.written, if_neg (by simp [away]), withParents_eq]
      simp [file]
  · rintro location other ⟨missing, j, path', code', isDone, planned', isMade⟩
    rw [elsewhere other]
    by_cases parent : IsParent before plan done location
    · simp [overlay.parent (earlier other) parent]
    · rcases isDone with rfl | isDone
      · obtain ⟨rfl, rfl⟩ : path = path' ∧ code = code' := by simpa [planned] using planned'
        simp [overlay.kept (earlier other) parent, missing, isMade]
      · exact (parent ⟨missing, j, path', code', isDone, planned', isMade⟩).elim
  · intro location other noParent
    have noEarlier : ¬ IsParent before plan done location := by
      rintro ⟨missing, j, path', code', isDone, rest⟩
      exact noParent ⟨missing, j, path', code', .inr isDone, rest⟩
    rw [elsewhere other, overlay.kept (earlier other) noEarlier, if_neg]
    rintro ⟨missing, isMade⟩
    exact noParent ⟨missing, i, path, code, .inl rfl, planned, isMade⟩

/-- **A write that was planned for the contents before is carried out in an overlay.** -/
theorem writeOutput {machine : Machine}
    (overlay : Overlay before processId plan done machine.disk.content?)
    (same : machine.processId = processId) (independent : Independent before processId plan)
    (todo : ¬ done i) (planned : plan i = some (path, code)) :
    ∃ disk : Disk,
      (ViewScript.writeOutput path code : ExceptT Error (StateM Machine) Unit).run machine =
        ((outcome (writeError? before processId path)).mapError (.write path),
          { machine with disk }) ∧
      Overlay before processId plan (fun j => j = i ∨ done j) disk.content? := by
  subst same
  obtain ⟨folder, last, leads⟩ := independent.leads planned
  have top : machine.disk.content? [] = some .folder := by
    rw [overlay.eq_of_standing ?_ (by simp [independent.top]), independent.top]
    rintro code' ⟨j, path', -, planned', -, empty⟩
    obtain ⟨folder', last', leads'⟩ := independent.leads planned'
    simp [leads'.names] at empty
  have fresh :
      isFileAt machine.disk.content? (temporaryPath machine.processId path).names = false := by
    have sameThere := overlay.eq_of_not_above fun _ planned' =>
      independent.temporary planned planned'
    unfold isFileAt
    rw [sameThere]
    exact independent.fresh planned
  obtain ⟨disk, run, contents⟩ := writeOutput_spec leads top fresh code
  refine ⟨disk, ?_, ?_⟩
  · rw [run, overlay.writeError?_eq independent todo planned]
  · rw [contents]
    exact overlay.written independent todo planned

end Write

/-- What is done may be said otherwise, as far as something was planned. -/
theorem congr_done {done' : Fin count → Prop} (overlay : Overlay before processId plan done after)
    (same : ∀ i, plan i ≠ none → (done i ↔ done' i)) :
    Overlay before processId plan done' after := by
  have agree : ∀ i planned, (done i ∧ plan i = some planned) ↔ (done' i ∧ plan i = some planned) :=
    fun i planned => and_congr_left fun isPlanned => same i (by simp [isPlanned])
  have output : ∀ {location code}, IsOutput before processId plan done location code ↔
      IsOutput before processId plan done' location code := by
    simp only [IsOutput, ← and_assoc, agree, implies_true]
  have parent : ∀ {location}, IsParent before plan done location ↔
      IsParent before plan done' location := by
    simp only [IsParent, ← and_assoc, agree, implies_true]
  constructor
  · exact fun isOutput => overlay.output (output.mpr isOutput)
  · intro location other isParent
    exact overlay.parent (fun code isOutput => other code (output.mp isOutput))
      (parent.mpr isParent)
  · intro location other noParent
    exact overlay.kept (fun code isOutput => other code (output.mp isOutput))
      fun isParent => noParent (parent.mp isParent)

/-- **A file that is in no write's place is read from an overlay as before.** -/
theorem readFile_eq {disk disk' : Disk} {input : Path} {folder : Location} {name : Text}
    {bytes : Bytes} (overlay : Overlay disk.content? processId plan done disk'.content?)
    (independent : Independent disk.content? processId plan) (leads : input.LeadsTo folder name)
    (isName : name ≠ ['.', '.']) (file : disk.content? (folder ++ [name]) = some (.file bytes))
    (away : ∀ {i path code}, plan i = some (path, code) → path.names ≠ folder ++ [name]) :
    disk'.readFile input = disk.readFile input := by
  have present : disk.content? (folder ++ [name]) ≠ none := by simp [file]
  refine Disk.readFile_congr leads isName fun location isPrefix => ?_
  by_cases atEnd : location = folder ++ [name]
  · subst atEnd
    refine overlay.eq_of_standing ?_ present
    rintro code ⟨i, path, -, planned, -, same⟩
    exact away planned same.symm
  · -- A folder is in no write's place, or the write would have failed.
    have isFolder := Disk.content?_of_isPrefix isPrefix atEnd present
    refine overlay.eq_of_standing ?_ (by simp [isFolder])
    rintro code ⟨i, path, -, planned, ok, rfl⟩
    obtain ⟨folder', last, leads⟩ := independent.leads planned
    exact place_ne_folder leads ok isFolder

end Overlay

end ViewScript
