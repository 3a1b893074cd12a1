/-
  ViewScript/Proofs/Project/Placement.lean
  ========================================
  **Found sources and the places of their code, for every root.**

  Root and output folder may be paths of any kind, with dots and with `..`.  All sources
  that a search finds stand below one folder, all of their code goes below one folder, and
  the names between the folder and the file are the same on both sides.  Only the extension
  of the file is another.  If the root is itself a file, it is the only source.

  So two sources have their code in one place just when they have the same folder and the
  same name without extension.
-/
import ViewScript.Proofs.Project.Effects
import ViewScript.Proofs.Project.Search
import ViewScript.Proofs.Project.Sources
import ViewScript.Proofs.Project.Steps

namespace ViewScript

open Disk (step checkPath)
open ViewScript.Path (cutAtSlashes)

/-! ### Places of paths below a path -/

namespace Disk

variable {disk : Disk} {path root : Path} {inner names : List Text} {name : Text}

theorem foldl_step_names (isNames : ∀ name ∈ names, Path.IsName name) (location : Location) :
    names.foldl step location = location ++ names := by
  rw [foldl_step fun member => (isNames _ member).notUp rfl,
    Path.namesIn_eq_self fun name member => (isNames name member).solid]

theorem start_of_after (after : path.After root names) : disk.start path = disk.start root := by
  simp only [start, after.isAbsolute]

theorem place_of_after (after : path.After root names)
    (isNames : ∀ name ∈ names, Path.IsName name) : disk.place path = disk.place root ++ names := by
  rw [place_eq_foldl_names, place_eq_foldl_names, start_of_after after,
    after.names_eq fun name member => (isNames name member).solid, List.foldl_append,
    foldl_step_names isNames]

/-- The folder of a path that is put after a root. -/
theorem foldl_step_of_after (after : path.After root (inner ++ [name]))
    (isNames : ∀ name ∈ inner, Path.IsName name) (solid : Path.isVoid name = false) :
    ∃ front, path.Ends front name ∧
      front.foldl step (disk.start path) = disk.place root ++ inner ∧
      Path.namesIn front = root.names ++ inner := by
  obtain ⟨front, ends, rootNames⟩ := after.ends solid
  refine ⟨front ++ inner, ends, ?_, ?_⟩
  · rw [List.foldl_append, foldl_step_names isNames, ← foldl_step_namesIn, rootNames,
      start_of_after after, ← place_eq_foldl_names]
  · rw [Path.namesIn_append, rootNames,
      Path.namesIn_eq_self fun other member => (isNames other member).solid]

/-- A folder that can be located is reached over its names. -/
theorem folderAt_of_locate (located : disk.locate root = .ok (disk.place root))
    (isFolder : disk.content? (disk.place root) = some .folder) {segments : List Text}
    (same : Path.namesIn segments = root.names) :
    disk.folderAt (disk.start root) segments = .ok (disk.place root) := by
  have followed : disk.follow (disk.start root) (cutAtSlashes root.text) = .ok (disk.place root) := by
    unfold locate at located
    cases checked : checkPath root with
    | error error => simp [checked, bind, Except.bind] at located
    | ok => simpa [checked, bind, Except.bind] using located
  rw [← folderAt_namesIn, same, Path.names, folderAt_namesIn, folderAt_eq_ok_iff]
  exact ⟨followed, isFolder⟩

/-- What is below a root that can be located does not go missing. -/
theorem locate_ne_notFound (after : path.After root (inner ++ [name]))
    (isNames : ∀ other ∈ inner ++ [name], Path.IsName other)
    (located : disk.locate root = .ok (disk.place root))
    (present : disk.content? (disk.place root ++ (inner ++ [name])) ≠ none) :
    disk.locate path ≠ .error .notFound := by
  have isName := isNames name (by simp)
  obtain ⟨front, ends, rootNames⟩ := after.ends isName.solid
  have atRoot : disk.folderAt (disk.start path) front = .ok (disk.place root) := by
    rw [start_of_after after]
    exact folderAt_of_locate located (content?_eq_folder_of_below present (by simp)) rootNames
  have inFolder : disk.folderAt (disk.place root) inner ≠ .error .notFound := by
    intro missing
    have noUp : ['.', '.'] ∉ inner := fun member => (isNames _ (by simp [member])).notUp rfl
    have gone := content?_of_folderAt_eq_notFound noUp missing
    rw [Path.namesIn_eq_self fun other member => (isNames other (by simp [member])).solid] at gone
    rw [← List.append_assoc] at present
    rw [content?_eq_folder_of_below present (by simp)] at gone
    cases gone
  rw [locate_of_ends ends isName.notUp, reach]
  cases checked : checkPath path with
  | error error =>
    have other : error ≠ .notFound := by
      rintro rfl
      exact checkPath_ne_notFound ends.text_ne_nil checked
    simpa [bind, Except.bind] using other
  | ok =>
    simp only [bind, Except.bind, folderAt_append, atRoot]
    cases entered : disk.folderAt (disk.place root) inner with
    | error error => simpa [entered] using inFolder
    | ok folder =>
      dsimp only
      split <;> simp

/-- As long as the folders stay, it is located as it was, or cannot be located for the same
    reason. -/
theorem locate_of_keepsFolders {later : Disk} (keeps : disk.KeepsFolders later)
    (after : path.After root (inner ++ [name]))
    (isNames : ∀ other ∈ inner ++ [name], Path.IsName other)
    (located : disk.locate root = .ok (disk.place root))
    (present : disk.content? (disk.place root ++ (inner ++ [name])) ≠ none) :
    later.locate path = disk.locate path := by
  have isName := isNames name (by simp)
  have noUp : ['.', '.'] ∉ inner := fun member => (isNames _ (by simp [member])).notUp rfl
  obtain ⟨front, ends, rootNames⟩ := after.ends isName.solid
  have isRoot : disk.content? (disk.place root) = some .folder :=
    content?_eq_folder_of_below present (by simp)
  have atRoot : later.folderAt (later.start path) front = disk.folderAt (disk.start path) front := by
    rw [start_of_after after, start_of_after after, folderAt_of_locate located isRoot rootNames,
      ← keeps.place]
    refine folderAt_of_locate ?_ ?_ rootNames
    · rw [keeps.place]
      exact keeps.located located
    · rw [keeps.place]
      exact keeps.folder isRoot
  -- The folders between the root and the path are there, and stay.
  have between : later.folderAt (disk.place root) inner = disk.folderAt (disk.place root) inner := by
    rw [folderAt_eq_enter noUp, folderAt_eq_enter noUp, enter_congr]
    intro other isPrefix
    rw [Path.namesIn_eq_self fun name member => (isNames name (by simp [member])).solid] at isPrefix
    have isFolder : disk.content? other = some .folder := by
      refine content?_of_isPrefix (isPrefix.trans ?_) ?_ present
      · rw [← List.append_assoc]
        exact List.prefix_append _ _
      · rintro rfl
        have longer := isPrefix.length_le
        simp only [List.length_append, List.length_singleton] at longer
        omega
    rw [keeps.folder isFolder, isFolder]
  rw [locate_of_ends ends isName.notUp, locate_of_ends ends isName.notUp]
  have way : later.reach path (front ++ inner) = disk.reach path (front ++ inner) := by
    unfold reach
    rw [folderAt_append, folderAt_append, atRoot, start_of_after after,
      folderAt_of_locate located isRoot rootNames]
    simp only [bind, Except.bind, between]
  rw [way]

end Disk

/-! ### Sources -/

/-- The folder that the code of all sources goes below. -/
def codeFolder (disk : Disk) (root : Path) : Option Path → Location
  | some outDir => disk.place outDir
  | none =>
    if disk.content? (disk.place root) = some .folder then disk.place root
    else (disk.place root).dropLast

/-- A source on a disk, with the names of the folders between the root and the source. -/
structure Placed (disk : Disk) (root : Path) (outDir : Option Path) (input : Path)
    (inner : Location) (name : Text) : Prop where
  isName : Path.IsName name
  isFile : ∃ bytes, disk.content? (disk.place input) = some (.file bytes)
  present : disk.locate input ≠ .error .notFound
  ends : ∃ front, input.Ends front name
  target : ∃ front, (targetPath input root outDir).Ends front (Path.renamed name outputExtension) ∧
    front.foldl step (disk.start (targetPath input root outDir)) =
      codeFolder disk root outDir ++ inner ∧
    ∀ path ∈ outDir, Path.namesIn front = path.names ++ inner
  isNames : ∀ other ∈ inner, Path.IsName other
  visible : ∀ other ∈ inner, other.head? ≠ some '.'

section Target

variable {root input : Path} {inner : List Text} {name : Text}

/-- The code of a file goes below the output folder, or else below the root. -/
theorem targetPath_after (written : root.text ≠ [])
    (isNames : ∀ other ∈ inner ++ [name], Path.IsName other)
    (after : input.After root (inner ++ [name])) (outDir : Option Path) :
    (targetPath input root outDir).After (outDir.getD root)
      (inner ++ [Path.renamed name outputExtension]) := by
  have isName := isNames name (by simp)
  unfold targetPath
  cases outDir with
  | none => exact after.withExtension isName (by decide)
  | some outDir =>
    dsimp only
    rw [keptPath_of_after after isNames written]
    exact (Path.after_join outDir isNames (by simp)).withExtension isName (by decide)

end Target

section Found

variable {config : ProjectConfig} {root : Path} {machine : Machine}

theorem placed_of_below {disk : Disk} (located : disk.locate root = .ok (disk.place root))
    {below : Location} (isNames : ∀ name ∈ below, Path.IsName name)
    (hasFile : disk.HasFileBelow root below) (outDir : Option Path) :
    ∃ inner name, Placed disk root outDir (root.below below) inner name := by
  have written := Disk.text_ne_nil_of_locate located
  obtain ⟨⟨bytes, file⟩, seen⟩ := hasFile
  have place : disk.place (root.below below) = disk.place root ++ below :=
    Disk.place_of_after (Path.after_below written isNames) isNames
  rcases List.eq_nil_or_concat below with rfl | ⟨inner, name, rfl⟩
  · -- The root is itself the source.
    rw [List.append_nil] at file
    have read : disk.readFile root = .ok bytes := Disk.readFile_eq_ok_iff.mpr ⟨_, located, file⟩
    obtain ⟨front, name, ends, notUp⟩ := Disk.ends_of_readFile read
    have isName : Path.IsName name := ⟨ends.slashFree name (by simp), ends.solid, notUp⟩
    refine ⟨[], name, isName, ⟨bytes, file⟩, ?_, ⟨front, ends⟩, ?_, by simp, by simp⟩
    · change disk.locate root ≠ _
      simp [located]
    cases outDir with
    | none =>
      have ends' : (root.withExtension outputExtension).Ends front
          (Path.renamed name outputExtension) := ends.withExtension notUp (by decide)
      refine ⟨front, ends', ?_, by simp⟩
      have start : disk.start (root.withExtension outputExtension) = disk.start root := by
        simp only [Disk.start, ends.isAbsolute_congr ends']
      rw [codeFolder, if_neg (by simp [file]), Disk.place_of_ends ends notUp]
      simp [targetPath, Path.below, start]
    | some outDir =>
      have kept : keptPath root root = ⟨Text.join ['/'] ([] ++ [name])⟩ := keptPath_self ends notUp
      have after : (outDir.join (keptPath root root)).After outDir ([] ++ [name]) := by
        rw [kept]
        exact Path.after_join outDir (by simpa using isName) (by simp)
      have after : (targetPath root root (some outDir)).After outDir
          ([] ++ [Path.renamed name outputExtension]) := after.withExtension isName (by decide)
      obtain ⟨front', ends', folder, names⟩ :=
        Disk.foldl_step_of_after after (by simp) (Path.renamed_solid isName.ne_nil)
      exact ⟨front', ends', folder, by simpa using names⟩
  · rw [List.concat_eq_append] at *
    have isName := isNames name (by simp)
    have after := Path.after_below written isNames
    obtain ⟨front, ends, -⟩ := after.ends isName.solid
    have inside : ∀ other ∈ inner, Path.IsName other := fun other member => isNames other (by simp [member])
    have present : disk.content? (disk.place root ++ (inner ++ [name])) ≠ none := by simp [file]
    refine ⟨inner, name, isName, ⟨bytes, by rw [place, file]⟩,
      Disk.locate_ne_notFound after isNames located present, ⟨_, ends⟩, ?_, inside, ?_⟩
    · have inFolder := Disk.content?_eq_folder_of_below present (by simp)
      have base : codeFolder disk root outDir = disk.place (outDir.getD root) := by
        cases outDir <;> simp [codeFolder, inFolder]
      rw [base]
      obtain ⟨front', ends', folder, names⟩ :=
        Disk.foldl_step_of_after (targetPath_after written isNames after outDir) inside
          (Path.renamed_solid isName.ne_nil)
      refine ⟨front', ends', folder, ?_⟩
      rintro path rfl
      exact names
    · rw [List.dropLast_concat] at seen
      exact fun other member => head?_ne_dot (seen other member)

/-- **Every source that is found has a place**, and so has its code. -/
theorem placed_of_discover (wellFormed : machine.disk.IsWellFormed) {after : Machine}
    {files : List Path}
    (found : (discover config root : ExceptT Error (StateM Machine) (List Path)).run machine =
      (.ok files, after)) {input : Path} (member : input ∈ files) (outDir : Option Path) :
    ∃ inner name, Placed machine.disk root outDir input inner name := by
  obtain ⟨-, ⟨entry, isEntry⟩, -, -, -, isSource⟩ := of_discover_eq_ok wellFormed found
  obtain ⟨-, below, hasFile, rfl⟩ := (isSource input).mp member
  exact placed_of_below (Disk.find_eq_ok_iff.mp isEntry).1
    (isNames_of_hasFileBelow wellFormed hasFile) hasFile outDir

end Found

/-! ### What keeps places apart -/

namespace Placed

variable {disk : Disk} {root input input' : Path} {outDir : Option Path} {inner inner' : Location}
  {name name' : Text}

theorem place_input (placed : Placed disk root outDir input inner name) :
    ∃ folder, disk.place input = folder ++ [name] := by
  obtain ⟨front, ends⟩ := placed.ends
  exact ⟨_, Disk.place_of_ends ends placed.isName.notUp⟩

theorem extension? (placed : Placed disk root outDir input inner name) :
    input.extension? = (Path.splitName name).2 := by
  obtain ⟨front, ends⟩ := placed.ends
  rw [Path.extension?, ends.fileName?, if_neg placed.isName.notUp, Option.bind_some]

theorem place_target (placed : Placed disk root outDir input inner name)
    (named : (targetPath input root outDir).fileName? ≠ none) :
    disk.place (targetPath input root outDir) =
      codeFolder disk root outDir ++ inner ++ [Path.renamed name outputExtension] := by
  obtain ⟨front, ends, folder, -⟩ := placed.target
  rw [Disk.place_of_ends ends (ends.notUp named), folder]

/-- The temporary file stands where the code goes, also if the code cannot be put there. -/
theorem place_temporary (placed : Placed disk root outDir input inner name) (processId : Nat) :
    disk.place (temporaryPath processId (targetPath input root outDir)) =
      codeFolder disk root outDir ++ inner ++
        [temporaryName processId ((targetPath input root outDir).fileName?.getD "file")] := by
  obtain ⟨front, ends, folder, -⟩ := placed.target
  obtain ⟨front', endsTemporary, sameWay, sameStart⟩ := temporaryPath_ends ends processId
  rw [Disk.place_of_ends endsTemporary (temporaryName_notUp _ _), ← Disk.foldl_step_namesIn,
    Path.namesIn_congr sameWay, Disk.foldl_step_namesIn, Disk.start_congr sameStart, folder]

/-- Code only takes the place of files that have the extension of code. -/
theorem extension_of_target (code : Placed disk root outDir input inner name)
    (named : (targetPath input root outDir).fileName? ≠ none) {path : Path} {front : List Text}
    {last : Text} (ends : path.Ends front last) (isName : last ≠ ['.', '.'])
    (same : disk.place path = disk.place (targetPath input root outDir)) :
    path.extension? = some outputExtension := by
  rw [Disk.place_of_ends ends isName, code.place_target named] at same
  have isLast := List.singleton_inj.mp (List.append_inj' same rfl).2
  rw [Path.extension?, ends.fileName?, if_neg isName, Option.bind_some]
  exact Path.extension_of_renamed code.isName.ne_nil (by decide) isName isLast.symm

/-- A temporary file only takes the place of sources that have the number of the process for
    an extension. -/
theorem extension_of_temporary (code : Placed disk root outDir input inner name)
    (source : Placed disk root outDir input' inner' name') {processId : Nat}
    (same : disk.place input' =
      disk.place (temporaryPath processId (targetPath input root outDir))) :
    input'.extension? = some (Text.ofNat processId) := by
  obtain ⟨folder, place⟩ := source.place_input
  rw [place, code.place_temporary] at same
  have last := List.singleton_inj.mp (List.append_inj' same rfl).2
  rw [source.extension?, last, splitName_temporaryName]

theorem temporary_ne_target (code : Placed disk root outDir input inner name)
    (other : Placed disk root outDir input' inner' name')
    (named : (targetPath input' root outDir).fileName? ≠ none) (processId : Nat) :
    disk.place (targetPath input' root outDir) ≠
      disk.place (temporaryPath processId (targetPath input root outDir)) := by
  rw [other.place_target named, code.place_temporary]
  intro same
  have last := List.singleton_inj.mp (List.append_inj' same rfl).2
  exact temporaryName_ne_renamed processId _ _ last.symm

end Placed

end ViewScript
