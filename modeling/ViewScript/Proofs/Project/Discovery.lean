/-
  ViewScript/Proofs/Project/Discovery.lean
  ========================================
  **A search finds the sources, all of them and nothing else.**

  What a source is can be said without the search.  It is a file at or below the root; none
  of the folders between the two is hidden or holds installed packages; and its name is a
  stem, a dot and one of the extensions of the project.  The folders are those strictly
  between the root and the file: neither the name of the root nor the name of the file
  itself counts.

  A search reads folders by their paths.  It visits every entry, unless it comes to a folder
  whose path is too long to be read, and then it fails.
-/
import Mathlib.Data.List.TakeWhile
import ViewScript.Proofs.Project.Sources

namespace ViewScript

/-! ### The order of paths -/

namespace Path

/-- The strict order of paths, component by component. -/
def Before (a b : Path) : Prop :=
  List.Lex (fun x y => Component.before x y = true) a.components b.components

theorem lex_of_componentsAtMost {a b : List Component} (atMost : componentsAtMost a b = true)
    (distinct : a ≠ b) : List.Lex (fun x y => Component.before x y = true) a b := by
  induction a generalizing b with
  | nil =>
    cases b with
    | nil => exact (distinct rfl).elim
    | cons y b => exact .nil
  | cons x a ih =>
    cases b with
    | nil => cases atMost
    | cons y b =>
      simp only [componentsAtMost, Bool.or_eq_true, Bool.and_eq_true, beq_iff_eq] at atMost
      rcases atMost with before | ⟨rfl, atMost⟩
      · exact .rel before
      · apply List.Lex.cons
        apply ih atMost
        rintro rfl
        exact distinct rfl

end Path

/-! ### What a source is -/

theorem isSkippedFolder_eq_false_iff {name : Text} :
    isSkippedFolder name = false ↔ name ≠ "node_modules".toList ∧ name.head? ≠ some '.' := by
  simp only [isSkippedFolder, Bool.or_eq_false_iff, beq_eq_false_iff_ne]

/-- No dot stands behind the last one. -/
theorem dot_notMem_extension {name extension : Text}
    (isExtension : (Path.splitName name).2 = some extension) : '.' ∉ extension := by
  have after : extension = (name.reverse.takeWhile (· != '.')).reverse := by
    unfold Path.splitName at isExtension
    dsimp only at isExtension
    split at isExtension
    next => cases isExtension
    next => exact (Option.some.inj isExtension).symm
  rw [after, List.mem_reverse]
  intro dot
  have passed := List.mem_takeWhile_imp dot
  cases passed

/-- The name of the file is a stem, a dot and an extension of the project. -/
def ProjectConfig.HasExtension (config : ProjectConfig) (file : Path) : Prop :=
  ∃ stem extension, file.fileName? = some (stem ++ '.' :: extension) ∧ stem ≠ [] ∧
    '.' ∉ extension ∧ extension ∈ config.extensions

theorem ProjectConfig.matchesExtension_iff {config : ProjectConfig} {file : Path} :
    config.matchesExtension file = true ↔ config.HasExtension file := by
  unfold matchesExtension Path.extension? HasExtension
  constructor
  · intro tested
    obtain ⟨extension, isExtension⟩ : ∃ extension,
        (file.fileName?.bind fun name => (Path.splitName name).2) = some extension := by
      apply Option.isSome_iff_exists.mp
      exact Option.isSome_of_any tested
    have known : extension ∈ config.extensions := by simpa [isExtension] using tested
    obtain ⟨name, named, split⟩ := Option.bind_eq_some_iff.mp isExtension
    have noDot := dot_notMem_extension split
    rcases Path.splitName_cases name with whole | ⟨stem, other, parts, nonempty, rfl⟩
    · rw [whole] at split
      cases split
    · rw [parts] at split
      obtain rfl := Option.some.inj split
      exact ⟨stem, other, named, nonempty, noDot, known⟩
  · rintro ⟨stem, extension, named, nonempty, noDot, known⟩
    simp [named, Path.splitName_append nonempty noDot, known]

/-- There is a source at the names below a root: a file with an extension of the project, and
    no folder between the root and the file is passed over. -/
structure Disk.IsSource (disk : Disk) (config : ProjectConfig) (root : Path) (below : Location) :
    Prop where
  isFile : ∃ bytes, disk.content? (disk.place root ++ below) = some (.file bytes)
  visible : ∀ folder ∈ below.dropLast, folder ≠ "node_modules".toList ∧ folder.head? ≠ some '.'
  hasExtension : config.HasExtension (root.below below)

theorem Disk.isSource_iff {disk : Disk} {config : ProjectConfig} {root : Path} {below : Location} :
    disk.IsSource config root below ↔
      disk.HasFileBelow root below ∧ config.matchesExtension (root.below below) = true := by
  rw [ProjectConfig.matchesExtension_iff, HasFileBelow]
  simp only [isSkippedFolder_eq_false_iff]
  constructor
  · intro source
    exact ⟨⟨source.isFile, source.visible⟩, source.hasExtension⟩
  · rintro ⟨⟨isFile, visible⟩, hasExtension⟩
    exact ⟨isFile, visible, hasExtension⟩

/-- The search can read every folder that it comes to. -/
def Disk.IsReadable (disk : Disk) (root : Path) : Prop :=
  ∀ below, disk.HasFolderBelow root below → (root.below below).isTooLong = false

/-! ### The search -/

/-- Sources that are found are in strict order, because no two have the same components. -/
theorem pairwise_before {root : Path} {machine : Machine} {files : List Path}
    (wellFormed : machine.disk.IsWellFormed) (written : root.text ≠ []) (nodup : files.Nodup)
    (sorted : files.Pairwise fun a b => a.atMost b = true)
    (found : ∀ file ∈ files, ∃ below, machine.disk.HasFileBelow root below ∧
      file = root.below below) : files.Pairwise Path.Before := by
  refine (nodup.and sorted).imp_of_mem ?_
  rintro a b isFound isFound' ⟨distinct, atMost⟩
  apply Path.lex_of_componentsAtMost atMost
  intro same
  obtain ⟨below, hasFile, rfl⟩ := found a isFound
  obtain ⟨below', hasFile', rfl⟩ := found b isFound'
  rw [Path.below_injective written (isNames_of_hasFileBelow wellFormed hasFile)
    (isNames_of_hasFileBelow wellFormed hasFile') same] at distinct
  exact distinct rfl

/-- **A search finds exactly the sources.**  If the root is there and the search can read every
    folder that it comes to, then it yields the sources at and below the root, each once and
    in strict order.  If the root is not there, or a folder cannot be read, it fails with a
    walk error.  In no case does it change anything. -/
theorem discover_exactly (config : ProjectConfig) (root : Path) {machine : Machine}
    (wellFormed : machine.disk.IsWellFormed) :
    let search := (discover config root : ExceptT Error (StateM Machine) (List Path)).run machine
    (∀ error, machine.disk.find root = .error error →
      search = (.error (.walk root root error), machine)) ∧
    ∀ entry, machine.disk.find root = .ok entry →
      (machine.disk.IsReadable root → ∃ files, search = (.ok files, machine) ∧
        files.Nodup ∧ files.Pairwise Path.Before ∧
        ∀ file, file ∈ files ↔
          ∃ below, machine.disk.IsSource config root below ∧ file = root.below below) ∧
      (¬ machine.disk.IsReadable root → ∃ folder,
        search = (.error (.walk root folder .nameTooLong), machine)) := by
  intro search
  constructor
  · intro error missing
    refine (run_discover config root machine).trans ?_
    rw [missing]
  intro entry isEntry
  obtain ⟨located, -⟩ := Disk.find_eq_ok_iff.mp isEntry
  have written := Disk.text_ne_nil_of_locate located
  rcases discover_cases config wellFormed isEntry with
    ⟨below, hasFolder, long, failed⟩ | ⟨readable, files, ok, nodup, sorted, members⟩
  · constructor
    · intro readable
      have short := readable below hasFolder
      rw [long] at short
      cases short
    · intro unreadable
      exact ⟨root.below below, failed⟩
  · constructor
    · intro _
      refine ⟨files, ok, nodup, ?_, ?_⟩
      · apply pairwise_before wellFormed written nodup sorted
        intro file member
        exact ((members file).mp member).2
      · intro file
        rw [members]
        simp only [Disk.isSource_iff]
        constructor
        · rintro ⟨tested, below, hasFile, rfl⟩
          exact ⟨below, ⟨hasFile, tested⟩, rfl⟩
        · rintro ⟨below, ⟨hasFile, tested⟩, rfl⟩
          exact ⟨tested, below, hasFile, rfl⟩
    · intro unreadable
      exact (unreadable readable).elim

/-- A hidden root with a hidden file, a folder named like a source, and folders that are
    passed over.  A dash comes before a slash in the order of characters. -/
def hiddenProject : Machine where
  disk := {
    root := .folder [
      (".app", .folder [
        (".cache", .folder [("a.moon", .file [])]),
        (".x.moon", .file []),
        ("a", .folder [("c.moon", .file []), ("d.js", .file []),
          ("node_modules", .folder [("e", .folder [("f.moon", .file [])])])]),
        ("a-b.moon", .file []),
        ("b.moon", .folder [("g", .file [])])])]
    workingFolder := [] }
  input := []
  processId := 7

def hiddenSources : List Path := [".app/.x.moon", ".app/a/c.moon", ".app/a-b.moon"]

theorem discover_hiddenProject :
    (discover {} ".app" : ExceptT Error (StateM Machine) (List Path)).run hiddenProject =
      (.ok hiddenSources, hiddenProject) := by
  have tree : hiddenProject.disk.find ".app" = .ok (.folder [
        (".cache", .folder [("a.moon", .file [])]),
        (".x.moon", .file []),
        ("a", .folder [("c.moon", .file []), ("d.js", .file []),
          ("node_modules", .folder [("e", .folder [("f.moon", .file [])])])]),
        ("a-b.moon", .file []),
        ("b.moon", .folder [("g", .file [])])]) := rfl
  have search : filesAt (ProjectConfig.matchesExtension {}) ".app" (.folder [
        (".cache", .folder [("a.moon", .file)]),
        (".x.moon", .file),
        ("a", .folder [("c.moon", .file), ("d.js", .file),
          ("node_modules", .folder [("e", .folder [("f.moon", .file)])])]),
        ("a-b.moon", .file),
        ("b.moon", .folder [("g", .file)])]) = .ok hiddenSources := rfl
  have sorted : hiddenSources.Pairwise fun a b => Path.atMost a b = true := by decide +kernel
  rw [run_discover, tree]
  simp only [sourcesAt, Entry.shape, Entry.shapes, search]
  rw [List.mergeSort_of_pairwise sorted]

theorem discover_exactly_hidden :
    hiddenProject.disk.IsWellFormed ∧
    (∃ entry, hiddenProject.disk.find ".app" = .ok entry) ∧
    hiddenProject.disk.IsReadable ".app" ∧
    hiddenSources.Pairwise Path.Before ∧
    (∃ below, hiddenProject.disk.IsSource {} ".app" below ∧
      (".app/.x.moon" : Path) = Path.below ".app" below) ∧
    (¬ ∃ below, hiddenProject.disk.IsSource {} ".app" below ∧
      (".app/.cache/a.moon" : Path) = Path.below ".app" below) ∧
    (discover {} "app" : ExceptT Error (StateM Machine) (List Path)).run hiddenProject =
      (.error (.walk "app" "app" .notFound), hiddenProject) := by
  have wellFormed : hiddenProject.disk.IsWellFormed := ⟨by decide +kernel, by decide +kernel⟩
  obtain ⟨-, ⟨entry, isEntry⟩, readable, -⟩ := of_discover_eq_ok wellFormed discover_hiddenProject
  obtain ⟨-, found⟩ := discover_exactly {} ".app" wellFormed
  obtain ⟨files, ok, -, sorted, members⟩ := (found entry isEntry).1 readable
  rw [discover_hiddenProject] at ok
  obtain rfl : hiddenSources = files := by
    cases ok
    rfl
  obtain ⟨missing, -⟩ := discover_exactly {} "app" wellFormed
  refine ⟨wellFormed, ⟨entry, isEntry⟩, readable, sorted, ?_, ?_, missing .notFound rfl⟩
  · exact (members ".app/.x.moon").mp (by decide +kernel)
  · exact fun source => absurd ((members ".app/.cache/a.moon").mpr source) (by decide +kernel)

end ViewScript
