/-
  ViewScript/Proofs/Project/Repetition.lean
  =========================================
  **A build for a second time.**

  A build that is done once more finds the same sources with the same contents, and each of
  them ends as it did.  At the end all files have what was written to them last, which is what
  they had.

  Only the search may end otherwise.  It reads folders by their paths, and the first build may
  have made a folder below the root whose path is too long.
-/
import ViewScript.Proofs.Project.Built
import ViewScript.Proofs.Project.Workers

namespace ViewScript

open Disk (checkPath)

/-! ### The second search -/

section Search

variable {config : ProjectConfig} {root : Path} {outDir : Option Path} {machine later : Machine}
  {files : List Path} {below : Location}

theorem extension?_ne_of_matches {extension : Text} (absent : extension ∉ config.extensions)
    {path : Path} (tested : config.matchesExtension path = true) :
    path.extension? ≠ some extension := by
  intro has
  simp only [ProjectConfig.matchesExtension, has, Option.any_some, List.contains_iff_mem] at tested
  exact absent tested

theorem setting_of_discover (wellFormed : machine.disk.IsWellFormed)
    (standing : machine.disk.content? machine.disk.workingFolder = some .folder)
    (noUp : ∀ path ∈ outDir, ['.', '.'] ∉ Path.cutAtSlashes path.text)
    (notSource : outputExtension ∉ config.extensions)
    (found : (discover config root : ExceptT Error (StateM Machine) (List Path)).run machine =
      (.ok files, machine))
    (fresh : ∀ input ∈ files, Disk.isFileAt machine.disk.content? (machine.disk.place
      (temporaryPath machine.processId (targetPath input root outDir))) = false) :
    Setting machine.disk machine.processId root outDir files := by
  obtain ⟨-, -, -, -, -, members⟩ := of_discover_eq_ok wellFormed found
  refine ⟨wellFormed, standing, noUp, ?_, ?_, ?_⟩
  · intro input member
    exact placed_of_discover wellFormed found member outDir
  · intro input member
    exact extension?_ne_of_matches notSource ((members input).mp member).1
  · intro input member
    exact fresh input member

/-- No file of code is found as a source, and no source is lost. -/
theorem Built.hasFileBelow_iff (built : Built machine.disk root outDir files later.disk)
    (placed : ∀ {input}, input ∈ files →
      ∃ inner name, Placed machine.disk root outDir input inner name)
    (located : machine.disk.locate root = .ok (machine.disk.place root))
    (notSource : outputExtension ∉ config.extensions)
    (tested : config.matchesExtension (root.below below) = true) :
    later.disk.HasFileBelow root below ↔ machine.disk.HasFileBelow root below := by
  have place := built.grows.place root
  constructor
  · intro hasFile
    refine ⟨?_, hasFile.2⟩
    have isNames := isNames_of_hasFileBelow built.isWellFormed hasFile
    have locatedLater : later.disk.locate root = .ok (later.disk.place root) := by
      rw [place]
      exact built.grows.located located
    obtain ⟨_, _, found⟩ := placed_of_below locatedLater isNames hasFile outDir
    obtain ⟨front, ends⟩ := found.ends
    obtain ⟨⟨bytes, isFile⟩, -⟩ := hasFile
    rw [place] at isFile
    have change := built.change (machine.disk.place root ++ below)
    rw [isFile] at change
    generalize isContent : some (Content.file bytes) = content at change
    cases change with
    | same => exact ⟨bytes, isContent.symm⟩
    | folder => cases isContent
    | file isCode named isTarget =>
      obtain ⟨_, _, code⟩ := placed isCode
      have written := Disk.text_ne_nil_of_locate located
      rw [← Disk.place_of_after (Path.after_below written isNames) isNames] at isTarget
      exact (extension?_ne_of_matches notSource tested
        (code.extension_of_target named ends found.isName.notUp isTarget)).elim
  · rintro ⟨⟨bytes, isFile⟩, seen⟩
    refine ⟨?_, seen⟩
    rw [place]
    exact built.grows.file isFile

/-- **A search for a second time** finds the same sources, or comes to a folder whose path is
    too long. -/
theorem Built.discover_again (built : Built machine.disk root outDir files later.disk)
    (wellFormed : machine.disk.IsWellFormed) (notSource : outputExtension ∉ config.extensions)
    (found : (discover config root : ExceptT Error (StateM Machine) (List Path)).run machine =
      (.ok files, machine)) :
    (∃ below, later.disk.HasFolderBelow root below ∧ (root.below below).isTooLong = true ∧
      (discover config root : ExceptT Error (StateM Machine) (List Path)).run later =
        (.error (.walk root (root.below below) .nameTooLong), later)) ∨
    (∀ below, later.disk.HasFolderBelow root below → (root.below below).isTooLong = false) ∧
      (discover config root : ExceptT Error (StateM Machine) (List Path)).run later =
        (.ok files, later) := by
  obtain ⟨-, ⟨entry, isEntry⟩, -, nodup, sorted, members⟩ := of_discover_eq_ok wellFormed found
  obtain ⟨located, atRoot⟩ := Disk.find_eq_ok_iff.mp isEntry
  have placed : ∀ {input}, input ∈ files →
      ∃ inner name, Placed machine.disk root outDir input inner name :=
    fun member => placed_of_discover wellFormed found member outDir
  obtain ⟨entryLater, isEntryLater⟩ : ∃ entry, later.disk.find root = .ok entry := by
    have present : later.disk.content? (machine.disk.place root) ≠ none := by
      cases entry with
      | file bytes =>
        obtain ⟨new, stays⟩ := built.grows.file (Disk.content?_eq_file_iff.mpr atRoot)
        simp [stays]
      | folder entries => simp [built.grows.folder (Disk.content?_eq_folder_iff.mpr ⟨_, atRoot⟩)]
    cases atLater : later.disk.root.get? (machine.disk.place root) with
    | none => simp [Disk.content?, atLater] at present
    | some entry =>
      refine ⟨entry, Disk.find_eq_ok_iff.mpr ?_⟩
      rw [built.grows.place]
      exact ⟨built.grows.located located, atLater⟩
  rcases discover_cases config built.isWellFormed isEntryLater with
    failed | ⟨short, files', ok, nodup', sorted', members'⟩
  · exact .inl failed
  · have same : files = files' := by
      refine eq_of_mem_iff wellFormed (Disk.text_ne_nil_of_locate located) nodup sorted nodup' sorted'
        (fun file member => ((members file).mp member).2) fun file => ?_
      rw [members, members']
      refine and_congr_right fun tested => exists_congr fun below => and_congr_left fun isBelow => ?_
      rw [isBelow] at tested
      exact (built.hasFileBelow_iff placed located notSource tested).symm
    rw [same]
    exact .inr ⟨short, ok⟩

end Search

/-! ### A build -/

section Build

variable (config : ProjectConfig) (root : Path) (outDir : Option Path) (machine : Machine)

/-- A build is a search and then a run, if the search succeeds. -/
theorem run_build (schedule : Schedule) :
    (build config root outDir schedule : ExceptT Error (StateM Machine) BuildReport).run machine =
      match (discover config root : ExceptT Error (StateM Machine) (List Path)).run machine with
      | (.error error, after) => (.error error, after)
      | (.ok files, after) =>
        let run := (compileTogether config.runtime.names root outDir schedule files :
          StateM Machine (List FileResult)) after
        (match run.1.findSome? FileResult.fatal? with
          | some error => .error error
          | none => .ok ⟨root, run.1⟩, run.2) := by
  unfold build
  rw [run_bind]
  generalize (discover config root : ExceptT Error (StateM Machine) (List Path)).run machine = found
  obtain ⟨result, after⟩ := found
  cases result with
  | error error => rfl
  | ok files =>
    dsimp only
    rw [run_bind, run_compileFiles]
    dsimp only
    cases List.findSome? FileResult.fatal? ((compileTogether config.runtime.names root outDir
      schedule files : StateM Machine (List FileResult)) after).1 <;> rfl

variable {config root outDir machine} in
theorem run_build_of_sound {files : List Path} {after : Machine}
    (found : (discover config root : ExceptT Error (StateM Machine) (List Path)).run machine =
      (.ok files, after)) {run : List FileResult × Machine}
    (isRun : (compileEach config.runtime.names root outDir files :
      StateM Machine (List FileResult)) after = run)
    (sound : run.1.findSome? FileResult.fatal? = none) :
    (build config root outDir : ExceptT Error (StateM Machine) BuildReport).run machine =
      (.ok ⟨root, run.1⟩, run.2) := by
  simp only [run_build, found, compileTogether_inOrder, isRun, sound]

variable {config root outDir machine} in
/-- A build with a report has found sources and compiled each of them. -/
theorem of_build_eq_ok {report : BuildReport} {after : Machine}
    (wellFormed : machine.disk.IsWellFormed)
    (built : (build config root outDir : ExceptT Error (StateM Machine) BuildReport).run machine =
      (.ok report, after)) :
    ∃ files, (discover config root : ExceptT Error (StateM Machine) (List Path)).run machine =
        (.ok files, machine) ∧
      (compileEach config.runtime.names root outDir files : StateM Machine (List FileResult))
        machine = (report.results, after) ∧
      report.results.findSome? FileResult.fatal? = none ∧ report.root = root := by
  rw [run_build] at built
  generalize found : (discover config root : ExceptT Error (StateM Machine) (List Path)).run
    machine = search at built
  obtain ⟨result, searched⟩ := search
  cases result with
  | error error => cases built
  | ok files =>
    obtain ⟨rfl, -⟩ := of_discover_eq_ok wellFormed found
    simp only [compileTogether_inOrder] at built
    split at built
    next => cases built
    next sound =>
      obtain ⟨isReport, rfl⟩ := Prod.mk.inj built
      obtain rfl := Except.ok.inj isReport
      exact ⟨files, rfl, rfl, sound, rfl⟩

end Build

/-- **A build for a second time.**  Sources keep their contents.  Where the second search comes
    to no folder whose path is too long, the second build gives the same report and leaves all
    as it is.  Otherwise it fails at such a folder; the first build has made it, on the way to
    its code. -/
theorem build_again {config : ProjectConfig} {root : Path} {outDir : Option Path}
    {machine after : Machine} {report : BuildReport} (wellFormed : machine.disk.IsWellFormed)
    (standing : machine.disk.content? machine.disk.workingFolder = some .folder)
    (noUp : ∀ path ∈ outDir, ['.', '.'] ∉ Path.cutAtSlashes path.text)
    (notSource : outputExtension ∉ config.extensions)
    (built : (build config root outDir : ExceptT Error (StateM Machine) BuildReport).run machine =
      (.ok report, after))
    (fresh : ∀ file ∈ report.results, ∀ bytes, machine.disk.content? (machine.disk.place
      (temporaryPath machine.processId (targetPath file.input root outDir))) ≠
        some (.file bytes)) :
    let again := (build config root outDir : ExceptT Error (StateM Machine) BuildReport).run after
    (∀ file ∈ report.results, after.disk.readFile file.input = machine.disk.readFile file.input ∧
      ∃ bytes, machine.disk.content? (machine.disk.place file.input) = some (.file bytes) ∧
        after.disk.content? (machine.disk.place file.input) = some (.file bytes)) ∧
    ((∀ below, after.disk.HasFolderBelow root below → (root.below below).isTooLong = false) →
      ∃ disk, again = (.ok report, { after with disk }) ∧ disk.SameTree after.disk) ∧
    ∀ below, after.disk.HasFolderBelow root below → (root.below below).isTooLong = true →
      outDir ≠ none ∧ machine.disk.content? (machine.disk.place root ++ below) = none ∧
      ∃ folder, after.disk.HasFolderBelow root folder ∧ (root.below folder).isTooLong = true ∧
        again = (.error (.walk root (root.below folder) .nameTooLong), after) := by
  intro again
  obtain ⟨files, found, run, sound, isRoot⟩ := of_build_eq_ok wellFormed built
  have isInputs := inputs_compileEach config.runtime.names root outDir machine files
  rw [run] at isInputs
  have isSource : ∀ {file}, file ∈ report.results → file.input ∈ files := by
    intro file member
    rw [← isInputs]
    exact List.mem_map_of_mem member
  have setting : Setting machine.disk machine.processId root outDir files := by
    refine setting_of_discover wellFormed standing noUp notSource found fun input member => ?_
    rw [← isInputs] at member
    obtain ⟨file, inResults, rfl⟩ := List.mem_map.mp member
    by_contra isFile
    obtain ⟨bytes, isFile⟩ := Disk.isFileAt_iff.mp (by simpa using isFile)
    exact fresh file inResults bytes isFile
  obtain ⟨builtAfter, -, process⟩ :=
    (Built.refl wellFormed).compileEach setting (List.Subset.refl _) rfl run
  have search := builtAfter.discover_again wellFormed notSource found
  refine ⟨?_, ?_, ?_⟩
  · intro file member
    obtain ⟨inner, name, placed⟩ := setting.placed (isSource member)
    obtain ⟨bytes, isFile⟩ := placed.isFile
    refine ⟨builtAfter.readFile_source setting (isSource member), bytes, isFile, ?_⟩
    rw [builtAfter.content?_source setting (isSource member), isFile]
  · intro short
    rcases search with ⟨below, hasFolder, long, -⟩ | ⟨-, foundAgain⟩
    · simp [short below hasFolder] at long
    obtain ⟨disk, runAgain, redone⟩ := (Built.refl wellFormed).compileEach_again setting
      (List.Subset.refl _) rfl run builtAfter process (.refl _)
    refine ⟨disk, ?_, ?_⟩
    · obtain ⟨_, results⟩ := report
      subst isRoot
      exact run_build_of_sound foundAgain runAgain sound
    · intro location
      rcases redone location with same | ⟨same, -⟩
      · exact same
      · exact same
  · intro below hasFolder long
    obtain ⟨isNew, outside⟩ : machine.disk.content? (machine.disk.place root ++ below) = none ∧
        outDir ≠ none := by
      have isFolder := hasFolder.1
      rw [builtAfter.grows.place] at isFolder
      refine (builtAfter.of_folder isFolder).resolve_left fun wasFolder => ?_
      obtain ⟨-, -, short, -⟩ := of_discover_eq_ok wellFormed found
      simp [short below ⟨wasFolder, hasFolder.2⟩] at long
    rcases search with ⟨folder, hasFolder, long, failed⟩ | ⟨short, -⟩
    · exact ⟨outside, isNew, folder, hasFolder, long, by simp only [again, run_build, failed]⟩
    · simp [short below hasFolder] at long

/-- A project with its output folder inside.  A file is in the way of the code of the second
    source. -/
def nestedOutput : Machine where
  disk := {
    root := .folder [("p", .folder [
      ("a.moon", .file (Utf8.encode "#x#")),
      ("in", .folder [("b.moon", .file (Utf8.encode "#y#"))]),
      ("out", .folder [("in", .file [])])])]
    workingFolder := [] }
  input := []
  processId := 7

theorem discover_nestedOutput :
    (discover {} "p" : ExceptT Error (StateM Machine) (List Path)).run nestedOutput =
      (.ok ["p/a.moon", "p/in/b.moon"], nestedOutput) := by
  have tree : nestedOutput.disk.find "p" = .ok (.folder [
      ("a.moon", .file (Utf8.encode "#x#")),
      ("in", .folder [("b.moon", .file (Utf8.encode "#y#"))]),
      ("out", .folder [("in", .file [])])]) := rfl
  have search : filesAt ({} : ProjectConfig).matchesExtension "p" (.folder [("a.moon", .file),
      ("in", .folder [("b.moon", .file)]), ("out", .folder [("in", .file)])]) =
        .ok ["p/a.moon", "p/in/b.moon"] := rfl
  have sorted : (["p/a.moon", "p/in/b.moon"] : List Path).Pairwise
      fun a b => Path.atMost a b = true := by decide +kernel
  rw [run_discover, tree]
  simp only [sourcesAt, Entry.shape, Entry.shapes, search]
  rw [List.mergeSort_of_pairwise sorted]

/-- The sources of `nestedOutput`, compiled. -/
def nestedRun : List FileResult × Machine :=
  (compileEach {} "p" (some ("p/out" : Path)) ["p/a.moon", "p/in/b.moon"] :
    StateM Machine (List FileResult)) nestedOutput

theorem build_again_nested :
    nestedRun.1.map (·.isOk) = [true, false] ∧
    (build {} "p" (some ("p/out" : Path)) : ExceptT Error (StateM Machine) BuildReport).run
      nestedOutput = (.ok ⟨"p", nestedRun.1⟩, nestedRun.2) ∧
    ∃ disk, (build {} "p" (some ("p/out" : Path)) :
        ExceptT Error (StateM Machine) BuildReport).run nestedRun.2 =
          (.ok ⟨"p", nestedRun.1⟩, { nestedRun.2 with disk }) ∧ disk.SameTree nestedRun.2.disk := by
  have isRun : (compileEach {} "p" (some ("p/out" : Path)) ["p/a.moon", "p/in/b.moon"] :
    StateM Machine (List FileResult)) nestedOutput = nestedRun := rfl
  have results : nestedRun.1.map (·.isOk) = [true, false] := by decide +kernel
  have sound : nestedRun.1.findSome? FileResult.fatal? = none :=
    Option.isNone_iff_eq_none.mp (by decide +kernel)
  have wellFormed : nestedRun.2.disk.IsWellFormed := ⟨by decide +kernel, by decide +kernel⟩
  have searched : ((discover {} "p" : ExceptT Error (StateM Machine) (List Path)).run
      nestedRun.2).1.isOk = true := by decide +kernel
  have isInputs := inputs_compileEach {} "p" (some ("p/out" : Path)) nestedOutput
    ["p/a.moon", "p/in/b.moon"]
  rw [isRun] at isInputs
  have vacant : ∀ input ∈ (["p/a.moon", "p/in/b.moon"] : List Path),
      nestedOutput.disk.content? (nestedOutput.disk.place (temporaryPath nestedOutput.processId
        (targetPath input "p" (some ("p/out" : Path))))) = none := by decide +kernel
  have noUp : ∀ path ∈ some ("p/out" : Path), ['.', '.'] ∉ Path.cutAtSlashes path.text := by
    rintro path ⟨⟩
    decide +kernel
  generalize nestedRun = run at *
  have built : (build {} "p" (some ("p/out" : Path)) :
      ExceptT Error (StateM Machine) BuildReport).run nestedOutput = (.ok ⟨"p", run.1⟩, run.2) :=
    run_build_of_sound discover_nestedOutput isRun sound
  have short : ∀ below, run.2.disk.HasFolderBelow "p" below →
      (Path.below "p" below).isTooLong = false := by
    generalize found : (discover {} "p" : ExceptT Error (StateM Machine) (List Path)).run run.2 =
      search at searched
    obtain ⟨result, after⟩ := search
    cases result with
    | error error => cases searched
    | ok files => exact (of_discover_eq_ok wellFormed found).2.2.1
  have fresh : ∀ file ∈ run.1, ∀ bytes, nestedOutput.disk.content? (nestedOutput.disk.place
      (temporaryPath nestedOutput.processId
        (targetPath file.input "p" (some ("p/out" : Path))))) ≠ some (.file bytes) := by
    intro file member bytes isFile
    have isInput : file.input ∈ run.1.map (·.input) := List.mem_map_of_mem member
    rw [isInputs] at isInput
    rw [vacant _ isInput] at isFile
    cases isFile
  exact ⟨results, built, (build_again ⟨by decide +kernel, by decide +kernel⟩
    (by decide +kernel) noUp (by decide +kernel) built fresh).2.1 short⟩

/-! ### A folder whose path is too long -/

/-- A path of dots such as `./././.`, which leads nowhere else. -/
def dots : Nat → Text
  | 0 => ['.']
  | count + 1 => '.' :: '/' :: dots count

section Dots

variable {disk : Disk} {count : Nat} {name : Text}

theorem names_dots (count : Nat) : Path.names ⟨dots count⟩ = [] := by
  have cut : Path.cutAtSlashes (dots count) = List.replicate (count + 1) ['.'] := by
    induction count with
    | zero => rfl
    | succ count ih => simp [dots, Path.cutAtSlashes, ih, List.replicate_succ]
  refine Path.namesIn_eq_nil fun segment member => ?_
  rw [cut] at member
  rw [List.eq_of_mem_replicate member]
  rfl

theorem byteSize_dots (count : Nat) : (dots count).byteSize = 2 * count + 1 := by
  induction count with
  | zero => rfl
  | succ count ih =>
    rw [dots, Text.byteSize_cons, Text.byteSize_cons, ih]
    have dot : '.'.utf8Size = 1 := rfl
    have slash : '/'.utf8Size = 1 := rfl
    omega

theorem nul_notMem_dots (count : Nat) : '\x00' ∉ dots count := by
  induction count with
  | zero => decide
  | succ count ih => simpa [dots] using ih

theorem dots_ne_nil (count : Nat) : dots count ≠ [] := by
  cases count <;> simp [dots]

theorem text_below_dots (isName : Path.IsName name) (count : Nat) :
    (Path.below ⟨dots count⟩ [name]).text = dots count ++ '/' :: name := by
  have last : (dots count).getLast? = some '.' := by
    induction count with
    | zero => rfl
    | succ count ih => simp [dots, List.getLast?_cons, ih]
  have relative : Path.isAbsolute ⟨name⟩ = false := Path.isAbsolute_eq_false isName.slashFree
  simp [Path.below, Path.join, relative, dots_ne_nil, last]

theorem after_below_dots (isName : Path.IsName name) (count : Nat) :
    (Path.below ⟨dots count⟩ [name]).After ⟨dots count⟩ ([] ++ [name]) :=
  Path.after_below (dots_ne_nil count) (by simpa using isName)

theorem start_dots (disk : Disk) (count : Nat) : disk.start ⟨dots count⟩ = disk.workingFolder := by
  have relative : Path.isAbsolute ⟨dots count⟩ = false := by
    cases count <;> rfl
  simp [Disk.start, relative]

theorem place_dots (disk : Disk) (count : Nat) : disk.place ⟨dots count⟩ = disk.workingFolder := by
  rw [Disk.place_eq_foldl_names, names_dots, start_dots]
  rfl

theorem find_dots (short : 2 * count + 1 < Path.sizeLimit) {entries : List (Text × Entry)}
    (standing : disk.root.get? disk.workingFolder = some (.folder entries)) :
    disk.find ⟨dots count⟩ = .ok (.folder entries) := by
  have checked : checkPath ⟨dots count⟩ = .ok () := by
    refine Disk.checkPath_eq_ok_iff.mpr ⟨nul_notMem_dots count, ?_, dots_ne_nil count⟩
    rwa [byteSize_dots]
  have reached : disk.reach ⟨dots count⟩ (Path.cutAtSlashes (dots count)) =
      .ok disk.workingFolder := by
    have isNames : Path.namesIn (Path.cutAtSlashes (dots count)) = [] := names_dots count
    rw [Disk.reach_of_checkPath checked, start_dots, ← Disk.folderAt_namesIn, isNames]
    exact Disk.folderAt_eq_ok_iff.mpr ⟨rfl, Disk.content?_eq_folder_iff.mpr ⟨entries, standing⟩⟩
  have isFolder := Disk.isFolder_eq_true_iff.mpr ⟨_, reached⟩
  unfold Disk.isFolder at isFolder
  cases isEntry : disk.find ⟨dots count⟩ with
  | error error => simp [isEntry] at isFolder
  | ok entry =>
    have atPlace := (Disk.find_eq_ok_iff.mp isEntry).2
    rw [place_dots, standing] at atPlace
    rw [Option.some.inj atPlace]

theorem readFile_below_dots (isName : Path.IsName name)
    (checked : checkPath (Path.below ⟨dots count⟩ [name]) = .ok ())
    (short : ¬ Disk.nameLimit < name.byteSize)
    (standing : disk.content? disk.workingFolder = some .folder) {bytes : Bytes}
    (isFile : disk.content? (disk.workingFolder ++ [name]) = some (.file bytes)) :
    disk.readFile (Path.below ⟨dots count⟩ [name]) = .ok bytes := by
  have after := after_below_dots isName count
  obtain ⟨front, ends, isNames⟩ := after.ends isName.solid
  rw [List.append_nil] at ends
  rw [names_dots] at isNames
  have found : disk.folderAt (disk.start (Path.below ⟨dots count⟩ [name])) front =
      .ok disk.workingFolder := by
    rw [Disk.start_of_after after, start_dots, ← Disk.folderAt_namesIn, isNames]
    exact Disk.folderAt_eq_ok_iff.mpr ⟨rfl, standing⟩
  refine Disk.readFile_eq_ok_iff.mpr ⟨disk.workingFolder ++ [name], ?_, isFile⟩
  rw [Disk.locate_of_ends ends isName.notUp, Disk.reach_of_checkPath checked, found]
  simp [bind, Except.bind, short]

end Dots

theorem filesAt_of_single {test : Path → Bool} {root : Path} {name : Text}
    (short : root.isTooLong = false) (tested : test (root.below [name]) = true) :
    filesAt test root (.folder [(name, .file)]) = .ok [root.below [name]] := by
  have isFile : filesAt test (root.join ⟨name⟩) .file = .ok [root.below [name]] := by
    rw [filesAt]
    exact congrArg Except.ok (if_pos tested)
  have notFolder : (Shape.file.isFolder && isSkippedFolder name) = false := rfl
  rw [filesAt, short, filesBelow_cons, notFolder, filesBelow, isFile]
  rfl

/-- A project in the working folder. -/
def flatProject : Machine where
  disk := { root := .folder [("a.moon", .file [])], workingFolder := [] }
  input := []
  processId := 7

/-- The working folder, written in so many bytes that few more are left. -/
def longRoot : Path := ⟨dots 2039⟩

def flatSource : Path := longRoot.below ["a.moon"]

/-- A folder for the code, below `longRoot` and with too long a path from there. -/
def flatOutput : Path := "oooooooooooooooooooo"

theorem isName_flatSource : Path.IsName "a.moon" := ⟨by decide, by decide, by decide⟩

theorem discover_flatProject :
    (discover {} longRoot : ExceptT Error (StateM Machine) (List Path)).run flatProject =
      (.ok [flatSource], flatProject) := by
  have tree : flatProject.disk.find longRoot = .ok (.folder [("a.moon", .file [])]) :=
    find_dots (by decide) rfl
  have short : longRoot.isTooLong = false := by
    have size := byteSize_dots 2039
    simp [Path.isTooLong, longRoot, size, Path.sizeLimit]
  have tested : ({} : ProjectConfig).matchesExtension flatSource = true := by
    obtain ⟨front, ends, -⟩ :=
      (after_below_dots isName_flatSource 2039).ends isName_flatSource.solid
    rw [ProjectConfig.matchesExtension, Path.extension?, flatSource, longRoot, ends.fileName?,
      if_neg isName_flatSource.notUp]
    decide +kernel
  rw [run_discover, tree]
  simp only [sourcesAt, Entry.shape, Entry.shapes, filesAt_of_single short tested]
  rw [List.mergeSort_singleton, flatSource]

theorem deliveryOf_flatProject :
    deliveryOf {} longRoot (some flatOutput) flatProject.disk flatSource =
      .ok ("oooooooooooooooooooo/a.js", []) := by
  have after : flatSource.After longRoot ([] ++ [("a.moon" : Text)]) :=
    after_below_dots isName_flatSource 2039
  have target : targetPath flatSource longRoot (some flatOutput) = "oooooooooooooooooooo/a.js" := by
    rw [targetPath, keptPath_of_after after (by simpa using isName_flatSource) (dots_ne_nil _)]
    decide +kernel
  have checked : checkPath flatSource = .ok () := by
    refine Disk.checkPath_eq_ok_iff.mpr ?_
    rw [flatSource, longRoot, text_below_dots isName_flatSource, Text.byteSize_append,
      byteSize_dots, List.mem_append, not_or]
    exact ⟨⟨nul_notMem_dots _, by decide +kernel⟩, by decide +kernel, by simp⟩
  refine deliveryOf_eq_ok_iff.mpr ⟨outputPath_eq_ok_iff.mpr ⟨target.symm, ?_⟩, ?_⟩
  · rw [target, Path.Same, after.components (by decide +kernel)]
    intro same
    have last := congrArg List.getLast? same
    rw [List.map_append, ← List.append_assoc, List.map_singleton, List.getLast?_concat] at last
    revert last
    decide +kernel
  · exact codeOf_eq_ok_iff.mpr
      ⟨[], readFile_below_dots isName_flatSource checked (by decide) rfl rfl, rfl⟩

/-- The code of `flatProject`, written. -/
def flatWrite : Except Error Unit × Machine :=
  (writeOutput "oooooooooooooooooooo/a.js" [] : ExceptT Error (StateM Machine) Unit).run flatProject

/-- **A second build can fail.**  The first one has made a folder that the search cannot read. -/
theorem build_again_fails :
    ∃ report after, (build {} longRoot (some flatOutput) :
        ExceptT Error (StateM Machine) BuildReport).run flatProject = (.ok report, after) ∧
      report.results.map (·.isOk) = [true] ∧
      ∃ folder, (build {} longRoot (some flatOutput) :
        ExceptT Error (StateM Machine) BuildReport).run after =
          (.error (.walk longRoot folder .nameTooLong), after) := by
  have isWrite : (writeOutput "oooooooooooooooooooo/a.js" [] :
    ExceptT Error (StateM Machine) Unit).run flatProject = flatWrite := rfl
  have isOk : flatWrite.1.isOk = true := by decide +kernel
  have wellFormed : flatWrite.2.disk.IsWellFormed := ⟨by decide +kernel, by decide +kernel⟩
  have standing : flatWrite.2.disk.workingFolder = [] := by decide +kernel
  have made : flatWrite.2.disk.content? [flatOutput.text] = some .folder := by decide +kernel
  generalize flatWrite = write at *
  obtain ⟨result, after⟩ := write
  cases result with
  | error error => cases isOk
  | ok done =>
    dsimp only at *
    have compiled : (compileEach {} longRoot (some flatOutput) [flatSource] :
        StateM Machine (List FileResult)) flatProject =
          ([⟨flatSource, .ok ⟨"oooooooooooooooooooo/a.js", 0⟩⟩], after) := by
      rw [run_compileEach_cons, run_compileOne, deliveryOf_flatProject]
      dsimp only
      rw [isWrite]
      rfl
    refine ⟨_, after, run_build_of_sound discover_flatProject compiled rfl, rfl, ?_⟩
    obtain ⟨entries, isFolder⟩ : ∃ entries,
        after.disk.root.get? after.disk.workingFolder = some (.folder entries) := by
      have present : after.disk.content? ([] ++ [flatOutput.text]) ≠ none := by simp [made]
      rw [standing]
      exact Disk.content?_eq_folder_iff.mp (Disk.content?_eq_folder_of_below present (by simp))
    have isTree : after.disk.find longRoot = .ok (.folder entries) := find_dots (by decide) isFolder
    rcases discover_cases {} wellFormed isTree with ⟨below, -, -, failed⟩ | ⟨short, -⟩
    · exact ⟨longRoot.below below, by simp only [run_build, failed]⟩
    · have isNew : after.disk.HasFolderBelow longRoot [flatOutput.text] := by
        refine ⟨?_, by decide +kernel⟩
        rw [longRoot, place_dots, standing]
        exact made
      have size : (longRoot.below [flatOutput.text]).text.byteSize = 4100 := by
        rw [longRoot, text_below_dots ⟨by decide, by decide, by decide⟩, Text.byteSize_append,
          byteSize_dots]
        rfl
      have notLong := short [flatOutput.text] isNew
      rw [Path.isTooLong, size] at notLong
      cases notLong

end ViewScript
