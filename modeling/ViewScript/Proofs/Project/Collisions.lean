/-
  ViewScript/Proofs/Project/Collisions.lean
  =========================================
  **When code is lost to other code.**

  Code has the name of its source with another extension.  So sources that differ in nothing
  but the extension have their code in one place, and what is written last is what remains;
  nobody is told.  The same befalls a source that has the extension of code.

  This is all that can be lost.  In whatever order the sources are compiled, other sources
  stay as they are, and code stays unless a later source with the same stem is written.
-/
import ViewScript.Proofs.Project.Placement

namespace ViewScript

/-! ### Names up to the extension -/

namespace Path

/-- The name of the file without its extension. -/
def stem? (path : Path) : Option Text := path.fileName?.map fun name => (splitName name).1

/-- Files of one folder that have the same name but for the extension. -/
def SameStem (a b : Path) : Prop :=
  a.components.dropLast = b.components.dropLast ∧ a.stem? = b.stem?

instance (a b : Path) : Decidable (SameStem a b) :=
  inferInstanceAs (Decidable (_ ∧ _))

variable {path : Path} {front : List Text} {name name' : Text}

theorem Ends.stem? (ends : path.Ends front name) (isName : name ≠ ['.', '.']) :
    path.stem? = some (splitName name).1 := by
  rw [Path.stem?, ends.fileName?, if_neg isName, Option.map_some]

theorem Ends.components (ends : path.Ends front name) :
    ∃ before, path.components = before ++ [componentOf name] := by
  refine ⟨path.split.1.components ++ (namesIn front).map componentOf, ?_⟩
  rw [components_eq, names, ends.cut, namesIn_append, namesIn_singleton ends.solid, List.map_append,
    List.append_assoc]
  rfl

/-- Of the names of files only those like `..x` lose all but their dots. -/
theorem renamed_of_isName (isName : IsName name) (extension : Text) :
    renamed name extension =
      if (splitName name).1 = ['.'] then ['.', '.'] else (splitName name).1 ++ '.' :: extension := by
  unfold renamed
  by_cases dot : (splitName name).1 = ['.']
  · have hasExtension : (splitName name).2.any (· != []) = true := by
      rcases splitName_cases name with whole | ⟨stem, extension, parts, -, isName'⟩
      · rw [whole] at dot
        obtain rfl : name = ['.'] := dot
        exact absurd isName.solid (by decide)
      · rw [parts] at dot ⊢
        obtain rfl : stem = ['.'] := dot
        have nonempty : extension ≠ [] := by
          rintro rfl
          exact isName.notUp isName'
        simpa using nonempty
    rw [if_pos ⟨dot, hasExtension⟩, if_pos dot]
  · rw [if_neg fun both => dot both.1, if_neg dot]

theorem renamed_eq_iff (isName : IsName name) (isName' : IsName name') :
    renamed name outputExtension = renamed name' outputExtension ↔
      (splitName name).1 = (splitName name').1 := by
  have longer : ∀ stem : Text, stem ++ '.' :: outputExtension ≠ ['.', '.'] := by
    intro stem same
    have length := congrArg List.length same
    simp [outputExtension] at length
  rw [renamed_of_isName isName, renamed_of_isName isName']
  split_ifs with dot dot' dot'
  · simp [dot, dot']
  · simp [dot, (longer _).symm, Ne.symm dot']
  · simp [dot', longer, dot]
  · exact List.append_left_inj _

end Path

/-! ### Sources with one output -/

section Outputs

variable {config : ProjectConfig} {root a b : Path} {outDir : Option Path} {machine after : Machine}
  {files : List Path}

/-- Two sources are the same one, or stand below the root. -/
theorem eq_or_below_of_discover (wellFormed : machine.disk.IsWellFormed)
    (found : (discover config root : ExceptT Error (StateM Machine) (List Path)).run machine =
      (.ok files, after)) (isSource : a ∈ files) (isSource' : b ∈ files) :
    a = b ∨ root.text ≠ [] ∧ ∃ inner name inner' name', a.After root (inner ++ [name]) ∧
      b.After root (inner' ++ [name']) ∧ (∀ other ∈ inner ++ [name], Path.IsName other) ∧
      ∀ other ∈ inner' ++ [name'], Path.IsName other := by
  obtain ⟨-, ⟨entry, isEntry⟩, -, -, -, members⟩ := of_discover_eq_ok wellFormed found
  have written := Disk.text_ne_nil_of_locate (Disk.find_eq_ok_iff.mp isEntry).1
  obtain ⟨-, below, hasFile, rfl⟩ := (members a).mp isSource
  obtain ⟨-, below', hasFile', rfl⟩ := (members b).mp isSource'
  have isNames := isNames_of_hasFileBelow wellFormed hasFile
  have isNames' := isNames_of_hasFileBelow wellFormed hasFile'
  -- There is nothing below a root that is a file.
  have alone : ∀ {below}, machine.disk.HasFileBelow root [] →
      machine.disk.HasFileBelow root below → below = [] := by
    rintro below ⟨⟨bytes, file⟩, -⟩ ⟨⟨bytes', file'⟩, -⟩
    by_contra more
    have present : machine.disk.content? (machine.disk.place root ++ below) ≠ none := by
      simp [file']
    rw [List.append_nil, Disk.content?_eq_folder_of_below present more] at file
    cases file
  rcases List.eq_nil_or_concat below with rfl | ⟨inner, name, rfl⟩
  · rw [alone hasFile hasFile']
    exact .inl rfl
  rcases List.eq_nil_or_concat below' with rfl | ⟨inner', name', rfl⟩
  · rw [alone hasFile' hasFile]
    exact .inl rfl
  simp only [List.concat_eq_append] at isNames isNames' ⊢
  exact .inr ⟨written, inner, name, inner', name', Path.after_below written isNames,
    Path.after_below written isNames', isNames, isNames'⟩

theorem sameStem_iff {inner inner' : List Text} {name name' : Text}
    (after : a.After root (inner ++ [name])) (after' : b.After root (inner' ++ [name']))
    (isNames : ∀ other ∈ inner ++ [name], Path.IsName other)
    (isNames' : ∀ other ∈ inner' ++ [name'], Path.IsName other) :
    a.SameStem b ↔ inner = inner' ∧
      Path.renamed name outputExtension = Path.renamed name' outputExtension := by
  have isName := isNames name (by simp)
  have isName' := isNames' name' (by simp)
  obtain ⟨_, ends, -⟩ := after.ends isName.solid
  obtain ⟨_, ends', -⟩ := after'.ends isName'.solid
  rw [Path.SameStem, ends.stem? isName.notUp, ends'.stem? isName'.notUp,
    after.components fun other member => (isNames other member).solid,
    after'.components fun other member => (isNames' other member).solid,
    Path.renamed_eq_iff isName isName']
  simp only [List.map_append, List.map_cons, List.map_nil, ← List.append_assoc,
    List.dropLast_concat, List.append_cancel_left_eq, Option.some.injEq,
    Path.componentOf_injective.list_map.eq_iff]

theorem solid_renamed {inner : List Text} {name extension : Text}
    (isNames : ∀ other ∈ inner ++ [name], Path.IsName other) :
    ∀ other ∈ inner ++ [Path.renamed name extension], Path.isVoid other = false := by
  intro other member
  rcases List.mem_append.mp member with member | member
  · exact (isNames other (by simp [member])).solid
  · rw [List.mem_singleton.mp member]
    exact Path.renamed_solid (isNames name (by simp)).ne_nil

/-- Sources have one output just when they have one stem. -/
theorem same_targetPath_iff (wellFormed : machine.disk.IsWellFormed)
    (found : (discover config root : ExceptT Error (StateM Machine) (List Path)).run machine =
      (.ok files, after)) (isSource : a ∈ files) (isSource' : b ∈ files) :
    (targetPath a root outDir).Same (targetPath b root outDir) ↔ a.SameStem b := by
  rcases eq_or_below_of_discover wellFormed found isSource isSource' with
    rfl | ⟨written, inner, name, inner', name', below, below', isNames, isNames'⟩
  · exact ⟨fun _ => ⟨rfl, rfl⟩, fun _ => rfl⟩
  rw [sameStem_iff below below' isNames isNames', Path.Same,
    (targetPath_after written isNames below outDir).components (solid_renamed isNames),
    (targetPath_after written isNames' below' outDir).components (solid_renamed isNames'),
    List.append_cancel_left_eq, Path.componentOf_injective.list_map.eq_iff]
  constructor
  · intro same
    obtain ⟨isInner, isLast⟩ := List.append_inj' same rfl
    exact ⟨isInner, List.singleton_inj.mp isLast⟩
  · rintro ⟨rfl, same⟩
    rw [same]

/-- On the disk it is the same. -/
theorem sameStem_of_place (wellFormed : machine.disk.IsWellFormed)
    (found : (discover config root : ExceptT Error (StateM Machine) (List Path)).run machine =
      (.ok files, after)) (isSource : a ∈ files) (isSource' : b ∈ files)
    (named : (targetPath a root outDir).fileName? ≠ none)
    (named' : (targetPath b root outDir).fileName? ≠ none)
    (same : machine.disk.place (targetPath a root outDir) =
      machine.disk.place (targetPath b root outDir)) : a.SameStem b := by
  rcases eq_or_below_of_discover wellFormed found isSource isSource' with
    rfl | ⟨written, inner, name, inner', name', below, below', isNames, isNames'⟩
  · exact ⟨rfl, rfl⟩
  rw [sameStem_iff below below' isNames isNames']
  have place : ∀ {input inner name}, input.After root (inner ++ [name]) →
      (∀ other ∈ inner ++ [name], Path.IsName other) →
      (targetPath input root outDir).fileName? ≠ none →
      machine.disk.place (targetPath input root outDir) =
        machine.disk.place (outDir.getD root) ++ (inner ++ [Path.renamed name outputExtension]) := by
    intro input inner name below isNames named
    obtain ⟨front, ends, folder, -⟩ := Disk.foldl_step_of_after
      (targetPath_after written isNames below outDir)
      (fun other member => isNames other (by simp [member]))
      (Path.renamed_solid (isNames name (by simp)).ne_nil)
    rw [Disk.place_of_ends ends (ends.notUp named), folder, List.append_assoc]
  rw [place below isNames named, place below' isNames' named', List.append_cancel_left_eq] at same
  obtain ⟨isInner, isLast⟩ := List.append_inj' same rfl
  exact ⟨isInner, List.singleton_inj.mp isLast⟩

end Outputs

/-! ### What remains of a batch -/

section Batch

variable {names : RuntimeNames} {root : Path} {outDir : Option Path} {inputs : List Path}
  {machine after : Machine} {results : List FileResult}

/-- A step keeps the folders, and a file that is neither its target nor has the name of its
    temporary file. -/
theorem file_of_compileOne {input : Path}
    (ends : ∃ front last, (targetPath input root outDir).Ends front last)
    {result : Except Error Compiled}
    (run : (compileOne names root outDir input : ExceptT Error (StateM Machine) Compiled).run
      machine = (result, after)) :
    after.processId = machine.processId ∧ machine.disk.KeepsFolders after.disk ∧
      ∀ {location bytes}, machine.disk.content? location = some (.file bytes) →
        location ≠ machine.disk.place
          (temporaryPath machine.processId (targetPath input root outDir)) →
        (result.isOk = true → (targetPath input root outDir).fileName? ≠ none →
          location ≠ machine.disk.place (targetPath input root outDir)) →
        after.disk.content? location = some (.file bytes) := by
  obtain ⟨front, last, ends⟩ := ends
  obtain ⟨result, disk, written, run', ended, wrote⟩ :=
    wrote_compileOne names machine ends fun _ _ => Disk.adds_makeParents _ _
  obtain ⟨rfl, rfl⟩ := Prod.mk.inj (run'.symm.trans run)
  refine ⟨rfl, wrote.keepsFolders, fun {location bytes} file apart unwritten => ?_⟩
  refine (wrote.content?_of_file file apart).resolve_right ?_
  rintro ⟨new, rfl, isTarget, -⟩
  cases ended with
  | done => exact unwritten rfl (wrote.named rfl) isTarget

/-- A batch keeps them too. -/
theorem file_of_compileEach
    (ends : ∀ input ∈ inputs, ∃ front last, (targetPath input root outDir).Ends front last)
    (run : (compileEach names root outDir inputs : StateM Machine (List FileResult)) machine =
      (results, after)) :
    after.processId = machine.processId ∧ machine.disk.KeepsFolders after.disk ∧
      ∀ {location bytes}, machine.disk.content? location = some (.file bytes) →
        (∀ input ∈ inputs, location ≠ machine.disk.place
          (temporaryPath machine.processId (targetPath input root outDir))) →
        (∀ file ∈ results, file.isOk = true →
          (targetPath file.input root outDir).fileName? ≠ none →
          location ≠ machine.disk.place (targetPath file.input root outDir)) →
        after.disk.content? location = some (.file bytes) := by
  induction inputs generalizing machine results with
  | nil =>
    cases run
    exact ⟨rfl, .refl _, fun file _ _ => file⟩
  | cons input inputs ih =>
    rw [run_compileEach_cons] at run
    generalize isFirst : (compileOne names root outDir input :
      ExceptT Error (StateM Machine) Compiled).run machine = first at run
    obtain ⟨result, middle⟩ := first
    dsimp only at run
    generalize isRest : (compileEach names root outDir inputs :
      StateM Machine (List FileResult)) middle = rest at run
    obtain ⟨rest, final⟩ := rest
    obtain ⟨rfl, rfl⟩ := Prod.mk.inj run
    obtain ⟨process, keeps, kept⟩ := file_of_compileOne (ends input List.mem_cons_self) isFirst
    obtain ⟨process', keeps', kept'⟩ :=
      ih (fun other member => ends other (List.mem_cons_of_mem _ member)) isRest
    refine ⟨process'.trans process, keeps.trans keeps', fun file apart unwritten => ?_⟩
    rw [process] at kept'
    simp only [keeps.place] at kept'
    refine kept' (kept file (apart input List.mem_cons_self) ?_) ?_ ?_
    · exact unwritten ⟨input, result⟩ List.mem_cons_self
    · exact fun other member => apart other (List.mem_cons_of_mem _ member)
    · exact fun other member => unwritten other (List.mem_cons_of_mem _ member)

/-- A batch can be cut at any of its results. -/
theorem exists_of_results {done rest : List FileResult} {file : FileResult}
    (run : (compileEach names root outDir inputs : StateM Machine (List FileResult)) machine =
      (done ++ file :: rest, after)) :
    ∃ before middle,
      (compileEach names root outDir (done.map (·.input)) : StateM Machine (List FileResult))
        machine = (done, before) ∧
      (compileOne names root outDir file.input : ExceptT Error (StateM Machine) Compiled).run
        before = (file.result, middle) ∧
      (compileEach names root outDir (rest.map (·.input)) : StateM Machine (List FileResult))
        middle = (rest, after) ∧
      inputs = done.map (·.input) ++ file.input :: rest.map (·.input) := by
  induction inputs generalizing machine done file rest with
  | nil =>
    have nothing : [] = done ++ file :: rest := congrArg Prod.fst run
    simp at nothing
  | cons input inputs ih =>
    rw [run_compileEach_cons] at run
    generalize isFirst : (compileOne names root outDir input :
      ExceptT Error (StateM Machine) Compiled).run machine = first at run
    obtain ⟨result, middle⟩ := first
    dsimp only at run
    generalize isRest : (compileEach names root outDir inputs :
      StateM Machine (List FileResult)) middle = later at run
    obtain ⟨later, final⟩ := later
    obtain ⟨isResults, rfl⟩ := Prod.mk.inj run
    cases done with
    | nil =>
      obtain ⟨rfl, rfl⟩ := List.cons.inj isResults
      have isInputs := inputs_compileEach names root outDir middle inputs
      rw [isRest] at isInputs
      rw [isInputs]
      exact ⟨machine, middle, rfl, isFirst, isRest, rfl⟩
    | cons first done =>
      obtain ⟨rfl, rfl⟩ := List.cons.inj isResults
      obtain ⟨before, next, isDone, isFile, isLater, rfl⟩ := ih isRest
      refine ⟨before, next, ?_, isFile, isLater, rfl⟩
      rw [List.map_cons, run_compileEach_cons]
      simp only [isFirst, isDone]

end Batch

/-! ### What a build keeps -/

section Build

variable {config : ProjectConfig} {root : Path} {machine after : Machine} {files : List Path}
  {names : RuntimeNames} {outDir : Option Path} {order : List Path}

/-- Only a source with the extension of code can be the output of a source. -/
theorem extension_of_same_targetPath (wellFormed : machine.disk.IsWellFormed)
    (found : (discover config root : ExceptT Error (StateM Machine) (List Path)).run machine =
      (.ok files, after)) {a b : Path} (isSource : a ∈ files) (isSource' : b ∈ files)
    (same : (targetPath a root outDir).Same b) : b.extension? = some outputExtension := by
  obtain ⟨inner, name, code⟩ := placed_of_discover wellFormed found isSource outDir
  obtain ⟨inner', name', source⟩ := placed_of_discover wellFormed found isSource' outDir
  obtain ⟨front, ends, -⟩ := code.target
  obtain ⟨front', ends'⟩ := source.ends
  obtain ⟨before, isEnd⟩ := ends.components
  obtain ⟨before', isEnd'⟩ := ends'.components
  rw [Path.Same, isEnd, isEnd'] at same
  have last := List.singleton_inj.mp (List.append_inj' same rfl).2
  rw [source.extension?]
  exact Path.extension_of_renamed code.isName.ne_nil (by decide) source.isName.notUp
    (Path.componentOf_injective last)

theorem targetPath_ends_of_discover (wellFormed : machine.disk.IsWellFormed)
    (found : (discover config root : ExceptT Error (StateM Machine) (List Path)).run machine =
      (.ok files, after)) (isSource : order ⊆ files) :
    ∀ input ∈ order, ∃ front last, (targetPath input root outDir).Ends front last := by
  intro input member
  obtain ⟨inner, name, placed⟩ := placed_of_discover wellFormed found (isSource member) outDir
  obtain ⟨front, ends, -⟩ := placed.target
  exact ⟨front, _, ends⟩

/-- A source is only lost to code or to a temporary file. -/
theorem readFile_source_of_compileEach (wellFormed : machine.disk.IsWellFormed)
    (found : (discover config root : ExceptT Error (StateM Machine) (List Path)).run machine =
      (.ok files, after)) (isSource : order ⊆ files) {source : Path} (member : source ∈ files)
    (notCode : source.extension? ≠ some outputExtension)
    (notTemporary : source.extension? ≠ some (Text.ofNat machine.processId)) {bytes : Bytes}
    (read : machine.disk.readFile source = .ok bytes) :
    ((compileEach names root outDir order : StateM Machine (List FileResult))
      machine).2.disk.readFile source = .ok bytes := by
  obtain ⟨location, located, file⟩ := Disk.readFile_eq_ok_iff.mp read
  obtain rfl := Disk.locate_eq_place located
  obtain ⟨inner, name, placed⟩ := placed_of_discover wellFormed found member outDir
  obtain ⟨-, keeps, kept⟩ := file_of_compileEach
    (targetPath_ends_of_discover wellFormed found isSource)
    (Prod.eta ((compileEach names root outDir order : StateM Machine (List FileResult)) machine)).symm
  refine Disk.readFile_eq_ok_iff.mpr ⟨_, keeps.located located, kept file ?_ ?_⟩
  · intro input inOrder same
    obtain ⟨inner', name', code⟩ := placed_of_discover wellFormed found (isSource inOrder) outDir
    exact notTemporary (code.extension_of_temporary placed same)
  · intro result inResults isOk named same
    have inOrder : result.input ∈ order := by
      rw [← inputs_compileEach names root outDir machine order]
      exact List.mem_map_of_mem inResults
    obtain ⟨inner', name', code⟩ := placed_of_discover wellFormed found (isSource inOrder) outDir
    obtain ⟨front, ends⟩ := placed.ends
    exact notCode (code.extension_of_target named ends placed.isName.notUp same)

/-- Code is only lost to the code of a source with the same stem. -/
theorem readFile_code_of_compileEach (wellFormed : machine.disk.IsWellFormed)
    (found : (discover config root : ExceptT Error (StateM Machine) (List Path)).run machine =
      (.ok files, after)) (isSource : order ⊆ files) {done rest : List FileResult} {input : Path}
    {compiled : Compiled} {final : Machine}
    (run : (compileEach names root outDir order : StateM Machine (List FileResult)) machine =
      (done ++ ⟨input, .ok compiled⟩ :: rest, final))
    (unwritten : ∀ file ∈ rest, file.isOk = true → ¬ input.SameStem file.input) :
    ∃ code, codeOf names ((compileEach names root outDir (done.map (·.input)) :
        StateM Machine (List FileResult)) machine).2.disk input = .ok code ∧
      final.disk.readFile compiled.output = .ok (Utf8.encode code) := by
  obtain ⟨before, middle, isDone, isStep, isRest, rfl⟩ := exists_of_results run
  have ends : ∀ other ∈ done.map (·.input) ++ input :: rest.map (·.input),
      ∃ front last, (targetPath other root outDir).Ends front last :=
    targetPath_ends_of_discover wellFormed found isSource
  have inOrder : ∀ file ∈ rest, file.input ∈ files := by
    intro file member
    exact isSource (by simp [List.mem_map_of_mem member])
  have isInput : input ∈ files := isSource (by simp)
  obtain ⟨-, keeps, -⟩ :=
    file_of_compileEach (fun other member => ends other (by simp [member])) isDone
  obtain ⟨front, last, endsInput⟩ := ends input (by simp)
  obtain ⟨result, disk, written, isStep', ended, wrote⟩ :=
    wrote_compileOne names before endsInput fun _ _ => Disk.adds_makeParents _ _
  obtain ⟨rfl, rfl⟩ := Prod.mk.inj (isStep'.symm.trans isStep)
  obtain ⟨-, keeps', kept⟩ :=
    file_of_compileEach (fun other member => ends other (by simp [member])) isRest
  have place : ∀ path, disk.place path = machine.disk.place path :=
    (keeps.trans wrote.keepsFolders).place
  cases ended with
  | done isCode isOutput =>
    rw [isDone]
    refine ⟨_, isCode, Disk.readFile_eq_ok_iff.mpr
      ⟨_, keeps'.located (wrote.located _ rfl), kept (wrote.target _ rfl) ?_ ?_⟩⟩
    · intro other member
      have isOther : other ∈ files := isSource (by simp [member])
      obtain ⟨inner, name, placed⟩ := placed_of_discover wellFormed found isInput outDir
      obtain ⟨inner', name', code⟩ := placed_of_discover wellFormed found isOther outDir
      rw [keeps.place, place]
      exact code.temporary_ne_target placed (wrote.named rfl) _
    · intro file member isOk named same
      rw [keeps.place, place] at same
      exact unwritten file member isOk
        (sameStem_of_place wellFormed found isInput (inOrder file member) (wrote.named rfl) named same)

end Build

/-- **What a build may lose.**  Of the sources that are found two have one output just when
    they have one stem, and an output is a source only if that has the extension of code.  In
    whatever order the sources are compiled, those keep their contents that have neither that
    extension nor the one of temporary files; and code can be read where it was written,
    unless a source with the same stem was written later. -/
theorem outputs_of_discovered {config : ProjectConfig} {root : Path} {machine after : Machine}
    {files : List Path} (wellFormed : machine.disk.IsWellFormed)
    (found : (discover config root : ExceptT Error (StateM Machine) (List Path)).run machine =
      (.ok files, after)) (names : RuntimeNames) (outDir : Option Path) :
    (∀ a ∈ files, ∀ b ∈ files, ∀ output output', outputPath a root outDir = .ok output →
      outputPath b root outDir = .ok output' → (output.Same output' ↔ a.SameStem b)) ∧
    (∀ a ∈ files, ∀ b ∈ files, ∀ output, outputPath a root outDir = .ok output → output.Same b →
      b.extension? = some outputExtension) ∧
    ∀ order, order.Perm files →
      let run := (compileEach names root outDir order : StateM Machine (List FileResult)) machine
      (∀ source ∈ files, source.extension? ≠ some outputExtension →
        source.extension? ≠ some (Text.ofNat machine.processId) → ∀ bytes,
        machine.disk.readFile source = .ok bytes → run.2.disk.readFile source = .ok bytes) ∧
      ∀ done input compiled rest, run.1 = done ++ ⟨input, .ok compiled⟩ :: rest →
        (∀ file ∈ rest, file.isOk = true → ¬ input.SameStem file.input) →
        ∃ code, codeOf names ((compileEach names root outDir (done.map (·.input)) :
            StateM Machine (List FileResult)) machine).2.disk input = .ok code ∧
          run.2.disk.readFile compiled.output = .ok (Utf8.encode code) := by
  refine ⟨?_, ?_, ?_⟩
  · intro a isSource b isSource' output output' isOutput isOutput'
    obtain ⟨rfl, -⟩ := outputPath_eq_ok_iff.mp isOutput
    obtain ⟨rfl, -⟩ := outputPath_eq_ok_iff.mp isOutput'
    exact same_targetPath_iff wellFormed found isSource isSource'
  · intro a isSource b isSource' output isOutput same
    obtain ⟨rfl, -⟩ := outputPath_eq_ok_iff.mp isOutput
    exact extension_of_same_targetPath wellFormed found isSource isSource' same
  · intro order perm run
    refine ⟨?_, ?_⟩
    · intro source member notCode notTemporary bytes read
      exact readFile_source_of_compileEach wellFormed found perm.subset member notCode notTemporary
        read
    · intro done input compiled rest results unwritten
      exact readFile_code_of_compileEach wellFormed found perm.subset
        (Prod.ext results rfl : run = (_, run.2)) unwritten

/-- Two sources that differ in the extension, and a source that has the extension of code. -/
def twinSources : Machine where
  disk := {
    root := .folder [
      ("a.js", .file (Utf8.encode "#z#")),
      ("a.moon", .file (Utf8.encode "#x#")),
      ("a.view", .file (Utf8.encode "#y#"))]
    workingFolder := [] }
  input := []
  processId := 7

def twinConfig : ProjectConfig := { extensions := ["moon", "view", "js"] }

theorem discover_twinSources :
    (discover twinConfig "." : ExceptT Error (StateM Machine) (List Path)).run twinSources =
      (.ok ["./a.js", "./a.moon", "./a.view"], twinSources) := by
  have tree : twinSources.disk.find "." = .ok twinSources.disk.root := rfl
  have search : filesAt twinConfig.matchesExtension "." (.folder [("a.js", .file),
      ("a.moon", .file), ("a.view", .file)]) = .ok ["./a.js", "./a.moon", "./a.view"] := rfl
  have sorted : (["./a.js", "./a.moon", "./a.view"] : List Path).Pairwise
      fun a b => Path.atMost a b = true := by decide +kernel
  rw [run_discover, tree]
  simp only [sourcesAt, twinSources, Entry.shape, Entry.shapes, search]
  rw [List.mergeSort_of_pairwise sorted]

theorem outputs_of_discovered_twins :
    twinSources.disk.IsWellFormed ∧
    (discover twinConfig "." : ExceptT Error (StateM Machine) (List Path)).run twinSources =
      (.ok ["./a.js", "./a.moon", "./a.view"], twinSources) ∧
    (("./a.js" : Path).Same "./a.js" ↔ ("./a.moon" : Path).SameStem "./a.view") ∧
    ((compileEach {} "." none ["./a.view", "./a.js", "./a.moon"] :
      StateM Machine (List FileResult)) twinSources).2.disk.readFile "./a.moon" =
        .ok (Utf8.encode "#x#") := by
  have wellFormed : twinSources.disk.IsWellFormed := ⟨by decide +kernel, by decide +kernel⟩
  obtain ⟨sameOutput, -, kept⟩ := outputs_of_discovered wellFormed discover_twinSources {} none
  have read : twinSources.disk.readFile "./a.moon" = .ok (Utf8.encode "#x#") := rfl
  refine ⟨wellFormed, discover_twinSources, ?_, ?_⟩
  · exact sameOutput "./a.moon" (by decide +kernel) "./a.view" (by decide +kernel) _ _ rfl rfl
  · exact (kept ["./a.view", "./a.js", "./a.moon"] (by decide +kernel)).1 "./a.moon"
      (by decide +kernel) (by decide +kernel) (by decide +kernel) _ read

/-- **Code and a source that are lost.**  Two sources have their code written to one file,
    which was a source itself, and both are reported as compiled. -/
theorem twins_share_output :
    (discover twinConfig "." : ExceptT Error (StateM Machine) (List Path)).run twinSources =
      (.ok ["./a.js", "./a.moon", "./a.view"], twinSources) ∧
    (outputPath "./a.moon" "." none).toOption = some "./a.js" ∧
    (outputPath "./a.view" "." none).toOption = some "./a.js" ∧
    let run := (compileEach twinConfig.runtime.names "." none ["./a.js", "./a.moon", "./a.view"] :
      StateM Machine (List FileResult)) twinSources
    run.1.map (·.isOk) = [false, true, true] ∧
    twinSources.disk.content? ["a.js"] = some (.file (Utf8.encode "#z#")) ∧
    run.2.disk.content? ["a.js"] = some (.file (Utf8.encode "/*y*/")) :=
  ⟨discover_twinSources, by decide +kernel, by decide +kernel, by decide +kernel, by decide +kernel,
    by decide +kernel⟩

end ViewScript
