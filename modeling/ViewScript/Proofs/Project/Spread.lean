/-
  ViewScript/Proofs/Project/Spread.lean
  =====================================
  **Sources whose code is kept apart.**

  The sources that a search finds have their code in different places, and none of it in a place
  above another.  Then what becomes of one source does not depend on the others: it is settled
  before the first of them is compiled whether its code will be written.

  The root and the output folder may be paths of any kind.  All code goes below one folder,
  so that the ways to it have their first part in common.  In this part no write can hinder
  another, because each of them needs folders there itself.  In the rest of the way there are
  only names that are no temporary files, and code is kept apart by assumption.
-/
import Mathlib.Data.List.Pairwise
import ViewScript.Proofs.Project.Collisions
import ViewScript.Proofs.Project.Commuting
import ViewScript.Proofs.Project.Interleaving
import ViewScript.Proofs.Project.Repetition

namespace ViewScript

open Disk (step checkPath)

/-! ### Where the code of the sources goes -/

/-- Code goes to a place below a folder, with some names between the folder and the file. -/
structure Landing (base : List Text) (target : Path) (inner : List Text) (name : Text) : Prop where
  ends : ∃ front, target.Ends front (Path.renamed name outputExtension) ∧
    Path.namesIn front = base ++ inner
  isName : Path.IsName name
  isNames : ∀ other ∈ inner, Path.IsName other
  visible : ∀ other ∈ inner, other.head? ≠ some '.'

/-- What is known of a source that was found. -/
structure Lands (disk : Disk) (root : Path) (outDir : Option Path) (base : List Text)
    (input : Path) : Prop where
  landing : ∃ inner name, Landing base (targetPath input root outDir) inner name
  isAbsolute : (targetPath input root outDir).isAbsolute = (outDir.getD root).isAbsolute
  steady : ∀ {later : Disk}, disk.KeepsFolders later → later.locate input = disk.locate input

section Found

variable {config : ProjectConfig} {root : Path} {outDir : Option Path} {disk : Disk}
  {machine : Machine} {files : List Path}

theorem lands_of_below (located : disk.locate root = .ok (disk.place root)) {inner : List Text}
    {name : Text} (isNames : ∀ other ∈ inner ++ [name], Path.IsName other)
    (hasFile : disk.HasFileBelow root (inner ++ [name])) (outDir : Option Path) :
    Lands disk root outDir (outDir.getD root).names (root.below (inner ++ [name])) := by
  have written := Disk.text_ne_nil_of_locate located
  obtain ⟨⟨bytes, file⟩, seen⟩ := hasFile
  rw [List.dropLast_concat] at seen
  have isName := isNames name (by simp)
  have inside : ∀ other ∈ inner, Path.IsName other :=
    fun other member => isNames other (by simp [member])
  have below := Path.after_below written isNames
  have after := targetPath_after written isNames below outDir
  obtain ⟨front, ends, -, names⟩ := @Disk.foldl_step_of_after disk _ _ _ _ after inside
    (Path.renamed_solid isName.ne_nil)
  refine ⟨⟨inner, name, ⟨front, ends, names⟩, isName, inside, ?_⟩, after.isAbsolute, ?_⟩
  · intro other member
    exact head?_ne_dot (seen other member)
  · intro later keeps
    exact Disk.locate_of_keepsFolders keeps below isNames located (by simp [file])

theorem lands_of_root {bytes : Bytes} (located : disk.locate root = .ok (disk.place root))
    (file : disk.content? (disk.place root) = some (.file bytes)) (outDir : Option Path) :
    Lands disk root outDir (targetPath root root outDir).names.dropLast root := by
  have read : disk.readFile root = .ok bytes := Disk.readFile_eq_ok_iff.mpr ⟨_, located, file⟩
  obtain ⟨front, name, ends, notUp⟩ := Disk.ends_of_readFile read
  have isName : Path.IsName name := ⟨ends.slashFree name (by simp), ends.solid, notUp⟩
  obtain ⟨front', endsTarget⟩ := targetPath_ends ends notUp root outDir
  refine ⟨⟨[], name, ⟨front', endsTarget, ?_⟩, isName, by simp, by simp⟩, ?_, ?_⟩
  · rw [Disk.names_of_ends endsTarget, List.dropLast_concat, List.append_nil]
  · cases outDir with
    | none => exact ends.isAbsolute_congr (ends.withExtension notUp (by decide))
    | some outDir =>
      have kept : keptPath root root = ⟨Text.join ['/'] ([] ++ [name])⟩ := keptPath_self ends notUp
      have after : (outDir.join (keptPath root root)).After outDir ([] ++ [name]) := by
        rw [kept]
        exact Path.after_join outDir (by simpa using isName) (by simp)
      exact (after.withExtension isName (by decide)).isAbsolute
  · intro later keeps
    rw [keeps.located located, located]

/-- **All sources that are found have their code below one folder.** -/
theorem lands_of_discover (wellFormed : machine.disk.IsWellFormed)
    (found : (discover config root : ExceptT Error (StateM Machine) (List Path)).run machine =
      (.ok files, machine)) (outDir : Option Path) :
    ∃ base, ∀ input ∈ files, Lands machine.disk root outDir base input := by
  obtain ⟨-, ⟨entry, isEntry⟩, -, -, -, isSource⟩ := of_discover_eq_ok wellFormed found
  have located := (Disk.find_eq_ok_iff.mp isEntry).1
  by_cases isFolder : machine.disk.content? (machine.disk.place root) = some .folder
  · refine ⟨(outDir.getD root).names, fun input member => ?_⟩
    obtain ⟨-, below, hasFile, rfl⟩ := (isSource input).mp member
    have isNames := isNames_of_hasFileBelow wellFormed hasFile
    rcases List.eq_nil_or_concat below with rfl | ⟨inner, name, rfl⟩
    · obtain ⟨⟨bytes, file⟩, -⟩ := hasFile
      simp [isFolder] at file
    · rw [List.concat_eq_append] at hasFile isNames ⊢
      exact lands_of_below located isNames hasFile outDir
  · -- There is nothing below a root that is a file.
    refine ⟨(targetPath root root outDir).names.dropLast, fun input member => ?_⟩
    obtain ⟨-, below, ⟨⟨bytes, file⟩, -⟩, rfl⟩ := (isSource input).mp member
    by_cases atRoot : below = []
    · subst atRoot
      rw [List.append_nil] at file
      exact lands_of_root located file outDir
    · have present : machine.disk.content? (machine.disk.place root ++ below) ≠ none := by
        simp [file]
      exact (isFolder (Disk.content?_eq_folder_of_below present atRoot)).elim

end Found

/-! ### Code in different places -/

/-- Sources that are compiled, with code in different places. -/
structure Spread (disk : Disk) (processId : Nat) (root : Path) (outDir : Option Path)
    (files : List Path) (base : List Text) : Prop where
  standing : disk.content? (disk.start (outDir.getD root)) = some .folder
  placed : ∀ {input}, input ∈ files → ∃ inner name, Placed disk root outDir input inner name
  lands : ∀ {input}, input ∈ files → Lands disk root outDir base input
  isOutput : ∀ {input}, input ∈ files →
    outputPath input root outDir = .ok (targetPath input root outDir)
  notCode : ∀ {input}, input ∈ files → input.extension? ≠ some outputExtension
  notTemporary : ∀ {input}, input ∈ files → input.extension? ≠ some (Text.ofNat processId)
  apart : ∀ {input other}, input ∈ files → other ∈ files → input ≠ other →
    ¬ (targetPath input root outDir).names <+: (targetPath other root outDir).names

section Discover

variable {config : ProjectConfig} {root : Path} {outDir : Option Path} {machine : Machine}
  {files : List Path}

/-- Of two sources, the names of the code of one do not lead to that of the other. -/
theorem not_prefix_of_apart (wellFormed : machine.disk.IsWellFormed)
    (found : (discover config root : ExceptT Error (StateM Machine) (List Path)).run machine =
      (.ok files, machine)) {input other : Path} (isSource : input ∈ files)
    (isSource' : other ∈ files) (distinct : input ≠ other)
    (apart : ¬ (targetPath input root outDir).components <+:
      (targetPath other root outDir).components) :
    ¬ (targetPath input root outDir).names <+: (targetPath other root outDir).names := by
  rcases eq_or_below_of_discover wellFormed found isSource isSource' with
    same | ⟨written, inner, name, inner', name', below, below', isNames, isNames'⟩
  · exact (distinct same).elim
  have after := targetPath_after written isNames below outDir
  have after' := targetPath_after written isNames' below' outDir
  have solid := @solid_renamed inner name outputExtension isNames
  have solid' := @solid_renamed inner' name' outputExtension isNames'
  rw [after.components solid, after'.components solid', List.prefix_append_right_inj] at apart
  rw [after.names_eq solid, after'.names_eq solid', List.prefix_append_right_inj]
  exact fun isPrefix => apart (isPrefix.map _)

theorem spread_of_discover (wellFormed : machine.disk.IsWellFormed)
    (standing : machine.disk.content? (machine.disk.start (outDir.getD root)) = some .folder)
    (notSource : outputExtension ∉ config.extensions)
    (notTemporary : Text.ofNat machine.processId ∉ config.extensions)
    (found : (discover config root : ExceptT Error (StateM Machine) (List Path)).run machine =
      (.ok files, machine))
    (apart : files.Pairwise fun first second => ∀ output output',
      outputPath first root outDir = .ok output → outputPath second root outDir = .ok output' →
        output.Apart output') :
    ∃ base, Spread machine.disk machine.processId root outDir files base := by
  obtain ⟨base, lands⟩ := lands_of_discover wellFormed found outDir
  obtain ⟨-, -, -, -, -, members⟩ := of_discover_eq_ok wellFormed found
  have notCode : ∀ input ∈ files, input.extension? ≠ some outputExtension :=
    fun input member => extension?_ne_of_matches notSource ((members input).mp member).1
  have isOutput : ∀ input ∈ files,
      outputPath input root outDir = .ok (targetPath input root outDir) := by
    intro input member
    refine outputPath_eq_ok_iff.mpr ⟨rfl, fun same => ?_⟩
    exact notCode input member (extension_of_same_targetPath wellFormed found member member same)
  have each : ∀ input ∈ files, ∀ other ∈ files, input ≠ other →
      (targetPath input root outDir).Apart (targetPath other root outDir) := by
    have symmetric : Std.Symm fun input other : Path =>
        (targetPath input root outDir).Apart (targetPath other root outDir) :=
      ⟨fun _ _ both => ⟨both.2, both.1⟩⟩
    have pairwise : files.Pairwise fun input other =>
        (targetPath input root outDir).Apart (targetPath other root outDir) :=
      apart.imp_of_mem fun member member' outputs =>
        outputs _ _ (isOutput _ member) (isOutput _ member')
    intro input member other member' distinct
    exact pairwise.forall member member' distinct
  refine ⟨base, standing, ?_, ?_, ?_, ?_, ?_, ?_⟩
  · exact fun member => placed_of_discover wellFormed found member outDir
  · exact fun member => lands _ member
  · exact fun member => isOutput _ member
  · exact fun member => notCode _ member
  · exact fun member => extension?_ne_of_matches notTemporary ((members _).mp member).1
  · exact fun member member' distinct => not_prefix_of_apart wellFormed found member member'
      distinct (each _ member _ member' distinct).1

end Discover

/-! ### The writes of the sources -/

/-- The write that a source comes to, if it can be read and compiled. -/
def writeOf (names : RuntimeNames) (root : Path) (outDir : Option Path) (disk : Disk)
    (processId : Nat) (input : Path) : Option Write :=
  match deliveryOf names root outDir disk input with
  | .ok (output, code) => some (Write.of disk processId output code)
  | .error _ => none

section Writes

variable {names : RuntimeNames} {root : Path} {outDir : Option Path} {disk : Disk}
  {processId : Nat} {files : List Path} {base : List Text} {input other : Path} {write : Write}

theorem temporaryName_injective (processId : Nat) :
    Function.Injective (temporaryName processId) := by
  intro name name' same
  rw [temporaryName_eq, temporaryName_eq] at same
  exact List.append_cancel_right (List.cons.inj same).2

/-- The code of a source has a name that the temporary file of code without a name does not
    take. -/
theorem renamed_ne_file (name : Text) : Path.renamed name outputExtension ≠ "file" := by
  unfold Path.renamed
  split
  · decide
  · intro same
    have dot : '.' ∈ ("file" : Text) := by
      rw [← same]
      simp
    exact absurd dot (by decide)

namespace Spread

theorem exists_of_writeOf (spread : Spread disk processId root outDir files base)
    (member : input ∈ files)
    (isWrite : writeOf names root outDir disk processId input = some write) :
    ∃ code, deliveryOf names root outDir disk input = .ok (targetPath input root outDir, code) ∧
      write = Write.of disk processId (targetPath input root outDir) code := by
  unfold writeOf at isWrite
  cases delivery : deliveryOf names root outDir disk input with
  | error error => simp [delivery] at isWrite
  | ok delivered =>
    obtain ⟨output, code⟩ := delivered
    obtain ⟨isOutput, -⟩ := deliveryOf_eq_ok_iff.mp delivery
    obtain rfl := Except.ok.inj ((spread.isOutput member).symm.trans isOutput)
    exact ⟨code, rfl, by simpa [delivery] using isWrite.symm⟩

/-- The writes of the sources go below one folder. -/
theorem enters (spread : Spread disk processId root outDir files base) (member : input ∈ files)
    (code : Text) :
    ∃ inner, (Write.of disk processId (targetPath input root outDir) code).Enters
      (disk.start (outDir.getD root)) base inner := by
  obtain ⟨⟨inner, name, ⟨front, ends, way⟩, -, isNames, visible⟩, isAbsolute, -⟩ :=
    spread.lands member
  refine ⟨inner, ?_, ?_, isNames, visible, ?_⟩
  · simp only [Write.of, Disk.start, isAbsolute]
  · rw [Write.way_of ends, way]
  · simp only [Write.of, temporaryName_eq]
    rfl

theorem names_of (spread : Spread disk processId root outDir files base) (member : input ∈ files)
    (code : Text) :
    (Write.of disk processId (targetPath input root outDir) code).way ++
        [(Write.of disk processId (targetPath input root outDir) code).name] =
      (targetPath input root outDir).names := by
  obtain ⟨⟨inner, name, ⟨front, ends, -⟩, -⟩, -⟩ := spread.lands member
  rw [Write.way_of ends, Write.name_of ends, Disk.names_of_ends ends]

/-- Temporary files of one name are for code of one name. -/
theorem name_eq_of_temporary (spread : Spread disk processId root outDir files base)
    (member : input ∈ files) (member' : other ∈ files) {code code' : Text}
    (same : (Write.of disk processId (targetPath input root outDir) code).temporary =
      (Write.of disk processId (targetPath other root outDir) code').temporary) :
    (Write.of disk processId (targetPath input root outDir) code).name =
      (Write.of disk processId (targetPath other root outDir) code').name := by
  obtain ⟨⟨inner, name, ⟨front, ends, -⟩, -⟩, -⟩ := spread.lands member
  obtain ⟨⟨inner', name', ⟨front', ends', -⟩, -⟩, -⟩ := spread.lands member'
  rw [Write.name_of ends, Write.name_of ends']
  have sameName := temporaryName_injective processId same
  rw [ends.fileName?, ends'.fileName?] at sameName
  split_ifs at sameName with dots dots' dots'
  · rw [dots, dots']
  · exact (renamed_ne_file name' sameName.symm).elim
  · exact (renamed_ne_file name sameName).elim
  · exact sameName

/-- **The writes of the sources are separate.** -/
theorem separated (spread : Spread disk processId root outDir files base) (names : RuntimeNames) :
    Separated disk.content? (files.filterMap (writeOf names root outDir disk processId)) := by
  have source : ∀ write ∈ files.filterMap (writeOf names root outDir disk processId),
      ∃ input ∈ files, ∃ code, writeOf names root outDir disk processId input = some write ∧
        write = Write.of disk processId (targetPath input root outDir) code := by
    intro write isWrite
    obtain ⟨input, member, isWrite⟩ := List.mem_filterMap.mp isWrite
    obtain ⟨code, -, isOf⟩ := spread.exists_of_writeOf member isWrite
    exact ⟨input, member, code, isWrite, isOf⟩
  have below : ∀ write ∈ files.filterMap (writeOf names root outDir disk processId),
      ∃ inner, write.Enters (disk.start (outDir.getD root)) base inner := by
    intro write isWrite
    obtain ⟨input, member, code, -, rfl⟩ := source write isWrite
    exact spread.enters member code
  refine separated_of_enters below ?_ ?_ ?_
  · intro write isWrite other isOther distinct
    obtain ⟨input, member, code, ofInput, rfl⟩ := source write isWrite
    obtain ⟨input', member', code', ofInput', rfl⟩ := source other isOther
    rw [spread.names_of member, spread.names_of member']
    apply spread.apart member member'
    rintro rfl
    exact distinct (Option.some.inj (ofInput.symm.trans ofInput'))
  · intro write isWrite other isOther same
    obtain ⟨input, member, code, -, rfl⟩ := source write isWrite
    obtain ⟨input', member', code', -, rfl⟩ := source other isOther
    exact spread.name_eq_of_temporary member member' same
  · intro write isWrite other isOther
    obtain ⟨input, member, code, -, rfl⟩ := source write isWrite
    obtain ⟨input', member', code', -, rfl⟩ := source other isOther
    obtain ⟨⟨inner, name, ⟨front, ends, -⟩, -⟩, -⟩ := spread.lands member
    rw [Write.name_of ends]
    exact (temporaryName_ne_renamed processId _ name).symm

/-- Different sources have different writes. -/
theorem eq_of_writeOf (spread : Spread disk processId root outDir files base)
    (member : input ∈ files) (member' : other ∈ files)
    (isWrite : writeOf names root outDir disk processId input = some write)
    (isWrite' : writeOf names root outDir disk processId other = some write) : input = other := by
  obtain ⟨code, -, rfl⟩ := spread.exists_of_writeOf member isWrite
  obtain ⟨code', -, same⟩ := spread.exists_of_writeOf member' isWrite'
  by_contra distinct
  apply spread.apart member member' distinct
  rw [← spread.names_of member code, ← spread.names_of member' code', same]

section Kept

variable {later : Disk} {phase : Write → Phase}
  (spread : Spread disk processId root outDir files base)
  (flight : InFlight disk.content? (files.filterMap (writeOf names root outDir disk processId))
    phase later.content?)
include spread flight

/-- A source keeps its contents while others are compiled. -/
theorem content?_source (member : input ∈ files) :
    later.content? (disk.place input) = disk.content? (disk.place input) := by
  obtain ⟨inner, name, placed⟩ := spread.placed member
  obtain ⟨bytes, isFile⟩ := placed.isFile
  obtain ⟨folder, place⟩ := placed.place_input
  have source : ∀ write ∈ files.filterMap (writeOf names root outDir disk processId),
      ∃ other ∈ files, ∃ code,
        write = Write.of disk processId (targetPath other root outDir) code := by
    intro write isWrite
    obtain ⟨other, member', isWrite⟩ := List.mem_filterMap.mp isWrite
    obtain ⟨code, -, isOf⟩ := spread.exists_of_writeOf member' isWrite
    exact ⟨other, member', code, isOf⟩
  rw [flight.elsewhere, Disk.withMade, if_neg (by simp [isFile])]
  · intro write isWrite _ _ here
    obtain ⟨other, member', code, rfl⟩ := source write isWrite
    obtain ⟨⟨inner', name', ⟨front, ends, -⟩, isName, -⟩, -⟩ := spread.lands member'
    rw [place, Write.target, Write.name_of ends] at here
    have last := List.singleton_inj.mp (List.append_inj' here rfl).2
    apply spread.notCode member
    rw [placed.extension?]
    exact Path.extension_of_renamed isName.ne_nil (by decide) placed.isName.notUp last.symm
  · intro write isWrite _ _ here
    obtain ⟨other, member', code, rfl⟩ := source write isWrite
    rw [place, Write.aside] at here
    have last := List.singleton_inj.mp (List.append_inj' here rfl).2
    apply spread.notTemporary member
    rw [placed.extension?, last]
    exact congrArg Prod.snd (splitName_temporaryName processId _)

/-- A source comes to the same code as before. -/
theorem codeOf_eq (workingFolder : later.workingFolder = disk.workingFolder)
    (member : input ∈ files) : codeOf names later input = codeOf names disk input := by
  have keeps : disk.KeepsFolders later := ⟨workingFolder, flight.folder⟩
  have read : later.readFile input = disk.readFile input := by
    rw [Disk.readFile_eq_locate, Disk.readFile_eq_locate, (spread.lands member).steady keeps]
    cases located : disk.locate input with
    | error error => rfl
    | ok location =>
      obtain rfl := Disk.locate_eq_place located
      simp only [bind, Except.bind, spread.content?_source flight member]
  simp only [codeOf, read]

end Kept

end Spread

end Writes

/-! ### What is settled beforehand -/

/-- The code of a source can be written. -/
def isWritten (names : RuntimeNames) (root : Path) (outDir : Option Path) (machine : Machine)
    (input : Path) : Bool :=
  (writeOf names root outDir machine.disk machine.processId input).any
    fun write => decide (write.Succeeds machine.disk.content?)

/-- The compilation of a source ends with a fatal error. -/
def isFatalSource (names : RuntimeNames) (disk : Disk) (input : Path) : Bool :=
  match codeOf names disk input with
  | .ok _ => false
  | .error error => error.isFatal

section Settled

variable {names : RuntimeNames} {root : Path} {outDir : Option Path} {machine : Machine}
  {files : List Path} {base : List Text} {input : Path}
  (spread : Spread machine.disk machine.processId root outDir files base) (member : input ∈ files)
include spread member

/-- A source without code comes to no write. -/
theorem Spread.writeOf_of_error {error : Error}
    (noCode : codeOf names machine.disk input = .error error) :
    writeOf names root outDir machine.disk machine.processId input = none ∧
      isWritten names root outDir machine input = false := by
  have noWrite : writeOf names root outDir machine.disk machine.processId input = none := by
    rw [writeOf, deliveryOf, spread.isOutput member, noCode]
    rfl
  rw [isWritten, noWrite]
  exact ⟨rfl, rfl⟩

/-- A source with code comes to a write. -/
theorem Spread.writeOf_of_ok {code : Text} (hasCode : codeOf names machine.disk input = .ok code) :
    writeOf names root outDir machine.disk machine.processId input =
        some (Write.of machine.disk machine.processId (targetPath input root outDir) code) ∧
      isWritten names root outDir machine input = decide ((Write.of machine.disk machine.processId
        (targetPath input root outDir) code).Succeeds machine.disk.content?) := by
  have isWrite : writeOf names root outDir machine.disk machine.processId input =
      some (Write.of machine.disk machine.processId (targetPath input root outDir) code) := by
    rw [writeOf, deliveryOf, spread.isOutput member, hasCode]
    rfl
  rw [isWritten, isWrite]
  exact ⟨rfl, rfl⟩

theorem Spread.isWritten_of_isFatalSource
    (fatal : isFatalSource names machine.disk input = true) :
    isWritten names root outDir machine input = false := by
  unfold isFatalSource at fatal
  split at fatal
  next => cases fatal
  next error noCode => exact (spread.writeOf_of_error member noCode).2

end Settled

end ViewScript
