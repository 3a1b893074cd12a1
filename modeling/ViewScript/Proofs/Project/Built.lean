/-
  ViewScript/Proofs/Project/Built.lean
  ====================================
  **Disks on which sources have been built.**

  A build adds folders and files of code, and nothing of that is a source.  While sources are
  compiled, each location of the disk has what it had, or it is on the way to some code and a
  folder, or it is the place of some code and a file.

  A step that is done once more ends as it did, for the disk has only grown since: the folders
  that it made are there, a file that was in its way still is, and so is a folder in the place
  of its code.
-/
import ViewScript.Proofs.Project.Placement

namespace ViewScript

open Disk (Adds Grows)

/-! ### What a build adds -/

/-- A disk with sources whose code can be told from sources, and with no file that has the
    name of a temporary file. -/
structure Setting (disk : Disk) (processId : Nat) (root : Path) (outDir : Option Path)
    (files : List Path) : Prop where
  isWellFormed : disk.IsWellFormed
  standing : disk.content? disk.workingFolder = some .folder
  noUp : ∀ path ∈ outDir, ['.', '.'] ∉ Path.cutAtSlashes path.text
  placed : ∀ {input}, input ∈ files → ∃ inner name, Placed disk root outDir input inner name
  notCode : ∀ {input}, input ∈ files → input.extension? ≠ some outputExtension
  fresh : ∀ {input}, input ∈ files → Disk.isFileAt disk.content?
    (disk.place (temporaryPath processId (targetPath input root outDir))) = false

/-- What may be found at a location while a project is built. -/
inductive Change (first : Disk) (root : Path) (outDir : Option Path) (files : List Path)
    (location : Location) : Option Content → Prop
  | same : Change first root outDir files location (first.content? location)
  | folder {input : Path} {inner : Location} {name : Text} (member : input ∈ files)
      (placed : Placed first root outDir input inner name) (outside : outDir ≠ none)
      (onWay : location <+: codeFolder first root outDir ++ inner) :
    Change first root outDir files location (some .folder)
  | file {input : Path} (member : input ∈ files)
      (named : (targetPath input root outDir).fileName? ≠ none)
      (isTarget : location = first.place (targetPath input root outDir)) (bytes : Bytes) :
    Change first root outDir files location (some (.file bytes))

/-- A disk on which sources of a project have been built. -/
structure Built (first : Disk) (root : Path) (outDir : Option Path) (files : List Path)
    (disk : Disk) : Prop where
  grows : first.Grows disk
  isWellFormed : disk.IsWellFormed
  change : ∀ location, Change first root outDir files location (disk.content? location)

section Built

variable {first disk : Disk} {processId : Nat} {root input : Path} {outDir : Option Path}
  {files : List Path} {inner : Location} {name : Text} {names : RuntimeNames}

theorem Built.refl (isWellFormed : first.IsWellFormed) : Built first root outDir files first :=
  ⟨.refl first, isWellFormed, fun _ => .same⟩

/-- Paths start at a folder. -/
theorem Built.standing (built : Built first root outDir files disk)
    (setting : Setting first processId root outDir files) (path : Path) :
    disk.content? (disk.start path) = some .folder := by
  unfold Disk.start
  split
  · exact built.isWellFormed.content?_nil
  · rw [built.grows.workingFolder]
    exact built.grows.folder setting.standing

/-- A folder was there from the first, or was made because of an output folder. -/
theorem Built.of_folder (built : Built first root outDir files disk) {location : Location}
    (isFolder : disk.content? location = some .folder) :
    first.content? location = some .folder ∨ first.content? location = none ∧ outDir ≠ none := by
  have change := built.change location
  rw [isFolder] at change
  generalize isContent : some Content.folder = content at change
  cases change with
  | same => exact .inl rfl
  | file => cases isContent
  | folder member placed outside =>
    cases isFirst : first.content? location with
    | none => exact .inr ⟨rfl, outside⟩
    | some content =>
      cases content with
      | folder => exact .inl rfl
      | file bytes =>
        obtain ⟨new, stays⟩ := built.grows.file isFirst
        simp [stays] at isFolder

/-- A source keeps its contents. -/
theorem Built.content?_source (built : Built first root outDir files disk)
    (setting : Setting first processId root outDir files) (member : input ∈ files) :
    disk.content? (first.place input) = first.content? (first.place input) := by
  obtain ⟨inner, name, placed⟩ := setting.placed member
  obtain ⟨bytes, isFile⟩ := placed.isFile
  obtain ⟨new, stays⟩ := built.grows.file isFile
  have change := built.change (first.place input)
  rw [stays] at change ⊢
  generalize isContent : some (Content.file new) = content at change ⊢
  cases change with
  | same => rfl
  | folder => cases isContent
  | file isCode named isTarget =>
    obtain ⟨_, _, code⟩ := setting.placed isCode
    obtain ⟨front, ends⟩ := placed.ends
    exact (setting.notCode member
      (code.extension_of_target named ends placed.isName.notUp isTarget)).elim

theorem Built.readFile_source (built : Built first root outDir files disk)
    (setting : Setting first processId root outDir files) (member : input ∈ files) :
    disk.readFile input = first.readFile input := by
  obtain ⟨inner, name, placed⟩ := setting.placed member
  rw [Disk.readFile_eq_locate, Disk.readFile_eq_locate, built.grows.locate placed.present]
  cases located : first.locate input with
  | error error => rfl
  | ok location =>
    obtain rfl := Disk.locate_eq_place located
    simp only [bind, Except.bind, built.content?_source setting member]

theorem Built.codeOf_source (built : Built first root outDir files disk)
    (setting : Setting first processId root outDir files) (member : input ∈ files) :
    codeOf names disk input = codeOf names first input := by
  simp only [codeOf, built.readFile_source setting member]

/-- Nothing comes to the places of temporary files. -/
theorem Built.content?_temporary (built : Built first root outDir files disk)
    (setting : Setting first processId root outDir files) (member : input ∈ files) :
    disk.content? (first.place (temporaryPath processId (targetPath input root outDir))) =
      first.content? (first.place (temporaryPath processId (targetPath input root outDir))) := by
  obtain ⟨inner, name, placed⟩ := setting.placed member
  have change :=
    built.change (first.place (temporaryPath processId (targetPath input root outDir)))
  generalize disk.content? (first.place (temporaryPath processId (targetPath input root outDir))) =
    content at change ⊢
  cases change with
  | same => rfl
  | file isCode named isTarget =>
    obtain ⟨_, _, code⟩ := setting.placed isCode
    exact (placed.temporary_ne_target code named processId isTarget.symm).elim
  | folder isCode code outside onWay =>
    -- It would be a hidden folder between the output folder and the code.
    rw [placed.place_temporary, List.append_assoc, List.prefix_append_right_inj] at onWay
    have inside := onWay.subset (List.mem_append_right _ List.mem_cons_self)
    exact (code.visible _ inside (by rw [temporaryName_eq, List.head?_cons])).elim

theorem Built.fresh (built : Built first root outDir files disk)
    (setting : Setting first processId root outDir files) (member : input ∈ files) :
    Disk.isFileAt disk.content?
      (disk.place (temporaryPath processId (targetPath input root outDir))) = false := by
  rw [built.grows.place, Disk.isFileAt, built.content?_temporary setting member, ← Disk.isFileAt]
  exact setting.fresh member

/-- The folders for the code of a source lie on the way to it, and can be made again. -/
theorem Built.adds_makeParents (built : Built first root outDir files disk)
    (setting : Setting first processId root outDir files)
    (placed : Placed first root outDir input inner name) {code : Text}
    (isCode : codeOf names disk input = .ok code) :
    Adds (fun location => outDir ≠ none ∧ location <+: codeFolder first root outDir ++ inner) disk
        (disk.makeParents (targetPath input root outDir)).2 ∧
      disk.Repeatable (targetPath input root outDir) := by
  cases outDir with
  | none =>
    -- The code goes beside the source, which was read.
    obtain ⟨front, ends⟩ := placed.ends
    have endsTarget : (targetPath input root none).Ends front (Path.renamed name outputExtension) :=
      ends.withExtension placed.isName.notUp (by decide)
    obtain ⟨bytes, read, -⟩ := codeOf_eq_ok_iff.mp isCode
    obtain ⟨location, located, -⟩ := Disk.readFile_eq_ok_iff.mp read
    rw [Disk.locate_of_ends ends placed.isName.notUp] at located
    cases reached : disk.reach input front with
    | error error => simp [reached, bind, Except.bind] at located
    | ok folder =>
      have found := (Disk.reach_eq_ok_iff.mp reached).2
      rw [Disk.start, ← ends.isAbsolute_congr endsTarget, ← Disk.start] at found
      exact ⟨adds_makeParents_of_folderAt _ endsTarget found, repeatable_of_folderAt endsTarget found⟩
  | some outDir =>
    obtain ⟨front, ends, folder, isNames⟩ := placed.target
    have noUp : ['.', '.'] ∉ front := by
      rw [← Path.up_mem_namesIn, isNames outDir rfl, List.mem_append, not_or, Path.names,
        Path.up_mem_namesIn]
      exact ⟨setting.noUp outDir rfl, fun member => (placed.isNames _ member).notUp rfl⟩
    refine ⟨(adds_makeParents_of_noUp ends noUp).mono fun location onWay => ⟨by simp, ?_⟩,
      repeatable_of_noUp ends noUp (built.standing setting _)⟩
    rwa [built.grows.start, folder] at onWay

end Built

/-! ### The first run -/

section First

variable {first : Disk} {processId : Nat} {root input : Path} {outDir : Option Path}
  {files inputs : List Path} {names : RuntimeNames} {machine after : Machine}

/-- What a step writes does not disturb what has been built. -/
theorem Built.wrote {isPlace : Location → Prop} {disk : Disk} {written : Option Bytes}
    {inner : Location} {name : Text} (built : Built first root outDir files machine.disk)
    (setting : Setting first processId root outDir files) (member : input ∈ files)
    (placed : Placed first root outDir input inner name) (process : machine.processId = processId)
    (onWay : ∀ location, isPlace location →
      outDir ≠ none ∧ location <+: codeFolder first root outDir ++ inner)
    (wrote : Wrote isPlace machine.disk disk (targetPath input root outDir)
      (temporaryPath machine.processId (targetPath input root outDir)) written) :
    Built first root outDir files disk ∧ machine.disk.Grows disk := by
  subst process
  have noFile := built.fresh setting member
  have grows := wrote.grows noFile
  refine ⟨⟨built.grows.trans grows, wrote.isWellFormed built.isWellFormed, fun location => ?_⟩, grows⟩
  have change := built.change location
  have becomes := wrote.becomes location
  generalize isBefore : machine.disk.content? location = before at change becomes
  generalize disk.content? location = content at becomes ⊢
  cases becomes with
  | same => exact change
  | made here =>
    obtain ⟨outside, onWay⟩ := onWay location here
    exact .folder member placed outside onWay
  | written isWritten isTarget =>
    exact .file member (wrote.named isWritten) (isTarget.trans (built.grows.place _)) _
  | removed isTemporary =>
    subst isTemporary
    simp [Disk.isFileAt, isBefore] at noFile

theorem Built.compileOne (built : Built first root outDir files machine.disk)
    (setting : Setting first processId root outDir files) (member : input ∈ files)
    (process : machine.processId = processId) {result : Except Error Compiled}
    (run : (ViewScript.compileOne names root outDir input :
      ExceptT Error (StateM Machine) Compiled).run machine = (result, after)) :
    Built first root outDir files after.disk ∧ machine.disk.Grows after.disk ∧
      after.processId = processId := by
  obtain ⟨inner, name, placed⟩ := setting.placed member
  obtain ⟨front, ends, -⟩ := placed.target
  obtain ⟨result, disk, written, run', -, wrote⟩ := wrote_compileOne names machine ends
    fun code isCode => (built.adds_makeParents setting placed isCode).1
  obtain ⟨rfl, rfl⟩ := Prod.mk.inj (run'.symm.trans run)
  obtain ⟨builtAfter, grows⟩ :=
    built.wrote setting member placed process (fun _ here => here) wrote
  exact ⟨builtAfter, grows, process⟩

theorem Built.compileEach (built : Built first root outDir files machine.disk)
    (setting : Setting first processId root outDir files) (members : inputs ⊆ files)
    (process : machine.processId = processId) {results : List FileResult}
    (run : (ViewScript.compileEach names root outDir inputs : StateM Machine (List FileResult))
      machine = (results, after)) :
    Built first root outDir files after.disk ∧ machine.disk.Grows after.disk ∧
      after.processId = processId := by
  induction inputs generalizing machine results with
  | nil =>
    cases run
    exact ⟨built, .refl _, process⟩
  | cons input inputs ih =>
    rw [run_compileEach_cons] at run
    generalize isFirst : (ViewScript.compileOne names root outDir input :
      ExceptT Error (StateM Machine) Compiled).run machine = step at run
    obtain ⟨result, middle⟩ := step
    obtain ⟨rfl, rfl⟩ := Prod.mk.inj run
    obtain ⟨builtMiddle, grows, processMiddle⟩ :=
      built.compileOne setting (members List.mem_cons_self) process isFirst
    obtain ⟨builtAfter, grows', processAfter⟩ :=
      ih builtMiddle (fun _ member => members (List.mem_cons_of_mem _ member)) processMiddle
        (Prod.eta _).symm
    exact ⟨builtAfter, grows.trans grows', processAfter⟩

end First

/-! ### The second run -/

/-- A run has changed a disk as another has changed another disk: of each location either both
    have made the same, or both have left it alone. -/
def Redone (before after before' after' : Disk) : Prop :=
  ∀ location, after'.content? location = after.content? location ∨
    after'.content? location = before'.content? location ∧
      after.content? location = before.content? location

theorem Redone.refl (disk disk' : Disk) : Redone disk disk disk' disk' :=
  fun _ => .inr ⟨rfl, rfl⟩

theorem Redone.trans {before middle after before' middle' after' : Disk}
    (step : Redone before middle before' middle') (rest : Redone middle after middle' after') :
    Redone before after before' after' := by
  intro location
  rcases rest location with same | ⟨left', left⟩
  · exact .inl same
  · rw [left', left]
    exact step location

section Second

variable {first : Disk} {processId : Nat} {root input : Path} {outDir : Option Path}
  {files inputs : List Path} {names : RuntimeNames} {machine after later : Machine}

/-- What two runs of a write make of a location. -/
theorem Wrote.redone {isPlace : Location → Prop} {before after before' after' : Disk}
    {path temporary : Path} {written : Option Bytes}
    (wrote : Wrote isPlace before after path temporary written)
    (fresh : Disk.isFileAt before.content? (before.place temporary) = false)
    (again : Wrote (fun _ => False) before' after' path temporary written)
    (fresh' : Disk.isFileAt before'.content? (before'.place temporary) = false)
    (grows : after.Grows before') : Redone before after before' after' := by
  have place : before'.place path = before.place path := ((wrote.grows fresh).trans grows).place path
  intro location
  have becomes := wrote.becomes location
  have becomes' := again.becomes location
  generalize isBefore : before.content? location = old at becomes ⊢
  generalize isAfter : after.content? location = new at becomes ⊢
  generalize isBefore' : before'.content? location = old' at becomes' ⊢
  generalize isAfter' : after'.content? location = new' at becomes' ⊢
  cases becomes' with
  | made here => exact here.elim
  | removed isTemporary =>
    subst isTemporary
    simp [Disk.isFileAt, isBefore'] at fresh'
  | written isWritten isTarget =>
    left
    rw [← isAfter, isTarget, place, wrote.target _ isWritten]
  | same =>
    cases becomes with
    | same => exact .inr ⟨rfl, rfl⟩
    | made here => exact .inl (isBefore'.symm.trans (grows.folder isAfter))
    | removed isTemporary =>
      subst isTemporary
      simp [Disk.isFileAt, isBefore] at fresh
    | written isWritten isTarget =>
      left
      rw [← isAfter', isTarget, ← place, again.target _ isWritten]

/-- **A step for a second time.**  It ends as it did, and makes what it made. -/
theorem Built.compileOne_again (built : Built first root outDir files machine.disk)
    (setting : Setting first processId root outDir files) (member : input ∈ files)
    (process : machine.processId = processId) {result : Except Error Compiled}
    (run : (ViewScript.compileOne names root outDir input :
      ExceptT Error (StateM Machine) Compiled).run machine = (result, after))
    (builtLater : Built first root outDir files later.disk)
    (processLater : later.processId = processId) (grows : after.disk.Grows later.disk) :
    ∃ disk, (ViewScript.compileOne names root outDir input :
        ExceptT Error (StateM Machine) Compiled).run later = (result, { later with disk }) ∧
      Built first root outDir files disk ∧ later.disk.Grows disk ∧
      Redone machine.disk after.disk later.disk disk := by
  subst process
  obtain ⟨inner, name, placed⟩ := setting.placed member
  obtain ⟨front, ends, -⟩ := placed.target
  have delivery : deliveryOf names root outDir later.disk input =
      deliveryOf names root outDir machine.disk input := by
    simp only [deliveryOf, builtLater.codeOf_source setting member,
      built.codeOf_source setting member]
  rw [run_compileOne] at run ⊢
  rw [delivery]
  cases isDelivery : deliveryOf names root outDir machine.disk input with
  | error error =>
    rw [isDelivery] at run
    obtain ⟨rfl, rfl⟩ := Prod.mk.inj run
    exact ⟨later.disk, rfl, builtLater, .refl _, .refl _ _⟩
  | ok delivered =>
    obtain ⟨output, code⟩ := delivered
    obtain ⟨isOutput, isCode⟩ := deliveryOf_eq_ok_iff.mp isDelivery
    obtain rfl := (outputPath_eq_ok_iff.mp isOutput).1
    obtain ⟨adds, repeatable⟩ := built.adds_makeParents setting placed isCode
    obtain ⟨wroteResult, middle, isWrite, wrote⟩ := wrote_writeOutput ends code machine adds
    simp only [isDelivery, isWrite] at run
    obtain ⟨rfl, rfl⟩ := Prod.mk.inj run
    have fresh := built.fresh setting member
    have freshLater := builtLater.fresh setting member
    have vacant : later.disk.content? (machine.disk.place
          (temporaryPath machine.processId (targetPath input root outDir))) =
        machine.disk.content? (machine.disk.place
          (temporaryPath machine.processId (targetPath input root outDir))) := by
      rw [built.grows.place, builtLater.content?_temporary setting member,
        built.content?_temporary setting member]
    obtain ⟨disk, runLater, again⟩ := writeOutput_again ends code (built.standing setting _)
      repeatable processLater fresh vacant isWrite grows
    obtain ⟨builtAgain, growsAgain⟩ :=
      builtLater.wrote setting member placed processLater (fun _ => False.elim) again
    rw [processLater] at again
    exact ⟨disk, by simp only [runLater], builtAgain, growsAgain,
      wrote.redone fresh again freshLater grows⟩

/-- **A run for a second time**, on a disk that has grown since. -/
theorem Built.compileEach_again (built : Built first root outDir files machine.disk)
    (setting : Setting first processId root outDir files) (members : inputs ⊆ files)
    (process : machine.processId = processId) {results : List FileResult}
    (run : (ViewScript.compileEach names root outDir inputs : StateM Machine (List FileResult))
      machine = (results, after))
    (builtLater : Built first root outDir files later.disk)
    (processLater : later.processId = processId) (grows : after.disk.Grows later.disk) :
    ∃ disk, (ViewScript.compileEach names root outDir inputs : StateM Machine (List FileResult))
        later = (results, { later with disk }) ∧
      Redone machine.disk after.disk later.disk disk := by
  induction inputs generalizing machine later results with
  | nil =>
    cases run
    exact ⟨later.disk, rfl, .refl _ _⟩
  | cons input inputs ih =>
    have isSource := members List.mem_cons_self
    have rest : inputs ⊆ files := fun _ member => members (List.mem_cons_of_mem _ member)
    rw [run_compileEach_cons] at run ⊢
    generalize isStep : (ViewScript.compileOne names root outDir input :
      ExceptT Error (StateM Machine) Compiled).run machine = step at run
    obtain ⟨result, middle⟩ := step
    dsimp only at run
    generalize isRest : (ViewScript.compileEach names root outDir inputs :
      StateM Machine (List FileResult)) middle = remaining at run
    obtain ⟨remaining, final⟩ := remaining
    obtain ⟨rfl, rfl⟩ := Prod.mk.inj run
    obtain ⟨builtMiddle, -, processMiddle⟩ := built.compileOne setting isSource process isStep
    obtain ⟨-, growsMiddle, -⟩ := builtMiddle.compileEach setting rest processMiddle isRest
    obtain ⟨disk, again, builtAgain, growsAgain, redone⟩ :=
      built.compileOne_again setting isSource process isStep builtLater processLater
        (growsMiddle.trans grows)
    have processAgain : ({ later with disk } : Machine).processId = processId := processLater
    obtain ⟨disk', again', redone'⟩ :=
      ih builtMiddle rest processMiddle isRest builtAgain processAgain (grows.trans growsAgain)
    refine ⟨disk', ?_, redone.trans redone'⟩
    simp only [again, again']

end Second

end ViewScript
