/-
  ViewScript/Proofs/Project/Stages.lean
  =====================================
  **How far a source has come.**

  Many sources are compiled at the same time, and their code is kept apart.  What a source does
  is a sequence of requests: it reads, opens the way to its code, writes a temporary file and
  moves that into place, or takes it away again.  To every stage belongs a phase of its write, and
  the phases of all writes tell the contents of the disk.

  A request moves its source to the next stage and leaves all the others where they are, whatever
  these are doing (`Task.Stage.next`).
-/
import ViewScript.Proofs.Project.Spread
import ViewScript.Proofs.Project.Workers

namespace ViewScript

/-! ### The requests of a source -/

namespace Dialogue

/-- Take the temporary file away again. -/
def removing (processId : Nat) (output : Path) (error : FileError) :
    Dialogue (Except Error Compiled) :=
  .ask (.removeFile (temporaryPath processId output)) fun _ => .done (.error (.write output error))

/-- Put the temporary file in the place of the file. -/
def moving (processId : Nat) (output : Path) (code : Text) :
    Dialogue (Except Error Compiled) :=
  .ask (.renameFile (temporaryPath processId output) output) fun (reply : Except FileError Unit) =>
    match reply with
    | .ok () => .done (.ok ⟨output, code.byteSize⟩)
    | .error error => removing processId output error

/-- Write the temporary file. -/
def creating (processId : Nat) (output : Path) (code : Text) :
    Dialogue (Except Error Compiled) :=
  .ask (.createFile (temporaryPath processId output) (Utf8.encode code))
    fun (reply : Except FileError Unit) =>
      match reply with
      | .ok () => moving processId output code
      | .error error => .done (.error (.write output error))

def numbering (output : Path) (code : Text) : Dialogue (Except Error Compiled) :=
  .ask .processId fun processId => creating processId output code

/-- Make the folders above the file, if its path names any. -/
def opening (output : Path) (code : Text) : Dialogue (Except Error Compiled) :=
  match output.parent? with
  | some ⟨c :: cs⟩ => .ask (.makeFolders ⟨c :: cs⟩) fun (reply : Except FileError Unit) =>
    match reply with
    | .ok () => numbering output code
    | .error error => .done (.error (.write output error))
  | _ => numbering output code

/-- Read a source and compile it. -/
def reading (names : RuntimeNames) (input output : Path) : Dialogue (Except Error Compiled) :=
  .ask (.readFile input) fun (reply : Except FileError Bytes) =>
    match reply.mapError (.read input) >>= fun bytes =>
      compileSource names input (Utf8.decodeLossy bytes) with
    | .ok code => opening output code
    | .error error => .done (.error error)

/-- **The requests of a source**, one after the other. -/
theorem compileOne_eq_reading {names : RuntimeNames} {root : Path} {outDir : Option Path}
    {input output : Path} (isOutput : outputPath input root outDir = .ok output) :
    (compileOne names root outDir input : ExceptT Error Dialogue Compiled).run =
      reading names input output := by
  have replaced (code : Text) : ((do
      attemptFile (.write output) (replaceFile output (Utf8.encode code)).run
      return ⟨output, code.byteSize⟩ : ExceptT Error Dialogue Compiled).run) =
        numbering output code := by
    refine congrArg (ask .processId) (funext fun processId => ?_)
    refine congrArg (ask (.createFile _ _)) (funext fun reply => ?_)
    rcases reply with error | ⟨⟩
    · rfl
    · refine congrArg (ask (.renameFile _ _)) (funext fun reply => ?_)
      rcases reply with error | ⟨⟩ <;> rfl
  have wrote (code : Text) : ((do
      writeOutput output code
      return ⟨output, code.byteSize⟩ : ExceptT Error Dialogue Compiled).run) =
        opening output code := by
    unfold writeOutput opening
    rcases output.parent? with _ | ⟨_ | ⟨c, cs⟩⟩
    · exact replaced code
    · exact replaced code
    · refine congrArg (ask (.makeFolders _)) (funext fun reply => ?_)
      rcases reply with error | ⟨⟩
      · rfl
      · exact replaced code
  unfold compileOne
  rw [isOutput]
  refine congrArg (ask (.readFile input)) (funext fun reply => ?_)
  rcases reply with error | bytes
  · rfl
  · have compiled (result : Except Error Text) : ((do
        let code ← ExceptT.mk (pure result)
        writeOutput output code
        return ⟨output, code.byteSize⟩ : ExceptT Error Dialogue Compiled).run) =
          match result with
          | .ok code => opening output code
          | .error error => .done (.error error) := by
      cases result with
      | ok code => exact wrote code
      | error error => rfl
    exact compiled _

/-- If there are no folders to make, the first request is already the one after that. -/
theorem next_opening (output : Path) (code : Text) (machine : Machine) :
    (opening output code).next machine =
        (match (machine.disk.makeParents output).1 with
          | .ok () => numbering output code
          | .error error => .done (.error (.write output error)),
          { machine with disk := (machine.disk.makeParents output).2 }) ∨
      (opening output code).next machine = (creating machine.processId output code, machine) ∧
        machine.disk.makeParents output = (.ok (), machine.disk) := by
  unfold opening Disk.makeParents
  rcases output.parent? with _ | ⟨_ | ⟨c, cs⟩⟩
  · exact .inr ⟨rfl, rfl⟩
  · exact .inr ⟨rfl, rfl⟩
  · exact .inl rfl

theorem next_creating (processId : Nat) (output : Path) (code : Text) (machine : Machine) :
    (creating processId output code).next machine =
      match machine.disk.createFile (temporaryPath processId output) (Utf8.encode code) with
      | .ok disk => (moving processId output code, { machine with disk })
      | .error error => (.done (.error (.write output error)), machine) := by
  have step : (creating processId output code).next machine =
      let reply := Machine.act
        (·.createFile (temporaryPath processId output) (Utf8.encode code)) machine
      (match reply.1 with
        | .ok () => moving processId output code
        | .error error => .done (.error (.write output error)), reply.2) := rfl
  rw [step, Machine.act]
  cases machine.disk.createFile (temporaryPath processId output) (Utf8.encode code) <;> rfl

theorem next_moving (processId : Nat) (output : Path) (code : Text) (machine : Machine) :
    (moving processId output code).next machine =
      match machine.disk.renameFile (temporaryPath processId output) output with
      | .ok disk => (.done (.ok ⟨output, code.byteSize⟩), { machine with disk })
      | .error error => (removing processId output error, machine) := by
  have step : (moving processId output code).next machine =
      let reply := Machine.act (·.renameFile (temporaryPath processId output) output) machine
      (match reply.1 with
        | .ok () => .done (.ok ⟨output, code.byteSize⟩)
        | .error error => removing processId output error, reply.2) := rfl
  rw [step, Machine.act]
  cases machine.disk.renameFile (temporaryPath processId output) output <;> rfl

theorem next_removing (processId : Nat) (output : Path) (error : FileError) {machine : Machine}
    {disk : Disk} (removed : machine.disk.removeFile (temporaryPath processId output) = .ok disk) :
    (removing processId output error).next machine =
      (.done (.error (.write output error)), { machine with disk }) := by
  have step : (removing processId output error).next machine =
      (.done (.error (.write output error)),
        (Machine.act (·.removeFile (temporaryPath processId output)) machine).2) := rfl
  rw [step, Machine.act, removed]

end Dialogue

/-! ### How far a source has come -/

/-- Sources to be compiled, and the machine before that. -/
structure Task where
  names : RuntimeNames
  root : Path
  outDir : Option Path
  before : Machine
  files : List Path

namespace Task

variable (task : Task)

def output (input : Path) : Path := targetPath input task.root task.outDir

def code (input : Path) : Except Error Text := codeOf task.names task.before.disk input

/-- The write of code to the output of a source. -/
def write (input : Path) (code : Text) : Write :=
  Write.of task.before.disk task.before.processId (task.output input) code

def write? (input : Path) : Option Write :=
  writeOf task.names task.root task.outDir task.before.disk task.before.processId input

def writes : List Write := task.files.filterMap task.write?

def isWritten (input : Path) : Bool :=
  ViewScript.isWritten task.names task.root task.outDir task.before input

def isFatal (input : Path) : Bool := isFatalSource task.names task.before.disk input

/-- A result that was settled before. -/
structure Settles (input : Path) (result : Except Error Compiled) : Prop where
  isOk : result.isOk = task.isWritten input
  fatal : (⟨input, result⟩ : FileResult).fatal?.isSome = task.isFatal input

/-- A machine on which the writes have come so far. -/
structure Progress (phase : Write → Phase) (machine : Machine) : Prop where
  processId : machine.processId = task.before.processId
  workingFolder : machine.disk.workingFolder = task.before.disk.workingFolder
  flight : InFlight task.before.disk.content? task.writes phase machine.disk.content?

/-- The stages of a source, each with the phase of its write. -/
inductive Stage (input : Path) : Phase → Dialogue (Except Error Compiled) → Prop
  | reading : Stage input .waiting (.reading task.names input (task.output input))
  | opening {code : Text} (hasCode : task.code input = .ok code) :
    Stage input .waiting (.opening (task.output input) code)
  | numbering {code : Text} (hasCode : task.code input = .ok code)
      (ready : (task.write input code).isReady task.before.disk.content? = true) :
    Stage input .opened (.numbering (task.output input) code)
  | creating {code : Text} (hasCode : task.code input = .ok code)
      (ready : (task.write input code).isReady task.before.disk.content? = true) :
    Stage input .opened (.creating task.before.processId (task.output input) code)
  | moving {code : Text} (hasCode : task.code input = .ok code) :
    Stage input .begun (.moving task.before.processId (task.output input) code)
  | removing {code : Text} (hasCode : task.code input = .ok code)
      (fails : ¬ (task.write input code).Succeeds task.before.disk.content?) (error : FileError) :
    Stage input .begun (.removing task.before.processId (task.output input) error)
  | finished {result : Except Error Compiled} (settles : task.Settles input result) :
    Stage input .done (.done result)

end Task

/-- The phases after one write has come further. -/
def reached (phase : Write → Phase) (write? : Option Write) (next : Phase) : Write → Phase :=
  fun write => if write? = some write then next else phase write

section Reached

variable {phase : Write → Phase} {write : Write} {write? : Option Write} {next : Phase}

theorem reached_some : reached phase (some write) next = Function.update phase write next := by
  funext other
  by_cases same : other = write
  · subst same
    simp [reached]
  · simp [reached, Function.update_of_ne same, Ne.symm same]

/-- Nothing changes if the write is where it was. -/
theorem reached_eq_self (isPhase : ∀ write ∈ write?, phase write = next) :
    reached phase write? next = phase := by
  funext other
  unfold reached
  split
  next isWrite => exact (isPhase other isWrite).symm
  next => rfl

end Reached

namespace Task

variable {task : Task} {base : List Text} {input : Path} {code : Text} {phase : Write → Phase}
  {machine : Machine}

/-- A source has made one request, and its write has come further. -/
def StepsTo (task : Task) (phase : Write → Phase) (input : Path)
    (step : Dialogue (Except Error Compiled) × Machine) : Prop :=
  ∃ next, task.Stage input next step.1 ∧
    task.Progress (reached phase (task.write? input) next) step.2

/-- A stage that goes with the same phase. -/
theorem stepsTo_of_same {next : Phase} {dialogue : Dialogue (Except Error Compiled)}
    (stage : task.Stage input next dialogue) (progress : task.Progress phase machine)
    (isPhase : ∀ write ∈ task.write? input, phase write = next) :
    task.StepsTo phase input (dialogue, machine) :=
  ⟨next, stage, by rwa [reached_eq_self isPhase]⟩

section Step

variable
  (spread : Spread task.before.disk task.before.processId task.root task.outDir task.files base)
  (member : input ∈ task.files)
include spread member

theorem write?_of_isFatal (fatal : task.isFatal input = true) : task.write? input = none := by
  unfold Task.isFatal isFatalSource at fatal
  split at fatal
  next => cases fatal
  next noCode => exact (spread.writeOf_of_error member noCode).1

theorem settles_of_error {error : Error} (noCode : task.code input = .error error) :
    task.Settles input (.error error) := by
  refine ⟨(spread.writeOf_of_error member noCode).2.symm, ?_⟩
  have isFatal : task.isFatal input = error.isFatal := by
    unfold Task.isFatal isFatalSource
    rw [show codeOf task.names task.before.disk input = .error error from noCode]
  rw [isFatal]
  cases fatal : error.isFatal <;> simp [FileResult.fatal?, fatal]

section WithCode

variable (hasCode : task.code input = .ok code)
include hasCode

theorem write?_eq : task.write? input = some (task.write input code) :=
  (spread.writeOf_of_ok member hasCode).1

theorem mem_writes : task.write input code ∈ task.writes :=
  List.mem_filterMap.mpr ⟨input, member, write?_eq spread member hasCode⟩

theorem settles_of_write {result : Except Error Compiled}
    (isOk : result.isOk = true ↔ (task.write input code).Succeeds task.before.disk.content?)
    (calm : (⟨input, result⟩ : FileResult).fatal? = none) : task.Settles input result := by
  have isWritten : task.isWritten input =
      decide ((task.write input code).Succeeds task.before.disk.content?) :=
    (spread.writeOf_of_ok member hasCode).2
  have notFatal : task.isFatal input = false := by
    unfold Task.isFatal isFatalSource
    rw [show codeOf task.names task.before.disk input = .ok code from hasCode]
  refine ⟨?_, by rw [calm, notFatal]; rfl⟩
  rw [isWritten, Bool.eq_iff_iff, decide_eq_true_iff, isOk]

theorem settles_of_failure
    (fails : ¬ (task.write input code).Succeeds task.before.disk.content?) (error : FileError) :
    task.Settles input (.error (.write (task.output input) error)) :=
  settles_of_write spread member hasCode
    ⟨by simp [Except.isOk, Except.toBool], fun succeeds => (fails succeeds).elim⟩ rfl

variable (progress : task.Progress phase machine)
include progress

omit hasCode in
/-- The path of the code, its folder and where it starts. -/
theorem ends_output : ∃ front last, (task.output input).Ends front last ∧
    machine.disk.content? (machine.disk.start (task.output input)) = some .folder ∧
    ∀ code, Write.of machine.disk task.before.processId (task.output input) code =
      task.write input code := by
  obtain ⟨⟨inner, name, ⟨front, ends, -⟩, -⟩, isAbsolute, -⟩ := spread.lands member
  have start : machine.disk.start (task.output input) =
      task.before.disk.start (task.output input) := by
    simp only [Disk.start, progress.workingFolder]
  refine ⟨front, _, ends, ?_, fun code => ?_⟩
  · apply progress.flight.folder
    rw [start, Disk.start, Task.output, isAbsolute]
    exact spread.standing
  · simp only [Task.write, Write.of, start]

/-- The folder of the code is there as soon as its way is opened. -/
theorem folderAt_output {front : List Text} {last : Text}
    (ends : (task.output input).Ends front last)
    (ready : (task.write input code).isReady task.before.disk.content? = true)
    (isOpened : phase (task.write input code) ≠ .waiting) :
    machine.disk.folderAt (machine.disk.start (task.output input)) front =
      .ok (task.write input code).folder := by
  obtain ⟨-, -, -, standing, sameWrite⟩ := ends_output spread member progress
  have way : (task.write input code).way = Path.namesIn front := Write.way_of ends
  have start : (task.write input code).start = machine.disk.start (task.output input) := by
    rw [← sameWrite]
    rfl
  have clear : Disk.isOpen task.before.disk.content? (task.write input code).start
      (task.write input code).way = true := (Bool.and_eq_true_iff.mp ready).2
  rw [← Disk.folderAt_namesIn, ← way, ← start]
  rw [← start] at standing
  exact Disk.folderAt_of_isOpen clear standing
    (progress.flight.folder_way (spread.separated task.names) (mem_writes spread member hasCode)
      ready isOpened)

/-- A write that has come further. -/
theorem stepsTo_of_flight {next : Phase} {dialogue : Dialogue (Except Error Compiled)}
    {disk : Disk} (stage : task.Stage input next dialogue)
    (workingFolder : disk.workingFolder = machine.disk.workingFolder)
    (flight : InFlight task.before.disk.content? task.writes
      (Function.update phase (task.write input code) next) disk.content?) :
    task.StepsTo phase input (dialogue, { machine with disk }) := by
  refine ⟨next, stage, progress.processId, workingFolder.trans progress.workingFolder, ?_⟩
  rwa [write?_eq spread member hasCode, reached_some]

theorem stepsTo_of_opening (isWaiting : phase (task.write input code) = .waiting) :
    task.StepsTo phase input
      ((Dialogue.opening (task.output input) code).next machine) := by
  obtain ⟨front, last, ends, standing, sameWrite⟩ := ends_output spread member progress
  have separated := spread.separated task.names
  have isWrite := mem_writes spread member hasCode
  obtain ⟨isOk, contents⟩ := @makeParents_of_ends _ task.before.processId _ code _ _ ends standing
  rw [sameWrite, (progress.flight.isReady_eq separated isWrite).1] at isOk
  rw [sameWrite] at contents
  have opens := progress.flight.opens separated isWrite isWaiting
  rw [← contents] at opens
  rcases Dialogue.next_opening (task.output input) code machine with step | ⟨step, nothing⟩
  · have sameFolder : (machine.disk.makeParents (task.output input)).2.workingFolder =
        machine.disk.workingFolder := (Disk.adds_makeParents machine.disk _).workingFolder
    rw [step]
    cases made : (machine.disk.makeParents (task.output input)).1 with
    | ok =>
      exact stepsTo_of_flight spread member hasCode progress (.numbering hasCode (isOk.mp made))
        sameFolder opens
    | error error =>
      have notReady : ¬ (task.write input code).Begins task.before.disk.content? := by
        intro begins
        rw [isOk.mpr begins.1] at made
        cases made
      have fails := opens.fails separated isWrite (by simp) (by simp) notReady
      rw [Function.update_idem] at fails
      exact stepsTo_of_flight spread member hasCode progress
        (.finished (settles_of_failure spread member hasCode (fun succeeds => notReady succeeds.1)
          error)) sameFolder fails
  · rw [nothing] at isOk opens
    rw [step, progress.processId]
    exact stepsTo_of_flight spread member hasCode progress (.creating hasCode (isOk.mp rfl)) rfl
      opens

/-- The temporary file is written, or there is something against it. -/
theorem stepsTo_of_creating
    (ready : (task.write input code).isReady task.before.disk.content? = true)
    (isOpened : phase (task.write input code) = .opened) :
    task.StepsTo phase input
      ((Dialogue.creating task.before.processId (task.output input) code).next machine) := by
  obtain ⟨front, last, ends, -, sameWrite⟩ := ends_output spread member progress
  have separated := spread.separated task.names
  have isWrite := mem_writes spread member hasCode
  have found := folderAt_output spread member hasCode progress ends ready (by simp [isOpened])
  have begins := progress.flight.begins_iff separated isWrite ready isOpened
  rw [Dialogue.next_creating]
  rcases createFile_of_write ends (sameWrite code) found (Utf8.encode code) with
    ⟨fits, free, created, isCreated, puts⟩ | ⟨denied, error, isError⟩
  · rw [isCreated]
    have works := begins.mp ⟨fits, free⟩
    refine stepsTo_of_flight spread member hasCode progress (.moving hasCode) puts.workingFolder ?_
    refine progress.flight.moves separated isWrite (by simp [isOpened]) (by simp [isOpened])
      (.inl rfl) (fun _ => works) (by simp) (fun _ => ?_) fun location _ notAside => ?_
    · rw [puts.content?, if_pos rfl, if_pos rfl]
      rfl
    · rw [puts.content?, if_neg (notAside works)]
  · rw [isError]
    have fails := begins.not.mp denied
    exact stepsTo_of_flight spread member hasCode progress
      (.finished (settles_of_failure spread member hasCode (fun succeeds => fails succeeds.1)
        error)) rfl
      (progress.flight.fails separated isWrite (by simp [isOpened]) (by simp [isOpened]) fails)

/-- The temporary file takes the place of the file, or there is something against it. -/
theorem stepsTo_of_moving (isBegun : phase (task.write input code) = .begun) :
    task.StepsTo phase input
      ((Dialogue.moving task.before.processId (task.output input) code).next machine) := by
  obtain ⟨front, last, ends, -, sameWrite⟩ := ends_output spread member progress
  have separated := spread.separated task.names
  have isWrite := mem_writes spread member hasCode
  have begins := progress.flight.begins isWrite isBegun
  have found := folderAt_output spread member hasCode progress ends begins.1 (by simp [isBegun])
  have succeeds := progress.flight.succeeds_iff separated isWrite isBegun
  rw [Dialogue.next_moving]
  rcases renameFile_of_write ends (sameWrite code) found begins.2.1
      (progress.flight.begun isWrite isBegun) with
    ⟨fits, free, renamed, isRenamed, sameFolder, contents⟩ | ⟨denied, error, isError⟩
  · rw [isRenamed]
    have works := succeeds.mp ⟨fits, free⟩
    have isOk : (Except.ok ⟨task.output input, code.byteSize⟩ : Except Error Compiled).isOk = true ↔
        (task.write input code).Succeeds task.before.disk.content? := iff_of_true rfl works
    refine stepsTo_of_flight spread member hasCode progress
      (.finished (settles_of_write spread member hasCode isOk rfl)) sameFolder ?_
    refine progress.flight.moves separated isWrite (by simp [isBegun]) (by simp [isBegun])
      (.inr rfl) (by simp) (fun _ _ => ?_) (fun _ => ?_) fun location notTarget notAside => ?_
    · rw [contents, if_pos rfl]
    · rw [contents, if_neg (separated.apart isWrite isWrite).symm, if_pos rfl]
      rfl
    · rw [contents, if_neg (notTarget rfl works), if_neg (notAside begins)]
  · rw [isError]
    refine stepsTo_of_same (.removing hasCode (succeeds.not.mp denied) error) progress ?_
    rintro write ofInput
    rw [write?_eq spread member hasCode] at ofInput
    rw [← Option.some.inj ofInput, isBegun]

/-- The temporary file is taken away. -/
theorem stepsTo_of_removing (isBegun : phase (task.write input code) = .begun)
    (fails : ¬ (task.write input code).Succeeds task.before.disk.content?) (error : FileError) :
    task.StepsTo phase input
      ((Dialogue.removing task.before.processId (task.output input) error).next machine) := by
  obtain ⟨front, last, ends, -, sameWrite⟩ := ends_output spread member progress
  have separated := spread.separated task.names
  have isWrite := mem_writes spread member hasCode
  have begins := progress.flight.begins isWrite isBegun
  have found := folderAt_output spread member hasCode progress ends begins.1 (by simp [isBegun])
  obtain ⟨-, isRemoved, puts⟩ := removeFile_of_write ends (sameWrite code) found begins.2.1
    (progress.flight.begun isWrite isBegun)
  rw [Dialogue.next_removing _ _ error isRemoved]
  refine stepsTo_of_flight spread member hasCode progress
    (.finished (settles_of_failure spread member hasCode fails error)) puts.workingFolder ?_
  refine progress.flight.moves separated isWrite (by simp [isBegun]) (by simp [isBegun])
    (.inr rfl) (by simp) (fun _ succeeds => (fails succeeds).elim) (fun _ => ?_)
    fun location _ notAside => ?_
  · rw [puts.content?, if_pos rfl]
    rfl
  · rw [puts.content?, if_neg (notAside begins)]

end WithCode

theorem stepsTo_of_reading (progress : task.Progress phase machine)
    (isPhase : ∀ write ∈ task.write? input, phase write = .waiting) :
    task.StepsTo phase input
      ((Dialogue.reading task.names input (task.output input)).next machine) := by
  have step : (Dialogue.reading task.names input (task.output input)).next machine =
      (match codeOf task.names machine.disk input with
        | .ok code => .opening (task.output input) code
        | .error error => .done (.error error), machine) := rfl
  rw [step, spread.codeOf_eq progress.flight progress.workingFolder member]
  cases hasCode : codeOf task.names task.before.disk input with
  | ok code => exact stepsTo_of_same (.opening hasCode) progress isPhase
  | error error =>
    have noWrite : task.write? input = none := (spread.writeOf_of_error member hasCode).1
    exact stepsTo_of_same (.finished (settles_of_error spread member hasCode)) progress
      (by simp [noWrite])

/-- **A request moves a source to its next stage.** -/
theorem Stage.next {own : Phase} {dialogue : Dialogue (Except Error Compiled)}
    (stage : task.Stage input own dialogue) (progress : task.Progress phase machine)
    (isPhase : ∀ write ∈ task.write? input, phase write = own) :
    task.StepsTo phase input (dialogue.next machine) := by
  have ofCode {code : Text} (hasCode : task.code input = .ok code) :
      phase (task.write input code) = own := isPhase _ (write?_eq spread member hasCode)
  cases stage with
  | reading => exact stepsTo_of_reading spread member progress isPhase
  | opening hasCode => exact stepsTo_of_opening spread member hasCode progress (ofCode hasCode)
  | @numbering code hasCode ready =>
    have step : (Dialogue.numbering (task.output input) code).next machine =
        (.creating machine.processId (task.output input) code, machine) := rfl
    rw [step, progress.processId]
    exact stepsTo_of_same (.creating hasCode ready) progress isPhase
  | creating hasCode ready =>
    exact stepsTo_of_creating spread member hasCode progress ready (ofCode hasCode)
  | moving hasCode => exact stepsTo_of_moving spread member hasCode progress (ofCode hasCode)
  | removing hasCode fails error =>
    exact stepsTo_of_removing spread member hasCode progress (ofCode hasCode) fails error
  | finished settles => exact stepsTo_of_same (.finished settles) progress isPhase

end Step

/-- A source is at some stage, and its write in the phase of that stage. -/
def IsAt (task : Task) (phase : Write → Phase) (input : Path)
    (dialogue : Dialogue (Except Error Compiled)) : Prop :=
  ∃ own, task.Stage input own dialogue ∧ ∀ write ∈ task.write? input, phase write = own

/-- The phases of all writes but that of one source. -/
def SameBeside (task : Task) (input : Path) (phase phase' : Write → Phase) : Prop :=
  ∀ write, task.write? input ≠ some write → phase' write = phase write

namespace IsAt

variable {dialogue : Dialogue (Except Error Compiled)} {phase' : Write → Phase}

theorem congr (isAt : task.IsAt phase input dialogue)
    (same : ∀ write ∈ task.write? input, phase' write = phase write) :
    task.IsAt phase' input dialogue := by
  obtain ⟨own, stage, isPhase⟩ := isAt
  exact ⟨own, stage, fun write ofInput => (same write ofInput).trans (isPhase write ofInput)⟩

/-- A source that is done was settled before, and its write is done. -/
theorem of_done {result : Except Error Compiled} (isAt : task.IsAt phase input (.done result)) :
    task.Settles input result ∧ ∀ write ∈ task.write? input, phase write = .done := by
  obtain ⟨own, stage, isPhase⟩ := isAt
  generalize isDone : Dialogue.done result = dialogue at stage
  cases stage with
  | finished settles =>
    cases isDone
    exact ⟨settles, isPhase⟩
  | @opening code =>
    unfold Dialogue.opening at isDone
    split at isDone <;> cases isDone
  | reading | numbering | creating | moving | removing => cases isDone

variable
  (spread : Spread task.before.disk task.before.processId task.root task.outDir task.files base)
  (member : input ∈ task.files)
include spread member

theorem next (isAt : task.IsAt phase input dialogue) (progress : task.Progress phase machine) :
    ∃ phase', task.IsAt phase' input (dialogue.next machine).1 ∧
      task.Progress phase' (dialogue.next machine).2 ∧ task.SameBeside input phase phase' := by
  obtain ⟨own, stage, isPhase⟩ := isAt
  obtain ⟨next, stage, progress⟩ := stage.next spread member progress isPhase
  refine ⟨_, ⟨next, stage, fun write ofInput => ?_⟩, progress, fun write others => ?_⟩
  · exact if_pos (Option.mem_def.mp ofInput)
  · exact if_neg others

/-- **A source that makes all its requests.** -/
theorem perform (isAt : task.IsAt phase input dialogue) (progress : task.Progress phase machine) :
    ∃ phase', let run := (dialogue.perform : StateM Machine (Except Error Compiled)) machine
      task.IsAt phase' input (.done run.1) ∧ task.Progress phase' run.2 ∧
        task.SameBeside input phase phase' := by
  induction dialogue generalizing phase machine with
  | done result => exact ⟨phase, isAt, progress, fun _ _ => rfl⟩
  | ask request rest ih =>
    obtain ⟨middle, isAt, progress, same⟩ := isAt.next spread member progress
    obtain ⟨final, isAt, progress, same'⟩ := ih _ isAt progress
    exact ⟨final, isAt, progress, fun write others =>
      (same' write others).trans (same write others)⟩

end IsAt

theorem Progress.sameTree {phase' : Write → Phase} {machine' : Machine}
    (first : task.Progress phase machine) (second : task.Progress phase' machine')
    (same : ∀ write ∈ task.writes, phase' write = phase write) :
    machine.disk.SameTree machine'.disk := by
  intro location
  rw [first.flight.unique second.flight same]

section Spread

variable
  (spread : Spread task.before.disk task.before.processId task.root task.outDir task.files base)
include spread

/-- A source at its beginning. -/
theorem isAt_start (member : input ∈ task.files)
    (isWaiting : ∀ write ∈ task.write? input, phase write = .waiting) :
    task.IsAt phase input (compileOne task.names task.root task.outDir input :
      ExceptT Error Dialogue Compiled).run := by
  rw [Dialogue.compileOne_eq_reading (spread.isOutput member)]
  exact ⟨.waiting, .reading, isWaiting⟩

/-- Different sources have different writes. -/
theorem write?_ne {other : Path} (member : input ∈ task.files) (member' : other ∈ task.files)
    (distinct : input ≠ other) : ∀ write ∈ task.write? other, task.write? input ≠ some write :=
  fun _ ofOther ofInput => distinct (spread.eq_of_writeOf member member' ofInput ofOther)

end Spread

end Task

end ViewScript
