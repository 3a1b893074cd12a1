/-
  ViewScript/Proofs/Project/Workers.lean
  ======================================
  **What workers do.**

  To perform a dialogue is to run the computation that it was taken from: the two are written
  in the same words, and performing respects them all.  So workers that have one source each
  and take no turns compile the sources one after the other.

  Other schedules come to other results.  But whatever the replies, a worker without a fatal
  error has a result for each of its sources, in their order.
-/
import Mathlib.Data.List.Forall2
import ViewScript.Proofs.Project.Steps

namespace ViewScript

namespace Dialogue

/-! ### Performing a dialogue -/

section Performing

variable {m : Type → Type} [Monad m] [LawfulMonad m] [Host m] {α β ε : Type}

theorem perform_bind (dialogue : Dialogue α) (after : α → Dialogue β) :
    (perform (dialogue >>= after) : m β) =
      perform dialogue >>= fun value => perform (after value) := by
  induction dialogue with
  | done value => exact (pure_bind value fun value => (perform (after value) : m β)).symm
  | ask request next ih =>
    have step : (perform (ask request next >>= after) : m β) =
        Host.answer request >>= fun reply => perform (next reply >>= after) := rfl
    rw [step, perform, bind_assoc]
    exact bind_congr ih

theorem perform_map (change : α → β) (dialogue : Dialogue α) :
    (perform (change <$> dialogue) : m β) = change <$> perform dialogue := by
  have step : change <$> dialogue = dialogue >>= fun value => pure (change value) := rfl
  rw [step, perform_bind, map_eq_pure_bind]
  rfl

theorem perform_answer (request : Request) :
    (perform (Host.answer request) : m request.Reply) = Host.answer request :=
  bind_pure (Host.answer request)

/-- To perform a dialogue that may end with an error is to run a computation. -/
def Performs (dialogue : ExceptT ε Dialogue α) (computation : ExceptT ε m α) : Prop :=
  perform dialogue.run = computation.run

omit [LawfulMonad m] in
theorem performs_mk_pure (result : Except ε α) :
    Performs (ExceptT.mk (pure result)) (ExceptT.mk (pure result) : ExceptT ε m α) := rfl

theorem performs_bind {dialogue : ExceptT ε Dialogue α} {computation : ExceptT ε m α}
    {after : α → ExceptT ε Dialogue β} {after' : α → ExceptT ε m β}
    (first : Performs dialogue computation)
    (rest : ∀ value, Performs (after value) (after' value)) :
    Performs (dialogue >>= after) (computation >>= after') := by
  unfold Performs at first rest ⊢
  rw [ExceptT.run_bind, ExceptT.run_bind, perform_bind, first]
  refine bind_congr fun result => ?_
  cases result with
  | ok value => exact rest value
  | error error => rfl

theorem performs_tryCatch {dialogue : ExceptT ε Dialogue α} {computation : ExceptT ε m α}
    {handler : ε → ExceptT ε Dialogue α} {handler' : ε → ExceptT ε m α}
    (first : Performs dialogue computation)
    (rest : ∀ error, Performs (handler error) (handler' error)) :
    Performs (tryCatch dialogue handler) (tryCatch computation handler') := by
  unfold Performs at first rest ⊢
  simp only [tryCatch, tryCatchThe, MonadExceptOf.tryCatch, ExceptT.tryCatch, ExceptT.run_mk]
  rw [perform_bind]
  refine (congrArg (· >>= _) first).trans (bind_congr fun result => ?_)
  cases result with
  | ok value => rfl
  | error error => exact rest error

theorem performs_lift {dialogue : Dialogue α} {computation : m α}
    (same : perform dialogue = computation) :
    Performs (ExceptT.lift dialogue) (ExceptT.lift computation : ExceptT ε m α) := by
  unfold Performs
  rw [ExceptT.run_lift, ExceptT.run_lift, ← same]
  exact perform_map Except.ok dialogue

theorem performs_attemptFile {wrap : FileError → Error} {dialogue : Dialogue (Except FileError α)}
    {computation : m (Except FileError α)} (same : perform dialogue = computation) :
    Performs (attemptFile wrap dialogue) (attemptFile wrap computation) := by
  unfold Performs attemptFile
  rw [ExceptT.run_mk, ExceptT.run_mk, ← same]
  exact perform_map (Except.mapError wrap) dialogue

end Performing

end Dialogue

/-! ### Compiling a source in steps -/

section Sources

open Dialogue

variable {m : Type → Type} [Monad m] [LawfulMonad m] [Host m]

theorem performs_readSource (path : Path) :
    Performs (readSource path) (readSource path : ExceptT Error m Text) :=
  performs_bind (performs_attemptFile (perform_answer (.readFile path))) fun _ => rfl

theorem performs_compileFile (names : RuntimeNames) (path : Path) :
    Performs (compileFile names path) (compileFile names path : ExceptT Error m Text) :=
  performs_bind (performs_readSource path) fun _ => performs_mk_pure _

theorem performs_replaceFile (path : Path) (contents : Bytes) :
    Performs (replaceFile path contents)
      (replaceFile path contents : ExceptT FileError m Unit) := by
  refine performs_bind (performs_lift (perform_answer .processId)) fun processId => ?_
  refine performs_bind (perform_answer (.createFile _ contents)) fun _ => ?_
  refine performs_tryCatch (perform_answer (.renameFile _ path)) fun error => ?_
  exact performs_bind (performs_lift (perform_answer (.removeFile _))) fun _ => rfl

theorem performs_writeOutput (path : Path) (code : Text) :
    Performs (writeOutput path code) (writeOutput path code : ExceptT Error m Unit) := by
  have replaced : Performs
      (attemptFile (.write path) (replaceFile path (Utf8.encode code)).run)
      (attemptFile (.write path) (replaceFile path (Utf8.encode code)).run :
        ExceptT Error m Unit) :=
    performs_attemptFile (performs_replaceFile path _)
  unfold writeOutput
  split
  next c cs _ =>
    exact performs_bind (performs_attemptFile (perform_answer (.makeFolders ⟨c :: cs⟩)))
      fun _ => replaced
  next => exact replaced

/-- **To perform the steps of a source is to compile it.** -/
theorem performs_compileOne (names : RuntimeNames) (root : Path) (outDir : Option Path)
    (input : Path) :
    Performs (compileOne names root outDir input)
      (compileOne names root outDir input : ExceptT Error m Compiled) := by
  refine performs_bind (performs_mk_pure _) fun output => ?_
  refine performs_bind (performs_compileFile names input) fun code => ?_
  exact performs_bind (performs_writeOutput output code) fun _ => rfl

/-- Workers that have one source each and take no turns. -/
theorem sideBySide_workers_nil (names : RuntimeNames) (root : Path) (outDir : Option Path)
    (inputs : List Path) :
    (sideBySide [] (workers names root outDir [] inputs) : m (List (List FileResult))) =
      (fun results => results.map ([·])) <$> compileEach names root outDir inputs := by
  have alone (input : Path) :
      (perform (compileShare names root outDir [input]) : m (List FileResult)) =
        (fun result => [⟨input, result⟩]) <$> (compileOne names root outDir input).run := by
    rw [compileShare, perform_bind, performs_compileOne, map_eq_pure_bind]
    refine bind_congr fun result => ?_
    dsimp only
    split <;> rfl
  have each : (performEach (inputs.map fun input => compileShare names root outDir [input]) :
      m (List (List FileResult))) =
        (fun results => results.map ([·])) <$> compileEach names root outDir inputs := by
    induction inputs with
    | nil => simp [performEach, compileEach]
    | cons input inputs ih => simp [performEach, compileEach, alone, ih]
  rw [sideBySide, takeTurns, pure_bind, workers, Schedule.deal, List.map_map]
  exact each

/-- What becomes of sources that are compiled side by side. -/
def compileTogether (names : RuntimeNames) (root : Path) (outDir : Option Path)
    (schedule : Schedule) (inputs : List Path) : m (List FileResult) :=
  List.flatten <$> sideBySide schedule.turns (workers names root outDir schedule.shares inputs)

/-- Without a schedule they are compiled one after the other. -/
theorem compileTogether_inOrder (names : RuntimeNames) (root : Path) (outDir : Option Path)
    (inputs : List Path) :
    (compileTogether names root outDir .inOrder inputs : m (List FileResult)) =
      compileEach names root outDir inputs := by
  have single (results : List FileResult) : (results.map ([·])).flatten = results := by
    rw [← List.flatMap_def, List.flatMap_singleton']
  simp only [compileTogether, Schedule.inOrder, sideBySide_workers_nil, ← comp_map,
    Function.comp_def, single, id_map']

end Sources

/-! ### What holds in the end -/

namespace Dialogue

/-- What is left of a dialogue after a request, and the machine then. -/
def next {α : Type} (dialogue : Dialogue α) (machine : Machine) : Dialogue α × Machine :=
  (dialogue.advance : StateM Machine (Dialogue α)) machine

variable {α : Type} {holds : Machine → List (Dialogue α) → Prop}
  (step : ∀ {machine front worker back}, holds machine (front ++ worker :: back) →
    holds (worker.next machine).2 (front ++ (worker.next machine).1 :: back))
include step

theorem holds_advanceAt (turn : Nat) {machine : Machine} {front workers : List (Dialogue α)}
    (start : holds machine (front ++ workers)) :
    let next := (advanceAt turn workers : StateM Machine (List (Dialogue α))) machine
    holds next.2 (front ++ next.1) := by
  induction workers generalizing turn front with
  | nil => cases turn <;> exact start
  | cons worker workers ih =>
    cases turn with
    | zero => exact step start
    | succ turn =>
      have rest := @ih turn (front ++ [worker]) (by simpa using start)
      dsimp only at rest
      rw [List.append_assoc] at rest
      exact rest

theorem holds_takeTurns (turns : List Nat) {machine : Machine} {workers : List (Dialogue α)}
    (start : holds machine workers) :
    let next := (takeTurns turns workers : StateM Machine (List (Dialogue α))) machine
    holds next.2 next.1 := by
  induction turns generalizing machine workers with
  | nil => exact start
  | cons turn turns ih => exact ih (@holds_advanceAt _ _ step turn _ [] _ start)

theorem holds_perform {machine : Machine} {front back : List (Dialogue α)} {worker : Dialogue α}
    (start : holds machine (front ++ worker :: back)) :
    let next := (worker.perform : StateM Machine α) machine
    holds next.2 (front ++ .done next.1 :: back) := by
  induction worker generalizing machine with
  | done value => exact start
  | ask request next ih => exact ih _ (step start)

theorem holds_performEach {machine : Machine} {front : List α} {workers : List (Dialogue α)}
    (start : holds machine (front.map .done ++ workers)) :
    let next := (performEach workers : StateM Machine (List α)) machine
    holds next.2 ((front ++ next.1).map .done) := by
  induction workers generalizing machine front with
  | nil =>
    have start : holds machine ((front ++ []).map .done) := by simpa using start
    exact start
  | cons worker workers ih =>
    have first := holds_perform step start
    have rest := @ih _ (front ++ [_]) (by simpa using first)
    dsimp only at rest
    rw [List.append_assoc] at rest
    exact rest

/-- **What every step keeps holds in the end**, when all workers are done. -/
theorem holds_sideBySide (turns : List Nat) {machine : Machine} {workers : List (Dialogue α)}
    (start : holds machine workers) :
    let run := (sideBySide turns workers : StateM Machine (List α)) machine
    holds run.2 (run.1.map .done) :=
  @holds_performEach _ _ step _ [] _ (holds_takeTurns step turns start)

end Dialogue

/-! ### A result for each source -/

/-- The elements before and after one of them in two lists that are related. -/
theorem exists_of_forall₂_append {ι α : Type} {related : ι → α → Prop} {indices : List ι}
    {front back : List α} {value : α}
    (all : List.Forall₂ related indices (front ++ value :: back)) :
    ∃ before index after, indices = before ++ index :: after ∧
      List.Forall₂ related before front ∧ related index value ∧
      List.Forall₂ related after back := by
  induction front generalizing indices with
  | nil =>
    cases all with
    | cons first rest => exact ⟨[], _, _, rfl, .nil, first, rest⟩
  | cons other front ih =>
    cases all with
    | cons first rest =>
      obtain ⟨before, index, after, rfl, ahead, here, behind⟩ := ih rest
      exact ⟨_ :: before, index, after, rfl, .cons first ahead, here, behind⟩

namespace Dialogue

variable {α β ι : Type} {good : α → Prop}

/-- Whatever the replies are, a dialogue comes to something good. -/
def Ensures (good : α → Prop) : Dialogue α → Prop
  | .done value => good value
  | .ask _ next => ∀ reply, (next reply).Ensures good

theorem ensures_true (dialogue : Dialogue α) : dialogue.Ensures fun _ => True := by
  induction dialogue with
  | done value => trivial
  | ask request next ih => exact ih

theorem Ensures.bind {dialogue : Dialogue α} {after : α → Dialogue β} {good' : β → Prop}
    (first : dialogue.Ensures good) (rest : ∀ value, good value → (after value).Ensures good') :
    (dialogue >>= after).Ensures good' := by
  induction dialogue with
  | done value => exact rest value first
  | ask request next ih => exact fun reply => ih reply (first reply)

theorem Ensures.next {dialogue : Dialogue α} (ensures : dialogue.Ensures good)
    (machine : Machine) : (dialogue.next machine).1.Ensures good := by
  cases dialogue with
  | done value => exact ensures
  | ask request next => exact ensures _

/-- Workers side by side come to what each of them ensures. -/
theorem forall₂_sideBySide {related : ι → α → Prop} {indices : List ι}
    {workers : List (Dialogue α)}
    (ensured : List.Forall₂ (fun index worker => worker.Ensures (related index)) indices workers)
    (turns : List Nat) (machine : Machine) :
    List.Forall₂ related indices
      ((sideBySide turns workers : StateM Machine (List α)) machine).1 := by
  have final := @holds_sideBySide α (fun _ workers =>
    List.Forall₂ (fun index worker => worker.Ensures (related index)) indices workers) (by
      intro machine front worker back all
      obtain ⟨before, index, after, rfl, ahead, here, behind⟩ := exists_of_forall₂_append all
      exact List.rel_append ahead (.cons (here.next machine) behind)) turns machine _ ensured
  dsimp only at final
  rwa [List.forall₂_map_right_iff] at final

end Dialogue

section Shares

variable (names : RuntimeNames) (root : Path) (outDir : Option Path)

/-- Unless there is a fatal error, a worker has a result for each of its sources. -/
theorem ensures_compileShare (share : List Path) :
    (compileShare names root outDir share : Dialogue (List FileResult)).Ensures fun results =>
      results.findSome? FileResult.fatal? = none → results.map (·.input) = share := by
  induction share with
  | nil => exact fun _ => rfl
  | cons input share ih =>
    refine (Dialogue.ensures_true _).bind fun result _ => ?_
    dsimp only
    split
    next fatal =>
      intro calm
      rw [List.findSome?_eq_none_iff] at calm
      simp [calm _ List.mem_cons_self] at fatal
    next =>
      refine ih.bind fun results accounts calm => ?_
      rw [List.findSome?_eq_none_iff] at calm accounts
      exact congrArg (input :: ·)
        (accounts fun file member => calm file (List.mem_cons_of_mem _ member))

theorem flatten_deal {α : Type} (shares : List Nat) (items : List α) :
    (Schedule.deal shares items).flatten = items := by
  induction shares generalizing items with
  | nil => rw [Schedule.deal, ← List.flatMap_def, List.flatMap_singleton']
  | cons share shares ih => rw [Schedule.deal, List.flatten_cons, ih, List.take_append_drop]

/-- **Every source has a result**, whatever the schedule, unless there is a fatal error. -/
theorem inputs_compileTogether {schedule : Schedule} {inputs : List Path} {machine : Machine}
    {results : List FileResult}
    (isResults : ((compileTogether names root outDir schedule inputs :
      StateM Machine (List FileResult)) machine).1 = results)
    (calm : results.findSome? FileResult.fatal? = none) : results.map (·.input) = inputs := by
  have ensured : List.Forall₂ (fun share worker => worker.Ensures fun results =>
      results.findSome? FileResult.fatal? = none → results.map (·.input) = share)
      (Schedule.deal schedule.shares inputs)
      (workers names root outDir schedule.shares inputs) := by
    rw [workers, List.forall₂_map_right_iff, List.forall₂_same]
    exact fun share _ => ensures_compileShare names root outDir share
  have each := Dialogue.forall₂_sideBySide ensured schedule.turns machine
  have all := flatten_deal schedule.shares inputs
  have isFlat : results = ((Dialogue.sideBySide schedule.turns
      (workers names root outDir schedule.shares inputs) :
        StateM Machine (List (List FileResult))) machine).1.flatten := isResults.symm
  clear ensured isResults
  generalize Schedule.deal schedule.shares inputs = shares at each all
  generalize ((Dialogue.sideBySide schedule.turns
    (workers names root outDir schedule.shares inputs) :
      StateM Machine (List (List FileResult))) machine).1 = parts at each isFlat
  subst inputs results
  induction each with
  | nil => rfl
  | cons first _ ih =>
    rw [List.flatten_cons, List.findSome?_append, Option.or_eq_none_iff] at calm
    rw [List.flatten_cons, List.flatten_cons, List.map_append, first calm.1, ih calm.2]

/-- The results are those of the workers, unless there is a fatal error. -/
theorem run_compileFiles (schedule : Schedule) (inputs : List Path) (machine : Machine) :
    (compileFiles names root outDir inputs schedule :
        ExceptT Error (StateM Machine) (List FileResult)).run machine =
      let run := (compileTogether names root outDir schedule inputs :
        StateM Machine (List FileResult)) machine
      (match run.1.findSome? FileResult.fatal? with
        | some error => .error error
        | none => .ok run.1, run.2) := by
  have together : (compileTogether names root outDir schedule inputs :
      StateM Machine (List FileResult)) machine =
      let run := (Dialogue.sideBySide schedule.turns
        (workers names root outDir schedule.shares inputs) :
          StateM Machine (List (List FileResult))) machine
      (run.1.flatten, run.2) := rfl
  have lifted : (liftM (Dialogue.sideBySide schedule.turns
      (workers names root outDir schedule.shares inputs) :
        StateM Machine (List (List FileResult))) :
          ExceptT Error (StateM Machine) (List (List FileResult))).run machine =
      let run := (Dialogue.sideBySide schedule.turns
        (workers names root outDir schedule.shares inputs) :
          StateM Machine (List (List FileResult))) machine
      (.ok run.1, run.2) := rfl
  rw [compileFiles, run_bind, lifted, together]
  generalize (Dialogue.sideBySide schedule.turns
    (workers names root outDir schedule.shares inputs) :
      StateM Machine (List (List FileResult))) machine = run
  dsimp only
  cases run.1.flatten.findSome? FileResult.fatal? <;> rfl

end Shares

end ViewScript
