/-
  ViewScript/Proofs/Command/Endings.lean
  ======================================
  **Two ways to tell the same.**

  A command has two loops over its files.  One keeps rows for a document, the other prints
  lines and keeps errors.  They do the same work, and what the second has printed and kept can
  be read off the rows of the first.

  It also has two ways to end.  With a document the program exits by itself; with lines it
  draws notices and hands back an error.  What rows come to is said here for both, so that all
  that is left to a command is to tell its rows.
-/
import ViewScript.Command.Run
import ViewScript.Proofs.Project.Workers

namespace ViewScript

/-! ### Notices -/

/-- Notices are drawn up to the first that cannot be drawn. -/
def drawnOf (draws : Notice → Bool) : List Notice → List Notice
  | [] => []
  | notice :: notices => if draws notice then notice :: drawnOf draws notices else [notice]

/-- All notices of a run can be drawn. -/
def Outcome.IsDrawn (outcome : Outcome) (draws : Notice → Bool) : Prop :=
  ∀ notice ∈ outcome.notices, draws notice = true

/-- What a run that ends with notices shows. -/
def Outcome.ofNotices (draws : Notice → Bool) (stdout : Text) (notices : List Notice) : Outcome :=
  ⟨if notices.isEmpty then 0 else if notices.all draws then 1 else 101, stdout,
    drawnOf draws notices⟩

section Notices

variable {draws : Notice → Bool} {notices : List Notice}

theorem all_drawnOf_iff :
    (∀ notice ∈ drawnOf draws notices, draws notice = true) ↔ notices.all draws = true := by
  induction notices with
  | nil => simp [drawnOf]
  | cons notice notices ih =>
    cases drawn : draws notice with
    | true => simpa [drawnOf, drawn] using ih
    | false => simp [drawnOf, drawn]

/-- A last notice is drawn if all before it could be drawn. -/
theorem drawnOf_concat (last : Notice) :
    drawnOf draws (notices ++ [last]) =
      drawnOf draws notices ++ if notices.all draws then [last] else [] := by
  induction notices with
  | nil => simp [drawnOf]
  | cons notice notices ih =>
    cases drawn : draws notice with
    | true => simp [drawnOf, drawn, ih]
    | false => simp [drawnOf, drawn]

theorem isDrawn_ofNotices_iff {stdout : Text} :
    (Outcome.ofNotices draws stdout notices).IsDrawn draws ↔ notices.all draws = true :=
  all_drawnOf_iff

end Notices

/-! ### Leaving the program -/

/-- One computation on a machine and then another. -/
theorem run_andThen {α β : Type} (action : StateM Machine α) (next : α → StateM Machine β)
    (machine : Machine) :
    (action >>= next) machine = next (action machine).1 (action machine).2 := rfl

section Leaving

variable (machine : Machine)

theorem run_pure_eq {α : Type} (value : α) :
    (pure value : StateM Machine α) machine = (value, machine) := rfl

theorem run_draw (notice : Notice) :
    (Host.draw notice : StateM Machine Bool) machine = (machine.draws notice, machine) := rfl

theorem run_drawReports (errors : List Error) :
    (drawReports errors : StateM Machine (List Notice × Bool)) machine =
      ((drawnOf machine.draws (errors.map .report), (errors.map .report).all machine.draws),
        machine) := by
  induction errors with
  | nil => rfl
  | cons error errors ih =>
    rw [drawReports, run_andThen, run_draw]
    dsimp only
    cases drawn : machine.draws (.report error) with
    | true =>
      rw [if_pos rfl, run_andThen, ih]
      simp [drawnOf, drawn, run_pure_eq]
    | false => simp [drawnOf, drawn, run_pure_eq]

/-- An error before there is anything to show. -/
theorem run_leave_ofError (error : Error) :
    ((Shown.ofError error).leave : StateM Machine Outcome) machine =
      (if error.isFatal then ⟨101, [], []⟩ else .ofNotices machine.draws [] [.report error],
        machine) := by
  cases fatal : error.isFatal with
  | true =>
    simp only [Shown.ofError, fatal, if_true]
    rfl
  | false =>
    simp only [Shown.ofError, fatal, Shown.leave, Bool.false_eq_true, if_false, run_andThen,
      run_draw]
    by_cases draws : machine.draws (.report error) <;>
      simp [Outcome.ofNotices, drawnOf, draws, run_pure_eq]

/-- The notices of what was printed. -/
def Printed.notices (printed : Printed) (command : Text) (total : Nat) : List Notice :=
  if printed.errors.isEmpty then []
  else printed.errors.map .report ++ [.summary command printed.errors.length total]

/-- Errors that were kept are drawn in the end, and then a summary. -/
theorem run_report_leave (printed : Printed) (command : Text) (total : Nat) :
    (printed.report command total >>= Shown.leave : StateM Machine Outcome) machine =
      (.ofNotices machine.draws printed.stdout (printed.notices command total), machine) := by
  unfold Printed.report Printed.notices
  cases none : printed.errors.isEmpty with
  | true =>
    rw [if_pos rfl, if_pos rfl]
    rfl
  | false =>
    simp only [Bool.false_eq_true, if_false]
    rw [run_andThen, run_andThen, run_drawReports]
    rw [Outcome.ofNotices, drawnOf_concat, List.all_append]
    cases all : (printed.errors.map Notice.report).all machine.draws with
    | false => simp [Shown.leave, run_pure_eq]
    | true =>
      simp only [Shown.leave, if_true, run_andThen, run_draw, run_pure_eq]
      by_cases draws : machine.draws (.summary command printed.errors.length total) <;>
        simp [draws]

end Leaving

/-! ### Rows -/

namespace Row

theorem isOk_eq_isNone (row : Row) : row.isOk = row.error?.isNone := by
  obtain ⟨input, result⟩ := row
  cases result <;> rfl

end Row

/-- What is printed of rows, up to one that is fatal. -/
def printed : List Row → Printed
  | [] => {}
  | row :: rows => if row.isFatal then {} else (printed rows).add row.input row.result

/-- The exit code that rows lead to. -/
def exitCodeOf (rows : List Row) : Nat :=
  if rows.any Row.isFatal then 101 else if rows.all Row.isOk then 0 else 1

section Rows

variable {rows : List Row}

theorem not_all_isOk_of_any_isFatal (fatal : rows.any Row.isFatal = true) :
    ¬ rows.all Row.isOk = true := by
  intro all
  obtain ⟨row, member, isFatal⟩ := List.any_eq_true.mp fatal
  have isOk := List.all_eq_true.mp all row member
  rw [Row.isOk_eq_isNone, Option.isNone_iff_eq_none] at isOk
  simp [Row.isFatal, isOk] at isFatal

theorem exitCodeOf_eq_zero_iff : exitCodeOf rows = 0 ↔ rows.all Row.isOk = true := by
  unfold exitCodeOf
  cases fatal : rows.any Row.isFatal with
  | true => simp [not_all_isOk_of_any_isFatal fatal]
  | false => cases rows.all Row.isOk <;> simp

theorem exitCodeOf_eq_abort_iff : exitCodeOf rows = 101 ↔ rows.any Row.isFatal = true := by
  unfold exitCodeOf
  cases rows.any Row.isFatal <;> cases rows.all Row.isOk <;> simp

/-- No error is kept exactly if all went well. -/
theorem isEmpty_errors_printed (calm : rows.any Row.isFatal = false) :
    (printed rows).errors.isEmpty = rows.all Row.isOk := by
  induction rows with
  | nil => rfl
  | cons row rows ih =>
    rw [List.any_cons, Bool.or_eq_false_iff] at calm
    rw [printed, calm.1, List.all_cons, ← ih calm.2]
    obtain ⟨input, result⟩ := row
    cases result <;> rfl

end Rows

/-! ### Two loops -/

section Loops

variable (work : Path → ExceptT Error (StateM Machine) Yield) (inputs : List Path)
  (machine : Machine)

theorem run_rowsOf_cons (input : Path) :
    (rowsOf work (input :: inputs) : StateM Machine (List Row)) machine =
      let row : Row := ⟨input, ((work input).run machine).1⟩
      if row.isFatal then ([row], ((work input).run machine).2)
      else
        let rest := (rowsOf work inputs : StateM Machine (List Row)) ((work input).run machine).2
        (row :: rest.1, rest.2) := by
  simp only [rowsOf, bind, StateT.bind]
  rcases (work input).run machine with ⟨result, after⟩
  dsimp only
  split <;> rfl

theorem run_printEach_cons (input : Path) :
    (printEach work (input :: inputs) : StateM Machine (Printed × Bool)) machine =
      let row : Row := ⟨input, ((work input).run machine).1⟩
      if row.isFatal then (({}, false), ((work input).run machine).2)
      else
        let rest := (printEach work inputs : StateM Machine (Printed × Bool))
          ((work input).run machine).2
        ((rest.1.1.add input row.result, rest.1.2), rest.2) := by
  rw [printEach, run_andThen]
  rcases (work input).run machine with ⟨result, after⟩
  cases result with
  | ok yield => rfl
  | error error =>
    have same : (⟨input, .error error⟩ : Row).isFatal = error.isFatal := rfl
    dsimp only
    rw [same]
    split <;> rfl

/-- **The loops do the same work**, and what one has printed is told by the rows of the other. -/
theorem run_printEach :
    (printEach work inputs : StateM Machine (Printed × Bool)) machine =
      let rows := (rowsOf work inputs : StateM Machine (List Row)) machine
      ((printed rows.1, !rows.1.any Row.isFatal), rows.2) := by
  induction inputs generalizing machine with
  | nil => rfl
  | cons input inputs ih =>
    rw [run_printEach_cons, run_rowsOf_cons]
    dsimp only
    split
    next fatal => simp [printed, fatal]
    next calm =>
      rw [ih]
      simp [printed, calm]

/-- A loop that is not ended before has a row for every input. -/
theorem input_rowsOf
    (calm : ((rowsOf work inputs : StateM Machine (List Row)) machine).1.any Row.isFatal = false) :
    ((rowsOf work inputs : StateM Machine (List Row)) machine).1.map Row.input = inputs := by
  induction inputs generalizing machine with
  | nil => rfl
  | cons input inputs ih =>
    rw [run_rowsOf_cons] at calm ⊢
    dsimp only at calm ⊢
    split at calm
    next fatal => simp [fatal] at calm
    next goesOn =>
      rw [List.any_cons, Bool.or_eq_false_iff] at calm
      rw [if_neg goesOn, List.map_cons, ih _ calm.2]

end Loops

/-! ### Two endings -/

namespace Outcome

/-- What rows come to with a document. -/
def documented (command : Text) (rows : List Row) : Outcome :=
  ⟨exitCodeOf rows, if rows.any Row.isFatal then [] else (document command rows).write ++ "\n", []⟩

/-- What rows come to with lines. -/
def listed (draws : Notice → Bool) (command closing : Text) (rows : List Row) : Outcome :=
  if rows.any Row.isFatal then ⟨101, (printed rows).stdout, []⟩
  else .ofNotices draws ((printed rows).stdout ++ closing)
    ((printed rows).notices command rows.length)

section Listed

variable {draws : Notice → Bool} {command closing : Text} {rows : List Row}

theorem isEmpty_notices (calm : rows.any Row.isFatal = false) (total : Nat) :
    ((printed rows).notices command total).isEmpty = rows.all Row.isOk := by
  rw [← isEmpty_errors_printed calm, Printed.notices]
  cases (printed rows).errors.isEmpty <;> simp

/-- If all notices can be drawn, the exit code is that of the rows. -/
theorem exitCode_listed (drawn : (listed draws command closing rows).IsDrawn draws) :
    (listed draws command closing rows).exitCode = exitCodeOf rows := by
  unfold listed exitCodeOf at *
  cases fatal : rows.any Row.isFatal with
  | true => simp
  | false =>
    simp only [fatal, Bool.false_eq_true, if_false, isDrawn_ofNotices_iff] at drawn ⊢
    simp only [ofNotices, isEmpty_notices fatal, drawn, if_true]

/-- If not, the program breaks off. -/
theorem exitCode_listed_of_not_isDrawn
    (undrawn : ¬ (listed draws command closing rows).IsDrawn draws) :
    (listed draws command closing rows).exitCode = 101 ∧ exitCodeOf rows = 1 := by
  unfold listed exitCodeOf at *
  cases fatal : rows.any Row.isFatal with
  | true => simp [fatal, IsDrawn] at undrawn
  | false =>
    simp only [fatal, Bool.false_eq_true, if_false, isDrawn_ofNotices_iff] at undrawn ⊢
    have some : rows.all Row.isOk = false := by
      rw [← @isEmpty_notices command rows fatal rows.length]
      cases noticed : (printed rows).notices command rows.length with
      | nil => simp [noticed] at undrawn
      | cons => rfl
    simp [ofNotices, isEmpty_notices fatal, some, undrawn]

/-- Whatever can be drawn, the exit code is zero exactly if all went well. -/
theorem exitCode_listed_eq_zero_iff :
    (listed draws command closing rows).exitCode = 0 ↔ rows.all Row.isOk = true := by
  by_cases drawn : (listed draws command closing rows).IsDrawn draws
  · rw [exitCode_listed drawn, exitCodeOf_eq_zero_iff]
  · obtain ⟨broken, failed⟩ := exitCode_listed_of_not_isDrawn drawn
    rw [broken, ← exitCodeOf_eq_zero_iff, failed]
    decide

end Listed

end Outcome

/-- What rows come to. -/
def Outcome.inMode (json : Bool) (draws : Notice → Bool) (command closing : Text)
    (rows : List Row) : Outcome :=
  if json then .documented command rows else .listed draws command closing rows

theorem emit_leave {rows : List Row} (calm : rows.any Row.isFatal = false) (command : Text)
    (machine : Machine) :
    ((emit command rows).leave : StateM Machine Outcome) machine =
      (.documented command rows, machine) := by
  have all : (rows.length - rows.countP Row.isOk == 0) = rows.all Row.isOk := by
    rw [Bool.eq_iff_iff, beq_iff_eq, List.all_eq_true, ← List.countP_eq_length]
    have := List.countP_le_length (p := Row.isOk) (l := rows)
    omega
  rw [emit, Outcome.documented, exitCodeOf, calm, all]
  cases rows.all Row.isOk <;> rfl

/-- Work on files and leave the program. -/
theorem run_showEach_leave (json : Bool) (command : Text)
    (work : Path → ExceptT Error (StateM Machine) Yield) (inputs : List Path) (machine : Machine) :
    (showEach json command work inputs >>= Shown.leave : StateM Machine Outcome) machine =
      let rows := (rowsOf work inputs : StateM Machine (List Row)) machine
      (.inMode json rows.2.draws command [] rows.1, rows.2) := by
  have length := fun calm => congrArg List.length (input_rowsOf work inputs machine calm)
  have each := run_printEach work inputs machine
  dsimp only at each ⊢
  generalize ran : (rowsOf work inputs : StateM Machine (List Row)) machine = run at each length ⊢
  obtain ⟨rows, after⟩ := run
  cases json with
  | true =>
    rw [Outcome.inMode, if_pos rfl, showEach, if_pos rfl, run_andThen, run_andThen, ran]
    dsimp only
    cases fatal : rows.any Row.isFatal with
    | true =>
      rw [if_pos rfl, Outcome.documented, exitCodeOf, fatal]
      rfl
    | false =>
      simp only [Bool.false_eq_true, if_false]
      exact emit_leave fatal command after
  | false =>
    rw [Outcome.inMode, if_neg (by simp), showEach, if_neg (by simp), run_andThen, run_andThen,
      each]
    dsimp only
    cases fatal : rows.any Row.isFatal with
    | true =>
      rw [Outcome.listed, fatal]
      rfl
    | false =>
      rw [Outcome.listed, fatal]
      simp only [Bool.not_false, if_true, Bool.false_eq_true, if_false, List.append_nil]
      have total := length fatal
      rw [List.length_map] at total
      rw [total]
      exact run_report_leave after (printed rows) command inputs.length

/-! ### Results of a build -/

theorem isFatal_row (file : FileResult) : file.row.isFatal = file.fatal?.isSome := by
  obtain ⟨input, result⟩ := file
  cases result with
  | ok compiled => rfl
  | error error =>
    cases fatal : error.isFatal <;>
      simp [FileResult.row, FileResult.yield, FileResult.fatal?, Row.isFatal, Row.error?,
        Except.map, fatal]

theorem any_isFatal_row (results : List FileResult) :
    (results.map FileResult.row).any Row.isFatal =
      (results.findSome? FileResult.fatal?).isSome := by
  rw [List.any_map, List.isSome_findSome?]
  exact congrArg results.any (funext isFatal_row)

theorem isFatal_of_findSome? {results : List FileResult} {error : Error}
    (found : results.findSome? FileResult.fatal? = some error) : error.isFatal = true := by
  obtain ⟨file, -, isError⟩ := List.exists_of_findSome?_eq_some found
  unfold FileResult.fatal? at isError
  split at isError
  next => cases isError
  next =>
    split at isError
    next isFatal => exact Option.some.inj isError ▸ isFatal
    next => cases isError

theorem printResults_eq {results : List FileResult}
    (calm : (results.map FileResult.row).any Row.isFatal = false) :
    printResults results = printed (results.map FileResult.row) := by
  induction results with
  | nil => rfl
  | cons file results ih =>
    rw [List.map_cons, List.any_cons, Bool.or_eq_false_iff] at calm
    rw [printResults, List.map_cons, printed, calm.1, ih calm.2]
    rfl

/-- The last line of a build that went well. -/
def BuildReport.closing (report : BuildReport) : Text :=
  if (printResults report.results).errors.isEmpty then
    "Compiled " ++ Text.ofNat report.results.length ++ " file(s) under " ++ report.root.text ++ "\n"
  else []

/-- Show a report without fatal errors and leave the program. -/
theorem run_present_leave {report : BuildReport}
    (calm : (report.results.map FileResult.row).any Row.isFatal = false) (json : Bool)
    (machine : Machine) :
    (report.present json >>= Shown.leave : StateM Machine Outcome) machine =
      (.inMode json machine.draws "build" report.closing (report.results.map FileResult.row),
        machine) := by
  cases json with
  | true => exact emit_leave calm "build" machine
  | false =>
    rw [Outcome.inMode, if_neg (by simp), Outcome.listed, calm, ← printResults_eq calm,
      List.length_map]
    exact run_report_leave machine
      { printResults report.results with
        stdout := (printResults report.results).stdout ++ report.closing } "build" _

/-! ### What can be drawn -/

/-- No request changes what can be drawn. -/
theorem draws_answer (request : Request) (machine : Machine) :
    ((Host.answer request : StateM Machine request.Reply) machine).2.draws = machine.draws := by
  have act (action : Disk → Except FileError Disk) :
      (Machine.act action machine).2.draws = machine.draws := by
    unfold Machine.act
    split <;> rfl
  cases request with
  | createFile | renameFile | removeFile => exact act _
  | _ => rfl

namespace Dialogue

variable {α : Type}

theorem draws_perform (dialogue : Dialogue α) (machine : Machine) :
    ((dialogue.perform : StateM Machine α) machine).2.draws = machine.draws := by
  induction dialogue generalizing machine with
  | done value => rfl
  | ask request next ih => exact (ih _ _).trans (draws_answer request machine)

theorem draws_sideBySide (turns : List Nat) (workers : List (Dialogue α)) (machine : Machine) :
    ((sideBySide turns workers : StateM Machine (List α)) machine).2.draws = machine.draws :=
  @holds_sideBySide α (fun later _ => later.draws = machine.draws) (by
    intro later front worker back same
    cases worker with
    | done value => exact same
    | ask request next => exact (draws_answer request later).trans same) turns machine workers rfl

theorem Performs.draws {dialogue : ExceptT Error Dialogue α}
    {computation : ExceptT Error (StateM Machine) α} (performs : Performs dialogue computation)
    (machine : Machine) : (computation.run machine).2.draws = machine.draws := by
  rw [← performs]
  exact draws_perform dialogue.run machine

end Dialogue

section Inputs

open Dialogue

variable {settings : Settings} {input : Path} {m : Type → Type} [Monad m] [LawfulMonad m] [Host m]

theorem performs_readStandardInput :
    Performs readStandardInput (readStandardInput : ExceptT Error m Text) := by
  refine performs_bind (performs_lift (perform_answer .readInput)) fun bytes => ?_
  cases Utf8.decode? bytes <;> rfl

theorem performs_checkInput :
    Performs (checkInput settings input) (checkInput settings input : ExceptT Error m Yield) := by
  unfold checkInput
  split
  · refine performs_bind performs_readStandardInput fun _ => ?_
    exact performs_bind (performs_mk_pure _) fun _ => rfl
  · refine performs_bind (performs_readSource _) fun _ => ?_
    exact performs_bind (performs_mk_pure _) fun _ => rfl

theorem performs_compileInput (names : RuntimeNames) (outDir : Option Path) (toStdout : Bool) :
    Performs (compileInput settings names outDir toStdout input)
      (compileInput settings names outDir toStdout input : ExceptT Error m Yield) := by
  unfold compileInput
  split
  · refine performs_bind performs_readStandardInput fun _ => ?_
    exact performs_bind (performs_mk_pure _) fun _ => rfl
  · dsimp only
    split
    · exact performs_bind (performs_compileFile names _) fun _ => rfl
    · exact performs_bind (performs_compileOne names _ _ _) fun _ => rfl

end Inputs

theorem draws_rowsOf {work : Path → ExceptT Error (StateM Machine) Yield}
    (steady : ∀ input machine, ((work input).run machine).2.draws = machine.draws)
    (inputs : List Path) (machine : Machine) :
    ((rowsOf work inputs : StateM Machine (List Row)) machine).2.draws = machine.draws := by
  induction inputs generalizing machine with
  | nil => rfl
  | cons input inputs ih =>
    rw [run_rowsOf_cons]
    dsimp only
    split
    · exact steady input machine
    · exact (ih _).trans (steady input machine)

end ViewScript
