/-
  ViewScript/Proofs/Project/Schedules.lean
  ========================================
  **Sources side by side.**

  Workers compile sources whose code is kept apart, and take turns in any way.  Then the
  schedule does not matter: unless a source has a fatal error, every source ends as it would
  have ended alone, and the tree is the one that all their writes leave together.

  A worker stops at the first source of its share with a fatal error.  So a fatal error loses the
  sources behind it in its share, and none of another share: the tree is the one that the
  remaining sources leave one after the other (`Task.sameTree_compileTogether`).
-/
import Mathlib.Data.List.Flatten
import Mathlib.Data.List.Lattice
import Mathlib.Data.List.TakeWhile
import ViewScript.Proofs.Project.Stages

namespace ViewScript

namespace Task

variable {task : Task} {base : List Text} {input : Path} {code : Text} {phase : Write → Phase}
  {machine : Machine}

/-! ### One source after the other -/

/-- The phases when some sources are compiled and no other is begun. -/
def doneBy (task : Task) (done : List Path) (write : Write) : Phase :=
  if write ∈ done.filterMap task.write? then .done else .waiting

/-- Some sources are compiled. -/
def Underway (task : Task) (done : List Path) (machine : Machine) : Prop :=
  task.Progress (task.doneBy done) machine

theorem underway_nil (task : Task) : task.Underway [] task.before :=
  ⟨rfl, rfl, .nothing _ _⟩

/-- The sources after one that is compiled now are still to be compiled. -/
theorem todo_of_cons {order done : List Path} (distinct : (input :: order).Nodup)
    (todo : ∀ other ∈ input :: order, other ∉ done) : ∀ other ∈ order, other ∉ input :: done := by
  intro other member
  rw [List.mem_cons, not_or]
  refine ⟨?_, todo other (List.mem_cons_of_mem _ member)⟩
  rintro rfl
  exact (List.nodup_cons.mp distinct).1 member

namespace Underway

variable {done : List Path} (underway : task.Underway done machine)
  (spread : Spread task.before.disk task.before.processId task.root task.outDir task.files base)
  (inside : done ⊆ task.files)
include underway spread inside

/-- **One more source.**  What is left of it, and whether its code is written, was settled
    before. -/
theorem compileOne (member : input ∈ task.files) (todo : input ∉ done) :
    ∃ result after,
      (compileOne task.names task.root task.outDir input :
        ExceptT Error (StateM Machine) Compiled).run machine = (result, after) ∧
      task.Underway (input :: done) after ∧ task.Settles input result := by
  have notDone : ∀ write ∈ task.write? input, write ∉ done.filterMap task.write? := by
    intro write ofInput isDone
    obtain ⟨other, isDone, ofOther⟩ := List.mem_filterMap.mp isDone
    refine write?_ne spread (inside isDone) member ?_ write ofInput ofOther
    rintro rfl
    exact todo isDone
  have isWaiting : ∀ write ∈ task.write? input, task.doneBy done write = .waiting :=
    fun write ofInput => if_neg (notDone write ofInput)
  have start := isAt_start spread member isWaiting
  obtain ⟨phase, isAt, progress, same⟩ := start.perform spread member underway
  obtain ⟨settles, isDone⟩ := isAt.of_done
  have isPhase : phase = task.doneBy (input :: done) := by
    funext write
    by_cases ofInput : task.write? input = some write
    · rw [isDone write ofInput, doneBy, if_pos]
      exact List.mem_filterMap.mpr ⟨input, List.mem_cons_self, ofInput⟩
    · rw [same write ofInput]
      simp [doneBy, List.mem_filterMap, ofInput]
  refine ⟨_, _, ?_, isPhase ▸ progress, settles⟩
  rw [← performs_compileOne]
  rfl

/-- **The sources one after the other**, in any order. -/
theorem compileEach {order : List Path} (distinct : order.Nodup) (isSource : order ⊆ task.files)
    (todo : ∀ input ∈ order, input ∉ done) {results : List FileResult} {after : Machine}
    (run : (compileEach task.names task.root task.outDir order :
      StateM Machine (List FileResult)) machine = (results, after)) :
    task.Underway (order.reverse ++ done) after ∧
      results.map (·.isOk) = order.map task.isWritten ∧
      results.map (·.fatal?.isSome) = order.map task.isFatal := by
  induction order generalizing done machine results with
  | nil =>
    cases run
    exact ⟨underway, rfl, rfl⟩
  | cons input order ih =>
    rw [List.cons_subset] at isSource
    obtain ⟨result, middle, first, next, settles⟩ :=
      underway.compileOne spread inside isSource.1 (todo input List.mem_cons_self)
    rw [run_compileEach_cons, first] at run
    dsimp only at run
    generalize rest : (ViewScript.compileEach task.names task.root task.outDir order :
      StateM Machine (List FileResult)) middle = tail at run
    obtain ⟨results', after'⟩ := tail
    cases run
    obtain ⟨final, areOk, areFatal⟩ := ih next (List.cons_subset.mpr ⟨isSource.1, inside⟩)
      (List.nodup_cons.mp distinct).2 isSource.2 (todo_of_cons distinct todo) rest
    refine ⟨by simpa using final, ?_, ?_⟩
    · rw [List.map_cons, List.map_cons, areOk, ← settles.isOk]
      rfl
    · rw [List.map_cons, List.map_cons, areFatal, ← settles.fatal]

end Underway

/-! ### Workers -/

/-- What a worker goes on with after a source. -/
def goOn (task : Task) (input : Path) (share : List Path) (result : Except Error Compiled) :
    Dialogue (List FileResult) :=
  let file : FileResult := ⟨input, result⟩
  if file.fatal?.isSome then .done [file]
  else
    compileShare task.names task.root task.outDir share >>= fun results =>
      .done (file :: results)

/-- How far a worker has come with its share.  The sources that it has not come to are
    waiting. -/
def Works (task : Task) (phase : Write → Phase) : List Path → Dialogue (List FileResult) → Prop
  | [], worker => worker = .done []
  | input :: share, worker =>
    (∃ dialogue, worker = (dialogue >>= task.goOn input share) ∧ task.IsAt phase input dialogue ∧
      ∀ other ∈ share, ∀ write ∈ task.write? other, phase write = .waiting) ∨
    ∃ result rest, worker = (rest >>= fun results => .done (⟨input, result⟩ :: results)) ∧
      task.IsAt phase input (.done result) ∧ task.isFatal input = false ∧
      task.Works phase share rest

/-- The sources of a share that are compiled: those before the first with a fatal error. -/
def upToFatal (task : Task) (share : List Path) : List Path :=
  share.takeWhile fun input => !task.isFatal input

/-- There is nothing left to do for a share of the sources, of which some were reached.  There is
    a fatal error in the results just if one of the sources has one.  If none has, all of them
    have ended as was settled before. -/
structure Ended (task : Task) (phase : Write → Phase) (share reached : List Path)
    (results : List FileResult) : Prop where
  calm : results.findSome? FileResult.fatal? = none ↔
    ∀ input ∈ share, task.isFatal input = false
  isOk : (∀ input ∈ share, task.isFatal input = false) →
    results.map (·.isOk) = share.map task.isWritten
  isDone : ∀ input ∈ reached, ∀ write ∈ task.write? input, phase write = .done
  waits : ∀ input ∈ share, input ∉ reached →
    ∀ write ∈ task.write? input, phase write = .waiting

namespace Works

variable {share : List Path} {worker : Dialogue (List FileResult)} {phase' : Write → Phase}

theorem congr (works : task.Works phase share worker)
    (same : ∀ input ∈ share, ∀ write ∈ task.write? input, phase' write = phase write) :
    task.Works phase' share worker := by
  induction share generalizing worker with
  | nil => exact works
  | cons input share ih =>
    rw [List.forall_mem_cons] at same
    rcases works with ⟨dialogue, isWorker, isAt, waiting⟩ |
        ⟨result, rest, isWorker, isAt, calm, works⟩
    · refine .inl ⟨dialogue, isWorker, isAt.congr same.1, fun other member write ofOther => ?_⟩
      rw [same.2 other member write ofOther, waiting other member write ofOther]
    · exact .inr ⟨result, rest, isWorker, isAt.congr same.1, calm, ih works same.2⟩

variable
  (spread : Spread task.before.disk task.before.processId task.root task.outDir task.files base)
include spread

/-- A worker at its beginning. -/
theorem start (isSource : share ⊆ task.files)
    (waiting : ∀ input ∈ share, ∀ write ∈ task.write? input, phase write = .waiting) :
    task.Works phase share (compileShare task.names task.root task.outDir share) := by
  cases share with
  | nil => rfl
  | cons input share =>
    rw [List.forall_mem_cons] at waiting
    rw [List.cons_subset] at isSource
    refine .inl ⟨_, ?_, isAt_start spread isSource.1 waiting.1, waiting.2⟩
    refine congrArg (Dialogue.andThen _) (funext fun result => ?_)
    unfold goOn
    dsimp only
    split <;> rfl

/-- A worker is busy with its first source, or that has ended with a fatal error, or the worker
    is past it. -/
theorem cases_cons (works : task.Works phase (input :: share) worker)
    (isSource : input :: share ⊆ task.files) :
    (∃ request rest, worker = (.ask request rest >>= task.goOn input share) ∧
      task.IsAt phase input (.ask request rest) ∧
      ∀ other ∈ share, ∀ write ∈ task.write? other, phase write = .waiting) ∨
    (∃ result, worker = .done [⟨input, result⟩] ∧ task.IsAt phase input (.done result) ∧
      task.isFatal input = true ∧
      ∀ other ∈ share, ∀ write ∈ task.write? other, phase write = .waiting) ∨
    ∃ result rest, worker = (rest >>= fun results => .done (⟨input, result⟩ :: results)) ∧
      task.IsAt phase input (.done result) ∧ task.isFatal input = false ∧
      task.Works phase share rest := by
  rcases works with ⟨dialogue, rfl, isAt, waiting⟩ | past
  · cases dialogue with
    | ask request rest => exact .inl ⟨request, rest, rfl, isAt, waiting⟩
    | done result =>
      have settles := isAt.of_done.1
      have onward : (Dialogue.done result >>= task.goOn input share) =
          task.goOn input share result := rfl
      rw [onward, goOn, settles.fatal]
      cases fatal : task.isFatal input with
      | true => exact .inr (.inl ⟨result, rfl, isAt, rfl, waiting⟩)
      | false =>
        exact .inr (.inr ⟨result, _, rfl, isAt, rfl,
          start spread (List.cons_subset.mp isSource).2 waiting⟩)
  · exact .inr (.inr past)

/-- **A request of a worker** moves one of its sources and leaves the writes of others alone. -/
theorem next (works : task.Works phase share worker) (progress : task.Progress phase machine)
    (isSource : share ⊆ task.files) (distinct : share.Nodup) :
    ∃ phase', task.Works phase' share (worker.next machine).1 ∧
      task.Progress phase' (worker.next machine).2 ∧
      ∀ write, (∀ input ∈ share, task.write? input ≠ some write) → phase' write = phase write := by
  induction share generalizing worker with
  | nil =>
    obtain rfl : worker = .done [] := works
    exact ⟨phase, rfl, progress, fun _ _ => rfl⟩
  | cons input share ih =>
    have apart : ∀ other ∈ share, ∀ write ∈ task.write? other, task.write? input ≠ some write := by
      intro other member
      refine write?_ne spread (isSource List.mem_cons_self)
        (isSource (List.mem_cons_of_mem _ member)) ?_
      rintro rfl
      exact (List.nodup_cons.mp distinct).1 member
    rcases works.cases_cons spread isSource with ⟨request, rest, rfl, isAt, waiting⟩ |
        ⟨result, rfl, -⟩ | ⟨result, rest, rfl, isAt, calm, works⟩
    · obtain ⟨phase', isAt, progress, same⟩ :=
        isAt.next spread (isSource List.mem_cons_self) progress
      refine ⟨phase', .inl ⟨_, rfl, isAt, fun other member write ofOther => ?_⟩, progress, ?_⟩
      · rw [same write (apart other member write ofOther), waiting other member write ofOther]
      · exact fun write others => same write (others input List.mem_cons_self)
    · exact ⟨phase, works, progress, fun _ _ => rfl⟩
    · cases rest with
      | done results =>
        exact ⟨phase, .inr ⟨result, .done results, rfl, isAt, calm, works⟩, progress,
          fun _ _ => rfl⟩
      | ask request rest =>
        obtain ⟨phase', works, progress, same⟩ :=
          ih works (List.cons_subset.mp isSource).2 (List.nodup_cons.mp distinct).2
        refine ⟨phase', .inr ⟨result, _, rfl, isAt.congr ?_, calm, works⟩, progress, ?_⟩
        · intro write ofInput
          refine same write fun other member ofOther => ?_
          exact apart other member write ofOther ofInput
        · exact fun write others => same write fun other member =>
            others other (List.mem_cons_of_mem _ member)

/-- What a worker has come to when it is done. -/
theorem ended {results : List FileResult} (works : task.Works phase share (.done results))
    (isSource : share ⊆ task.files) :
    task.Ended phase share (task.upToFatal share) results := by
  induction share generalizing results with
  | nil =>
    cases works
    exact ⟨by simp, fun _ => rfl, by simp [upToFatal], by simp⟩
  | cons input share ih =>
    rcases works.cases_cons spread isSource with ⟨request, rest, isDone, -⟩ |
        ⟨result, isDone, isAt, isFatal, waiting⟩ | ⟨result, rest, isDone, isAt, calm, restWorks⟩
    · cases isDone
    · cases isDone
      have notCalm : ¬ ∀ other ∈ input :: share, task.isFatal other = false :=
        fun calm => by simp [calm input List.mem_cons_self] at isFatal
      have found : [(⟨input, result⟩ : FileResult)].findSome? FileResult.fatal? ≠ none := by
        have hasFatal := isAt.of_done.1.fatal.trans isFatal
        intro none
        simp [List.findSome?_eq_none_iff.mp none _ List.mem_cons_self] at hasFatal
      have nothing : task.upToFatal (input :: share) = [] := by simp [upToFatal, isFatal]
      refine ⟨iff_of_false found notCalm, fun calm => (notCalm calm).elim, by simp [nothing], ?_⟩
      rw [List.forall_mem_cons]
      refine ⟨fun _ write ofInput => ?_, fun other member _ => waiting other member⟩
      have noWrite := write?_of_isFatal spread (isSource List.mem_cons_self) isFatal
      simp [noWrite] at ofInput
    · cases rest with
      | ask request rest => cases isDone
      | done results' =>
        cases isDone
        obtain ⟨settles, isDone⟩ := isAt.of_done
        obtain ⟨restCalm, restOk, restDone, restWaits⟩ :=
          ih restWorks (List.cons_subset.mp isSource).2
        have noFatal : (⟨input, result⟩ : FileResult).fatal? = none := by
          simpa [calm] using settles.fatal
        have onward : task.upToFatal (input :: share) = input :: task.upToFatal share := by
          simp [upToFatal, calm]
        constructor
        case calm =>
          rw [List.findSome?_cons, noFatal, List.forall_mem_cons, and_iff_right calm]
          exact restCalm
        case isOk =>
          intro allCalm
          rw [List.map_cons, List.map_cons, restOk (List.forall_mem_cons.mp allCalm).2,
            ← settles.isOk]
          rfl
        case isDone =>
          rw [onward, List.forall_mem_cons]
          exact ⟨isDone, restDone⟩
        case waits =>
          rw [onward, List.forall_mem_cons]
          refine ⟨fun notFirst => (notFirst List.mem_cons_self).elim, fun other member later => ?_⟩
          exact restWaits other member fun inside => later (List.mem_cons_of_mem _ inside)

end Works

/-! ### Any schedule -/

theorem Ended.append {share share' reached reached' : List Path}
    {results results' : List FileResult} (first : task.Ended phase share reached results)
    (second : task.Ended phase share' reached' results') :
    task.Ended phase (share ++ share') (reached ++ reached') (results ++ results') := by
  constructor
  case calm =>
    rw [List.findSome?_append, Option.or_eq_none_iff, List.forall_mem_append, first.calm,
      second.calm]
  case isOk =>
    intro calm
    rw [List.forall_mem_append] at calm
    rw [List.map_append, List.map_append, first.isOk calm.1, second.isOk calm.2]
  case isDone => exact List.forall_mem_append.mpr ⟨first.isDone, second.isDone⟩
  case waits =>
    simp only [List.mem_append, not_or]
    rintro input (member | member) ⟨notFirst, notSecond⟩
    · exact first.waits input member notFirst
    · exact second.waits input member notSecond

/-- Workers with their shares. -/
def Pool (task : Task) (shares : List (List Path)) (machine : Machine)
    (workers : List (Dialogue (List FileResult))) : Prop :=
  ∃ phase, task.Progress phase machine ∧ List.Forall₂ (task.Works phase) shares workers

namespace Pool

variable {shares : List (List Path)}
  (spread : Spread task.before.disk task.before.processId task.root task.outDir task.files base)
  (isSource : shares.flatten ⊆ task.files)
include spread isSource

/-- **A request of one of the workers** leaves the others where they are. -/
theorem next (distinct : shares.flatten.Nodup) {front back : List (Dialogue (List FileResult))}
    {worker : Dialogue (List FileResult)}
    (pool : task.Pool shares machine (front ++ worker :: back)) :
    task.Pool shares (worker.next machine).2 (front ++ (worker.next machine).1 :: back) := by
  obtain ⟨phase, progress, all⟩ := pool
  obtain ⟨before, share, after, rfl, ahead, works, behind⟩ := exists_of_forall₂_append all
  have inside : ∀ {other}, other ∈ before ++ share :: after → other ⊆ task.files :=
    fun member _ isInput => isSource (List.mem_flatten.mpr ⟨_, member, isInput⟩)
  obtain ⟨once, disjoint⟩ := List.nodup_flatten.mp distinct
  obtain ⟨phase', works, progress, same⟩ :=
    works.next spread progress (inside (by simp)) (once share (by simp))
  have others {shares : List (List Path)} {workers : List (Dialogue (List FileResult))}
      (apart : ∀ other ∈ shares, List.Disjoint other share ∧ other ⊆ task.files)
      (all : List.Forall₂ (task.Works phase) shares workers) :
      List.Forall₂ (task.Works phase') shares workers := by
    refine ((List.forall₂_and_left _ _).mpr ⟨apart, all⟩).imp ?_
    rintro other _ ⟨⟨apart, isSource⟩, works⟩
    refine works.congr fun input member write ofInput => same write fun busy isBusy => ?_
    refine write?_ne spread (inside (by simp) isBusy) (isSource member) ?_ write ofInput
    rintro rfl
    exact apart member isBusy
  rw [List.pairwise_append, List.pairwise_cons] at disjoint
  obtain ⟨-, ⟨apartAfter, -⟩, apartBefore⟩ := disjoint
  refine ⟨phase', progress, List.rel_append (others ?_ ahead) (.cons works (others ?_ behind))⟩
  · exact fun other member =>
      ⟨apartBefore other member share List.mem_cons_self, inside (by simp [member])⟩
  · exact fun other member => ⟨(apartAfter other member).symm, inside (by simp [member])⟩

/-- When all workers are done, there is nothing left to do. -/
theorem ended {parts : List (List FileResult)}
    (pool : task.Pool shares machine (parts.map .done)) :
    ∃ phase, task.Progress phase machine ∧
      task.Ended phase shares.flatten (shares.flatMap task.upToFatal) parts.flatten := by
  obtain ⟨phase, progress, all⟩ := pool
  refine ⟨phase, progress, ?_⟩
  rw [List.forall₂_map_right_iff] at all
  induction all with
  | nil => exact ⟨by simp, fun _ => rfl, by simp, by simp⟩
  | cons works _ ih =>
    rw [List.flatten_cons, List.append_subset] at isSource
    rw [List.flatten_cons, List.flatMap_cons, List.flatten_cons]
    exact (works.ended spread isSource.1).append (ih isSource.2)

end Pool

/-- The sources that are compiled side by side: in each share those before the first with a
    fatal error. -/
def reachedBy (task : Task) (schedule : Schedule) : List Path :=
  (Schedule.deal schedule.shares task.files).flatMap task.upToFatal

theorem reachedBy_sublist (task : Task) (schedule : Schedule) :
    (task.reachedBy schedule).Sublist task.files := by
  have shorter := List.Sublist.flatMap_right (Schedule.deal schedule.shares task.files)
    fun share _ => show (task.upToFatal share).Sublist (id share) from List.takeWhile_sublist _
  rwa [List.flatMap_id, flatten_deal] at shorter

/-- Without a fatal error all sources are compiled. -/
theorem reachedBy_of_calm (calm : ∀ input ∈ task.files, task.isFatal input = false)
    (schedule : Schedule) : task.reachedBy schedule = task.files := by
  have isFiles := flatten_deal schedule.shares task.files
  have whole : ∀ share ∈ Schedule.deal schedule.shares task.files,
      task.upToFatal share = id share := by
    intro share isShare
    refine List.takeWhile_eq_self_iff.mpr fun input member => ?_
    rw [← isFiles] at calm
    simp [calm input (List.mem_flatten.mpr ⟨share, isShare, member⟩)]
  rw [reachedBy, List.flatMap_congr whole, List.flatMap_id, isFiles]

section Schedules

variable
  (spread : Spread task.before.disk task.before.processId task.root task.outDir task.files base)
  (distinct : task.files.Nodup) {schedule : Schedule} {results : List FileResult} {after : Machine}
  (run : (compileTogether task.names task.root task.outDir schedule task.files :
    StateM Machine (List FileResult)) task.before = (results, after))
include spread distinct run

/-- **The schedule does not matter.**  There is a fatal error among the results just if one of the
    sources has one.  If none has, all of them end as was settled before. -/
theorem ended_compileTogether :
    ∃ phase, task.Progress phase after ∧
      task.Ended phase task.files (task.reachedBy schedule) results := by
  have isFiles := flatten_deal schedule.shares task.files
  have isSource : (Schedule.deal schedule.shares task.files).flatten ⊆ task.files := by
    rw [isFiles]
    exact List.Subset.refl _
  have start : task.Pool (Schedule.deal schedule.shares task.files) task.before
      (workers task.names task.root task.outDir schedule.shares task.files) := by
    refine ⟨fun _ => .waiting, ⟨rfl, rfl, .nothing _ _⟩, ?_⟩
    rw [workers, List.forall₂_map_right_iff, List.forall₂_same]
    refine fun share member => Works.start spread (fun input isInput => isSource ?_)
      fun _ _ _ _ => rfl
    exact List.mem_flatten.mpr ⟨share, member, isInput⟩
  rw [← isFiles] at distinct
  have final := Dialogue.holds_sideBySide (Pool.next spread isSource distinct) schedule.turns start
  have ended := final.ended spread isSource
  rw [isFiles] at ended
  cases run
  exact ended

/-- **What is left on the disk** does not depend on how the workers take turns. -/
theorem sameTree_compileTogether :
    after.disk.SameTree ((compileEach task.names task.root task.outDir (task.reachedBy schedule) :
      StateM Machine (List FileResult)) task.before).2.disk := by
  obtain ⟨phase, progress, ended⟩ := ended_compileTogether spread distinct run
  have isSublist := task.reachedBy_sublist schedule
  obtain ⟨underway, -⟩ := (underway_nil task).compileEach spread (List.nil_subset _)
    (distinct.sublist isSublist) isSublist.subset (by simp) (Prod.eta _).symm
  refine progress.sameTree underway fun write isWrite => ?_
  obtain ⟨input, member, ofInput⟩ := List.mem_filterMap.mp isWrite
  by_cases isReached : input ∈ task.reachedBy schedule
  · rw [ended.isDone input isReached write ofInput, doneBy, if_pos]
    exact List.mem_filterMap.mpr ⟨input, by simpa using isReached, ofInput⟩
  · rw [ended.waits input member isReached write ofInput, doneBy, if_neg]
    intro isDone
    obtain ⟨other, isOther, ofOther⟩ := List.mem_filterMap.mp isDone
    rw [List.append_nil, List.mem_reverse] at isOther
    obtain rfl := spread.eq_of_writeOf member (isSublist.subset isOther) ofInput ofOther
    exact isReached isOther

end Schedules

end Task

end ViewScript
