/-
  ViewScript/Proofs/Project/Commuting.lean
  ========================================
  **Writes side by side.**

  What a write does to the contents of a disk depends on few things: on the way to its folder,
  on what stands in the place of the file, and on what stands in the place of the temporary
  file.  A write opens its way as far as it can, puts the temporary file beside the file, and
  then puts it in the place of the file unless something is against it.

  Writes are *separate* if the files of one do not get in the way of another.  Which folders
  are made by whom does not matter.  Between two moves of one of several separate writes the
  others may make moves of their own: the contents are told by how far each write has come,
  and each of them succeeds just when it would have succeeded alone.
-/
import Mathlib.Data.List.Basic
import ViewScript.Proofs.Disk.Ways
import ViewScript.Proofs.Project.Placement

namespace ViewScript

open Disk (step checkPath nameLimit isFileAt isOpen opened withMade)

/-! ### What a write does to the contents -/

/-- A write of a file, as far as the contents of the disk matter to it. -/
structure Write where
  start : Location
  /-- The names that lead to the folder of the file. -/
  way : List Text
  /-- The path of the folder can be used. -/
  wayFits : Bool
  temporary : Text
  temporaryFits : Bool
  name : Text
  nameFits : Bool
  bytes : Bytes
deriving DecidableEq

namespace Write

def folder (write : Write) : Location := write.way.foldl step write.start

def target (write : Write) : Location := write.folder ++ [write.name]

/-- The place of the temporary file. -/
def aside (write : Write) : Location := write.folder ++ [write.temporary]

variable (write : Write) (contents : Location → Option Content)

/-- The locations that a write makes sure are folders. -/
def made : List Location :=
  if write.wayFits then opened contents write.start write.way else []

def isReady : Bool := write.wayFits && isOpen contents write.start write.way

/-- The temporary file can be written. -/
def Begins : Prop :=
  write.isReady contents = true ∧ write.temporaryFits = true ∧
    withMade contents (write.made contents) write.aside ≠ some .folder

/-- The temporary file can take the place of the file. -/
def Succeeds : Prop :=
  write.Begins contents ∧ write.nameFits = true ∧
    withMade contents (write.made contents) write.target ≠ some .folder

instance : Decidable (write.Begins contents) := inferInstanceAs (Decidable (_ ∧ _))

instance : Decidable (write.Succeeds contents) := inferInstanceAs (Decidable (_ ∧ _))

end Write

/-! ### Separate writes -/

/-- Writes that do not get in each other's way. -/
structure Separated (contents : Location → Option Content) (writes : List Write) : Prop where
  /-- No file is written, or taken away, on the way of a write. -/
  way : ∀ {write other : Write}, write ∈ writes → other ∈ writes →
    ∀ {front : List Text}, front ≠ [] → front <+: write.way →
      (other.Succeeds contents → front.foldl step write.start ≠ other.target) ∧
      (other.Begins contents → front.foldl step write.start ≠ other.aside)
  /-- What is made in the place of a file is made by the write of the file itself. -/
  target : ∀ {write other : Write}, write ∈ writes → other ∈ writes →
    write.isReady contents = true → contents write.target = none →
      write.target ∈ other.made contents → write.target ∈ write.made contents
  aside : ∀ {write other : Write}, write ∈ writes → other ∈ writes →
    write.isReady contents = true → contents write.aside = none →
      write.aside ∈ other.made contents → write.aside ∈ write.made contents
  targets : ∀ {write other : Write}, write ∈ writes → other ∈ writes → write ≠ other →
    write.target ≠ other.target
  asides : ∀ {write other : Write}, write ∈ writes → other ∈ writes → write ≠ other →
    write.aside ≠ other.aside
  apart : ∀ {write other : Write}, write ∈ writes → other ∈ writes → write.target ≠ other.aside

/-! ### Writes side by side -/

/-- How far a write has come. -/
inductive Phase where
  | waiting
  /-- The folders on its way are made, as far as they can be. -/
  | opened
  /-- Its temporary file is there. -/
  | begun
  | done
deriving DecidableEq

/-- The folders that writes have made so far. -/
def madeBy (before : Location → Option Content) (writes : List Write) (phase : Write → Phase) :
    List Location :=
  (writes.filter fun write => phase write ≠ .waiting).flatMap (·.made before)

theorem mem_madeBy {before : Location → Option Content} {writes : List Write}
    {phase : Write → Phase} {location : Location} :
    location ∈ madeBy before writes phase ↔
      ∃ write ∈ writes, phase write ≠ .waiting ∧ location ∈ write.made before := by
  simp [madeBy, List.mem_flatMap, and_assoc]

/-- The contents while writes are carried out side by side. -/
structure InFlight (before : Location → Option Content) (writes : List Write)
    (phase : Write → Phase) (after : Location → Option Content) : Prop where
  target : ∀ {write : Write}, write ∈ writes → phase write = .done → write.Succeeds before →
    after write.target = some (.file write.bytes)
  begins : ∀ {write : Write}, write ∈ writes → phase write = .begun → write.Begins before
  begun : ∀ {write : Write}, write ∈ writes → phase write = .begun →
    after write.aside = some (.file write.bytes)
  aside : ∀ {write : Write}, write ∈ writes → phase write = .done → write.Begins before →
    after write.aside = none
  elsewhere : ∀ {location : Location},
    (∀ write ∈ writes, phase write = .done → write.Succeeds before → location ≠ write.target) →
    (∀ write ∈ writes, phase write = .begun ∨ phase write = .done → write.Begins before →
      location ≠ write.aside) →
    after location = withMade before (madeBy before writes phase) location

namespace InFlight

variable {before after : Location → Option Content} {writes : List Write}
  {phase : Write → Phase} {write : Write}

theorem nothing (before : Location → Option Content) (writes : List Write) :
    InFlight before writes (fun _ => .waiting) before := by
  refine ⟨by simp, by simp, by simp, by simp, fun _ _ => ?_⟩
  rw [Disk.withMade_eq_self]
  simp [madeBy]

/-- The phases of the writes determine the contents. -/
theorem unique {phase' : Write → Phase} {after' : Location → Option Content}
    (first : InFlight before writes phase after) (second : InFlight before writes phase' after')
    (same : ∀ write ∈ writes, phase' write = phase write) : after' = after := by
  funext location
  by_cases isTarget : ∃ write ∈ writes, phase write = .done ∧ write.Succeeds before ∧
      location = write.target
  · obtain ⟨write, member, isDone, succeeds, rfl⟩ := isTarget
    rw [first.target member isDone succeeds,
      second.target member ((same write member).trans isDone) succeeds]
  by_cases isBegun : ∃ write ∈ writes, phase write = .begun ∧ location = write.aside
  · obtain ⟨write, member, isBegun, rfl⟩ := isBegun
    rw [first.begun member isBegun, second.begun member ((same write member).trans isBegun)]
  by_cases isAside : ∃ write ∈ writes, phase write = .done ∧ write.Begins before ∧
      location = write.aside
  · obtain ⟨write, member, isDone, begins, rfl⟩ := isAside
    rw [first.aside member isDone begins,
      second.aside member ((same write member).trans isDone) begins]
  have notTarget : ∀ write ∈ writes, phase write = .done → write.Succeeds before →
      location ≠ write.target :=
    fun write member isDone succeeds here => isTarget ⟨write, member, isDone, succeeds, here⟩
  have notAside : ∀ write ∈ writes, phase write = .begun ∨ phase write = .done →
      write.Begins before → location ≠ write.aside := by
    rintro write member (isBegun' | isDone) begins here
    · exact isBegun ⟨write, member, isBegun', here⟩
    · exact isAside ⟨write, member, isDone, begins, here⟩
  rw [first.elsewhere notTarget notAside, second.elsewhere
    (fun write member => same write member ▸ notTarget write member)
    (fun write member => same write member ▸ notAside write member)]
  refine congrFun (Disk.withMade_congr fun location => ?_) location
  rw [mem_madeBy, mem_madeBy]
  exact exists_congr fun write => and_congr_right fun member => by rw [same write member]

/-- Folders stay folders. -/
theorem folder (flight : InFlight before writes phase after) {location : Location}
    (isFolder : before location = some .folder) : after location = some .folder := by
  have still : ∀ made, withMade before made location = some .folder :=
    fun made => Disk.withMade_eq_folder_iff.mpr (.inl isFolder)
  rw [flight.elsewhere, still]
  · rintro write - - succeeds rfl
    exact succeeds.2.2 (still _)
  · rintro write - - begins rfl
    exact begins.2.2 (still _)

section Step

variable (flight : InFlight before writes phase after) (separated : Separated before writes)
  (member : write ∈ writes)
include flight separated member

/-- On the way of a write no other write puts or takes away a file. -/
theorem content_way {front : List Text} (nonempty : front ≠ []) (isPrefix : front <+: write.way) :
    after (front.foldl step write.start) =
      withMade before (madeBy before writes phase) (front.foldl step write.start) :=
  flight.elsewhere
    (fun _ isWrite _ => (separated.way member isWrite nonempty isPrefix).1)
    (fun _ isWrite _ => (separated.way member isWrite nonempty isPrefix).2)

/-- So the way is opened as it would have been before. -/
theorem isReady_eq : write.isReady after = write.isReady before ∧
    write.made after = write.made before := by
  obtain ⟨sameOpen, sameMade⟩ := @Disk.opened_congr after before write.start write.way
    fun front nonempty isPrefix => by
      have same := flight.content_way separated member nonempty isPrefix
      simpa [isFileAt, same] using Disk.isFileAt_withMade
  simp only [Write.isReady, Write.made, sameOpen, sameMade, and_self]

/-- A way that was opened stands. -/
theorem folder_way (ready : write.isReady before = true) (isOpened : phase write ≠ .waiting)
    {front : List Text} (nonempty : front ≠ []) (isPrefix : front <+: write.way) :
    after (front.foldl step write.start) = some .folder := by
  obtain ⟨fits, clear⟩ : write.wayFits = true ∧
      isOpen before write.start write.way = true := by
    simpa [Write.isReady] using ready
  have isOnWay := Disk.mem_opened clear nonempty isPrefix
  have isMade : front.foldl step write.start ∈ write.made before := by
    rwa [Write.made, if_pos fits]
  rw [flight.content_way separated member nonempty isPrefix, Disk.withMade_eq_folder_iff]
  cases found : before (front.foldl step write.start) with
  | none => exact .inr ⟨rfl, mem_madeBy.mpr ⟨write, member, isOpened, isMade⟩⟩
  | some content =>
    cases content with
    | folder => exact .inl rfl
    | file bytes =>
      have noFile := Disk.isFileAt_of_mem_opened isOnWay
      simp [isFileAt, found] at noFile

omit flight separated in
/-- There is a folder in a place of the write just when its own folders make it so: what
    others make there, the write makes itself. -/
theorem eq_folder_iff {place : Location} (isOpened : phase write ≠ .waiting)
    (same : after place = withMade before (madeBy before writes phase) place)
    (own : ∀ {other : Write}, other ∈ writes → before place = none →
      place ∈ other.made before → place ∈ write.made before) :
    after place = some .folder ↔ withMade before (write.made before) place = some .folder := by
  rw [same, Disk.withMade_eq_folder_iff, Disk.withMade_eq_folder_iff]
  refine or_congr_right (and_congr_right fun missing => ?_)
  rw [mem_madeBy]
  constructor
  · rintro ⟨other, isWrite, -, isMade⟩
    exact own isWrite missing isMade
  · exact fun isMade => ⟨write, member, isOpened, isMade⟩

theorem content_aside (isOpened : phase write = .opened) :
    after write.aside = withMade before (madeBy before writes phase) write.aside := by
  refine flight.elsewhere (fun other isWrite _ _ => ?_) (fun other isWrite isActive _ => ?_)
  · exact (separated.apart isWrite member).symm
  · refine separated.asides member isWrite ?_
    rintro rfl
    rw [isOpened] at isActive
    rcases isActive with isBegun | isDone
    · cases isBegun
    · cases isDone

theorem content_target (todo : phase write ≠ .done) :
    after write.target = withMade before (madeBy before writes phase) write.target := by
  refine flight.elsewhere (fun other isWrite isDone _ => ?_) (fun other isWrite _ _ => ?_)
  · refine separated.targets member isWrite ?_
    rintro rfl
    exact todo isDone
  · exact separated.apart member isWrite

/-- With its folders made, a write begins as if it were the only one. -/
theorem begins_iff (ready : write.isReady before = true) (isOpened : phase write = .opened) :
    write.temporaryFits = true ∧ after write.aside ≠ some .folder ↔ write.Begins before := by
  have sameFolder := eq_folder_iff member (by simp [isOpened])
    (flight.content_aside separated member isOpened)
    fun other missing isMade => separated.aside member other ready missing isMade
  rw [Write.Begins, and_iff_right ready, Ne, sameFolder]

/-- And it succeeds as if it were the only one. -/
theorem succeeds_iff (isBegun : phase write = .begun) :
    write.nameFits = true ∧ after write.target ≠ some .folder ↔ write.Succeeds before := by
  have begins := flight.begins member isBegun
  have sameFolder := eq_folder_iff member (by simp [isBegun])
    (flight.content_target separated member (by simp [isBegun]))
    fun other missing isMade => separated.target member other begins.1 missing isMade
  rw [Write.Succeeds, and_iff_right begins, Ne, sameFolder]

/-- **The folders on the way of a write are made.** -/
theorem opens (isWaiting : phase write = .waiting) :
    InFlight before writes (Function.update phase write .opened)
      (withMade after (write.made after)) := by
  rw [(flight.isReady_eq separated member).2]
  have phase_of {other : Write} {reached : Phase} (isActive : reached ≠ .opened)
      (isReached : Function.update phase write .opened other = reached) :
      phase other = reached := by
    by_cases same : other = write
    · subst same
      rw [Function.update_self] at isReached
      exact (isActive isReached.symm).elim
    · rwa [Function.update_of_ne same] at isReached
  refine ⟨?_, ?_, ?_, ?_, ?_⟩
  · intro other isWrite isDone succeeds
    rw [withMade, flight.target isWrite (phase_of (by simp) isDone) succeeds]
    simp
  · intro other isWrite isBegun
    exact flight.begins isWrite (phase_of (by simp) isBegun)
  · intro other isWrite isBegun
    rw [withMade, flight.begun isWrite (phase_of (by simp) isBegun)]
    simp
  · intro other isWrite isDone begins
    rw [withMade, flight.aside isWrite (phase_of (by simp) isDone) begins, if_neg]
    -- Where a temporary file was, no other write makes a folder.
    rintro ⟨-, isMade⟩
    unfold Write.made at isMade
    split at isMade
    · obtain ⟨front, nonempty, isPrefix, here⟩ := Disk.exists_of_mem_opened isMade
      exact (separated.way member isWrite nonempty isPrefix).2 begins here.symm
    · cases isMade
  · intro location notTarget notAside
    have unchanged {other : Write} (isActive : phase other ≠ .waiting) :
        Function.update phase write .opened other = phase other := by
      refine Function.update_of_ne ?_ _ _
      rintro rfl
      exact isActive isWaiting
    have earlier := flight.elsewhere
      (fun other isWrite isDone => notTarget other isWrite
        ((unchanged (by simp [isDone])).trans isDone))
      (fun other isWrite isActive => notAside other isWrite
        (by rwa [unchanged (by rcases isActive with active | active <;> simp [active])]))
    have both : withMade (withMade before (madeBy before writes phase)) (write.made before) =
        withMade before (madeBy before writes (Function.update phase write .opened)) := by
      rw [Disk.withMade_withMade]
      refine Disk.withMade_congr fun location => ?_
      rw [List.mem_append, mem_madeBy, mem_madeBy]
      constructor
      · rintro (⟨other, isWrite, isActive, isMade⟩ | isMade)
        · exact ⟨other, isWrite, by rwa [unchanged isActive], isMade⟩
        · exact ⟨write, member, by simp, isMade⟩
      · rintro ⟨other, isWrite, isActive, isMade⟩
        by_cases same : other = write
        · exact .inr (same ▸ isMade)
        · exact .inl ⟨other, isWrite, by rwa [Function.update_of_ne same] at isActive, isMade⟩
    rw [← both, withMade, earlier]
    rfl

/-- **A write goes on.**  All that changes is what stands in its two places. -/
theorem moves {next : Phase} {after' : Location → Option Content}
    (isOpened : phase write ≠ .waiting) (todo : phase write ≠ .done)
    (isNext : next = .begun ∨ next = .done)
    (begins : next = .begun → write.Begins before)
    (atTarget : next = .done → write.Succeeds before →
      after' write.target = some (.file write.bytes))
    (atAside : write.Begins before →
      after' write.aside = if next = .begun then some (.file write.bytes) else none)
    (kept : ∀ location, (next = .done → write.Succeeds before → location ≠ write.target) →
      (write.Begins before → location ≠ write.aside) → after' location = after location) :
    InFlight before writes (Function.update phase write next) after' := by
  have other_phase {other : Write} (distinct : other ≠ write) :
      Function.update phase write next other = phase other := Function.update_of_ne distinct _ _
  have keptTarget {other : Write} (isWrite : other ∈ writes) (distinct : other ≠ write) :
      after' other.target = after other.target :=
    kept _ (fun _ _ => separated.targets isWrite member distinct)
      fun _ => separated.apart isWrite member
  have keptAside {other : Write} (isWrite : other ∈ writes) (distinct : other ≠ write) :
      after' other.aside = after other.aside :=
    kept _ (fun _ _ => (separated.apart member isWrite).symm)
      fun _ => separated.asides isWrite member distinct
  refine ⟨?_, ?_, ?_, ?_, ?_⟩
  · intro other isWrite isDone succeeds
    by_cases same : other = write
    · subst same
      exact atTarget (by simpa using isDone) succeeds
    · rw [keptTarget isWrite same]
      exact flight.target isWrite (other_phase same ▸ isDone) succeeds
  · intro other isWrite isBegun
    by_cases same : other = write
    · subst same
      exact begins (by simpa using isBegun)
    · exact flight.begins isWrite (other_phase same ▸ isBegun)
  · intro other isWrite isBegun
    by_cases same : other = write
    · subst same
      have isNext : next = .begun := by simpa using isBegun
      rw [atAside (begins isNext), if_pos isNext]
    · rw [keptAside isWrite same]
      exact flight.begun isWrite (other_phase same ▸ isBegun)
  · intro other isWrite isDone works
    by_cases same : other = write
    · subst same
      have isNext : next = .done := by simpa using isDone
      rw [atAside works, isNext]
      rfl
    · rw [keptAside isWrite same]
      exact flight.aside isWrite (other_phase same ▸ isDone) works
  · intro location notTarget notAside
    have sameMade : ∀ location, location ∈ madeBy before writes (Function.update phase write next) ↔
        location ∈ madeBy before writes phase := by
      intro location
      rw [mem_madeBy, mem_madeBy]
      refine exists_congr fun other => and_congr_right fun _ => and_congr_left fun _ => ?_
      by_cases same : other = write
      · subst same
        rcases isNext with rfl | rfl <;> simp [isOpened]
      · rw [other_phase same]
    have ownTarget : next = .done → write.Succeeds before → location ≠ write.target :=
      fun isDone => notTarget write member (by simpa using isDone)
    have ownAside : write.Begins before → location ≠ write.aside :=
      notAside write member (by simpa using isNext)
    rw [kept location ownTarget ownAside, Disk.withMade_congr sameMade]
    refine flight.elsewhere (fun other isWrite isDone succeeds => ?_)
      (fun other isWrite isActive works => ?_)
    · by_cases same : other = write
      · exact (todo (same ▸ isDone)).elim
      · exact notTarget other isWrite ((other_phase same).trans isDone) succeeds
    · by_cases same : other = write
      · subst same
        exact ownAside works
      · exact notAside other isWrite (by rwa [other_phase same]) works

/-- A write that cannot begin is at its end. -/
theorem fails (isOpened : phase write ≠ .waiting) (todo : phase write ≠ .done)
    (fails : ¬ write.Begins before) :
    InFlight before writes (Function.update phase write .done) after :=
  flight.moves separated member isOpened todo (.inr rfl) (by simp)
    (fun _ succeeds => (fails succeeds.1).elim) (fun begins => (fails begins).elim)
    fun _ _ _ => rfl

end Step

end InFlight

/-! ### Writes below one folder -/

/-- A write goes to a folder by some names first, and then by names that are no temporary
    files. -/
structure Write.Enters (write : Write) (start : Location) (base inner : List Text) : Prop where
  start : write.start = start
  way : write.way = base ++ inner
  isNames : ∀ name ∈ inner, Path.IsName name
  visible : ∀ name ∈ inner, name.head? ≠ some '.'
  hidden : write.temporary.head? = some '.'

section Enters

variable {contents : Location → Option Content} {writes : List Write} {write other : Write}
  {start : Location} {base inner inner' front rest : List Text}

namespace Write.Enters

theorem folder (enters : write.Enters start base inner) :
    write.folder = base.foldl step start ++ inner := by
  rw [Write.folder, enters.way, enters.start, List.foldl_append,
    Disk.foldl_step_names enters.isNames]

/-- The way of such a write has two parts. -/
theorem onWay (enters : write.Enters start base inner) (isPrefix : front <+: write.way) :
    front <+: base ∨
      ∃ rest, rest <+: inner ∧ front.foldl step write.start = base.foldl step start ++ rest := by
  rw [enters.way] at isPrefix
  rcases List.prefix_or_prefix_of_prefix isPrefix (List.prefix_append base inner) with short | long
  · exact .inl short
  · obtain ⟨rest, rfl⟩ := long
    have inside := (List.prefix_append_right_inj base).mp isPrefix
    refine .inr ⟨rest, inside, ?_⟩
    rw [enters.start, List.foldl_append, Disk.foldl_step_names]
    exact fun name member => enters.isNames name (inside.subset member)

/-- In the first part a write that is ready has its own folders. -/
theorem mem_made (enters : write.Enters start base inner) (ready : write.isReady contents = true)
    (nonempty : front ≠ []) (isPrefix : front <+: base) :
    front.foldl step start ∈ write.made contents := by
  obtain ⟨fits, clear⟩ : write.wayFits = true ∧
      isOpen contents write.start write.way = true := by
    simpa [Write.isReady] using ready
  rw [Write.made, if_pos fits, ← enters.start]
  refine Disk.mem_opened clear nonempty (isPrefix.trans ?_)
  rw [enters.way]
  exact List.prefix_append base inner

theorem withMade_eq_folder (enters : write.Enters start base inner)
    (ready : write.isReady contents = true) (nonempty : front ≠ []) (isPrefix : front <+: base) :
    withMade contents (write.made contents) (front.foldl step start) = some .folder := by
  have isMade := enters.mem_made ready nonempty isPrefix
  have notFile : isFileAt contents (front.foldl step start) = false := by
    unfold Write.made at isMade
    split at isMade
    · exact Disk.isFileAt_of_mem_opened isMade
    · cases isMade
  rw [Disk.withMade_eq_folder_iff]
  cases found : contents (front.foldl step start) with
  | none => exact .inr ⟨rfl, isMade⟩
  | some content =>
    cases content with
    | folder => exact .inl rfl
    | file bytes => simp [isFileAt, found] at notFile

/-- In the second part there is no temporary file. -/
theorem aside_ne (enters : write.Enters start base inner)
    (enters' : other.Enters start base inner') (isPrefix : rest <+: inner) :
    base.foldl step start ++ rest ≠ other.aside := by
  intro here
  rw [Write.aside, enters'.folder, List.append_assoc, List.append_cancel_left_eq] at here
  have member : other.temporary ∈ inner := isPrefix.subset (by simp [here])
  exact enters.visible _ member enters'.hidden

/-- Nor is there the file of a write that is kept apart. -/
theorem target_ne (enters : write.Enters start base inner)
    (enters' : other.Enters start base inner')
    (apart : other ≠ write → ¬ other.way ++ [other.name] <+: write.way ++ [write.name])
    (isPrefix : rest <+: inner) : base.foldl step start ++ rest ≠ other.target := by
  intro here
  rw [Write.target, enters'.folder, List.append_assoc, List.append_cancel_left_eq] at here
  subst here
  by_cases same : other = write
  · subst same
    obtain rfl : inner = inner' :=
      List.append_cancel_left (enters.way.symm.trans enters'.way)
    have longer := isPrefix.length_le
    simp only [List.length_append, List.length_singleton] at longer
    omega
  · apply apart same
    rw [enters.way, enters'.way, List.append_assoc, List.append_assoc,
      List.prefix_append_right_inj]
    exact isPrefix.trans (List.prefix_append _ _)

end Write.Enters

/-- **Writes below one folder are separate**, if their files are kept apart. -/
theorem separated_of_enters (enters : ∀ write ∈ writes, ∃ inner, write.Enters start base inner)
    (apart : ∀ write ∈ writes, ∀ other ∈ writes, write ≠ other →
      ¬ write.way ++ [write.name] <+: other.way ++ [other.name])
    (temporaries : ∀ write ∈ writes, ∀ other ∈ writes,
      write.temporary = other.temporary → write.name = other.name)
    (names : ∀ write ∈ writes, ∀ other ∈ writes, write.name ≠ other.temporary) :
    Separated contents writes := by
  have outside : ∀ {write other inner rest}, write ∈ writes → other ∈ writes →
      write.Enters start base inner → rest <+: inner →
      base.foldl step start ++ rest ≠ other.target ∧
        base.foldl step start ++ rest ≠ other.aside := by
    intro write other inner rest member member' entersIn isPrefix
    obtain ⟨inner', entersIn'⟩ := enters other member'
    exact ⟨entersIn.target_ne entersIn' (apart other member' write member) isPrefix,
      entersIn.aside_ne entersIn' isPrefix⟩
  have madeBySelf : ∀ {write other place}, write ∈ writes → other ∈ writes →
      (place = write.target ∨ place = write.aside) → write.isReady contents = true →
      place ∈ other.made contents → place ∈ write.made contents := by
    intro write other place member member' isPlace ready isMade
    obtain ⟨inner, entersIn⟩ := enters write member
    obtain ⟨inner', entersIn'⟩ := enters other member'
    unfold Write.made at isMade
    split at isMade
    · obtain ⟨front, nonempty, isPrefix, here⟩ := Disk.exists_of_mem_opened isMade
      rcases entersIn'.onWay isPrefix with shared | ⟨rest, isRest, atRest⟩
      · rw [here, entersIn'.start]
        exact entersIn.mem_made ready nonempty shared
      · have notHere := outside member' member entersIn' isRest
        rw [← atRest, ← here] at notHere
        exact (isPlace.elim notHere.1 notHere.2).elim
    · cases isMade
  constructor
  · intro write other member member' front nonempty isPrefix
    obtain ⟨inner, entersIn⟩ := enters write member
    obtain ⟨inner', entersIn'⟩ := enters other member'
    rcases entersIn.onWay isPrefix with shared | ⟨rest, isRest, atRest⟩
    · rw [entersIn.start]
      constructor
      · intro succeeds here
        exact succeeds.2.2 (here ▸ entersIn'.withMade_eq_folder succeeds.1.1 nonempty shared)
      · intro begins here
        exact begins.2.2 (here ▸ entersIn'.withMade_eq_folder begins.1 nonempty shared)
    · rw [atRest]
      have notHere := outside member member' entersIn isRest
      exact ⟨fun _ => notHere.1, fun _ => notHere.2⟩
  · intro write other member member' ready _ isMade
    exact madeBySelf member member' (.inl rfl) ready isMade
  · intro write other member member' ready _ isMade
    exact madeBySelf member member' (.inr rfl) ready isMade
  · intro write other member member' distinct same
    obtain ⟨inner, entersIn⟩ := enters write member
    obtain ⟨inner', entersIn'⟩ := enters other member'
    rw [Write.target, Write.target, entersIn.folder, entersIn'.folder, List.append_assoc,
      List.append_assoc, List.append_cancel_left_eq] at same
    apply apart write member other member' distinct
    rw [entersIn.way, entersIn'.way, List.append_assoc, List.append_assoc, same]
  · intro write other member member' distinct same
    obtain ⟨inner, entersIn⟩ := enters write member
    obtain ⟨inner', entersIn'⟩ := enters other member'
    rw [Write.aside, Write.aside, entersIn.folder, entersIn'.folder, List.append_assoc,
      List.append_assoc, List.append_cancel_left_eq] at same
    obtain ⟨sameInner, sameLast⟩ := List.append_inj' same rfl
    apply apart write member other member' distinct
    rw [entersIn.way, entersIn'.way, sameInner,
      temporaries write member other member' (List.singleton_inj.mp sameLast)]
  · intro write other member member' same
    exact names write member other member'
      (List.singleton_inj.mp (List.append_inj' same rfl).2)

end Enters

/-! ### Code is written by such a write -/

/-- The write of code to a path. -/
def Write.of (disk : Disk) (processId : Nat) (path : Path) (code : Text) : Write where
  start := disk.start path
  way := path.names.dropLast
  wayFits :=
    match path.parent? with
    | some ⟨c :: cs⟩ => (checkPath ⟨c :: cs⟩).isOk
    | _ => true
  temporary := temporaryName processId (path.fileName?.getD "file")
  temporaryFits := (checkPath (temporaryPath processId path)).isOk &&
    decide ((temporaryName processId (path.fileName?.getD "file")).byteSize ≤ nameLimit)
  name := path.names.getLast?.getD []
  nameFits := (checkPath path).isOk && path.names.getLast?.getD [] != ['.', '.'] &&
    decide ((path.names.getLast?.getD []).byteSize ≤ nameLimit)
  bytes := Utf8.encode code

section Of

variable {disk : Disk} {processId : Nat} {path : Path} {code : Text} {front : List Text}
  {last : Text}

theorem isOk_eq_true_iff {result : Except FileError Unit} :
    result.isOk = true ↔ result = .ok () := by
  cases result <;> simp [Except.isOk, Except.toBool]

theorem Write.way_of (ends : path.Ends front last) :
    (Write.of disk processId path code).way = Path.namesIn front := by
  rw [Write.of, Disk.names_of_ends ends, List.dropLast_concat]

theorem Write.name_of (ends : path.Ends front last) :
    (Write.of disk processId path code).name = last := by
  simp [Write.of, Disk.names_of_ends ends]

theorem Write.nameFits_of (ends : path.Ends front last) :
    (Write.of disk processId path code).nameFits = true ↔
      checkPath path = .ok () ∧ last ≠ ['.', '.'] ∧ ¬ nameLimit < last.byteSize := by
  simp [Write.of, Disk.names_of_ends ends, isOk_eq_true_iff, and_assoc]

theorem Write.temporaryFits_of :
    (Write.of disk processId path code).temporaryFits = true ↔
      checkPath (temporaryPath processId path) = .ok () ∧
        ¬ nameLimit < (temporaryName processId (path.fileName?.getD "file")).byteSize := by
  simp [Write.of, isOk_eq_true_iff]

theorem Write.target_of (ends : path.Ends front last) :
    (Write.of disk processId path code).target =
      (Write.of disk processId path code).folder ++ [last] := by
  rw [Write.target, Write.name_of ends]

/-- The folders above a path are made just as its write says. -/
theorem makeParents_of_ends (ends : path.Ends front last)
    (standing : disk.content? (disk.start path) = some .folder) :
    ((disk.makeParents path).1 = .ok () ↔
        (Write.of disk processId path code).isReady disk.content? = true) ∧
      (disk.makeParents path).2.content? = withMade disk.content?
        ((Write.of disk processId path code).made disk.content?) := by
  unfold Write.isReady Write.made
  rw [Write.way_of ends]
  obtain ⟨parent, above, isPrefix, sameWay, shape⟩ := ends.parent?
  rcases shape with ⟨empty, rfl⟩ | ⟨written, tidy⟩
  · have fits : (Write.of disk processId path code).wayFits = true := by
      obtain ⟨text⟩ := parent
      obtain rfl : text = [] := empty
      simp [Write.of, above]
    rw [Disk.makeParents_eq_self above empty, fits, Disk.withMade_eq_self] <;>
      simp [isOpen, opened, Path.namesIn]
  · have fits : (Write.of disk processId path code).wayFits = (checkPath parent).isOk := by
      obtain ⟨text⟩ := parent
      obtain ⟨c, cs, rfl⟩ := List.exists_cons_of_ne_nil written
      simp [Write.of, above]
    have start := Disk.start_of_isPrefix written isPrefix disk
    have names : parent.names = Path.namesIn front := Path.namesIn_congr sameWay
    rw [Disk.makeParents_eq above written, fits]
    cases checked : checkPath parent with
    | error error =>
      rw [Disk.makeFolders_of_checkPath_error written checked, Disk.withMade_eq_self] <;>
        simp [Except.isOk, Except.toBool]
    | ok =>
      have opens := Disk.opens_makeFolders tidy (start ▸ standing) checked
      rw [start, names] at opens
      simpa [Except.isOk, Except.toBool, Write.of] using opens

/-- With its folder there, a path is a spot for a file if it can be used and is no folder. -/
theorem spotError?_of_folderAt {folder : Location}
    (found : disk.folderAt (disk.start path) front = .ok folder) :
    spotError? disk path front last = none ↔
      checkPath path = .ok () ∧ last ≠ ['.', '.'] ∧ ¬ nameLimit < last.byteSize ∧
        disk.content? (folder ++ [last]) ≠ some .folder := by
  rw [spotError?_eq_none_iff]
  constructor
  · rintro ⟨other, reached, rest⟩
    obtain ⟨checked, found'⟩ := Disk.reach_eq_ok_iff.mp reached
    obtain rfl := Except.ok.inj (found.symm.trans found')
    exact ⟨checked, rest⟩
  · rintro ⟨checked, rest⟩
    exact ⟨folder, Disk.reach_eq_ok_iff.mpr ⟨checked, found⟩, rest⟩

end Of

/-! ### The moves of a write -/

section Moves

variable {disk : Disk} {processId : Nat} {path : Path} {code : Text} {front : List Text}
  {last : Text} {write : Write}

/-- The temporary file of a write, with the folder there. -/
theorem Write.temporary_of (ends : path.Ends front last)
    (isWrite : Write.of disk processId path code = write)
    (found : disk.folderAt (disk.start path) front = .ok write.folder) :
    ∃ front' name, (temporaryPath processId path).Ends front' name ∧ name ≠ ['.', '.'] ∧
      name ≠ last ∧ write.aside = write.folder ++ [name] ∧
      disk.folderAt (disk.start (temporaryPath processId path)) front' = .ok write.folder ∧
      (write.temporaryFits = true ↔
        checkPath (temporaryPath processId path) = .ok () ∧ ¬ nameLimit < name.byteSize) := by
  obtain ⟨front', endsTemporary, sameWay, sameStart⟩ := temporaryPath_ends ends processId
  refine ⟨front', _, endsTemporary, temporaryName_notUp processId _,
    temporaryName_ne ends processId, ?_, ?_, ?_⟩
  · rw [← isWrite]
    rfl
  · rw [Disk.start_congr sameStart, Disk.folderAt_congr sameWay, found]
  · rw [← isWrite, Write.temporaryFits_of]

variable (ends : path.Ends front last) (isWrite : Write.of disk processId path code = write)
  (found : disk.folderAt (disk.start path) front = .ok write.folder)
include ends isWrite found

/-- The first move: the temporary file is there, or there is something against it. -/
theorem createFile_of_write (bytes : Bytes) :
    (write.temporaryFits = true ∧ disk.content? write.aside ≠ some .folder ∧
      ∃ created, disk.createFile (temporaryPath processId path) bytes = .ok created ∧
        Puts disk created write.aside (some (.file bytes))) ∨
    (¬ (write.temporaryFits = true ∧ disk.content? write.aside ≠ some .folder) ∧
      ∃ error, disk.createFile (temporaryPath processId path) bytes = .error error) := by
  obtain ⟨front', name, endsTemporary, notUp, -, aside, foundTemporary, fits⟩ :=
    Write.temporary_of ends isWrite found
  have free : spotError? disk (temporaryPath processId path) front' name = none ↔
      write.temporaryFits = true ∧ disk.content? write.aside ≠ some .folder := by
    rw [spotError?_of_folderAt foundTemporary, fits, aside, and_assoc]
    exact and_congr_right fun _ => ⟨fun rest => rest.2, fun rest => ⟨notUp, rest⟩⟩
  cases denied : spotError? disk (temporaryPath processId path) front' name with
  | none =>
    obtain ⟨created, puts, -⟩ := puts_createFile endsTemporary notUp denied bytes
    rw [Disk.place_of_folderAt endsTemporary notUp foundTemporary, ← aside] at created puts
    exact .inl ⟨(free.mp denied).1, (free.mp denied).2, _, created, puts⟩
  | some error =>
    refine .inr ⟨by simp [← free, denied], error, ?_⟩
    rw [createFile_of_ends endsTemporary notUp, denied]

variable (fits : write.temporaryFits = true) {bytes : Bytes}
  (file : disk.content? write.aside = some (.file bytes))
include fits file

/-- The temporary file can be taken away again. -/
theorem removeFile_of_write :
    disk.locate (temporaryPath processId path) = .ok write.aside ∧
      disk.removeFile (temporaryPath processId path) = .ok (disk.alter write.aside none) ∧
      Puts disk (disk.alter write.aside none) write.aside none := by
  obtain ⟨front', name, endsTemporary, notUp, -, aside, foundTemporary, isFit⟩ :=
    Write.temporary_of ends isWrite found
  obtain ⟨checked, short⟩ := isFit.mp fits
  have located : disk.locate (temporaryPath processId path) = .ok write.aside := by
    rw [Disk.locate_of_ends endsTemporary notUp,
      Disk.reach_eq_ok_iff.mpr ⟨checked, foundTemporary⟩, aside]
    simp [bind, Except.bind, short]
  refine ⟨located, removeFile_of_locate located file, ?_⟩
  rw [aside] at file ⊢
  exact puts_alter (Disk.folderAt_eq_ok_iff.mp found).2 (by simp [file])
    (isEntryName_of_ends endsTemporary notUp) (by simp)

/-- The second move: the temporary file takes the place of the file, or there is something
    against it. -/
theorem renameFile_of_write :
    (write.nameFits = true ∧ disk.content? write.target ≠ some .folder ∧
      ∃ renamed, disk.renameFile (temporaryPath processId path) path = .ok renamed ∧
        renamed.workingFolder = disk.workingFolder ∧
        ∀ location, renamed.content? location =
          if location = write.target then some (.file bytes)
          else if location = write.aside then none else disk.content? location) ∨
    (¬ (write.nameFits = true ∧ disk.content? write.target ≠ some .folder) ∧
      ∃ error, disk.renameFile (temporaryPath processId path) path = .error error) := by
  obtain ⟨located, -, removed⟩ := removeFile_of_write ends isWrite found fits file
  obtain ⟨front', name, -, -, other, aside, -⟩ := Write.temporary_of ends isWrite found
  have target : write.target = write.folder ++ [last] := by
    rw [← isWrite, Write.target_of ends]
  have isRenamed := renameFile_of_ends ends located file
  have free : spotError? disk path front last = none ↔
      write.nameFits = true ∧ disk.content? write.target ≠ some .folder := by
    rw [spotError?_of_folderAt found, target, ← isWrite, Write.nameFits_of ends, and_assoc,
      and_assoc]
  cases denied : spotError? disk path front last with
  | some error =>
    refine .inr ⟨by simp [← free, denied], error, ?_⟩
    rw [isRenamed, denied]
  | none =>
    rw [denied] at isRenamed
    obtain ⟨-, notUp, -, notFolder⟩ := (spotError?_of_folderAt found).mp denied
    refine .inl ⟨(free.mp denied).1, (free.mp denied).2, _, isRenamed, rfl, fun location => ?_⟩
    have apart : write.folder ++ [last] ≠ write.folder ++ [name] := by simpa using other.symm
    have placed : Puts (disk.alter write.aside none)
        ((disk.alter write.aside none).alter (write.folder ++ [last]) (some (.file bytes)))
        (write.folder ++ [last]) (some (.file bytes)) := by
      refine puts_alter ?_ ?_ (isEntryName_of_ends ends notUp) (by simp)
      · rw [removed.content?, aside, if_neg (ne_inside_of_isPrefix (List.prefix_refl _) name),
          (Disk.folderAt_eq_ok_iff.mp found).2]
      · rwa [removed.content?, aside, if_neg apart]
    rw [Disk.place_of_folderAt ends notUp found, placed.content?, target, removed.content?]

end Moves

end ViewScript
