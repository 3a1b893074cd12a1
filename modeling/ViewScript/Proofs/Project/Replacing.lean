/-
  ViewScript/Proofs/Project/Replacing.lean
  ========================================
  **Putting a file in the place of a file.**

  New contents go into a temporary file beside the file, and the temporary file then takes
  its place.  Both moves can fail, and what keeps a file from being at a spot is the same for
  both: there is no way to its folder, its name cannot be a name, or there is a folder.

  All this is for paths of every kind.  What happens is told by the places of the two paths
  and by what stands there, so that nothing has to be known about dots on the way.
-/
import ViewScript.Proofs.Disk.Making
import ViewScript.Project.Build

namespace ViewScript

open Disk (checkPath checkPath_ne_notFound nameLimit outcome IsFlat)

/-! ### Running on a machine -/

section Running

variable {ε α β : Type}

theorem run_bind (action : ExceptT ε (StateM Machine) α) (next : α → ExceptT ε (StateM Machine) β)
    (machine : Machine) :
    (action >>= next).run machine =
      match action.run machine with
      | (.ok value, after) => (next value).run after
      | (.error error, after) => (.error error, after) := by
  simp only [bind, ExceptT.bind, ExceptT.run, ExceptT.mk, StateT.bind]
  rcases action machine with ⟨result, after⟩
  cases result <;> rfl

theorem run_tryCatch (action : ExceptT ε (StateM Machine) α)
    (handler : ε → ExceptT ε (StateM Machine) α) (machine : Machine) :
    (tryCatch action handler).run machine =
      match action.run machine with
      | (.ok value, after) => (.ok value, after)
      | (.error error, after) => (handler error).run after := by
  simp only [tryCatch, tryCatchThe, MonadExceptOf.tryCatch, ExceptT.tryCatch, ExceptT.run,
    ExceptT.mk, bind, StateT.bind]
  rcases action machine with ⟨result, after⟩
  cases result <;> rfl

theorem run_mk_pure (result : Except ε α) (machine : Machine) :
    (ExceptT.mk (pure result) : ExceptT ε (StateM Machine) α).run machine = (result, machine) := rfl

theorem run_act (action : Disk → Except FileError Disk) (machine : Machine) :
    (ExceptT.mk (Machine.act action)).run machine =
      match action machine.disk with
      | .ok disk => (.ok (), { machine with disk })
      | .error error => (.error error, machine) := rfl

theorem run_lift_act (action : Disk → Except FileError Disk) (machine : Machine) :
    (ExceptT.lift (Machine.act action) :
        ExceptT FileError (StateM Machine) (Except FileError Unit)).run machine =
      match action machine.disk with
      | .ok disk => (.ok (.ok ()), { machine with disk })
      | .error error => (.ok (.error error), machine) := by
  simp only [ExceptT.run, ExceptT.lift, ExceptT.mk, Functor.map, StateT.map, Machine.act, bind,
    pure]
  cases action machine.disk <;> rfl

end Running

/-! ### The temporary file -/

/-- The name of the temporary file beside a file of the given name. -/
def temporaryName (processId : Nat) (name : Text) : Text :=
  "." ++ name ++ ".tmp." ++ Text.ofNat processId

theorem temporaryName_eq (processId : Nat) (name : Text) :
    temporaryName processId name =
      '.' :: (name ++ '.' :: 't' :: 'm' :: 'p' :: '.' :: Text.ofNat processId) := by
  have front : ("." : Text) = ['.'] := rfl
  have middle : (".tmp." : Text) = ['.', 't', 'm', 'p', '.'] := rfl
  simp [temporaryName, front, middle]

theorem splitName_temporaryName (processId : Nat) (name : Text) :
    Path.splitName (temporaryName processId name) =
      ('.' :: (name ++ ['.', 't', 'm', 'p']), some (Text.ofNat processId)) := by
  have noDot : '.' ∉ Text.ofNat processId := by
    intro member
    have digit := Nat.isDigit_of_mem_toDigits (by decide) (by decide) member
    exact absurd digit (by decide)
  have whole : temporaryName processId name =
      ('.' :: (name ++ ['.', 't', 'm', 'p'])) ++ '.' :: Text.ofNat processId := by
    simp [temporaryName_eq]
  rw [whole, Path.splitName_append (by simp) noDot]

theorem isName_temporaryName (processId : Nat) {name : Text} (slashFree : '/' ∉ name) :
    Path.IsName (temporaryName processId name) := by
  have inDigits : '/' ∉ Text.ofNat processId := by
    intro member
    have digit := Nat.isDigit_of_mem_toDigits (by decide) (by decide) member
    exact absurd digit (by decide)
  rw [temporaryName_eq]
  constructor
  · simp [slashFree, inDigits]
  · simp [Path.isVoid]
  · cases name <;> simp

theorem temporaryName_notUp (processId : Nat) (name : Text) :
    temporaryName processId name ≠ ['.', '.'] := by
  rw [temporaryName_eq]
  cases name <;> simp

/-- The temporary file is beside the file: the way to its folder is the same. -/
theorem temporaryPath_ends {path : Path} {front : List Text} {last : Text}
    (ends : path.Ends front last) (processId : Nat) :
    ∃ front', (temporaryPath processId path).Ends front'
        (temporaryName processId (path.fileName?.getD "file")) ∧
      Path.trimEnd front' = Path.trimEnd front ∧
      (temporaryPath processId path).isAbsolute = path.isAbsolute := by
  have slashFree : '/' ∉ path.fileName?.getD "file" := by
    rw [ends.fileName?]
    split
    · decide
    · exact ends.slashFree last (by simp)
  have isName := isName_temporaryName processId slashFree
  obtain ⟨parent, above, isPrefix, sameWay, shape⟩ := ends.parent?
  have joined : temporaryPath processId path =
      parent.join ⟨temporaryName processId (path.fileName?.getD "file")⟩ := by
    rw [temporaryPath, above]
    rfl
  rw [joined]
  generalize temporaryName processId (path.fileName?.getD "file") = name at isName ⊢
  have relative := Path.isAbsolute_eq_false isName.slashFree
  rcases shape with ⟨empty, rfl⟩ | ⟨written, tidy⟩
  · have alone : parent.join ⟨name⟩ = ⟨name⟩ := by simp [Path.join, relative, empty]
    rw [alone]
    exact ⟨[], ⟨Path.cutAtSlashes_of_notMem isName.slashFree, isName.solid⟩, rfl,
      relative.trans ends.isAbsolute_eq_false.symm⟩
  · obtain ⟨front', joins, same⟩ := tidy.join isName.slashFree isName.solid
    refine ⟨front', joins, same.trans sameWay, ?_⟩
    rw [Path.isAbsolute_join written relative, Path.isAbsolute_of_isPrefix written isPrefix]

theorem temporaryName_ne {path : Path} {front : List Text} {last : Text}
    (ends : path.Ends front last) (processId : Nat) :
    temporaryName processId (path.fileName?.getD "file") ≠ last := by
  intro same
  rw [ends.fileName?] at same
  split at same
  next dots => exact temporaryName_notUp _ _ (same.trans dots)
  next =>
    have longer := congrArg List.length same
    rw [temporaryName_eq] at longer
    simp at longer
    omega

/-! ### What keeps a file from a spot -/

/-- What keeps a file from being at a path. -/
def spotError? (disk : Disk) (path : Path) (front : List Text) (last : Text) : Option FileError :=
  match disk.reach path front with
  | .error error => some error
  | .ok folder =>
    if last = ['.', '.'] then some .busy
    else if nameLimit < last.byteSize then some .nameTooLong
    else if disk.content? (folder ++ [last]) = some .folder then some .isFolder
    else none

section Spot

variable {disk : Disk} {path : Path} {front : List Text} {last : Text}

theorem spotError?_eq_none_iff :
    spotError? disk path front last = none ↔
      ∃ folder, disk.reach path front = .ok folder ∧ last ≠ ['.', '.'] ∧
        ¬ nameLimit < last.byteSize ∧ disk.content? (folder ++ [last]) ≠ some .folder := by
  unfold spotError?
  cases disk.reach path front with
  | error error => simp
  | ok folder =>
    by_cases dots : last = ['.', '.']
    · simp [dots]
    by_cases long : nameLimit < last.byteSize
    · simp [dots, long]
    · simp [dots, long]

/-- There is no folder at a spot for a file. -/
theorem content?_of_spotError? {front' : List Text} (ends : path.Ends front' last)
    (sameWay : Path.trimEnd front' = Path.trimEnd front)
    (ok : spotError? disk path front last = none) :
    disk.content? (disk.place path) ≠ some .folder := by
  obtain ⟨folder, reached, isName, -, notFolder⟩ := spotError?_eq_none_iff.mp ok
  rw [Disk.reach_congr sameWay.symm] at reached
  rwa [Disk.place_of_reach ends isName reached]

/-- A change of what stands at one location. -/
structure Puts (before after : Disk) (location : Location) (content : Option Content) : Prop where
  workingFolder : after.workingFolder = before.workingFolder
  isWellFormed : before.IsWellFormed → after.IsWellFormed
  content? : ∀ other, after.content? other =
    if other = location then content else before.content? other

theorem puts_alter {folder : Location} {name : Text} {change : Option Entry}
    (isFolder : disk.content? folder = some .folder)
    (place : disk.content? (folder ++ [name]) ≠ some .folder) (isName : isEntryName name = true)
    (flat : ∀ entry ∈ change, ∃ bytes, entry = .file bytes) :
    Puts disk (disk.alter (folder ++ [name]) change) (folder ++ [name])
      (change.map Entry.content) := by
  have isFlat : IsFlat change := by
    cases change with
    | none => trivial
    | some entry =>
      obtain ⟨bytes, rfl⟩ := flat entry rfl
      trivial
  refine ⟨rfl, fun wellFormed => ?_, Disk.content?_alter isFlat isFolder place⟩
  refine wellFormed.alter isName fun entry member => ?_
  obtain ⟨bytes, rfl⟩ := flat entry member
  rfl

theorem isEntryName_of_ends (ends : path.Ends front last) (isName : last ≠ ['.', '.']) :
    isEntryName last = true := by
  refine isEntryName_iff.mpr ⟨ends.ne_nil, ends.slashFree last (by simp), ?_, isName⟩
  rintro rfl
  exact absurd ends.solid (by decide)

theorem createFile_of_ends (ends : path.Ends front last) (isName : last ≠ ['.', '.'])
    (bytes : Bytes) :
    disk.createFile path bytes =
      match spotError? disk path front last with
      | some error => .error error
      | none => .ok (disk.alter (disk.place path) (some (.file bytes))) := by
  have noSlash : Disk.hasTrailingSlash path = false := by
    simpa [Disk.hasTrailingSlash] using ends.getLast?_ne_slash
  unfold Disk.createFile spotError?
  rw [Disk.target_of_ends ends]
  cases reached : disk.reach path front with
  | error error => rfl
  | ok folder =>
    simp only [bind, Except.bind, isName, if_false, noSlash, Disk.inFolder,
      Disk.place_of_reach ends isName reached]
    by_cases long : nameLimit < last.byteSize
    · simp [long]
    · unfold Disk.content?
      cases found : disk.root.get? (folder ++ [last]) with
      | none => simp [long]
      | some entry => cases entry <;> simp [long, Entry.content]

theorem renameFile_of_ends {old : Path} {source : Location} {bytes : Bytes}
    (ends : path.Ends front last) (located : disk.locate old = .ok source)
    (file : disk.content? source = some (.file bytes)) :
    disk.renameFile old path =
      match spotError? disk path front last with
      | some error => .error error
      | none => .ok ((disk.alter source none).alter (disk.place path) (some (.file bytes))) := by
  have noSlash : Disk.hasTrailingSlash path = false := by
    simpa [Disk.hasTrailingSlash] using ends.getLast?_ne_slash
  unfold Disk.renameFile spotError?
  rw [Disk.target_of_ends ends, located]
  cases reached : disk.reach path front with
  | error error => rfl
  | ok folder =>
    by_cases dots : last = ['.', '.']
    · simp [dots, bind, Except.bind]
    simp only [bind, Except.bind, dots, if_false, noSlash, Disk.inFolder,
      Disk.content?_eq_file_iff.mp file, Disk.place_of_reach ends dots reached]
    by_cases long : nameLimit < last.byteSize
    · simp [long]
    · unfold Disk.content?
      cases found : disk.root.get? (folder ++ [last]) with
      | none => simp [long]
      | some entry => cases entry <;> simp [long, Entry.content]

theorem removeFile_of_locate {location : Location} {bytes : Bytes}
    (located : disk.locate path = .ok location)
    (file : disk.content? location = some (.file bytes)) :
    disk.removeFile path = .ok (disk.alter location none) := by
  simp [Disk.removeFile, located, Disk.content?_eq_file_iff.mp file, bind, Except.bind]

end Spot

/-! ### The two moves -/

theorem run_replaceFile (path : Path) (bytes : Bytes) (machine : Machine) :
    (replaceFile path bytes : ExceptT FileError (StateM Machine) Unit).run machine =
      match machine.disk.createFile (temporaryPath machine.processId path) bytes with
      | .error error => (.error error, machine)
      | .ok created =>
        match created.renameFile (temporaryPath machine.processId path) path with
        | .ok renamed => (.ok (), { machine with disk := renamed })
        | .error error =>
          match created.removeFile (temporaryPath machine.processId path) with
          | .ok removed => (.error error, { machine with disk := removed })
          | .error _ => (.error error, { machine with disk := created }) := by
  have run : (replaceFile path bytes : ExceptT FileError (StateM Machine) Unit).run machine =
      (do
        ExceptT.mk (Machine.act (·.createFile (temporaryPath machine.processId path) bytes))
        tryCatch
          (ExceptT.mk (Machine.act (·.renameFile (temporaryPath machine.processId path) path)))
          fun error => do
            let _ ← ExceptT.lift
              (Machine.act (·.removeFile (temporaryPath machine.processId path)))
            throw error : ExceptT FileError (StateM Machine) Unit).run machine := rfl
  rw [run]
  generalize temporaryPath machine.processId path = temporary
  rw [run_bind, run_act]
  cases machine.disk.createFile temporary bytes with
  | error error => rfl
  | ok created =>
    simp only [run_tryCatch, run_act]
    cases created.renameFile temporary path with
    | ok renamed => rfl
    | error error =>
      simp only [run_bind, run_lift_act]
      cases created.removeFile temporary <;> rfl

section Replacing

variable {path : Path} {front : List Text} {last : Text}

/-- A new file makes a disk grow. -/
theorem Puts.grows {before after : Disk} {location : Location} {bytes : Bytes}
    (puts : Puts before after location (some (.file bytes)))
    (place : before.content? location ≠ some .folder) : before.Grows after := by
  refine ⟨⟨puts.workingFolder, ?_⟩, ?_⟩
  · intro other isFolder
    rw [puts.content?, if_neg, isFolder]
    rintro rfl
    exact place isFolder
  · intro other bytes' file
    rw [puts.content?]
    split
    · exact ⟨bytes, rfl⟩
    · exact ⟨bytes', file⟩

/-- Of two changes at one location the second stays. -/
theorem Puts.again {before middle after : Disk} {location : Location}
    {content content' : Option Content} (first : Puts before middle location content)
    (second : Puts middle after location content') : Puts before after location content' := by
  refine ⟨second.workingFolder.trans first.workingFolder,
    second.isWellFormed ∘ first.isWellFormed, fun other => ?_⟩
  rw [second.content?]
  split
  · rfl
  next apart => rw [first.content?, if_neg apart]

/-- A new file can be found, and taken away again. -/
theorem puts_createFile {disk : Disk} (ends : path.Ends front last) (isName : last ≠ ['.', '.'])
    (free : spotError? disk path front last = none) (bytes : Bytes) :
    let created := disk.alter (disk.place path) (some (.file bytes))
    disk.createFile path bytes = .ok created ∧
      Puts disk created (disk.place path) (some (.file bytes)) ∧
      created.locate path = .ok (disk.place path) ∧
      created.removeFile path = .ok (created.alter (disk.place path) none) ∧
      Puts created (created.alter (disk.place path) none) (disk.place path) none := by
  intro created
  obtain ⟨folder, reached, -, short, notFolder⟩ := spotError?_eq_none_iff.mp free
  have isFolder := Disk.content?_of_reach reached
  have isEntryName := isEntryName_of_ends ends isName
  have place := Disk.place_of_reach ends isName reached
  have puts : Puts disk created (disk.place path) (some (.file bytes)) := by
    simp only [created, place]
    exact puts_alter isFolder notFolder isEntryName (by simp)
  have grows := puts.grows (by rwa [place])
  have file : created.content? (disk.place path) = some (.file bytes) := by
    rw [puts.content?, if_pos rfl]
  have located : created.locate path = .ok (disk.place path) := by
    rw [Disk.locate_of_ends ends isName, grows.reach (by simp [reached]), reached, place]
    simp [bind, Except.bind, short]
  refine ⟨?_, puts, located, removeFile_of_locate located file, ?_⟩
  · rw [createFile_of_ends ends isName, free]
  · rw [place] at file ⊢
    exact puts_alter (grows.folder isFolder) (by simp [file]) isEntryName (by simp)

/-- Where another file beside it was reached, only the path itself can be at fault. -/
theorem reach_of_beside {disk : Disk} {other : Path} {front' : List Text} {folder : Location}
    (sameWay : Path.trimEnd front' = Path.trimEnd front)
    (sameStart : other.isAbsolute = path.isAbsolute)
    (reached : disk.reach other front' = .ok folder) :
    disk.reach path front = (checkPath path >>= fun _ => .ok folder) := by
  have found := (Disk.reach_eq_ok_iff.mp reached).2
  rw [Disk.start_congr sameStart, Disk.folderAt_congr sameWay] at found
  rw [Disk.reach, found]

/-- A new file is not in the way of a file beside it. -/
theorem Puts.spotError?_beside {before after : Disk} {folder : Location} {name : Text}
    {bytes : Bytes} (puts : Puts before after (folder ++ [name]) (some (.file bytes)))
    (notFolder : before.content? (folder ++ [name]) ≠ some .folder) (ends : path.Ends front last)
    (reach : before.reach path front = (checkPath path >>= fun _ => .ok folder))
    (other : name ≠ last) :
    spotError? after path front last = spotError? before path front last := by
  have stays : after.reach path front = before.reach path front := by
    apply (puts.grows notFolder).reach
    rw [reach]
    cases checked : checkPath path with
    | ok => simp [bind, Except.bind]
    | error error =>
      have written := checkPath_ne_notFound ends.text_ne_nil
      simpa [checked, bind, Except.bind] using written
  have apart : folder ++ [last] ≠ folder ++ [name] := by simpa using other.symm
  unfold spotError?
  rw [stays, reach]
  cases checkPath path with
  | error error => rfl
  | ok => simp only [bind, Except.bind, puts.content?, if_neg apart]

/-- **A file in the place of a file, or an error.**  The temporary file is gone in the end,
    and all else is as before. -/
theorem replaceFile_of_ends (ends : path.Ends front last) (bytes : Bytes) (machine : Machine) :
    let temporary := temporaryPath machine.processId path
    let spot := spotError? machine.disk temporary front
      (temporaryName machine.processId (path.fileName?.getD "file"))
    let error? := spot <|> spotError? machine.disk path front last
    ∃ final : Disk,
      (replaceFile path bytes : ExceptT FileError (StateM Machine) Unit).run machine =
        (outcome error?, { machine with disk := final }) ∧
      final.workingFolder = machine.disk.workingFolder ∧
      (machine.disk.IsWellFormed → final.IsWellFormed) ∧
      ∀ location, final.content? location =
        if error? = none ∧ location = machine.disk.place path then some (.file bytes)
        else if spot = none ∧ location = machine.disk.place temporary then none
        else machine.disk.content? location := by
  obtain ⟨front', endsTemporary, sameWay, sameStart⟩ := temporaryPath_ends ends machine.processId
  have notUp := temporaryName_notUp machine.processId (path.fileName?.getD "file")
  have other := temporaryName_ne ends machine.processId
  rw [run_replaceFile]
  generalize temporaryPath machine.processId path = temporary at *
  generalize temporaryName machine.processId (path.fileName?.getD "file") = name at *
  obtain ⟨disk, input, processId, schedule, draws⟩ := machine
  have sameSpot : ∀ disk : Disk, spotError? disk temporary front' name =
      spotError? disk temporary front name := by
    intro disk
    simp only [spotError?, Disk.reach_congr sameWay]
  simp only [createFile_of_ends endsTemporary notUp, sameSpot]
  cases denied : spotError? disk temporary front name with
  | some error => exact ⟨disk, rfl, rfl, id, by simp⟩
  | none =>
    obtain ⟨folder, reached, -, -, notFolder⟩ := spotError?_eq_none_iff.mp denied
    have isFolder := Disk.content?_of_reach reached
    rw [Disk.reach_congr sameWay.symm] at reached
    have place := Disk.place_of_reach endsTemporary notUp reached
    obtain ⟨-, created, located, isRemoved, removed⟩ :=
      puts_createFile endsTemporary notUp ((sameSpot disk).trans denied) bytes
    simp only [place] at created located isRemoved removed ⊢
    generalize disk.alter (folder ++ [name]) (some (.file bytes)) = middle at *
    have grows := created.grows notFolder
    have file : middle.content? (folder ++ [name]) = some (.file bytes) := by
      rw [created.content?, if_pos rfl]
    have restored := created.again removed
    have reachPath : disk.reach path front = (checkPath path >>= fun _ => .ok folder) :=
      reach_of_beside sameWay sameStart reached
    have sameError := created.spotError?_beside notFolder ends reachPath other
    have apart : folder ++ [last] ≠ folder ++ [name] := by simpa using other.symm
    simp only [renameFile_of_ends ends located file, sameError, isRemoved]
    cases deniedPath : spotError? disk path front last with
    | some error =>
      refine ⟨_, rfl, restored.workingFolder, restored.isWellFormed, ?_⟩
      simpa using restored.content?
    | none =>
      obtain ⟨folder', reached', isName, -, notFolder'⟩ := spotError?_eq_none_iff.mp deniedPath
      obtain rfl : folder' = folder := by
        rw [reachPath] at reached'
        cases checked : checkPath path with
        | error error => simp [checked, bind, Except.bind] at reached'
        | ok => simpa [checked, bind, Except.bind] using reached'.symm
      have placed : Puts (middle.alter (folder' ++ [name]) none)
          ((middle.alter (folder' ++ [name]) none).alter (folder' ++ [last]) (some (.file bytes)))
          (folder' ++ [last]) (some (.file bytes)) := by
        refine puts_alter ?_ ?_ (isEntryName_of_ends ends isName) (by simp)
        · rw [restored.content?, if_neg (ne_inside_of_isPrefix (List.prefix_refl _) name), isFolder]
        · rwa [restored.content?, if_neg apart]
      have samePlace : middle.place path = disk.place path := grows.place path
      rw [samePlace, Disk.place_of_reach ends isName reached']
      refine ⟨_, rfl, placed.workingFolder.trans restored.workingFolder,
        placed.isWellFormed ∘ restored.isWellFormed, fun location => ?_⟩
      rw [placed.content?, restored.content?]
      simp

end Replacing

/-! ### Writing code -/

/-- Make the folders above a path. -/
def Disk.makeParents (disk : Disk) (path : Path) : Except FileError Unit × Disk :=
  match path.parent? with
  | some ⟨c :: cs⟩ => disk.makeFolders ⟨c :: cs⟩
  | _ => (.ok (), disk)

theorem Disk.makeParents_eq {disk : Disk} {path parent : Path} (above : path.parent? = some parent)
    (written : parent.text ≠ []) : disk.makeParents path = disk.makeFolders parent := by
  obtain ⟨text⟩ := parent
  obtain ⟨c, cs, rfl⟩ := List.exists_cons_of_ne_nil written
  simp only [Disk.makeParents, above]

theorem Disk.makeParents_eq_self {disk : Disk} {path parent : Path}
    (above : path.parent? = some parent) (empty : parent.text = []) :
    disk.makeParents path = (.ok (), disk) := by
  obtain ⟨text⟩ := parent
  obtain rfl : text = [] := empty
  simp only [Disk.makeParents, above]

/-- To write code is to make the folders above its file and to replace the file. -/
theorem run_writeOutput (path : Path) (code : Text) (machine : Machine) :
    (writeOutput path code : ExceptT Error (StateM Machine) Unit).run machine =
      match machine.disk.makeParents path with
      | (.error error, disk) => (.error (.write path error), { machine with disk })
      | (.ok (), disk) =>
        let (result, machine) := (replaceFile path (Utf8.encode code) :
          ExceptT FileError (StateM Machine) Unit).run { machine with disk }
        (result.mapError (.write path), machine) := by
  have makeFolders (parent : Path) : (attemptFile (.write path) (Host.makeFolders parent) :
      ExceptT Error (StateM Machine) Unit).run machine =
        ((machine.disk.makeFolders parent).1.mapError (.write path),
          { machine with disk := (machine.disk.makeFolders parent).2 }) := rfl
  unfold writeOutput Disk.makeParents
  rcases path.parent? with _ | ⟨_ | ⟨c, cs⟩⟩
  · rfl
  · rfl
  · rw [run_bind, makeFolders]
    dsimp only
    rcases machine.disk.makeFolders ⟨c :: cs⟩ with ⟨result, disk⟩
    cases result <;> rfl

end ViewScript
