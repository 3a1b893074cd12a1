/-
  ViewScript/Proofs/Disk/Growth.lean
  ==================================
  **Disks that grow.**

  A disk *grows* if its folders stay folders and its files stay files, whatever is in
  them.  Following a path comes to the same on a disk that has grown, unless something was
  missing: a folder that was entered is still there, and so is a file that was in the way.

  This holds for all paths, relative ones and those with `..` among them.  Making folders
  makes a disk grow.  To make the same folders once more, on a disk that has grown since, is
  to do nothing and to end as before, as long as no `..` is on the way.
-/
import ViewScript.Proofs.Disk.Folders
import ViewScript.Proofs.Path.Endings

namespace ViewScript.Disk

open ViewScript.Path (namesIn isVoid cutAtSlashes trimEnd Ends Tidy)

/-! ### Following segments -/

section Following

variable {disk : Disk} {location : Location}

theorem follow_cons (disk : Disk) (location : Location) (segment : Text) (segments : List Text) :
    disk.follow location (segment :: segments) =
      match disk.content? location with
      | some .folder =>
        if nameLimit < segment.byteSize then .error .nameTooLong
        else disk.follow (step location segment) segments
      | some (.file _) => .error .notFolder
      | none => .error .notFound := by
  unfold content?
  simp only [follow]
  cases disk.root.get? location with
  | none => rfl
  | some entry => cases entry <;> rfl

/-- Follow segments to a folder. -/
def folderAt (disk : Disk) (location : Location) (segments : List Text) :
    Except FileError Location := do
  let reached ← disk.follow location segments
  match disk.content? reached with
  | some .folder => .ok reached
  | some (.file _) => .error .notFolder
  | none => .error .notFound

/-- The location that a path is about, whether it can be followed or not. -/
def place (disk : Disk) (path : Path) : Location :=
  (cutAtSlashes path.text).foldl step (disk.start path)

theorem follow_eq_foldl {segments : List Text} {reached : Location}
    (ok : disk.follow location segments = .ok reached) : reached = segments.foldl step location := by
  induction segments generalizing location with
  | nil =>
    cases ok
    rfl
  | cons segment segments ih =>
    rw [follow_cons] at ok
    split at ok
    next =>
      split at ok
      next => cases ok
      next => exact ih ok
    next => cases ok
    next => cases ok

theorem folderAt_eq_ok_iff {segments : List Text} {folder : Location} :
    disk.folderAt location segments = .ok folder ↔
      disk.follow location segments = .ok folder ∧ disk.content? folder = some .folder := by
  unfold folderAt
  cases disk.follow location segments with
  | error error => simp [bind, Except.bind]
  | ok reached =>
    simp only [bind, Except.bind, Except.ok.injEq]
    constructor
    · intro found
      split at found
      next isFolder =>
        cases found
        exact ⟨rfl, isFolder⟩
      next => cases found
      next => cases found
    · rintro ⟨rfl, isFolder⟩
      rw [isFolder]

theorem follow_concat_eq (location : Location) (segments : List Text) (last : Text) :
    disk.follow location (segments ++ [last]) =
      (disk.folderAt location segments >>= fun folder =>
        if nameLimit < last.byteSize then .error .nameTooLong else .ok (step folder last)) := by
  rw [follow_concat, folderAt]
  cases disk.follow location segments with
  | error error => rfl
  | ok reached =>
    simp only [bind, Except.bind, content?]
    cases disk.root.get? reached with
    | none => rfl
    | some entry => cases entry <;> rfl

theorem folderAt_concat (location : Location) (segments : List Text) (last : Text) :
    disk.folderAt location (segments ++ [last]) =
      (disk.folderAt location segments >>= fun folder =>
        if nameLimit < last.byteSize then .error .nameTooLong
        else match disk.content? (step folder last) with
          | some .folder => .ok (step folder last)
          | some (.file _) => .error .notFolder
          | none => .error .notFound) := by
  rw [folderAt, follow_concat_eq]
  cases disk.folderAt location segments with
  | error error => rfl
  | ok folder =>
    by_cases long : nameLimit < last.byteSize
    · simp [long, bind, Except.bind]
    · simp [long, bind, Except.bind]

theorem step_of_isVoid {segment : Text} (void : isVoid segment = true) (location : Location) :
    step location segment = location := by
  simp [step, void]

theorem step_of_solid {segment : Text} (solid : isVoid segment = false)
    (isName : segment ≠ ['.', '.']) (location : Location) :
    step location segment = location ++ [segment] := by
  simp [step, solid, isName]

/-- Segments without a component make no difference on a way to a folder. -/
theorem folderAt_namesIn (location : Location) (segments : List Text) :
    disk.folderAt location (namesIn segments) = disk.folderAt location segments := by
  induction segments using List.reverseRecOn with
  | nil => rfl
  | append_singleton segments last ih =>
    rw [Path.namesIn_append]
    cases void : isVoid last with
    | false => rw [Path.namesIn_singleton void, folderAt_concat, ih, folderAt_concat]
    | true =>
      have short : ¬ nameLimit < last.byteSize := by
        have isVoid : last = [] ∨ last = ['.'] := by simpa [isVoid] using void
        rcases isVoid with rfl | rfl <;> decide
      have nothing : namesIn [last] = [] := Path.namesIn_eq_nil (by simpa using void)
      rw [nothing, List.append_nil, ih, folderAt_concat]
      cases found : disk.folderAt location segments with
      | error error => rfl
      | ok folder =>
        have isFolder := (folderAt_eq_ok_iff.mp found).2
        simp [bind, Except.bind, short, step_of_isVoid void, isFolder]

theorem folderAt_congr {segments segments' : List Text}
    (same : trimEnd segments = trimEnd segments') :
    disk.folderAt location segments = disk.folderAt location segments' := by
  rw [← folderAt_namesIn, Path.namesIn_congr same, folderAt_namesIn]

/-- A way to a folder can be gone in two parts. -/
theorem folderAt_append (location : Location) (front back : List Text) :
    disk.folderAt location (front ++ back) =
      (disk.folderAt location front >>= fun folder => disk.folderAt folder back) := by
  induction back using List.reverseRecOn with
  | nil =>
    rw [List.append_nil]
    cases found : disk.folderAt location front with
    | error error => rfl
    | ok folder =>
      simp [folderAt, follow, bind, Except.bind, (folderAt_eq_ok_iff.mp found).2]
  | append_singleton back last ih =>
    rw [← List.append_assoc, folderAt_concat, ih, bind_assoc]
    simp only [folderAt_concat]

/-- Following segments without `..` to a folder is entering their names. -/
theorem folderAt_eq_enter {segments : List Text} (noUp : ['.', '.'] ∉ segments) :
    disk.folderAt location segments =
      (enter disk.content? location (namesIn segments) >>= fun _ =>
        .ok (location ++ namesIn segments)) := by
  rw [← follow_bind location noUp fun reached => .ok reached, folderAt]
  cases disk.follow location segments with
  | error error => rfl
  | ok reached =>
    simp only [bind, Except.bind, content?]
    cases disk.root.get? reached with
    | none => rfl
    | some entry => cases entry <;> rfl

/-- Without `..` what is missing on the way is missing at its end. -/
theorem content?_of_folderAt_eq_notFound {segments : List Text} (noUp : ['.', '.'] ∉ segments)
    (missing : disk.folderAt location segments = .error .notFound) :
    disk.content? (location ++ namesIn segments) = none := by
  rw [folderAt_eq_enter noUp] at missing
  cases entered : enter disk.content? location (namesIn segments) with
  | ok => simp [entered, bind, Except.bind] at missing
  | error error =>
    obtain rfl : error = .notFound := by simpa [entered, bind, Except.bind] using missing
    exact content?_of_enter_eq_notFound entered

theorem foldl_step {segments : List Text} (noUp : ['.', '.'] ∉ segments) (location : Location) :
    segments.foldl step location = location ++ namesIn segments := by
  induction segments generalizing location with
  | nil => simp [namesIn]
  | cons segment segments ih =>
    rw [List.mem_cons, not_or] at noUp
    rw [List.foldl_cons, ih noUp.2]
    cases void : isVoid segment with
    | true => simp [step_of_isVoid void, namesIn, void]
    | false => simp [step_of_solid void (Ne.symm noUp.1), namesIn, void]

theorem foldl_step_namesIn (location : Location) (segments : List Text) :
    (namesIn segments).foldl step location = segments.foldl step location := by
  induction segments generalizing location with
  | nil => rfl
  | cons segment segments ih =>
    cases void : isVoid segment with
    | true => simpa [namesIn, void, step_of_isVoid void] using ih location
    | false => simpa [namesIn, void] using ih (step location segment)

/-- The place of a path depends on its names and on where it starts. -/
theorem place_eq_foldl_names (disk : Disk) (path : Path) :
    disk.place path = path.names.foldl step (disk.start path) :=
  (foldl_step_namesIn _ _).symm

end Following

/-! ### Growing -/

/-- All folders are still folders. -/
structure KeepsFolders (before after : Disk) : Prop where
  workingFolder : after.workingFolder = before.workingFolder
  folder : ∀ {location}, before.content? location = some .folder →
    after.content? location = some .folder

namespace KeepsFolders

variable {before after later : Disk}

theorem refl (disk : Disk) : disk.KeepsFolders disk := ⟨rfl, id⟩

theorem trans (first : before.KeepsFolders after) (second : after.KeepsFolders later) :
    before.KeepsFolders later :=
  ⟨second.workingFolder.trans first.workingFolder, second.folder ∘ first.folder⟩

theorem start (keeps : before.KeepsFolders after) (path : Path) :
    after.start path = before.start path := by
  simp only [Disk.start, keeps.workingFolder]

theorem place (keeps : before.KeepsFolders after) (path : Path) :
    after.place path = before.place path := by
  simp only [Disk.place, keeps.start]

/-- A way that was followed needs nothing but the folders on it. -/
theorem followed (keeps : before.KeepsFolders after) {location reached : Location}
    {segments : List Text} (ok : before.follow location segments = .ok reached) :
    after.follow location segments = .ok reached := by
  induction segments generalizing location with
  | nil => exact ok
  | cons segment segments ih =>
    rw [follow_cons] at ok ⊢
    split at ok
    next isFolder =>
      rw [keeps.folder isFolder]
      split at ok
      next => cases ok
      next short =>
        simp only [short, if_false]
        exact ih ok
    next => cases ok
    next => cases ok

theorem located (keeps : before.KeepsFolders after) {path : Path} {location : Location}
    (ok : before.locate path = .ok location) : after.locate path = .ok location := by
  unfold Disk.locate at ok ⊢
  cases checked : checkPath path with
  | error error => simp [checked, bind, Except.bind] at ok
  | ok =>
    simp only [checked, bind, Except.bind] at ok ⊢
    rw [keeps.start]
    exact keeps.followed ok

end KeepsFolders

/-- All folders are still folders, and all files are still files. -/
structure Grows (before after : Disk) : Prop extends before.KeepsFolders after where
  file : ∀ {location bytes}, before.content? location = some (.file bytes) →
    ∃ bytes, after.content? location = some (.file bytes)

namespace Grows

variable {before after later : Disk}

theorem refl (disk : Disk) : disk.Grows disk := ⟨.refl disk, fun file => ⟨_, file⟩⟩

theorem trans (first : before.Grows after) (second : after.Grows later) : before.Grows later := by
  refine ⟨first.toKeepsFolders.trans second.toKeepsFolders, ?_⟩
  intro location bytes file
  obtain ⟨bytes, file⟩ := first.file file
  exact second.file file

variable {location : Location} {segments : List Text}

/-- A way that was followed, or not, for a reason that lasts is followed in the same way. -/
theorem follow (grows : before.Grows after)
    (lasts : before.follow location segments ≠ .error .notFound) :
    after.follow location segments = before.follow location segments := by
  induction segments generalizing location with
  | nil => rfl
  | cons segment segments ih =>
    rw [follow_cons] at lasts
    rw [follow_cons, follow_cons]
    cases found : before.content? location with
    | none => exact (lasts (by rw [found])).elim
    | some content =>
      rw [found] at lasts
      cases content with
      | file bytes =>
        obtain ⟨bytes, isFile⟩ := grows.file found
        rw [isFile]
      | folder =>
        rw [grows.folder found]
        by_cases long : nameLimit < segment.byteSize
        · simp [long]
        · simp only [long, if_false] at lasts ⊢
          exact ih lasts

theorem folderAt (grows : before.Grows after)
    (lasts : before.folderAt location segments ≠ .error .notFound) :
    after.folderAt location segments = before.folderAt location segments := by
  unfold Disk.folderAt at lasts ⊢
  have followed : before.follow location segments ≠ .error .notFound := by
    intro missing
    simp [missing, bind, Except.bind] at lasts
  rw [grows.follow followed]
  cases reached : before.follow location segments with
  | error error => rfl
  | ok folder =>
    simp only [reached, bind, Except.bind] at lasts ⊢
    cases found : before.content? folder with
    | none => simp [found] at lasts
    | some content =>
      cases content with
      | folder => rw [grows.folder found]
      | file bytes =>
        obtain ⟨bytes, isFile⟩ := grows.file found
        rw [isFile]

theorem locate (grows : before.Grows after) {path : Path}
    (lasts : before.locate path ≠ .error .notFound) : after.locate path = before.locate path := by
  unfold Disk.locate at lasts ⊢
  cases checked : checkPath path with
  | error error => rfl
  | ok =>
    simp only [checked, bind, Except.bind] at lasts ⊢
    rw [grows.start, grows.follow lasts]

end Grows

/-! ### Paths that end with a segment -/

/-- Check a path and go to the folder of its last segment. -/
def reach (disk : Disk) (path : Path) (front : List Text) : Except FileError Location := do
  checkPath path
  disk.folderAt (disk.start path) front

section Ends

variable {disk : Disk} {path : Path} {front : List Text} {last : Text}

theorem start_congr {other : Path} (same : other.isAbsolute = path.isAbsolute) (disk : Disk) :
    disk.start other = disk.start path := by
  simp only [start, same]

/-- A path starts where the paths above it start. -/
theorem start_of_isPrefix {shorter : Path} (written : shorter.text ≠ [])
    (isPrefix : shorter.text <+: path.text) (disk : Disk) :
    disk.start shorter = disk.start path :=
  start_congr (Path.isAbsolute_of_isPrefix written isPrefix) disk

theorem reach_of_checkPath (ok : checkPath path = .ok ()) (front : List Text) :
    disk.reach path front = disk.folderAt (disk.start path) front := by
  simp [reach, ok, bind, Except.bind]

theorem reach_congr {front' : List Text} (same : trimEnd front = trimEnd front') :
    disk.reach path front = disk.reach path front' := by
  simp only [reach, folderAt_congr same]

theorem Grows.reach {after : Disk} (grows : disk.Grows after)
    (lasts : disk.reach path front ≠ .error .notFound) :
    after.reach path front = disk.reach path front := by
  unfold Disk.reach at lasts ⊢
  cases checked : checkPath path with
  | error error => rfl
  | ok =>
    simp only [checked, bind, Except.bind] at lasts ⊢
    rw [grows.start, grows.folderAt lasts]

theorem reach_eq_ok_iff {folder : Location} :
    disk.reach path front = .ok folder ↔
      checkPath path = .ok () ∧ disk.folderAt (disk.start path) front = .ok folder := by
  unfold reach
  cases checkPath path <;> simp [bind, Except.bind]

theorem KeepsFolders.reached {after : Disk} (keeps : disk.KeepsFolders after) {folder : Location}
    (reached : disk.reach path front = .ok folder) : after.reach path front = .ok folder := by
  obtain ⟨checked, found⟩ := reach_eq_ok_iff.mp reached
  obtain ⟨followed, isFolder⟩ := folderAt_eq_ok_iff.mp found
  refine reach_eq_ok_iff.mpr ⟨checked, folderAt_eq_ok_iff.mpr ⟨?_, keeps.folder isFolder⟩⟩
  rw [keeps.start]
  exact keeps.followed followed

theorem content?_of_reach {folder : Location} (reached : disk.reach path front = .ok folder) :
    disk.content? folder = some .folder :=
  (folderAt_eq_ok_iff.mp (reach_eq_ok_iff.mp reached).2).2

theorem target_of_ends (ends : path.Ends front last) :
    disk.target path = (disk.reach path front >>= fun folder =>
      if last = ['.', '.'] then .ok .unnamed else .ok (.named folder last)) := by
  have notEmpty := ends.ne_nil
  have notDot : last ≠ ['.'] := by
    rintro rfl
    exact absurd ends.solid (by decide)
  have trimmed : ((cutAtSlashes path.text).reverse.dropWhile (· == [])).reverse =
      front ++ [last] := by
    simp [ends.cut, notEmpty]
  unfold target reach folderAt
  cases checkPath path with
  | error error => rfl
  | ok =>
    simp only [bind, Except.bind, trimmed, List.getLast?_concat, List.dropLast_concat]
    cases disk.follow (disk.start path) front with
    | error error => rfl
    | ok reached =>
      simp only [content?, notDot, false_or]
      cases disk.root.get? reached with
      | none => rfl
      | some entry => cases entry <;> rfl

theorem locate_of_ends (ends : path.Ends front last) (isName : last ≠ ['.', '.']) :
    disk.locate path = (disk.reach path front >>= fun folder =>
      if nameLimit < last.byteSize then .error .nameTooLong else .ok (folder ++ [last])) := by
  unfold locate reach
  cases checkPath path with
  | error error => rfl
  | ok =>
    simp only [bind, Except.bind, ends.cut]
    rw [follow_concat_eq]
    cases disk.folderAt (disk.start path) front with
    | error error => rfl
    | ok folder => simp only [bind, Except.bind, step_of_solid ends.solid isName]

theorem makeFolder_of_ends (ends : path.Ends front last) (isName : last ≠ ['.', '.']) :
    disk.makeFolder path = (disk.reach path front >>= fun folder =>
      if nameLimit < last.byteSize then .error .nameTooLong
      else match disk.content? (folder ++ [last]) with
        | some _ => .error .alreadyExists
        | none => .ok (disk.alter (folder ++ [last]) (some (.folder [])))) := by
  unfold makeFolder
  rw [target_of_ends ends]
  cases disk.reach path front with
  | error error => rfl
  | ok folder =>
    simp only [bind, Except.bind, isName, if_false, inFolder]
    by_cases long : nameLimit < last.byteSize
    · simp [long]
    · unfold content?
      cases disk.root.get? (folder ++ [last]) <;> simp [long]

/-- A path leads to a folder if its segments can be followed to one. -/
theorem isFolder_eq_true_iff :
    disk.isFolder path = true ↔
      ∃ folder, disk.reach path (cutAtSlashes path.text) = .ok folder := by
  unfold isFolder find locate reach folderAt
  cases checkPath path with
  | error error => simp [bind, Except.bind]
  | ok =>
    cases disk.follow (disk.start path) (cutAtSlashes path.text) with
    | error error => simp [bind, Except.bind]
    | ok reached =>
      simp only [bind, Except.bind, content?]
      cases disk.root.get? reached with
      | none => simp
      | some entry => cases entry <;> simp [Entry.isFolder, Entry.content]

theorem locate_eq_place {location : Location} (located : disk.locate path = .ok location) :
    location = disk.place path := by
  unfold locate at located
  cases checked : checkPath path with
  | error error => simp [checked, bind, Except.bind] at located
  | ok => exact follow_eq_foldl (by simpa [checked, bind, Except.bind] using located)

/-- Reading a file is going to its location and asking what stands there. -/
theorem readFile_eq_locate :
    disk.readFile path = (disk.locate path >>= fun location =>
      match disk.content? location with
      | some (.file bytes) => .ok bytes
      | some .folder => .error .isFolder
      | none => .error .notFound) := by
  unfold readFile find content?
  cases disk.locate path with
  | error error => rfl
  | ok location =>
    simp only [bind, Except.bind]
    cases disk.root.get? location with
    | none => rfl
    | some entry => cases entry <;> rfl

theorem readFile_eq_ok_iff {bytes : Bytes} :
    disk.readFile path = .ok bytes ↔
      ∃ location, disk.locate path = .ok location ∧
        disk.content? location = some (.file bytes) := by
  rw [readFile_eq_locate]
  cases disk.locate path with
  | error error => simp [bind, Except.bind]
  | ok location =>
    simp only [bind, Except.bind, Except.ok.injEq, exists_eq_left']
    split <;> simp_all

/-- A path that leads to a file has nothing after the name of the file. -/
theorem ends_of_readFile {bytes : Bytes} (read : disk.readFile path = .ok bytes) :
    ∃ front last, path.Ends front last ∧ last ≠ ['.', '.'] := by
  obtain ⟨location, located, file⟩ := readFile_eq_ok_iff.mp read
  have followed : disk.follow (disk.start path) (cutAtSlashes path.text) = .ok location := by
    unfold locate at located
    cases checked : checkPath path with
    | error error => simp [checked, bind, Except.bind] at located
    | ok => simpa [checked, bind, Except.bind] using located
  rcases List.eq_nil_or_concat (cutAtSlashes path.text) with none | ⟨front, last, cut⟩
  · exact (Path.cutAtSlashes_ne_nil _ none).elim
  rw [List.concat_eq_append] at cut
  rw [cut, follow_concat_eq] at followed
  cases found : disk.folderAt (disk.start path) front with
  | error error => simp [found, bind, Except.bind] at followed
  | ok folder =>
    have isFolder := (folderAt_eq_ok_iff.mp found).2
    simp only [found, bind, Except.bind] at followed
    split at followed
    next => cases followed
    next =>
      obtain rfl := Except.ok.inj followed
      -- Only a name leads from a folder to a file: dots lead to a folder.
      cases void : isVoid last with
      | true => simp [step_of_isVoid void, isFolder] at file
      | false =>
        refine ⟨front, last, ⟨cut, void⟩, ?_⟩
        rintro rfl
        rcases List.eq_nil_or_concat folder with rfl | ⟨above, name, rfl⟩
        · simp [step, void, isFolder] at file
        · rw [List.concat_eq_append] at *
          have up : step (above ++ [name]) ['.', '.'] = above := by simp [step, void]
          rw [up] at file
          have present : disk.content? (above ++ [name]) ≠ none := by simp [isFolder]
          have aboveFolder := content?_eq_folder_of_below present (by simp)
          simp [file] at aboveFolder

end Ends

end ViewScript.Disk
