/-
  ViewScript/Proofs/Disk/Folders.lean
  ===================================
  **Entering and making folders.**

  Every operation on a path first *enters* the folder of the path: it goes from the top
  from name to name, and there has to be a folder each time.  What an operation then does
  depends on what the folder holds under the last name.

  Making the folders of a path gets over what is missing.  It is stopped only by an
  *obstacle*, which is a file in the place of a folder or a name that is too long, and
  then it has made the folders before the obstacle.  Folders that others make meanwhile
  are no obstacles, and this is why it does not matter who makes a folder.
-/
import ViewScript.Proofs.Disk.Contents
import ViewScript.Proofs.Path.Names

namespace ViewScript.Disk

open ViewScript.Path (namesIn isVoid cutAtSlashes LeadsTo Reaches)

/-- Go from a folder to a folder below it. -/
def enter (contents : Location → Option Content) : Location → List Text → Except FileError Unit
  | location, [] =>
    match contents location with
    | some .folder => .ok ()
    | some (.file _) => .error .notFolder
    | none => .error .notFound
  | location, name :: names =>
    match contents location with
    | some .folder =>
      if nameLimit < name.byteSize then .error .nameTooLong
      else enter contents (location ++ [name]) names
    | some (.file _) => .error .notFolder
    | none => .error .notFound

/-- Check a path and enter its folder. -/
def access (disk : Disk) (path : Path) (folder : Location) : Except FileError Unit := do
  checkPath path
  enter disk.content? [] folder

def isFileAt (contents : Location → Option Content) (location : Location) : Bool :=
  match contents location with
  | some (.file _) => true
  | _ => false

/-- What keeps the names below a location from being folders. -/
def obstacle? (contents : Location → Option Content) : Location → List Text → Option FileError
  | _, [] => none
  | location, name :: names =>
    if nameLimit < name.byteSize then some .nameTooLong
    else if isFileAt contents (location ++ [name]) then
      some (if names = [] then .alreadyExists else .notFolder)
    else obstacle? contents (location ++ [name]) names

/-- A folder is made at a location: it is missing, on the way, and before every
    obstacle. -/
def IsMade (contents : Location → Option Content) (names location : Location) : Prop :=
  contents location = none ∧ location <+: names ∧ obstacle? contents [] location = none

instance (contents : Location → Option Content) (names location : Location) :
    Decidable (IsMade contents names location) :=
  inferInstanceAs (Decidable (_ ∧ _ ∧ _))

/-- The contents with the folders that are made. -/
def withFolders (contents : Location → Option Content) (names : Location) :
    Location → Option Content :=
  fun location => if IsMade contents names location then some .folder else contents location

/-- The result of an operation that meets an error or none. -/
def outcome {ε : Type} : Option ε → Except ε Unit
  | none => .ok ()
  | some error => .error error

/-! ### What entering and obstacles depend on -/

section Dependence

variable {first second : Location → Option Content}

theorem enter_congr {location : Location} {names : List Text}
    (agree : ∀ other, other <+: location ++ names → first other = second other) :
    enter first location names = enter second location names := by
  induction names generalizing location with
  | nil => simp only [enter, agree location (by simp)]
  | cons name names ih =>
    have deeper : ∀ other, other <+: location ++ [name] ++ names → first other = second other :=
      fun other isPrefix => agree other (by simpa using isPrefix)
    simp only [enter, agree location (List.prefix_append _ _), ih deeper]

theorem obstacle?_congr {location : Location} {names : List Text}
    (agree : ∀ other, other <+: location ++ names → isFileAt first other = isFileAt second other) :
    obstacle? first location names = obstacle? second location names := by
  induction names generalizing location with
  | nil => rfl
  | cons name names ih =>
    have deeper : ∀ other, other <+: location ++ [name] ++ names →
        isFileAt first other = isFileAt second other :=
      fun other isPrefix => agree other (by simpa using isPrefix)
    simp only [obstacle?, deeper _ (List.prefix_append _ _), ih deeper]

end Dependence

section Obstacles

variable {contents : Location → Option Content} {location : Location}

theorem isFileAt_withFolders (names other : Location) :
    isFileAt (withFolders contents names) other = isFileAt contents other := by
  unfold isFileAt withFolders
  by_cases made : IsMade contents names other
  · simp [made, made.1]
  · simp [made]

/-- One more name is one more chance of an obstacle.  Below the folders themselves a file
    in their place has another error. -/
theorem obstacle?_append (names : List Text) (name : Text) :
    obstacle? contents location (names ++ [name]) =
      match obstacle? contents location names with
      | some error => some (if error = .alreadyExists then .notFolder else error)
      | none =>
        if nameLimit < name.byteSize then some .nameTooLong
        else if isFileAt contents (location ++ names ++ [name]) then some .alreadyExists
        else none := by
  induction names generalizing location with
  | nil => simp [obstacle?]
  | cons next names ih =>
    simp only [List.cons_append, obstacle?]
    split
    · rfl
    split
    · by_cases last : names = [] <;> simp [last]
    · simp only [ih, List.append_assoc, List.singleton_append]

theorem isFileAt_of_obstacle? {names : List Text}
    (obstacle : obstacle? contents location names = some .alreadyExists) :
    isFileAt contents (location ++ names) = true := by
  induction names generalizing location with
  | nil => cases obstacle
  | cons name names ih =>
    simp only [obstacle?] at obstacle
    split at obstacle
    · cases obstacle
    split at obstacle
    next file =>
      by_cases last : names = []
      · simpa [last] using file
      · simp [last] at obstacle
    next => simpa using ih obstacle

/-- No obstacle on the whole way is none on a part of it. -/
theorem obstacle?_of_append {front back : List Text}
    (clear : obstacle? contents location (front ++ back) = none) :
    obstacle? contents location front = none := by
  induction back using List.reverseRecOn with
  | nil => simpa using clear
  | append_singleton back last ih =>
    rw [← List.append_assoc, obstacle?_append] at clear
    cases clearer : obstacle? contents location (front ++ back) with
    | none => exact ih clearer
    | some error => simp [clearer] at clear

theorem isFileAt_eq_false_of_obstacle? {names : List Text} {name : Text}
    (clear : obstacle? contents location (names ++ [name]) = none) :
    isFileAt contents (location ++ names ++ [name]) = false := by
  have clearer := obstacle?_of_append clear
  rw [obstacle?_append, clearer] at clear
  by_cases long : nameLimit < name.byteSize
  · simp [long] at clear
  · simpa [long] using clear

/-- Above a way without an obstacle there is no file. -/
theorem isFileAt_eq_false_of_isPrefix {names : Location} (top : contents [] = some .folder)
    (clear : obstacle? contents [] names = none) {other : Location} (isPrefix : other <+: names) :
    isFileAt contents other = false := by
  obtain ⟨back, rfl⟩ := isPrefix
  rcases List.eq_nil_or_concat other with rfl | ⟨front, last, rfl⟩
  · simp [isFileAt, top]
  · rw [List.concat_eq_append] at clear ⊢
    exact isFileAt_eq_false_of_obstacle? (obstacle?_of_append clear)

theorem isFileAt_eq_false_of_none {other : Location} (missing : contents other = none) :
    isFileAt contents other = false := by
  simp [isFileAt, missing]

theorem isFileAt_iff {other : Location} :
    isFileAt contents other = true ↔ ∃ bytes, contents other = some (.file bytes) := by
  unfold isFileAt
  split
  next bytes file => simp [file]
  next noFile => simpa using noFile

theorem eq_none_of_isFileAt {other : Location} (noFile : isFileAt contents other = false)
    (noFolder : contents other ≠ some .folder) : contents other = none := by
  cases found : contents other with
  | none => rfl
  | some content =>
    cases content with
    | folder => exact (noFolder found).elim
    | file bytes => simp [isFileAt, found] at noFile

end Obstacles

/-! ### How entering ends -/

section Entering

variable {contents : Location → Option Content} {location : Location} {names : List Text}
  {error : FileError}

theorem enter_of_file {bytes : Bytes} (file : contents location = some (.file bytes))
    (names : List Text) : enter contents location names = .error .notFolder := by
  cases names <;> simp [enter, file]

theorem enter_of_none (missing : contents location = none) (names : List Text) :
    enter contents location names = .error .notFound := by
  cases names <;> simp [enter, missing]

theorem enter_cons (isFolder : contents location = some .folder) (name : Text)
    (names : List Text) :
    enter contents location (name :: names) =
      if nameLimit < name.byteSize then .error .nameTooLong
      else enter contents (location ++ [name]) names := by
  simp [enter, isFolder]

theorem obstacle?_cons_of_folder {name : Text} (short : ¬ nameLimit < name.byteSize)
    (isFolder : contents (location ++ [name]) = some .folder) (names : List Text) :
    obstacle? contents location (name :: names) =
      obstacle? contents (location ++ [name]) names := by
  simp [obstacle?, short, isFileAt, isFolder]

/-- Folders that can be entered are there. -/
theorem of_enter_eq_ok (isFolder : contents location = some .folder)
    (entered : enter contents location names = .ok ()) :
    obstacle? contents location names = none ∧ contents (location ++ names) = some .folder := by
  induction names generalizing location with
  | nil => exact ⟨rfl, by simpa using isFolder⟩
  | cons name names ih =>
    rw [enter_cons isFolder] at entered
    split at entered
    next => cases entered
    next short =>
      cases found : contents (location ++ [name]) with
      | none => simp [enter_of_none found] at entered
      | some content =>
        cases content with
        | file bytes => simp [enter_of_file found] at entered
        | folder =>
          rw [obstacle?_cons_of_folder short found]
          simpa using ih found entered

/-- Folders that stand and have no obstacle before them can be entered. -/
theorem enter_eq_ok (standing : ∀ other, location <+: other → other <+: location ++ names →
      contents other = some .folder)
    (clear : obstacle? contents location names = none) :
    enter contents location names = .ok () := by
  induction names generalizing location with
  | nil => simp [enter, standing location (List.prefix_refl _) (by simp)]
  | cons name names ih =>
    have isFolder := standing location (List.prefix_refl _) (List.prefix_append _ _)
    have next := standing (location ++ [name]) (List.prefix_append _ _)
      ⟨names, by simp⟩
    have short : ¬ nameLimit < name.byteSize := by
      intro long
      simp [obstacle?, long] at clear
    rw [obstacle?_cons_of_folder short next] at clear
    rw [enter_cons isFolder, if_neg short]
    refine ih (fun other above below => ?_) clear
    exact standing other ((List.prefix_append _ _).trans above) (by simpa using below)

/-- Whoever fails to enter for another reason than that something is missing has met an
    obstacle for all that is further down. -/
theorem obstacle?_of_enter_eq_error (isFolder : contents location = some .folder)
    (entered : enter contents location names = .error error) (other : error ≠ .notFound)
    (name : Text) : obstacle? contents location (names ++ [name]) = some error := by
  induction names generalizing location with
  | nil => simp [enter, isFolder] at entered
  | cons next names ih =>
    rw [enter_cons isFolder] at entered
    split at entered
    next long =>
      cases entered
      simp [obstacle?, long]
    next short =>
      cases found : contents (location ++ [next]) with
      | none =>
        rw [enter_of_none found] at entered
        cases entered
        exact (other rfl).elim
      | some content =>
        cases content with
        | file bytes =>
          rw [enter_of_file found] at entered
          cases entered
          simp [obstacle?, short, isFileAt, found]
        | folder =>
          rw [List.cons_append, obstacle?_cons_of_folder short found]
          exact ih found entered

/-- All that stands before such an obstacle is there. -/
theorem obstacle?_ne_none_of_missing (isFolder : contents location = some .folder)
    (entered : enter contents location names = .error error) (other : error ≠ .notFound)
    {name : Text} {front : Location} (isPrefix : front <+: names ++ [name])
    (missing : contents (location ++ front) = none) :
    obstacle? contents location front ≠ none := by
  induction front generalizing location names with
  | nil => simp [isFolder] at missing
  | cons next front ih =>
    by_cases long : nameLimit < next.byteSize
    · simp [obstacle?, long]
    by_cases file : isFileAt contents (location ++ [next]) = true
    · simp [obstacle?, long, file]
    cases names with
    | nil => simp [enter, isFolder] at entered
    | cons head names =>
      obtain ⟨rfl, deeper⟩ := List.cons_prefix_cons.mp isPrefix
      rw [enter_cons isFolder, if_neg long] at entered
      cases found : contents (location ++ [next]) with
      | none =>
        rw [enter_of_none found] at entered
        cases entered
        exact (other rfl).elim
      | some content =>
        cases content with
        | file bytes => simp [isFileAt, found] at file
        | folder =>
          rw [obstacle?_cons_of_folder long found]
          exact ih found entered deeper (by simpa using missing)

end Entering

/-- What is missing on the way is missing at the end. -/
theorem content?_of_enter_eq_notFound {disk : Disk} {location : Location} {names : List Text}
    (entered : enter disk.content? location names = .error .notFound) :
    disk.content? (location ++ names) = none := by
  induction names generalizing location with
  | nil =>
    simp only [enter] at entered
    split at entered <;> simp_all
  | cons name names ih =>
    cases found : disk.content? location with
    | none =>
      by_contra present
      have isFolder := content?_eq_folder_of_below present (List.cons_ne_nil name names)
      simp [found] at isFolder
    | some content =>
      cases content with
      | file bytes => simp [enter_of_file found] at entered
      | folder =>
        rw [enter_cons found] at entered
        split at entered
        next => cases entered
        next => simpa using ih entered

/-! ### The folder of a path -/

section Access

variable {disk : Disk} {path : Path} {folder : Location} {last : Text}

/-- Following segments to a folder is entering their names. -/
theorem follow_bind {α : Type} (location : Location) {segments : List Text}
    (noUp : ['.', '.'] ∉ segments) (next : Location → Except FileError α) :
    (disk.follow location segments >>= fun reached =>
      match disk.root.get? reached with
      | some (.folder _) => next reached
      | some (.file _) => .error .notFolder
      | none => .error .notFound) =
    (enter disk.content? location (namesIn segments) >>= fun _ =>
      next (location ++ namesIn segments)) := by
  induction segments generalizing location with
  | nil =>
    cases found : disk.root.get? location with
    | none => simp [follow, found, enter, content?, namesIn, bind, Except.bind]
    | some entry =>
      cases entry <;>
        simp [follow, found, enter, content?, Entry.content, namesIn, bind, Except.bind]
  | cons segment segments ih =>
    rw [List.mem_cons, not_or] at noUp
    cases found : disk.root.get? location with
    | none =>
      have missing : disk.content? location = none := by simp [content?, found]
      simp [follow, found, enter_of_none missing, bind, Except.bind]
    | some entry =>
      cases entry with
      | file bytes =>
        have file : disk.content? location = some (.file bytes) := by
          simp [content?, found, Entry.content]
        simp [follow, found, enter_of_file file, bind, Except.bind]
      | folder entries =>
        have isFolder : disk.content? location = some .folder := by
          simp [content?, found, Entry.content]
        cases void : isVoid segment with
        | true =>
          have short : ¬ nameLimit < segment.byteSize := by
            have isVoid : segment = [] ∨ segment = ['.'] := by simpa [isVoid] using void
            rcases isVoid with rfl | rfl <;> decide
          have named : namesIn (segment :: segments) = namesIn segments := by
            simp [namesIn, void]
          rw [named, ← ih location noUp.2]
          simp [follow, found, short, step, void]
        | false =>
          have named : namesIn (segment :: segments) = segment :: namesIn segments := by
            simp [namesIn, void]
          rw [named, enter_cons isFolder]
          by_cases long : nameLimit < segment.byteSize
          · simp [follow, found, long, bind, Except.bind]
          · have deeper := ih (location ++ [segment]) noUp.2
            simp only [List.append_assoc, List.singleton_append] at deeper
            simp [follow, found, long, step, void, Ne.symm noUp.1, deeper]

theorem follow_concat (location : Location) (segments : List Text) (last : Text) :
    disk.follow location (segments ++ [last]) =
      (disk.follow location segments >>= fun reached =>
        match disk.root.get? reached with
        | some (.folder _) =>
          if nameLimit < last.byteSize then .error .nameTooLong else .ok (step reached last)
        | some (.file _) => .error .notFolder
        | none => .error .notFound) := by
  induction segments generalizing location with
  | nil => rfl
  | cons segment segments ih =>
    simp only [List.cons_append, follow]
    split
    · split
      · rfl
      · exact ih _
    · rfl
    · rfl

/-- The target of a path is its last name in its folder. -/
theorem target_of_leadsTo (leads : path.LeadsTo folder last) :
    disk.target path = (disk.access path folder >>= fun _ =>
      if last = ['.', '.'] then .ok .unnamed else .ok (.named folder last)) := by
  obtain ⟨segments, cut, rfl, noUp, solid⟩ := leads
  have absolute : disk.start path = [] := by
    simp [start, Path.isAbsolute_of_cut (by simp) cut]
  have notEmpty : last ≠ [] := by
    rintro rfl
    simp [isVoid] at solid
  have notDot : last ≠ ['.'] := by
    rintro rfl
    simp [isVoid] at solid
  have trimmed : ((cutAtSlashes path.text).reverse.dropWhile (· == [])).reverse =
      ([] :: segments) ++ [last] := by
    simp [cut, notEmpty]
  have noUp : ['.', '.'] ∉ [] :: segments := by simpa using noUp
  unfold target access
  cases checkPath path with
  | error error => rfl
  | ok =>
    simp only [bind, Except.bind, trimmed, List.getLast?_concat, List.dropLast_concat, absolute]
    refine (follow_bind [] noUp fun reached =>
      if last = ['.'] ∨ last = ['.', '.'] then .ok Target.unnamed
      else .ok (.named reached last)).trans ?_
    simp [notDot, bind, Except.bind]

/-- A path leads to its last name in its folder, whether something stands there or not. -/
theorem locate_of_leadsTo (leads : path.LeadsTo folder last) (isName : last ≠ ['.', '.']) :
    disk.locate path = (disk.access path folder >>= fun _ =>
      if nameLimit < last.byteSize then .error .nameTooLong else .ok (folder ++ [last])) := by
  obtain ⟨segments, cut, rfl, noUp, solid⟩ := leads
  have absolute : disk.start path = [] := by
    simp [start, Path.isAbsolute_of_cut (by simp) cut]
  have noUp : ['.', '.'] ∉ [] :: segments := by simpa using noUp
  unfold locate access
  cases checkPath path with
  | error error => rfl
  | ok =>
    simp only [bind, Except.bind, cut, absolute]
    rw [← List.cons_append, follow_concat]
    refine (follow_bind [] noUp fun reached =>
      if nameLimit < last.byteSize then .error .nameTooLong else .ok (step reached last)).trans ?_
    simp [step, solid, isName, bind, Except.bind]

/-- What a path leads to. -/
theorem find_of_leadsTo (leads : path.LeadsTo folder last) (isName : last ≠ ['.', '.']) :
    disk.find path = (disk.access path folder >>= fun _ =>
      if nameLimit < last.byteSize then .error .nameTooLong
      else match disk.root.get? (folder ++ [last]) with
        | some entry => .ok entry
        | none => .error .notFound) := by
  unfold find
  rw [locate_of_leadsTo leads isName]
  cases disk.access path folder with
  | error error => rfl
  | ok =>
    by_cases long : nameLimit < last.byteSize
    · simp [long, bind, Except.bind]
    · cases found : disk.root.get? (folder ++ [last]) <;> simp [found, long, bind, Except.bind]

theorem isFolder_of_access_eq_error {error : FileError} (leads : path.LeadsTo folder last)
    (isName : last ≠ ['.', '.']) (denied : disk.access path folder = .error error) :
    disk.isFolder path = false := by
  simp [isFolder, find_of_leadsTo leads isName, denied, bind, Except.bind]

theorem isFolder_of_access (leads : path.LeadsTo folder last) (isName : last ≠ ['.', '.'])
    (entered : disk.access path folder = .ok ()) :
    disk.isFolder path =
      (!decide (nameLimit < last.byteSize) &&
        disk.content? (folder ++ [last]) == some .folder) := by
  unfold isFolder content?
  rw [find_of_leadsTo leads isName, entered]
  by_cases long : nameLimit < last.byteSize
  · simp [long, bind, Except.bind]
  cases disk.root.get? (folder ++ [last]) with
  | none => simp [long, bind, Except.bind]
  | some entry => cases entry <;> simp [long, bind, Except.bind, Entry.content, Entry.isFolder]

/-- Reading a file asks for what stands under its name. -/
theorem readFile_of_leadsTo (leads : path.LeadsTo folder last) (isName : last ≠ ['.', '.']) :
    disk.readFile path = (disk.access path folder >>= fun _ =>
      if nameLimit < last.byteSize then .error .nameTooLong
      else match disk.content? (folder ++ [last]) with
        | some (.file bytes) => .ok bytes
        | some .folder => .error .isFolder
        | none => .error .notFound) := by
  unfold readFile
  rw [find_of_leadsTo leads isName]
  cases disk.access path folder with
  | error error => rfl
  | ok =>
    by_cases long : nameLimit < last.byteSize
    · simp [long, bind, Except.bind]
    · unfold content?
      cases disk.root.get? (folder ++ [last]) with
      | none => simp [long, bind, Except.bind]
      | some entry => cases entry <;> simp [long, Entry.content, bind, Except.bind]

/-- Reading depends on what stands on the way and at its end. -/
theorem readFile_congr {other : Disk} (leads : path.LeadsTo folder last)
    (isName : last ≠ ['.', '.'])
    (agree : ∀ location, location <+: folder ++ [last] →
      disk.content? location = other.content? location) :
    disk.readFile path = other.readFile path := by
  have entered : disk.access path folder = other.access path folder := by
    have agree : ∀ location, location <+: [] ++ folder →
        disk.content? location = other.content? location :=
      fun location isPrefix => agree location (isPrefix.trans (List.prefix_append _ _))
    unfold access
    rw [enter_congr agree]
  rw [readFile_of_leadsTo leads isName, readFile_of_leadsTo leads isName, entered,
    agree _ (List.prefix_refl _)]

end Access

/-! ### What stands at the end of a plain path -/

section Plain

variable {disk : Disk} {path : Path} {entry : Entry}

end Plain

/-! ### Making folders -/

section Making

variable {disk : Disk} {path : Path} {folder : Location} {name : Text}

theorem makeFolder_of_leadsTo (leads : path.LeadsTo folder name) (isName : name ≠ ['.', '.']) :
    disk.makeFolder path = (disk.access path folder >>= fun _ =>
      if nameLimit < name.byteSize then .error .nameTooLong
      else match disk.content? (folder ++ [name]) with
        | some _ => .error .alreadyExists
        | none => .ok (disk.alter (folder ++ [name]) (some (.folder [])))) := by
  unfold makeFolder
  rw [target_of_leadsTo leads]
  cases disk.access path folder with
  | error error => rfl
  | ok =>
    simp only [bind, Except.bind, isName, if_false, inFolder]
    by_cases long : nameLimit < name.byteSize
    · simp [long]
    · unfold content?
      cases disk.root.get? (folder ++ [name]) <;> simp [long]

theorem checkPath_eq_ok_iff :
    checkPath path = .ok () ↔
      '\x00' ∉ path.text ∧ path.text.byteSize < Path.sizeLimit ∧ path.text ≠ [] := by
  unfold checkPath Path.isTooLong
  by_cases nul : '\x00' ∈ path.text
  · simp [nul]
  by_cases long : Path.sizeLimit ≤ path.text.byteSize
  · simp [nul, long, Nat.not_lt.mpr long]
  by_cases empty : path.text = []
  · simp [empty, Path.sizeLimit]
  · simp [nul, long, empty, Nat.not_le.mp long]

theorem checkPath_of_isPrefix {shorter : Path} (written : shorter.text ≠ [])
    (isPrefix : shorter.text <+: path.text) (ok : checkPath path = .ok ()) :
    checkPath shorter = .ok () := by
  rw [checkPath_eq_ok_iff] at ok ⊢
  obtain ⟨noNul, fits, -⟩ := ok
  obtain ⟨back, whole⟩ := isPrefix
  rw [← whole] at noNul fits
  rw [Text.byteSize_append] at fits
  exact ⟨fun nul => noNul (List.mem_append_left back nul), by omega, written⟩

theorem checkPath_ne_notFound (written : path.text ≠ []) : checkPath path ≠ .error .notFound := by
  unfold checkPath
  split_ifs <;> simp

/-! ### The folders that are made -/

theorem withFolders_concat (contents : Location → Option Content) (folder : Location)
    (name : Text) (location : Location) :
    withFolders contents (folder ++ [name]) location =
      if location = folder ++ [name] ∧ contents (folder ++ [name]) = none ∧
          obstacle? contents [] (folder ++ [name]) = none then some .folder
      else withFolders contents folder location := by
  have concat : IsMade contents (folder ++ [name]) location ↔
      (location = folder ++ [name] ∧ contents (folder ++ [name]) = none ∧
        obstacle? contents [] (folder ++ [name]) = none) ∨ IsMade contents folder location := by
    unfold IsMade
    rw [List.prefix_concat_iff]
    constructor
    · rintro ⟨missing, rfl | isPrefix, clear⟩
      · exact .inl ⟨rfl, missing, clear⟩
      · exact .inr ⟨missing, isPrefix, clear⟩
    · rintro (⟨rfl, missing, clear⟩ | ⟨missing, isPrefix, clear⟩)
      · exact ⟨missing, .inl rfl, clear⟩
      · exact ⟨missing, .inr isPrefix, clear⟩
  unfold withFolders
  simp only [concat]
  split_ifs <;> simp_all

theorem withFolders_of_standing (isFolder : disk.content? folder = some .folder) :
    withFolders disk.content? folder = disk.content? := by
  funext location
  refine if_neg ?_
  rintro ⟨missing, isPrefix, -⟩
  have present : disk.content? folder ≠ none := by simp [isFolder]
  by_cases same : location = folder
  · exact present (same ▸ missing)
  · have standing := content?_of_isPrefix isPrefix same present
    simp [missing] at standing

/-- Where there is no obstacle all folders stand in the end. -/
theorem withFolders_eq_folder (top : disk.content? [] = some .folder)
    (clear : obstacle? disk.content? [] folder = none) {location : Location}
    (isPrefix : location <+: folder) :
    withFolders disk.content? folder location = some .folder := by
  obtain ⟨back, rfl⟩ := isPrefix
  have clearHere := obstacle?_of_append clear
  unfold withFolders
  cases found : disk.content? location with
  | none => exact if_pos ⟨found, List.prefix_append _ _, clearHere⟩
  | some content =>
    have standing : ¬ IsMade disk.content? (location ++ back) location := by
      simp [IsMade, found]
    have noFile := isFileAt_eq_false_of_isPrefix top clear (List.prefix_append location back)
    rw [if_neg standing]
    cases content with
    | folder => rfl
    | file bytes => simp [isFileAt, found] at noFile

/-- The folders that were made can be entered. -/
theorem enter_withFolders (top : disk.content? [] = some .folder)
    (clear : obstacle? disk.content? [] folder = none) :
    enter (withFolders disk.content? folder) [] folder = .ok () := by
  refine enter_eq_ok (fun location _ below => withFolders_eq_folder top clear below) ?_
  rw [← clear]
  exact obstacle?_congr fun location _ => isFileAt_withFolders folder location

/-- What is in the folders stays. -/
theorem withFolders_inside (contents : Location → Option Content) (folder : Location)
    (name : Text) : withFolders contents folder (folder ++ [name]) = contents (folder ++ [name]) :=
  if_neg fun made => ne_inside_of_isPrefix made.2.1 name rfl

/-- Nothing is made where entering stopped at an obstacle. -/
theorem withFolders_of_enter_eq_error {error : FileError} (top : disk.content? [] = some .folder)
    (entered : enter disk.content? [] folder = .error error) (other : error ≠ .notFound) :
    withFolders disk.content? (folder ++ [name]) = disk.content? := by
  funext location
  refine if_neg fun made => ?_
  exact obstacle?_ne_none_of_missing top entered other made.2.1 made.1 made.2.2

/-! ### Making one folder after the other -/

/-- Make a folder unless it is there. -/
def settle (disk : Disk) (path : Path) : Except FileError Unit × Disk :=
  match disk.makeFolder path with
  | .ok disk => (.ok (), disk)
  | .error error => (if disk.isFolder path then .ok () else .error error, disk)

theorem content?_of_access (top : disk.content? [] = some .folder)
    (entered : disk.access path folder = .ok ()) : disk.content? folder = some .folder := by
  unfold access at entered
  cases checked : checkPath path with
  | error error => simp [checked, bind, Except.bind] at entered
  | ok =>
    simp only [checked, bind, Except.bind] at entered
    simpa using (of_enter_eq_ok top entered).2

/-- With the folders above it made, a folder is made unless there is an obstacle. -/
theorem settle_of_access {contents : Location → Option Content}
    (top : disk.content? [] = some .folder) (leads : path.LeadsTo folder name)
    (isName : name ≠ ['.', '.']) (entered : disk.access path folder = .ok ())
    (same : disk.content? = withFolders contents folder)
    (clear : obstacle? contents [] folder = none) :
    ∃ made, disk.settle path = (outcome (obstacle? contents [] (folder ++ [name])), made) ∧
      made.content? = withFolders contents (folder ++ [name]) := by
  have place : disk.content? (folder ++ [name]) = contents (folder ++ [name]) := by
    rw [same, withFolders_inside]
  have isFolder := isFolder_of_access leads isName entered
  rw [obstacle?_append, clear, List.nil_append]
  unfold settle
  rw [makeFolder_of_leadsTo leads isName, entered, isFolder, place]
  have unchanged (reason : contents (folder ++ [name]) ≠ none ∨
      obstacle? contents [] (folder ++ [name]) ≠ none) :
      disk.content? = withFolders contents (folder ++ [name]) := by
    funext location
    rw [withFolders_concat, ← same, if_neg]
    rintro ⟨-, missing, clear⟩
    exact reason.elim (· missing) (· clear)
  by_cases long : nameLimit < name.byteSize
  · refine ⟨disk, by simp [long, bind, Except.bind, outcome], unchanged (.inr ?_)⟩
    simp [obstacle?_append, clear, long]
  cases found : contents (folder ++ [name]) with
  | some content =>
    refine ⟨disk, ?_, unchanged (.inl (by simp [found]))⟩
    cases content <;> simp [long, isFileAt, found, bind, Except.bind, outcome]
  | none =>
    have missing : disk.content? (folder ++ [name]) ≠ some .folder := by simp [place, found]
    have flat : IsFlat (some (.folder [])) := trivial
    refine ⟨disk.alter (folder ++ [name]) (some (.folder [])), ?_, ?_⟩
    · simp [long, isFileAt, found, bind, Except.bind, outcome]
    · funext location
      rw [content?_alter flat (content?_of_access top entered) missing, withFolders_concat, same]
      simp [found, obstacle?_append, clear, long, isFileAt, Entry.content]

theorem makeFolderChain_of_notFound (missing : disk.makeFolder path = .error .notFound)
    (ancestors : List Path) :
    disk.makeFolderChain (path :: ancestors) =
      match disk.makeFolderChain ancestors with
      | (.error error, disk) => (.error error, disk)
      | (.ok (), disk) => disk.settle path := by
  simp only [makeFolderChain, missing]
  rcases disk.makeFolderChain ancestors with ⟨result, made⟩
  cases result <;> rfl

theorem makeFolderChain_of_found (found : disk.makeFolder path ≠ .error .notFound)
    (ancestors : List Path) : disk.makeFolderChain (path :: ancestors) = disk.settle path := by
  unfold makeFolderChain settle
  split
  next made => simp [made]
  next missing => exact (found missing).elim
  next error _ failed => simp [failed]

theorem makeFolder_top : disk.makeFolder ⟨['/']⟩ = .error .alreadyExists := by
  have target : disk.target ⟨['/']⟩ = .ok .unnamed := rfl
  simp [makeFolder, target, bind, Except.bind]

theorem isFolder_top (top : disk.content? [] = some .folder) : disk.isFolder ⟨['/']⟩ = true := by
  obtain ⟨entries, found⟩ := content?_eq_folder_iff.mp top
  have located : disk.locate ⟨['/']⟩ = .ok [] := by
    have ok : checkPath ⟨['/']⟩ = .ok () := rfl
    simp [locate, ok, bind, Except.bind, cutAtSlashes, start, Path.isAbsolute, follow, found, step,
      isVoid, nameLimit]
  simp [isFolder, find, located, found, bind, Except.bind, Entry.isFolder]

theorem ancestorsUpTo_of_leadsTo {parent : Path} (leads : path.LeadsTo folder name)
    (above : path.parent? = some parent) (limit : Nat) :
    (path.ancestorsUpTo (limit + 1)).filter (·.text != []) =
      path :: (parent.ancestorsUpTo limit).filter (·.text != []) := by
  obtain ⟨segments, cut, -, -, -⟩ := leads
  have written : path.text ≠ [] := by
    simp [Path.text_of_cut (by simp) cut]
  simp [Path.ancestorsUpTo, above, written]

theorem access_of_checkPath (ok : checkPath path = .ok ()) (folder : Location) :
    disk.access path folder = enter disk.content? [] folder := by
  simp [access, ok, bind, Except.bind]

theorem makeFolder_of_access_eq_error {error : FileError} (leads : path.LeadsTo folder name)
    (isName : name ≠ ['.', '.']) (denied : disk.access path folder = .error error) :
    disk.makeFolder path = .error error := by
  simp [makeFolder_of_leadsTo leads isName, denied, bind, Except.bind]

/-- What a chain of folders comes to, if the folders on the way to a location are made. -/
def MakesFolders (disk : Disk) (chain : List Path) (names : Location) : Prop :=
  ∃ made, disk.makeFolderChain chain = (outcome (obstacle? disk.content? [] names), made) ∧
    made.content? = withFolders disk.content? names

section Chain

variable {ancestors : List Path}

/-- The folder above is there. -/
theorem makesFolders_of_entered (top : disk.content? [] = some .folder)
    (leads : path.LeadsTo folder name) (isName : name ≠ ['.', '.'])
    (entered : disk.access path folder = .ok ())
    (clear : obstacle? disk.content? [] folder = none) :
    disk.MakesFolders (path :: ancestors) (folder ++ [name]) := by
  have found : disk.makeFolder path ≠ .error .notFound := by
    rw [makeFolder_of_leadsTo leads isName, entered]
    simp only [bind, Except.bind]
    split
    · simp
    split <;> simp
  have standing := withFolders_of_standing (content?_of_access top entered)
  unfold MakesFolders
  rw [makeFolderChain_of_found found]
  exact settle_of_access top leads isName entered standing.symm clear

/-- The folder above is missing, and its own chain comes first. -/
theorem makesFolders_of_missing (top : disk.content? [] = some .folder)
    (leads : path.LeadsTo folder name) (isName : name ≠ ['.', '.'])
    (ok : checkPath path = .ok ())
    (missing : enter disk.content? [] folder = .error .notFound)
    (chain : disk.MakesFolders ancestors folder) :
    disk.MakesFolders (path :: ancestors) (folder ++ [name]) := by
  have denied := (access_of_checkPath ok folder).trans missing
  obtain ⟨made, chain, contents⟩ := chain
  unfold MakesFolders
  rw [makeFolderChain_of_notFound (makeFolder_of_access_eq_error leads isName denied), chain]
  cases obstacle : obstacle? disk.content? [] folder with
  | some error =>
    have other : error ≠ .alreadyExists := by
      rintro rfl
      have file := isFileAt_of_obstacle? obstacle
      rw [isFileAt_eq_false_of_none (content?_of_enter_eq_notFound missing)] at file
      cases file
    have stopped : obstacle? disk.content? [] (folder ++ [name]) = some error := by
      simp [obstacle?_append, obstacle, other]
    refine ⟨made, by rw [stopped]; rfl, ?_⟩
    funext location
    simp [withFolders_concat, stopped, contents]
  | none =>
    have madeTop : made.content? [] = some .folder := by
      rw [contents]
      exact withFolders_eq_folder top obstacle List.nil_prefix
    have entered : made.access path folder = .ok () := by
      rw [access_of_checkPath ok, contents]
      exact enter_withFolders top obstacle
    exact settle_of_access madeTop leads isName entered contents obstacle

/-- Before the folder above there is an obstacle. -/
theorem makesFolders_of_obstacle {error : FileError} (top : disk.content? [] = some .folder)
    (leads : path.LeadsTo folder name) (isName : name ≠ ['.', '.'])
    (ok : checkPath path = .ok ())
    (stopped : enter disk.content? [] folder = .error error) (other : error ≠ .notFound) :
    disk.MakesFolders (path :: ancestors) (folder ++ [name]) := by
  have denied := (access_of_checkPath ok folder).trans stopped
  have failed := makeFolder_of_access_eq_error leads isName denied
  have found : disk.makeFolder path ≠ .error .notFound := by simp [failed, other]
  refine ⟨disk, ?_, (withFolders_of_enter_eq_error top stopped other).symm⟩
  rw [makeFolderChain_of_found found, settle, failed,
    obstacle?_of_enter_eq_error top stopped other]
  simp [isFolder_of_access_eq_error leads isName denied, outcome]

end Chain

/-- **Making a folder and the folders above it.**  All folders on the way are made that are
    before the first obstacle, and the obstacle is the error. -/
theorem makesFolders_ancestors (top : disk.content? [] = some .folder) {names : Location}
    (reaches : path.Reaches names) {limit : Nat} (enough : names.length ≤ limit)
    (ok : checkPath path = .ok ()) :
    disk.MakesFolders ((path.ancestorsUpTo limit).filter (·.text != [])) names := by
  induction names using List.reverseRecOn generalizing path limit with
  | nil =>
    obtain rfl := reaches.eq_top
    have alone : (Path.ancestorsUpTo limit ⟨['/']⟩).filter (·.text != []) = [⟨['/']⟩] := by
      cases limit <;> rfl
    have found : disk.makeFolder ⟨['/']⟩ ≠ .error .notFound := by simp [makeFolder_top]
    refine ⟨disk, ?_, (withFolders_of_standing top).symm⟩
    rw [alone, makeFolderChain_of_found found, settle, makeFolder_top]
    simp [isFolder_top top, obstacle?, outcome]
  | append_singleton folder name ih =>
    obtain ⟨leads, isName⟩ := reaches.leadsTo
    obtain ⟨parent, above, parentReaches, isPrefix⟩ := leads.parent?
    obtain ⟨limit, rfl⟩ : ∃ below, limit = below + 1 := ⟨limit - 1, by simp at enough; omega⟩
    rw [ancestorsUpTo_of_leadsTo leads above]
    cases result : enter disk.content? [] folder with
    | ok =>
      have entered := (access_of_checkPath ok folder).trans result
      exact makesFolders_of_entered top leads isName entered (of_enter_eq_ok top result).1
    | error error =>
      by_cases missing : error = .notFound
      · subst missing
        have parentOk := checkPath_of_isPrefix parentReaches.isPlain.1.ne_nil isPrefix ok
        have chain := ih parentReaches (by simpa using enough) parentOk
        exact makesFolders_of_missing top leads isName ok result chain
      · exact makesFolders_of_obstacle top leads isName ok result missing

theorem length_components_of_reaches {names : Location} (reaches : path.Reaches names) :
    path.components.length = names.length + 1 := by
  obtain ⟨plain, rfl⟩ := reaches.isPlain
  simp [plain.components]

theorem makeFolders_of_checkPath (top : disk.content? [] = some .folder) {names : Location}
    (reaches : path.Reaches names) (ok : checkPath path = .ok ()) :
    ∃ made, disk.makeFolders path = (outcome (obstacle? disk.content? [] names), made) ∧
      made.content? = withFolders disk.content? names := by
  refine makesFolders_ancestors top reaches ?_ ok
  simp [length_components_of_reaches reaches]

theorem makeFolders_of_checkPath_eq_error {names : Location} {error : FileError}
    (reaches : path.Reaches names) (failed : checkPath path = .error error) :
    disk.makeFolders path = (.error error, disk) := by
  cases reaches with
  | top => cases failed
  | @below _ folder name leads isName =>
    have other : error ≠ .notFound := by
      rintro rfl
      exact checkPath_ne_notFound (leads.isPlain isName).ne_nil failed
    have denied : disk.access path folder = .error error := by
      simp [access, failed, bind, Except.bind]
    have stopped := makeFolder_of_access_eq_error leads isName denied
    have found : disk.makeFolder path ≠ .error .notFound := by simp [stopped, other]
    obtain ⟨parent, above, -, -⟩ := leads.parent?
    have length := length_components_of_reaches (.below leads isName)
    rw [makeFolders, Path.ancestors, length, ancestorsUpTo_of_leadsTo leads above,
      makeFolderChain_of_found found, settle, stopped]
    simp [isFolder_of_access_eq_error leads isName denied]

end Making

end ViewScript.Disk
