/-
  ViewScript/Proofs/Disk/Making.lean
  ==================================
  **Making folders, and making them again.**

  Whatever the path is, to make its folders adds folders where nothing was and does nothing
  else: no file is changed, and the tree stays well-formed.

  If there is no `..` in the path, the folders can be made again and again.  Say that they
  were made, or that it failed, and that the disk has grown since.  Then to make them once
  more changes nothing, and it comes to the same: what stands is found standing, and what
  was in the way still is.
-/
import ViewScript.Proofs.Disk.Growth

namespace ViewScript

/-! ### Trees stay well-formed -/

theorem areWellFormed_iff {entries : List (Text × Entry)} :
    areWellFormed entries = true ↔
      ∀ entry ∈ entries, isEntryName entry.1 = true ∧ entry.2.isWellFormed = true := by
  induction entries with
  | nil => simp [areWellFormed]
  | cons first rest ih => simp [areWellFormed, ih]

theorem Entry.isWellFormed_folder {entries : List (Text × Entry)} :
    (Entry.folder entries).isWellFormed = true ↔
      (entries.map (·.1)).Nodup ∧
        ∀ entry ∈ entries, isEntryName entry.1 = true ∧ entry.2.isWellFormed = true := by
  simp [Entry.isWellFormed, areWellFormed_iff]

theorem Entry.isWellFormed_alterName {entries : List (Text × Entry)} {name : Text}
    {change : Option Entry} (wellFormed : (Entry.folder entries).isWellFormed = true)
    (isName : isEntryName name = true) (flawless : ∀ entry ∈ change, entry.isWellFormed = true) :
    (Entry.folder (alterName name change entries)).isWellFormed = true := by
  rw [isWellFormed_folder] at wellFormed ⊢
  obtain ⟨distinct, each⟩ := wellFormed
  fun_cases alterName name change entries with
  | case1 =>
    refine ⟨distinct.sublist (List.filter_sublist.map _), ?_⟩
    intro entry member
    exact each entry (List.mem_of_mem_filter member)
  | case2 new present =>
    constructor
    · rw [List.map_map]
      convert distinct using 2
      funext entry
      by_cases same : entry.1 = name <;> simp [same]
    · intro entry member
      obtain ⟨⟨other, old⟩, inEntries, rfl⟩ := List.mem_map.mp member
      obtain ⟨isOther, isOld⟩ := each _ inEntries
      by_cases same : other = name
      · simpa [same] using ⟨isName, flawless new rfl⟩
      · simpa [same] using ⟨isOther, isOld⟩
  | case3 new absent =>
    have fresh : name ∉ entries.map (·.1) := by simpa using absent
    constructor
    · rw [List.map_append, List.map_singleton]
      refine List.nodup_append.mpr ⟨distinct, by simp, ?_⟩
      rintro other member _ (_ | ⟨_, none⟩) same
      · rw [same] at member
        exact fresh member
      · cases none
    · intro entry member
      rcases List.mem_append.mp member with member | member
      · exact each entry member
      · obtain rfl := List.mem_singleton.mp member
        exact ⟨isName, flawless new rfl⟩

/-- A change under a proper name leaves a well-formed tree. -/
theorem Entry.isWellFormed_alter {change : Option Entry} {folder : Location} {name : Text}
    {entry : Entry} (wellFormed : entry.isWellFormed = true) (isName : isEntryName name = true)
    (flawless : ∀ entry ∈ change, entry.isWellFormed = true) :
    (alter change (folder ++ [name]) entry).isWellFormed = true := by
  induction folder generalizing entry with
  | nil =>
    cases entry with
    | file bytes => rfl
    | folder entries => exact isWellFormed_alterName wellFormed isName flawless
  | cons above folder ih =>
    cases entry with
    | file bytes => cases folder <;> rfl
    | folder entries =>
      rw [List.cons_append, alter_cons]
      cases isInner : entries.lookup above with
      | none => exact wellFormed
      | some inner =>
        obtain ⟨front, back, whole, -⟩ := List.lookup_eq_some_iff.mp isInner
        have member : (above, inner) ∈ entries := by simp [whole]
        obtain ⟨isAbove, isInner⟩ := (isWellFormed_folder.mp wellFormed).2 _ member
        exact isWellFormed_alterName wellFormed isAbove fun changed isChanged => by
          cases isChanged
          exact ih isInner

namespace Disk

open ViewScript.Path (namesIn isVoid cutAtSlashes trimEnd Ends Tidy)

theorem IsWellFormed.alter {disk : Disk} (wellFormed : disk.IsWellFormed) {folder : Location}
    {name : Text} (isName : isEntryName name = true) {change : Option Entry}
    (flawless : ∀ entry ∈ change, entry.isWellFormed = true) :
    (disk.alter (folder ++ [name]) change).IsWellFormed := by
  refine ⟨?_, Entry.isWellFormed_alter wellFormed.2 isName flawless⟩
  have top := wellFormed.1
  unfold Disk.alter
  cases root : disk.root with
  | file bytes => simp [root, Entry.isFolder] at top
  | folder entries =>
    cases folder with
    | nil => rfl
    | cons above folder =>
      rw [List.cons_append]
      simp only [Entry.alter_cons]
      split <;> rfl

/-! ### What a target is -/

section Target

variable {disk made : Disk} {path : Path} {folder : Location} {name : Text}

/-- A named target is a proper name in a folder, at the place of the path. -/
theorem target_eq_named (ok : disk.target path = .ok (.named folder name)) :
    disk.place path = folder ++ [name] ∧ isEntryName name = true ∧
      disk.content? folder = some .folder := by
  have whole := (cutAtSlashes path.text).reverse.takeWhile_append_dropWhile (p := (· == []))
  have blank : ∀ segment ∈ (cutAtSlashes path.text).reverse.takeWhile (· == []), segment = [] :=
    fun segment member => by simpa using List.all_eq_true.mp List.all_takeWhile segment member
  unfold target at ok
  cases checked : checkPath path with
  | error error => simp [checked, bind, Except.bind] at ok
  | ok =>
    simp only [checked, bind, Except.bind] at ok
    generalize (cutAtSlashes path.text).reverse.takeWhile (· == []) = slashes at whole blank
    generalize isBack : (cutAtSlashes path.text).reverse.dropWhile (· == []) = back at whole ok
    cases back with
    | nil => simp at ok
    | cons last front =>
      have notEmpty : last ≠ [] := by
        rintro rfl
        have atEnd := List.head?_dropWhile_not (· == []) (cutAtSlashes path.text).reverse
        rw [isBack] at atEnd
        simp at atEnd
      have cut : cutAtSlashes path.text = front.reverse ++ [last] ++ slashes.reverse := by
        simpa using congrArg List.reverse whole.symm
      simp only [List.reverse_cons, List.getLast?_concat, List.dropLast_concat] at ok
      cases followed : disk.follow (disk.start path) front.reverse with
      | error error => simp [followed] at ok
      | ok reached =>
        simp only [followed] at ok
        split at ok
        next entries isFolder =>
          split at ok
          next => cases ok
          next isName =>
            obtain ⟨rfl, rfl⟩ : reached = folder ∧ last = name := by simpa using ok
            rw [not_or] at isName
            have solid : isVoid last = false := by simp [isVoid, notEmpty, isName.1]
            refine ⟨?_, isEntryName_iff.mpr ⟨notEmpty, ?_, isName⟩,
              content?_eq_folder_iff.mpr ⟨entries, isFolder⟩⟩
            · have stays : slashes.reverse.foldl step (reached ++ [last]) = reached ++ [last] := by
                rw [foldl_step]
                · have none : namesIn slashes.reverse = [] :=
                    List.filter_eq_nil_iff.mpr fun segment member => by
                      simp [blank segment (List.mem_reverse.mp member), isVoid]
                  rw [none, List.append_nil]
                · intro member
                  have := blank _ (List.mem_reverse.mp member)
                  cases this
              rw [place, cut, List.foldl_append, List.foldl_append, ← follow_eq_foldl followed,
                List.foldl_cons, List.foldl_nil, step_of_solid solid isName.2, stays]
            · have member : last ∈ cutAtSlashes path.text := by simp [cut]
              exact Path.slash_notMem_of_mem_cutAtSlashes member
        next => cases ok
        next => cases ok

/-- A folder that is made is new. -/
theorem makeFolder_eq_ok (ok : disk.makeFolder path = .ok made) :
    ∃ folder name, disk.place path = folder ++ [name] ∧ isEntryName name = true ∧
      disk.content? folder = some .folder ∧ disk.content? (folder ++ [name]) = none ∧
      made = disk.alter (folder ++ [name]) (some (.folder [])) := by
  unfold makeFolder at ok
  cases isTarget : disk.target path with
  | error error => simp [isTarget, bind, Except.bind] at ok
  | ok target =>
    cases target with
    | unnamed => simp [isTarget, bind, Except.bind] at ok
    | named folder name =>
      obtain ⟨place, isName, isFolder⟩ := target_eq_named isTarget
      refine ⟨folder, name, place, isName, isFolder, ?_⟩
      simp only [isTarget, bind, Except.bind, inFolder] at ok
      split at ok
      next => cases ok
      next inPlace =>
        cases found : disk.root.get? (folder ++ [name]) with
        | some entry =>
          split at inPlace
          · cases inPlace
          · cases inPlace
            simp [found] at ok
        | none =>
          split at inPlace
          · cases inPlace
          · cases inPlace
            simp only [found, Except.ok.injEq] at ok
            exact ⟨by simp [content?, found], ok.symm⟩

end Target

/-! ### Only folders are added -/

/-- The second disk has more folders than the first, at places where nothing was, and is
    otherwise the same. -/
structure Adds (isPlace : Location → Prop) (before after : Disk) : Prop where
  workingFolder : after.workingFolder = before.workingFolder
  isWellFormed : before.IsWellFormed → after.IsWellFormed
  content? : ∀ location, after.content? location = before.content? location ∨
    isPlace location ∧ before.content? location = none ∧ after.content? location = some .folder

namespace Adds

variable {isPlace isPlace' : Location → Prop} {before after later : Disk}

theorem refl (isPlace : Location → Prop) (disk : Disk) : Adds isPlace disk disk :=
  ⟨rfl, id, fun _ => .inl rfl⟩

theorem trans (first : Adds isPlace before after) (second : Adds isPlace after later) :
    Adds isPlace before later := by
  refine ⟨second.workingFolder.trans first.workingFolder,
    second.isWellFormed ∘ first.isWellFormed, fun location => ?_⟩
  rcases second.content? location with same | ⟨isPlace, missing, isFolder⟩
  · rw [same]
    exact first.content? location
  · rcases first.content? location with same | ⟨_, -, present⟩
    · exact .inr ⟨isPlace, same ▸ missing, isFolder⟩
    · simp [missing] at present

theorem mono (adds : Adds isPlace before after)
    (weaker : ∀ location, isPlace location → isPlace' location) :
    Adds isPlace' before after := by
  refine ⟨adds.workingFolder, adds.isWellFormed, fun location => ?_⟩
  exact (adds.content? location).imp id fun ⟨isPlace, rest⟩ => ⟨weaker location isPlace, rest⟩

theorem grows (adds : Adds isPlace before after) : before.Grows after := by
  refine ⟨⟨adds.workingFolder, ?_⟩, ?_⟩
  · intro location isFolder
    rcases adds.content? location with same | ⟨-, -, new⟩
    · exact same.trans isFolder
    · exact new
  · intro location bytes file
    rcases adds.content? location with same | ⟨-, missing, -⟩
    · exact ⟨bytes, same.trans file⟩
    · simp [file] at missing

theorem file_iff (adds : Adds isPlace before after) {location : Location} {bytes : Bytes} :
    after.content? location = some (.file bytes) ↔
      before.content? location = some (.file bytes) := by
  rcases adds.content? location with same | ⟨-, missing, isFolder⟩
  · rw [same]
  · simp [missing, isFolder]

end Adds

section Adding

variable {disk made : Disk} {path : Path}

theorem adds_makeFolder (ok : disk.makeFolder path = .ok made) :
    Adds (· = disk.place path) disk made := by
  obtain ⟨folder, name, place, isName, isFolder, missing, rfl⟩ := makeFolder_eq_ok ok
  refine ⟨rfl, fun wellFormed => ?_, fun location => ?_⟩
  · refine wellFormed.alter isName ?_
    rintro _ ⟨⟩
    rfl
  · have flat : IsFlat (some (.folder [])) := trivial
    rw [content?_alter flat isFolder (by simp [missing])]
    by_cases here : location = folder ++ [name]
    · exact .inr ⟨here.trans place.symm, here ▸ missing, by simp [here, Entry.content]⟩
    · exact .inl (if_neg here)

theorem adds_settle (disk : Disk) (path : Path) :
    Adds (· = disk.place path) disk (disk.settle path).2 := by
  unfold settle
  cases result : disk.makeFolder path with
  | ok made => exact adds_makeFolder result
  | error error => exact .refl _ disk

/-- **Making folders adds folders**, at the places of the chain. -/
theorem adds_makeFolderChain (disk : Disk) (chain : List Path) :
    Adds (fun location => ∃ path ∈ chain, location = disk.place path) disk
      (disk.makeFolderChain chain).2 := by
  induction chain generalizing disk with
  | nil => exact .refl _ disk
  | cons path ancestors ih =>
    have settled : ∀ made : Disk, made.workingFolder = disk.workingFolder →
        Adds (fun location => ∃ other ∈ path :: ancestors, location = disk.place other) made
          (made.settle path).2 := by
      intro made same
      refine (adds_settle made path).mono fun location here => ⟨path, List.mem_cons_self, ?_⟩
      rw [here]
      simp only [place, start, same]
    by_cases missing : disk.makeFolder path = .error .notFound
    · have above : Adds (fun location => ∃ other ∈ path :: ancestors, location = disk.place other)
          disk (disk.makeFolderChain ancestors).2 := by
        refine (ih disk).mono ?_
        rintro location ⟨other, member, here⟩
        exact ⟨other, List.mem_cons_of_mem _ member, here⟩
      rw [makeFolderChain_of_notFound missing]
      generalize disk.makeFolderChain ancestors = run at above ⊢
      obtain ⟨result, made⟩ := run
      cases result with
      | error error => exact above
      | ok => exact above.trans (settled made above.workingFolder)
    · rw [makeFolderChain_of_found missing]
      exact settled disk rfl

end Adding

/-! ### Folders that are made, and folders that stand -/

section Standing

variable {disk made : Disk} {path : Path} {front : List Text} {last : Text}

theorem reach_concat (path : Path) (front : List Text) (last : Text) :
    disk.reach path (front ++ [last]) =
      (disk.reach path front >>= fun folder =>
        if nameLimit < last.byteSize then .error .nameTooLong
        else match disk.content? (step folder last) with
          | some .folder => .ok (step folder last)
          | some (.file _) => .error .notFolder
          | none => .error .notFound) := by
  unfold reach
  cases checkPath path with
  | error error => rfl
  | ok => exact folderAt_concat (disk.start path) front last

theorem makeFolder_here :
    disk.makeFolder ⟨['.']⟩ =
      (disk.folderAt disk.workingFolder [] >>= fun _ => .error .alreadyExists) := by
  have target : disk.target ⟨['.']⟩ =
      (disk.folderAt disk.workingFolder [] >>= fun _ => .ok .unnamed) := by
    have ok : checkPath ⟨['.']⟩ = .ok () := rfl
    have start : disk.start ⟨['.']⟩ = disk.workingFolder := rfl
    have trimmed : ((cutAtSlashes ['.']).reverse.dropWhile (· == [])).reverse = [['.']] := rfl
    simp only [Disk.target, ok, start, trimmed, List.getLast?_singleton, List.dropLast_singleton,
      folderAt, follow, content?, bind, Except.bind]
    cases disk.root.get? disk.workingFolder with
    | none => rfl
    | some entry => cases entry <;> rfl
  unfold makeFolder
  rw [target]
  cases disk.folderAt disk.workingFolder [] <;> rfl

theorem makeFolder_of_ends_up (ends : path.Ends front ['.', '.']) :
    disk.makeFolder path = (disk.reach path front >>= fun _ => .error .alreadyExists) := by
  unfold makeFolder
  rw [target_of_ends ends]
  cases disk.reach path front <;> rfl

/-- A folder that was made is there. -/
theorem isFolder_of_makeFolder (tidy : path.Tidy) (ok : disk.makeFolder path = .ok made) :
    made.isFolder path = true := by
  have grows := (adds_makeFolder ok).grows
  cases tidy with
  | top => simp [makeFolder_top] at ok
  | here =>
    rw [makeFolder_here] at ok
    cases found : disk.folderAt disk.workingFolder [] <;> simp [found, bind, Except.bind] at ok
  | @ends _ front last ends =>
    by_cases isUp : last = ['.', '.']
    · subst isUp
      rw [makeFolder_of_ends_up ends] at ok
      cases found : disk.reach path front <;> simp [found, bind, Except.bind] at ok
    rw [makeFolder_of_ends ends isUp] at ok
    cases reached : disk.reach path front with
    | error error => simp [reached, bind, Except.bind] at ok
    | ok folder =>
      have isFolder := content?_of_reach reached
      have stays : made.reach path front = .ok folder :=
        (grows.reach (by simp [reached])).trans reached
      simp only [reached, bind, Except.bind] at ok
      split at ok
      next => cases ok
      next short =>
        split at ok
        next => cases ok
        next missing =>
          obtain rfl := Except.ok.inj ok
          have flat : IsFlat (some (.folder [])) := trivial
          refine isFolder_eq_true_iff.mpr ⟨folder ++ [last], ?_⟩
          rw [ends.cut, reach_concat, stays]
          simp [bind, Except.bind, short, step_of_solid ends.solid isUp,
            content?_alter flat isFolder, missing, Entry.content]

/-- A folder that stands is not made. -/
theorem makeFolder_of_isFolder (tidy : path.Tidy) (isFolder : disk.isFolder path = true) :
    disk.makeFolder path = .error .alreadyExists := by
  obtain ⟨folder, reached⟩ := isFolder_eq_true_iff.mp isFolder
  cases tidy with
  | top => exact makeFolder_top
  | here =>
    have same : trimEnd [] = trimEnd (cutAtSlashes ['.']) := rfl
    rw [reach_of_checkPath rfl] at reached
    have found : disk.folderAt disk.workingFolder [] = .ok folder :=
      (folderAt_congr same).trans reached
    rw [makeFolder_here, found]
    rfl
  | @ends _ front last ends =>
    rw [ends.cut, reach_concat] at reached
    cases above : disk.reach path front with
    | error error => simp [above, bind, Except.bind] at reached
    | ok parent =>
      by_cases isUp : last = ['.', '.']
      · subst isUp
        rw [makeFolder_of_ends_up ends, above]
        rfl
      · rw [makeFolder_of_ends ends isUp, above]
        simp only [above, bind, Except.bind, step_of_solid ends.solid isUp] at reached ⊢
        split at reached
        next => cases reached
        next short =>
          rw [if_neg short]
          cases found : disk.content? (parent ++ [last]) with
          | none => simp [found] at reached
          | some content => rfl

/-- A folder that stands is settled. -/
theorem settle_of_isFolder (tidy : path.Tidy) (isFolder : disk.isFolder path = true) :
    disk.settle path = (.ok (), disk) := by
  simp [settle, makeFolder_of_isFolder tidy isFolder, isFolder]

theorem isFolder_of_settle (tidy : path.Tidy) (ok : (disk.settle path).1 = .ok ()) :
    (disk.settle path).2.isFolder path = true := by
  unfold settle at ok ⊢
  cases result : disk.makeFolder path with
  | ok made => exact isFolder_of_makeFolder tidy result
  | error error =>
    simp only [result] at ok ⊢
    by_contra notFolder
    simp [notFolder] at ok

/-- What was settled is there, also if the folders above it had to be made. -/
theorem isFolder_of_makeFolderChain (tidy : path.Tidy) {ancestors : List Path}
    (ok : (disk.makeFolderChain (path :: ancestors)).1 = .ok ()) :
    (disk.makeFolderChain (path :: ancestors)).2.isFolder path = true := by
  by_cases missing : disk.makeFolder path = .error .notFound
  · rw [makeFolderChain_of_notFound missing] at ok ⊢
    generalize disk.makeFolderChain ancestors = run at ok ⊢
    obtain ⟨result, made⟩ := run
    cases result with
    | error error => cases ok
    | ok => exact isFolder_of_settle tidy ok
  · rw [makeFolderChain_of_found missing] at ok ⊢
    exact isFolder_of_settle tidy ok

end Standing

/-! ### Making folders again -/

/-- A chain of folders comes to the same on every disk that has grown since, and changes
    nothing there.  If it failed, then the path is no folder for the same reason, or there was
    a file in its place from the first. -/
structure Lasting (disk : Disk) (path : Path) (chain : List Path) : Prop where
  again : ∀ {later}, (disk.makeFolderChain chain).2.Grows later →
    later.makeFolderChain chain = ((disk.makeFolderChain chain).1, later)
  stuck : ∀ {error later}, (disk.makeFolderChain chain).1 = .error error →
    (disk.makeFolderChain chain).2.Grows later →
    later.folderAt (later.start path) (cutAtSlashes path.text) = .error error ∨
      error = .alreadyExists ∧ isFileAt disk.content? (disk.place path) = true

section Lasting

variable {disk made : Disk} {path : Path} {front : List Text} {last : Text}
  {folder : Location}

/-- A folder that stands is all there is to do. -/
theorem lasting_of_isFolder (tidy : path.Tidy) (isFolder : disk.isFolder path = true)
    (ancestors : List Path) : disk.Lasting path (path :: ancestors) := by
  have run : ∀ {later : Disk}, later.isFolder path = true →
      later.makeFolderChain (path :: ancestors) = (.ok (), later) := by
    intro later isFolder
    have found : later.makeFolder path ≠ .error .notFound := by
      simp [makeFolder_of_isFolder tidy isFolder]
    rw [makeFolderChain_of_found found, settle_of_isFolder tidy isFolder]
  constructor
  · intro later grows
    rw [run isFolder] at grows ⊢
    apply run
    obtain ⟨folder, reached⟩ := isFolder_eq_true_iff.mp isFolder
    exact isFolder_eq_true_iff.mpr ⟨folder, (grows.reach (by simp [reached])).trans reached⟩
  · intro error later failed
    rw [run isFolder] at failed
    cases failed

/-- With the folder above it there, a path is settled by what has its name. -/
theorem settle_of_reach (ends : path.Ends front last) (isName : last ≠ ['.', '.'])
    (reached : disk.reach path front = .ok folder) :
    disk.settle path =
      if nameLimit < last.byteSize then (.error .nameTooLong, disk)
      else match disk.content? (folder ++ [last]) with
        | none => (.ok (), disk.alter (folder ++ [last]) (some (.folder [])))
        | some .folder => (.ok (), disk)
        | some (.file _) => (.error .alreadyExists, disk) := by
  have isFolder : disk.isFolder path = true ↔
      ¬ nameLimit < last.byteSize ∧ disk.content? (folder ++ [last]) = some .folder := by
    rw [isFolder_eq_true_iff, ends.cut, reach_concat, reached]
    simp only [bind, Except.bind, step_of_solid ends.solid isName]
    by_cases long : nameLimit < last.byteSize
    · simp [long]
    · cases disk.content? (folder ++ [last]) with
      | none => simp [long]
      | some content => cases content <;> simp [long]
  unfold settle
  rw [makeFolder_of_ends ends isName, reached]
  by_cases long : nameLimit < last.byteSize
  · simp [bind, Except.bind, long, isFolder]
  · cases found : disk.content? (folder ++ [last]) with
    | none => simp [bind, Except.bind, long, found]
    | some content => cases content <;> simp [bind, Except.bind, long, isFolder, found]

/-- The place of a path that ends with a name ends with it too. -/
theorem place_of_ends (ends : path.Ends front last) (isName : last ≠ ['.', '.']) :
    disk.place path = front.foldl step (disk.start path) ++ [last] := by
  rw [place, ends.cut, List.foldl_append]
  exact step_of_solid ends.solid isName _

theorem place_of_folderAt (ends : path.Ends front last) (isName : last ≠ ['.', '.'])
    (found : disk.folderAt (disk.start path) front = .ok folder) :
    disk.place path = folder ++ [last] := by
  rw [place_of_ends ends isName, ← follow_eq_foldl (folderAt_eq_ok_iff.mp found).1]

theorem place_of_reach (ends : path.Ends front last) (isName : last ≠ ['.', '.'])
    (reached : disk.reach path front = .ok folder) : disk.place path = folder ++ [last] :=
  place_of_folderAt ends isName (reach_eq_ok_iff.mp reached).2

theorem makeFolder_ne_notFound (ends : path.Ends front last) (isName : last ≠ ['.', '.'])
    (reached : disk.reach path front = .ok folder) :
    disk.makeFolder path ≠ .error .notFound := by
  rw [makeFolder_of_ends ends isName, reached]
  simp only [bind, Except.bind]
  split
  · simp
  · split <;> simp

/-- The folders above were there, or are now, and the path was settled. -/
theorem lasting_of_settle {base : Disk} {ancestors : List Path} {isPlace : Location → Prop}
    (adds : Adds isPlace disk base) (ends : path.Ends front last) (isName : last ≠ ['.', '.'])
    (reached : base.reach path front = .ok folder)
    (run : disk.makeFolderChain (path :: ancestors) = base.settle path) :
    disk.Lasting path (path :: ancestors) := by
  have stays : ∀ {later}, (base.settle path).2.Grows later →
      later.reach path front = .ok folder := by
    intro later grows
    exact (((adds_settle base path).grows.trans grows).reach (by simp [reached])).trans reached
  have settled := settle_of_reach ends isName reached
  constructor
  · intro later grows
    rw [run] at grows ⊢
    have still := stays grows
    rw [makeFolderChain_of_found (makeFolder_ne_notFound ends isName still),
      settle_of_reach ends isName still]
    rw [settled] at grows ⊢
    by_cases long : nameLimit < last.byteSize
    · simp [long]
    cases found : base.content? (folder ++ [last]) with
    | none =>
      simp only [long, if_false, found] at grows ⊢
      have flat : IsFlat (some (.folder [])) := trivial
      have isMade : later.content? (folder ++ [last]) = some .folder := by
        apply grows.folder
        rw [content?_alter flat (content?_of_reach reached) (by simp [found]), if_pos rfl]
        rfl
      simp [isMade]
    | some content =>
      simp only [long, if_false, found] at grows ⊢
      cases content with
      | folder => simp [grows.folder found]
      | file bytes =>
        obtain ⟨bytes, isFile⟩ := grows.file found
        simp [isFile]
  · intro error later failed grows
    rw [run] at failed grows
    have still := stays grows
    rw [settled] at failed
    by_cases long : nameLimit < last.byteSize
    · left
      obtain rfl : .nameTooLong = error := by simpa [long] using failed
      rw [← reach_of_checkPath (reach_eq_ok_iff.mp still).1, ends.cut, reach_concat, still]
      simp [bind, Except.bind, long]
    cases found : base.content? (folder ++ [last]) with
    | none => simp [long, found] at failed
    | some content =>
      cases content with
      | folder => simp [long, found] at failed
      | file bytes =>
        right
        have place := (adds.grows.place path).symm.trans (place_of_reach ends isName reached)
        refine ⟨by simpa [long, found] using failed.symm, ?_⟩
        simp [isFileAt, place, adds.file_iff.mp found]

theorem makeFolder_of_reach_eq_error {error : FileError} (ends : path.Ends front last)
    (stopped : disk.reach path front = .error error) : disk.makeFolder path = .error error := by
  by_cases isUp : last = ['.', '.']
  · subst isUp
    rw [makeFolder_of_ends_up ends, stopped]
    rfl
  · rw [makeFolder_of_ends ends isUp, stopped]
    rfl

theorem makeFolderChain_of_reach_eq_error {error : FileError} (ends : path.Ends front last)
    (stopped : disk.reach path front = .error error) (other : error ≠ .notFound)
    (ancestors : List Path) :
    disk.makeFolderChain (path :: ancestors) = (.error error, disk) := by
  have failed := makeFolder_of_reach_eq_error ends stopped
  have notFolder : disk.isFolder path = false := by
    by_contra isFolder
    obtain ⟨folder, reached⟩ := isFolder_eq_true_iff.mp (by simpa using isFolder)
    rw [ends.cut, reach_concat, stopped] at reached
    cases reached
  have found : disk.makeFolder path ≠ .error .notFound := by simp [failed, other]
  rw [makeFolderChain_of_found found, settle, failed]
  simp [notFolder]

/-- Above the path something was in the way. -/
theorem lasting_of_reach_eq_error {error : FileError} (ends : path.Ends front last)
    (ok : checkPath path = .ok ()) (stopped : disk.reach path front = .error error)
    (other : error ≠ .notFound) (ancestors : List Path) :
    disk.Lasting path (path :: ancestors) := by
  have run := makeFolderChain_of_reach_eq_error ends stopped other ancestors
  have stays : ∀ {later}, disk.Grows later → later.reach path front = .error error :=
    fun grows => (grows.reach (by simp [stopped, other])).trans stopped
  constructor
  · intro later grows
    rw [run] at grows ⊢
    exact makeFolderChain_of_reach_eq_error ends (stays grows) other ancestors
  · intro error' later failed grows
    rw [run] at failed grows
    obtain rfl : error = error' := by simpa using failed
    left
    rw [← reach_of_checkPath ok, ends.cut, reach_concat, stays grows]
    rfl

/-- The folder above was missing and could not be made. -/
theorem lasting_of_failed {parent : Path} {ancestors : List Path} {error : FileError}
    (ends : path.Ends front last) (ok : checkPath path = .ok ())
    (missing : disk.reach path front = .error .notFound)
    (failed : (disk.makeFolderChain ancestors).1 = .error error)
    (lasting : disk.Lasting parent ancestors)
    (stuck : ∀ {later}, (disk.makeFolderChain ancestors).2.Grows later →
      later.folderAt (later.start path) front = .error error) :
    disk.Lasting path (path :: ancestors) := by
  have run : disk.makeFolderChain (path :: ancestors) =
      (.error error, (disk.makeFolderChain ancestors).2) := by
    rw [makeFolderChain_of_notFound (makeFolder_of_reach_eq_error ends missing)]
    generalize disk.makeFolderChain ancestors = chain at failed ⊢
    obtain ⟨result, made⟩ := chain
    cases failed
    rfl
  constructor
  · intro later grows
    rw [run] at grows ⊢
    have stopped := (reach_of_checkPath ok front).trans (stuck grows)
    by_cases other : error = .notFound
    · -- The folder above is missing still, and its chain comes to the same.
      subst other
      rw [makeFolderChain_of_notFound (makeFolder_of_reach_eq_error ends stopped),
        lasting.again grows, failed]
    · exact makeFolderChain_of_reach_eq_error ends stopped other ancestors
  · intro error' later failed' grows
    rw [run] at failed' grows
    obtain rfl : error = error' := by simpa using failed'
    left
    rw [ends.cut, folderAt_concat, stuck grows]
    rfl

theorem chain_of_anchor (limit : Nat) {path : Path} (anchor : path = ⟨['/']⟩ ∨ path = ⟨['.']⟩) :
    (path.ancestorsUpTo limit).filter (·.text != []) = [path] := by
  rcases anchor with rfl | rfl
  · cases limit <;> rfl
  · cases limit with
    | zero => rfl
    | succ limit => cases limit <;> rfl

theorem chain_of_ends (ends : path.Ends front last) {parent : Path}
    (above : path.parent? = some parent) (limit : Nat) :
    (path.ancestorsUpTo (limit + 1)).filter (·.text != []) =
      path :: (parent.ancestorsUpTo limit).filter (·.text != []) := by
  simp [Path.ancestorsUpTo, above, ends.text_ne_nil]

theorem exists_chain (written : path.text ≠ []) (limit : Nat) :
    ∃ ancestors, (path.ancestorsUpTo limit).filter (·.text != []) = path :: ancestors := by
  cases limit with
  | zero => exact ⟨[], by simp [Path.ancestorsUpTo, written]⟩
  | succ limit => cases above : path.parent? <;> simp [Path.ancestorsUpTo, above, written]

theorem isFolder_of_anchor (standing : disk.content? (disk.start path) = some .folder)
    (anchor : path = ⟨['/']⟩ ∨ path = ⟨['.']⟩) : disk.isFolder path = true := by
  refine isFolder_eq_true_iff.mpr ⟨disk.start path, ?_⟩
  have void : trimEnd (cutAtSlashes path.text) = trimEnd [] := by
    rcases anchor with rfl | rfl <;> rfl
  have ok : checkPath path = .ok () := by
    rcases anchor with rfl | rfl <;> rfl
  rw [reach_of_checkPath ok, folderAt_congr void, folderAt_eq_ok_iff]
  exact ⟨rfl, standing⟩

theorem lasting_of_anchor (standing : disk.content? (disk.start path) = some .folder)
    (anchor : path = ⟨['/']⟩ ∨ path = ⟨['.']⟩) (limit : Nat) :
    disk.Lasting path ((path.ancestorsUpTo limit).filter (·.text != [])) := by
  rw [chain_of_anchor limit anchor]
  refine lasting_of_isFolder ?_ (isFolder_of_anchor standing anchor) []
  rcases anchor with rfl | rfl
  · exact .top
  · exact .here

/-- The folder above was missing, and its own chain came first. -/
theorem lasting_of_missing {parent : Path} {limit : Nat} (ends : path.Ends front last)
    (isName : last ≠ ['.', '.']) (noUp : ['.', '.'] ∉ front) (ok : checkPath path = .ok ())
    (missing : disk.reach path front = .error .notFound) (tidy : parent.Tidy)
    (written : parent.text ≠ []) (isPrefix : parent.text <+: path.text)
    (sameWay : trimEnd (cutAtSlashes parent.text) = trimEnd front)
    (lasting : disk.Lasting parent ((parent.ancestorsUpTo limit).filter (·.text != []))) :
    disk.Lasting path (path :: (parent.ancestorsUpTo limit).filter (·.text != [])) := by
  have start := start_of_isPrefix written isPrefix
  have way : ∀ disk : Disk, disk.folderAt (disk.start parent) (cutAtSlashes parent.text) =
      disk.folderAt (disk.start path) front := by
    intro disk
    rw [start, folderAt_congr sameWay]
  have parentOk := checkPath_of_isPrefix written isPrefix ok
  obtain ⟨ancestors, chain⟩ := exists_chain written limit
  have adds := adds_makeFolderChain disk ((parent.ancestorsUpTo limit).filter (·.text != []))
  cases result : (disk.makeFolderChain ((parent.ancestorsUpTo limit).filter (·.text != []))).1 with
  | ok =>
    have isFolder : (disk.makeFolderChain
        ((parent.ancestorsUpTo limit).filter (·.text != []))).2.isFolder parent = true := by
      rw [chain] at result ⊢
      exact isFolder_of_makeFolderChain tidy result
    obtain ⟨folder, reached⟩ := isFolder_eq_true_iff.mp isFolder
    rw [reach_of_checkPath parentOk, way, ← reach_of_checkPath ok] at reached
    refine lasting_of_settle adds ends isName reached ?_
    rw [makeFolderChain_of_notFound (makeFolder_of_reach_eq_error ends missing)]
    generalize disk.makeFolderChain
      ((parent.ancestorsUpTo limit).filter (·.text != [])) = run at result ⊢
    obtain ⟨outcome, made⟩ := run
    cases result
    rfl
  | error error =>
    refine lasting_of_failed ends ok missing result lasting ?_
    intro later grows
    rw [← way]
    refine (lasting.stuck result grows).resolve_right ?_
    -- Where something is missing on the way there is no file at its end.
    rintro ⟨-, isFile⟩
    rw [reach_of_checkPath ok] at missing
    have none := content?_of_folderAt_eq_notFound noUp missing
    have noUp : ['.', '.'] ∉ cutAtSlashes parent.text := by
      rwa [Path.up_mem_congr sameWay]
    rw [place, foldl_step noUp, Path.namesIn_congr sameWay, start, isFileAt, none] at isFile
    cases isFile

/-- **Folders can be made again and again.**  The induction is on the ancestors of the path:
    what is missing above it is made first, and comes to the same from then on. -/
theorem lasting_ancestors (tidy : path.Tidy) (noUp : ['.', '.'] ∉ cutAtSlashes path.text)
    (standing : disk.content? (disk.start path) = some .folder) (ok : checkPath path = .ok ())
    {limit : Nat} (enough : (namesIn (cutAtSlashes path.text)).length ≤ limit) :
    disk.Lasting path ((path.ancestorsUpTo limit).filter (·.text != [])) := by
  induction limit generalizing path with
  | zero =>
    cases tidy with
    | top => exact lasting_of_anchor standing (.inl rfl) 0
    | here => exact lasting_of_anchor standing (.inr rfl) 0
    | ends ends => simp [ends.cut, Path.namesIn_singleton ends.solid] at enough
  | succ limit ih =>
    cases tidy with
    | top => exact lasting_of_anchor standing (.inl rfl) (limit + 1)
    | here => exact lasting_of_anchor standing (.inr rfl) (limit + 1)
    | @ends _ front last ends =>
      obtain ⟨parent, above, isPrefix, sameWay, shape⟩ := ends.parent?
      rw [ends.cut, List.mem_append, not_or] at noUp
      have isName : last ≠ ['.', '.'] := by
        rintro rfl
        exact noUp.2 (by simp)
      rw [chain_of_ends ends above]
      cases reached : disk.reach path front with
      | ok folder =>
        have run := makeFolderChain_of_found (makeFolder_ne_notFound ends isName reached)
        exact lasting_of_settle (.refl (fun _ => True) disk) ends isName reached (run _)
      | error error =>
        by_cases missing : error = .notFound
        · subst missing
          rcases shape with ⟨-, rfl⟩ | ⟨written, tidy⟩
          · have here : disk.folderAt (disk.start path) [] = .ok (disk.start path) :=
              folderAt_eq_ok_iff.mpr ⟨rfl, standing⟩
            rw [reach_of_checkPath ok, here] at reached
            cases reached
          · have names := Path.namesIn_congr sameWay
            have start := start_of_isPrefix written isPrefix disk
            refine lasting_of_missing ends isName noUp.1 ok reached tidy written isPrefix sameWay
              (ih tidy ?_ (start ▸ standing) (checkPath_of_isPrefix written isPrefix ok) ?_)
            · rw [Path.up_mem_congr sameWay]
              exact noUp.1
            · rw [ends.cut, Path.namesIn_append, Path.namesIn_singleton ends.solid] at enough
              simpa [names] using enough
        · exact lasting_of_reach_eq_error ends ok reached missing _

end Lasting

/-! ### A folder with the folders above it -/

section Folders

variable {disk : Disk} {path : Path}

theorem makeFolders_of_checkPath_error {error : FileError} (written : path.text ≠ [])
    (failed : checkPath path = .error error) (disk : Disk) :
    disk.makeFolders path = (.error error, disk) := by
  have other : error ≠ .notFound := by
    rintro rfl
    exact checkPath_ne_notFound written failed
  have stopped : disk.makeFolder path = .error error := by
    simp [makeFolder, target, failed, bind, Except.bind]
  have notFolder : disk.isFolder path = false := by
    simp [isFolder, find, locate, failed, bind, Except.bind]
  have found : disk.makeFolder path ≠ .error .notFound := by simp [stopped, other]
  obtain ⟨ancestors, chain⟩ := exists_chain written path.components.length
  rw [makeFolders, Path.ancestors, chain, makeFolderChain_of_found found, settle, stopped]
  simp [notFolder]

theorem makeFolders_of_isFolder (tidy : path.Tidy) (isFolder : disk.isFolder path = true) :
    disk.makeFolders path = (.ok (), disk) := by
  obtain ⟨ancestors, chain⟩ := exists_chain tidy.text_ne_nil path.components.length
  have found : disk.makeFolder path ≠ .error .notFound := by
    simp [makeFolder_of_isFolder tidy isFolder]
  rw [makeFolders, Path.ancestors, chain, makeFolderChain_of_found found,
    settle_of_isFolder tidy isFolder]

/-- What was made is there. -/
theorem isFolder_of_makeFolders (tidy : path.Tidy) (ok : (disk.makeFolders path).1 = .ok ()) :
    (disk.makeFolders path).2.isFolder path = true := by
  obtain ⟨ancestors, chain⟩ := exists_chain tidy.text_ne_nil path.components.length
  rw [makeFolders, Path.ancestors, chain] at ok ⊢
  exact isFolder_of_makeFolderChain tidy ok

/-- **To make folders again is to do nothing**, and comes to the same. -/
theorem makeFolders_again (tidy : path.Tidy) (noUp : ['.', '.'] ∉ cutAtSlashes path.text)
    (standing : disk.content? (disk.start path) = some .folder) {later : Disk}
    (grows : (disk.makeFolders path).2.Grows later) :
    later.makeFolders path = ((disk.makeFolders path).1, later) := by
  cases checked : checkPath path with
  | error error => simp only [makeFolders_of_checkPath_error tidy.text_ne_nil checked]
  | ok =>
    refine (lasting_ancestors tidy noUp standing checked ?_).again grows
    rw [Path.components_eq, ← Path.names]
    simp

theorem place_of_noUp (noUp : ['.', '.'] ∉ cutAtSlashes path.text) :
    disk.place path = disk.start path ++ path.names :=
  foldl_step noUp _

theorem place_of_isPlain (plain : path.IsPlain) : disk.place path = path.names := by
  rw [place_of_noUp plain.2, start, if_pos plain.1, List.nil_append]

/-- The places of the ancestors are on the way to the place of the path. -/
theorem place_of_mem_ancestorsUpTo (tidy : path.Tidy)
    (noUp : ['.', '.'] ∉ cutAtSlashes path.text) {limit : Nat} {other : Path}
    (member : other ∈ (path.ancestorsUpTo limit).filter (·.text != [])) :
    disk.place other <+: disk.place path := by
  obtain ⟨names, sameStart⟩ :=
    Path.names_of_mem_ancestorsUpTo (.inr tidy) (List.mem_of_mem_filter member)
  have otherUp : ['.', '.'] ∉ cutAtSlashes other.text := by
    rw [← Path.up_mem_namesIn] at noUp ⊢
    exact fun up => noUp (names.subset up)
  rw [place_of_noUp otherUp, place_of_noUp noUp, start, start, sameStart]
  exact (List.prefix_append_right_inj _).mpr names

theorem adds_makeFolders (disk : Disk) (path : Path) :
    Adds (fun location => ∃ other ∈ path.ancestors, location = disk.place other) disk
      (disk.makeFolders path).2 := by
  refine (adds_makeFolderChain disk _).mono ?_
  rintro location ⟨other, member, here⟩
  exact ⟨other, List.mem_of_mem_filter member, here⟩

theorem adds_makeFolders_of_noUp (tidy : path.Tidy)
    (noUp : ['.', '.'] ∉ cutAtSlashes path.text) :
    Adds (· <+: disk.place path) disk (disk.makeFolders path).2 := by
  refine (adds_makeFolderChain disk _).mono ?_
  rintro location ⟨other, member, rfl⟩
  exact place_of_mem_ancestorsUpTo tidy noUp member

end Folders

end Disk

end ViewScript
