/-
  ViewScript/Proofs/Disk/Ways.lean
  ================================
  **Ways that can be opened.**

  A *way* is a list of names that are gone one after the other from some location, and `..`
  may be among them.  It can be opened, by making folders where nothing is, as far as no name
  on it is too long and no file stands in it.

  This says all there is to say about making the folders of a path: the way that its names
  are is opened as far as it can be, and to make the folders succeeds just when the whole way
  can be opened.  So the files that stand on the way decide, and it does not matter which of
  the folders are there already.
-/
import ViewScript.Proofs.Disk.Making

namespace ViewScript.Disk

open ViewScript.Path (namesIn isVoid cutAtSlashes trimEnd Ends Tidy)

/-! ### Ways -/

/-- A name cannot be gone from a location, whatever folders are made. -/
def blocks (contents : Location → Option Content) (location : Location) (name : Text) : Bool :=
  decide (nameLimit < name.byteSize) || isFileAt contents (step location name)

/-- The whole way can be opened. -/
def isOpen (contents : Location → Option Content) : Location → List Text → Bool
  | _, [] => true
  | location, name :: names =>
    !blocks contents location name && isOpen contents (step location name) names

/-- The locations on a way, as far as it can be opened. -/
def opened (contents : Location → Option Content) : Location → List Text → List Location
  | _, [] => []
  | location, name :: names =>
    if blocks contents location name then []
    else step location name :: opened contents (step location name) names

/-- The contents with folders at some locations, where nothing was. -/
def withMade (contents : Location → Option Content) (made : List Location)
    (location : Location) : Option Content :=
  if contents location = none ∧ location ∈ made then some .folder else contents location

section Ways

variable {contents contents' : Location → Option Content} {location other : Location}
  {names : List Text} {made : List Location}

theorem isOpen_concat (location : Location) (names : List Text) (last : Text) :
    isOpen contents location (names ++ [last]) =
      (isOpen contents location names && !blocks contents (names.foldl step location) last) := by
  induction names generalizing location with
  | nil => simp [isOpen]
  | cons name names ih => simp [isOpen, ih, Bool.and_assoc]

theorem opened_concat (location : Location) (names : List Text) (last : Text) :
    opened contents location (names ++ [last]) = opened contents location names ++
      if isOpen contents location (names ++ [last]) then [(names ++ [last]).foldl step location]
      else [] := by
  induction names generalizing location with
  | nil => cases blocked : blocks contents location last <;> simp [opened, isOpen, blocked]
  | cons name names ih =>
    cases blocked : blocks contents location name with
    | true => simp [opened, isOpen, blocked]
    | false => simp [opened, isOpen, blocked, ih]

/-- What is opened is on the way. -/
theorem exists_of_mem_opened (member : other ∈ opened contents location names) :
    ∃ front, front ≠ [] ∧ front <+: names ∧ other = front.foldl step location := by
  induction names generalizing location with
  | nil => cases member
  | cons name names ih =>
    unfold opened at member
    split at member
    · cases member
    rcases List.mem_cons.mp member with rfl | later
    · exact ⟨[name], by simp, by simp, rfl⟩
    · obtain ⟨front, -, isPrefix, rfl⟩ := ih later
      exact ⟨name :: front, by simp, List.cons_prefix_cons.mpr ⟨rfl, isPrefix⟩, rfl⟩

/-- If the whole way can be opened, all that is on it is opened. -/
theorem mem_opened {front : List Text} (clear : isOpen contents location names = true)
    (nonempty : front ≠ []) (isPrefix : front <+: names) :
    front.foldl step location ∈ opened contents location names := by
  induction names generalizing location front with
  | nil => exact (nonempty (List.prefix_nil.mp isPrefix)).elim
  | cons name names ih =>
    obtain ⟨free, clear⟩ : blocks contents location name = false ∧
        isOpen contents (step location name) names = true := by
      simpa [isOpen] using clear
    cases front with
    | nil => exact (nonempty rfl).elim
    | cons first front =>
      obtain ⟨rfl, inside⟩ := List.cons_prefix_cons.mp isPrefix
      simp only [opened, free, Bool.false_eq_true, if_false, List.foldl_cons, List.mem_cons]
      cases front with
      | nil => exact .inl rfl
      | cons second front => exact .inr (ih clear (by simp) inside)

theorem isFileAt_of_mem_opened (member : other ∈ opened contents location names) :
    isFileAt contents other = false := by
  induction names generalizing location with
  | nil => cases member
  | cons name names ih =>
    unfold opened at member
    split at member
    · cases member
    next free =>
      rcases List.mem_cons.mp member with rfl | later
      · simp only [blocks, Bool.or_eq_true, not_or, Bool.not_eq_true] at free
        exact free.2
      · exact ih later

/-- The files on a way decide how far it can be opened. -/
theorem opened_congr (same : ∀ front, front ≠ [] → front <+: names →
      isFileAt contents (front.foldl step location) =
        isFileAt contents' (front.foldl step location)) :
    isOpen contents location names = isOpen contents' location names ∧
      opened contents location names = opened contents' location names := by
  induction names generalizing location with
  | nil => exact ⟨rfl, rfl⟩
  | cons name names ih =>
    have first : blocks contents location name = blocks contents' location name := by
      have here := same [name] (by simp) (by simp)
      simp only [List.foldl_cons, List.foldl_nil] at here
      simp only [blocks, here]
    have rest := @ih (step location name) fun front nonempty isPrefix =>
      same (name :: front) (by simp) (List.cons_prefix_cons.mpr ⟨rfl, isPrefix⟩)
    simp only [isOpen, opened, first, rest.1, rest.2, and_self]

theorem withMade_eq_self (standing : ∀ location ∈ made, contents location ≠ none) :
    withMade contents made = contents := by
  funext location
  exact if_neg fun ⟨missing, member⟩ => standing location member missing

theorem withMade_withMade (first second : List Location) :
    withMade (withMade contents first) second = withMade contents (first ++ second) := by
  funext location
  unfold withMade
  by_cases missing : contents location = none
  · by_cases inFirst : location ∈ first <;> simp [missing, inFirst]
  · simp [missing]

@[simp] theorem isFileAt_withMade :
    isFileAt (withMade contents made) location = isFileAt contents location := by
  unfold isFileAt withMade
  split_ifs with new
  · simp [new.1]
  · rfl

theorem withMade_congr {made' : List Location}
    (same : ∀ location, location ∈ made ↔ location ∈ made') :
    withMade contents made = withMade contents made' := by
  funext location
  simp only [withMade, same]

theorem withMade_eq_folder_iff :
    withMade contents made location = some .folder ↔
      contents location = some .folder ∨ contents location = none ∧ location ∈ made := by
  unfold withMade
  split_ifs with new
  · simp [new]
  · simp [new]

end Ways

/-! ### Going a way and opening it -/

section Going

variable {disk : Disk} {location folder : Location} {names : List Text}

theorem content?_step_up (isFolder : disk.content? folder = some .folder) :
    disk.content? (step folder ['.', '.']) = some .folder := by
  have up : step folder ['.', '.'] = folder.dropLast := rfl
  rw [up]
  by_cases top : folder = []
  · rwa [top] at isFolder ⊢
  · refine content?_of_isPrefix (List.dropLast_prefix folder) ?_ (by simp [isFolder])
    intro same
    have shorter := congrArg List.length same
    have := List.length_pos_iff.mpr top
    rw [List.length_dropLast] at shorter
    omega

/-- If nothing is missing on a way, it can be opened just when it can be gone, and what is
    opened stands. -/
theorem opened_of_folderAt (standing : disk.content? location = some .folder)
    (present : disk.folderAt location names ≠ .error .notFound) :
    isOpen disk.content? location names = (disk.folderAt location names).isOk ∧
      ∀ other ∈ opened disk.content? location names, disk.content? other = some .folder := by
  induction names generalizing location with
  | nil =>
    have here : disk.folderAt location [] = .ok location :=
      folderAt_eq_ok_iff.mpr ⟨rfl, standing⟩
    simp [isOpen, opened, here, Except.isOk, Except.toBool]
  | cons name names ih =>
    have way : disk.folderAt location (name :: names) =
        (disk.folderAt location [name] >>= fun folder => disk.folderAt folder names) :=
      folderAt_append location [name] names
    have one := @folderAt_concat disk location [] name
    have here : disk.folderAt location [] = .ok location :=
      folderAt_eq_ok_iff.mpr ⟨rfl, standing⟩
    simp only [List.nil_append, here, bind, Except.bind] at one
    by_cases long : nameLimit < name.byteSize
    · simp only [long, if_true] at one
      simp [way, one, bind, Except.bind, isOpen, opened, blocks, long, Except.isOk, Except.toBool]
    simp only [long, if_false] at one
    cases found : disk.content? (step location name) with
    | none =>
      simp only [found] at one
      exact (present (by rw [way, one]; rfl)).elim
    | some content =>
      cases content with
      | file bytes =>
        simp only [found] at one
        simp [way, one, bind, Except.bind, isOpen, opened, blocks, isFileAt, found, Except.isOk,
          Except.toBool]
      | folder =>
        simp only [found] at one
        rw [way, one] at present ⊢
        obtain ⟨same, stands⟩ := ih found present
        have free : blocks disk.content? location name = false := by
          simp [blocks, long, isFileAt, found]
        constructor
        · simp only [isOpen, free, Bool.not_false, Bool.true_and]
          exact same
        · intro other member
          simp only [opened, free, Bool.false_eq_true, if_false, List.mem_cons] at member
          rcases member with rfl | later
          · exact found
          · exact stands other later

/-- A way that can be opened can be gone, if there are folders all along. -/
theorem folderAt_of_isOpen {contents : Location → Option Content}
    (clear : isOpen contents location names = true)
    (standing : disk.content? location = some .folder)
    (stands : ∀ {front : List Text}, front ≠ [] → front <+: names →
      disk.content? (front.foldl step location) = some .folder) :
    disk.folderAt location names = .ok (names.foldl step location) := by
  induction names using List.reverseRecOn with
  | nil => exact folderAt_eq_ok_iff.mpr ⟨rfl, standing⟩
  | append_singleton names last ih =>
    rw [isOpen_concat, Bool.and_eq_true, Bool.not_eq_true'] at clear
    have short : ¬ nameLimit < last.byteSize := by
      simpa using (Bool.or_eq_false_iff.mp clear.2).1
    have isFolder := stands (by simp) (List.prefix_refl (names ++ [last]))
    rw [List.foldl_concat] at isFolder ⊢
    rw [folderAt_concat, ih clear.1 fun nonempty isPrefix =>
      stands nonempty (isPrefix.trans (List.prefix_append names [last]))]
    simp [bind, Except.bind, short, isFolder]

end Going

/-- A chain of folders opens the way of a path. -/
structure Opens (disk : Disk) (path : Path) (chain : List Path) : Prop where
  isOk : (disk.makeFolderChain chain).1 = .ok () ↔
    isOpen disk.content? (disk.start path) path.names = true
  content? : (disk.makeFolderChain chain).2.content? =
    withMade disk.content? (opened disk.content? (disk.start path) path.names)

section Opening

variable {disk : Disk} {path : Path} {front : List Text} {last : Text} {folder : Location}

theorem names_of_ends (ends : path.Ends front last) : path.names = namesIn front ++ [last] := by
  rw [Path.names, ends.cut, Path.namesIn_append, Path.namesIn_singleton ends.solid]

/-- A folder that stands is all there is to do. -/
theorem opens_of_isFolder (tidy : path.Tidy) (isFolder : disk.isFolder path = true)
    (standing : disk.content? (disk.start path) = some .folder) (ancestors : List Path) :
    disk.Opens path (path :: ancestors) := by
  have found : disk.makeFolder path ≠ .error .notFound := by
    simp [makeFolder_of_isFolder tidy isFolder]
  have run : disk.makeFolderChain (path :: ancestors) = (.ok (), disk) := by
    rw [makeFolderChain_of_found found, settle_of_isFolder tidy isFolder]
  obtain ⟨folder, reached⟩ := isFolder_eq_true_iff.mp isFolder
  have way : disk.folderAt (disk.start path) path.names = .ok folder := by
    rw [Path.names, folderAt_namesIn]
    exact (reach_eq_ok_iff.mp reached).2
  have present : disk.folderAt (disk.start path) path.names ≠ .error .notFound := by simp [way]
  obtain ⟨clear, stands⟩ := opened_of_folderAt standing present
  refine ⟨?_, ?_⟩
  · simp [run, clear, way, Except.isOk, Except.toBool]
  · rw [run, withMade_eq_self]
    intro location member
    simp [stands location member]

/-- With the folder above it there, a path is settled, and its last name opened. -/
theorem settle_eq_withMade (ends : path.Ends front last)
    (reached : disk.reach path front = .ok folder) :
    ((disk.settle path).1 = .ok () ↔ blocks disk.content? folder last = false) ∧
      (disk.settle path).2.content? = withMade disk.content?
        (if blocks disk.content? folder last then [] else [step folder last]) := by
  have isFolder := content?_of_reach reached
  by_cases isUp : last = ['.', '.']
  · subst isUp
    have stands := content?_step_up isFolder
    have short : ¬ nameLimit < Text.byteSize ['.', '.'] := by decide
    have free : blocks disk.content? folder ['.', '.'] = false := by
      simp only [blocks, short, isFileAt, stands, decide_false, Bool.or_false]
    have reachedUp : disk.isFolder path = true := by
      refine isFolder_eq_true_iff.mpr ⟨step folder ['.', '.'], ?_⟩
      rw [ends.cut, reach_concat, reached]
      simp only [bind, Except.bind, short, stands, if_false]
    rw [settle_of_isFolder (.ends ends) reachedUp, withMade_eq_self]
    · simp [free]
    · simp [free, stands]
  rw [settle_of_reach ends isUp reached, blocks, step_of_solid ends.solid isUp]
  by_cases long : nameLimit < last.byteSize
  · simp [long, withMade_eq_self]
  have flat : IsFlat (some (.folder [])) := trivial
  cases found : disk.content? (folder ++ [last]) with
  | none =>
    simp only [long, if_false, isFileAt, found, decide_false, Bool.or_false, Bool.false_eq_true,
      true_and, iff_self]
    funext location
    rw [content?_alter flat isFolder (by simp [found]), withMade]
    by_cases here : location = folder ++ [last]
    · simp [here, found, Entry.content]
    · simp [here]
  | some content =>
    cases content with
    | folder => simp [long, isFileAt, found, withMade_eq_self]
    | file bytes => simp [long, isFileAt, found, withMade_eq_self]

/-- The folders above are there, or are now, and the path is settled. -/
theorem opens_of_settle {base : Disk} {ancestors : List Path} {isPlace : Location → Prop}
    (adds : Adds isPlace disk base) (ends : path.Ends front last)
    (clear : isOpen disk.content? (disk.start path) (namesIn front) = true)
    (above : base.content? =
      withMade disk.content? (opened disk.content? (disk.start path) (namesIn front)))
    (reached : base.reach path front = .ok folder)
    (run : disk.makeFolderChain (path :: ancestors) = base.settle path) :
    disk.Opens path (path :: ancestors) := by
  have place : folder = (namesIn front).foldl step (disk.start path) := by
    have found := (reach_eq_ok_iff.mp reached).2
    rw [foldl_step_namesIn, ← adds.grows.start, ← follow_eq_foldl (folderAt_eq_ok_iff.mp found).1]
  have sameFiles : blocks base.content? folder last = blocks disk.content? folder last := by
    simp only [blocks, above, isFileAt_withMade]
  obtain ⟨isOk, contents⟩ := settle_eq_withMade ends reached
  rw [sameFiles] at isOk contents
  refine ⟨?_, ?_⟩
  · rw [run, isOk, names_of_ends ends, isOpen_concat, clear, ← place]
    simp
  · rw [run, contents, above, withMade_withMade, names_of_ends ends, opened_concat,
      isOpen_concat, clear, List.foldl_append, ← place]
    cases blocks disk.content? folder last <;> rfl

/-- The way above the path cannot be opened. -/
theorem opens_of_blocked {ancestors : List Path} {made : Disk} {error : FileError}
    (ends : path.Ends front last)
    (blocked : isOpen disk.content? (disk.start path) (namesIn front) = false)
    (above : made.content? =
      withMade disk.content? (opened disk.content? (disk.start path) (namesIn front)))
    (run : disk.makeFolderChain (path :: ancestors) = (.error error, made)) :
    disk.Opens path (path :: ancestors) := by
  refine ⟨?_, ?_⟩
  · rw [run, names_of_ends ends, isOpen_concat, blocked]
    simp
  · rw [run, names_of_ends ends, opened_concat, isOpen_concat, blocked, above]
    simp

/-- The folder above is missing, and its own chain comes first. -/
theorem opens_of_missing {parent : Path} {limit : Nat} (ends : path.Ends front last)
    (ok : checkPath path = .ok ()) (missing : disk.reach path front = .error .notFound)
    (tidy : parent.Tidy) (written : parent.text ≠ []) (isPrefix : parent.text <+: path.text)
    (sameWay : trimEnd (cutAtSlashes parent.text) = trimEnd front)
    (opens : disk.Opens parent ((parent.ancestorsUpTo limit).filter (·.text != []))) :
    disk.Opens path (path :: (parent.ancestorsUpTo limit).filter (·.text != [])) := by
  have start := start_of_isPrefix written isPrefix
  have names : parent.names = namesIn front := Path.namesIn_congr sameWay
  have failed := makeFolder_of_reach_eq_error ends missing
  have parentOk := checkPath_of_isPrefix written isPrefix ok
  obtain ⟨ancestors, chain⟩ := exists_chain written limit
  have adds := adds_makeFolderChain disk ((parent.ancestorsUpTo limit).filter (·.text != []))
  obtain ⟨isOk, contents⟩ := opens
  rw [start, names] at isOk contents
  have run := makeFolderChain_of_notFound failed
    ((parent.ancestorsUpTo limit).filter (·.text != []))
  have isFolder : (disk.makeFolderChain
      ((parent.ancestorsUpTo limit).filter (·.text != []))).1 = .ok () →
      (disk.makeFolderChain
        ((parent.ancestorsUpTo limit).filter (·.text != []))).2.isFolder parent = true := by
    rw [chain]
    exact isFolder_of_makeFolderChain tidy
  generalize disk.makeFolderChain
    ((parent.ancestorsUpTo limit).filter (·.text != [])) = above at adds isOk contents run isFolder
  obtain ⟨result, made⟩ := above
  cases result with
  | ok =>
    obtain ⟨folder, reached⟩ := isFolder_eq_true_iff.mp (isFolder rfl)
    rw [reach_of_checkPath parentOk, start, folderAt_congr sameWay, ← reach_of_checkPath ok]
      at reached
    exact opens_of_settle adds ends (isOk.mp rfl) contents reached run
  | error error =>
    have blocked : isOpen disk.content? (disk.start path) (namesIn front) = false := by
      by_contra clear
      cases isOk.mpr (by simpa using clear)
    exact opens_of_blocked ends blocked contents run

theorem opens_of_anchor (standing : disk.content? (disk.start path) = some .folder)
    (anchor : path = ⟨['/']⟩ ∨ path = ⟨['.']⟩) (limit : Nat) :
    disk.Opens path ((path.ancestorsUpTo limit).filter (·.text != [])) := by
  rw [chain_of_anchor limit anchor]
  refine opens_of_isFolder ?_ (isFolder_of_anchor standing anchor) standing []
  rcases anchor with rfl | rfl
  · exact .top
  · exact .here

/-- **A chain of folders opens the way of its path.**  The induction is on the ancestors of the
    path: what is missing above it is made first. -/
theorem opens_ancestors (tidy : path.Tidy)
    (standing : disk.content? (disk.start path) = some .folder) (ok : checkPath path = .ok ())
    {limit : Nat} (enough : path.names.length ≤ limit) :
    disk.Opens path ((path.ancestorsUpTo limit).filter (·.text != [])) := by
  induction limit generalizing path with
  | zero =>
    cases tidy with
    | top => exact opens_of_anchor standing (.inl rfl) 0
    | here => exact opens_of_anchor standing (.inr rfl) 0
    | ends ends => simp [names_of_ends ends] at enough
  | succ limit ih =>
    cases tidy with
    | top => exact opens_of_anchor standing (.inl rfl) (limit + 1)
    | here => exact opens_of_anchor standing (.inr rfl) (limit + 1)
    | @ends _ front last ends =>
      obtain ⟨parent, above, isPrefix, sameWay, shape⟩ := ends.parent?
      rw [chain_of_ends ends above]
      have way : disk.folderAt (disk.start path) (namesIn front) = disk.reach path front := by
        rw [folderAt_namesIn, reach_of_checkPath ok]
      by_cases missing : disk.reach path front = .error .notFound
      · rcases shape with ⟨-, rfl⟩ | ⟨written, tidy⟩
        · have here : disk.folderAt (disk.start path) [] = .ok (disk.start path) :=
            folderAt_eq_ok_iff.mpr ⟨rfl, standing⟩
          rw [reach_of_checkPath ok, here] at missing
          cases missing
        · have start := start_of_isPrefix written isPrefix disk
          have parentOk := checkPath_of_isPrefix written isPrefix ok
          have shorter : parent.names.length ≤ limit := by
            rw [names_of_ends ends] at enough
            rw [Path.names, Path.namesIn_congr sameWay]
            simpa using enough
          exact opens_of_missing ends ok missing tidy written isPrefix sameWay
            (ih tidy (start ▸ standing) parentOk shorter)
      · -- Nothing is missing above, so that what is opened there stands already.
        obtain ⟨clear, stands⟩ := opened_of_folderAt standing (way ▸ missing)
        have above : disk.content? =
            withMade disk.content? (opened disk.content? (disk.start path) (namesIn front)) := by
          refine (withMade_eq_self fun location member => ?_).symm
          simp [stands location member]
        cases reached : disk.reach path front with
        | ok folder =>
          have found : disk.makeFolder path ≠ .error .notFound := by
            by_cases isUp : last = ['.', '.']
            · subst isUp
              simp [makeFolder_of_ends_up ends, reached, bind, Except.bind]
            · exact makeFolder_ne_notFound ends isUp reached
          rw [way, reached] at clear
          exact opens_of_settle (.refl (fun _ => True) disk) ends clear above reached
            (makeFolderChain_of_found found _)
        | error error =>
          have other : error ≠ .notFound := by
            rintro rfl
            exact missing reached
          rw [way, reached] at clear
          exact opens_of_blocked ends clear above (makeFolderChain_of_reach_eq_error ends reached other _)

/-- **To make the folders of a path is to open its way.** -/
theorem opens_makeFolders (tidy : path.Tidy)
    (standing : disk.content? (disk.start path) = some .folder) (ok : checkPath path = .ok ()) :
    ((disk.makeFolders path).1 = .ok () ↔
        isOpen disk.content? (disk.start path) path.names = true) ∧
      (disk.makeFolders path).2.content? =
        withMade disk.content? (opened disk.content? (disk.start path) path.names) := by
  have enough : path.names.length ≤ path.components.length := by
    rw [Path.components_eq]
    simp
  obtain ⟨isOk, contents⟩ := opens_ancestors tidy standing ok enough
  exact ⟨isOk, contents⟩

end Opening

end ViewScript.Disk
