/-
  ViewScript/Proofs/Disk/Contents.lean
  ====================================
  **What stands where.**

  The entries of a folder are kept in a list, and operations may leave them in any
  order.  What a disk holds is therefore compared by its *contents*: at every location
  there is nothing, a folder, or a file with its bytes.

  Each operation changes the contents of one location at a time, and only of locations
  that are in a folder and are no folder themselves.  Such a change is seen at the
  location and nowhere else.
-/
import Mathlib.Data.List.Infix
import ViewScript.Disk.Basic

namespace ViewScript

/-- What stands at a location, without what stands below it. -/
inductive Content where
  | file (contents : Bytes)
  | folder
deriving DecidableEq, Repr

def Entry.content : Entry → Content
  | .file contents => .file contents
  | .folder _ => .folder

/-- What leads to a folder does not lead into it. -/
theorem ne_inside_of_isPrefix {location folder : Location} (isPrefix : location <+: folder)
    (name : Text) : location ≠ folder ++ [name] := by
  rintro rfl
  have shorter := isPrefix.length_le
  rw [List.length_append, List.length_singleton] at shorter
  omega

namespace Entry

theorem get?_append (front back : Location) (entry : Entry) :
    get? (front ++ back) entry = (get? front entry).bind (get? back) := by
  induction front generalizing entry with
  | nil => rfl
  | cons name front ih =>
    cases entry with
    | file contents => rfl
    | folder entries =>
      simp only [List.cons_append, get?]
      cases entries.lookup name with
      | none => rfl
      | some inner => exact ih inner

/-! ### Changing one location -/

theorem alter_cons (change : Option Entry) (above : Text) (folder : Location) (name : Text)
    (entries : List (Text × Entry)) :
    alter change (above :: (folder ++ [name])) (.folder entries) =
      match entries.lookup above with
      | some inner =>
        .folder (alterName above (some (alter change (folder ++ [name]) inner)) entries)
      | none => .folder entries := by
  cases folder <;> rfl

/-- At and below a location that was changed stands what it was changed to. -/
theorem get?_alter_same {change : Option Entry} {folder : Location} {name : Text} {entry : Entry}
    {entries : List (Text × Entry)} (found : get? folder entry = some (.folder entries))
    (below : Location) :
    get? (folder ++ name :: below) (alter change (folder ++ [name]) entry) =
      change.bind (get? below) := by
  induction folder generalizing entry with
  | nil =>
    cases found
    simp [alter, get?]
  | cons above folder ih =>
    cases entry with
    | file contents => cases found
    | folder siblings =>
      obtain ⟨inner, isInner, found⟩ := Option.bind_eq_some_iff.mp found
      simp only [List.cons_append, alter_cons, isInner, get?, lookup_alterName_same]
      exact ih found

/-- A change is not seen at locations that are not below the one that was changed. -/
theorem content_alter_other {change : Option Entry} {folder : Location} {name : Text}
    {other : Location} (outside : ¬ folder ++ [name] <+: other) (entry : Entry) :
    (get? other (alter change (folder ++ [name]) entry)).map content =
      (get? other entry).map content := by
  induction folder generalizing entry other with
  | nil =>
    cases entry with
    | file contents => rfl
    | folder entries =>
      cases other with
      | nil => rfl
      | cons first rest =>
        have distinct : first ≠ name := by
          rintro rfl
          exact outside ⟨rest, rfl⟩
        simp only [List.nil_append, alter, get?, lookup_alterName_other distinct]
  | cons above folder ih =>
    cases entry with
    | file contents => cases folder <;> rfl
    | folder entries =>
      rw [List.cons_append, alter_cons]
      cases isInner : entries.lookup above with
      | none => rfl
      | some inner =>
        cases other with
        | nil => rfl
        | cons first rest =>
          by_cases same : first = above
          · subst same
            have deeper : ¬ folder ++ [name] <+: rest := fun ⟨back, split⟩ =>
              outside ⟨back, by rw [List.cons_append, List.cons_append, split]⟩
            simpa only [get?, lookup_alterName_same, isInner, Option.bind_some] using
              ih deeper inner
          · simp only [get?, lookup_alterName_other same]

end Entry

namespace Disk

/-- What stands at a location. -/
def content? (disk : Disk) (location : Location) : Option Content :=
  (disk.root.get? location).map Entry.content

/-- The two disks hold the same. -/
def SameTree (first second : Disk) : Prop :=
  ∀ location, first.content? location = second.content? location

variable {disk : Disk} {location folder : Location} {name : Text}

theorem content?_eq_folder_iff :
    disk.content? location = some .folder ↔
      ∃ entries, disk.root.get? location = some (.folder entries) := by
  unfold content?
  cases disk.root.get? location with
  | none => simp
  | some entry => cases entry <;> simp [Entry.content]

theorem content?_eq_file_iff {contents : Bytes} :
    disk.content? location = some (.file contents) ↔
      disk.root.get? location = some (.file contents) := by
  unfold content?
  cases disk.root.get? location with
  | none => simp
  | some entry => cases entry <;> simp [Entry.content]

/-- What is not at the top is in a folder. -/
theorem content?_eq_folder_of_below {below : Location}
    (present : disk.content? (folder ++ below) ≠ none) (inside : below ≠ []) :
    disk.content? folder = some .folder := by
  unfold content? at present ⊢
  rw [Entry.get?_append] at present
  cases found : disk.root.get? folder with
  | none => simp [found] at present
  | some entry =>
    cases entry with
    | folder entries => rfl
    | file contents =>
      cases below with
      | nil => exact (inside rfl).elim
      | cons name below => simp [found, Entry.get?] at present

theorem content?_of_isPrefix {front : Location} (isPrefix : front <+: location)
    (other : front ≠ location) (present : disk.content? location ≠ none) :
    disk.content? front = some .folder := by
  obtain ⟨below, rfl⟩ := isPrefix
  refine content?_eq_folder_of_below present ?_
  rintro rfl
  exact other (List.append_nil front).symm

/-- A change to nothing, to a file or to an empty folder. -/
def IsFlat : Option Entry → Prop
  | none | some (.file _) | some (.folder []) => True
  | some (.folder (_ :: _)) => False

theorem get?_of_isFlat {change : Option Entry} (flat : IsFlat change) {below : Location}
    (inside : below ≠ []) : change.bind (Entry.get? below) = none := by
  cases below with
  | nil => exact (inside rfl).elim
  | cons name below =>
    match change, flat with
    | none, _ => rfl
    | some (.file _), _ => rfl
    | some (.folder []), _ => rfl

/-- **A change is seen where it was made.**  It was made in a folder, and where there was
    no folder. -/
theorem content?_alter {change : Option Entry} (flat : IsFlat change)
    (inFolder : disk.content? folder = some .folder)
    (place : disk.content? (folder ++ [name]) ≠ some .folder) (location : Location) :
    (disk.alter (folder ++ [name]) change).content? location =
      if location = folder ++ [name] then change.map Entry.content
      else disk.content? location := by
  obtain ⟨entries, found⟩ := content?_eq_folder_iff.mp inFolder
  unfold alter content?
  by_cases inside : folder ++ [name] <+: location
  · obtain ⟨below, rfl⟩ := inside
    rw [List.append_assoc, List.singleton_append, Entry.get?_alter_same found]
    cases below with
    | nil => cases change <;> simp [Entry.get?]
    | cons first below =>
      have deeper : folder ++ name :: first :: below ≠ folder ++ [name] := by simp
      rw [if_neg deeper, get?_of_isFlat flat (List.cons_ne_nil first below)]
      symm
      by_contra present
      exact place (content?_of_isPrefix ⟨first :: below, by simp⟩ deeper.symm present)
  · have other : location ≠ folder ++ [name] := by
      rintro rfl
      exact inside (List.prefix_refl _)
    rw [if_neg other]
    exact Entry.content_alter_other inside disk.root

end Disk

/-! ### Trees of files -/

/-- A text that can be the name of an entry. -/
def isEntryName (name : Text) : Bool :=
  name != [] && !name.contains '/' && name != ['.'] && name != ['.', '.']

mutual

/-- Whether all names in a tree are names of entries, each given once in its folder. -/
def Entry.isWellFormed : Entry → Bool
  | .file _ => true
  | .folder entries => (entries.map (·.1)).Nodup && areWellFormed entries

def areWellFormed : List (Text × Entry) → Bool
  | [] => true
  | (name, entry) :: entries => isEntryName name && entry.isWellFormed && areWellFormed entries

end

/-- A disk whose top is a folder and whose entries have proper names. -/
def Disk.IsWellFormed (disk : Disk) : Prop :=
  disk.root.isFolder = true ∧ disk.root.isWellFormed = true

theorem Disk.IsWellFormed.content?_nil {disk : Disk} (wellFormed : disk.IsWellFormed) :
    disk.content? [] = some .folder := by
  have top := wellFormed.1
  unfold Disk.content? Entry.get?
  cases root : disk.root with
  | file contents => simp [root, Entry.isFolder] at top
  | folder entries => rfl

theorem isEntryName_iff {name : Text} :
    isEntryName name = true ↔ name ≠ [] ∧ '/' ∉ name ∧ name ≠ ['.'] ∧ name ≠ ['.', '.'] := by
  simp [isEntryName, and_assoc]

end ViewScript
