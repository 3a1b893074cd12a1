/-
  ViewScript/Disk/Entry.lean
  ==========================
  **Files and folders.**

  A folder holds entries by name, and an entry is a file or again a folder.  A
  location is the list of names that leads to an entry from above; the view of a
  tree of entries is what stands at each location.
-/
import ViewScript.Text.Utf8

namespace ViewScript

/-- A file, or a folder with its entries. -/
inductive Entry where
  | file (contents : Bytes)
  | folder (entries : List (Text × Entry))
deriving Repr

/-- The names that lead to an entry. -/
abbrev Location := List Text

/-- A tree of entries without the contents of its files. -/
inductive Shape where
  | file
  | folder (entries : List (Text × Shape))
deriving Repr

def Shape.isFolder : Shape → Bool
  | .file => false
  | .folder _ => true

namespace Entry

def isFolder : Entry → Bool
  | .file _ => false
  | .folder _ => true

/-- What stands at a location. -/
def get? : Location → Entry → Option Entry
  | [], entry => some entry
  | name :: names, .folder entries => (entries.lookup name).bind (get? names)
  | _ :: _, .file _ => none

/-- Change the entry of a name: `some` puts an entry there, `none` takes it away. -/
def alterName (name : Text) (change : Option Entry) (entries : List (Text × Entry)) :
    List (Text × Entry) :=
  match change with
  | none => entries.filter (·.1 != name)
  | some entry =>
    if entries.any (·.1 == name) then
      entries.map fun (other, old) => if other == name then (other, entry) else (other, old)
    else entries ++ [(name, entry)]

/-- Change what stands at a location whose folder exists. -/
def alter (change : Option Entry) : Location → Entry → Entry
  | [name], .folder entries => .folder (alterName name change entries)
  | name :: next :: names, .folder entries =>
    match entries.lookup name with
    | some inner => .folder (alterName name (some (alter change (next :: names) inner)) entries)
    | none => .folder entries
  | _, entry => entry

mutual

/-- Forget the contents of the files. -/
def shape : Entry → Shape
  | .file _ => .file
  | .folder entries => .folder (shapes entries)

def shapes : List (Text × Entry) → List (Text × Shape)
  | [] => []
  | (name, entry) :: entries => (name, entry.shape) :: shapes entries

end

mutual

/-- Every location in a tree, the one at its top aside, with the contents if it is
    a file. -/
def toList : Entry → List (Location × Option Bytes)
  | .file _ => []
  | .folder entries => listEntries entries

def listEntries : List (Text × Entry) → List (Location × Option Bytes)
  | [] => []
  | (name, .file contents) :: entries => ([name], some contents) :: listEntries entries
  | (name, .folder inner) :: entries =>
    ([name], none) ::
      (listEntries inner).map (fun (names, contents) => (name :: names, contents)) ++
      listEntries entries

end

/-! ### What a change of one name shows -/

theorem lookup_filter_ne (entries : List (Text × Entry)) {name other : Text}
    (distinct : other ≠ name) :
    (entries.filter (·.1 != name)).lookup other = entries.lookup other := by
  induction entries with
  | nil => rfl
  | cons entry entries ih =>
    obtain ⟨key, value⟩ := entry
    by_cases same : key = name
    · subst same
      simp [List.lookup_cons, ih, beq_false_of_ne distinct]
    · simp [same, List.lookup_cons, ih]

theorem lookup_eq_none_of_forall_ne {entries : List (Text × Entry)} {name : Text}
    (absent : ∀ entry ∈ entries, entry.1 ≠ name) : entries.lookup name = none :=
  List.lookup_eq_none_iff.mpr fun entry member => by simpa using (absent entry member).symm

/-- A changed name has what it was changed to. -/
@[simp] theorem lookup_alterName_same (name : Text) (change : Option Entry)
    (entries : List (Text × Entry)) : (alterName name change entries).lookup name = change := by
  fun_cases alterName name change entries with
  | case1 =>
    exact lookup_eq_none_of_forall_ne fun entry member => by
      simpa using (List.mem_filter.mp member).2
  | case2 entry found =>
    induction entries with
    | nil => simp at found
    | cons first rest ih =>
      obtain ⟨key, value⟩ := first
      by_cases same : key = name
      · simp [same]
      · have found : rest.any (·.1 == name) = true := by simpa [same] using found
        simpa [same, List.lookup_cons, beq_false_of_ne (Ne.symm same)] using ih found
  | case3 entry missing =>
    have absent : entries.lookup name = none :=
      lookup_eq_none_of_forall_ne fun entry member same =>
        missing (List.any_eq_true.mpr ⟨entry, member, by simp [same]⟩)
    simp [List.lookup_append, absent]

/-- The other names keep what they had. -/
theorem lookup_alterName_other {name other : Text} (distinct : other ≠ name)
    (change : Option Entry) (entries : List (Text × Entry)) :
    (alterName name change entries).lookup other = entries.lookup other := by
  have differs := beq_false_of_ne distinct
  fun_cases alterName name change entries with
  | case1 => exact lookup_filter_ne entries distinct
  | case2 entry found =>
    clear found
    induction entries with
    | nil => rfl
    | cons first rest ih =>
      obtain ⟨key, value⟩ := first
      by_cases same : key = name
      · simpa [same, List.lookup_cons, differs] using ih
      · simp only [List.map_cons, beq_false_of_ne same, Bool.false_eq_true, if_false,
          List.lookup_cons, ih]
  | case3 entry missing => simp [List.lookup_append, List.lookup_cons, differs]

end Entry

end ViewScript
