/-
  ViewScript/Proofs/Project/Search.lean
  =====================================
  **What a search finds.**

  A search spells out the path of all that it comes to: the path of a folder, and then the
  names of its entries.  It comes to a file if no folder on the way is passed over, and it
  comes to each file once.  It fails if it comes to a folder whose path is too long, and
  for no other reason.

  The paths are put in order.  As the order is linear on components, and different files
  have different components, the list depends on nothing but the files that there are.
-/
import Mathlib.Data.Char
import Mathlib.Data.List.Lex
import ViewScript.Proofs.Disk.Growth
import ViewScript.Proofs.Project.Replacing
import ViewScript.Proofs.Project.Targets

namespace ViewScript

/-! ### Trees of entries -/

namespace Entry

/-- What holds of files, and of folders if it holds of their entries, holds of every tree. -/
theorem induction {motive : Entry → Prop} (file : ∀ bytes, motive (.file bytes))
    (folder : ∀ entries, (∀ name entry, (name, entry) ∈ entries → motive entry) →
      motive (.folder entries))
    (entry : Entry) : motive entry := by
  refine @Entry.rec motive (fun entries => ∀ name entry, (name, entry) ∈ entries → motive entry)
    (fun pair => motive pair.2) file folder (by simp) ?_ (fun _ _ holds => holds) entry
  intro first rest holds ih name entry member
  rcases List.mem_cons.mp member with rfl | member
  · exact holds
  · exact ih name entry member

theorem shapes_eq_map (entries : List (Text × Entry)) :
    shapes entries = entries.map fun (name, entry) => (name, entry.shape) := by
  induction entries with
  | nil => rfl
  | cons first rest ih =>
    obtain ⟨name, entry⟩ := first
    simp [shapes, ih]

theorem isFolder_shape (entry : Entry) : entry.shape.isFolder = entry.isFolder := by
  cases entry <;> rfl

theorem lookup_of_mem {entries : List (Text × Entry)} {name : Text} {entry : Entry}
    (distinct : (entries.map (·.1)).Nodup) (member : (name, entry) ∈ entries) :
    entries.lookup name = some entry := by
  obtain ⟨front, back, rfl⟩ := List.append_of_mem member
  refine List.lookup_eq_some_iff.mpr ⟨front, back, rfl, fun other inFront => ?_⟩
  rw [List.map_append, List.map_cons] at distinct
  have apart := (List.nodup_append.mp distinct).2.2 other.1 (List.mem_map_of_mem inFront) name
    List.mem_cons_self
  simpa using apart.symm

theorem mem_of_lookup {entries : List (Text × Entry)} {name : Text} {entry : Entry}
    (found : entries.lookup name = some entry) : (name, entry) ∈ entries := by
  obtain ⟨front, back, rfl, -⟩ := List.lookup_eq_some_iff.mp found
  simp

end Entry

theorem isName_of_isEntryName {name : Text} (isEntryName : isEntryName name = true) :
    Path.IsName name := by
  obtain ⟨nonempty, slashFree, notDot, notUp⟩ := isEntryName_iff.mp isEntryName
  exact ⟨slashFree, by simp [Path.isVoid, nonempty, notDot], notUp⟩

/-- In a tree without flaws all that is below has a name and is without flaws. -/
theorem Entry.isNames_of_get? {location : Location} {entry inner : Entry}
    (wellFormed : entry.isWellFormed = true) (found : entry.get? location = some inner) :
    (∀ name ∈ location, Path.IsName name) ∧ inner.isWellFormed = true := by
  induction location generalizing entry with
  | nil =>
    cases found
    exact ⟨by simp, wellFormed⟩
  | cons name location ih =>
    cases entry with
    | file bytes => cases found
    | folder entries =>
      obtain ⟨next, isNext, isInner⟩ := Option.bind_eq_some_iff.mp found
      obtain ⟨isEntryName, flawless⟩ :=
        (Entry.isWellFormed_folder.mp wellFormed).2 _ (Entry.mem_of_lookup isNext)
      obtain ⟨isNames, innerWellFormed⟩ := ih flawless isInner
      refine ⟨?_, innerWellFormed⟩
      rintro other (_ | ⟨_, member⟩)
      · exact isName_of_isEntryName isEntryName
      · exact isNames other member

/-! ### Paths that are spelled out -/

namespace Path

/-- A path with names put after it, one after the other. -/
def below (path : Path) (names : List Text) : Path :=
  names.foldl (fun path name => path.join ⟨name⟩) path

variable {path : Path} {names names' : List Text}

theorem join_ne_nil (written : path.text ≠ []) (other : Path) : (path.join other).text ≠ [] := by
  unfold join
  split
  next absolute =>
    intro empty
    simp [isAbsolute, empty] at absolute
  next =>
    split <;> simp [written]

theorem below_concat (path : Path) (names : List Text) (name : Text) :
    path.below (names ++ [name]) = (path.below names).join ⟨name⟩ := by
  simp [below]

theorem extends_below (written : path.text ≠ []) (isNames : ∀ name ∈ names, IsName name) :
    (path.below names).Extends path names := by
  induction names using List.reverseRecOn with
  | nil => exact .inl ⟨rfl, rfl⟩
  | append_singleton names name ih =>
    have before : ∀ other ∈ names, IsName other := fun other member => isNames other (by simp [member])
    rw [below_concat]
    exact (ih before).join written before (isNames name (by simp))

theorem after_below (written : path.text ≠ []) (isNames : ∀ name ∈ names, IsName name) :
    (path.below names).After path names :=
  (extends_below written isNames).after written

/-- Different names make different paths. -/
theorem below_injective (written : path.text ≠ []) (isNames : ∀ name ∈ names, IsName name)
    (isNames' : ∀ name ∈ names', IsName name)
    (same : (path.below names).Same (path.below names')) : names = names' := by
  unfold Same at same
  rw [(after_below written isNames).components fun name member => (isNames name member).solid,
    (after_below written isNames').components fun name member => (isNames' name member).solid] at same
  exact componentOf_injective.list_map (List.append_cancel_left same)

end Path

/-! ### Searching the entries of a folder -/

section Entries

variable {test : Path → Bool} {folder bad file : Path} {entries : List (Text × Shape)}
  {files : List Path} {name : Text} {shape : Shape}

/-- The files of the first entry, if it is not passed over, and then those of the rest. -/
theorem filesBelow_cons (test : Path → Bool) (folder : Path) (name : Text) (shape : Shape)
    (entries : List (Text × Shape)) :
    filesBelow test folder ((name, shape) :: entries) =
      ((if shape.isFolder && isSkippedFolder name then .ok []
        else filesAt test (folder.join ⟨name⟩) shape) >>= fun first =>
          (filesBelow test folder entries).map (first ++ ·)) := by
  rw [filesBelow]
  by_cases passed : (shape.isFolder && isSkippedFolder name) = true
  · simp only [passed, if_true]
    cases filesBelow test folder entries <;> rfl
  · simp only [passed]
    cases filesAt test (folder.join ⟨name⟩) shape with
    | error bad => rfl
    | ok first => cases filesBelow test folder entries <;> rfl

theorem exists_of_filesBelow_cons
    (ok : filesBelow test folder ((name, shape) :: entries) = .ok files) :
    ∃ first rest, files = first ++ rest ∧ filesBelow test folder entries = .ok rest ∧
      if shape.isFolder && isSkippedFolder name then first = []
      else filesAt test (folder.join ⟨name⟩) shape = .ok first := by
  rw [filesBelow_cons] at ok
  cases below : filesBelow test folder entries with
  | error bad =>
    exfalso
    split at ok
    next => simp [below, bind, Except.bind, Except.map] at ok
    next =>
      cases found : filesAt test (folder.join ⟨name⟩) shape <;>
        simp [found, below, bind, Except.bind, Except.map] at ok
  | ok rest =>
    split at ok
    next passed =>
      refine ⟨[], rest, ?_, rfl, by rw [if_pos passed]⟩
      simpa [below, bind, Except.bind, Except.map] using ok.symm
    next entered =>
      cases found : filesAt test (folder.join ⟨name⟩) shape with
      | error bad => simp [found, bind, Except.bind] at ok
      | ok first =>
        refine ⟨first, rest, ?_, rfl, by rw [if_neg entered]⟩
        simpa [found, below, bind, Except.bind, Except.map] using ok.symm

/-- The search of an entry is a part of the search of all. -/
theorem filesAt_of_filesBelow (ok : filesBelow test folder entries = .ok files)
    (member : (name, shape) ∈ entries) (entered : (shape.isFolder && isSkippedFolder name) = false) :
    ∃ inner, filesAt test (folder.join ⟨name⟩) shape = .ok inner ∧ inner ⊆ files := by
  induction entries generalizing files with
  | nil => cases member
  | cons first rest ih =>
    obtain ⟨inFirst, inRest, rfl, okRest, isFirst⟩ := exists_of_filesBelow_cons ok
    rcases List.mem_cons.mp member with rfl | member
    · rw [entered] at isFirst
      exact ⟨inFirst, isFirst, List.subset_append_left _ _⟩
    · obtain ⟨inner, found, isSubset⟩ := ih okRest member
      exact ⟨inner, found, List.Subset.trans isSubset (List.subset_append_right _ _)⟩

theorem exists_of_mem_filesBelow (ok : filesBelow test folder entries = .ok files)
    (member : file ∈ files) :
    ∃ name shape inner, (name, shape) ∈ entries ∧
      (shape.isFolder && isSkippedFolder name) = false ∧
      filesAt test (folder.join ⟨name⟩) shape = .ok inner ∧ file ∈ inner := by
  induction entries generalizing files with
  | nil =>
    cases ok
    cases member
  | cons first rest ih =>
    obtain ⟨name, shape⟩ := first
    obtain ⟨inFirst, inRest, rfl, okRest, isFirst⟩ := exists_of_filesBelow_cons ok
    rcases List.mem_append.mp member with member | member
    · cases entered : shape.isFolder && isSkippedFolder name with
      | true =>
        obtain rfl : inFirst = [] := by simpa [entered] using isFirst
        cases member
      | false =>
        rw [entered] at isFirst
        exact ⟨name, shape, inFirst, List.mem_cons_self, entered, isFirst, member⟩
    · obtain ⟨name, shape, inner, inRest, found⟩ := ih okRest member
      exact ⟨name, shape, inner, List.mem_cons_of_mem _ inRest, found⟩

theorem exists_of_filesBelow_eq_error (failed : filesBelow test folder entries = .error bad) :
    ∃ name shape, (name, shape) ∈ entries ∧
      (shape.isFolder && isSkippedFolder name) = false ∧
      filesAt test (folder.join ⟨name⟩) shape = .error bad := by
  induction entries with
  | nil => cases failed
  | cons first rest ih =>
    obtain ⟨name, shape⟩ := first
    have later : filesBelow test folder rest = .error bad → ∃ name' shape',
        (name', shape') ∈ (name, shape) :: rest ∧
          (shape'.isFolder && isSkippedFolder name') = false ∧
          filesAt test (folder.join ⟨name'⟩) shape' = .error bad := by
      intro inRest
      obtain ⟨name', shape', member, found⟩ := ih inRest
      exact ⟨name', shape', List.mem_cons_of_mem _ member, found⟩
    rw [filesBelow_cons] at failed
    cases entered : shape.isFolder && isSkippedFolder name with
    | true =>
      cases inRest : filesBelow test folder rest with
      | ok => simp [entered, inRest, bind, Except.bind, Except.map] at failed
      | error error =>
        exact later (by simpa [entered, inRest, bind, Except.bind, Except.map] using failed)
    | false =>
      cases found : filesAt test (folder.join ⟨name⟩) shape with
      | error error =>
        refine ⟨name, shape, List.mem_cons_self, entered, ?_⟩
        simpa [entered, found, bind, Except.bind] using failed
      | ok inFirst =>
        cases inRest : filesBelow test folder rest with
        | ok => simp [entered, found, inRest, bind, Except.bind, Except.map] at failed
        | error error =>
          exact later (by simpa [entered, found, inRest, bind, Except.bind, Except.map] using failed)

/-- Entries without a file in common, none of which has a file twice. -/
theorem nodup_filesBelow (distinct : (entries.map (·.1)).Nodup)
    (ok : filesBelow test folder entries = .ok files)
    (each : ∀ {name shape inner}, (name, shape) ∈ entries →
      filesAt test (folder.join ⟨name⟩) shape = .ok inner → inner.Nodup)
    (apart : ∀ {name shape inner name' shape' inner' file}, (name, shape) ∈ entries →
      (name', shape') ∈ entries → filesAt test (folder.join ⟨name⟩) shape = .ok inner →
      filesAt test (folder.join ⟨name'⟩) shape' = .ok inner' → file ∈ inner → file ∈ inner' →
      name = name') : files.Nodup := by
  induction entries generalizing files with
  | nil =>
    cases ok
    exact List.nodup_nil
  | cons first rest ih =>
    obtain ⟨name, shape⟩ := first
    obtain ⟨inFirst, inRest, rfl, okRest, isFirst⟩ := exists_of_filesBelow_cons ok
    obtain ⟨absent, distinct⟩ := List.nodup_cons.mp distinct
    have nodupRest := ih distinct okRest (fun member => each (List.mem_cons_of_mem _ member))
      fun member member' => apart (List.mem_cons_of_mem _ member) (List.mem_cons_of_mem _ member')
    split at isFirst
    next => simpa [isFirst] using nodupRest
    next =>
      refine List.nodup_append.mpr ⟨each List.mem_cons_self isFirst, nodupRest, ?_⟩
      rintro file inFirst _ inRest rfl
      obtain ⟨name', shape', inner, member, -, found, inInner⟩ :=
        exists_of_mem_filesBelow okRest inRest
      obtain rfl : name = name' :=
        apart List.mem_cons_self (List.mem_cons_of_mem _ member) isFirst found inFirst inInner
      exact absent (List.mem_map.mpr ⟨_, member, rfl⟩)

end Entries

/-! ### Searching a tree -/

/-- No folder on the way to an entry is passed over, nor the entry itself. -/
def Entry.IsEntered (entry : Entry) (below : Location) : Prop :=
  ∀ name ∈ if entry.isFolder then below else below.dropLast, isSkippedFolder name = false

theorem Entry.isEntered_cons {entry inner : Entry} {below : Location}
    (found : entry.get? below = some inner) (name : Text) :
    inner.IsEntered (name :: below) ↔
      (entry.isFolder && isSkippedFolder name) = false ∧ inner.IsEntered below := by
  unfold IsEntered
  cases below with
  | nil =>
    obtain rfl : entry = inner := by simpa [get?] using found
    cases entry <;> simp [isFolder]
  | cons next below =>
    have isFolder : entry.isFolder = true := by
      cases entry with
      | file bytes => cases found
      | folder entries => rfl
    rw [isFolder]
    cases inner <;> simp [Entry.isFolder]

section Tree

variable {test : Path → Bool} {path bad file : Path} {entry inner : Entry} {files : List Path}
  {below : Location}

theorem filesBelow_of_filesAt {entries : List (Text × Entry)}
    (ok : filesAt test path (Entry.folder entries).shape = .ok files) :
    path.isTooLong = false ∧ filesBelow test path (Entry.shapes entries) = .ok files := by
  simp only [Entry.shape, filesAt] at ok
  split at ok
  next => cases ok
  next short => exact ⟨by simpa using short, ok⟩

/-- The search of a tree is also a search of what it comes to. -/
theorem filesAt_of_get? (ok : filesAt test path entry.shape = .ok files)
    (found : entry.get? below = some inner) (entered : inner.IsEntered below) :
    ∃ inFiles, filesAt test (path.below below) inner.shape = .ok inFiles ∧ inFiles ⊆ files := by
  induction below generalizing entry path files with
  | nil =>
    cases found
    exact ⟨files, ok, List.Subset.refl _⟩
  | cons name below ih =>
    cases entry with
    | file bytes => cases found
    | folder entries =>
      obtain ⟨next, isNext, isInner⟩ := Option.bind_eq_some_iff.mp found
      obtain ⟨nextEntered, innerEntered⟩ := (Entry.isEntered_cons isInner name).mp entered
      have member : (name, next.shape) ∈ Entry.shapes entries := by
        rw [Entry.shapes_eq_map]
        exact List.mem_map_of_mem (Entry.mem_of_lookup isNext)
      rw [← Entry.isFolder_shape] at nextEntered
      obtain ⟨nextFiles, okNext, isSubset⟩ :=
        filesAt_of_filesBelow (filesBelow_of_filesAt ok).2 member nextEntered
      obtain ⟨inFiles, okInner, isSubset'⟩ := ih okNext isInner innerEntered
      exact ⟨inFiles, okInner, List.Subset.trans isSubset' isSubset⟩

/-- Where a search goes on in an entry of a folder, it comes to what the search of the entry
    comes to. -/
theorem exists_get?_folder {entries : List (Text × Entry)} {name : Text} {shape : Shape}
    {outcome : Location → Entry → Prop}
    (wellFormed : (Entry.folder entries).isWellFormed = true)
    (member : (name, shape) ∈ Entry.shapes entries)
    (entered : (shape.isFolder && isSkippedFolder name) = false)
    (inside : ∀ entry, (name, entry) ∈ entries → shape = entry.shape →
      entry.isWellFormed = true → ∃ below inner, entry.get? below = some inner ∧
        inner.IsEntered below ∧ outcome (name :: below) inner) :
    ∃ below inner, (Entry.folder entries).get? below = some inner ∧ inner.IsEntered below ∧
      outcome below inner := by
  rw [Entry.shapes_eq_map] at member
  obtain ⟨⟨_, entry⟩, inEntries, same⟩ := List.mem_map.mp member
  obtain ⟨rfl, rfl⟩ := Prod.mk.inj same
  obtain ⟨distinct, flawless⟩ := Entry.isWellFormed_folder.mp wellFormed
  obtain ⟨below, inner, isInner, innerEntered, holds⟩ :=
    inside entry inEntries rfl (flawless _ inEntries).2
  refine ⟨_ :: below, inner, ?_, (Entry.isEntered_cons isInner _).mpr ⟨?_, innerEntered⟩, holds⟩
  · rw [Entry.get?, Entry.lookup_of_mem distinct inEntries, Option.bind_some, isInner]
  · rwa [Entry.isFolder_shape] at entered

theorem exists_of_mem_filesAt (wellFormed : entry.isWellFormed = true)
    (ok : filesAt test path entry.shape = .ok files) (member : file ∈ files) :
    ∃ below inner, entry.get? below = some inner ∧ inner.IsEntered below ∧
      inner.isFolder = false ∧ test file = true ∧ file = path.below below := by
  induction entry using Entry.induction generalizing path files with
  | file bytes =>
    cases tested : test path with
    | false =>
      obtain rfl : [] = files := by simpa [Entry.shape, filesAt, tested] using ok
      cases member
    | true =>
      obtain rfl : [path] = files := by simpa [Entry.shape, filesAt, tested] using ok
      obtain rfl := List.mem_singleton.mp member
      exact ⟨[], _, rfl, by simp [Entry.IsEntered], rfl, tested, rfl⟩
  | folder entries ih =>
    obtain ⟨name, shape, inFiles, inShapes, entered, okInner, inInner⟩ :=
      exists_of_mem_filesBelow (filesBelow_of_filesAt ok).2 member
    refine exists_get?_folder wellFormed inShapes entered fun entry inEntries isShape flawless => ?_
    subst isShape
    exact ih name entry inEntries flawless okInner inInner

/-- A search fails at a folder that it comes to and whose path is too long. -/
theorem exists_of_filesAt_eq_error (wellFormed : entry.isWellFormed = true)
    (failed : filesAt test path entry.shape = .error bad) :
    ∃ below inner, entry.get? below = some inner ∧ inner.IsEntered below ∧
      inner.isFolder = true ∧ bad.isTooLong = true ∧ bad = path.below below := by
  induction entry using Entry.induction generalizing path with
  | file bytes => cases failed
  | folder entries ih =>
    simp only [Entry.shape, filesAt] at failed
    split at failed
    next long =>
      obtain rfl := Except.error.inj failed
      exact ⟨[], _, rfl, by simp [Entry.IsEntered], rfl, long, rfl⟩
    next =>
      obtain ⟨name, shape, inShapes, entered, failed⟩ := exists_of_filesBelow_eq_error failed
      refine exists_get?_folder wellFormed inShapes entered
        fun entry inEntries isShape flawless => ?_
      subst isShape
      exact ih name entry inEntries flawless failed

theorem nodup_filesAt (wellFormed : entry.isWellFormed = true) (written : path.text ≠ [])
    (ok : filesAt test path entry.shape = .ok files) : files.Nodup := by
  induction entry using Entry.induction generalizing path files with
  | file bytes =>
    cases tested : test path with
    | false =>
      obtain rfl : [] = files := by simpa [Entry.shape, filesAt, tested] using ok
      exact List.nodup_nil
    | true =>
      obtain rfl : [path] = files := by simpa [Entry.shape, filesAt, tested] using ok
      simp
  | folder entries ih =>
    obtain ⟨distinct, flawless⟩ := Entry.isWellFormed_folder.mp wellFormed
    have isEntry : ∀ {name shape}, (name, shape) ∈ Entry.shapes entries →
        ∃ entry, (name, entry) ∈ entries ∧ shape = entry.shape := by
      intro name shape member
      rw [Entry.shapes_eq_map] at member
      obtain ⟨⟨_, entry⟩, inEntries, same⟩ := List.mem_map.mp member
      obtain ⟨rfl, rfl⟩ := Prod.mk.inj same
      exact ⟨entry, inEntries, rfl⟩
    refine nodup_filesBelow ?_ (filesBelow_of_filesAt ok).2 ?_ ?_
    · rw [Entry.shapes_eq_map]
      simpa [Function.comp_def] using distinct
    · intro name shape inFiles member okInner
      obtain ⟨entry, inEntries, rfl⟩ := isEntry member
      exact ih name entry inEntries (flawless _ inEntries).2 (Path.join_ne_nil written _) okInner
    · -- A file is found under one path, and so below one entry.
      intro name shape inFiles name' shape' inFiles' file member member' found found' isIn isIn'
      obtain ⟨entry, inEntries, rfl⟩ := isEntry member
      obtain ⟨entry', inEntries', rfl⟩ := isEntry member'
      obtain ⟨isEntryName, entryFlawless⟩ := flawless _ inEntries
      obtain ⟨isEntryName', entryFlawless'⟩ := flawless _ inEntries'
      obtain ⟨below, inner, isInner, -, -, -, isBelow⟩ :=
        exists_of_mem_filesAt entryFlawless found isIn
      obtain ⟨below', inner', isInner', -, -, -, isBelow'⟩ :=
        exists_of_mem_filesAt entryFlawless' found' isIn'
      have same : path.below (name :: below) = path.below (name' :: below') :=
        isBelow.symm.trans isBelow'
      have isNames : ∀ other ∈ name :: below, Path.IsName other := by
        simpa using ⟨isName_of_isEntryName isEntryName, (Entry.isNames_of_get? entryFlawless isInner).1⟩
      have isNames' : ∀ other ∈ name' :: below', Path.IsName other := by
        simpa using
          ⟨isName_of_isEntryName isEntryName', (Entry.isNames_of_get? entryFlawless' isInner').1⟩
      exact (List.cons.inj (Path.below_injective written isNames isNames' (congrArg _ same))).1

end Tree

/-! ### The order of paths -/

namespace Component

variable {a b c : Component}

theorem before_irrefl (a : Component) : a.before a = false := by
  cases a <;> simp [before]

theorem before_trans (first : a.before b = true) (second : b.before c = true) :
    a.before c = true := by
  cases a <;> cases b <;> cases c <;> simp_all [before]
  exact lt_trans first second

theorem eq_of_before_eq_false (first : a.before b = false) (second : b.before a = false) :
    a = b := by
  cases a <;> cases b <;> simp_all [before]
  exact le_antisymm second first

end Component

namespace Path

theorem componentsAtMost_trans {a b c : List Component} (first : componentsAtMost a b = true)
    (second : componentsAtMost b c = true) : componentsAtMost a c = true := by
  induction a generalizing b c with
  | nil => rfl
  | cons x a ih =>
    cases b with
    | nil => cases first
    | cons y b =>
      cases c with
      | nil => cases second
      | cons z c =>
        simp only [componentsAtMost, Bool.or_eq_true, Bool.and_eq_true, beq_iff_eq] at first second ⊢
        rcases first with first | ⟨rfl, first⟩
        · rcases second with second | ⟨rfl, -⟩
          · exact .inl (Component.before_trans first second)
          · exact .inl first
        · rcases second with second | ⟨rfl, second⟩
          · exact .inl second
          · exact .inr ⟨rfl, ih first second⟩

theorem componentsAtMost_total (a b : List Component) :
    (componentsAtMost a b || componentsAtMost b a) = true := by
  induction a generalizing b with
  | nil => rfl
  | cons x a ih =>
    cases b with
    | nil => rfl
    | cons y b =>
      simp only [componentsAtMost, Bool.or_eq_true, Bool.and_eq_true, beq_iff_eq]
      cases first : x.before y with
      | true => exact .inl (.inl rfl)
      | false =>
        cases second : y.before x with
        | true => exact .inr (.inl rfl)
        | false =>
          obtain rfl := Component.eq_of_before_eq_false first second
          rcases Bool.or_eq_true_iff.mp (ih b) with atMost | atMost
          · exact .inl (.inr ⟨rfl, atMost⟩)
          · exact .inr (.inr ⟨rfl, atMost⟩)

theorem componentsAtMost_antisymm {a b : List Component} (first : componentsAtMost a b = true)
    (second : componentsAtMost b a = true) : a = b := by
  induction a generalizing b with
  | nil =>
    cases b with
    | nil => rfl
    | cons y b => cases second
  | cons x a ih =>
    cases b with
    | nil => cases first
    | cons y b =>
      simp only [componentsAtMost, Bool.or_eq_true, Bool.and_eq_true, beq_iff_eq] at first second
      rcases first with first | ⟨rfl, first⟩
      · have circle : x.before x = true := by
          rcases second with second | ⟨rfl, -⟩
          · exact Component.before_trans first second
          · exact first
        rw [Component.before_irrefl] at circle
        cases circle
      · rcases second with second | ⟨-, second⟩
        · rw [Component.before_irrefl] at second
          cases second
        · rw [ih first second]

end Path

/-! ### Searching a disk -/

namespace Disk

/-- There is a file below a root that a search comes to. -/
def HasFileBelow (disk : Disk) (root : Path) (below : Location) : Prop :=
  (∃ bytes, disk.content? (disk.place root ++ below) = some (.file bytes)) ∧
    ∀ name ∈ below.dropLast, isSkippedFolder name = false

/-- There is a folder at or below a root that a search comes to. -/
def HasFolderBelow (disk : Disk) (root : Path) (below : Location) : Prop :=
  disk.content? (disk.place root ++ below) = some .folder ∧
    ∀ name ∈ below, isSkippedFolder name = false

theorem find_eq_ok_iff {disk : Disk} {path : Path} {entry : Entry} :
    disk.find path = .ok entry ↔
      disk.locate path = .ok (disk.place path) ∧ disk.root.get? (disk.place path) = some entry := by
  unfold find
  cases located : disk.locate path with
  | error error => simp [bind, Except.bind]
  | ok location =>
    obtain rfl := locate_eq_place located
    cases found : disk.root.get? (disk.place path) <;> simp [bind, Except.bind, found]

theorem text_ne_nil_of_locate {disk : Disk} {path : Path} {location : Location}
    (located : disk.locate path = .ok location) : path.text ≠ [] := by
  unfold locate at located
  cases checked : checkPath path with
  | error error => simp [checked, bind, Except.bind] at located
  | ok => exact (checkPath_eq_ok_iff.mp checked).2.2

end Disk

/-- A search leaves the machine as it is. -/
theorem run_discover (config : ProjectConfig) (root : Path) (machine : Machine) :
    (discover config root : ExceptT Error (StateM Machine) (List Path)).run machine =
      (match machine.disk.find root with
        | .error error => .error (.walk root root error)
        | .ok entry => sourcesAt config root entry.shape, machine) := by
  have shape : (attemptFile (.walk root root)
      (Host.readShape (fun name => !isSkippedFolder name) root) :
      ExceptT Error (StateM Machine) Shape).run machine =
        (((machine.disk.find root).map Entry.shape).mapError (.walk root root), machine) := rfl
  unfold discover
  rw [run_bind, shape]
  cases machine.disk.find root <;> rfl

section Disk

variable {config : ProjectConfig} {root : Path} {machine : Machine} {entry inner : Entry}
  {below : Location}

/-- What a search of a tree comes to, seen on the disk. -/
theorem get?_iff_hasFolderBelow (isEntry : machine.disk.find root = .ok entry) :
    (∃ inner, entry.get? below = some inner ∧ inner.IsEntered below ∧ inner.isFolder = true) ↔
      machine.disk.HasFolderBelow root below := by
  obtain ⟨-, atRoot⟩ := Disk.find_eq_ok_iff.mp isEntry
  unfold Disk.HasFolderBelow
  rw [Disk.content?_eq_folder_iff, Entry.get?_append, atRoot, Option.bind_some]
  constructor
  · rintro ⟨inner, isInner, entered, isFolder⟩
    cases inner with
    | file bytes => cases isFolder
    | folder entries => exact ⟨⟨entries, isInner⟩, entered⟩
  · rintro ⟨⟨entries, isInner⟩, entered⟩
    exact ⟨_, isInner, entered, rfl⟩

theorem get?_iff_hasFileBelow (isEntry : machine.disk.find root = .ok entry) :
    (∃ inner, entry.get? below = some inner ∧ inner.IsEntered below ∧ inner.isFolder = false) ↔
      machine.disk.HasFileBelow root below := by
  obtain ⟨-, atRoot⟩ := Disk.find_eq_ok_iff.mp isEntry
  unfold Disk.HasFileBelow
  simp only [Disk.content?_eq_file_iff, Entry.get?_append, atRoot, Option.bind_some]
  constructor
  · rintro ⟨inner, isInner, entered, notFolder⟩
    cases inner with
    | file bytes => exact ⟨⟨bytes, isInner⟩, entered⟩
    | folder entries => cases notFolder
  · rintro ⟨⟨bytes, isInner⟩, entered⟩
    exact ⟨_, isInner, entered, rfl⟩

variable (config) in
/-- **What a search comes to.**  It fails at a folder whose path is too long, if there is
    one, and else finds the files that have an extension of the project. -/
theorem discover_cases (wellFormed : machine.disk.IsWellFormed)
    (isEntry : machine.disk.find root = .ok entry) :
    (∃ below, machine.disk.HasFolderBelow root below ∧ (root.below below).isTooLong = true ∧
      (discover config root : ExceptT Error (StateM Machine) (List Path)).run machine =
        (.error (.walk root (root.below below) .nameTooLong), machine)) ∨
    (∀ below, machine.disk.HasFolderBelow root below → (root.below below).isTooLong = false) ∧
      ∃ files, (discover config root : ExceptT Error (StateM Machine) (List Path)).run machine =
          (.ok files, machine) ∧
        files.Nodup ∧ files.Pairwise (fun a b => a.atMost b = true) ∧
        ∀ file, file ∈ files ↔ config.matchesExtension file = true ∧
          ∃ below, machine.disk.HasFileBelow root below ∧ file = root.below below := by
  obtain ⟨located, atRoot⟩ := Disk.find_eq_ok_iff.mp isEntry
  have written := Disk.text_ne_nil_of_locate located
  have flawless := (Entry.isNames_of_get? wellFormed.2 atRoot).2
  rw [run_discover, isEntry]
  dsimp only
  unfold sourcesAt
  cases searched : filesAt config.matchesExtension root entry.shape with
  | error bad =>
    obtain ⟨below, inner, isInner, entered, isFolder, long, rfl⟩ :=
      exists_of_filesAt_eq_error flawless searched
    exact .inl ⟨below, (get?_iff_hasFolderBelow isEntry).mp ⟨inner, isInner, entered, isFolder⟩,
      long, rfl⟩
  | ok unsorted =>
    have perm := List.mergeSort_perm unsorted Path.atMost
    refine .inr ⟨?_, _, rfl, perm.nodup_iff.mpr (nodup_filesAt flawless written searched), ?_, ?_⟩
    · intro below hasFolder
      obtain ⟨inner, isInner, entered, isFolder⟩ := (get?_iff_hasFolderBelow isEntry).mpr hasFolder
      obtain ⟨inFiles, ok, -⟩ := filesAt_of_get? searched isInner entered
      cases inner with
      | file bytes => cases isFolder
      | folder entries => exact (filesBelow_of_filesAt ok).1
    · refine List.pairwise_mergeSort ?_ ?_ unsorted
      · intro a b c
        exact Path.componentsAtMost_trans
      · intro a b
        exact Path.componentsAtMost_total _ _
    · intro file
      rw [perm.mem_iff]
      constructor
      · intro member
        obtain ⟨below, inner, isInner, entered, notFolder, tested, isBelow⟩ :=
          exists_of_mem_filesAt flawless searched member
        exact ⟨tested, below,
          (get?_iff_hasFileBelow isEntry).mp ⟨inner, isInner, entered, notFolder⟩, isBelow⟩
      · rintro ⟨tested, below, hasFile, rfl⟩
        obtain ⟨inner, isInner, entered, notFolder⟩ := (get?_iff_hasFileBelow isEntry).mpr hasFile
        obtain ⟨inFiles, ok, isSubset⟩ := filesAt_of_get? searched isInner entered
        cases inner with
        | folder entries => cases notFolder
        | file bytes =>
          obtain rfl : [root.below below] = inFiles := by
            simpa [Entry.shape, filesAt, tested] using ok
          exact isSubset List.mem_cons_self

/-- What is known of a search that succeeds. -/
theorem of_discover_eq_ok (wellFormed : machine.disk.IsWellFormed) {after : Machine}
    {files : List Path}
    (found : (discover config root : ExceptT Error (StateM Machine) (List Path)).run machine =
      (.ok files, after)) :
    after = machine ∧ (∃ entry, machine.disk.find root = .ok entry) ∧
      (∀ below, machine.disk.HasFolderBelow root below → (root.below below).isTooLong = false) ∧
      files.Nodup ∧ files.Pairwise (fun a b => a.atMost b = true) ∧
      ∀ file, file ∈ files ↔ config.matchesExtension file = true ∧
        ∃ below, machine.disk.HasFileBelow root below ∧ file = root.below below := by
  cases isEntry : machine.disk.find root with
  | error error =>
    rw [run_discover, isEntry] at found
    cases found
  | ok entry =>
    rcases discover_cases config wellFormed isEntry with
      ⟨below, -, -, failed⟩ | ⟨short, files', ok, nodup, sorted, members⟩
    · rw [failed] at found
      cases found
    · rw [ok] at found
      cases found
      exact ⟨rfl, ⟨entry, rfl⟩, short, nodup, sorted, members⟩

theorem isNames_of_hasFileBelow (wellFormed : machine.disk.IsWellFormed)
    (hasFile : machine.disk.HasFileBelow root below) : ∀ name ∈ below, Path.IsName name := by
  obtain ⟨⟨bytes, file⟩, -⟩ := hasFile
  obtain ⟨isNames, -⟩ := Entry.isNames_of_get? wellFormed.2 (Disk.content?_eq_file_iff.mp file)
  exact fun name member => isNames name (List.mem_append_right _ member)

/-- What a search finds is given by the files that there are. -/
theorem eq_of_mem_iff {files files' : List Path}
    (wellFormed : machine.disk.IsWellFormed) (written : root.text ≠ [])
    (nodup : files.Nodup) (sorted : files.Pairwise (fun a b => a.atMost b = true))
    (nodup' : files'.Nodup) (sorted' : files'.Pairwise (fun a b => a.atMost b = true))
    (found : ∀ file ∈ files, ∃ below, machine.disk.HasFileBelow root below ∧ file = root.below below)
    (same : ∀ file, file ∈ files ↔ file ∈ files') : files = files' := by
  refine List.Perm.eq_of_pairwise ?_ sorted sorted'
    ((List.perm_ext_iff_of_nodup nodup nodup').mpr same)
  intro first second isFirst isSecond atMost atMost'
  obtain ⟨below, hasFile, rfl⟩ := found first isFirst
  obtain ⟨below', hasFile', rfl⟩ := found second ((same second).mpr isSecond)
  rw [Path.below_injective written (isNames_of_hasFileBelow wellFormed hasFile)
    (isNames_of_hasFileBelow wellFormed hasFile') (Path.componentsAtMost_antisymm atMost atMost')]

end Disk

end ViewScript
