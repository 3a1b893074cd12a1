/-
  ViewScript/Path/Basic.lean
  ==========================
  **Paths.**

  A path is kept as it was written.  What it means are its components: a leading
  slash, a leading dot, and then names and `..`.  Repeated slashes, a trailing slash
  and dots further on are written but have no component.

  Cut at its slashes a path is an *anchor*, which is the leading slash or dot if
  there is one, and a list of segments.  All operations work on that form, and those
  that shorten a path also drop what is written after its last component.
-/
import ViewScript.Text.Basic

namespace ViewScript

/-- A path, as written. -/
structure Path where
  text : Text
deriving DecidableEq, Repr, Inhabited

/-- A literal stands for the path it spells. -/
instance : Coe String Path := ⟨fun literal => ⟨literal⟩⟩

/-- What a path consists of. -/
inductive Component where
  | root
  | here
  | up
  | name (name : Text)
deriving DecidableEq, Repr

/-- What stands before the first segment. -/
inductive Anchor where
  | root
  | here
  | none
deriving DecidableEq, Repr

/-- The component of an anchor, if it has one. -/
def Anchor.components : Anchor → List Component
  | .root => [.root]
  | .here => [.here]
  | .none => []

/-- Names come last, in the order of their characters. -/
def Component.before : Component → Component → Bool
  | .name a, .name b => decide (a < b)
  | .name _, _ => false
  | _, .name _ => true
  | .up, _ => false
  | _, .up => true
  | .here, _ => false
  | _, .here => true
  | .root, .root => false

namespace Path

/-! ### Segments -/

/-- Cut a text at its slashes. -/
def cutAtSlashes : Text → List Text
  | [] => [[]]
  | c :: cs =>
    if c = '/' then [] :: cutAtSlashes cs
    else match cutAtSlashes cs with
      | [] => [[c]]
      | segment :: segments => (c :: segment) :: segments

/-- The anchor of a path and the segments after it. -/
def split (path : Path) : Anchor × List Text :=
  match cutAtSlashes path.text with
  | [] :: segment :: segments => (.root, segment :: segments)
  | ['.'] :: segments => (.here, segments)
  | segments => (.none, segments)

/-- The path with an anchor and segments. -/
def ofSplit : Anchor → List Text → Path
  | .root, segments => ⟨'/' :: Text.join ['/'] segments⟩
  | .here, [] => ⟨['.']⟩
  | .here, segments => ⟨'.' :: '/' :: Text.join ['/'] segments⟩
  | .none, segments => ⟨Text.join ['/'] segments⟩

/-- A segment without a component. -/
def isVoid (segment : Text) : Bool := segment == [] || segment == ['.']

/-- Drop the segments after the last component. -/
def trimEnd (segments : List Text) : List Text := (segments.reverse.dropWhile isVoid).reverse

/-! ### Components -/

/-- The component of a segment. -/
def componentOf? (segment : Text) : Option Component :=
  if isVoid segment then none
  else if segment = ['.', '.'] then some .up
  else some (.name segment)

/-- The components of a path. -/
def components (path : Path) : List Component :=
  let (anchor, segments) := path.split
  anchor.components ++ segments.filterMap componentOf?

/-- Two paths with the same components. -/
def Same (a b : Path) : Prop := a.components = b.components

instance (a b : Path) : Decidable (Same a b) :=
  inferInstanceAs (Decidable (a.components = b.components))

/-- Whether a path starts at the root. -/
def isAbsolute (path : Path) : Bool := path.text.head? == some '/'

/-- The number of bytes from which on no file can be reached by a path. -/
def sizeLimit : Nat := 4096

/-- Whether a path is too long to reach a file. -/
def isTooLong (path : Path) : Bool := sizeLimit ≤ path.text.byteSize

/-! ### Joining and shortening -/

/-- A path below another.  An absolute path stands for itself. -/
def join (base path : Path) : Path :=
  if path.isAbsolute then path
  else if base.text == [] || base.text.getLast? == some '/' then ⟨base.text ++ path.text⟩
  else ⟨base.text ++ '/' :: path.text⟩

/-- The path without its last component. -/
def parent? (path : Path) : Option Path :=
  let (anchor, segments) := path.split
  match trimEnd segments, anchor with
  | [], .here => some ⟨[]⟩
  | [], _ => none
  | segments, anchor => some (ofSplit anchor (trimEnd segments.dropLast))

/-- The path and what remains of it, component by component. -/
def ancestorsUpTo : Nat → Path → List Path
  | 0, path => [path]
  | limit + 1, path =>
    match path.parent? with
    | some parent => path :: ancestorsUpTo limit parent
    | none => [path]

/-- The path, its parent, the parent of that, and so on. -/
def ancestors (path : Path) : List Path := ancestorsUpTo path.components.length path

/-- Drop segments up to and with the given number of components. -/
def dropComponents : Nat → List Text → List Text
  | 0, segments => segments.dropWhile isVoid
  | _ + 1, [] => []
  | count + 1, segment :: segments =>
    if isVoid segment then dropComponents (count + 1) segments
    else dropComponents count segments

/-- What follows `base` in a path that starts with the components of `base`.  After
    an empty base that is the whole path. -/
def relativeTo? (path base : Path) : Option Path :=
  if base.components.isPrefixOf path.components then
    let (anchor, segments) := path.split
    match base.components.length with
    | 0 => some (ofSplit anchor (trimEnd segments))
    | count + 1 =>
      let count := if anchor = .none then count + 1 else count
      some (ofSplit .none (trimEnd (dropComponents count segments)))
  else none

/-! ### Order -/

/-- The order of paths, component by component. -/
def componentsAtMost : List Component → List Component → Bool
  | [], _ => true
  | _ :: _, [] => false
  | a :: as, b :: bs => a.before b || (a == b && componentsAtMost as bs)

def atMost (a b : Path) : Bool := componentsAtMost a.components b.components

/-! ### Cutting and joining again -/

/-- There is a segment, if only an empty one. -/
theorem cutAtSlashes_ne_nil (text : Text) : cutAtSlashes text ≠ [] := by
  fun_cases cutAtSlashes text <;> simp_all

/-- Cutting loses nothing but the slashes, and joining puts them back. -/
@[simp] theorem join_cutAtSlashes (text : Text) : Text.join ['/'] (cutAtSlashes text) = text := by
  fun_induction cutAtSlashes text with
  | case1 => rfl
  | case2 cs ih =>
    obtain ⟨segment, segments, cut⟩ := List.exists_cons_of_ne_nil (cutAtSlashes_ne_nil cs)
    rw [cut] at ih ⊢
    simp [Text.join, ih]
  | case3 c cs other cut ih => exact absurd cut (cutAtSlashes_ne_nil cs)
  | case4 c cs other segment segments cut ih =>
    rw [cut] at ih
    rw [show c :: segment = [c] ++ segment from rfl, Text.join_cons_append, ih]
    rfl

/-- An anchor and segments are all there is to a path. -/
@[simp] theorem ofSplit_split (path : Path) : ofSplit path.split.1 path.split.2 = path := by
  obtain ⟨text⟩ := path
  have joined := join_cutAtSlashes text
  unfold split
  split
  next segment segments cut =>
    rw [← joined, cut]
    simp [ofSplit, Text.join]
  next segments cut =>
    rw [← joined, cut]
    cases segments <;> simp [ofSplit, Text.join]
  next => simp [ofSplit]

end Path

end ViewScript
