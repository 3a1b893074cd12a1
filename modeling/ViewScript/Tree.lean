/-
  ViewScript/Tree.lean
  ====================
  **The tree of a program: host code with views in it.**

  A program is a list of nodes.  Host code is kept as spans of the source; brackets
  are kept as groups, because views may stand inside them.  A *view* is a tag or a
  fragment:

  * `<Name*>` refers to a view;
  * `<name a="1"/>` is a tag without children;
  * `<name a="1">children</name>` is an element;
  * `<>children</>` is a fragment, children without a tag around them.
-/
import ViewScript.Source.Span

namespace ViewScript

/-- The three pairs of brackets. -/
inductive Delimiter where
  | paren
  | bracket
  | brace
deriving DecidableEq, Repr

namespace Delimiter

def opening : Delimiter → Char
  | .paren => '('
  | .bracket => '['
  | .brace => '\x7b'

def closing : Delimiter → Char
  | .paren => ')'
  | .bracket => ']'
  | .brace => '\x7d'

end Delimiter

/-- What every tag opens with: its name and the separators around the name. -/
structure Tag (α : Type) where
  leading : List α
  name : α
  trailing : List α
deriving DecidableEq, Repr

/-- A name, or a name with a value. -/
structure Attribute (α : Type) where
  name : α
  value : Option α
deriving DecidableEq, Repr

/-- What a tag without children passes on: attributes, or one value as a whole. -/
inductive Argument (α : Type) where
  | attributes (attributes : List (Attribute α))
  | expression (value : α)
deriving DecidableEq, Repr

/-- A node of the tree. -/
inductive Node where
  /-- Strings, comments, regular expressions and operators of the host code. -/
  | verbatim (span : Span)
  /-- Names and other host code. -/
  | code (span : Span)
  /-- Brackets and what stands between them. -/
  | group (delimiter : Delimiter) (body : List Node)
  /-- A comment between two marks `#`; the span leaves out the marks. -/
  | comment (span : Span)
  /-- Text among the children of a tag. -/
  | text (span : Span)
  /-- An expression in braces among the children of a tag. -/
  | interpolation (body : List Node)
  /-- A reference to a view, `<Name*>`. -/
  | reference (tag : Tag Node)
  /-- A tag without children, `<name attributes/>`. -/
  | selfClosing (tag : Tag Node) (argument : Argument Node)
  /-- An element, `<name attributes>children</name>`. -/
  | element (tag : Tag Node) (attributes : List (Attribute Node)) (children : List Node)
  /-- A fragment, `<>children</>`. -/
  | fragment (children : List Node)
deriving Repr

/-- The kinds of template syntax. -/
inductive Kind where
  | comment
  | attributes
  | text
  | interpolation
  | reference
  | selfClosing
  | element
  | fragment
deriving DecidableEq, Repr

/-- The name under which a kind is reported. -/
def Kind.name : Kind → Text
  | .comment => "comment"
  | .attributes => "attributes"
  | .text => "text"
  | .interpolation => "interpolation"
  | .reference => "node"
  | .selfClosing => "nodeData"
  | .element => "nodeDataChildren"
  | .fragment => "fragment"

/-- The tags and fragments among the kinds. -/
def Kind.isView : Kind → Bool
  | .reference | .selfClosing | .element | .fragment => true
  | _ => false

namespace Node

/-- The kind of a node; host code has none. -/
def kind? : Node → Option Kind
  | .verbatim _ | .code _ | .group _ _ => none
  | .comment _ => some .comment
  | .text _ => some .text
  | .interpolation _ => some .interpolation
  | .reference _ => some .reference
  | .selfClosing _ _ => some .selfClosing
  | .element _ _ _ => some .element
  | .fragment _ => some .fragment

/-- Whether a node is a tag or a fragment. -/
def isView (node : Node) : Bool := node.kind?.any Kind.isView

end Node

/-- The kind of a tag's argument; an expression has the kind of its value. -/
def Argument.kind? : Argument Node → Option Kind
  | .attributes _ => some .attributes
  | .expression value => value.kind?

/-! ### Equality -/

mutual

/-- Whether two nodes are the same.  No instance can be derived, because nodes stand in lists and
    tags below nodes. -/
def Node.decEq (node other : Node) : Decidable (node = other) :=
  if sameCase : node.ctorIdx = other.ctorIdx then
    match node, other, sameCase with
    | .verbatim span, .verbatim span', _ | .code span, .code span', _
    | .comment span, .comment span', _ | .text span, .text span', _ =>
      decidable_of_decidable_of_iff (p := span = span') (by simp)
    | .group delimiter body, .group delimiter' body', _ =>
      have := nodesDecEq body body'
      decidable_of_decidable_of_iff (p := delimiter = delimiter' ∧ body = body') (by simp)
    | .interpolation body, .interpolation body', _ | .fragment body, .fragment body', _ =>
      have := nodesDecEq body body'
      decidable_of_decidable_of_iff (p := body = body') (by simp)
    | .reference tag, .reference tag', _ =>
      have := tagDecEq tag tag'
      decidable_of_decidable_of_iff (p := tag = tag') (by simp)
    | .selfClosing tag argument, .selfClosing tag' argument', _ =>
      have := tagDecEq tag tag'
      have := argumentDecEq argument argument'
      decidable_of_decidable_of_iff (p := tag = tag' ∧ argument = argument') (by simp)
    | .element tag attributes children, .element tag' attributes' children', _ =>
      have := tagDecEq tag tag'
      have := attributesDecEq attributes attributes'
      have := nodesDecEq children children'
      decidable_of_decidable_of_iff
        (p := tag = tag' ∧ attributes = attributes' ∧ children = children') (by simp)
  else isFalse (sameCase <| congrArg Node.ctorIdx ·)
termination_by structural node

def nodesDecEq : (nodes others : List Node) → Decidable (nodes = others)
  | [], [] => isTrue rfl
  | [], _ :: _ | _ :: _, [] => isFalse (by simp)
  | node :: nodes, other :: others =>
    have := node.decEq other
    have := nodesDecEq nodes others
    decidable_of_decidable_of_iff (p := node = other ∧ nodes = others) (by simp)
termination_by structural nodes => nodes

def tagDecEq : (tag other : Tag Node) → Decidable (tag = other)
  | ⟨leading, name, trailing⟩, ⟨leading', name', trailing'⟩ =>
    have := nodesDecEq leading leading'
    have := name.decEq name'
    have := nodesDecEq trailing trailing'
    decidable_of_decidable_of_iff
      (p := leading = leading' ∧ name = name' ∧ trailing = trailing') (by simp)
termination_by structural tag => tag

def argumentDecEq : (argument other : Argument Node) → Decidable (argument = other)
  | .attributes attributes, .attributes others =>
    have := attributesDecEq attributes others
    decidable_of_decidable_of_iff (p := attributes = others) (by simp)
  | .expression value, .expression other =>
    have := value.decEq other
    decidable_of_decidable_of_iff (p := value = other) (by simp)
  | .attributes _, .expression _ | .expression _, .attributes _ => isFalse (by simp)
termination_by structural argument => argument

def attributesDecEq : (attributes others : List (Attribute Node)) → Decidable (attributes = others)
  | [], [] => isTrue rfl
  | [], _ :: _ | _ :: _, [] => isFalse (by simp)
  | ⟨name, value⟩ :: attributes, ⟨name', value'⟩ :: others =>
    have := name.decEq name'
    have := valueDecEq value value'
    have := attributesDecEq attributes others
    decidable_of_decidable_of_iff
      (p := (name = name' ∧ value = value') ∧ attributes = others) (by simp)
termination_by structural attributes => attributes

def valueDecEq : (value other : Option Node) → Decidable (value = other)
  | none, none => isTrue rfl
  | none, some _ | some _, none => isFalse (by simp)
  | some value, some other =>
    have := value.decEq other
    decidable_of_decidable_of_iff (p := value = other) (by simp)
termination_by structural value => value

end

instance : DecidableEq Node := Node.decEq

/-! ### Counting views -/

mutual

/-- The number of views in a node, itself included. -/
def Node.viewCount : Node → Nat
  | .verbatim _ | .code _ | .comment _ | .text _ => 0
  | .group _ body => viewCount body
  | .interpolation body => viewCount body
  | .reference tag => 1 + tagViewCount tag
  | .selfClosing tag argument => 1 + tagViewCount tag + argumentViewCount argument
  | .element tag attributes children =>
    1 + tagViewCount tag + attributesViewCount attributes + viewCount children
  | .fragment children => 1 + viewCount children

/-- The number of views in a list of nodes. -/
def viewCount : List Node → Nat
  | [] => 0
  | node :: nodes => node.viewCount + viewCount nodes

/-- The number of views in the name of a tag. -/
def tagViewCount : Tag Node → Nat
  | ⟨_, name, _⟩ => name.viewCount

def argumentViewCount : Argument Node → Nat
  | .attributes attributes => attributesViewCount attributes
  | .expression value => value.viewCount

def attributesViewCount : List (Attribute Node) → Nat
  | [] => 0
  | ⟨name, value⟩ :: attributes =>
    name.viewCount + optionViewCount value + attributesViewCount attributes

def optionViewCount : Option Node → Nat
  | none => 0
  | some node => node.viewCount

end

end ViewScript
