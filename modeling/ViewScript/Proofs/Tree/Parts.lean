/-
  ViewScript/Proofs/Tree/Parts.lean
  =================================
  **The parts of a tree.**

  Below a node stand lists of nodes, namely the bodies of brackets, the separators
  around the name of a tag and the children of a tag, and single nodes, namely the name
  of a tag and the names and values of attributes.  `Node.parts` collects them at any
  depth.

  In a tree that was derived from the grammar a single node is always a value (a name, a
  string or a group), and a child is always a view, a text or an interpolation.
-/
import ViewScript.Proofs.Grammar.Derivation

namespace ViewScript

/-- A part of a tree. -/
inductive Part where
  /-- The body of brackets, or the separators on one side of a name. -/
  | row (nodes : List Node)
  /-- The children of a tag or fragment. -/
  | children (nodes : List Node)
  /-- A name or a value. -/
  | single (node : Node)

/-- The list of nodes that a part is. -/
def Part.nodes : Part → List Node
  | .row nodes | .children nodes => nodes
  | .single node => [node]

mutual

/-- The parts of a node, at any depth. -/
def Node.parts : Node → List Part
  | .verbatim _ | .code _ | .comment _ | .text _ => []
  | .group _ body => .row body :: partsOf body
  | .interpolation body => .row body :: partsOf body
  | .reference tag => tagParts tag
  | .selfClosing tag argument => tagParts tag ++ argumentParts argument
  | .element tag attributes children =>
    tagParts tag ++ (attributesParts attributes ++ .children children :: partsOf children)
  | .fragment children => .children children :: partsOf children

/-- The parts of the nodes of a list, which itself is left out. -/
def partsOf : List Node → List Part
  | [] => []
  | node :: nodes => node.parts ++ partsOf nodes

def tagParts : Tag Node → List Part
  | ⟨leading, name, trailing⟩ =>
    .row leading :: partsOf leading ++
      (.single name :: name.parts ++ .row trailing :: partsOf trailing)

def argumentParts : Argument Node → List Part
  | .attributes attributes => attributesParts attributes
  | .expression value => .single value :: value.parts

def attributesParts : List (Attribute Node) → List Part
  | [] => []
  | ⟨name, value⟩ :: attributes =>
    .single name :: name.parts ++ (valueParts value ++ attributesParts attributes)

def valueParts : Option Node → List Part
  | none => []
  | some value => .single value :: value.parts

end

/-- A name, a string in quotes, or a group. -/
def Node.IsValue (source : Text) : Node → Prop
  | .code _ | .group _ _ => True
  | .verbatim span => ∃ mark ∈ Grammar.quotes, (span.slice source).head? = some mark
  | _ => False

/-- A view, a text or an interpolation. -/
def Node.IsChild : Node → Prop
  | .verbatim _ | .code _ | .group _ _ | .comment _ => False
  | _ => True

/-- What a part of a tree of the grammar holds. -/
def Part.IsDerived (source : Text) : Part → Prop
  | .row _ => True
  | .children nodes => ∀ node ∈ nodes, node.IsChild
  | .single node => node.IsValue source

namespace Grammar

/-- The parts of a tree of a production. -/
def Production.parts : (production : Production) → production.Value → List Part
  | .separator => fun nodes => .row nodes :: partsOf nodes
  | .children => fun nodes => .children nodes :: partsOf nodes
  | .expression | .program => partsOf
  | .attributes => attributesParts
  | .opening => tagParts
  | .comment | .value | .text | .interpolation | .reference | .selfClosing | .element
  | .fragment | .view => Node.parts

theorem isValue_of_derives {source text : Text} {offset : Nat} {node : Node}
    (derives : Derives .value offset text node) (stands : source.StandsAt offset text) :
    node.IsValue source := by
  cases derives with
  | name _ => trivial
  | group _ => trivial
  | @quoted _ mark content known _ =>
    refine ⟨mark, known, ?_⟩
    rw [stands.slice_eq]
    rfl

theorem isChild_of_view {text : Text} {offset : Nat} {node : Node}
    (derives : Derives .view offset text node) : node.IsChild := by
  cases derives with
  | viewReference derives => cases derives; trivial
  | viewSelfClosing derives => cases derives <;> trivial
  | viewElement derives => cases derives; trivial
  | viewFragment derives => cases derives; trivial

theorem isChild_of_children {text : Text} {offset : Nat} {nodes : List Node}
    (derives : Derives .children offset text nodes) : ∀ node ∈ nodes, node.IsChild := by
  induction nodes generalizing offset text with
  | nil => simp
  | cons node nodes ih =>
    cases derives with
    | childrenView first rest => exact List.forall_mem_cons.mpr ⟨isChild_of_view first, ih rest⟩
    | childrenText first rest =>
      cases first
      exact List.forall_mem_cons.mpr ⟨trivial, ih rest⟩
    | childrenInterpolation first rest =>
      cases first
      exact List.forall_mem_cons.mpr ⟨trivial, ih rest⟩

/-- **Every part of a derived tree is derived itself.**  So a property holds of all parts
    of the tree if it holds of separators, of what stands before a closing bracket, of
    children and of values. -/
theorem Derives.forall_parts {source : Text} {Q : Part → Prop}
    (separators : ∀ {offset : Nat} {text : Text} {nodes : List Node},
      Derives .separator offset text nodes → source.StandsAt offset text → Q (.row nodes))
    (bodies : ∀ (delimiter : Delimiter) {offset : Nat} {inside : Text} {body : List Node},
      Derives .expression offset inside body →
        source.StandsAt offset (inside ++ [delimiter.closing]) → Q (.row body))
    (children : ∀ {offset : Nat} {text : Text} {nodes : List Node},
      Derives .children offset text nodes → source.StandsAt offset text → Q (.children nodes))
    (single : ∀ {offset : Nat} {text : Text} {node : Node},
      Derives .value offset text node → source.StandsAt offset text → Q (.single node))
    {production : Production} {offset : Nat} {text : Text} {value : production.Value}
    (derives : Derives production offset text value) (stands : source.StandsAt offset text) :
    ∀ part ∈ production.parts value, Q part := by
  have nothing : ∀ part ∈ ([] : List Part), Q part := by
    intro part member
    cases member
  induction derives with
  | attributesEnd | expressionEnd | comment _ | name _ | quoted _ _ | text _ _ => exact nothing
  | separatorEnd => exact List.forall_mem_cons.mpr ⟨separators .separatorEnd stands, nothing⟩
  | separatorBlank blank derives rest =>
    exact List.forall_mem_cons.mpr ⟨separators (.separatorBlank blank derives) stands,
      (List.forall_mem_cons.mp (rest stands.right)).2⟩
  | separatorComment note derives first rest =>
    exact List.forall_mem_cons.mpr ⟨separators (.separatorComment note derives) stands,
      List.forall_mem_append.mpr
        ⟨first stands.left, (List.forall_mem_cons.mp (rest stands.right)).2⟩⟩
  | childrenEnd => exact List.forall_mem_cons.mpr ⟨children .childrenEnd stands, nothing⟩
  | childrenView view derives first rest =>
    exact List.forall_mem_cons.mpr
      ⟨children (.childrenView view derives) stands, List.forall_mem_append.mpr
        ⟨first stands.left, (List.forall_mem_cons.mp (rest stands.right)).2⟩⟩
  | childrenText text derives first rest =>
    exact List.forall_mem_cons.mpr
      ⟨children (.childrenText text derives) stands, List.forall_mem_append.mpr
        ⟨first stands.left, (List.forall_mem_cons.mp (rest stands.right)).2⟩⟩
  | childrenInterpolation item derives first rest =>
    exact List.forall_mem_cons.mpr
      ⟨children (.childrenInterpolation item derives) stands, List.forall_mem_append.mpr
        ⟨first stands.left, (List.forall_mem_cons.mp (rest stands.right)).2⟩⟩
  | expressionMark _ _ rest => exact rest stands.right
  | expressionCode _ _ rest => exact rest stands.right
  | expressionComment _ _ first rest | expressionValue _ _ first rest
  | expressionView _ _ first rest =>
    exact List.forall_mem_append.mpr ⟨first stands.left, rest stands.right⟩
  | @group _ delimiter _ _ derives inside =>
    have one : delimiter.opening.utf8Size = 1 := by cases delimiter <;> rfl
    have body := stands.tail
    rw [one] at body
    exact List.forall_mem_cons.mpr ⟨bodies delimiter derives body, inside body.left⟩
  | interpolation derives inside =>
    have body := stands.tail
    exact List.forall_mem_cons.mpr ⟨bodies .brace derives body, inside body.left⟩
  | @fragment _ _ _ _ inside =>
    have body := stands.tail.tail.left
    rw [Nat.add_assoc] at body
    exact inside body
  | attributesName named _ _ name _ rest =>
    have behind := stands.right.right
    exact List.forall_mem_cons.mpr ⟨single named stands.left,
      List.forall_mem_append.mpr ⟨name stands.left, rest behind⟩⟩
  | attributesValue named valued _ _ name value _ rest =>
    have given := stands.right.left.tail
    have behind := stands.right.right.right
    simp only [Text.byteSize_cons, ← Nat.add_assoc] at behind
    refine List.forall_mem_cons.mpr ⟨single named stands.left,
      List.forall_mem_append.mpr ⟨name stands.left, List.forall_mem_append.mpr ⟨?_, rest behind⟩⟩⟩
    exact List.forall_mem_cons.mpr ⟨single valued given, value given⟩
  | opening _ named _ before name after =>
    have leading := stands.tail.left
    have word := stands.tail.right.left
    have trailing := stands.tail.right.right
    exact List.forall_mem_append.mpr ⟨before leading, List.forall_mem_cons.mpr
      ⟨single named word, List.forall_mem_append.mpr ⟨name word, after trailing⟩⟩⟩
  | reference _ tag => exact tag stands.left
  | selfClosing _ _ tag attributes =>
    exact List.forall_mem_append.mpr ⟨tag stands.left, attributes stands.right.left⟩
  | selfClosingValue _ valued tag value =>
    have given := stands.right.left
    exact List.forall_mem_append.mpr ⟨tag stands.left,
      List.forall_mem_cons.mpr ⟨single valued given, value given⟩⟩
  | element _ _ _ _ tag attributes children =>
    have list := stands.right.left
    have inside := stands.right.right.tail.left
    exact List.forall_mem_append.mpr ⟨tag stands.left,
      List.forall_mem_append.mpr ⟨attributes list, children inside⟩⟩
  | viewReference _ ih | viewSelfClosing _ ih | viewElement _ ih | viewFragment _ ih
  | program _ ih => exact ih stands

theorem Derives.isDerived {source : Text} {production : Production} {offset : Nat} {text : Text}
    {value : production.Value} (derives : Derives production offset text value)
    (stands : source.StandsAt offset text) :
    ∀ part ∈ production.parts value, part.IsDerived source :=
  derives.forall_parts (fun _ _ => trivial) (fun _ _ _ _ _ _ => trivial)
    (fun derives _ => isChild_of_children derives) isValue_of_derives stands

end Grammar

end ViewScript
