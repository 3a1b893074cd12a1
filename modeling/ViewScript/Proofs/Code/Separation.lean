/-
  ViewScript/Proofs/Code/Separation.lean
  ======================================
  **Commas between children.**

  Fragments among children leave no trace: their own children stand in their place, however
  deep the nesting is.  Of what is left every child is either layout or an item, and an item has
  a comma before it exactly when some item precedes it.  So layout and empty fragments never
  cause a leading, trailing or doubled comma.
-/
import ViewScript.Code.Basic

namespace ViewScript

/-! ### Fragments spliced in -/

/-- Children with those of every fragment among them put in its place. -/
def spliced : List Node → List Node
  | [] => []
  | .fragment nested :: nodes => spliced nested ++ spliced nodes
  | node :: nodes => node :: spliced nodes

/-- No fragment is left. -/
theorem fragment_not_mem_spliced (nodes nested : List Node) :
    .fragment nested ∉ spliced nodes := by
  fun_induction spliced nodes with
  | case1 => simp
  | case2 inner nodes ihInner ihNodes => simp [ihInner, ihNodes]
  | case3 node nodes other ih => simpa [ih] using fun same => other nested same.symm

/-- Splicing keeps every span that is read. -/
theorem allReadable_spliced (names : RuntimeNames) (source : Text) (nodes : List Node) :
    allReadable names source (spliced nodes) = allReadable names source nodes := by
  fun_induction spliced nodes with
  | case1 => rfl
  | case2 inner nodes ihInner ihNodes =>
    rw [allReadable_append, ihInner, ihNodes, allReadable, readable]
  | case3 node nodes other ih => rw [allReadable, allReadable, ih]

/-! ### One child that is no fragment -/

namespace Node

/-- Whether a node is text that only lays out the source. -/
def isLayoutIn (source : Text) : Node → Bool
  | .text span => isLayout (span.slice source)
  | _ => false

/-- The code of a node as a child: layout as it stands, the values of an interpolation spread
    out, any other node as everywhere else. -/
def childCode (names : RuntimeNames) (source : Text) : Node → Text
  | .text span =>
    let text := span.slice source
    if isLayout text then text else textCall names.components (escapeText text).quoted
  | .interpolation body =>
    "..." ++ names.normalizeChildren ++ "(" ++ renderAll names source body ++ ")"
  | node => (render names source node).code

/-- A node that is no fragment, as a child. -/
def toChild (names : RuntimeNames) (source : Text) (node : Node) : Child :=
  if node.isLayoutIn source then .layout (node.childCode names source)
  else .item (node.childCode names source)

end Node

/-- Children are made one by one, once fragments are spliced in. -/
theorem renderChildren_eq_map (names : RuntimeNames) (source : Text) (nodes : List Node) :
    renderChildren names source nodes = (spliced nodes).map (Node.toChild names source) := by
  fun_induction spliced nodes with
  | case1 => rfl
  | case2 inner nodes ihInner ihNodes => rw [renderChildren, List.map_append, ihInner, ihNodes]
  | case3 node nodes other ih =>
    cases node with
    | fragment nested => exact absurd rfl (other nested)
    | text span =>
      rw [renderChildren, List.map_cons, ← ih, Node.toChild, Node.isLayoutIn]
      split <;> rfl
    | _ => simp [renderChildren, ih, Node.toChild, Node.isLayoutIn, Node.childCode]

/-- Nothing is spliced twice. -/
theorem spliced_spliced (nodes : List Node) : spliced (spliced nodes) = spliced nodes := by
  have keep : ∀ flat : List Node, (∀ nested, Node.fragment nested ∉ flat) → spliced flat = flat := by
    intro flat
    induction flat with
    | nil => simp [spliced]
    | cons node flat ih =>
      intro none
      have rest := ih fun nested found => none nested (List.mem_cons_of_mem _ found)
      cases node with
      | fragment nested => exact absurd List.mem_cons_self (none nested)
      | _ => rw [spliced, rest]; simp
  exact keep _ (fragment_not_mem_spliced nodes)

/-! ### Where the commas stand -/

/-- The code of children, written out child by child. -/
theorem codeAfter_map (names : RuntimeNames) (source : Text) (comma : Bool) (nodes : List Node) :
    Child.codeAfter comma (nodes.map (Node.toChild names source)) =
      (nodes.mapIdx fun i node =>
        (if !node.isLayoutIn source && (comma || (nodes.take i).any (!·.isLayoutIn source))
          then "," else "" : Text) ++ node.childCode names source).flatten := by
  induction nodes generalizing comma with
  | nil => rfl
  | cons node nodes ih =>
    rw [List.map_cons, List.mapIdx_cons, List.flatten_cons]
    cases layout : node.isLayoutIn source with
    | true => simp [Node.toChild, layout, Child.codeAfter, ih]
    | false => cases comma <;> simp [Node.toChild, layout, Child.codeAfter, ih]

theorem isItem_toChild (names : RuntimeNames) (source : Text) (node : Node) :
    (node.toChild names source).isItem = !node.isLayoutIn source := by
  cases layout : node.isLayoutIn source <;> simp [Node.toChild, layout, Child.isItem]

/-- The code of a list of children is that of the list with every fragment spliced in: its nodes
    one after the other, with one comma before each item that has an item before it and no other.
    One more item needs a comma exactly when there is an item. -/
theorem childList_renderChildren (names : RuntimeNames) (source : Text) (nodes : List Node) :
    let list := childList (renderChildren names source nodes)
    let flat := spliced nodes
    (∀ nested, .fragment nested ∉ flat) ∧
    allReadable names source flat = allReadable names source nodes ∧
    childList (renderChildren names source flat) = list ∧
    list.code =
      (flat.mapIdx fun i node =>
        (if !node.isLayoutIn source && (flat.take i).any (!·.isLayoutIn source)
          then "," else "" : Text) ++ node.childCode names source).flatten ∧
    list.separator = (if flat.any (!·.isLayoutIn source) then "," else "" : Text) ∧
    list.isExpression = false := by
  intro list flat
  have code := codeAfter_map names source false flat
  simp only [Bool.false_or, flat, ← renderChildren_eq_map] at code
  have separator :
      list.separator = (if flat.any (!·.isLayoutIn source) then "," else "" : Text) := by
    have items : Child.isItem ∘ Node.toChild names source = fun node => !node.isLayoutIn source :=
      funext (isItem_toChild names source)
    simp [list, childList, CodeList.separator, renderChildren_eq_map, List.any_map, items, flat]
  refine ⟨fragment_not_mem_spliced nodes, allReadable_spliced names source nodes, ?_, code,
    separator, rfl⟩
  simp only [list, flat, renderChildren_eq_map, spliced_spliced]

end ViewScript
