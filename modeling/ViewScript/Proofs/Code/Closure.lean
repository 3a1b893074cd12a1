/-
  ViewScript/Proofs/Code/Closure.lean
  ===================================
  **Properties that all generated code has.**

  A property of outlines is *closed* when every way in which the generator puts pieces
  together keeps it.  There are few of them: pieces are set one after the other, a name
  of the library is always followed by a dot or an opening parenthesis, and the dots of
  a spread are cut off.

  A piece that is copied need not have the property by itself.  A line comment, for
  example, must not come last, and only its neighbours in the tree can tell what follows
  it.  So the tree has to say of each of its lists that the list keeps the property;
  then the code of the whole tree has it.
-/
import ViewScript.Proofs.Code.Outline
import ViewScript.Proofs.Tree.Parts

namespace ViewScript.Outline

/-- The characters that can follow a name of the library. -/
def isCallMark (c : Char) : Bool := c == '.' || c == '('

/-- The property is kept by all that the generator does. -/
structure Closed (names : RuntimeNames) (source : Text) (P : Outline → Prop) : Prop where
  nil : P []
  append {front back : Outline} : P front → P back → P (front ++ back)
  written (chars : Text) : P [.written chars]
  code (span : Span) : P [.code span]
  comment (span : Span) : P [.comment span]
  called (name : RuntimeName) {chars : Text} :
    chars.head?.any isCallMark = true → P [.runtime name, .written chars]
  drop (count : Nat) {outline : Outline} : P outline → P (dropChars names source count outline)

/-! ### The property on what holds outlines -/

def Rendered.All (P : Outline → Prop) : Rendered → Prop
  | .plain code => P code
  | .braced inside _ => P inside

/-- The name of an attribute has the property, and so has its value. -/
def AttributeAll (P : Outline → Prop) (item : Attribute Rendered) : Prop :=
  item.name.All P ∧ ∀ value ∈ item.value, value.All P

def Property.All (P : Outline → Prop) : Property → Prop
  | .entry name value => P name ∧ P value
  | .spread source => P source

def Child.All (P : Outline → Prop) : Child → Prop
  | .layout code | .item code => P code

theorem Rendered.All.bare {P : Outline → Prop} {rendered : Rendered} (all : rendered.All P) :
    P rendered.bare := by
  cases rendered <;> exact all

namespace Closed

variable {names : RuntimeNames} {source : Text} {P : Outline → Prop}

section Glue

variable (closed : Closed names source P)
include closed

theorem cons (chars : Text) {outline : Outline} (rest : P outline) :
    P (.written chars :: outline) :=
  closed.append (closed.written chars) rest

theorem call (name : RuntimeName) {chars : Text} {outline : Outline}
    (mark : chars.head?.any isCallMark = true) (rest : P outline) :
    P (.runtime name :: .written chars :: outline) :=
  closed.append (closed.called name mark) rest

theorem enclosed (before after : Text) {inside : Outline} (all : P inside) :
    P (.written before :: (inside ++ [.written after])) :=
  closed.cons before (closed.append all (closed.written after))

theorem join (separator : Text) {outlines : List Outline} (all : ∀ outline ∈ outlines, P outline) :
    P (Outline.join separator outlines) := by
  induction outlines with
  | nil => exact closed.nil
  | cons outline outlines ih =>
    obtain ⟨first, rest⟩ := List.forall_mem_cons.mp all
    cases outlines with
    | nil => exact first
    | cons next outlines => exact closed.append first (closed.cons separator (ih rest))

theorem renderedCode {rendered : Rendered} (all : rendered.All P) : P rendered.code := by
  cases rendered with
  | plain code => exact all
  | braced inside objectLike => exact closed.enclosed _ _ all

theorem valueCode {rendered : Rendered} (all : rendered.All P) : P rendered.valueCode := by
  cases rendered with
  | plain code => exact all
  | braced inside objectLike =>
    cases objectLike with
    | false => exact all
    | true => exact closed.renderedCode all

theorem tagName {rendered : Rendered} (all : rendered.All P) :
    P (rendered.tagName names source) := by
  cases rendered with
  | braced inside objectLike => exact closed.enclosed _ _ all
  | plain code =>
    simp only [Rendered.tagName]
    split
    · exact closed.call .components (by decide) all
    · exact all

theorem callCode {component argument : Outline} (called : P component) (given : P argument) :
    P (Outline.callCode component argument) :=
  closed.append called (closed.enclosed _ _ given)

theorem textCall {expression : Outline} (all : P expression) : P (Outline.textCall expression) :=
  closed.call .components (by decide) (closed.append all (closed.written _))

theorem textCode (text : Text) : P (Outline.textCode text) := by
  unfold Outline.textCode
  split
  · exact closed.written text
  · exact closed.textCall (closed.written _)

/-! ### Properties -/

theorem attributeName {name : Outline} (all : P name) :
    P (Outline.attributeName names source name) := by
  unfold Outline.attributeName
  split
  · exact closed.written _
  · exact all

theorem propertyName {item : Attribute Rendered} (all : AttributeAll P item) :
    P (Outline.propertyName names source item) :=
  closed.attributeName all.1.bare

theorem spreadRest? {name rest : Outline} (all : P name)
    (found : Outline.spreadRest? names source name = some rest) : P rest := by
  obtain ⟨_, -, rfl⟩ := Option.map_eq_some_iff.mp found
  exact closed.drop 3 all

theorem spreadSource {item : Attribute Rendered} {rest : Outline} (all : AttributeAll P item)
    (left : P rest) : P (Outline.spreadSource names source item rest) := by
  unfold Outline.spreadSource
  split
  · cases given : item.value with
    | none => exact closed.nil
    | some value => exact (all.2 value given).bare
  · exact left

theorem property? {item : Attribute Rendered} {property : Property} (all : AttributeAll P item)
    (found : Outline.property? names source item = some property) : property.All P := by
  have named : P (Outline.propertyName names source item) := closed.propertyName all
  unfold Outline.property? at found
  split at found
  · rename_i rest spread
    have left : P rest := closed.spreadRest? named spread
    dsimp only at found
    split at found
    · cases found
    · cases found
      exact closed.spreadSource all left
  · cases found
    refine ⟨named, ?_⟩
    split
    · exact closed.written _
    · rename_i value given
      exact closed.valueCode (all.2 value given)

theorem propertyCode {property : Property} (all : property.All P) : P property.code := by
  cases property with
  | entry name value => exact closed.cons _ (closed.append all.1 (closed.cons _ all.2))
  | spread source => exact all

theorem objectLiteral {entries : List Outline} (all : ∀ entry ∈ entries, P entry) :
    P (Outline.objectLiteral entries) :=
  closed.enclosed _ _ (closed.join "," all)

theorem flushEntries {entries : List Outline} (all : ∀ entry ∈ entries, P entry) :
    ∀ argument ∈ Outline.flushEntries entries, P argument := by
  cases entries with
  | nil => simp [Outline.flushEntries]
  | cons entry entries =>
    intro argument member
    rw [List.mem_singleton.mp member]
    exact closed.objectLiteral all

theorem mergeArguments {properties : List Property}
    (all : ∀ property ∈ properties, property.All P) :
    ∀ {waiting : List Outline}, (∀ entry ∈ waiting, P entry) →
      ∀ argument ∈ Outline.mergeArguments waiting properties, P argument := by
  induction properties with
  | nil => exact closed.flushEntries
  | cons property properties ih =>
    obtain ⟨first, rest⟩ := List.forall_mem_cons.mp all
    intro waiting entries
    cases property with
    | entry name value =>
      apply ih rest
      exact List.forall_mem_append.mpr
        ⟨entries, List.forall_mem_singleton.mpr (closed.propertyCode first)⟩
    | spread source =>
      exact List.forall_mem_append.mpr ⟨closed.flushEntries entries,
        List.forall_mem_cons.mpr ⟨first, ih rest (by simp)⟩⟩

theorem mergeCall {arguments : List Outline} (all : ∀ argument ∈ arguments, P argument) :
    P (Outline.mergeCall arguments) :=
  closed.call .merge (by decide) (closed.append (closed.join ", " all) (closed.written _))

theorem propertyList {properties : List Property}
    (all : ∀ property ∈ properties, property.All P) : P (Outline.propertyList properties).code := by
  unfold Outline.propertyList
  split
  · exact closed.mergeCall (closed.mergeArguments all (by simp))
  · exact closed.join "," (List.forall_mem_map.mpr fun property member =>
      closed.propertyCode (all property member))

theorem attributeList {attributes : List (Attribute Rendered)}
    (all : ∀ item ∈ attributes, AttributeAll P item) :
    P (Outline.attributeList names source attributes).code := by
  apply closed.propertyList
  intro property member
  obtain ⟨item, listed, found⟩ := List.mem_filterMap.mp member
  exact closed.property? (all item listed) found

theorem object {list : CodeList} (all : P list.code) : P list.object := by
  unfold CodeList.object
  split
  · exact all
  · exact closed.enclosed _ _ all

theorem argumentCode {attributes : List (Attribute Rendered)}
    (all : ∀ item ∈ attributes, AttributeAll P item) :
    P (Outline.argumentCode names source attributes) := by
  unfold Outline.argumentCode
  cases sole : Outline.soleExpression? names source attributes with
  | none => exact closed.object (closed.attributeList all)
  | some code =>
    unfold Outline.soleExpression? at sole
    split at sole
    · dsimp only at sole
      split at sole
      · cases sole
        exact (all _ (List.mem_singleton_self _)).1.bare
      · cases sole
    · cases sole

/-! ### Children -/

theorem codeAfter {children : List Child} (all : ∀ child ∈ children, child.All P) (comma : Bool) :
    P (Child.codeAfter comma children) := by
  induction children generalizing comma with
  | nil => exact closed.nil
  | cons child children ih =>
    obtain ⟨first, rest⟩ := List.forall_mem_cons.mp all
    cases child with
    | layout code => exact closed.append first (ih rest comma)
    | item code => exact closed.cons _ (closed.append first (ih rest true))

theorem childrenProperty {children : List Child} (all : ∀ child ∈ children, child.All P) :
    P (Outline.childrenProperty children) :=
  closed.enclosed _ _ (closed.codeAfter all false)

theorem elementCode {attributes : List (Attribute Rendered)} {children : Option (List Child)}
    (all : ∀ item ∈ attributes, AttributeAll P item)
    (below : ∀ list ∈ children, ∀ child ∈ list, child.All P) :
    P (Outline.elementCode names source attributes children) := by
  have properties : P (Outline.attributeList names source attributes).code :=
    closed.attributeList all
  unfold Outline.elementCode
  cases children with
  | none => exact closed.object properties
  | some children =>
    have list : P (Outline.childrenProperty children) := closed.childrenProperty (below _ rfl)
    simp only
    split
    · apply closed.mergeCall
      intro argument member
      rcases List.mem_pair.mp member with rfl | rfl
      · exact properties
      · exact closed.enclosed _ _ list
    · exact closed.cons _ (closed.append properties
        (closed.cons _ (closed.append list (closed.written _))))

end Glue

end Closed

/-! ### Trees -/

/-- A part of a tree keeps the property: a row of nodes has it when its nodes do, apart
    from those that are copied, and a copied node that stands alone has it. -/
def Keeps (names : RuntimeNames) (source : Text) (P : Outline → Prop) : Part → Prop
  | .row nodes =>
    (∀ node ∈ nodes, (∀ span, node ≠ .verbatim span) → P (render names source node).code) →
      P (renderAll names source nodes)
  | .children nodes => ∀ span, .verbatim span ∈ nodes → P [.verbatim span]
  | .single node => ∀ span, node = .verbatim span → P [.verbatim span]

namespace Closed

variable {names : RuntimeNames} {source : Text} {P : Outline → Prop}

mutual

theorem render (closed : Closed names source P) (node : Node)
    (own : Keeps names source P (.single node))
    (parts : ∀ part ∈ node.parts, Keeps names source P part) :
    (render names source node).All P := by
  cases node with
  | verbatim span => exact own span rfl
  | code span => exact closed.code span
  | comment span => exact closed.comment span
  | text span => exact closed.textCode _
  | group delimiter body =>
    obtain ⟨row, below⟩ := List.forall_mem_cons.mp parts
    have inside : P (renderAll names source body) := row (closed.each body below)
    cases delimiter with
    | brace => exact inside
    | paren => exact closed.enclosed _ _ inside
    | bracket => exact closed.enclosed _ _ inside
  | interpolation body =>
    obtain ⟨row, below⟩ := List.forall_mem_cons.mp parts
    exact closed.textCall (row (closed.each body below))
  | reference tag => exact closed.renderTag tag parts
  | selfClosing tag argument =>
    obtain ⟨opened, given⟩ := List.forall_mem_append.mp parts
    cases argument with
    | attributes attributes =>
      exact closed.callCode (closed.renderTag tag opened)
        (closed.argumentCode (closed.renderAttributes attributes given))
    | expression value =>
      obtain ⟨own, below⟩ := List.forall_mem_cons.mp given
      exact closed.callCode (closed.renderTag tag opened)
        (closed.renderedCode (closed.render value own below))
  | element tag attributes children =>
    obtain ⟨opened, inside⟩ := List.forall_mem_append.mp parts
    obtain ⟨given, below⟩ := List.forall_mem_append.mp inside
    obtain ⟨list, below⟩ := List.forall_mem_cons.mp below
    refine closed.callCode (closed.renderTag tag opened)
      (closed.elementCode (closed.renderAttributes attributes given) ?_)
    intro rendered found
    split at found
    · cases found
    · cases found
      exact closed.renderChildren children list below
  | fragment children =>
    obtain ⟨list, below⟩ := List.forall_mem_cons.mp parts
    exact closed.enclosed _ _ (closed.codeAfter (closed.renderChildren children list below) false)

/-- The nodes of a list that are not copied have the property. -/
theorem each (closed : Closed names source P) (nodes : List Node)
    (parts : ∀ part ∈ partsOf nodes, Keeps names source P part) :
    ∀ node ∈ nodes, (∀ span, node ≠ .verbatim span) →
      P (Outline.render names source node).code := by
  cases nodes with
  | nil => simp
  | cons node nodes =>
    obtain ⟨first, rest⟩ := List.forall_mem_append.mp parts
    refine List.forall_mem_cons.mpr ⟨?_, closed.each nodes rest⟩
    intro different
    exact closed.renderedCode
      (closed.render node (fun span same => (different span same).elim) first)

theorem renderTag (closed : Closed names source P) (tag : Tag Node)
    (parts : ∀ part ∈ tagParts tag, Keeps names source P part) :
    P (renderTag names source tag) := by
  cases tag with
  | mk leading name trailing =>
    obtain ⟨before, others⟩ := List.forall_mem_append.mp parts
    obtain ⟨front, before⟩ := List.forall_mem_cons.mp before
    obtain ⟨word, after⟩ := List.forall_mem_append.mp others
    obtain ⟨own, word⟩ := List.forall_mem_cons.mp word
    obtain ⟨back, after⟩ := List.forall_mem_cons.mp after
    exact closed.append (front (closed.each leading before))
      (closed.append (closed.tagName (closed.render name own word))
        (back (closed.each trailing after)))

theorem renderAttributes (closed : Closed names source P) (attributes : List (Attribute Node))
    (parts : ∀ part ∈ attributesParts attributes, Keeps names source P part) :
    ∀ item ∈ renderAttributes names source attributes, AttributeAll P item := by
  cases attributes with
  | nil => simp [Outline.renderAttributes]
  | cons first attributes =>
    cases first with
    | mk name value =>
      obtain ⟨word, others⟩ := List.forall_mem_append.mp parts
      obtain ⟨own, word⟩ := List.forall_mem_cons.mp word
      obtain ⟨given, rest⟩ := List.forall_mem_append.mp others
      exact List.forall_mem_cons.mpr
        ⟨⟨closed.render name own word, closed.renderValue value given⟩,
          closed.renderAttributes attributes rest⟩

theorem renderValue (closed : Closed names source P) (value : Option Node)
    (parts : ∀ part ∈ valueParts value, Keeps names source P part) :
    ∀ rendered ∈ renderValue names source value, rendered.All P := by
  cases value with
  | none => simp [Outline.renderValue]
  | some value =>
    obtain ⟨own, below⟩ := List.forall_mem_cons.mp parts
    intro rendered found
    cases found
    exact closed.render value own below

theorem renderChildren (closed : Closed names source P) (children : List Node)
    (own : Keeps names source P (.children children))
    (parts : ∀ part ∈ partsOf children, Keeps names source P part) :
    ∀ child ∈ renderChildren names source children, child.All P := by
  cases children with
  | nil => simp [Outline.renderChildren]
  | cons child children =>
    obtain ⟨first, rest⟩ := List.forall_mem_append.mp parts
    have others : ∀ child ∈ Outline.renderChildren names source children, child.All P :=
      closed.renderChildren children
        (fun span member => own span (List.mem_cons_of_mem _ member)) rest
    cases child with
    | fragment nested =>
      obtain ⟨list, below⟩ := List.forall_mem_cons.mp first
      exact List.forall_mem_append.mpr ⟨closed.renderChildren nested list below, others⟩
    | interpolation body =>
      obtain ⟨row, below⟩ := List.forall_mem_cons.mp first
      have inside : P (renderAll names source body) := row (closed.each body below)
      refine List.forall_mem_cons.mpr ⟨?_, others⟩
      exact closed.cons _ (closed.call _ (by decide) (closed.append inside (closed.written _)))
    | text span =>
      simp only [Outline.renderChildren]
      refine List.forall_mem_cons.mpr ⟨?_, others⟩
      split <;> exact closed.textCode _
    | verbatim span =>
      exact List.forall_mem_cons.mpr ⟨own span (List.mem_cons_self ..), others⟩
    | code span => exact List.forall_mem_cons.mpr ⟨closed.code span, others⟩
    | comment span => exact List.forall_mem_cons.mpr ⟨closed.comment span, others⟩
    | _ =>
      exact List.forall_mem_cons.mpr
        ⟨closed.renderedCode (closed.render _ nofun first), others⟩

end

end Closed

end ViewScript.Outline
