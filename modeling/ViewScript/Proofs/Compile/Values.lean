/-
  ViewScript/Proofs/Compile/Values.lean
  =====================================
  **Entries without a value.**

  An attribute with a value becomes an entry `"name":value`.  Braces around the value are
  dropped unless they hold an object literal, so the entry is left without a value when
  nothing can be seen between the braces.  A spread of nothing is left out; such an entry
  is not.

  Braces around blanks are the only case.  A name, a string, other brackets, a comment and
  a view all leave something to see in the code, and so does braced code that reads as an
  object literal, because of its colon.
-/
import ViewScript.Proofs.Code.Merging
import ViewScript.Proofs.Grammar.LineComments

namespace ViewScript

open Grammar

/-! ### Texts with nothing to see -/

theorem Text.isBlank_append (front back : Text) :
    (front ++ back).isBlank = (front.isBlank && back.isBlank) :=
  List.all_append

theorem Text.isBlank_of_mem {text : Text} {c : Char} (member : c ∈ text)
    (solid : ViewScript.isBlank c = false) : text.isBlank = false := by
  refine List.all_eq_false.mpr ⟨c, member, ?_⟩
  rw [solid]
  exact Bool.false_ne_true

/-- All of ASCII behind the space can be seen. -/
theorem isBlank_of_ascii {c : Char} (low : 32 < c.toNat) (high : c.toNat < 128) :
    isBlank c = false := by
  have outside : ∀ range ∈ blankRanges, range.2 ≤ 32 ∨ 128 ≤ range.1 := by decide
  refine List.any_eq_false.mpr fun range member => ?_
  rw [Bool.and_eq_true, decide_eq_true_eq, decide_eq_true_eq]
  have apart := outside range member
  omega

/-- The characters of names can be seen. -/
theorem isBlank_of_isNameChar {c : Char} (isName : isNameChar c = true) : isBlank c = false := by
  have ascii : 32 < c.toNat ∧ c.toNat < 128 := by
    simp only [isNameChar, Bool.or_eq_true, beq_iff_eq] at isName
    rcases isName with (((word | rfl) | rfl) | rfl) | rfl
    · delta Char.isAlphanum Char.isAlpha Char.isUpper Char.isLower Char.isDigit at word
      simp only [Bool.or_eq_true, Bool.and_eq_true, decide_eq_true_eq, ge_iff_le,
        UInt32.le_iff_toNat_le, Char.toNat_val, Char.reduceToNat] at word
      omega
    all_goals decide
  exact isBlank_of_ascii ascii.1 ascii.2

variable (names : RuntimeNames) {source : Text}

/-! ### What is written and what is generated -/

/-- The node is a value that stands in the source as the text. -/
def Node.IsWritten (source : Text) (node : Node) (text : Text) : Prop :=
  ∃ offset, Derives .value offset text node ∧ source.StandsAt offset text

/-- Braces in the source with nothing to see between them. -/
def Node.IsVoid (source : Text) (node : Node) : Prop :=
  ∃ gap : Text, gap.isBlank ∧ node.IsWritten source ('\x7b' :: (gap ++ ['\x7d']))

/-- The attributes of a tag. -/
def Node.attributes? : Node → Option (List (Attribute Node))
  | .selfClosing _ (.attributes attributes) => some attributes
  | .element _ attributes _ => some attributes
  | _ => none

/-- The property that an attribute becomes. -/
def Attribute.propertyIn (names : RuntimeNames) (source : Text) (item : Attribute Node) :
    Option Property :=
  property? ⟨render names source item.name, renderValue names source item.value⟩

theorem attributeList_eq_propertyList (attributes : List (Attribute Node)) :
    attributeList names.merge (renderAttributes names source attributes) =
      propertyList names.merge (attributes.filterMap (Attribute.propertyIn names source)) := by
  have rendered : (renderAttributes names source attributes).filterMap Attribute.property? =
      attributes.filterMap (Attribute.propertyIn names source) := by
    induction attributes with
    | nil => rfl
    | cons item attributes ih =>
      rw [renderAttributes, List.filterMap_cons, List.filterMap_cons, ih]
      rfl
  rw [attributeList, rendered]

/-! ### Code that can be seen -/

theorem isBlank_value {offset : Nat} {text : Text} {node : Node}
    (derives : Derives .value offset text node) (stands : source.StandsAt offset text) :
    text.isBlank = false ∧ (render names source node).code.isBlank = false := by
  cases derives with
  | name run =>
    have solid : text.isBlank = false := by
      obtain ⟨c, member⟩ := List.exists_mem_of_ne_nil text run.1
      exact Text.isBlank_of_mem member (isBlank_of_isNameChar (run.2 c member))
    refine ⟨solid, ?_⟩
    rw [render, Rendered.code, stands.slice_eq]
    exact solid
  | @quoted _ mark content known _ =>
    have solid : Text.isBlank (mark :: (content ++ [mark])) = false := by
      have seen : isBlank mark = false := by
        rcases known with _ | ⟨_, _ | ⟨_, _ | ⟨_, ⟨⟩⟩⟩⟩ <;> decide
      exact Text.isBlank_of_mem (List.mem_cons_self ..) seen
    refine ⟨solid, ?_⟩
    rw [render, Rendered.code, stands.slice_eq]
    exact solid
  | @group _ delimiter _ body _ =>
    have seen : isBlank delimiter.opening = false := by cases delimiter <;> decide
    rw [code_render_group]
    constructor <;> exact Text.isBlank_of_mem (List.mem_cons_self ..) seen

theorem isBlank_tagName {rendered : Rendered} (components : Text)
    (solid : rendered.code.isBlank = false) : (rendered.tagName components).isBlank = false := by
  cases rendered with
  | braced inside objectLike =>
    exact Text.isBlank_of_mem (List.mem_cons_self ..) (by decide : isBlank '(' = false)
  | plain code =>
    rw [Rendered.tagName]
    split
    · have point : '.' ∈ components ++ "." ++ code := by simp
      exact Text.isBlank_of_mem point (by decide)
    · exact solid

theorem isBlank_callCode (component argument : Text) :
    (callCode component argument).isBlank = false := by
  have bracket : '(' ∈ callCode component argument := by simp [callCode]
  exact Text.isBlank_of_mem bracket (by decide)

theorem isBlank_opening {offset : Nat} {text : Text} {tag : Tag Node}
    (derives : Derives .opening offset text tag) (stands : source.StandsAt offset text) :
    (renderTag names source tag).isBlank = false := by
  cases derives with
  | opening _ named _ =>
    have word := stands.tail.right.left
    rw [renderTag, Text.isBlank_append, Text.isBlank_append,
      isBlank_tagName names.components (isBlank_value names named word).2, Bool.and_false,
      Bool.false_and]

theorem isBlank_view {offset : Nat} {text : Text} {node : Node}
    (derives : Derives .view offset text node) (stands : source.StandsAt offset text) :
    text.isBlank = false ∧ (render names source node).code.isBlank = false := by
  constructor
  · obtain ⟨-, first, -⟩ := isView_of_derives derives
    exact Text.isBlank_of_mem (List.mem_of_mem_head? first) (by decide : isBlank '<' = false)
  · cases derives with
    | viewReference derives =>
      cases derives with
      | reference opened => exact isBlank_opening names opened stands.left
    | viewSelfClosing derives => cases derives <;> exact isBlank_callCode _ _
    | viewElement derives =>
      cases derives
      exact isBlank_callCode _ _
    | viewFragment derives =>
      cases derives
      exact Text.isBlank_of_mem (List.mem_cons_self ..) (by decide : isBlank '[' = false)

/-- The code of an expression can be seen just when the expression can. -/
theorem isBlank_renderAll {offset : Nat} {inside : Text} {body : List Node}
    (derives : Derives .expression offset inside body) (stands : source.StandsAt offset inside) :
    (renderAll names source body).isBlank = inside.isBlank := by
  induction body generalizing offset inside with
  | nil =>
    cases derives
    rfl
  | cons node nodes ih =>
    rw [renderAll, Text.isBlank_append]
    cases derives with
    | expressionMark _ rest | expressionCode _ rest =>
      rw [Text.isBlank_append, ih rest stands.right, render, Rendered.code, stands.left.slice_eq]
    | expressionComment note rest =>
      cases note
      rfl
    | expressionValue value rest =>
      obtain ⟨first, second⟩ := isBlank_value names value stands.left
      rw [Text.isBlank_append, first, second, Bool.false_and, Bool.false_and]
    | expressionView view rest =>
      obtain ⟨first, second⟩ := isBlank_view names view stands.left
      rw [Text.isBlank_append, first, second, Bool.false_and, Bool.false_and]

/-- An expression in which nothing can be seen is plain code, and blank. -/
theorem codes_of_isBlank {offset : Nat} {inside : Text} {body : List Node}
    (derives : Derives .expression offset inside body) (stands : source.StandsAt offset inside)
    (blank : inside.isBlank = true) :
    ∀ node ∈ body, ∃ span : Span, node = .code span ∧ (span.slice source).isBlank = true := by
  induction body generalizing offset inside with
  | nil => simp
  | cons node nodes ih =>
    cases derives with
    | @expressionCode _ item rest _ _ others =>
      rw [Text.isBlank_append, Bool.and_eq_true] at blank
      refine List.forall_mem_cons.mpr ⟨⟨_, rfl, ?_⟩, ih others stands.right blank.2⟩
      rw [stands.left.slice_eq]
      exact blank.1
    | expressionMark mark _ =>
      cases mark <;> exact absurd blank (by simp [Text.isBlank, isBlank, blankRanges])
    | expressionComment note _ =>
      cases note
      exact absurd blank (by simp [Text.isBlank, isBlank, blankRanges])
    | expressionValue value _ =>
      rw [Text.isBlank_append, (isBlank_value {} value stands.left).1] at blank
      cases blank
    | expressionView view _ =>
      rw [Text.isBlank_append, (isBlank_view {} view stands.left).1] at blank
      cases blank

/-- Where nothing can be seen there is no colon of an object literal. -/
theorem readsAsObject_of_isBlank {offset : Nat} {inside : Text} {body : List Node}
    (derives : Derives .expression offset inside body) (stands : source.StandsAt offset inside)
    (blank : inside.isBlank = true) : readsAsObject source body = false := by
  refine Bool.and_eq_false_iff.mpr (.inl (List.any_eq_false.mpr fun code member => ?_))
  obtain ⟨node, isMember, isCode⟩ := List.mem_filterMap.mp member
  obtain ⟨span, rfl, blankCode⟩ := codes_of_isBlank derives stands blank node isMember
  cases isCode
  intro colon
  have solid := Text.isBlank_of_mem (List.contains_iff_mem.mp colon) (by decide)
  exact absurd (solid.symm.trans blankCode) Bool.false_ne_true

/-! ### Values of attributes -/

theorem exists_group_of_braces {offset : Nat} {text gap : Text} {node : Node}
    (derives : Derives .value offset text node) (braces : text = '\x7b' :: (gap ++ ['\x7d'])) :
    ∃ body, node = .group .brace body ∧ Derives .expression (offset + 1) gap body := by
  cases derives with
  | name run =>
    subst braces
    exact absurd (run.2 _ (List.mem_cons_self ..)) (by decide)
  | quoted known _ =>
    obtain ⟨rfl, -⟩ := List.cons.inj braces
    exact absurd known (by decide)
  | @group _ delimiter inside body derives =>
    obtain ⟨same, rest⟩ := List.cons.inj braces
    cases delimiter with
    | paren | bracket => exact absurd same (by decide)
    | brace =>
      obtain ⟨rfl, -⟩ := List.append_inj' rest rfl
      exact ⟨body, rfl, derives⟩

/-- A value is generated as blanks just when it is written as braces around blanks. -/
theorem isBlank_valueCode_iff {text : Text} {node : Node} (written : node.IsWritten source text) :
    (render names source node).valueCode.isBlank = true ↔ node.IsVoid source := by
  constructor
  · intro blank
    obtain ⟨offset, derives, stands⟩ := written
    have solid := (isBlank_value names derives stands).2
    cases derives with
    | name run => exact absurd (solid.symm.trans blank) Bool.false_ne_true
    | quoted known run => exact absurd (solid.symm.trans blank) Bool.false_ne_true
    | @group _ delimiter inside body expression =>
      cases delimiter with
      | paren | bracket => exact absurd (solid.symm.trans blank) Bool.false_ne_true
      | brace =>
        rw [render] at blank solid
        cases isObject : readsAsObject source body with
        | true =>
          rw [isObject] at blank solid
          exact absurd (solid.symm.trans blank) Bool.false_ne_true
        | false =>
          rw [isObject] at blank
          have same := isBlank_renderAll names expression stands.tail.left
          exact ⟨inside, same.symm.trans blank, offset,
            @Derives.group offset .brace inside body expression, stands⟩
  · rintro ⟨gap, blank, offset, derives, stands⟩
    obtain ⟨body, rfl, expression⟩ := exists_group_of_braces derives rfl
    have inside := stands.tail.left
    rw [render, readsAsObject_of_isBlank expression inside blank]
    exact (isBlank_renderAll names expression inside).trans blank

/-- The values of the node's attributes are written in the source. -/
def Node.HasWrittenValues (source : Text) (node : Node) : Prop :=
  ∀ attributes ∈ node.attributes?, ∀ item ∈ attributes, ∀ given ∈ item.value,
    ∃ text, given.IsWritten source text

theorem written_of_attributes {offset : Nat} {text : Text} {attributes : List (Attribute Node)}
    (derives : Derives .attributes offset text attributes) (stands : source.StandsAt offset text) :
    ∀ item ∈ attributes, ∀ given ∈ item.value, ∃ text, given.IsWritten source text := by
  induction attributes generalizing offset text with
  | nil => simp
  | cons item attributes ih =>
    cases derives with
    | attributesName named gap rest =>
      have behind := stands.right.right
      refine List.forall_mem_cons.mpr ⟨?_, ih rest behind⟩
      rintro given ⟨⟩
    | attributesValue named valued gap rest =>
      have behind := stands.right.right.right
      simp only [Text.byteSize_cons, ← Nat.add_assoc] at behind
      refine List.forall_mem_cons.mpr ⟨?_, ih rest behind⟩
      rintro given ⟨⟩
      exact ⟨_, _, valued, stands.right.left.tail⟩

theorem hasWrittenValues_of_none {node : Node} (none : node.attributes? = none) :
    node.HasWrittenValues source := by
  intro attributes found
  rw [none] at found
  cases found

theorem hasWrittenValues_view {offset : Nat} {text : Text} {node : Node}
    (derives : Derives .view offset text node) (stands : source.StandsAt offset text) :
    node.HasWrittenValues source := by
  cases derives with
  | viewReference derives =>
    cases derives
    exact hasWrittenValues_of_none rfl
  | viewSelfClosing derives =>
    cases derives with
    | selfClosing _ list =>
      rintro attributes ⟨⟩
      exact written_of_attributes list stands.right.left
    | selfClosingValue _ _ => exact hasWrittenValues_of_none rfl
  | viewElement derives =>
    cases derives with
    | element _ list _ _ =>
      rintro attributes ⟨⟩
      exact written_of_attributes list stands.right.left
  | viewFragment derives =>
    cases derives
    exact hasWrittenValues_of_none rfl

theorem hasWrittenValues_value {offset : Nat} {text : Text} {node : Node}
    (derives : Derives .value offset text node) : node.HasWrittenValues source := by
  cases derives <;> exact hasWrittenValues_of_none rfl

theorem hasWrittenValues_separator {offset : Nat} {text : Text} {nodes : List Node}
    (derives : Derives .separator offset text nodes) :
    ∀ node ∈ nodes, node.HasWrittenValues source := by
  induction nodes generalizing offset text with
  | nil => simp
  | cons node nodes ih =>
    cases derives with
    | separatorBlank _ rest =>
      exact List.forall_mem_cons.mpr ⟨hasWrittenValues_of_none rfl, ih rest⟩
    | separatorComment note rest =>
      cases note
      exact List.forall_mem_cons.mpr ⟨hasWrittenValues_of_none rfl, ih rest⟩

theorem hasWrittenValues_children {offset : Nat} {text : Text} {nodes : List Node}
    (derives : Derives .children offset text nodes) (stands : source.StandsAt offset text) :
    ∀ node ∈ nodes, node.HasWrittenValues source := by
  induction nodes generalizing offset text with
  | nil => simp
  | cons node nodes ih =>
    cases derives with
    | childrenView view rest =>
      exact List.forall_mem_cons.mpr
        ⟨hasWrittenValues_view view stands.left, ih rest stands.right⟩
    | childrenText item rest | childrenInterpolation item rest =>
      cases item
      exact List.forall_mem_cons.mpr ⟨hasWrittenValues_of_none rfl, ih rest stands.right⟩

theorem hasWrittenValues_expression {offset : Nat} {text : Text} {nodes : List Node}
    (derives : Derives .expression offset text nodes) (stands : source.StandsAt offset text) :
    ∀ node ∈ nodes, node.HasWrittenValues source := by
  induction nodes generalizing offset text with
  | nil => simp
  | cons node nodes ih =>
    cases derives with
    | expressionMark _ rest | expressionCode _ rest =>
      exact List.forall_mem_cons.mpr ⟨hasWrittenValues_of_none rfl, ih rest stands.right⟩
    | expressionComment item rest =>
      cases item
      exact List.forall_mem_cons.mpr ⟨hasWrittenValues_of_none rfl, ih rest stands.right⟩
    | expressionValue value rest =>
      exact List.forall_mem_cons.mpr ⟨hasWrittenValues_value value, ih rest stands.right⟩
    | expressionView view rest =>
      exact List.forall_mem_cons.mpr
        ⟨hasWrittenValues_view view stands.left, ih rest stands.right⟩

/-- In the tree of a program all values of attributes are written in the source. -/
theorem hasWrittenValues_of_parse {nodes : List Node} (parsed : parse source = .ok nodes) :
    ∀ part ∈ .row nodes :: partsOf nodes, ∀ node ∈ part.nodes, node.HasWrittenValues source := by
  have derives := derives_of_parse parsed
  have stands := Text.StandsAt.whole source
  refine List.forall_mem_cons.mpr ⟨hasWrittenValues_expression derives stands, ?_⟩
  refine derives.forall_parts ?_ ?_ ?_ ?_ stands
  · intro offset text nodes derives _
    exact hasWrittenValues_separator derives
  · intro delimiter offset inside body derives stands
    exact hasWrittenValues_expression derives stands.left
  · intro offset text nodes derives stands
    exact hasWrittenValues_children derives stands
  · intro offset text node derives _
    exact List.forall_mem_singleton.mpr (hasWrittenValues_value derives)

/-! ### Entries -/

theorem isBlank_entry_iff {item : Attribute Node} {name value : Text}
    (written : ∀ given ∈ item.value, ∃ text, given.IsWritten source text)
    (isEntry : item.propertyIn names source = some (.entry name value)) :
    value.isBlank = true ↔ ∃ given ∈ item.value, given.IsVoid source := by
  obtain ⟨label, given⟩ := item
  cases Attribute.readsAs_iff.mpr isEntry with
  | entry plain =>
    cases given with
    | none => simp [renderValue, Text.isBlank, isBlank, blankRanges]
    | some given =>
      obtain ⟨text, written⟩ := written given rfl
      rw [renderValue, Option.elim_some, isBlank_valueCode_iff names written]
      simp

/-- **Entries without a value.**  For a source that compiles, the attributes of each tag of
    the tree are generated from their properties.  An entry among them has a blank value
    just when the value of the attribute is written as braces around blanks. -/
theorem compile_entry_isBlank_iff {names : RuntimeNames} {source output : Text}
    (compiled : compile names source = .ok output) :
    ∃ nodes, parse source = .ok nodes ∧ renderAll names source nodes = output ∧
      ∀ part ∈ .row nodes :: partsOf nodes, ∀ node ∈ part.nodes,
        ∀ attributes ∈ node.attributes?,
          attributeList names.merge (renderAttributes names source attributes) =
            propertyList names.merge
              (attributes.filterMap (Attribute.propertyIn names source)) ∧
          ∀ item ∈ attributes, ∀ name value,
            item.propertyIn names source = some (.entry name value) →
              (value.isBlank ↔ ∃ given ∈ item.value, given.IsVoid source) := by
  obtain ⟨nodes, parsed, rendered⟩ := compile_eq_ok_iff.mp compiled
  refine ⟨nodes, parsed, rendered, fun part isPart node isNode attributes isTag => ?_⟩
  refine ⟨attributeList_eq_propertyList names attributes, ?_⟩
  intro item member name value isEntry
  have written := hasWrittenValues_of_parse parsed part isPart node isNode attributes isTag
  exact isBlank_entry_iff names (written item member) isEntry

/-- In `<X a={}/>` the entry of `a` has no value at all. -/
theorem compile_entry_isBlank_iff_braces :
    let source : Text := "<X a=\x7b\x7d/>"
    let item : Attribute Node := ⟨.code ⟨3, 4⟩, some (.group .brace [])⟩
    compile {} source = .ok "X (\x7b\"a\":\x7d)" ∧
      parse source = .ok
        [.selfClosing ⟨[], .code ⟨1, 2⟩, [.verbatim ⟨2, 3⟩]⟩ (.attributes [item])] ∧
      item.propertyIn {} source = some (.entry "a" "") ∧
      ∃ given ∈ item.value, given.IsVoid source := by
  intro source item
  have compiled : compile {} "<X a=\x7b\x7d/>" = .ok "X (\x7b\"a\":\x7d)" := by decide +kernel
  have parsed : parse "<X a=\x7b\x7d/>" = .ok
      [.selfClosing ⟨[], .code ⟨1, 2⟩, [.verbatim ⟨2, 3⟩]⟩
        (.attributes [⟨.code ⟨3, 4⟩, some (.group .brace [])⟩])] := by decide +kernel
  have isEntry : item.propertyIn {} source = some (.entry "a" "") := by decide +kernel
  obtain ⟨nodes, isTree, -, entries⟩ := compile_entry_isBlank_iff compiled
  obtain rfl := Except.ok.inj (isTree.symm.trans parsed)
  have first := entries _ (List.mem_cons_self ..) _ (List.mem_cons_self ..) [item] rfl
  have isVoid := first.2 item (List.mem_cons_self ..) "a" "" isEntry
  exact ⟨compiled, parsed, isEntry, isVoid.mp rfl⟩

end ViewScript
