/-
  ViewScript/Proofs/Code/LineBreaks.lean
  ======================================
  **Line breaks in generated code.**

  The generator writes no line break of its own, except the one behind the escape of a
  line break in a text.  All others come from the spans of the tree.  A span is copied at
  most once.  Outside the attributes of tags it is copied exactly once; of an attribute the
  name can be replaced by another spelling, the value can be passed over, and both can be
  dropped.

  So the line breaks of the code are bounded by those of two lists of spans: from below by
  the spans outside attributes, from above by all spans.
-/
import Mathlib.Algebra.Order.Ring.Nat
import ViewScript.Proofs.Code.Literals
import ViewScript.Proofs.Code.Merging
import ViewScript.Proofs.Tree.Spans

namespace ViewScript

/-! ### Counting -/

/-- The number of line breaks in a text. -/
def Text.breaks (text : Text) : Nat := text.count '\n'

@[simp] theorem Text.breaks_nil : Text.breaks [] = 0 := rfl

@[simp] theorem Text.breaks_append (front back : Text) :
    Text.breaks (front ++ back) = Text.breaks front + Text.breaks back :=
  List.count_append

@[simp] theorem Text.breaks_cons_of_ne {c : Char} (other : c ≠ '\n') (rest : Text) :
    Text.breaks (c :: rest) = Text.breaks rest :=
  List.count_cons_of_ne other

theorem Text.breaks_cons_break (rest : Text) : Text.breaks ('\n' :: rest) = Text.breaks rest + 1 :=
  List.count_cons_self

theorem Text.breaks_eq_zero {text : Text} : text.breaks = 0 ↔ '\n' ∉ text :=
  List.count_eq_zero

theorem Text.breaks_join {separator : Text} (plain : separator.breaks = 0) (texts : List Text) :
    (Text.join separator texts).breaks = (texts.map Text.breaks).sum := by
  induction texts with
  | nil => rfl
  | cons text texts ih =>
    cases texts with
    | nil => simp [Text.join]
    | cons next texts =>
      simpa [Text.join, plain] using ih

/-- The line breaks in the texts of spans. -/
def breaksAt (source : Text) (spans : List Span) : Nat :=
  (spans.map fun span => (span.slice source).breaks).sum

/-- No name of the runtime library has a line break. -/
structure RuntimeNames.Unbroken (names : RuntimeNames) : Prop where
  components : names.components.breaks = 0
  normalizeChildren : names.normalizeChildren.breaks = 0
  merge : names.merge.breaks = 0

/-! ### Single nodes -/

theorem breaks_escapeText (text : Text) : (escapeText text).breaks = text.breaks := by
  fun_induction escapeText text with
  | case1 => rfl
  | case2 c rest ih =>
    by_cases isBreak : c = '\n' <;> simp [isBreak, ih, Text.breaks_cons_break]
  | case3 rest ih => simp [ih]
  | case4 rest ih => simp [ih, Text.breaks_cons_break]
  | case5 rest ih => simp [ih]
  | case6 c rest _ _ noBreak _ ih =>
    have other : c ≠ '\n' := noBreak
    simp [other, ih]

theorem breaks_textCall {components : Text} (plain : components.breaks = 0) (expression : Text) :
    (textCall components expression).breaks = expression.breaks := by
  simp [textCall, plain]

theorem breaks_textCode {components : Text} (plain : components.breaks = 0) (text : Text) :
    (textCode components text).breaks = text.breaks := by
  unfold textCode
  split
  · rfl
  · rw [breaks_textCall plain]
    simp [Text.quoted, breaks_escapeText]

namespace Rendered

theorem breaks_code (rendered : Rendered) : rendered.code.breaks = rendered.bare.breaks := by
  cases rendered <;> simp [code, bare]

theorem breaks_valueCode (rendered : Rendered) :
    rendered.valueCode.breaks = rendered.bare.breaks := by
  cases rendered with
  | plain code => rfl
  | braced inside objectLike =>
    cases objectLike with
    | false => rfl
    | true => exact breaks_code (.braced inside true)

theorem breaks_tagName {components : Text} (plain : components.breaks = 0) (rendered : Rendered) :
    (rendered.tagName components).breaks = rendered.bare.breaks := by
  cases rendered with
  | braced inside objectLike => simp [tagName, bare]
  | plain code =>
    simp only [tagName, bare]
    split
    · simp [plain]
    · rfl

end Rendered

/-! ### Properties -/

/-- Another spelling of an attribute has no line break. -/
theorem breaks_attributeName_le (name : Text) : (attributeName name).breaks ≤ name.breaks := by
  unfold attributeName
  cases found : attributeAliases.lookup name with
  | none => exact Nat.le_refl _
  | some usual =>
    have plain : ∀ spelling ∈ attributeAliases, spelling.2.breaks = 0 := by decide
    obtain ⟨front, back, split, -⟩ := List.lookup_eq_some_iff.mp found
    rw [Option.getD_some, plain (name, usual) (by simp [split])]
    exact Nat.zero_le _

/-- The line breaks in the name of an attribute and in its value. -/
def Attribute.breaks (item : Attribute Rendered) : Nat :=
  item.name.bare.breaks + item.value.elim 0 fun value => value.bare.breaks

theorem breaks_propertyName_le (item : Attribute Rendered) :
    item.propertyName.breaks ≤ item.name.bare.breaks := breaks_attributeName_le _

theorem breaks_property_le {item : Attribute Rendered} {property : Property}
    (found : item.property? = some property) : property.code.breaks ≤ item.breaks := by
  have named := breaks_propertyName_le item
  unfold Attribute.breaks
  cases Attribute.readsAs_iff.mpr found with
  | entry plain =>
    cases given : item.value with
    | none => simpa [Property.code, Text.quoted] using named
    | some value =>
      simpa [Property.code, Text.quoted, value.breaks_valueCode] using named
  | spread origin solid =>
    cases origin with
    | name dots more =>
      rw [dots, Text.breaks_append] at named
      simp only [Property.code]
      omega
    | value dots given => simp [Property.code, given]
    | nothing dots absent => simp [Property.code]

theorem breaks_objectLiteral (entries : List Text) :
    (objectLiteral entries).breaks = (entries.map Text.breaks).sum := by
  simp [objectLiteral, Text.breaks_join]

theorem breaks_flushEntries (entries : List Text) :
    ((flushEntries entries).map Text.breaks).sum = (entries.map Text.breaks).sum := by
  cases entries with
  | nil => rfl
  | cons entry entries => simp [flushEntries, breaks_objectLiteral]

theorem breaks_mergeArguments (waiting : List Text) (properties : List Property) :
    ((mergeArguments waiting properties).map Text.breaks).sum =
      (waiting.map Text.breaks).sum +
        (properties.map fun property => property.code.breaks).sum := by
  fun_induction mergeArguments waiting properties with
  | case1 waiting => simp [breaks_flushEntries]
  | case2 waiting name value properties ih => simp [ih, Nat.add_assoc]
  | case3 waiting source properties ih => simp [ih, breaks_flushEntries, Property.code]

theorem breaks_mergeCall {merge : Text} (plain : merge.breaks = 0) (arguments : List Text) :
    (mergeCall merge arguments).breaks = (arguments.map Text.breaks).sum := by
  simp [mergeCall, plain, Text.breaks_join]

theorem breaks_propertyList {merge : Text} (plain : merge.breaks = 0)
    (properties : List Property) : (propertyList merge properties).code.breaks =
      (properties.map fun property => property.code.breaks).sum := by
  unfold propertyList
  split
  · simp [breaks_mergeCall plain, breaks_mergeArguments]
  · simp [Text.breaks_join, Function.comp_def]

theorem breaks_attributeList_le {merge : Text} (plain : merge.breaks = 0)
    (items : List (Attribute Rendered)) :
    (attributeList merge items).code.breaks ≤ (items.map Attribute.breaks).sum := by
  rw [attributeList, breaks_propertyList plain]
  induction items with
  | nil => exact Nat.le_refl _
  | cons item items ih =>
    cases found : item.property? with
    | none =>
      rw [List.filterMap_cons_none found, List.map_cons, List.sum_cons]
      exact Nat.le_add_left_of_le ih
    | some property =>
      rw [List.filterMap_cons_some found, List.map_cons, List.map_cons, List.sum_cons,
        List.sum_cons]
      exact Nat.add_le_add (breaks_property_le found) ih

theorem breaks_object (list : CodeList) : list.object.breaks = list.code.breaks := by
  unfold CodeList.object
  split
  · rfl
  · simp

theorem breaks_separator (list : CodeList) : list.separator.breaks = 0 := by
  unfold CodeList.separator
  split <;> rfl

theorem breaks_argumentCode_le {merge : Text} (plain : merge.breaks = 0)
    (items : List (Attribute Rendered)) :
    (argumentCode merge items).breaks ≤ (items.map Attribute.breaks).sum := by
  unfold argumentCode
  cases sole : soleExpression? items with
  | none =>
    rw [Option.getD_none, breaks_object]
    exact breaks_attributeList_le plain items
  | some code =>
    unfold soleExpression? at sole
    split at sole
    · split at sole
      · cases sole
        simp [Attribute.breaks]
      · cases sole
    · cases sole

/-! ### Children -/

/-- The line breaks in the code of a child. -/
def Child.breaks : Child → Nat
  | .layout text => text.breaks
  | .item code => code.breaks

theorem breaks_codeAfter (comma : Bool) (children : List Child) :
    (Child.codeAfter comma children).breaks = (children.map Child.breaks).sum := by
  induction children generalizing comma with
  | nil => rfl
  | cons child children ih =>
    cases child with
    | layout text => simp [Child.codeAfter, Child.breaks, ih]
    | item code => cases comma <;> simp [Child.codeAfter, Child.breaks, ih]

theorem breaks_childrenProperty (children : List Child) :
    (childrenProperty children).breaks = (children.map Child.breaks).sum := by
  have opening : Text.breaks "children:[" = 0 := by decide
  have closing : Text.breaks "]" = 0 := by decide
  have list : (childList children).code.breaks = _ := breaks_codeAfter false children
  unfold childrenProperty
  simp only [Text.breaks_append, opening, closing, list, Nat.zero_add, Nat.add_zero]

theorem breaks_elementCode {merge : Text} (plain : merge.breaks = 0)
    (items : List (Attribute Rendered)) (children : Option (List Child)) :
    (elementCode merge items children).breaks =
      (attributeList merge items).code.breaks +
        children.elim 0 fun list => (list.map Child.breaks).sum := by
  unfold elementCode
  cases children with
  | none => exact breaks_object _
  | some children =>
    simp only [Option.elim_some]
    split
    · simp [breaks_mergeCall plain, breaks_childrenProperty]
    · simp [breaks_childrenProperty, breaks_separator]

/-! ### Trees -/

mutual

/-- The spans of a node outside the attributes of tags. -/
def Node.keptSpans : Node → List Span
  | .verbatim span | .code span | .comment span | .text span => [span]
  | .group _ body => keptSpansOf body
  | .interpolation body => keptSpansOf body
  | .reference tag => tagKeptSpans tag
  | .selfClosing tag _ => tagKeptSpans tag
  | .element tag _ children => tagKeptSpans tag ++ keptSpansOf children
  | .fragment children => keptSpansOf children

def keptSpansOf : List Node → List Span
  | [] => []
  | node :: nodes => node.keptSpans ++ keptSpansOf nodes

def tagKeptSpans : Tag Node → List Span
  | ⟨leading, name, trailing⟩ =>
    keptSpansOf leading ++ (name.keptSpans ++ keptSpansOf trailing)

end

theorem keptSpansOf_append (front back : List Node) :
    keptSpansOf (front ++ back) = keptSpansOf front ++ keptSpansOf back := by
  induction front with
  | nil => rfl
  | cons node front ih => rw [List.cons_append, keptSpansOf, keptSpansOf, ih, List.append_assoc]

@[simp] theorem keptSpansOf_singleton (node : Node) : keptSpansOf [node] = node.keptSpans :=
  List.append_nil node.keptSpans

theorem keptSpansOf_tag (leading trailing : List Node) (name : Node) :
    keptSpansOf (leading ++ name :: trailing) = tagKeptSpans ⟨leading, name, trailing⟩ := by
  rw [keptSpansOf_append, keptSpansOf, tagKeptSpans]

/-- A number of line breaks lies between those of the first spans and those of the
    second. -/
structure Bounded (source : Text) (kept all : List Span) (count : Nat) : Prop where
  lower : breaksAt source kept ≤ count
  upper : count ≤ breaksAt source all

theorem breaksAt_append (source : Text) (front back : List Span) :
    breaksAt source (front ++ back) = breaksAt source front + breaksAt source back := by
  simp [breaksAt]

theorem Bounded.append {source : Text} {kept all kept' all' : List Span} {count count' : Nat}
    (first : Bounded source kept all count) (second : Bounded source kept' all' count') :
    Bounded source (kept ++ kept') (all ++ all') (count + count') where
  lower := by
    rw [breaksAt_append]
    exact Nat.add_le_add first.lower second.lower
  upper := by
    rw [breaksAt_append]
    exact Nat.add_le_add first.upper second.upper

/-- Some of the code comes from spans that are copied at most once. -/
theorem Bounded.append_le {source : Text} {kept all spans : List Span} {count count' : Nat}
    (first : Bounded source kept all count) (more : count' ≤ breaksAt source spans) :
    Bounded source kept (all ++ spans) (count + count') where
  lower := Nat.le_add_right_of_le first.lower
  upper := by
    rw [breaksAt_append]
    exact Nat.add_le_add first.upper more

/-- What is copied once. -/
theorem bounded_single (source : Text) (span : Span) :
    Bounded source [span] [span] (span.slice source).breaks := by
  constructor <;> simp [breaksAt]

section Trees

variable {names : RuntimeNames} (source : Text)

theorem breaks_render_comment (span : Span) :
    (render names source (.comment span)).bare.breaks = (span.slice source).breaks := by
  simp [render, Rendered.bare]

theorem breaks_render_group (delimiter : Delimiter) (body : List Node) :
    (render names source (.group delimiter body)).bare.breaks =
      (renderAll names source body).breaks := by
  cases delimiter <;> simp [render, Rendered.bare, Delimiter.opening, Delimiter.closing]

theorem breaks_render_attributes (tag : Tag Node) (attributes : List (Attribute Node)) :
    (render names source (.selfClosing tag (.attributes attributes))).bare.breaks =
      (renderTag names source tag).breaks +
        (argumentCode names.merge (renderAttributes names source attributes)).breaks := by
  simp [render, Rendered.bare, callCode]

theorem breaks_render_expression (tag : Tag Node) (value : Node) :
    (render names source (.selfClosing tag (.expression value))).bare.breaks =
      (renderTag names source tag).breaks + (render names source value).bare.breaks := by
  simp [render, Rendered.bare, callCode, Rendered.breaks_code]

theorem breaks_render_element (unbroken : names.Unbroken) (tag : Tag Node)
    (attributes : List (Attribute Node)) (children : List Node) :
    (render names source (.element tag attributes children)).bare.breaks =
      (renderTag names source tag).breaks +
        ((attributeList names.merge (renderAttributes names source attributes)).code.breaks +
          ((renderChildren names source children).map Child.breaks).sum) := by
  cases children with
  | nil =>
    simp [render, Rendered.bare, callCode, breaks_elementCode unbroken.merge, renderChildren]
  | cons child children =>
    simp [render, Rendered.bare, callCode, breaks_elementCode unbroken.merge]

theorem breaks_render_fragment (children : List Node) :
    (render names source (.fragment children)).bare.breaks =
      ((renderChildren names source children).map Child.breaks).sum := by
  simp [render, Rendered.bare, childList, breaks_codeAfter]

/-- Whether or not a text is layout, its line breaks are those of its code. -/
theorem breaks_renderChildren_text (span : Span) (children : List Node) :
    (renderChildren names source (.text span :: children)).map Child.breaks =
      (render names source (.text span)).bare.breaks ::
        (renderChildren names source children).map Child.breaks := by
  simp only [renderChildren, List.map_cons]
  split <;> rfl

theorem breaks_normalizeCall (unbroken : names.Unbroken) (code : Text) :
    Child.breaks (.item ("..." ++ names.normalizeChildren ++ "(" ++ code ++ ")")) =
      code.breaks := by
  simp [Child.breaks, unbroken.normalizeChildren]

mutual

theorem bounded_render (unbroken : names.Unbroken) (node : Node) :
    Bounded source node.keptSpans node.spans (render names source node).bare.breaks := by
  cases node with
  | verbatim span => exact bounded_single source span
  | code span => exact bounded_single source span
  | comment span =>
    rw [breaks_render_comment]
    exact bounded_single source span
  | text span =>
    have same : (render names source (.text span)).bare.breaks = (span.slice source).breaks :=
      breaks_textCode unbroken.components _
    rw [same]
    exact bounded_single source span
  | group delimiter body =>
    rw [breaks_render_group]
    exact bounded_renderAll unbroken body
  | interpolation body =>
    have same : (render names source (.interpolation body)).bare.breaks =
        (renderAll names source body).breaks := breaks_textCall unbroken.components _
    rw [same]
    exact bounded_renderAll unbroken body
  | reference tag => exact bounded_renderTag unbroken tag
  | selfClosing tag argument =>
    have opened := bounded_renderTag unbroken tag
    cases argument with
    | attributes attributes =>
      have given := breaks_argumentCode_le unbroken.merge (renderAttributes names source attributes)
      have listed := breaks_renderAttributes_le unbroken attributes
      rw [breaks_render_attributes]
      exact opened.append_le (given.trans listed)
    | expression value =>
      rw [breaks_render_expression]
      exact opened.append_le (bounded_render unbroken value).upper
  | element tag attributes children =>
    have opened := bounded_renderTag unbroken tag
    have given := breaks_attributeList_le unbroken.merge (renderAttributes names source attributes)
    have listed := breaks_renderAttributes_le unbroken attributes
    have inside := bounded_renderChildren unbroken children
    rw [breaks_render_element source unbroken, Node.keptSpans, Node.spans, ← List.append_assoc,
      ← Nat.add_assoc]
    exact (opened.append_le (given.trans listed)).append inside
  | fragment children =>
    rw [breaks_render_fragment]
    exact bounded_renderChildren unbroken children

theorem bounded_renderAll (unbroken : names.Unbroken) (nodes : List Node) :
    Bounded source (keptSpansOf nodes) (spansOf nodes) (renderAll names source nodes).breaks := by
  cases nodes with
  | nil => exact ⟨Nat.le_refl _, Nat.le_refl _⟩
  | cons node nodes =>
    have first := bounded_render unbroken node
    rw [← Rendered.breaks_code] at first
    rw [renderAll, Text.breaks_append]
    exact first.append (bounded_renderAll unbroken nodes)

theorem bounded_renderTag (unbroken : names.Unbroken) (tag : Tag Node) :
    Bounded source (tagKeptSpans tag) (tagSpans tag) (renderTag names source tag).breaks := by
  cases tag with
  | mk leading name trailing =>
    have word := bounded_render unbroken name
    rw [← Rendered.breaks_tagName unbroken.components] at word
    rw [renderTag, Text.breaks_append, Text.breaks_append, Nat.add_assoc]
    exact (bounded_renderAll unbroken leading).append
      (word.append (bounded_renderAll unbroken trailing))

theorem breaks_renderAttributes_le (unbroken : names.Unbroken)
    (attributes : List (Attribute Node)) :
    ((renderAttributes names source attributes).map Attribute.breaks).sum ≤
      breaksAt source (attributesSpans attributes) := by
  cases attributes with
  | nil => exact Nat.le_refl _
  | cons first attributes =>
    cases first with
    | mk name value =>
      have word := (bounded_render unbroken name).upper
      have given := breaks_renderValue_le unbroken value
      have rest := breaks_renderAttributes_le unbroken attributes
      simp only [renderAttributes, attributesSpans, List.map_cons, List.sum_cons, Attribute.breaks,
        breaksAt_append]
      omega

theorem breaks_renderValue_le (unbroken : names.Unbroken) (value : Option Node) :
    ((renderValue names source value).elim 0 fun value => value.bare.breaks) ≤
      breaksAt source (optionSpans value) := by
  cases value with
  | none => exact Nat.le_refl _
  | some value => exact (bounded_render unbroken value).upper

theorem bounded_renderChildren (unbroken : names.Unbroken) (children : List Node) :
    Bounded source (keptSpansOf children) (spansOf children)
      ((renderChildren names source children).map Child.breaks).sum := by
  cases children with
  | nil => exact ⟨Nat.le_refl _, Nat.le_refl _⟩
  | cons child children =>
    have first := bounded_render unbroken child
    have rest := bounded_renderChildren unbroken children
    cases child with
    | fragment nested =>
      rw [renderChildren, List.map_append, List.sum_append]
      exact (bounded_renderChildren unbroken nested).append rest
    | interpolation body =>
      have inside := bounded_renderAll unbroken body
      rw [renderChildren, List.map_cons, List.sum_cons, breaks_normalizeCall unbroken]
      exact inside.append rest
    | text span =>
      rw [breaks_renderChildren_text, List.sum_cons]
      exact first.append rest
    | _ =>
      rw [← Rendered.breaks_code] at first
      exact first.append rest

end

end Trees

end ViewScript
