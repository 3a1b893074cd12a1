/-
  ViewScript/Proofs/Grammar/Printing.lean
  =======================================
  **Parsing undoes printing.**

  A canonical view is a view by itself, without a source: names, strings and texts in
  place of spans.  It is printed in one fixed way, with one space before each
  attribute and no other white space.  The printed text is a program, and its tree is
  the view again.

  At a `<` the four kinds of view are tried in a fixed order, so the kinds before the
  right one have to fail.  Each of them fails somewhere in the opening of the tag or
  right after it; what the children are does not matter for that.
-/
import ViewScript.Proofs.Grammar.Execution
import ViewScript.Proofs.Grammar.Yield

namespace ViewScript.Canonical

open ViewScript.Grammar ViewScript.Parser

/-! ### Canonical views -/

/-- The name of a tag or an attribute. -/
structure Name where
  text : Text
  isRun : IsRun isNameChar text

/-- The inside of a string between two marks `"`. -/
structure Literal where
  text : Text
  plain : ∀ c ∈ text, c ≠ '"' ∧ c ≠ '\\'

/-- Text among the children of a tag. -/
structure Phrase where
  text : Text
  filled : text ≠ []
  plain : ∀ c ∈ text, c ≠ '\x7b' ∧ c ≠ '<' ∧ c ≠ '\\'

/-- An attribute. -/
structure Property where
  name : Name
  value : Option Literal

mutual

/-- A view. -/
inductive View where
  | reference (name : Name)
  | selfClosing (name : Name) (properties : List Property)
  | element (name : Name) (properties : List Property) (children : Content)
  | fragment (children : Content)

/-- What can stand between texts: a view, or a name or a view in braces. -/
inductive Item where
  | view (view : View)
  | interpolatedName (name : Name)
  | interpolatedView (view : View)

/-- The children of a tag.  A text can stand before each item and at the end, so no two
    texts are next to each other. -/
inductive Content where
  | last (text : Option Phrase)
  | item (text : Option Phrase) (item : Item) (rest : Content)

end

/-! ### Printing -/

/-- The text with its two marks. -/
def Literal.quoted (literal : Literal) : Text := '"' :: (literal.text ++ ['"'])

def Property.print (property : Property) : Text :=
  property.name.text ++ match property.value with
    | none => []
    | some literal => '=' :: literal.quoted

/-- Attributes with one space before each. -/
def printProperties : List Property → Text
  | [] => []
  | property :: properties => ' ' :: (property.print ++ printProperties properties)

def printPhrase : Option Phrase → Text
  | none => []
  | some phrase => phrase.text

mutual

def View.print : View → Text
  | .reference name => '<' :: (name.text ++ ['*', '>'])
  | .selfClosing name properties => '<' :: (name.text ++ (printProperties properties ++ ['/', '>']))
  | .element name properties children =>
    '<' :: (name.text ++ (printProperties properties ++ ('>' ::
      (children.print ++ ('<' :: '/' :: (name.text ++ ['>']))))))
  | .fragment children => '<' :: '>' :: (children.print ++ ['<', '/', '>'])

def Item.print : Item → Text
  | .view view => view.print
  | .interpolatedName name => '\x7b' :: (name.text ++ ['\x7d'])
  | .interpolatedView view => '\x7b' :: (view.print ++ ['\x7d'])

def Content.print : Content → Text
  | .last text => printPhrase text
  | .item text item rest => printPhrase text ++ (item.print ++ rest.print)

end

/-! ### Trees of printed views -/

/-- The space before the first attribute. -/
def gap : List Property → Text
  | [] => []
  | _ :: _ => [' ']

/-- What is printed of attributes after the first space. -/
def unspaced : List Property → Text
  | [] => []
  | property :: properties => property.print ++ printProperties properties

theorem printProperties_eq (properties : List Property) :
    printProperties properties = gap properties ++ unspaced properties := by
  cases properties with
  | nil => rfl
  | cons property properties => rfl

/-- A tag up to its attributes. -/
def opened (name : Name) (properties : List Property) : Text :=
  '<' :: (name.text ++ gap properties)

theorem printed_tag (name : Name) (properties : List Property) (tail : Text) :
    '<' :: (name.text ++ (printProperties properties ++ tail)) =
      opened name properties ++ (unspaced properties ++ tail) := by
  simp [opened, printProperties_eq]

def Property.attribute (offset : Nat) (property : Property) : Attribute Node where
  name := .code (.ofText offset property.name.text)
  value := property.value.map fun literal =>
    .verbatim (.ofText (offset + property.name.text.byteSize + 1) literal.quoted)

/-- The attributes, the first of them at the offset. -/
def attributesAt (offset : Nat) : List Property → List (Attribute Node)
  | [] => []
  | property :: properties =>
    property.attribute offset :: attributesAt (offset + property.print.byteSize + 1) properties

/-- The separator that follows the name of a tag. -/
def gapNodes (offset : Nat) : List Property → List Node
  | [] => []
  | _ :: _ => [.verbatim (.ofText offset [' '])]

def tagAt (offset : Nat) (name : Name) (properties : List Property) : Tag Node where
  leading := []
  name := .code (.ofText (offset + 1) name.text)
  trailing := gapNodes (offset + 1 + name.text.byteSize) properties

def phraseNodes (offset : Nat) : Option Phrase → List Node
  | none => []
  | some phrase => [.text (.ofText offset phrase.text)]

mutual

/-- The node of a view that is printed at the offset. -/
def View.node (offset : Nat) : View → Node
  | .reference name => .reference (tagAt offset name [])
  | .selfClosing name properties =>
    .selfClosing (tagAt offset name properties)
      (.attributes (attributesAt (offset + (opened name properties).byteSize) properties))
  | .element name properties children =>
    .element (tagAt offset name properties)
      (attributesAt (offset + (opened name properties).byteSize) properties)
      (children.nodes
        (offset + (opened name properties).byteSize + (unspaced properties).byteSize + 1))
  | .fragment children => .fragment (children.nodes (offset + 2))

def Item.node (offset : Nat) : Item → Node
  | .view view => view.node offset
  | .interpolatedName name => .interpolation [.code (.ofText (offset + 1) name.text)]
  | .interpolatedView view => .interpolation [view.node (offset + 1)]

def Content.nodes (offset : Nat) : Content → List Node
  | .last text => phraseNodes offset text
  | .item text item rest =>
    phraseNodes offset text ++ item.node (offset + (printPhrase text).byteSize) ::
      rest.nodes (offset + (printPhrase text).byteSize + item.print.byteSize)

end

/-! ### Reading tags back -/

theorem Name.exists_cons (name : Name) :
    ∃ c rest, name.text = c :: rest ∧ isNameChar c = true := by
  obtain ⟨text, filled, passes⟩ := name
  cases text with
  | nil => exact absurd rfl filled
  | cons c rest => exact ⟨c, rest, rfl, passes c List.mem_cons_self⟩

/-- A text that goes on with the end of an opening tag. -/
def EndsTag (back : Text) : Prop := ∃ c rest, back = c :: rest ∧ (c = '*' ∨ c = '/' ∨ c = '>')

theorem EndsTag.stops {test : Char → Bool} {back : Text} (ends : EndsTag back)
    (star : test '*' = false) (slash : test '/' = false) (angle : test '>' = false) :
    Stops test back := by
  obtain ⟨c, rest, rfl, rfl | rfl | rfl⟩ := ends
  · exact star
  · exact slash
  · exact angle

/-- A test that the end of a tag and names fail, fails where the attributes start. -/
theorem stops_unspaced {test : Char → Bool} {back : Text} (properties : List Property)
    (names : ∀ c, isNameChar c = true → test c = false) (stops : Stops test back) :
    Stops test (unspaced properties ++ back) := by
  cases properties with
  | nil => exact stops
  | cons property properties =>
    obtain ⟨c, rest, split, passes⟩ := property.name.exists_cons
    rw [unspaced, Property.print, split]
    exact names c passes

theorem stops_gap {test : Char → Bool} {back : Text} (properties : List Property)
    (space : test ' ' = false) (stops : Stops test back) :
    Stops test (gap properties ++ (unspaced properties ++ back)) := by
  cases properties with
  | nil => exact stops
  | cons property properties => exact space

theorem startsSeparator_of_isNameChar (c : Char) (passes : isNameChar c = true) :
    startsSeparator c = false := by
  by_contra starts
  have known : c = ' ' ∨ c = '\t' ∨ c = '\n' ∨ c = '\r' ∨ c = '#' := by
    simpa [startsSeparator, isSeparatorChar, ← or_iff_not_imp_left] using starts
  rcases known with rfl | rfl | rfl | rfl | rfl <;> cases passes

theorem yields_gap {offset : Nat} {back : Text} (properties : List Property)
    (ends : EndsTag back) :
    separator.Yields offset (gap properties) (unspaced properties ++ back)
      (gapNodes offset properties) := by
  have stops := stops_unspaced properties startsSeparator_of_isNameChar (ends.stops rfl rfl rfl)
  cases properties with
  | nil => exact yields_separator_nil stops
  | cons property properties =>
    exact yields_separator ⟨List.cons_ne_nil _ _, by simp [gap, isSeparatorChar]⟩ stops

section Tags

variable {offset : Nat} {back : Text} (nested : Nested)

theorem yields_value_name (name : Name) (stops : Stops isNameChar back) :
    (Rules.value nested).Yields offset name.text back (.code (.ofText offset name.text)) :=
  (yields_name name.isRun stops).firstOf

theorem yields_value_literal (literal : Literal) :
    (Rules.value nested).Yields offset literal.quoted back
      (.verbatim (.ofText offset literal.quoted)) := by
  have noName : name.Declines ⟨offset, .chars (literal.quoted ++ back)⟩ :=
    startsIn_name.declines rfl
  exact noName.firstOf (yields_quoted (by decide) literal.plain).firstOf

theorem yields_opening (name : Name) (properties : List Property) (ends : EndsTag back) :
    (Rules.opening nested).Yields offset (opened name properties) (unspaced properties ++ back)
      (tagAt offset name properties) := by
  refine Yields.bind (yields_char '<') (Yields.nil_bind (yields_separator_nil ?_) (Yields.bind
    (yields_value_name nested name ?_) (Yields.bind_pure (yields_gap properties ends) rfl)))
  · obtain ⟨c, more, split, passes⟩ := name.exists_cons
    rw [split]
    exact startsSeparator_of_isNameChar c passes
  · exact stops_gap properties rfl (ends.stops rfl rfl rfl)

/-- Where no name can follow, a tag does not open. -/
theorem fails_opening {c : Char} {rest : Text} (ends : c = '/' ∨ c = '>') :
    (Rules.opening nested).Fails ⟨offset, .chars ('<' :: c :: rest)⟩ := by
  have stops : startsSeparator c = false ∧ startsValue c = false := by
    rcases ends with rfl | rfl <;> exact ⟨rfl, rfl⟩
  have noValue : (Rules.value nested).Declines ⟨offset + 1, .chars (c :: rest)⟩ :=
    (startsIn_value nested).declines stops.2
  have noLeading : separator.Yields (offset + 1) [] (c :: rest) [] := yields_separator_nil stops.1
  exact (yields_char '<').fails_bind (noLeading.fails_bind noValue.fails.bind)

theorem yields_entry (property : Property) (properties : List Property) (ends : EndsTag back) :
    (Rules.entry nested).Yields offset (property.print ++ gap properties)
      (unspaced properties ++ back) (property.attribute offset) := by
  have separated : ∀ {offset}, separator.Yields offset (gap properties)
      (unspaced properties ++ back) (gapNodes offset properties) := yields_gap properties ends
  obtain ⟨name, value⟩ := property
  rw [Property.print, List.append_assoc]
  cases value with
  | none =>
    refine Yields.bind (yields_value_name nested name ?_) (Yields.bind (Declines.optional ?_)
      (Yields.bind_pure separated rfl))
    · exact stops_gap properties rfl (ends.stops rfl rfl rfl)
    · exact (startsIn_char '=').bind _ (stops_gap properties rfl (ends.stops rfl rfl rfl))
  | some literal =>
    have assigned : ∀ {offset back}, (do let _ ← char '='; Rules.value nested).Yields offset
        ('=' :: literal.quoted) back (.verbatim (.ofText (offset + 1) literal.quoted)) :=
      Yields.bind (yields_char '=') (yields_value_literal nested literal)
    exact Yields.bind (yields_value_name nested name rfl) (Yields.bind assigned.optional
      (Yields.bind_pure separated rfl))

theorem yields_attributes (sound : nested.IsSound) (properties : List Property)
    (ends : EndsTag back) : (Rules.attributes nested).Yields offset (unspaced properties) back
      (attributesAt offset properties) := by
  induction properties generalizing offset with
  | nil => exact Declines.many ((startsIn_value nested).bind _ (ends.stops rfl rfl rfl))
  | cons property properties ih =>
    have next : attributesAt (offset + (property.print ++ gap properties).byteSize) properties =
        attributesAt (offset + property.print.byteSize + 1) properties := by
      cases properties with
      | nil => rfl
      | cons => rw [Text.byteSize_append, ← Nat.add_assoc]; rfl
    have filled : property.print ++ gap properties ≠ [] := by
      obtain ⟨c, rest, split, -⟩ := property.name.exists_cons
      simp [Property.print, split]
    have others : (Rules.attributes nested).Yields
        (offset + (property.print ++ gap properties).byteSize) (unspaced properties) back
        (attributesAt (offset + property.print.byteSize + 1) properties) := next ▸ ih
    rw [unspaced, printProperties_eq, ← List.append_assoc]
    exact (yields_entry nested property properties ends).many (meets_entry sound) filled others

theorem fails_reference (name : Name) (properties : List Property) {c : Char} {rest : Text}
    (ends : c = '/' ∨ c = '>') : (Rules.reference nested).Fails
      ⟨offset, .chars ('<' :: (name.text ++ (printProperties properties ++ c :: rest)))⟩ := by
  rw [printed_tag]
  have opening := @yields_opening offset (c :: rest) nested name properties
    ⟨c, rest, rfl, .inr ends⟩
  have noStar : Stops (· == '*') (unspaced properties ++ c :: rest) := by
    refine stops_unspaced properties (fun d passes => ?_) ?_
    · rw [beq_eq_false_iff_ne]
      rintro rfl
      cases passes
    · rcases ends with rfl | rfl <;> rfl
  exact opening.fails_bind (Fails.bind (Declines.fails (startsIn_word '*' ['>'] _ noStar)))

theorem yields_argument (sound : nested.IsSound) (properties : List Property)
    (ends : EndsTag back) : (Rules.argument nested).Yields offset (unspaced properties) back
      (.attributes (attributesAt offset properties)) :=
  ((yields_attributes nested sound properties ends).map Argument.attributes).attempt.orElse

theorem fails_selfClosing (sound : nested.IsSound) (name : Name) (properties : List Property)
    {rest : Text} : (Rules.selfClosing nested).Fails
      ⟨offset, .chars ('<' :: (name.text ++ (printProperties properties ++ '>' :: rest)))⟩ := by
  have ends : EndsTag ('>' :: rest) := ⟨'>', rest, rfl, .inr (.inr rfl)⟩
  rw [printed_tag]
  refine (yields_opening nested name properties ends).fails_bind
    ((yields_argument nested sound properties ends).fails_bind ?_)
  exact ((startsIn_word '/' ['>']).declines rfl).fails.bind

/-- Before a closing tag there are no more children. -/
theorem declines_child : (Rules.child nested).Declines ⟨offset, .chars ('<' :: '/' :: back)⟩ := by
  have opening := @fails_opening offset nested '/' back (.inl rfl)
  refine declines_firstOf fun parser member => ?_
  simp only [Rules.views, List.cons_append, List.nil_append, List.mem_cons, List.not_mem_nil,
    or_false] at member
  rcases member with rfl | rfl | rfl | rfl | rfl | rfl
  · exact opening.bind.attempt
  · exact opening.bind.attempt
  · exact opening.bind.attempt
  · exact Fails.attempt (Fails.bind ⟨_, rfl⟩)
  · exact startsIn_text.declines rfl
  · exact (startsIn_char '\x7b').bind.declines rfl

end Tags

/-! ### Reading views back -/

section Views

variable {offset : Nat} {back : Text}

theorem yields_term_name (name : Name) (stops : Stops isNameChar back) :
    (Rules.term .closed).Yields offset name.text back (.code (.ofText offset name.text)) :=
  yields_term_run .closed name.isRun stops

theorem yields_term_view {text : Text} {node : Node}
    (view : (firstOf (Rules.views .closed ++ leftovers)).Yields offset ('<' :: text) back node) :
    (Rules.term .closed).Yields offset ('<' :: text) back node := by
  have noMark : ∀ parser ∈ marks, parser.Declines ⟨offset, .chars ('<' :: text ++ back)⟩ :=
    fun parser member => (startsIn_marks parser member).declines rfl
  have noValue : (Rules.value .closed).Declines ⟨offset, .chars ('<' :: text ++ back)⟩ :=
    (startsIn_value .closed).declines rfl
  rw [term_eq]
  exact yields_firstOf_append noMark (noValue.firstOf view)

theorem yields_phrase (phrase : Phrase) (stops : Stops startsText back) :
    (Rules.child .closed).Yields offset phrase.text back (.text (.ofText offset phrase.text)) := by
  have noView : Stops (· == '<') (phrase.text ++ back) := by
    obtain ⟨text, filled, plain⟩ := phrase
    cases text with
    | nil => exact absurd rfl filled
    | cons c rest => exact beq_eq_false_iff_ne.mpr (plain c List.mem_cons_self).2.1
  exact yields_firstOf_append (fun parser member => startsIn_views _ parser member _ noView)
    (yields_text phrase.filled phrase.plain stops).firstOf

theorem yields_interpolation {text : Text} {node : Node}
    (inside : (Rules.term .closed).Yields (offset + 1) text ('\x7d' :: back) node)
    (filled : text ≠ []) :
    (Rules.child .closed).Yields offset ('\x7b' :: (text ++ ['\x7d'])) back
      (.interpolation [node]) := by
  have body : Nested.closed.expression.Yields (offset + 1) text ('\x7d' :: back) [node] :=
    yields_expression inside filled rfl
  have braces : (Rules.interpolation .closed).Yields offset ('\x7b' :: (text ++ ['\x7d'])) back
      (.interpolation [node]) :=
    Yields.bind (yields_char '\x7b') (Yields.bind body (Yields.bind_pure (yields_char '\x7d') rfl))
  have noText : Grammar.text.Declines ⟨offset, .chars ('\x7b' :: (text ++ ['\x7d']) ++ back)⟩ :=
    startsIn_text.declines rfl
  exact yields_firstOf_append
    (fun parser member => (startsIn_views _ parser member).declines rfl)
    (noText.firstOf braces.firstOf)

theorem yields_reference (name : Name) (others : List (Parser Node)) :
    (firstOf (Rules.views .closed ++ others)).Yields offset (View.reference name).print back
      ((View.reference name).node offset) := by
  have ends : EndsTag (['*', '>'] ++ back) := ⟨'*', _, rfl, .inl rfl⟩
  have printed : (View.reference name).print = opened name [] ++ ['*', '>'] := by
    simp [View.print, opened, gap]
  have reading : (Rules.reference .closed).Yields offset (opened name [] ++ ['*', '>']) back
      (.reference (tagAt offset name [])) :=
    Yields.bind (yields_opening .closed name [] ends) (Yields.bind_pure (yields_word _) rfl)
  rw [printed]
  exact reading.attempt.firstOf

theorem yields_selfClosing (name : Name) (properties : List Property)
    (others : List (Parser Node)) :
    (firstOf (Rules.views .closed ++ others)).Yields offset
      (View.selfClosing name properties).print back
      ((View.selfClosing name properties).node offset) := by
  have ends : EndsTag (['/', '>'] ++ back) := ⟨'/', _, rfl, .inr (.inl rfl)⟩
  have notReference : (Rules.reference .closed).Fails
      ⟨offset, .chars ((View.selfClosing name properties).print ++ back)⟩ := by
    simpa [View.print] using fails_reference .closed name properties (.inl rfl)
  have opening : (Rules.opening .closed).Yields offset (opened name properties)
      (unspaced properties ++ ['/', '>'] ++ back) (tagAt offset name properties) := by
    rw [List.append_assoc]
    exact yields_opening .closed name properties ends
  have reading : (Rules.selfClosing .closed).Yields offset
      (opened name properties ++ (unspaced properties ++ ['/', '>'])) back
      ((View.selfClosing name properties).node offset) :=
    Yields.bind opening (Yields.bind (yields_argument .closed isSound_closed properties ends)
      (Yields.bind_pure (yields_word _) rfl))
  rw [← printed_tag] at reading
  exact notReference.attempt.firstOf reading.attempt.firstOf

/-- The name in a closing tag is skipped. -/
theorem exists_yields_closing (name : Name) :
    ∃ skipped, (many (exclude [['>']])).Yields offset name.text ('>' :: back) skipped := by
  have each : ∀ c ∈ name.text, ∀ offset rest, ∃ value,
      (exclude (['>'].map ([·]))).Yields offset [c] rest value := by
    intro c member offset rest
    have free : c ∉ ['>'] := by
      rw [List.mem_singleton]
      rintro rfl
      cases name.isRun.2 '>' member
    exact ⟨_, yields_exclude free⟩
  have stops : Stops (fun c => !([['>']].contains [c])) ('>' :: back) := rfl
  exact exists_yields_many (meets_exclude _) (startsIn_exclude _) each stops offset

variable {children : Content}
  (inside : ∀ offset back, Nested.closed.children.Yields offset children.print
    ('<' :: '/' :: back) (children.nodes offset))

include inside

theorem yields_element (name : Name) (properties : List Property) (others : List (Parser Node)) :
    (firstOf (Rules.views .closed ++ others)).Yields offset
      (View.element name properties children).print back
      ((View.element name properties children).node offset) := by
  have notReference : (Rules.reference .closed).Fails
      ⟨offset, .chars ((View.element name properties children).print ++ back)⟩ := by
    simpa [View.print] using fails_reference .closed name properties (.inr rfl)
  have notSelfClosing : (Rules.selfClosing .closed).Fails
      ⟨offset, .chars ((View.element name properties children).print ++ back)⟩ := by
    simpa [View.print] using fails_selfClosing .closed isSound_closed name properties
  let tail : Text := '>' :: (children.print ++ ('<' :: '/' :: (name.text ++ ['>'])))
  have ends : EndsTag (tail ++ back) := ⟨'>', _, rfl, .inr (.inr rfl)⟩
  have opening : (Rules.opening .closed).Yields offset (opened name properties)
      (unspaced properties ++ tail ++ back) (tagAt offset name properties) := by
    rw [List.append_assoc]
    exact yields_opening .closed name properties ends
  obtain ⟨skipped, closing⟩ := @exists_yields_closing (offset + (opened name properties).byteSize +
    (unspaced properties).byteSize + 1 + children.print.byteSize + 2) back name
  have reading : (Rules.element .closed).Yields offset
      (opened name properties ++ (unspaced properties ++ tail)) back
      ((View.element name properties children).node offset) :=
    Yields.bind opening (Yields.bind (yields_attributes .closed isSound_closed properties ends)
      (Yields.bind (yields_char '>') (Yields.bind (inside _ _) (Yields.bind (yields_word ['<', '/'])
        (Yields.bind closing (Yields.bind_pure (yields_char '>') rfl))))))
  rw [← printed_tag] at reading
  exact notReference.attempt.firstOf (notSelfClosing.attempt.firstOf reading.attempt.firstOf)

theorem yields_fragment (others : List (Parser Node)) :
    (firstOf (Rules.views .closed ++ others)).Yields offset (View.fragment children).print back
      ((View.fragment children).node offset) := by
  have noTag : (Rules.opening .closed).Fails
      ⟨offset, .chars ((View.fragment children).print ++ back)⟩ :=
    fails_opening .closed (.inr rfl)
  have reading : (Rules.fragment .closed).Yields offset (View.fragment children).print back
      ((View.fragment children).node offset) :=
    Yields.bind (yields_word ['<', '>']) (Yields.bind (inside _ _)
      (Yields.bind_pure (yields_word ['<', '/', '>']) rfl))
  exact noTag.bind.attempt.firstOf (noTag.bind.attempt.firstOf (noTag.bind.attempt.firstOf
    reading.attempt.firstOf))

end Views

theorem View.exists_cons (view : View) : ∃ rest, view.print = '<' :: rest := by
  cases view with
  | reference _ | selfClosing _ _ | element _ _ _ | fragment _ => exact ⟨_, rfl⟩

theorem Item.exists_cons (item : Item) :
    ∃ c rest, item.print = c :: rest ∧ startsText c = false := by
  cases item with
  | view view =>
    obtain ⟨rest, split⟩ := view.exists_cons
    exact ⟨'<', rest, split, rfl⟩
  | interpolatedName name => exact ⟨_, _, rfl, rfl⟩
  | interpolatedView view => exact ⟨_, _, rfl, rfl⟩

/-- A text, if there is one, goes before more children. -/
theorem yields_children {offset : Nat} {more back : Text} {nodes : List Node}
    (text : Option Phrase) (stops : Stops startsText (more ++ back))
    (others : (Rules.children .closed).Yields (offset + (printPhrase text).byteSize) more back
      nodes) :
    (Rules.children .closed).Yields offset (printPhrase text ++ more) back
      (phraseNodes offset text ++ nodes) := by
  cases text with
  | none => exact others
  | some phrase =>
    exact (yields_phrase phrase stops).many (meets_child isSound_closed) phrase.filled others

mutual

theorem View.yields (view : View) (offset : Nat) (back : Text) (others : List (Parser Node)) :
    (firstOf (Rules.views .closed ++ others)).Yields offset view.print back
      (view.node offset) := by
  match view with
  | .reference name => exact yields_reference name others
  | .selfClosing name properties => exact yields_selfClosing name properties others
  | .element name properties children =>
    exact yields_element children.yields name properties others
  | .fragment children => exact yields_fragment children.yields others

theorem Item.yields (item : Item) (offset : Nat) (back : Text) :
    (Rules.child .closed).Yields offset item.print back (item.node offset) := by
  match item with
  | .view view => exact view.yields offset back _
  | .interpolatedName name =>
    have inside := @yields_term_name (offset + 1) ('\x7d' :: back) name rfl
    exact yields_interpolation inside name.isRun.1
  | .interpolatedView view =>
    have inside := view.yields (offset + 1) ('\x7d' :: back) leftovers
    obtain ⟨rest, split⟩ := view.exists_cons
    rw [Item.print, Item.node]
    rw [split] at inside ⊢
    exact yields_interpolation (yields_term_view inside) (List.cons_ne_nil _ _)

theorem Content.yields (content : Content) (offset : Nat) (back : Text) :
    Nested.closed.children.Yields offset content.print ('<' :: '/' :: back)
      (content.nodes offset) := by
  have closed : Nested.closed.children = Rules.children .closed := children_eq
  rw [closed]
  match content with
  | .last text =>
    have none : (Rules.children .closed).Yields (offset + (printPhrase text).byteSize) []
        ('<' :: '/' :: back) [] := Declines.many (declines_child .closed)
    have stops : Stops startsText ('<' :: '/' :: back) := rfl
    have all := yields_children text stops none
    rwa [List.append_nil, List.append_nil] at all
  | .item text item rest =>
    obtain ⟨c, more, split, stops⟩ := item.exists_cons
    have first := item.yields (offset + (printPhrase text).byteSize)
      (rest.print ++ ('<' :: '/' :: back))
    have others := rest.yields
      (offset + (printPhrase text).byteSize + item.print.byteSize) back
    rw [closed] at others
    refine yields_children text ?_ (first.many (meets_child isSound_closed) ?_ others)
    · rw [split]
      exact stops
    · rw [split]
      exact List.cons_ne_nil _ _

end

theorem parse_print_eq (view : View) : parse view.print = .ok [view.node 0] := by
  have reading := view.yields 0 [] leftovers
  obtain ⟨rest, split⟩ := view.exists_cons
  rw [split] at reading
  have whole : Grammar.expression.Yields 0 ('<' :: rest) [] [view.node 0] :=
    yields_expression (yields_term_view reading) (List.cons_ne_nil _ _) trivial
  have ended : program.Yields 0 ('<' :: rest) [] [view.node 0] :=
    bind_eq_ok_iff.mpr ⟨_, _, whole, rfl⟩
  rw [Yields, List.append_nil] at ended
  rw [parse_eq_ok_iff, split]
  exact ⟨_, ended⟩

/-! ### The printed view is the one in the tree -/

section Shown

variable (source : Text)

/-- The node is a name with the given text. -/
def Name.ShownBy (name : Name) : Node → Prop
  | .code span => span.slice? source = some name.text
  | _ => False

def Literal.ShownBy (literal : Literal) : Node → Prop
  | .verbatim span => span.slice? source = some literal.quoted
  | _ => False

def Phrase.ShownBy (phrase : Phrase) : Node → Prop
  | .text span => span.slice? source = some phrase.text
  | _ => False

def Property.ShownBy : Property → Attribute Node → Prop
  | ⟨name, none⟩, ⟨node, none⟩ => name.ShownBy source node
  | ⟨name, some literal⟩, ⟨node, some value⟩ =>
    name.ShownBy source node ∧ literal.ShownBy source value
  | _, _ => False

/-- The separators around the name of a tag are the printed ones: none but the space
    before the first attribute. -/
def TagShownBy (name : Name) (properties : List Property) : Tag Node → Prop
  | ⟨[], node, []⟩ => properties = [] ∧ name.ShownBy source node
  | ⟨[], node, [.verbatim span]⟩ =>
    properties ≠ [] ∧ name.ShownBy source node ∧ span.slice? source = some [' ']
  | _ => False

mutual

/-- The node has the shape of the view, and its spans have the texts of the view. -/
def View.ShownBy : View → Node → Prop
  | .reference name, .reference tag => TagShownBy source name [] tag
  | .selfClosing name properties, .selfClosing tag (.attributes attributes) =>
    TagShownBy source name properties tag ∧
      List.Forall₂ (Property.ShownBy source) properties attributes
  | .element name properties children, .element tag attributes nodes =>
    TagShownBy source name properties tag ∧
      List.Forall₂ (Property.ShownBy source) properties attributes ∧ children.ShownBy nodes
  | .fragment children, .fragment nodes => children.ShownBy nodes
  | _, _ => False

def Item.ShownBy : Item → Node → Prop
  | .view view, node => view.ShownBy node
  | .interpolatedName name, .interpolation [node] => name.ShownBy source node
  | .interpolatedView view, .interpolation [node] => view.ShownBy node
  | _, _ => False

def Content.ShownBy : Content → List Node → Prop
  | .last none, nodes => nodes = []
  | .last (some phrase), [node] => phrase.ShownBy source node
  | .item none item rest, node :: nodes => item.ShownBy node ∧ rest.ShownBy nodes
  | .item (some phrase) item rest, text :: node :: nodes =>
    phrase.ShownBy source text ∧ item.ShownBy node ∧ rest.ShownBy nodes
  | _, _ => False

end

variable {source} {offset : Nat}

theorem tag_shownBy (name : Name) (properties : List Property)
    (stands : source.StandsAt offset (opened name properties)) :
    TagShownBy source name properties (tagAt offset name properties) := by
  have named := stands.tail.left.slice?_eq
  have separated := stands.tail.right
  cases properties with
  | nil => exact ⟨rfl, named⟩
  | cons property properties => exact ⟨List.cons_ne_nil _ _, named, separated.slice?_eq⟩

theorem property_shownBy (property : Property) (stands : source.StandsAt offset property.print) :
    property.ShownBy source (property.attribute offset) := by
  obtain ⟨name, value⟩ := property
  cases value with
  | none => exact stands.left.slice?_eq
  | some literal => exact ⟨stands.left.slice?_eq, stands.right.tail.slice?_eq⟩

theorem properties_shownBy (properties : List Property)
    (stands : source.StandsAt offset (unspaced properties)) :
    List.Forall₂ (Property.ShownBy source) properties (attributesAt offset properties) := by
  induction properties generalizing offset with
  | nil => exact .nil
  | cons property properties ih =>
    refine .cons (property_shownBy property stands.left) ?_
    cases properties with
    | nil => exact .nil
    | cons => exact ih stands.right.tail

mutual

theorem View.shownBy (view : View) {offset : Nat} (stands : source.StandsAt offset view.print) :
    view.ShownBy source (view.node offset) := by
  match view with
  | .reference name => exact ⟨rfl, stands.tail.left.slice?_eq⟩
  | .selfClosing name properties =>
    rw [View.print, printed_tag] at stands
    exact ⟨tag_shownBy name properties stands.left, properties_shownBy properties stands.right.left⟩
  | .element name properties children =>
    rw [View.print, printed_tag] at stands
    exact ⟨tag_shownBy name properties stands.left,
      properties_shownBy properties stands.right.left,
      children.shownBy stands.right.right.tail.left⟩
  | .fragment children => exact children.shownBy stands.tail.tail.left

theorem Item.shownBy (item : Item) {offset : Nat} (stands : source.StandsAt offset item.print) :
    item.ShownBy source (item.node offset) := by
  match item with
  | .view view => exact view.shownBy stands
  | .interpolatedName name => exact stands.tail.left.slice?_eq
  | .interpolatedView view => exact view.shownBy stands.tail.left

theorem Content.shownBy (content : Content) {offset : Nat}
    (stands : source.StandsAt offset content.print) :
    content.ShownBy source (content.nodes offset) := by
  match content with
  | .last none => rfl
  | .last (some phrase) => exact stands.slice?_eq
  | .item none item rest => exact ⟨item.shownBy stands.right.left, rest.shownBy stands.right.right⟩
  | .item (some phrase) item rest =>
    exact ⟨stands.left.slice?_eq, item.shownBy stands.right.left, rest.shownBy stands.right.right⟩

end

end Shown

/-- **Parsing undoes printing.**  A printed view is a program with one node, which has the
    shape of the view, and whose spans are the printed names, values and texts. -/
theorem parse_print (view : View) :
    ∃ node, parse view.print = .ok [node] ∧ view.ShownBy view.print node :=
  ⟨view.node 0, parse_print_eq view, view.shownBy (Text.StandsAt.whole view.print)⟩

end ViewScript.Canonical
