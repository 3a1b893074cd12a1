/-
  ViewScript/Proofs/Code/Renaming.lean
  ====================================
  **The names of the runtime library only rename.**

  The generator looks at code that it has made before: at the name of a tag, to find it
  among the elements of HTML, and at the name of an attribute, to find its usual
  spelling, the dots of a spread or the bracket of an expression.  Such code may contain
  names of the library, because a view can stand in braces there.  So it is not plain
  that other names lead to the same choices.  They do, unless the components have no
  name at all or one that starts with a dot, for these reasons:

  * a name of the library is followed by a dot or a parenthesis sooner or later, and no
    text with such a character is an element of HTML, an alias, or blank;
  * behind dots at the start of some code the first name of the library can only be that
    of the components, so it adds no dot;
  * the name of an attribute is a value, so its first character stands in the source.

  Hence the outline of a program is the same for all proper names, and so is each choice
  that is made on the way to it.
-/
import ViewScript.Proofs.Code.Closure

namespace ViewScript

/-- The components have a name, which does not start with a dot. -/
def RuntimeNames.IsProper (names : RuntimeNames) : Prop :=
  names.components ≠ [] ∧ names.components.head? ≠ some '.'

namespace Outline

variable {names names' : RuntimeNames} {source : Text}

/-! ### Tests that code with a name of the library never passes -/

def isRuntime : Piece → Bool
  | .runtime _ => true
  | _ => false

theorem text_of_not_runtime {piece : Piece} (plain : isRuntime piece = false) :
    piece.text names source = piece.text names' source := by
  cases piece with
  | runtime name => cases plain
  | _ => rfl

/-- A dot or an opening parenthesis was written somewhere. -/
def Marked (outline : Outline) : Prop :=
  ∃ chars, .written chars ∈ outline ∧ chars.any isCallMark = true

/-- Each name of the library is followed by a dot or a parenthesis, sooner or later. -/
def Anchored : Outline → Prop
  | [] => True
  | piece :: pieces => (isRuntime piece = true → Marked pieces) ∧ Anchored pieces

theorem Marked.append_right {front : Outline} (marked : Marked front) (back : Outline) :
    Marked (front ++ back) := by
  obtain ⟨chars, member, mark⟩ := marked
  exact ⟨chars, List.mem_append_left back member, mark⟩

theorem anchored_cons {piece : Piece} {pieces : Outline} (plain : isRuntime piece = false)
    (rest : Anchored pieces) : Anchored (piece :: pieces) := by
  refine ⟨fun runtime => ?_, rest⟩
  rw [plain] at runtime
  cases runtime

theorem anchored_append {front back : Outline} (first : Anchored front) (rest : Anchored back) :
    Anchored (front ++ back) := by
  induction front with
  | nil => exact rest
  | cons piece front ih => exact ⟨fun runtime => (first.1 runtime).append_right back, ih first.2⟩

theorem anchored_dropChars (count : Nat) {outline : Outline} (anchored : Anchored outline) :
    Anchored (dropChars names source count outline) := by
  induction outline generalizing count with
  | nil => cases count <;> exact anchored
  | cons piece pieces ih =>
    cases count with
    | zero => exact anchored
    | succ count =>
      simp only [dropChars]
      split
      · exact ih _ anchored.2
      · exact anchored_cons rfl anchored.2

theorem any_of_head {chars : Text} (mark : chars.head?.any isCallMark = true) :
    chars.any isCallMark = true := by
  cases chars with
  | nil => cases mark
  | cons c chars =>
    have first : isCallMark c = true := mark
    simp [first]

theorem closed_anchored : Closed names source Anchored where
  nil := trivial
  append := anchored_append
  written _ := anchored_cons rfl trivial
  code _ := anchored_cons rfl trivial
  comment _ := anchored_cons rfl trivial
  called _ chars mark := by
    refine ⟨fun _ => ?_, anchored_cons rfl trivial⟩
    exact ⟨chars, List.mem_singleton_self _, any_of_head mark⟩
  drop := anchored_dropChars

/-- All trees give anchored code. -/
theorem keeps_anchored (part : Part) : Keeps names source Anchored part := by
  have copied : ∀ span, Anchored [.verbatim span] := fun _ => anchored_cons rfl trivial
  cases part with
  | single node => exact fun span _ => copied span
  | children nodes => exact fun span _ => copied span
  | row nodes =>
    intro each
    induction nodes with
    | nil => trivial
    | cons node nodes ih =>
      obtain ⟨first, rest⟩ := List.forall_mem_cons.mp each
      refine anchored_append ?_ (ih rest)
      cases node with
      | verbatim span => exact copied span
      | _ => exact first (by simp)

theorem anchored_render (node : Node) : (render names source node).All Anchored :=
  closed_anchored.render node (keeps_anchored _) fun part _ => keeps_anchored part

theorem any_of_marked {outline : Outline} (marked : Marked outline) :
    (text names source outline).any isCallMark = true := by
  obtain ⟨chars, member, mark⟩ := marked
  obtain ⟨front, back, rfl⟩ := List.append_of_mem member
  simp only [text_append, text_cons, text_written, List.any_append, mark, Bool.true_or,
    Bool.or_true]

/-- The names make no difference to an anchored outline, or they stand in front of a
    mark and the text has the mark for all names. -/
theorem text_eq_or_marked {outline : Outline} (anchored : Anchored outline) :
    text names source outline = text names' source outline ∨ Marked outline := by
  induction outline with
  | nil => exact .inl rfl
  | cons piece pieces ih =>
    have extend : Marked pieces → Marked (piece :: pieces) := fun ⟨chars, member, mark⟩ =>
      ⟨chars, List.mem_cons_of_mem piece member, mark⟩
    cases runtime : isRuntime piece with
    | true => exact .inr (extend (anchored.1 runtime))
    | false =>
      rcases ih anchored.2 with same | marked
      · left
        rw [text_cons, text_cons, same, text_of_not_runtime runtime]
      · exact .inr (extend marked)

/-- A test with one answer for all texts with a mark does not depend on the names. -/
theorem test_alike {α : Type} {test : Text → α} {answer : α}
    (fixed : ∀ chars : Text, chars.any isCallMark = true → test chars = answer)
    {outline : Outline} (anchored : Anchored outline) :
    test (text names source outline) = test (text names' source outline) := by
  rcases text_eq_or_marked anchored with same | marked
  · rw [same]
  · rw [fixed _ (any_of_marked marked), fixed _ (any_of_marked marked)]

theorem isBuiltin_of_mark (name : Text) (mark : name.any isCallMark = true) :
    isBuiltin name = false := by
  have unmarked : ∀ name ∈ builtinNames, name.any isCallMark = false := by decide +kernel
  rw [isBuiltin, ← Bool.not_eq_true, List.contains_iff_mem]
  intro member
  rw [unmarked name member] at mark
  cases mark

theorem lookup_of_mark (name : Text) (mark : name.any isCallMark = true) :
    attributeAliases.lookup name = none := by
  have unmarked : ∀ pair ∈ attributeAliases, pair.1.any isCallMark = false := by decide +kernel
  refine List.lookup_eq_none_iff.mpr fun pair member => ?_
  rw [bne_iff_ne]
  rintro rfl
  rw [unmarked pair member] at mark
  cases mark

theorem isBlank_of_mark (chars : Text) (mark : chars.any isCallMark = true) :
    chars.isBlank = false := by
  obtain ⟨c, member, mark⟩ := List.any_eq_true.mp mark
  refine List.all_eq_false.mpr ⟨c, member, ?_⟩
  rcases Bool.or_eq_true_iff.mp mark with same | same
  · rw [beq_iff_eq.mp same]
    decide
  · rw [beq_iff_eq.mp same]
    decide

theorem isEmpty_of_mark (chars : Text) (mark : chars.any isCallMark = true) :
    chars.isEmpty = false := by
  cases chars with
  | nil => cases mark
  | cons c chars => rfl

/-! ### Dots at the start -/

/-- Behind the dots at the start comes something that is no dot, or the name of the
    components. -/
def DotsEnd (names : RuntimeNames) (source : Text) : Outline → Prop
  | [] => True
  | .runtime name :: _ => name = .components
  | piece :: pieces => (∀ c ∈ piece.text names source, c = '.') → DotsEnd names source pieces

theorem dotsEnd_cons {piece : Piece} {pieces : Outline} (plain : isRuntime piece = false)
    (rest : (∀ c ∈ piece.text names source, c = '.') → DotsEnd names source pieces) :
    DotsEnd names source (piece :: pieces) := by
  cases piece with
  | runtime name => cases plain
  | _ => exact rest

theorem DotsEnd.rest {piece : Piece} {pieces : Outline}
    (ends : DotsEnd names source (piece :: pieces)) (plain : isRuntime piece = false) :
    (∀ c ∈ piece.text names source, c = '.') → DotsEnd names source pieces := by
  cases piece with
  | runtime name => cases plain
  | _ => exact ends

theorem dotsEnd_singleton {piece : Piece} (plain : isRuntime piece = false) :
    DotsEnd names source [piece] :=
  dotsEnd_cons plain fun _ => trivial

theorem dotsEnd_append {front back : Outline} (first : DotsEnd names source front)
    (rest : DotsEnd names source back) : DotsEnd names source (front ++ back) := by
  induction front with
  | nil => exact rest
  | cons piece front ih =>
    cases runtime : isRuntime piece with
    | false => exact dotsEnd_cons runtime fun dots => ih (first.rest runtime dots)
    | true =>
      cases piece with
      | runtime name => exact first
      | _ => cases runtime

/-- A character that is no dot ends the dots. -/
theorem dotsEnd_written {c : Char} {chars : Text} {outline : Outline} (member : c ∈ chars)
    (other : c ≠ '.') : DotsEnd names source (.written chars :: outline) :=
  fun dots => (other (dots c member)).elim

theorem dotsEnd_tagName {rendered : Rendered} (ends : rendered.All (DotsEnd names source)) :
    DotsEnd names source (rendered.tagName names source) := by
  cases rendered with
  | braced inside objectLike => exact dotsEnd_written (List.mem_singleton_self '(') (by decide)
  | plain code =>
    simp only [Rendered.tagName]
    split
    · rfl
    · exact ends

theorem dotsEnd_code {rendered : Rendered} (ends : rendered.All (DotsEnd names source)) :
    DotsEnd names source rendered.code := by
  cases rendered with
  | plain code => exact ends
  | braced inside objectLike => exact dotsEnd_written (List.mem_singleton_self '\x7b') (by decide)

theorem dotsEnd_callCode {component argument : Outline} (ends : DotsEnd names source component) :
    DotsEnd names source (callCode component argument) :=
  dotsEnd_append ends (dotsEnd_written (List.mem_singleton_self '(') (by decide))

mutual

theorem dotsEnd_render (node : Node) :
    (render names source node).All (DotsEnd names source) := by
  cases node with
  | verbatim span => exact dotsEnd_singleton rfl
  | code span => exact dotsEnd_singleton rfl
  | comment span => exact dotsEnd_singleton rfl
  | text span =>
    simp only [render, Rendered.All, textCode]
    split
    · exact dotsEnd_singleton rfl
    · exact rfl
  | group delimiter body =>
    cases delimiter with
    | brace => exact dotsEnd_renderAll body
    | paren => exact dotsEnd_written (List.mem_singleton_self '(') (by decide)
    | bracket => exact dotsEnd_written (List.mem_singleton_self '[') (by decide)
  | interpolation body => exact rfl
  | reference tag => exact dotsEnd_renderTag tag
  | selfClosing tag argument =>
    cases argument with
    | attributes attributes => exact dotsEnd_callCode (dotsEnd_renderTag tag)
    | expression value => exact dotsEnd_callCode (dotsEnd_renderTag tag)
  | element tag attributes children => exact dotsEnd_callCode (dotsEnd_renderTag tag)
  | fragment children => exact dotsEnd_written (List.mem_singleton_self '[') (by decide)

theorem dotsEnd_renderAll (nodes : List Node) :
    DotsEnd names source (renderAll names source nodes) := by
  cases nodes with
  | nil => trivial
  | cons node nodes =>
    exact dotsEnd_append (dotsEnd_code (dotsEnd_render node)) (dotsEnd_renderAll nodes)

theorem dotsEnd_renderTag (tag : Tag Node) :
    DotsEnd names source (renderTag names source tag) := by
  cases tag with
  | mk leading name trailing =>
    exact dotsEnd_append (dotsEnd_renderAll leading)
      (dotsEnd_append (dotsEnd_tagName (dotsEnd_render name)) (dotsEnd_renderAll trailing))

end

/-- Code starts with the given number of dots. -/
def StartsWithDots (count : Nat) (chars : Text) : Prop :=
  chars.take count = List.replicate count '.'

theorem startsWithDots_append {count : Nat} {front back : Text} (short : front.length ≤ count) :
    StartsWithDots count (front ++ back) ↔
      (∀ c ∈ front, c = '.') ∧ StartsWithDots (count - front.length) back := by
  have halves : List.replicate count '.' =
      List.replicate front.length '.' ++ List.replicate (count - front.length) '.' := by
    rw [List.replicate_append_replicate]
    congr 1
    omega
  unfold StartsWithDots
  rw [List.take_append, List.take_of_length_le short, halves]
  constructor
  · intro same
    obtain ⟨first, rest⟩ := List.append_inj same (by simp)
    exact ⟨(List.eq_replicate_iff.mp first).2, rest⟩
  · rintro ⟨first, rest⟩
    rw [rest, List.eq_replicate_iff.mpr ⟨rfl, first⟩, List.length_replicate]

theorem not_startsWithDots_components (proper : names.IsProper) (count : Nat) (rest : Text) :
    ¬ StartsWithDots (count + 1) (names.components ++ rest) := by
  obtain ⟨named, undotted⟩ := proper
  unfold StartsWithDots
  cases components : names.components with
  | nil => exact (named components).elim
  | cons c chars =>
    rw [components] at undotted
    intro dots
    exact undotted (congrArg some (List.cons.inj dots).1)

/-- Proper names do not change whether code starts with dots, nor what is left when they
    are cut off. -/
theorem startsWithDots_alike (proper : names.IsProper) (proper' : names'.IsProper)
    {outline : Outline} (ends : DotsEnd names source outline) (count : Nat) :
    (StartsWithDots count (text names source outline) ↔
        StartsWithDots count (text names' source outline)) ∧
      (StartsWithDots count (text names source outline) →
        dropChars names source count outline = dropChars names' source count outline) := by
  induction outline generalizing count with
  | nil => exact ⟨Iff.rfl, fun _ => by cases count <;> rfl⟩
  | cons piece pieces ih =>
    cases count with
    | zero => exact ⟨Iff.rfl, fun _ => rfl⟩
    | succ count =>
      cases runtime : isRuntime piece with
      | true =>
        cases piece with
        | runtime name =>
          cases ends
          have none := not_startsWithDots_components proper count (text names source pieces)
          have none' := not_startsWithDots_components proper' count (text names' source pieces)
          exact ⟨iff_of_false none none', fun dots => (none dots).elim⟩
        | _ => cases runtime
      | false =>
        have same : piece.text names source = piece.text names' source :=
          text_of_not_runtime runtime
        simp only [text_cons, dropChars, ← same]
        by_cases short : (piece.text names source).length ≤ count + 1
        · rw [startsWithDots_append short, startsWithDots_append short, if_pos short, if_pos short]
          by_cases dots : ∀ c ∈ piece.text names source, c = '.'
          · have rest := ih (ends.rest runtime dots) (count + 1 - (piece.text names source).length)
            exact ⟨and_congr_right fun _ => rest.1, fun starts => rest.2 starts.2⟩
          · exact ⟨iff_of_false (fun starts => dots starts.1) fun starts => dots starts.1,
              fun starts => (dots starts.1).elim⟩
        · have inside : count + 1 - (piece.text names source).length = 0 := by omega
          rw [if_neg short, if_neg short]
          simp only [StartsWithDots, List.take_append, inside, List.take_zero, true_and,
            implies_true]

instance (count : Nat) (chars : Text) : Decidable (StartsWithDots count chars) :=
  inferInstanceAs (Decidable (_ = _))

theorem startsWithDots_iff {chars : Text} :
    StartsWithDots 3 chars ↔ ['.', '.', '.'] <+: chars := by
  rw [List.prefix_iff_eq_take]
  exact eq_comm

theorem spreadRest?_eq (name : Outline) :
    spreadRest? names source name =
      if StartsWithDots 3 (text names source name) then some (dropChars names source 3 name)
      else none := by
  unfold spreadRest?
  split
  · rename_i dots
    obtain ⟨rest, same⟩ := startsWithDots_iff.mp dots
    rw [ViewScript.spreadRest?, List.isPrefixOf?_eq_some_iff_append_eq.mpr same]
    rfl
  · rename_i dots
    rw [Option.map_eq_none_iff, ViewScript.spreadRest?, Option.eq_none_iff_forall_ne_some]
    intro rest found
    exact dots (startsWithDots_iff.mpr ⟨rest, List.isPrefixOf?_eq_some_iff_append_eq.mp found⟩)

/-! ### One outline for all names -/

theorem tagName_alike {rendered : Rendered} (anchored : rendered.All Anchored) :
    rendered.tagName names source = rendered.tagName names' source := by
  cases rendered with
  | braced inside objectLike => rfl
  | plain code =>
    have same : isBuiltin (text names source code) = isBuiltin (text names' source code) :=
      test_alike isBuiltin_of_mark anchored
    simp only [Rendered.tagName, same]

theorem attributeName_alike {name : Outline} (anchored : Anchored name) :
    attributeName names source name = attributeName names' source name := by
  have same : attributeAliases.lookup (text names source name) =
      attributeAliases.lookup (text names' source name) :=
    test_alike lookup_of_mark anchored
  simp only [attributeName, same]

theorem dotsEnd_attributeName {name : Outline} (ends : DotsEnd names source name) :
    DotsEnd names source (attributeName names source name) := by
  unfold attributeName
  split
  · exact dotsEnd_singleton rfl
  · exact ends

theorem spreadSource_alike {item : Attribute Rendered} {rest : Outline} (anchored : Anchored rest) :
    spreadSource names source item rest = spreadSource names' source item rest := by
  have same : (text names source rest).isEmpty = (text names' source rest).isEmpty :=
    test_alike isEmpty_of_mark anchored
  simp only [spreadSource, same]

/-- The source of a spread is the same for both names, and so is whether it is blank. -/
theorem spread_alike {item : Attribute Rendered} {rest : Outline}
    (anchored : AttributeAll Anchored item)
    (found : spreadRest? names source (propertyName names source item) = some rest) :
    Anchored rest ∧
      spreadSource names source item rest = spreadSource names' source item rest ∧
      (text names source (spreadSource names' source item rest)).isBlank =
        (text names' source (spreadSource names' source item rest)).isBlank := by
  have left : Anchored rest :=
    closed_anchored.spreadRest? (closed_anchored.propertyName anchored) found
  have given : spreadSource names source item rest = spreadSource names' source item rest :=
    spreadSource_alike left
  refine ⟨left, given, ?_⟩
  rw [← given]
  exact test_alike isBlank_of_mark (closed_anchored.spreadSource anchored left)

/-- Code in brackets that is passed on as it is: it does not start with a spread in
    braces. -/
def isSole (chars : Text) : Bool :=
  opensGroup chars && !List.isPrefixOf ['\x7b', '.', '.', '.'] chars

/-- All that the generator looks at in an attribute is the same for both names. -/
structure Legible (names names' : RuntimeNames) (source : Text) (item : Attribute Rendered) :
    Prop where
  anchored : AttributeAll Anchored item
  ends : item.name.All (DotsEnd names source)
  sole : isSole (text names source item.name.code) = isSole (text names' source item.name.code)

section Attributes

variable (proper : names.IsProper) (proper' : names'.IsProper)
include proper proper'

theorem spreadRest?_alike {name : Outline} (ends : DotsEnd names source name) :
    spreadRest? names source name = spreadRest? names' source name := by
  obtain ⟨same, left⟩ := startsWithDots_alike proper proper' ends 3
  rw [spreadRest?_eq, spreadRest?_eq]
  by_cases dots : StartsWithDots 3 (text names source name)
  · rw [if_pos dots, if_pos (same.mp dots), left dots]
  · rw [if_neg dots, if_neg fun dots' => dots (same.mpr dots')]

theorem spreadName_alike {item : Attribute Rendered} (legible : Legible names names' source item) :
    spreadRest? names source (propertyName names source item) =
      spreadRest? names' source (propertyName names' source item) := by
  have named : propertyName names source item = propertyName names' source item :=
    attributeName_alike legible.anchored.1.bare
  rw [← named]
  exact spreadRest?_alike proper proper' (dotsEnd_attributeName legible.ends.bare)

theorem property?_alike {item : Attribute Rendered} (legible : Legible names names' source item) :
    property? names source item = property? names' source item := by
  have anchored := legible.anchored
  have named : propertyName names source item = propertyName names' source item :=
    attributeName_alike anchored.1.bare
  have spread := spreadName_alike proper proper' legible
  unfold property?
  rw [← spread, ← named]
  cases found : spreadRest? names source (propertyName names source item) with
  | none => rfl
  | some rest =>
    obtain ⟨-, given, blank⟩ := @spread_alike names names' source item rest anchored found
    simp only [given, blank]

theorem attributeList_alike {attributes : List (Attribute Rendered)}
    (legible : ∀ item ∈ attributes, Legible names names' source item) :
    attributeList names source attributes = attributeList names' source attributes := by
  unfold attributeList
  congr 1
  exact List.filterMap_congr fun item member => property?_alike proper proper' (legible item member)

theorem elementCode_alike {attributes : List (Attribute Rendered)}
    (legible : ∀ item ∈ attributes, Legible names names' source item)
    (children : Option (List Child)) :
    elementCode names source attributes children =
      elementCode names' source attributes children := by
  simp only [elementCode, attributeList_alike proper proper' legible]

theorem isPrefixOf_dots_alike {outline : Outline} (ends : DotsEnd names source outline) :
    List.isPrefixOf ['.', '.', '.'] (text names source outline) =
      List.isPrefixOf ['.', '.', '.'] (text names' source outline) := by
  have same := (startsWithDots_alike proper proper' ends 3).1
  rw [startsWithDots_iff, startsWithDots_iff] at same
  rw [Bool.eq_iff_iff, List.isPrefixOf_iff_prefix, List.isPrefixOf_iff_prefix]
  exact same

/-- Whether a value is passed on as it is can be seen in the source. -/
theorem isSole_alike {name : Node} (value : name.IsValue source) :
    isSole (text names source (render names source name).code) =
      isSole (text names' source (render names source name).code) := by
  cases name with
  | code span => rfl
  | verbatim span => rfl
  | group delimiter body =>
    cases delimiter with
    | paren => rfl
    | bracket => rfl
    | brace =>
      have ends : DotsEnd names source (renderAll names source body ++ [.written "\x7d"]) :=
        dotsEnd_append (dotsEnd_renderAll body) (dotsEnd_singleton rfl)
      exact congrArg (!·) (isPrefixOf_dots_alike proper proper' ends)
  | _ => exact value.elim

theorem legible_renderAttributes {attributes : List (Attribute Node)}
    (derived : ∀ part ∈ attributesParts attributes, part.IsDerived source) :
    ∀ item ∈ renderAttributes names source attributes, Legible names names' source item := by
  induction attributes with
  | nil => simp [renderAttributes]
  | cons first attributes ih =>
    obtain ⟨name, value⟩ := first
    obtain ⟨word, others⟩ := List.forall_mem_append.mp derived
    obtain ⟨own, -⟩ := List.forall_mem_cons.mp word
    refine List.forall_mem_cons.mpr ⟨?_, ih (List.forall_mem_append.mp others).2⟩
    refine ⟨⟨anchored_render name, ?_⟩, dotsEnd_render name, isSole_alike proper proper' own⟩
    intro rendered given
    cases value with
    | none => cases given
    | some value =>
      cases given
      exact anchored_render value

end Attributes

theorem soleExpression?_alike {attributes : List (Attribute Rendered)}
    (legible : ∀ item ∈ attributes, Legible names names' source item) :
    soleExpression? names source attributes = soleExpression? names' source attributes := by
  unfold soleExpression?
  split
  · have same := (legible _ (List.mem_singleton_self _)).sole
    unfold isSole at same
    simp only [same]
  · rfl

theorem argumentCode_alike (proper : names.IsProper) (proper' : names'.IsProper)
    {attributes : List (Attribute Rendered)}
    (legible : ∀ item ∈ attributes, Legible names names' source item) :
    argumentCode names source attributes = argumentCode names' source attributes := by
  rw [argumentCode, argumentCode, soleExpression?_alike legible,
    attributeList_alike proper proper' legible]

mutual

/-- A derived tree has one outline for all proper names. -/
theorem render_alike (proper : names.IsProper) (proper' : names'.IsProper) (node : Node)
    (derived : ∀ part ∈ node.parts, part.IsDerived source) :
    render names source node = render names' source node := by
  cases node with
  | verbatim span => rfl
  | code span => rfl
  | comment span => rfl
  | text span => rfl
  | group delimiter body =>
    have inside := renderAll_alike proper proper' body (List.forall_mem_cons.mp derived).2
    cases delimiter <;> simp only [render, inside]
  | interpolation body =>
    have inside := renderAll_alike proper proper' body (List.forall_mem_cons.mp derived).2
    simp only [render, inside]
  | reference tag => simp only [render, renderTag_alike proper proper' tag derived]
  | selfClosing tag argument =>
    obtain ⟨opened, given⟩ := List.forall_mem_append.mp derived
    have called := renderTag_alike proper proper' tag opened
    cases argument with
    | attributes attributes =>
      have legible := legible_renderAttributes proper proper' given
      have listed := renderAttributes_alike proper proper' attributes given
      simp only [render, called, ← listed, argumentCode_alike proper proper' legible]
    | expression value =>
      have passed := render_alike proper proper' value (List.forall_mem_cons.mp given).2
      simp only [render, called, passed]
  | element tag attributes children =>
    obtain ⟨opened, inside⟩ := List.forall_mem_append.mp derived
    obtain ⟨given, below⟩ := List.forall_mem_append.mp inside
    have called := renderTag_alike proper proper' tag opened
    have legible := legible_renderAttributes proper proper' given
    have listed := renderAttributes_alike proper proper' attributes given
    have nested := renderChildren_alike proper proper' children (List.forall_mem_cons.mp below).2
    simp only [render, called, ← listed, elementCode_alike proper proper' legible, nested]
  | fragment children =>
    have nested := renderChildren_alike proper proper' children (List.forall_mem_cons.mp derived).2
    simp only [render, nested]

theorem renderAll_alike (proper : names.IsProper) (proper' : names'.IsProper) (nodes : List Node)
    (derived : ∀ part ∈ partsOf nodes, part.IsDerived source) :
    renderAll names source nodes = renderAll names' source nodes := by
  cases nodes with
  | nil => rfl
  | cons node nodes =>
    obtain ⟨first, rest⟩ := List.forall_mem_append.mp derived
    rw [renderAll, renderAll, render_alike proper proper' node first,
      renderAll_alike proper proper' nodes rest]

theorem renderTag_alike (proper : names.IsProper) (proper' : names'.IsProper) (tag : Tag Node)
    (derived : ∀ part ∈ tagParts tag, part.IsDerived source) :
    renderTag names source tag = renderTag names' source tag := by
  cases tag with
  | mk leading name trailing =>
    obtain ⟨before, others⟩ := List.forall_mem_append.mp derived
    obtain ⟨word, after⟩ := List.forall_mem_append.mp others
    have front := renderAll_alike proper proper' leading (List.forall_mem_cons.mp before).2
    have named := render_alike proper proper' name (List.forall_mem_cons.mp word).2
    have back := renderAll_alike proper proper' trailing (List.forall_mem_cons.mp after).2
    have built : (render names' source name).tagName names source =
        (render names' source name).tagName names' source := tagName_alike (anchored_render name)
    simp only [renderTag, front, named, built, back]

theorem renderAttributes_alike (proper : names.IsProper) (proper' : names'.IsProper)
    (attributes : List (Attribute Node))
    (derived : ∀ part ∈ attributesParts attributes, part.IsDerived source) :
    renderAttributes names source attributes = renderAttributes names' source attributes := by
  cases attributes with
  | nil => rfl
  | cons first attributes =>
    cases first with
    | mk name value =>
      obtain ⟨word, others⟩ := List.forall_mem_append.mp derived
      obtain ⟨given, rest⟩ := List.forall_mem_append.mp others
      have named := render_alike proper proper' name (List.forall_mem_cons.mp word).2
      have valued := renderValue_alike proper proper' value given
      have listed := renderAttributes_alike proper proper' attributes rest
      simp only [renderAttributes, named, valued, listed]

theorem renderValue_alike (proper : names.IsProper) (proper' : names'.IsProper)
    (value : Option Node) (derived : ∀ part ∈ valueParts value, part.IsDerived source) :
    renderValue names source value = renderValue names' source value := by
  cases value with
  | none => rfl
  | some value =>
    have same := render_alike proper proper' value (List.forall_mem_cons.mp derived).2
    simp only [renderValue, same]

theorem renderChildren_alike (proper : names.IsProper) (proper' : names'.IsProper)
    (children : List Node) (derived : ∀ part ∈ partsOf children, part.IsDerived source) :
    renderChildren names source children = renderChildren names' source children := by
  cases children with
  | nil => rfl
  | cons child children =>
    obtain ⟨first, rest⟩ := List.forall_mem_append.mp derived
    have item := render_alike proper proper' child first
    have others := renderChildren_alike proper proper' children rest
    cases child with
    | fragment nested =>
      have inside := renderChildren_alike proper proper' nested (List.forall_mem_cons.mp first).2
      simp only [renderChildren, inside, others]
    | interpolation body =>
      have inside := renderAll_alike proper proper' body (List.forall_mem_cons.mp first).2
      simp only [renderChildren, inside, others]
    | _ => simp only [renderChildren, item, others]

end

end Outline

end ViewScript
