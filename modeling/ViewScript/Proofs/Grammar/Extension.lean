/-
  ViewScript/Proofs/Grammar/Extension.lean
  ========================================
  **The rules with more text behind.**

  What is put behind a text here starts with a line break and holds no `>`.  The line break
  ends names, line comments and regular expressions, and without a `>` no view ends in it.
  So all rules are stable, and all that stand in an expression are kept, but for plain
  code, which goes on behind the line break.
-/
import ViewScript.Proofs.Compile.HostCode
import ViewScript.Proofs.Grammar.Execution
import ViewScript.Proofs.Parser.Sealing

namespace ViewScript.Grammar

open ViewScript.Parser

variable {others : Text}

/-! ### Lexical rules -/

theorem stable_escapedOr {words : List Text} (free : ∀ word ∈ words, '\n' ∉ word.tail) :
    Stable ('\n' :: others) (escapedOr words) :=
  ((stable_char '\\').bind fun _ => stable_satisfy _ _).spanned.orElse (stable_exclude free)

theorem sealed_comment : Sealed ('\n' :: others) comment :=
  (stable_char '#').sealed_bind fun _ => (stable_escapedOr (by decide)).many.spanned.sealed_bind
    fun _ => (sealed_char '#').map

theorem stable_separator : Stable ('\n' :: others) separator := by
  have whitespace : Stable ('\n' :: others) whitespace := (stable_satisfy _ _).many1.spanned.map
  exact (whitespace.orElse sealed_comment.toStable).many

theorem sealed_quoted (mark : Char) : Sealed ('\n' :: others) (quoted mark) := by
  have free : ∀ word ∈ [[mark]], '\n' ∉ word.tail := by simp
  exact ((stable_char mark).sealed_bind fun _ => (stable_escapedOr free).many.sealed_bind
    fun _ => sealed_char mark).spanned.map

theorem stable_text : Stable ('\n' :: others) text :=
  (stable_escapedOr (by decide)).many1.spanned.map

theorem sealed_blockComment : Sealed ('\n' :: others) blockComment :=
  ((stable_word (by decide)).sealed_bind fun _ => (stable_exclude (by decide)).many.sealed_bind
    fun _ => sealed_word (by decide)).spanned.map

theorem sealed_regex : Sealed ('\n' :: others) regex := by
  have item : Stable ('\n' :: others) regexItem :=
    ((stable_char '\\').bind fun _ => stable_exclude (by decide)).spanned.orElse
      (stable_exclude (by decide))
  exact ((stable_char '/').sealed_bind fun _ => item.many1.sealed_bind
    fun _ => sealed_char '/').spanned.map

theorem not_mem_of_escapedRun {ends never : List Char} {text : Text} {c : Char} (isEnd : c ∈ ends)
    (isNever : c ∈ never) (noEscape : c ≠ '\\') (run : EscapedRun ends never text) : c ∉ text := by
  induction run with
  | nil => exact List.not_mem_nil
  | escape other _ ih =>
    intro member
    rcases List.mem_cons.mp member with same | member
    · exact noEscape same
    rcases List.mem_cons.mp member with rfl | member
    · exact other isNever
    · exact ih member
  | plain _ free _ ih =>
    intro member
    rcases List.mem_cons.mp member with rfl | member
    · exact free isEnd
    · exact ih member

/-- A regular expression stands on one line. -/
theorem sealed_attempt_regex : Sealed ('\n' :: others) (attempt regex) := by
  refine sealed_regex.attempt (meets_regex.weaken ?_)
  rintro _ _ _ _ ⟨⟨items, -, run, rfl⟩, -⟩ ⟨front, tail, split, filled, isPrefix⟩
  have oneLine : '\n' ∉ '/' :: (items ++ ['/']) := by
    have inside : '\n' ∉ items := not_mem_of_escapedRun (by decide) (by decide) (by decide) run
    simpa using inside
  rw [split] at oneLine
  obtain ⟨c, tail, rfl⟩ := List.exists_cons_of_ne_nil filled
  obtain ⟨rfl, -⟩ := List.cons_prefix_cons.mp isPrefix
  simp at oneLine

theorem kept_name : Kept ('\n' :: others) name where
  toStable := (stable_satisfy _ _).many1.spanned.map
  kept _ done := by
    obtain ⟨isRun, rfl⟩ := done.meets meets_name
    exact yields_name isRun rfl

theorem kept_lineComment : Kept ('\n' :: others) lineComment where
  toStable :=
    ((stable_word (by decide)).bind fun _ => (stable_exclude (by decide)).many).spanned.map
  kept _ done := by
    obtain ⟨⟨content, free, rfl⟩, rfl⟩ := done.meets meets_lineComment
    exact yields_lineComment free rfl

theorem sealed_operator (c : Char) : Sealed ('\n' :: others) (operator c) := (sealed_char c).map

theorem stable_plainCode : Stable ('\n' :: others) plainCode :=
  (stable_exclude (by decide)).many1.spanned.map

/-! ### Rules that nest -/

/-- The nested parsers are stable. -/
structure Nested.Stable (more : Text) (nested : Nested) : Prop where
  expression : Parser.Stable more nested.expression
  children : Parser.Stable more nested.children

/-- All that a node of an expression can be, except plain code. -/
def markedRules (nested : Nested) : List (Parser Node) :=
  marks ++ Rules.value nested :: (Rules.views nested ++ [operator '/', operator '<'])

/-- Plain code is tried last. -/
theorem term_eq_append (nested : Nested) :
    Rules.term nested = firstOf (markedRules nested ++ [plainCode]) := rfl

section Rules

variable {nested : Nested} (inner : nested.Stable ('\n' :: others))

include inner

theorem sealed_group (delimiter : Delimiter) :
    Sealed ('\n' :: others) (Rules.group nested delimiter) :=
  (stable_char _).sealed_bind fun _ => inner.expression.sealed_bind fun _ => (sealed_char _).map

theorem kept_value : Kept ('\n' :: others) (Rules.value nested) := by
  refine kept_firstOf fun parser member => ?_
  simp only [List.mem_cons, List.not_mem_nil, or_false] at member
  rcases member with rfl | rfl | rfl | rfl | rfl | rfl | rfl
  · exact kept_name
  · exact (sealed_quoted _).kept
  · exact (sealed_quoted _).kept
  · exact (sealed_quoted _).kept
  · exact (sealed_group inner _).kept
  · exact (sealed_group inner _).kept
  · exact (sealed_group inner _).kept

theorem stable_attributes : Stable ('\n' :: others) (Rules.attributes nested) := by
  have value := (kept_value inner).toStable
  have assigned := ((stable_char '=').bind fun _ => value).optional
  exact (value.bind fun _ => assigned.bind fun _ => stable_separator.bind
    fun _ => stable_pure _).many

theorem stable_opening : Stable ('\n' :: others) (Rules.opening nested) :=
  (stable_char '<').bind fun _ => stable_separator.bind fun _ =>
    (kept_value inner).toStable.bind fun _ => stable_separator.bind fun _ => stable_pure _

theorem sealed_reference : Sealed ('\n' :: others) (Rules.reference nested) :=
  (stable_opening inner).sealed_bind fun _ => (sealed_word (by decide)).map

omit inner in
theorem ne_nil_of_value {offset : Nat} {text : Text} {node : Node}
    (derives : Derives .value offset text node) : text ≠ [] := by
  cases derives with
  | name isRun => exact isRun.1
  | quoted => exact List.cons_ne_nil _ _
  | group => exact List.cons_ne_nil _ _

omit inner in
theorem lt_of_value (sound : nested.IsSound) {cursor next : Cursor} {node : Node}
    (done : Rules.value nested cursor = .ok node next) : cursor.offset < next.offset := by
  obtain ⟨read, reads, derived⟩ := (sound_value sound).ok done
  exact reads.offset_lt (ne_nil_of_value derived)

omit inner in
/-- Where a value stands before a slash, the attributes end after it. -/
theorem attributes_of_value (sound : nested.IsSound) {cursor : Cursor} {place : Nat} {rest : Text}
    {node : Node} (done : Rules.value nested cursor = .ok node ⟨place, .chars ('/' :: rest)⟩) :
    Rules.attributes nested cursor = .ok [⟨node, none⟩] ⟨place, .chars ('/' :: rest)⟩ := by
  have noValue : (optional do let _ ← char '='; Rules.value nested).Yields place [] ('/' :: rest)
      none := Declines.optional ((startsIn_char '=').bind.declines rfl)
  have noGap : separator.Yields place [] ('/' :: rest) [] := yields_separator_nil rfl
  have entry : Rules.entry nested cursor =
      .ok ⟨node, none⟩ ⟨place, .chars ('/' :: rest)⟩ := by
    refine bind_eq_ok_iff.mpr ⟨_, _, done, bind_eq_ok_iff.mpr ⟨_, _, noValue, ?_⟩⟩
    exact bind_eq_ok_iff.mpr ⟨_, _, noGap, rfl⟩
  have last : (many (Rules.entry nested)).Yields place [] ('/' :: rest) [] :=
    Declines.many ((startsIn_value nested).bind.declines rfl)
  rw [Yields, List.nil_append] at last
  have moved := Nat.ne_of_gt (lt_of_value sound done)
  rw [Rules.attributes, many_eq_map (meets_entry sound) entry moved, last]
  rfl

omit inner in
/-- The second reading of an argument never helps: if the attributes fail, they fail after
    a value, and that value does not stand before the end of the tag. -/
theorem alike_argument (sound : nested.IsSound) (tag : Tag Node) (cursor : Cursor) :
    Reply.Alike cursor.offset
      ((do
        let argument ← Argument.attributes <$> Rules.attributes nested
        let _ ← word ['/', '>']
        return Node.selfClosing tag argument) cursor)
      ((do
        let argument ← Rules.argument nested
        let _ ← word ['/', '>']
        return Node.selfClosing tag argument) cursor) := by
  cases reply : Rules.attributes nested cursor with
  | ok attributes next =>
    have list : (Argument.attributes <$> Rules.attributes nested) cursor =
        .ok (.attributes attributes) next := bind_of_ok reply
    have argument : Rules.argument nested cursor = .ok (.attributes attributes) next := by
      rw [Rules.argument, Parser.orElse, attempt_eq_ok_iff.mpr list]
    rw [bind_of_ok list, bind_of_ok argument]
    exact .same _
  | fail failure =>
    have later := lt_of_many_eq_fail (meets_entry sound) reply
    have list : (Argument.attributes <$> Rules.attributes nested) cursor = .fail failure :=
      bind_eq_fail_iff.mpr (.inl reply)
    have argument : Rules.argument nested cursor =
        (Argument.expression <$> Rules.value nested) cursor :=
      Declines.orElse (Fails.attempt ⟨failure, list⟩)
    rw [bind_eq_fail_iff.mpr (.inl list)]
    -- A single value is read instead, but the tag does not end behind it.
    cases one : Rules.value nested cursor with
    | fail other =>
      have elsewhere : other.position ≠ cursor.offset := by
        intro here
        have declines : (Rules.entry nested).Declines cursor :=
          Declines.bind ⟨other.expected, by rw [one, ← here]⟩
        rw [Rules.attributes, many_of_declines declines] at reply
        cases reply
      obtain ⟨read, place, reads, position⟩ := (sound_value sound).fail one
      have after := reads.offset_le
      rw [bind_eq_fail_iff.mpr (.inl (argument.trans (bind_eq_fail_iff.mpr (.inl one))))]
      exact .failed later (by omega)
    | ok node next =>
      have begun : Rules.argument nested cursor = .ok (.expression node) next :=
        argument.trans (bind_of_ok one)
      cases ended : word ['/', '>'] next with
      | ok span last =>
        -- If it did, the value alone would have been a list of attributes.
        obtain ⟨_, reads, rfl⟩ := (meets_word _).ok ended
        cases reads with
        | char reads =>
          rw [attributes_of_value sound one] at reply
          cases reply
      | fail other =>
        obtain ⟨read, place, reads, position⟩ := (meets_word _).fail ended
        have after := reads.offset_le
        have before := lt_of_value sound one
        rw [bind_of_ok begun, bind_eq_fail_iff.mpr (.inl ended)]
        exact .failed later (by omega)

theorem sealed_selfClosing (sound : nested.IsSound) :
    Sealed ('\n' :: others) (Rules.selfClosing nested) := by
  refine (stable_opening inner).sealed_bind fun tag => ?_
  have listed : Sealed ('\n' :: others) (do
      let argument ← Argument.attributes <$> Rules.attributes nested
      let _ ← word ['/', '>']
      return Node.selfClosing tag argument) :=
    (stable_attributes inner).map.sealed_bind fun _ => (sealed_word (by decide)).map
  refine listed.congr ?_ (alike_argument sound tag)
  have list : (Argument.attributes <$> Rules.attributes nested).Meets fun _ _ _ _ => True :=
    (stable_attributes inner).map.reads
  have one : (Argument.expression <$> Rules.value nested).Meets fun _ _ _ _ => True :=
    (kept_value inner).toStable.map.reads
  exact (list.attempt.orElse one).bind fun _ _ _ => (meets_word _).bind fun _ _ _ =>
    meets_pure fun _ _ _ _ _ _ => trivial

theorem sealed_element : Sealed ('\n' :: others) (Rules.element nested) :=
  (stable_opening inner).sealed_bind fun _ => (stable_attributes inner).sealed_bind fun _ =>
    (stable_char '>').sealed_bind fun _ => inner.children.sealed_bind fun _ =>
      (stable_word (by decide)).sealed_bind fun _ =>
        (stable_exclude (by decide)).many.sealed_bind fun _ => (sealed_char '>').map

theorem sealed_fragment : Sealed ('\n' :: others) (Rules.fragment nested) :=
  (stable_word (by decide)).sealed_bind fun _ => inner.children.sealed_bind fun _ =>
    (sealed_word (by decide)).map

theorem stable_interpolation : Stable ('\n' :: others) (Rules.interpolation nested) :=
  (stable_char _).bind fun _ => inner.expression.bind fun _ => (stable_char _).map

/-- A view ends with a `>`, and there is none behind. -/
theorem sealed_views (sound : nested.IsSound) (noEnd : '>' ∉ '\n' :: others) :
    ∀ parser ∈ Rules.views nested, Sealed ('\n' :: others) parser := by
  have attempted : ∀ {parser : Parser Node}, Sealed ('\n' :: others) parser → Sound .view parser →
      Sealed ('\n' :: others) (attempt parser) := by
    intro parser sealed isView
    refine sealed.attempt (isView.weaken ?_)
    rintro _ _ _ _ derived ⟨front, tail, rfl, filled, isPrefix⟩
    have last := (isView_of_derives derived).2.2
    rw [List.getLast?_append_of_ne_nil front filled] at last
    exact noEnd (isPrefix.subset (List.mem_of_getLast? last))
  intro parser member
  simp only [Rules.views, List.mem_cons, List.not_mem_nil, or_false] at member
  rcases member with rfl | rfl | rfl | rfl
  · exact attempted (sealed_reference inner) ((sound_reference sound).weaken .viewReference)
  · exact attempted (sealed_selfClosing inner sound)
      ((sound_selfClosing sound).weaken .viewSelfClosing)
  · exact attempted (sealed_element inner) ((sound_element sound).weaken .viewElement)
  · exact attempted (sealed_fragment inner) ((sound_fragment sound).weaken .viewFragment)

theorem stable_children (sound : nested.IsSound) (noEnd : '>' ∉ '\n' :: others) :
    Stable ('\n' :: others) (Rules.children nested) := by
  refine (stable_firstOf fun parser member => ?_).many
  rcases List.mem_append.mp member with view | other
  · exact (sealed_views inner sound noEnd parser view).toStable
  · simp only [List.mem_cons, List.not_mem_nil, or_false] at other
    rcases other with rfl | rfl
    · exact stable_text
    · exact stable_interpolation inner

theorem kept_markedRules (sound : nested.IsSound) (noEnd : '>' ∉ '\n' :: others) :
    ∀ parser ∈ markedRules nested, Kept ('\n' :: others) parser := by
  intro parser member
  simp only [markedRules, marks, List.cons_append, List.nil_append, List.mem_cons, List.mem_append,
    List.not_mem_nil, or_false] at member
  rcases member with rfl | rfl | rfl | rfl | rfl | view | rfl | rfl
  · exact kept_lineComment
  · exact sealed_blockComment.kept
  · exact sealed_attempt_regex.kept
  · exact sealed_comment.kept
  · exact kept_value inner
  · exact (sealed_views inner sound noEnd parser view).kept
  · exact (sealed_operator '/').kept
  · exact (sealed_operator '<').kept

theorem stable_term (sound : nested.IsSound) (noEnd : '>' ∉ '\n' :: others) :
    Stable ('\n' :: others) (Rules.term nested) := by
  rw [term_eq_append]
  refine stable_firstOf fun parser member => ?_
  rcases List.mem_append.mp member with marked | code
  · exact (kept_markedRules inner sound noEnd parser marked).toStable
  · rw [List.mem_singleton.mp code]
    exact stable_plainCode

end Rules

/-! ### Levels -/

theorem stable_levels (noEnd : '>' ∉ '\n' :: others) (budget : Nat) :
    (Nested.nothing.levels budget).Stable ('\n' :: others) := by
  induction budget with
  | zero => exact ⟨stable_failHere .alternatives, stable_failHere .alternatives⟩
  | succ budget ih =>
    have sound := isSound_levels isSound_nothing budget
    exact ⟨(stable_term ih sound noEnd).many, stable_children ih sound noEnd⟩

/-- A parser is stable if there are enough stable ones that it agrees with. -/
theorem stable_of_follows {more : Text} {parser : Parser (List Node)}
    {level : Nat → Parser (List Node)} (reads : parser.Meets fun _ _ _ _ => True)
    (stable : ∀ n, Stable more (level n))
    (follows : ∀ n, Follows 0 n 0 (shiftAll 0) (level n) parser) : Stable more parser where
  reads := reads
  extend offset text filled := by
    have agrees : ∀ rest : Text, rest.length ≤ (text ++ more).length →
        level ((text ++ more).length + 1) ⟨offset, .chars rest⟩ = parser ⟨offset, .chars rest⟩ :=
      fun rest short => (follows _).apply_eq shiftAll_zero (Nat.lt_succ_of_le short)
    rw [← agrees text (by simp), ← agrees (text ++ more) (Nat.le_refl _)]
    exact (stable _).extend offset text filled

theorem stable_closed (noEnd : '>' ∉ '\n' :: others) : Nested.closed.Stable ('\n' :: others) where
  expression := stable_of_follows (isSound_closed.expression.weaken fun _ => trivial)
    (fun n => (stable_levels noEnd n).expression) fun n => (levels_follows_closed n).expression
  children := stable_of_follows (isSound_closed.children.weaken fun _ => trivial)
    (fun n => (stable_levels noEnd n).children) fun n => (levels_follows_closed n).children

end ViewScript.Grammar
