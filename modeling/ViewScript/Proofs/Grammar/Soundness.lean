/-
  ViewScript/Proofs/Grammar/Soundness.lean
  ========================================
  **What the parsers read is derived from the grammar.**

  A parser is *sound* for a production when the text of every success is derived
  from the production with the value as its tree.  The lexical rules are sound by
  themselves.  A rule that nests is sound if what is nested in it is; since the
  bottom of the nesting never succeeds, every level is sound, and so is the grammar.
-/
import ViewScript.Proofs.Grammar.Derivation

namespace ViewScript.Grammar

open ViewScript.Parser

/-- The text of every success is derived from the production. -/
abbrev Sound (production : Production) (parser : Parser production.Value) : Prop :=
  parser.Meets fun offset read _ value => Derives production offset read value

/-- The item goes before any list of items that stands where it ends. -/
abbrev Precedes {α : Type} (list : Nat → Text → List α → Prop) : Contract α :=
  fun offset read _ item => ∀ rest others, list (offset + read.byteSize) rest others →
    list offset (read ++ rest) (item :: others)

theorem meets_list {α : Type} (list : Nat → Text → List α → Prop) {parser : Parser α}
    (nil : ∀ offset, list offset [] []) (item : parser.Meets (Precedes list)) :
    (many parser).Meets fun offset read _ items => list offset read items :=
  Meets.many item (nil _) fun first rest => first _ _ rest

/-! ### Escapes -/

theorem not_mem_of_singletons {c : Char} {back : Text} {ends : List Char}
    (excluded : ∀ word ∈ ends.map ([·]), ¬ word <+: c :: back) : c ∉ ends := by
  intro member
  exact excluded [c] (List.mem_map.mpr ⟨c, member, rfl⟩) ⟨back, rfl⟩

/-- One item of an escaped run. -/
def EscapedItem (ends never : List Char) (item : Text) : Prop :=
  (∃ c, c ∉ never ∧ item = ['\\', c]) ∨ ∃ c, c ≠ '\\' ∧ c ∉ ends ∧ item = [c]

theorem EscapedRun.cons {ends never : List Char} {item rest : Text}
    (first : EscapedItem ends never item) (run : EscapedRun ends never rest) :
    EscapedRun ends never (item ++ rest) := by
  rcases first with ⟨c, allowed, rfl⟩ | ⟨c, noEscape, plain, rfl⟩
  · exact .escape allowed run
  · exact .plain noEscape plain run

section Escapes

variable {escaped : Parser Span} {never : List Char}

/-- After a backslash the choice is committed: whatever goes wrong then is noticed
    further on. -/
theorem ne_start_of_backslash
    (meets : escaped.Meets (OneChar fun c _ => c ∉ never)) {cursor : Cursor} {rest : Text}
    (ahead : cursor.ahead = .chars ('\\' :: rest)) {failure : Failure}
    (failed : spanned (do let _ ← char '\\'; escaped) cursor = .fail failure) :
    failure.position ≠ cursor.offset := by
  obtain ⟨offset, _⟩ := cursor
  obtain rfl := ahead
  have step : (do let _ ← char '\\'; escaped) ⟨offset, .chars ('\\' :: rest)⟩ =
      escaped ⟨offset + 1, .chars rest⟩ := rfl
  unfold spanned at failed
  rw [step] at failed
  split at failed
  · cases failed
  next inner =>
    cases failed
    obtain ⟨read, place, reads, position⟩ := meets.fail inner
    have moved := reads.offset_eq
    simp only at moved ⊢
    omega

theorem meets_escapedItem (ends : List Char)
    (meets : escaped.Meets (OneChar fun c _ => c ∉ never)) :
    (orElse (spanned do let _ ← char '\\'; escaped) (exclude (ends.map ([·])))).Meets
      fun _ read _ _ => EscapedItem ends never read := by
  have pair : (spanned do let _ ← char '\\'; escaped).Meets
      fun _ read _ _ => EscapedItem ends never read := by
    have marked : (do let _ ← char '\\'; escaped).Meets
        fun _ read _ _ => EscapedItem ends never read := by
      refine (meets_char '\\').bind fun _ _ _ => meets.weaken ?_
      rintro _ _ _ _ ⟨-, c, rfl, allowed⟩ - rfl
      exact Or.inl ⟨c, allowed, rfl⟩
    exact marked.spanned.weaken fun ⟨_, _, item⟩ => item
  intro cursor
  unfold Parser.orElse
  split
  next reply => exact pair.ok reply
  next failure reply =>
    split
    next here =>
      cases other : exclude (ends.map ([·])) cursor with
      | fail later => exact (meets_exclude _).fail other
      | ok span next =>
        obtain ⟨read, reads, -, c, rfl, plain⟩ := (meets_exclude _).ok other
        refine ⟨[c], reads, Or.inr ⟨c, ?_, not_mem_of_singletons plain, rfl⟩⟩
        rintro rfl
        cases reads with
        | char _ => exact ne_start_of_backslash meets rfl reply here
    · exact pair.fail reply

theorem meets_escapedItems (ends : List Char)
    (meets : escaped.Meets (OneChar fun c _ => c ∉ never)) :
    (many (orElse (spanned do let _ ← char '\\'; escaped) (exclude (ends.map ([·]))))).Meets
      fun _ read _ _ => EscapedRun ends never read :=
  Meets.many (meets_escapedItem ends meets) .nil fun item run => run.cons item

theorem meets_escapedItems1 (ends : List Char)
    (meets : escaped.Meets (OneChar fun c _ => c ∉ never)) :
    (many1 (orElse (spanned do let _ ← char '\\'; escaped) (exclude (ends.map ([·]))))).Meets
      fun _ read _ _ => read ≠ [] ∧ EscapedRun ends never read := by
  refine Meets.many1 (meets_escapedItem ends meets) (meets_escapedItems ends meets) .nil ?_
  intro _ _ _ _ _ _ item run
  refine ⟨?_, run.cons item⟩
  rcases item with ⟨c, -, rfl⟩ | ⟨c, -, -, rfl⟩ <;> simp

end Escapes

theorem meets_anyChar : anyChar.Meets (OneChar fun c _ => c ∉ []) :=
  (meets_satisfy _ _).weaken fun ⟨span, c, read, _⟩ => ⟨span, c, read, List.not_mem_nil⟩

theorem meets_escapedOr (ends : List Char) :
    (many (escapedOr (ends.map ([·])))).Meets fun _ read _ _ => EscapedRun ends [] read :=
  meets_escapedItems ends meets_anyChar

theorem meets_escapedOr1 (ends : List Char) : (many1 (escapedOr (ends.map ([·])))).Meets
    fun _ read _ _ => read ≠ [] ∧ EscapedRun ends [] read :=
  meets_escapedItems1 ends meets_anyChar

/-! ### Lexical rules -/

theorem meets_run {parser : Parser Span} {test : Char → Bool}
    (one : parser.Meets (OneChar fun c _ => test c = true)) :
    (many1 parser).Meets fun _ read _ _ => IsRun test read := by
  have all : ∀ {c : Char} {rest : Text}, test c = true → (∀ d ∈ rest, test d = true) →
      ∀ d ∈ c :: rest, test d = true := by
    intro c rest first others d member
    rcases List.mem_cons.mp member with rfl | member
    · exact first
    · exact others d member
  have chars : (many parser).Meets fun _ read _ _ => ∀ c ∈ read, test c = true := by
    refine Meets.many one (fun c member => nomatch member) ?_
    rintro _ _ _ _ _ _ ⟨-, c, rfl, passes⟩ others
    exact all passes others
  refine Meets.many1 one chars (fun c member => nomatch member) ?_
  rintro _ _ _ _ _ _ ⟨-, c, rfl, passes⟩ others
  exact ⟨by simp, all passes others⟩

theorem sound_comment : Sound .comment comment := by
  refine (meets_char '#').bind fun _ _ _ => ?_
  refine (meets_escapedOr ['#']).spanned.bind fun _ _ _ => ?_
  refine (meets_char '#').bind fun _ _ _ => meets_pure ?_
  rintro _ _ - rfl rfl ⟨rfl, _, run⟩ rfl rfl
  exact .comment run

theorem meets_whitespace : whitespace.Meets fun offset read _ node =>
    IsRun isSeparatorChar read ∧ node = .verbatim (.ofText offset read) :=
  (meets_run (meets_satisfy _ _)).spanned.map fun ⟨span, _, run⟩ => ⟨run, congrArg _ span⟩

theorem sound_separator : Sound .separator separator := by
  refine meets_list (Derives .separator) (fun _ => .separatorEnd) (Meets.orElse ?_ ?_)
  · refine meets_whitespace.weaken ?_
    rintro _ _ _ _ ⟨run, rfl⟩ _ _ rest
    exact .separatorBlank run rest
  · exact sound_comment.weaken fun note _ _ rest => .separatorComment note rest

theorem meets_name : name.Meets fun offset read _ node =>
    IsRun isNameChar read ∧ node = .code (.ofText offset read) :=
  (meets_run (meets_satisfy _ _)).spanned.map fun ⟨span, _, run⟩ => ⟨run, congrArg _ span⟩

theorem sound_name : Sound .value name := by
  refine meets_name.weaken ?_
  rintro _ _ _ _ ⟨run, rfl⟩
  exact .name run

theorem meets_quoted (mark : Char) : (quoted mark).Meets fun offset read _ node =>
    (∃ content, EscapedRun [mark] [] content ∧ read = mark :: (content ++ [mark])) ∧
      node = .verbatim (.ofText offset read) := by
  have string : (do let _ ← char mark; let _ ← many (escapedOr [[mark]]); char mark).Meets
      fun _ read _ _ => ∃ content, EscapedRun [mark] [] content ∧
        read = mark :: (content ++ [mark]) := by
    refine (meets_char mark).bind fun _ _ _ => ?_
    refine (meets_escapedOr [mark]).bind fun _ _ _ => (meets_char mark).weaken ?_
    rintro _ _ _ _ rfl - run - rfl
    exact ⟨_, run, rfl⟩
  exact string.spanned.map fun ⟨span, _, read⟩ => ⟨read, congrArg _ span⟩

theorem sound_quoted {mark : Char} (known : mark ∈ quotes) : Sound .value (quoted mark) := by
  refine (meets_quoted mark).weaken ?_
  rintro _ _ _ _ ⟨⟨content, run, rfl⟩, rfl⟩
  exact .quoted known run

theorem sound_text : Sound .text text :=
  (meets_escapedOr1 ['\x7b', '<']).spanned.map fun ⟨span, _, filled, run⟩ =>
    span ▸ .text filled run

/-! ### Host code -/

/-- Host code that is kept as it stands. -/
abbrev IsMark (parser : Parser Node) : Prop :=
  parser.Meets fun offset read _ node => HostMark read ∧ node = .verbatim (.ofText offset read)

theorem isMark_of_spanned {α : Type} {parser : Parser α}
    (meets : parser.Meets fun _ read _ _ => HostMark read) :
    IsMark (.verbatim <$> spanned parser) :=
  meets.spanned.map fun ⟨span, _, mark⟩ => ⟨mark, congrArg _ span⟩

theorem meets_many_exclude (c : Char) :
    (many (exclude [[c]])).Meets fun _ read _ _ => c ∉ read := by
  refine Meets.many (meets_exclude _) List.not_mem_nil ?_
  rintro _ _ _ _ _ _ ⟨-, d, rfl, other⟩ free member
  rcases List.mem_cons.mp member with rfl | member
  · exact other [c] (by simp) ⟨_, rfl⟩
  · exact free member

theorem meets_lineComment : lineComment.Meets fun offset read _ node =>
    (∃ content, '\n' ∉ content ∧ read = '/' :: '/' :: content) ∧
      node = .verbatim (.ofText offset read) := by
  have inside : (do let _ ← word ['/', '/']; many (exclude [['\n']])).Meets
      fun _ read _ _ => ∃ content, '\n' ∉ content ∧ read = '/' :: '/' :: content := by
    refine (meets_word ['/', '/']).bind fun _ _ _ => (meets_many_exclude '\n').weaken ?_
    rintro _ content _ _ free - rfl
    exact ⟨content, free, rfl⟩
  exact inside.spanned.map fun ⟨span, _, holds⟩ => ⟨holds, congrArg _ span⟩

theorem isMark_lineComment : IsMark lineComment := by
  refine meets_lineComment.weaken ?_
  rintro _ _ _ _ ⟨⟨content, free, rfl⟩, node⟩
  exact ⟨.lineComment free, node⟩

/-- Inside the first text, no place starts the word, the second text being what
    comes after it. -/
def StartsNowhere (word inside back : Text) : Prop :=
  ∀ front tail, inside = front ++ tail → tail ≠ [] → ¬ word <+: tail ++ back

theorem StartsNowhere.cons {word inside back : Text} {c : Char}
    (here : ¬ word <+: c :: (inside ++ back)) (later : StartsNowhere word inside back) :
    StartsNowhere word (c :: inside) back := by
  intro front tail split some
  cases front with
  | nil =>
    obtain rfl : c :: inside = tail := split
    exact here
  | cons d front =>
    obtain ⟨rfl, rfl⟩ := List.cons.inj split
    exact later front tail rfl some

theorem StartsNowhere.not_isInfix {word inside back : Text} (some : word ≠ [])
    (nowhere : StartsNowhere word inside (word ++ back)) : ¬ word <:+: inside := by
  rintro ⟨front, tail, split⟩
  refine nowhere front (word ++ tail) (by rw [← split, List.append_assoc]) ?_ ?_
  · intro empty
    exact some (List.append_eq_nil_iff.mp empty).1
  · exact ⟨tail ++ (word ++ back), by simp⟩

theorem isMark_blockComment : IsMark blockComment := by
  have inside : (many (exclude [['*', '/']])).Meets
      fun _ read back _ => StartsNowhere ['*', '/'] read back := by
    refine Meets.many (meets_exclude _) ?_ ?_
    · intro _ _ front tail split some
      exact absurd (List.append_eq_nil_iff.mp split.symm).2 some
    · rintro _ _ _ _ _ _ ⟨-, c, rfl, here⟩ later
      exact .cons (here _ (by simp)) later
  refine isMark_of_spanned ((meets_word ['/', '*']).bind fun _ _ _ => ?_)
  refine inside.bind fun _ _ _ => (meets_word ['*', '/']).weaken ?_
  rintro _ _ _ _ rfl - nowhere - rfl
  exact .blockComment (nowhere.not_isInfix (by simp))

/-- The character after a backslash in a regular expression. -/
theorem meets_regexChar : (exclude [['\n']]).Meets (OneChar fun c _ => c ∉ ['\n']) :=
  (meets_exclude _).weaken fun ⟨span, c, read, other⟩ =>
    ⟨span, c, read, not_mem_of_singletons other⟩

theorem meets_regex : regex.Meets fun offset read _ node =>
    (∃ items, items ≠ [] ∧ EscapedRun ['/', '\n'] ['\n'] items ∧ read = '/' :: (items ++ ['/'])) ∧
      node = .verbatim (.ofText offset read) := by
  have inside : (do
      let _ ← char '/'
      let _ ← many1 (orElse (spanned do let _ ← char '\\'; exclude [['\n']])
        (exclude [['/'], ['\n']]))
      char '/').Meets fun _ read _ _ =>
        ∃ items, items ≠ [] ∧ EscapedRun ['/', '\n'] ['\n'] items ∧
          read = '/' :: (items ++ ['/']) := by
    refine (meets_char '/').bind fun _ _ _ => ?_
    refine (meets_escapedItems1 ['/', '\n'] meets_regexChar).bind fun _ _ _ =>
      (meets_char '/').weaken ?_
    rintro _ _ _ _ rfl - ⟨some, items⟩ - rfl
    exact ⟨_, some, items, rfl⟩
  exact inside.spanned.map fun ⟨span, _, items⟩ => ⟨items, congrArg _ span⟩

theorem isMark_regex : IsMark regex := by
  refine meets_regex.weaken ?_
  rintro _ _ _ _ ⟨⟨items, some, run, rfl⟩, node⟩
  exact ⟨.regex some run, node⟩

theorem isMark_operator {c : Char} (mark : HostMark [c]) : IsMark (operator c) :=
  (meets_satisfy _ _).map fun ⟨span, d, read, same⟩ => by
    obtain rfl : d = c := by simpa using same
    exact ⟨read ▸ mark, congrArg _ span⟩

theorem meets_plainCode : plainCode.Meets fun offset read _ node =>
    IsRun isCodeChar read ∧ node = .code (.ofText offset read) := by
  have one : (exclude codeDelimiters).Meets (OneChar fun c _ => isCodeChar c = true) := by
    refine (meets_exclude _).weaken ?_
    rintro _ _ back _ ⟨span, c, read, other⟩
    have free : [c] ∉ codeDelimiters := fun member => other [c] member ⟨back, rfl⟩
    exact ⟨span, c, read, by simpa [isCodeChar] using free⟩
  exact (meets_run one).spanned.map fun ⟨span, _, run⟩ => ⟨run, congrArg _ span⟩

/-! ### Rules that nest -/

/-- One of the children of a tag. -/
def Rules.child (nested : Nested) : Parser Node :=
  firstOf (views nested ++ [text, interpolation nested])

/-- One node of an expression. -/
def Rules.term (nested : Nested) : Parser Node :=
  firstOf (
    [lineComment, blockComment, attempt regex, comment, value nested] ++ views nested ++
      [operator '/', operator '<', plainCode])

/-- What is nested in a rule is sound. -/
structure Nested.IsSound (nested : Nested) : Prop where
  expression : Sound .expression nested.expression
  children : Sound .children nested.children

section Rules

variable {nested : Nested}

theorem sound_group (sound : nested.IsSound) (delimiter : Delimiter) :
    Sound .value (Rules.group nested delimiter) := by
  refine (meets_char _).bind fun _ _ _ => sound.expression.bind fun _ _ _ => ?_
  refine (meets_char _).bind fun _ _ _ => meets_pure ?_
  rintro offset _ - rfl rfl body rfl rfl
  have one : delimiter.opening.utf8Size = 1 := by cases delimiter <;> rfl
  rw [Text.byteSize_cons, one] at body
  exact .group body

theorem sound_value (sound : nested.IsSound) : Sound .value (Rules.value nested) := by
  refine meets_firstOf fun parser member => ?_
  simp only [List.mem_cons, List.not_mem_nil, or_false] at member
  rcases member with rfl | rfl | rfl | rfl | rfl | rfl | rfl
  · exact sound_name
  · exact sound_quoted (by simp [quotes])
  · exact sound_quoted (by simp [quotes])
  · exact sound_quoted (by simp [quotes])
  · exact sound_group sound .paren
  · exact sound_group sound .bracket
  · exact sound_group sound .brace

theorem sound_interpolation (sound : nested.IsSound) :
    Sound .interpolation (Rules.interpolation nested) := by
  refine (meets_char _).bind fun _ _ _ => sound.expression.bind fun _ _ _ => ?_
  refine (meets_char _).bind fun _ _ _ => meets_pure ?_
  rintro offset _ - rfl rfl body rfl rfl
  exact .interpolation body

theorem sound_opening (sound : nested.IsSound) : Sound .opening (Rules.opening nested) := by
  refine (meets_char '<').bind fun _ _ _ => sound_separator.bind fun _ _ _ => ?_
  refine (sound_value sound).bind fun _ _ _ => sound_separator.bind fun _ _ _ => meets_pure ?_
  rintro _ _ - trailing rfl name rfl leading rfl rfl
  rw [List.singleton_append, List.append_nil]
  exact .opening leading name trailing

/-- Nothing, or an equals sign and a value. -/
theorem meets_assigned (sound : nested.IsSound) :
    (optional do let _ ← char '='; Rules.value nested).Meets fun offset read _ value? =>
      (read = [] ∧ value? = none) ∨ ∃ given value, read = '=' :: given ∧ value? = some value ∧
        Derives .value (offset + 1) given value := by
  have assigned : (do let _ ← char '='; Rules.value nested).Meets fun offset read _ value =>
      ∃ given, read = '=' :: given ∧ Derives .value (offset + 1) given value := by
    refine (meets_char '=').bind fun _ _ _ => (sound_value sound).weaken ?_
    rintro _ given _ _ value rfl rfl
    exact ⟨given, rfl, value⟩
  refine assigned.optional ?_ (Or.inl ⟨rfl, rfl⟩)
  rintro _ _ _ value ⟨given, rfl, derived⟩
  exact Or.inr ⟨given, value, rfl, rfl, derived⟩

theorem meets_entry (sound : nested.IsSound) :
    (Rules.entry nested).Meets (Precedes (Derives .attributes)) := by
  refine (sound_value sound).bind fun _ _ _ => (meets_assigned sound).bind fun _ _ _ => ?_
  refine sound_separator.bind fun _ _ _ => meets_pure ?_
  rintro _ _ - gap rfl (⟨rfl, rfl⟩ | ⟨given, value, rfl, rfl, assigned⟩) rfl name rest others
    following
  · have whole := Derives.attributesName name gap (by simpa [Nat.add_assoc] using following)
    simpa using whole
  · have one : '='.utf8Size = 1 := rfl
    rw [Text.byteSize_cons, one, ← Nat.add_assoc] at gap
    have whole := Derives.attributesValue name assigned gap
      (by simpa [one, Nat.add_assoc] using following)
    simpa using whole

theorem sound_attributes (sound : nested.IsSound) :
    Sound .attributes (Rules.attributes nested) :=
  meets_list (Derives .attributes) (fun _ => .attributesEnd) (meets_entry sound)

theorem sound_reference (sound : nested.IsSound) : Sound .reference (Rules.reference nested) := by
  refine (sound_opening sound).bind fun _ _ _ => (meets_word _).bind fun _ _ _ => meets_pure ?_
  rintro _ _ - rfl rfl tag
  exact .reference tag

theorem sound_selfClosing (sound : nested.IsSound) :
    Sound .selfClosing (Rules.selfClosing nested) := by
  have argument : (Rules.argument nested).Meets fun offset read _ argument =>
      (∃ attributes, argument = .attributes attributes ∧
        Derives .attributes offset read attributes) ∨
      ∃ value, argument = .expression value ∧ Derives .value offset read value := by
    refine Meets.orElse (Meets.attempt ((sound_attributes sound).map ?_))
      ((sound_value sound).map ?_)
    · intro _ _ _ attributes derived
      exact Or.inl ⟨attributes, rfl, derived⟩
    · intro _ _ _ value derived
      exact Or.inr ⟨value, rfl, derived⟩
  refine (sound_opening sound).bind fun _ _ _ => argument.bind fun _ _ _ => ?_
  refine (meets_word _).bind fun _ _ _ => meets_pure ?_
  rintro _ _ - rfl rfl (⟨attributes, rfl, list⟩ | ⟨value, rfl, given⟩) rfl tag
  · exact .selfClosing tag list
  · exact .selfClosingValue tag given

theorem sound_element (sound : nested.IsSound) : Sound .element (Rules.element nested) := by
  refine (sound_opening sound).bind fun _ _ _ => (sound_attributes sound).bind fun _ _ _ => ?_
  refine (meets_char '>').bind fun _ _ _ => sound.children.bind fun _ _ _ => ?_
  refine (meets_word _).bind fun _ _ _ => (meets_many_exclude '>').bind fun _ _ _ => ?_
  refine (meets_char '>').bind fun _ _ _ => meets_pure ?_
  rintro _ _ - rfl rfl closing rfl rfl rfl children rfl rfl rfl list rfl tag
  exact .element tag list children closing

theorem sound_fragment (sound : nested.IsSound) : Sound .fragment (Rules.fragment nested) := by
  refine (meets_word _).bind fun _ _ _ => sound.children.bind fun _ _ _ => ?_
  refine (meets_word _).bind fun _ _ _ => meets_pure ?_
  rintro _ _ - rfl rfl children rfl rfl
  exact .fragment children

theorem sound_views (sound : nested.IsSound) :
    ∀ parser ∈ Rules.views nested, Sound .view parser := by
  intro parser member
  simp only [Rules.views, List.mem_cons, List.not_mem_nil, or_false] at member
  rcases member with rfl | rfl | rfl | rfl
  · exact ((sound_reference sound).weaken .viewReference).attempt
  · exact ((sound_selfClosing sound).weaken .viewSelfClosing).attempt
  · exact ((sound_element sound).weaken .viewElement).attempt
  · exact ((sound_fragment sound).weaken .viewFragment).attempt

theorem sound_view (sound : nested.IsSound) :
    Sound .view (firstOf (Rules.views nested)) :=
  meets_firstOf (sound_views sound)

theorem meets_child (sound : nested.IsSound) :
    (Rules.child nested).Meets (Precedes (Derives .children)) := by
  refine meets_firstOf fun parser member => ?_
  rcases List.mem_append.mp member with view | other
  · exact (sound_views sound parser view).weaken fun item _ _ rest => .childrenView item rest
  simp only [List.mem_cons, List.not_mem_nil, or_false] at other
  rcases other with rfl | rfl
  · exact sound_text.weaken fun item _ _ rest => .childrenText item rest
  · exact (sound_interpolation sound).weaken fun item _ _ rest => .childrenInterpolation item rest

theorem sound_children (sound : nested.IsSound) : Sound .children (Rules.children nested) :=
  meets_list (Derives .children) (fun _ => .childrenEnd) (meets_child sound)

theorem meets_term (sound : nested.IsSound) :
    (Rules.term nested).Meets (Precedes (Derives .expression)) := by
  have ofMark : ∀ {parser : Parser Node}, IsMark parser →
      parser.Meets (Precedes (Derives .expression)) := by
    intro parser isMark
    refine isMark.weaken ?_
    rintro _ _ _ _ ⟨mark, rfl⟩ _ _ rest
    exact .expressionMark mark rest
  have ofCode : plainCode.Meets (Precedes (Derives .expression)) := by
    refine meets_plainCode.weaken ?_
    rintro _ _ _ _ ⟨run, rfl⟩ _ _ rest
    exact .expressionCode run rest
  refine meets_firstOf fun parser member => ?_
  simp only [List.mem_append, List.mem_cons, List.not_mem_nil, or_false] at member
  rcases member with ((rfl | rfl | rfl | rfl | rfl) | view) | rfl | rfl | rfl
  · exact ofMark isMark_lineComment
  · exact ofMark isMark_blockComment
  · exact (ofMark isMark_regex).attempt
  · exact sound_comment.weaken fun item _ _ rest => .expressionComment item rest
  · exact (sound_value sound).weaken fun item _ _ rest => .expressionValue item rest
  · exact (sound_views sound parser view).weaken fun item _ _ rest => .expressionView item rest
  · exact ofMark (isMark_operator .slash)
  · exact ofMark (isMark_operator .lessThan)
  · exact ofCode

theorem sound_expression (sound : nested.IsSound) :
    Sound .expression (Rules.expression nested) :=
  meets_list (Derives .expression) (fun _ => .expressionEnd) (meets_term sound)

end Rules

/-! ### The grammar -/

theorem isSound_levels {bottom : Nested} (sound : bottom.IsSound) (budget : Nat) :
    (bottom.levels budget).IsSound := by
  induction budget with
  | zero => exact sound
  | succ budget ih => exact ⟨sound_expression ih, sound_children ih⟩

theorem isSound_nothing : Nested.nothing.IsSound where
  expression := meets_failHere .alternatives
  children := meets_failHere .alternatives

theorem sound_close {production : Production} {rule : Nested → Parser production.Value}
    (sound : ∀ {nested : Nested}, nested.IsSound → Sound production (rule nested)) :
    Sound production (close rule) :=
  fun cursor => sound (isSound_levels isSound_nothing _) cursor

theorem meets_program : program.Meets fun offset read back nodes =>
    Derives .expression offset read nodes ∧ back = [] := by
  refine (sound_close sound_expression).bind fun _ _ _ => meets_endOfInput.bind fun _ _ _ => ?_
  refine meets_pure ?_
  rintro _ _ - ⟨rfl, rfl⟩ rfl nodes
  rw [List.append_nil, List.append_nil]
  exact ⟨nodes, rfl⟩

theorem sound_program : Sound .program program :=
  meets_program.weaken fun ⟨nodes, _⟩ => .program nodes

/-- The parser of every production is sound for it. -/
theorem sound_production (production : Production) : Sound production production.parser := by
  cases production with
  | separator => exact sound_separator
  | comment => exact sound_comment
  | value => exact sound_close sound_value
  | attributes => exact sound_close sound_attributes
  | text => exact sound_text
  | interpolation => exact sound_close sound_interpolation
  | opening => exact sound_close sound_opening
  | reference => exact sound_close sound_reference
  | selfClosing => exact sound_close sound_selfClosing
  | element => exact sound_close sound_element
  | fragment => exact sound_close sound_fragment
  | view => exact sound_close sound_view
  | children => exact sound_close sound_children
  | expression => exact sound_close sound_expression
  | program => exact sound_program

end ViewScript.Grammar
