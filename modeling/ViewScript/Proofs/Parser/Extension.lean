/-
  ViewScript/Proofs/Parser/Extension.lean
  =======================================
  **Running a parser with more text behind.**

  A parser is run on a text, and on the same text with more behind it.  There are three
  ways in which a *stable* parser answers both.  It ends before the end of the text, and
  then it does not notice what was put behind.  Or it declines both.  Or it gets to the
  end of the text: then it can go on into what was put behind and come to something else,
  but neither answer goes back to the start.

  Parsers that are built from stable ones are stable.  The exception is `attempt`, which
  does go back to the start.
-/
import ViewScript.Proofs.Parser.Execution

namespace ViewScript

variable {α β : Type} {more : Text} {offset place left : Nat}

/-! ### Two replies -/

namespace Reply

/-- At most so many characters are left, or the failure is not at the start. -/
def Exhausts (offset left : Nat) : Reply α → Prop
  | .ok _ next => next.rest.length ≤ left
  | .fail failure => offset < failure.position

/-- The reply with its value replaced. -/
def map (f : α → β) : Reply α → Reply β
  | .ok value next => .ok (f value) next
  | .fail failure => .fail failure

/-- The ways in which a stable parser answers a text and the same text with more behind. -/
inductive Extends (more : Text) (offset : Nat) (reply longer : Reply α) : Prop
  | inside (value : α) (place : Nat) (back : Text) : back ≠ [] →
    reply = .ok value ⟨place, .chars back⟩ →
      longer = .ok value ⟨place, .chars (back ++ more)⟩ → Extends more offset reply longer
  | declined (expected expected' : Expected) : reply = .fail ⟨expected, offset⟩ →
    longer = .fail ⟨expected', offset⟩ → Extends more offset reply longer
  | across : reply.Exhausts offset 0 → longer.Exhausts offset more.length →
    Extends more offset reply longer

variable {reply longer : Reply α}

theorem Extends.ok {value : α} {back : Text} (done : reply = .ok value ⟨place, .chars back⟩)
    (done' : longer = .ok value ⟨place, .chars (back ++ more)⟩) :
    Extends more offset reply longer := by
  cases back with
  | nil =>
    subst done done'
    exact .across (Nat.le_refl 0) (Nat.le_refl more.length)
  | cons c back => exact .inside value place (c :: back) (List.cons_ne_nil c back) done done'

theorem Exhausts.mono (exhausts : reply.Exhausts place left) (later : offset ≤ place) :
    reply.Exhausts offset left := by
  cases reply with
  | ok value next => exact exhausts
  | fail failure => exact Nat.lt_of_le_of_lt later exhausts

theorem Extends.mono (extends_ : Extends more place reply longer) (later : offset ≤ place) :
    Extends more offset reply longer := by
  cases extends_ with
  | inside value place back filled done done' => exact .inside value place back filled done done'
  | across short short' => exact .across (short.mono later) (short'.mono later)
  | declined expected expected' failed failed' =>
    rcases Nat.eq_or_lt_of_le later with rfl | later
    · exact .declined expected expected' failed failed'
    · rw [failed, failed']
      exact .across later later

theorem Exhausts.map (f : α → β) (exhausts : reply.Exhausts offset left) :
    (reply.map f).Exhausts offset left := by
  cases reply with
  | ok value next => exact exhausts
  | fail failure => exact exhausts

theorem Extends.map (f : α → β) (extends_ : Extends more offset reply longer) :
    Extends more offset (reply.map f) (longer.map f) := by
  cases extends_ with
  | inside value place back filled done done' =>
    subst done done'
    exact .inside (f value) place back filled rfl rfl
  | declined expected expected' failed failed' =>
    subst failed failed'
    exact .declined expected expected' rfl rfl
  | across short short' => exact .across (short.map f) (short'.map f)

/-- The replies differ at most in the failure, and then both are at the start or neither
    is. -/
inductive Alike (offset : Nat) : Reply α → Reply α → Prop
  | same (reply : Reply α) : Alike offset reply reply
  | declined (expected expected' : Expected) :
    Alike offset (.fail ⟨expected, offset⟩) (.fail ⟨expected', offset⟩)
  | failed {failure failure' : Failure} : offset < failure.position →
    offset < failure'.position → Alike offset (.fail failure) (.fail failure')

theorem Alike.ok_iff {reply' : Reply α} {value : α} {next : Cursor}
    (alike : Alike offset reply reply') : reply = .ok value next ↔ reply' = .ok value next := by
  cases alike with
  | same => exact Iff.rfl
  | declined => simp
  | failed => simp

theorem Exhausts.congr {reply' : Reply α} (alike : Alike offset reply reply')
    (exhausts : reply.Exhausts offset left) : reply'.Exhausts offset left := by
  cases alike with
  | same => exact exhausts
  | declined expected expected' => exact absurd exhausts (Nat.lt_irrefl offset)
  | failed _ later => exact later

theorem Extends.congr {reply' longer' : Reply α} (alike : Alike offset reply reply')
    (alike' : Alike offset longer longer') (extends_ : Extends more offset reply longer) :
    Extends more offset reply' longer' := by
  have declined : ∀ {first second : Reply α} {expected : Expected}, Alike offset first second →
      first = .fail ⟨expected, offset⟩ → ∃ expected', second = .fail ⟨expected', offset⟩ := by
    rintro _ _ _ (_ | ⟨_, expected'⟩ | later) failed
    · exact ⟨_, failed⟩
    · exact ⟨expected', rfl⟩
    · cases failed
      exact absurd later (Nat.lt_irrefl offset)
  cases extends_ with
  | inside value place back filled done done' =>
    subst done done'
    cases alike
    cases alike'
    exact .inside value place back filled rfl rfl
  | declined expected expected' failed failed' =>
    obtain ⟨_, first⟩ := declined alike failed
    obtain ⟨_, second⟩ := declined alike' failed'
    exact .declined _ _ first second
  | across short short' => exact .across (short.congr alike) (short'.congr alike')

end Reply

namespace Parser

variable {parser second : Parser α} {cursor next : Cursor}

/-! ### Going on at the end -/

theorem offset_lt_of_length_lt {contract : Contract α} {value : α} (meets : parser.Meets contract)
    (done : parser cursor = .ok value next) (shorter : next.rest.length < cursor.rest.length) :
    cursor.offset < next.offset := by
  obtain ⟨read, reads, -⟩ := meets.ok done
  refine reads.offset_lt ?_
  rintro rfl
  rw [reads.rest_eq] at shorter
  exact Nat.lt_irrefl _ shorter

/-- What is read after the start, where little is left, does not go back. -/
theorem exhausts_next {contract : Contract α} (meets : parser.Meets contract)
    (later : offset < next.offset) (short : next.rest.length ≤ left) :
    (parser next).Exhausts offset left := by
  cases reply : parser next with
  | ok value last =>
    obtain ⟨read, reads, -⟩ := meets.ok reply
    have shorter : last.rest.length ≤ next.rest.length := by
      rw [reads.rest_eq, List.length_append]
      exact Nat.le_add_left _ _
    exact Nat.le_trans shorter short
  | fail failure =>
    obtain ⟨read, place, reads, position⟩ := meets.fail reply
    show offset < failure.position
    rw [position]
    exact Nat.lt_of_lt_of_le later reads.offset_le

section Exhausts

variable (reads : parser.Meets fun _ _ _ _ => True)
  (exhausts : (parser cursor).Exhausts cursor.offset left) (long : left < cursor.rest.length)

include reads exhausts long

theorem exhausts_bind {following : α → Parser β}
    (rest : ∀ value, (following value).Meets fun _ _ _ _ => True) :
    ((parser >>= following) cursor).Exhausts cursor.offset left := by
  show (Parser.bind parser following cursor).Exhausts cursor.offset left
  unfold Parser.bind
  cases reply : parser cursor with
  | ok value next =>
    rw [reply] at exhausts
    have later := offset_lt_of_length_lt reads reply (Nat.lt_of_le_of_lt exhausts long)
    exact exhausts_next (rest value) later exhausts
  | fail failure =>
    rw [reply] at exhausts
    exact exhausts

theorem exhausts_many : ((many parser) cursor).Exhausts cursor.offset left := by
  cases reply : parser cursor with
  | ok value next =>
    rw [reply] at exhausts
    have later := offset_lt_of_length_lt reads reply (Nat.lt_of_le_of_lt exhausts long)
    have others : (many parser).Meets fun _ _ _ _ => True := reads.many trivial fun _ _ => trivial
    have rest := exhausts_next others later exhausts
    rw [many_eq_of_ok reads reply (Nat.ne_of_gt later)]
    cases run : many parser next with
    | ok values last => rwa [run] at rest
    | fail failure => rwa [run] at rest
  | fail failure =>
    rw [reply] at exhausts
    rw [many_eq_fail reply (Nat.ne_of_gt exhausts)]
    exact exhausts

theorem exhausts_many1 : ((many1 parser) cursor).Exhausts cursor.offset left := by
  cases reply : parser cursor with
  | ok value next =>
    have short := exhausts
    rw [reply] at short
    have later := offset_lt_of_length_lt reads reply (Nat.lt_of_le_of_lt short long)
    rw [many1_eq_many reads reply (Nat.ne_of_gt later)]
    exact exhausts_many reads exhausts long
  | fail failure =>
    rw [reply] at exhausts
    rw [Parser.many1, reply]
    exact exhausts

end Exhausts

/-! ### Stable parsers -/

/-- The parser answers a text that is not empty and the same text with more behind in one
    of the three ways. -/
structure Stable (more : Text) (parser : Parser α) : Prop where
  reads : parser.Meets fun _ _ _ _ => True
  extend : ∀ (offset : Nat) (text : Text), text ≠ [] →
    Reply.Extends more offset (parser ⟨offset, .chars text⟩)
      (parser ⟨offset, .chars (text ++ more)⟩)

theorem stable_failHere (expected : Expected) : Stable more (failHere expected : Parser α) where
  reads := meets_failHere expected
  extend _ _ _ := .declined expected expected rfl rfl

theorem stable_pure (value : α) : Stable more (pure value : Parser α) where
  reads := meets_pure fun _ _ => trivial
  extend offset text filled := .inside value offset text filled rfl rfl

theorem length_lt_append {text : Text} (filled : text ≠ []) (more : Text) :
    more.length < (text ++ more).length := by
  have long := List.length_pos_iff.mpr filled
  rw [List.length_append]
  omega

theorem Stable.bind {following : α → Parser β} (first : Stable more parser)
    (rest : ∀ value, Stable more (following value)) : Stable more (parser >>= following) where
  reads := first.reads.bind fun _ _ value => (rest value).reads.weaken fun _ _ _ => trivial
  extend offset text filled := by
    cases first.extend offset text filled with
    | inside value place back left done done' =>
      rw [bind_of_ok done, bind_of_ok done']
      obtain ⟨read, reads, -⟩ := first.reads.ok done
      exact ((rest value).extend place back left).mono reads.offset_le
    | declined expected expected' failed failed' =>
      exact .declined expected expected' (bind_eq_fail_iff.mpr (.inl failed))
        (bind_eq_fail_iff.mpr (.inl failed'))
    | across short short' =>
      have others := fun value => (rest value).reads
      exact .across (exhausts_bind first.reads short (List.length_pos_iff.mpr filled) others)
        (exhausts_bind first.reads short' (length_lt_append filled more) others)

theorem Stable.map {f : α → β} (stable : Stable more parser) : Stable more (f <$> parser) :=
  stable.bind fun value => stable_pure (f value)

theorem Stable.spanned (stable : Stable more parser) : Stable more (spanned parser) where
  reads := stable.reads.spanned.weaken fun _ => trivial
  extend offset text filled := by
    have exhausts : ∀ {cursor : Cursor} {left : Nat}, (parser cursor).Exhausts offset left →
        (Parser.spanned parser cursor).Exhausts offset left := by
      intro cursor left short
      unfold Parser.spanned
      cases reply : parser cursor with
      | ok value next => rwa [reply] at short
      | fail failure => rwa [reply] at short
    cases stable.extend offset text filled with
    | inside value place back left done done' =>
      exact .inside ⟨offset, place⟩ place back left (by rw [Parser.spanned, done])
        (by rw [Parser.spanned, done'])
    | declined expected expected' failed failed' =>
      exact .declined expected expected' (spanned_eq_fail failed) (spanned_eq_fail failed')
    | across short short' => exact .across (exhausts short) (exhausts short')

/-! ### Choice -/

theorem exhausts_orElse (exhausts : (parser cursor).Exhausts cursor.offset left) :
    (orElse parser second cursor).Exhausts cursor.offset left := by
  cases reply : parser cursor with
  | ok value next =>
    rw [reply] at exhausts
    rw [Parser.orElse, reply]
    exact exhausts
  | fail failure =>
    rw [reply] at exhausts
    rw [orElse_eq_fail reply (Nat.ne_of_gt exhausts)]
    exact exhausts

theorem Stable.orElse (first : Stable more parser) (other : Stable more second) :
    Stable more (orElse parser second) where
  reads := first.reads.orElse other.reads
  extend offset text filled := by
    cases first.extend offset text filled with
    | inside value place back left done done' =>
      exact .inside value place back left (by rw [Parser.orElse, done])
        (by rw [Parser.orElse, done'])
    | declined expected expected' failed failed' =>
      rw [Declines.orElse ⟨expected, failed⟩, Declines.orElse ⟨expected', failed'⟩]
      exact other.extend offset text filled
    | across short short' => exact .across (exhausts_orElse short) (exhausts_orElse short')

theorem Stable.congr (stable : Stable more parser) (reads : second.Meets fun _ _ _ _ => True)
    (alike : ∀ cursor, Reply.Alike cursor.offset (parser cursor) (second cursor)) :
    Stable more second where
  reads := reads
  extend offset text filled := (stable.extend offset text filled).congr
    (alike ⟨offset, .chars text⟩) (alike ⟨offset, .chars (text ++ more)⟩)

theorem orElse_eq (committed : ¬ parser.Declines cursor) :
    orElse parser second cursor = parser cursor := by
  unfold Parser.orElse
  cases reply : parser cursor with
  | ok value next => rfl
  | fail failure =>
    refine if_neg fun here => committed ⟨failure.expected, ?_⟩
    rw [reply, ← here]

/-- A choice answers as the first alternative or else as the others, up to what it says
    was expected. -/
theorem alike_firstOf_cons (parser : Parser α) (parsers : List (Parser α)) (cursor : Cursor) :
    Reply.Alike cursor.offset (orElse parser (firstOf parsers) cursor)
      (firstOf (parser :: parsers) cursor) := by
  by_cases declines : parser.Declines cursor
  · rw [declines.orElse]
    by_cases others : (firstOf parsers).Declines cursor
    · obtain ⟨expected, failed⟩ := declines_firstOf_cons declines others
      obtain ⟨expected', failed'⟩ := others
      rw [failed, failed']
      exact .declined expected' expected
    · have single : ∀ other ∈ [parser], other.Declines cursor := by simpa using declines
      rw [show firstOf (parser :: parsers) cursor = firstOf parsers cursor from
        firstOf_append_eq single others]
      exact .same _
  · rw [firstOf_cons_eq declines, orElse_eq declines]
    exact .same _

theorem stable_firstOf {parsers : List (Parser α)}
    (stable : ∀ parser ∈ parsers, Stable more parser) : Stable more (firstOf parsers) := by
  induction parsers with
  | nil => exact stable_failHere .alternatives
  | cons parser parsers ih =>
    have others := ih fun parser member => stable parser (List.mem_cons_of_mem _ member)
    have choice := (stable parser List.mem_cons_self).orElse others
    exact choice.congr (meets_firstOf fun parser member => (stable parser member).reads)
      (alike_firstOf_cons parser parsers)

theorem Stable.optional (stable : Stable more parser) : Stable more (optional parser) where
  reads := stable.reads.optional (fun _ => trivial) trivial
  extend offset text filled := by
    have exhausts : ∀ {cursor : Cursor} {left : Nat},
        (parser cursor).Exhausts cursor.offset left →
          (Parser.optional parser cursor).Exhausts cursor.offset left := by
      intro cursor left short
      unfold Parser.optional
      cases reply : parser cursor with
      | ok value next => rwa [reply] at short
      | fail failure =>
        rw [reply] at short
        simp only [if_neg (Nat.ne_of_gt short)]
        exact short
    cases stable.extend offset text filled with
    | inside value place back left done done' =>
      exact .inside (some value) place back left (by rw [Parser.optional, done])
        (by rw [Parser.optional, done'])
    | declined expected expected' failed failed' =>
      exact .inside none offset text filled (Declines.optional ⟨expected, failed⟩)
        (Declines.optional ⟨expected', failed'⟩)
    | across short short' => exact .across (exhausts short) (exhausts short')

/-! ### Repetition -/

theorem many_of_still {value : α} (done : parser cursor = .ok value next)
    (still : next.offset = cursor.offset) : many parser cursor = .ok [value] cursor := by
  rw [Parser.many, Parser.manyWithin, done]
  exact if_pos still

theorem many_of_declines (declines : parser.Declines cursor) :
    many parser cursor = .ok [] cursor := by
  obtain ⟨expected, failed⟩ := declines
  rw [Parser.many, Parser.manyWithin, failed]
  exact if_pos rfl

theorem many_eq_map {contract : Contract α} {value : α} (meets : parser.Meets contract)
    (done : parser cursor = .ok value next) (moved : next.offset ≠ cursor.offset) :
    many parser cursor = (many parser next).map (value :: ·) := by
  rw [many_eq_of_ok meets done moved]
  cases many parser next with
  | ok values last => rfl
  | fail failure => rfl

theorem exists_cons_of_many {contract : Contract α} {value : α} {values : List α} {last : Cursor}
    (meets : parser.Meets contract) (first : parser cursor = .ok value next)
    (moved : next.offset ≠ cursor.offset) (done : many parser cursor = .ok values last) :
    ∃ later, values = value :: later ∧ many parser next = .ok later last := by
  rw [many_eq_map meets first moved] at done
  cases rest : many parser next with
  | ok later last' =>
    rw [rest] at done
    cases done
    exact ⟨later, rfl, rfl⟩
  | fail failure =>
    rw [rest] at done
    cases done

/-- A repetition does not fail at the start. -/
theorem lt_of_many_eq_fail {contract : Contract α} {failure : Failure}
    (meets : parser.Meets contract) (failed : many parser cursor = .fail failure) :
    cursor.offset < failure.position := by
  have reads : parser.Meets fun _ _ _ _ => True := meets.weaken fun _ => trivial
  cases reply : parser cursor with
  | ok value next =>
    obtain ⟨read, isRead, -⟩ := meets.ok reply
    have after := isRead.offset_le
    by_cases still : next.offset = cursor.offset
    · rw [many_of_still reply still] at failed
      cases failed
    · have others : (many parser).Meets fun _ _ _ _ => True := reads.many trivial fun _ _ => trivial
      have rest := exhausts_next others (by omega : cursor.offset < next.offset) (Nat.le_refl _)
      rw [many_eq_map meets reply still] at failed
      cases run : many parser next with
      | ok values last =>
        rw [run] at failed
        cases failed
      | fail later =>
        rw [run] at failed rest
        cases failed
        exact rest
  | fail later =>
    by_cases here : later.position = cursor.offset
    · rw [many_of_declines ⟨later.expected, by rw [reply, ← here]⟩] at failed
      cases failed
    · rw [many_eq_fail reply here] at failed
      cases failed
      obtain ⟨read, place, isRead, position⟩ := meets.fail reply
      have after := isRead.offset_le
      omega

theorem Stable.many (stable : Stable more parser) : Stable more (many parser) where
  reads := stable.reads.many trivial fun _ _ => trivial
  extend offset text filled := by
    -- An item that is not empty leaves a shorter text for the others.
    induction size : text.length using Nat.strong_induction_on generalizing offset text with
    | _ n ih =>
    subst size
    cases stable.extend offset text filled with
    | inside value place back left done done' =>
      by_cases still : place = offset
      · exact .inside [value] offset text filled (many_of_still done still)
          (many_of_still done' still)
      · have shorter : back.length < text.length := length_lt_of_moved stable.reads done still
        obtain ⟨read, reads, -⟩ := stable.reads.ok done
        have rest := (ih back.length shorter place back left rfl).mono reads.offset_le
        rw [many_eq_map stable.reads done still, many_eq_map stable.reads done' still]
        exact rest.map (value :: ·)
    | declined expected expected' failed failed' =>
      exact .inside [] offset text filled (Declines.many ⟨expected, failed⟩)
        (Declines.many ⟨expected', failed'⟩)
    | across short short' =>
      exact .across (exhausts_many stable.reads short (List.length_pos_iff.mpr filled))
        (exhausts_many stable.reads short' (length_lt_append filled more))

theorem Stable.many1 (stable : Stable more parser) : Stable more (many1 parser) where
  reads := stable.reads.many1 stable.many.reads trivial fun _ _ => trivial
  extend offset text filled := by
    cases stable.extend offset text filled with
    | inside value place back left done done' =>
      by_cases still : place = offset
      · refine .inside [value] place back left ?_ ?_
        · rw [Parser.many1, done]
          exact if_pos still
        · rw [Parser.many1, done']
          exact if_pos still
      · rw [many1_eq_many stable.reads done still, many1_eq_many stable.reads done' still]
        exact stable.many.extend offset text filled
    | declined expected expected' failed failed' =>
      exact .declined expected expected' (by rw [Parser.many1, failed])
        (by rw [Parser.many1, failed'])
    | across short short' =>
      exact .across (exhausts_many1 stable.reads short (List.length_pos_iff.mpr filled))
        (exhausts_many1 stable.reads short' (length_lt_append filled more))

/-! ### Reading characters -/

theorem stable_satisfy (expected : Expected) (test : Char → Bool) :
    Stable more (satisfy expected test) where
  reads := (meets_satisfy expected test).weaken fun _ => trivial
  extend offset text filled := by
    obtain ⟨c, rest, rfl⟩ := List.exists_cons_of_ne_nil filled
    by_cases passes : test c = true
    · exact .ok (yields_satisfy passes) (yields_satisfy passes)
    · have fails : test c = false := Bool.eq_false_iff.mpr passes
      obtain ⟨_, failed⟩ : (satisfy expected test).Declines ⟨offset, .chars (c :: rest)⟩ :=
        (startsIn_satisfy expected test).declines fails
      obtain ⟨_, failed'⟩ : (satisfy expected test).Declines ⟨offset, .chars (c :: rest ++ more)⟩ :=
        (startsIn_satisfy expected test).declines fails
      exact .declined _ _ failed failed'

theorem stable_char (c : Char) : Stable more (char c) := stable_satisfy _ _

section Break

variable {first : Char} {others : Text}

/-- A word that cannot go on with the first character behind a text starts within the text
    or not at all. -/
theorem prefix_append_iff {word text : Text} (free : first ∉ word.tail) (filled : text ≠ []) :
    word <+: text ++ first :: others ↔ word <+: text := by
  refine ⟨fun starts => ?_, fun starts => starts.trans (List.prefix_append _ _)⟩
  rcases List.prefix_or_prefix_of_prefix starts (List.prefix_append text _) with
    within | ⟨more, rfl⟩
  · exact within
  · obtain ⟨c, text, rfl⟩ := List.exists_cons_of_ne_nil filled
    rw [List.prefix_append_right_inj] at starts
    cases more with
    | nil => rw [List.append_nil]
    | cons d more =>
      obtain ⟨rfl, -⟩ := List.cons_prefix_cons.mp starts
      simp at free

theorem stable_word {text : Text} (free : first ∉ text.tail) :
    Stable (first :: others) (word text) where
  reads := (meets_word text).weaken fun _ => trivial
  extend offset rest filled := by
    by_cases starts : text <+: rest
    · obtain ⟨back, rfl⟩ := starts
      have longer : (word text).Yields offset text (back ++ first :: others) _ := yields_word text
      rw [Yields, ← List.append_assoc] at longer
      exact .ok (yields_word text) longer
    · have absent : ¬ text <+: rest ++ first :: others :=
        fun longer => starts ((prefix_append_iff free filled).mp longer)
      obtain ⟨_, failed⟩ : (word text).Declines ⟨offset, .chars rest⟩ := declines_word starts
      obtain ⟨_, failed'⟩ : (word text).Declines ⟨offset, .chars (rest ++ first :: others)⟩ :=
        declines_word absent
      exact .declined _ _ failed failed'

theorem stable_exclude {words : List Text} (free : ∀ word ∈ words, first ∉ word.tail) :
    Stable (first :: others) (exclude words) where
  reads := (meets_exclude words).weaken fun _ => trivial
  extend offset text filled := by
    by_cases starts : ∃ word ∈ words, word <+: text
    · obtain ⟨word, member, starts⟩ := starts
      have longer := starts.trans (List.prefix_append text (first :: others))
      obtain ⟨_, failed⟩ : (exclude words).Declines ⟨offset, .chars text⟩ :=
        declines_exclude member starts
      obtain ⟨_, failed'⟩ : (exclude words).Declines ⟨offset, .chars (text ++ first :: others)⟩ :=
        declines_exclude member longer
      exact .declined _ _ failed failed'
    · have absent : ∀ word ∈ words, ¬ word <+: text :=
        fun word member found => starts ⟨word, member, found⟩
      have absent' : ∀ word ∈ words, ¬ word <+: text ++ first :: others :=
        fun word member found =>
          absent word member ((prefix_append_iff (free word member) filled).mp found)
      obtain ⟨c, rest, rfl⟩ := List.exists_cons_of_ne_nil filled
      exact .ok (yields_exclude_of_forall absent) (yields_exclude_of_forall absent')

end Break

/-! ### What stable parsers do alike -/

/-- A success that leaves something of the text is one with more behind, and the other way
    round. -/
theorem Stable.ok_iff {text back : Text} {value : α} (stable : Stable more parser)
    (left : back ≠ []) : parser ⟨offset, .chars text⟩ = .ok value ⟨place, .chars back⟩ ↔
      parser ⟨offset, .chars (text ++ more)⟩ = .ok value ⟨place, .chars (back ++ more)⟩ := by
  have long := length_lt_append left more
  constructor
  · intro done
    have filled : text ≠ [] := by
      rintro rfl
      obtain ⟨read, reads, -⟩ := stable.reads.ok done
      exact left (List.append_eq_nil_iff.mp reads.rest_eq.symm).2
    cases stable.extend offset text filled with
    | inside value' place' back' _ done' longer =>
      rw [done] at done'
      cases done'
      exact longer
    | declined _ _ failed _ =>
      rw [done] at failed
      cases failed
    | across short _ =>
      rw [done] at short
      exact absurd (List.length_eq_zero_iff.mp (Nat.le_zero.mp short)) left
  · intro done
    have filled : text ≠ [] := by
      rintro rfl
      obtain ⟨read, reads, -⟩ := stable.reads.ok done
      have split := congrArg List.length (reads.rest_eq)
      simp only [Cursor.rest, List.nil_append, List.length_append] at split long
      omega
    cases stable.extend offset text filled with
    | inside value' place' back' _ shorter done' =>
      rw [done] at done'
      injection done' with isValue isNext
      injection isNext with isPlace isAhead
      injection isAhead with isBack
      rw [shorter, isValue, isPlace, List.append_cancel_right isBack]
    | declined _ _ _ failed =>
      rw [done] at failed
      cases failed
    | across _ short =>
      rw [done] at short
      exact absurd short (Nat.not_le.mpr long)

theorem not_declines_of_exhausts (exhausts : (parser cursor).Exhausts cursor.offset left) :
    ¬ parser.Declines cursor := by
  rintro ⟨expected, failed⟩
  rw [failed] at exhausts
  exact Nat.lt_irrefl _ exhausts

theorem Stable.declines_iff {text : Text} (stable : Stable more parser) (filled : text ≠ []) :
    parser.Declines ⟨offset, .chars text⟩ ↔ parser.Declines ⟨offset, .chars (text ++ more)⟩ := by
  cases stable.extend offset text filled with
  | inside value place back left done done' =>
    exact iff_of_false (not_declines_of_ok done) (not_declines_of_ok done')
  | declined expected expected' failed failed' =>
    exact iff_of_true ⟨expected, failed⟩ ⟨expected', failed'⟩
  | across short short' =>
    exact iff_of_false (not_declines_of_exhausts short) (not_declines_of_exhausts short')

end Parser

end ViewScript
