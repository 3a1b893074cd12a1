/-
  ViewScript/Proofs/Parser/Simulation.lean
  ========================================
  **One parser does what another does, some bytes further on.**

  Two parsers are compared on cursors with the same characters ahead, the second
  cursor some bytes after the first.  The second parser *follows* the first one when
  it fails where the first fails and otherwise ends where the first ends, with the
  same value, all of it shifted by these bytes.

  The comparison is limited to cursors with less than a given number of characters
  ahead.  Reading a character lowers that number, so what is nested in a parser needs
  to be compared on shorter texts only.
-/
import ViewScript.Proofs.Parser.Contract

namespace ViewScript

variable {α β : Type} {k n : Nat}

/-! ### Shifting -/

def Span.shift (k : Nat) (span : Span) : Span := ⟨span.start + k, span.stop + k⟩

def Failure.shift (k : Nat) (failure : Failure) : Failure :=
  ⟨failure.expected, failure.position + k⟩

namespace Cursor

/-- The cursor with the same characters ahead, some bytes further on. -/
def shift (k : Nat) (cursor : Cursor) : Cursor := ⟨cursor.offset + k, cursor.ahead⟩

theorem next?_shift (cursor : Cursor) :
    (cursor.shift k).next? = cursor.next?.map fun step => (step.1, step.2.shift k) := by
  obtain ⟨offset, ahead⟩ := cursor
  match ahead with
  | .chars [] => rfl
  | .chars (c :: rest) => simp [shift, next?, Nat.add_right_comm]
  | .insideChar => rfl
  | .pastEnd => rfl

theorem skip?_shift (word : Text) (cursor : Cursor) :
    (cursor.shift k).skip? word = (cursor.skip? word).map (shift k) := by
  obtain ⟨offset, ahead⟩ := cursor
  match ahead with
  | .chars rest =>
    simp only [shift, skip?, Option.map_map]
    congr 1
    funext rest
    simp [shift, Nat.add_right_comm]
  | .insideChar => rfl
  | .pastEnd => rfl

theorem startsWith_shift (cursor : Cursor) (word : Text) :
    (cursor.shift k).startsWith word = cursor.startsWith word := by
  rw [startsWith, skip?_shift, Option.isSome_map]
  rfl

end Cursor

/-! ### Following -/

namespace Parser

/-- The second parser follows the first one, `k` bytes further on, from every cursor
    with less than `n` characters ahead.  The value is shifted by `moved`, and a
    success reads at least `least` characters. -/
def Follows (k n least : Nat) (moved : α → α) (parser follower : Parser α) : Prop :=
  ∀ cursor, cursor.rest.length < n →
    (∃ value next, parser cursor = .ok value next ∧
      follower (cursor.shift k) = .ok (moved value) (next.shift k) ∧
      next.rest.length + least ≤ cursor.rest.length) ∨
    ∃ failure, parser cursor = .fail failure ∧
      follower (cursor.shift k) = .fail (failure.shift k)

variable {least : Nat} {moved : α → α} {parser follower : Parser α}

theorem Follows.mono {fewer less : Nat} (follows : Follows k n least moved parser follower)
    (shorter : fewer ≤ n) (weaker : less ≤ least) :
    Follows k fewer less moved parser follower := by
  intro cursor below
  rcases follows cursor (by omega) with ⟨value, next, done, done', short⟩ | failed
  · exact .inl ⟨value, next, done, done', by omega⟩
  · exact .inr failed

theorem Follows.weaken (follows : Follows k n least moved parser follower) :
    Follows k n 0 moved parser follower :=
  follows.mono (Nat.le_refl n) (Nat.zero_le least)

/-- A parser that follows another one on the spot agrees with it. -/
theorem Follows.apply_eq (follows : Follows 0 n least moved parser follower)
    (same : ∀ value, moved value = value) {cursor : Cursor} (below : cursor.rest.length < n) :
    parser cursor = follower cursor := by
  have here : follower (cursor.shift 0) = follower cursor := rfl
  rcases follows cursor below with ⟨value, next, done, done', -⟩ | ⟨failure, failed, failed'⟩
  · rw [done, ← here, done', same value]
    rfl
  · rw [failed, ← here, failed']
    rfl

theorem follows_failHere (expected : Expected) (moved : α → α) :
    Follows k n least moved (failHere expected) (failHere expected) :=
  fun cursor _ => .inr ⟨⟨expected, cursor.offset⟩, rfl, rfl⟩

/-! ### Sequencing -/

theorem follows_pure {value value' : α} (eq : moved value = value') :
    Follows k n 0 moved (pure value) (pure value') := by
  intro cursor _
  subst eq
  exact .inl ⟨value, cursor, rfl, rfl, Nat.le_refl _⟩

section Sequence

variable {moved' : β → β} {following following' : α → Parser β}

/-- What comes after `least` characters is compared on texts shorter by as many. -/
theorem Follows.after (first : Follows k (n + least) least moved parser follower)
    (rest : ∀ value, Follows k n 0 moved' (following value) (following' (moved value))) :
    Follows k (n + least) 0 moved' (parser >>= following) (follower >>= following') := by
  intro cursor below
  rcases first cursor below with ⟨value, middle, done, done', short⟩ | ⟨failure, failed, failed'⟩
  · rcases rest value middle (by omega) with
      ⟨result, next, final, final', shorter⟩ | ⟨failure, failed, failed'⟩
    · exact .inl ⟨result, next, bind_eq_ok_iff.mpr ⟨_, _, done, final⟩,
        bind_eq_ok_iff.mpr ⟨_, _, done', final'⟩, by omega⟩
    · exact .inr ⟨failure, bind_eq_fail_iff.mpr (.inr ⟨_, _, done, failed⟩),
        bind_eq_fail_iff.mpr (.inr ⟨_, _, done', failed'⟩)⟩
  · exact .inr ⟨failure, bind_eq_fail_iff.mpr (.inl failed), bind_eq_fail_iff.mpr (.inl failed')⟩

theorem Follows.bind (first : Follows k n least moved parser follower)
    (rest : ∀ value, Follows k n 0 moved' (following value) (following' (moved value))) :
    Follows k n 0 moved' (parser >>= following) (follower >>= following') := by
  have weaker : Follows k (n + 0) 0 moved parser follower := first.weaken
  exact weaker.after rest

theorem Follows.map {f : α → β} (follows : Follows k n least moved parser follower)
    (commutes : ∀ value, moved' (f value) = f (moved value)) :
    Follows k n 0 moved' (f <$> parser) (f <$> follower) :=
  follows.bind fun value => follows_pure (commutes value)

end Sequence

/-! ### Reading characters -/

theorem length_of_next? {cursor next : Cursor} {c : Char} (step : cursor.next? = some (c, next)) :
    next.rest.length + 1 ≤ cursor.rest.length := by
  rw [(Cursor.Reads.of_next? step).rest_eq]
  simp

theorem follows_satisfy (expected : Expected) (test : Char → Bool) :
    Follows k n 1 (Span.shift k) (satisfy expected test) (satisfy expected test) := by
  intro cursor below
  unfold satisfy
  rw [Cursor.next?_shift]
  cases step : cursor.next? with
  | none => exact follows_failHere expected _ cursor below
  | some read =>
    obtain ⟨c, next⟩ := read
    by_cases passes : test c = true
    · simp only [Option.map_some, passes, if_true]
      exact .inl ⟨_, next, rfl, rfl, length_of_next? step⟩
    · simp only [Option.map_some, passes]
      exact follows_failHere expected _ cursor below

theorem follows_char (c : Char) : Follows k n 1 (Span.shift k) (char c) (char c) :=
  follows_satisfy _ _

theorem follows_word (c : Char) (text : Text) :
    Follows k n 1 (Span.shift k) (word (c :: text)) (word (c :: text)) := by
  intro cursor below
  unfold word
  rw [Cursor.skip?_shift]
  cases found : cursor.skip? (c :: text) with
  | none => exact follows_failHere _ _ cursor below
  | some next =>
    refine .inl ⟨_, next, rfl, rfl, ?_⟩
    rw [(Cursor.Reads.of_skip? found).rest_eq]
    simp

theorem follows_exclude (words : List Text) :
    Follows k n 1 (Span.shift k) (exclude words) (exclude words) := by
  intro cursor below
  unfold exclude
  rw [Cursor.next?_shift, funext (Cursor.startsWith_shift cursor)]
  cases step : cursor.next? with
  | none => exact follows_failHere _ _ cursor below
  | some read =>
    obtain ⟨c, next⟩ := read
    cases matched : words.find? cursor.startsWith with
    | none => exact .inl ⟨_, next, rfl, rfl, length_of_next? step⟩
    | some word => exact follows_failHere _ _ cursor below

/-! ### Choice -/

/-- A failure is at the start just when the shifted one is at the shifted start. -/
theorem atStart_shift {failure : Failure} {cursor : Cursor} :
    (failure.shift k).position = (cursor.shift k).offset ↔ failure.position = cursor.offset :=
  Nat.add_right_cancel_iff

theorem Follows.orElse {second second' : Parser α}
    (first : Follows k n least moved parser follower)
    (other : Follows k n least moved second second') :
    Follows k n least moved (orElse parser second) (orElse follower second') := by
  intro cursor below
  unfold Parser.orElse
  rcases first cursor below with ⟨value, next, done, done', short⟩ | ⟨failure, failed, failed'⟩
  · rw [done, done']
    exact .inl ⟨value, next, rfl, rfl, short⟩
  · rw [failed, failed']
    simp only [atStart_shift]
    split
    · exact other cursor below
    · exact .inr ⟨failure, rfl, rfl⟩

theorem Follows.attempt (follows : Follows k n least moved parser follower) :
    Follows k n least moved (attempt parser) (attempt follower) := by
  intro cursor below
  unfold Parser.attempt
  rcases follows cursor below with ⟨value, next, done, done', short⟩ | ⟨failure, failed, failed'⟩
  · rw [done, done']
    exact .inl ⟨value, next, rfl, rfl, short⟩
  · rw [failed, failed']
    exact .inr ⟨⟨failure.expected, cursor.offset⟩, rfl, rfl⟩

theorem follows_firstOf {parsers followers : List (Parser α)}
    (follows : List.Forall₂ (Follows k n least moved) parsers followers) :
    Follows k n least moved (firstOf parsers) (firstOf followers) := by
  induction follows with
  | nil => exact follows_failHere .alternatives moved
  | cons first _ others =>
    intro cursor below
    unfold firstOf
    rcases first cursor below with ⟨value, next, done, done', short⟩ | ⟨failure, failed, failed'⟩
    · rw [done, done']
      exact .inl ⟨value, next, rfl, rfl, short⟩
    · rw [failed, failed']
      simp only [atStart_shift]
      split
      · rcases others cursor below with ⟨value, next, done, done', short⟩ | ⟨later, last, last'⟩
        · rw [done, done']
          exact .inl ⟨value, next, rfl, rfl, short⟩
        · rw [last, last']
          simp only [atStart_shift]
          split
          · exact .inr ⟨failure, rfl, rfl⟩
          · exact .inr ⟨later, rfl, rfl⟩
      · exact .inr ⟨failure, rfl, rfl⟩

theorem Follows.optional (follows : Follows k n least moved parser follower) :
    Follows k n 0 (Option.map moved) (optional parser) (optional follower) := by
  intro cursor below
  unfold Parser.optional
  rcases follows cursor below with ⟨value, next, done, done', short⟩ | ⟨failure, failed, failed'⟩
  · rw [done, done']
    exact .inl ⟨some value, next, rfl, rfl, by omega⟩
  · rw [failed, failed']
    simp only [atStart_shift]
    split
    · exact .inl ⟨none, cursor, rfl, rfl, Nat.le_refl _⟩
    · exact .inr ⟨failure, rfl, rfl⟩

/-! ### Repetition -/

/-- A run reads nothing just when the shifted one does. -/
theorem still_shift {next cursor : Cursor} :
    (next.shift k).offset = (cursor.shift k).offset ↔ next.offset = cursor.offset :=
  Nat.add_right_cancel_iff

theorem Follows.manyWithin (follows : Follows k n least moved parser follower) (bound : Text) :
    Follows k n 0 (List.map moved) (manyWithin parser bound) (manyWithin follower bound) := by
  intro cursor below
  unfold Parser.manyWithin
  rcases follows cursor below with ⟨value, next, done, done', short⟩ | ⟨failure, failed, failed'⟩
  · rw [done, done']
    simp only [still_shift]
    split
    · exact .inl ⟨[value], cursor, rfl, rfl, Nat.le_refl _⟩
    · cases bound with
      | nil => exact .inl ⟨[value], next, rfl, rfl, by omega⟩
      | cons _ bound =>
        rcases follows.manyWithin bound next (by omega) with
          ⟨values, last, rest, rest', shorter⟩ | ⟨failure, failed, failed'⟩
        · simp only [rest, rest']
          exact .inl ⟨value :: values, last, rfl, rfl, by omega⟩
        · simp only [failed, failed']
          exact .inr ⟨failure, rfl, rfl⟩
  · rw [failed, failed']
    simp only [atStart_shift]
    split
    · exact .inl ⟨[], cursor, rfl, rfl, Nat.le_refl _⟩
    · exact .inr ⟨failure, rfl, rfl⟩

theorem Follows.many (follows : Follows k n least moved parser follower) :
    Follows k n 0 (List.map moved) (many parser) (many follower) :=
  fun cursor => follows.manyWithin cursor.rest cursor

theorem Follows.many1 (follows : Follows k n least moved parser follower) :
    Follows k n 0 (List.map moved) (many1 parser) (many1 follower) := by
  intro cursor below
  unfold Parser.many1
  rcases follows cursor below with ⟨value, next, done, done', short⟩ | ⟨failure, failed, failed'⟩
  · rw [done, done']
    simp only [still_shift]
    split
    · exact .inl ⟨[value], next, rfl, rfl, by omega⟩
    · rcases follows.many next (by omega) with
        ⟨values, last, rest, rest', shorter⟩ | ⟨failure, failed, failed'⟩
      · rw [rest, rest']
        exact .inl ⟨value :: values, last, rfl, rfl, by omega⟩
      · rw [failed, failed']
        exact .inr ⟨failure, rfl, rfl⟩
  · rw [failed, failed']
    exact .inr ⟨failure, rfl, rfl⟩

/-! ### Spans -/

theorem Follows.spanned (follows : Follows k n least moved parser follower) :
    Follows k n 0 (Span.shift k) (spanned parser) (spanned follower) := by
  intro cursor below
  unfold Parser.spanned
  rcases follows cursor below with ⟨value, next, done, done', short⟩ | ⟨failure, failed, failed'⟩
  · rw [done, done']
    exact .inl ⟨_, next, rfl, rfl, by omega⟩
  · rw [failed, failed']
    exact .inr ⟨failure, rfl, rfl⟩

end Parser

end ViewScript
