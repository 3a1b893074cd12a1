/-
  ViewScript/Proofs/Json/Spelling.lean
  ====================================
  **The texts that spell a value.**

  A value has many spellings.  White space may stand around every value and every key, and
  a character of a string may stand for itself, or be escaped by a letter, by the four
  digits of its number, or by the digits of a pair of surrogates.  The relation below is
  the grammar of JSON, with the value that each text means.  Truth values and numbers are
  left out, because no configuration has one.

  The reader reads every spelling.  It leaves the white space behind a value unread, so what
  it is said to leave is the text after the value, but for white space.
-/
import ViewScript.Json.Reader

namespace ViewScript.Json

/-! ### Strings -/

/-- A digit to the base sixteen, in either case. -/
def SpellsDigit (value : Nat) (c : Char) : Prop :=
  value < 16 ∧ (c = hexDigit value ∨ c = (hexDigit value).toUpper)

instance (value : Nat) (c : Char) : Decidable (SpellsDigit value c) :=
  inferInstanceAs (Decidable (_ ∧ _))

/-- Four digits that spell a number. -/
inductive SpellsUnit : Nat → Text → Prop
  | digits {w x y z : Nat} {a b c d : Char} : SpellsDigit w a → SpellsDigit x b →
    SpellsDigit y c → SpellsDigit z d →
      SpellsUnit (((w * 16 + x) * 16 + y) * 16 + z) [a, b, c, d]

/-- The escapes by a letter, with the characters they stand for. -/
def letterEscapes : List (Char × Char) :=
  [('"', '"'), ('\\', '\\'), ('/', '/'), ('b', '\x08'), ('f', '\x0c'), ('n', '\n'), ('r', '\r'),
    ('t', '\t')]

/-- The spellings of a character between quotes. -/
inductive SpellsChar : Char → Text → Prop
  | plain {c : Char} : c ≠ '"' → c ≠ '\\' → 0x20 ≤ c.toNat → SpellsChar c [c]
  | letter {c letter : Char} : (letter, c) ∈ letterEscapes → SpellsChar c ['\\', letter]
  | unit {c : Char} {digits : Text} :
    SpellsUnit c.toNat digits → SpellsChar c ('\\' :: 'u' :: digits)
  | pair {c : Char} {first second : Nat} {digits digits' : Text} :
    SpellsUnit first digits → SpellsUnit second digits' →
      0xD800 ≤ first → first < 0xDC00 → 0xDC00 ≤ second → second < 0xE000 →
        c.toNat = 0x10000 + (first - 0xD800) * 0x400 + (second - 0xDC00) →
          SpellsChar c ('\\' :: 'u' :: digits ++ '\\' :: 'u' :: digits')

/-- The spellings of a text between quotes. -/
inductive SpellsText : Text → Text → Prop
  | nil : SpellsText [] []
  | cons {c : Char} {cs spelled more : Text} : SpellsChar c spelled → SpellsText cs more →
    SpellsText (c :: cs) (spelled ++ more)

theorem hexValue?_of_spellsDigit {value : Nat} {c : Char} (spells : SpellsDigit value c) :
    hexValue? c = some value := by
  have upper : ∀ value < 16, hexValue? (hexDigit value).toUpper = some value := by decide
  obtain ⟨small, rfl | rfl⟩ := spells
  · exact hexValue?_hexDigit value small
  · exact upper value small

theorem exists_hexUnit?_of_spellsUnit {unit : Nat} {digits : Text}
    (spells : SpellsUnit unit digits) :
    ∃ a b c d, digits = [a, b, c, d] ∧ hexUnit? a b c d = some unit := by
  obtain ⟨isW, isX, isY, isZ⟩ := spells
  refine ⟨_, _, _, _, rfl, ?_⟩
  simp [hexUnit?, hexValue?_of_spellsDigit isW, hexValue?_of_spellsDigit isX,
    hexValue?_of_spellsDigit isY, hexValue?_of_spellsDigit isZ]

section Units

variable {unit : Nat} {digits : Text} {first : Option Nat}

/-- Four digits that complete a character. -/
theorem readString_char (spells : SpellsUnit unit digits) {c : Char}
    (means : escapedUnit first unit = .char c) (rest : Text) :
    readString first ('\\' :: 'u' :: digits ++ rest) =
      (readString none rest).map fun read => (c :: read.1, read.2) := by
  obtain ⟨_, _, _, _, rfl, isUnit⟩ := exists_hexUnit?_of_spellsUnit spells
  cases found : readString none rest <;> simp [readString, isUnit, means, found]

/-- Four digits that wait for the second half of a pair. -/
theorem readString_firstHalf (spells : SpellsUnit unit digits)
    (means : escapedUnit first unit = .firstHalf unit) (rest : Text) :
    readString first ('\\' :: 'u' :: digits ++ rest) = readString (some unit) rest := by
  obtain ⟨_, _, _, _, rfl, isUnit⟩ := exists_hexUnit?_of_spellsUnit spells
  simp [readString, isUnit, means]

end Units

theorem unescape?_of_mem {letter c : Char} (member : (letter, c) ∈ letterEscapes) :
    unescape? letter = some c ∧ letter ≠ 'u' := by
  have all : ∀ escape ∈ letterEscapes, unescape? escape.1 = some escape.2 ∧ escape.1 ≠ 'u' := by
    decide
  exact all _ member

/-- A character is not a surrogate. -/
theorem escapedUnit_toNat (c : Char) : escapedUnit none c.toNat = .char c := by
  have valid : c.toNat < 0xD800 ∨ 0xDFFF < c.toNat ∧ c.toNat < 0x110000 := c.valid
  rw [escapedUnit, if_neg (by omega), if_neg (by omega), Char.ofNat_toNat]

/-- A character is read from each of its spellings. -/
theorem readString_of_spellsChar {c : Char} {spelled : Text} (spells : SpellsChar c spelled)
    (rest : Text) :
    readString none (spelled ++ rest) =
      (readString none rest).map fun read => (c :: read.1, read.2) := by
  cases spells with
  | plain notQuote notBackslash printable =>
    have control : ¬ c.toNat < 0x20 := by omega
    cases found : readString none rest <;> simp [readString, notBackslash, control, found]
  | letter member =>
    obtain ⟨isEscape, notU⟩ := unescape?_of_mem member
    cases found : readString none rest <;> simp [readString, isEscape, notU, found]
  | unit spells => exact readString_char spells (escapedUnit_toNat c) rest
  | @pair first second digits digits' spells spells' low high low' high' isPair =>
    have half : escapedUnit none first = .firstHalf first := by
      rw [escapedUnit, if_pos ⟨low, high⟩]
    have whole : escapedUnit (some first) second = .char c := by
      rw [escapedUnit, if_pos ⟨low', high'⟩, ← isPair, Char.ofNat_toNat]
    rw [List.append_assoc, readString_firstHalf spells half]
    exact readString_char spells' whole rest

/-- A string is read up to its closing quote. -/
theorem readString_of_spellsText {text spelled : Text} (spells : SpellsText text spelled)
    (rest : Text) : readString none (spelled ++ '"' :: rest) = some (text, rest) := by
  induction spells with
  | nil => simp [readString]
  | cons first _ ih =>
    rw [List.append_assoc, readString_of_spellsChar first, ih]
    rfl

/-! ### The grammar -/

/-- What a part of a document means. -/
inductive Phrase where
  | value (json : Json)
  /-- A value with white space around it. -/
  | element (json : Json)
  | elements (items : List Json)
  | member (key : Text) (json : Json)
  | members (members : List (Text × Json))

def IsSpace (text : Text) : Prop := ∀ c ∈ text, isSpace c = true

/-- The grammar of JSON, without numbers and truth values: a text spells a phrase. -/
inductive Spells : Phrase → Text → Prop
  | null : Spells (.value .null) ['n', 'u', 'l', 'l']
  | string {text spelled : Text} : SpellsText text spelled →
    Spells (.value (.string text)) ('"' :: (spelled ++ ['"']))
  | emptyArray {space : Text} : IsSpace space → Spells (.value (.array [])) ('[' :: (space ++ [']']))
  | array {items : List Json} {body : Text} : Spells (.elements items) body →
    Spells (.value (.array items)) ('[' :: (body ++ [']']))
  | emptyObject {space : Text} : IsSpace space →
    Spells (.value (.object [])) ('\x7b' :: (space ++ ['\x7d']))
  | object {members : List (Text × Json)} {body : Text} : Spells (.members members) body →
    Spells (.value (.object members)) ('\x7b' :: (body ++ ['\x7d']))
  | element {json : Json} {before text after : Text} : IsSpace before → Spells (.value json) text →
    IsSpace after → Spells (.element json) (before ++ (text ++ after))
  | lastElement {json : Json} {text : Text} : Spells (.element json) text →
    Spells (.elements [json]) text
  | nextElement {json : Json} {items : List Json} {text body : Text} :
    Spells (.element json) text → Spells (.elements items) body →
      Spells (.elements (json :: items)) (text ++ ',' :: body)
  | member {key spelled : Text} {json : Json} {before after text : Text} : IsSpace before →
    SpellsText key spelled → IsSpace after → Spells (.element json) text →
      Spells (.member key json) (before ++ '"' :: (spelled ++ '"' :: (after ++ ':' :: text)))
  | lastMember {key : Text} {json : Json} {text : Text} : Spells (.member key json) text →
    Spells (.members [(key, json)]) text
  | nextMember {key : Text} {json : Json} {members : List (Text × Json)} {text body : Text} :
    Spells (.member key json) text → Spells (.members members) body →
      Spells (.members ((key, json) :: members)) (text ++ ',' :: body)

/-! ### White space -/

theorem skipSpace_append {space : Text} (isSpace : IsSpace space) (rest : Text) :
    skipSpace (space ++ rest) = skipSpace rest :=
  List.dropWhile_append_of_pos isSpace

theorem skipSpace_cons {c : Char} (solid : isSpace c = false) (rest : Text) :
    skipSpace (c :: rest) = c :: rest := by
  simp [skipSpace, solid]

/-- White space is skipped up to the next mark. -/
theorem skipSpace_mark {space : Text} (isSpace : IsSpace space) {c : Char}
    (solid : Json.isSpace c = false) (rest : Text) : skipSpace (space ++ c :: rest) = c :: rest := by
  rw [skipSpace_append isSpace]
  exact skipSpace_cons solid rest

/-- What is skipped is white space. -/
theorem exists_space (text : Text) : ∃ space, IsSpace space ∧ text = space ++ skipSpace text := by
  refine ⟨text.takeWhile isSpace, ?_, List.takeWhile_append_dropWhile.symm⟩
  intro c member
  exact List.all_eq_true.mp List.all_takeWhile c member

theorem readValue_space {space : Text} (isSpace : IsSpace space) (steps : Nat) (rest : Text) :
    readValue steps (space ++ rest) = readValue steps rest := by
  cases steps with
  | zero => simp only [readValue]
  | succ steps => simp only [readValue, skipSpace_append isSpace]

/-- The first character of a value is no white space and closes nothing. -/
theorem exists_cons_of_spells {json : Json} {text : Text} (spells : Spells (.value json) text) :
    ∃ c cs, text = c :: cs ∧ isSpace c = false ∧ c ≠ ']' := by
  cases spells with
  | null => exact ⟨_, _, rfl, by decide, by decide⟩
  | string => exact ⟨_, _, rfl, by decide, by decide⟩
  | emptyArray => exact ⟨_, _, rfl, by decide, by decide⟩
  | array => exact ⟨_, _, rfl, by decide, by decide⟩
  | emptyObject => exact ⟨_, _, rfl, by decide, by decide⟩
  | object => exact ⟨_, _, rfl, by decide, by decide⟩

theorem skipSpace_element {json : Json} {text : Text} (spells : Spells (.element json) text)
    (rest : Text) : ∃ c cs, skipSpace (text ++ rest) = c :: cs ∧ c ≠ ']' := by
  cases spells with
  | element isBefore spells isAfter =>
    obtain ⟨c, cs, rfl, solid, notClosed⟩ := exists_cons_of_spells spells
    rw [List.append_assoc]
    exact ⟨c, _, skipSpace_mark isBefore solid _, notClosed⟩

theorem skipSpace_elements {items : List Json} {text : Text} (spells : Spells (.elements items) text)
    (rest : Text) : ∃ c cs, skipSpace (text ++ rest) = c :: cs ∧ c ≠ ']' := by
  cases spells with
  | lastElement spells => exact skipSpace_element spells rest
  | nextElement spells =>
    rw [List.append_assoc]
    exact skipSpace_element spells _

theorem skipSpace_member {key : Text} {json : Json} {text : Text}
    (spells : Spells (.member key json) text) (rest : Text) :
    ∃ cs, skipSpace (text ++ rest) = '"' :: cs := by
  cases spells with
  | member isBefore =>
    rw [List.append_assoc]
    exact ⟨_, skipSpace_mark isBefore (by decide) _⟩

theorem skipSpace_members {members : List (Text × Json)} {text : Text}
    (spells : Spells (.members members) text) (rest : Text) :
    ∃ cs, skipSpace (text ++ rest) = '"' :: cs := by
  cases spells with
  | lastMember spells => exact skipSpace_member spells rest
  | nextMember spells =>
    rw [List.append_assoc]
    exact skipSpace_member spells _

/-! ### What the reader does at each mark -/

section Marks

variable (steps : Nat) (rest : Text)

theorem readValue_skipSpace (text : Text) :
    readValue steps (skipSpace text) = readValue steps text := by
  obtain ⟨space, isSpace, whole⟩ := exists_space text
  rw [← readValue_space isSpace steps (skipSpace text), ← whole]

theorem readItems_skipSpace (text : Text) :
    readItems steps (skipSpace text) = readItems steps text := by
  cases steps with
  | zero => simp only [readItems]
  | succ steps => simp only [readItems, readValue_skipSpace]

theorem readMembers_skipSpace (text : Text) :
    readMembers steps (skipSpace text) = readMembers steps text := by
  obtain ⟨space, isSpace, whole⟩ := exists_space text
  have again : skipSpace (skipSpace text) = skipSpace text := by
    rw [← skipSpace_append isSpace (skipSpace text), ← whole]
  cases steps with
  | zero => simp only [readMembers]
  | succ steps => simp only [readMembers, again]

theorem readValue_null :
    readValue (steps + 1) ('n' :: 'u' :: 'l' :: 'l' :: rest) = some (.null, rest) := by
  simp [readValue, skipSpace, isSpace]

theorem readValue_quote :
    readValue (steps + 1) ('"' :: rest) =
      (readString none rest).map fun read => (.string read.1, read.2) := by
  simp [readValue, skipSpace, isSpace]

theorem readValue_emptyArray {after : Text} (closed : skipSpace rest = ']' :: after) :
    readValue (steps + 1) ('[' :: rest) = some (.array [], after) := by
  simp [readValue, skipSpace_cons, isSpace, closed]

theorem readValue_array {c : Char} {cs : Text} (opened : skipSpace rest = c :: cs)
    (notClosed : c ≠ ']') :
    readValue (steps + 1) ('[' :: rest) =
      (readItems steps rest).map fun read => (.array read.1, read.2) := by
  rw [← readItems_skipSpace steps rest]
  simp [readValue, skipSpace_cons, isSpace, opened, notClosed]

theorem readValue_emptyObject {after : Text} (closed : skipSpace rest = '\x7d' :: after) :
    readValue (steps + 1) ('\x7b' :: rest) = some (.object [], after) := by
  simp [readValue, skipSpace_cons, isSpace, closed]

theorem readValue_object {cs : Text} (opened : skipSpace rest = '"' :: cs) :
    readValue (steps + 1) ('\x7b' :: rest) =
      (readMembers steps rest).map fun read => (.object read.1, read.2) := by
  rw [← readMembers_skipSpace steps rest]
  simp [readValue, skipSpace_cons, isSpace, opened]

variable {text space : Text} {json : Json}

theorem readItems_next (isSpace : IsSpace space)
    (read : readValue steps text = some (json, space ++ ',' :: rest)) :
    readItems (steps + 1) text =
      (readItems steps rest).map fun read => (json :: read.1, read.2) := by
  have comma := skipSpace_mark isSpace (c := ',') (by decide) rest
  simp [readItems, read, comma]

theorem readItems_last (isSpace : IsSpace space)
    (read : readValue steps text = some (json, space ++ ']' :: rest)) :
    readItems (steps + 1) text = some ([json], rest) := by
  have closed := skipSpace_mark isSpace (c := ']') (by decide) rest
  simp [readItems, read, closed]

variable {quoted key after value : Text}

theorem readMembers_next (opened : skipSpace text = '"' :: quoted)
    (isKey : readString none quoted = some (key, after)) (colon : skipSpace after = ':' :: value)
    (isSpace : IsSpace space) (read : readValue steps value = some (json, space ++ ',' :: rest)) :
    readMembers (steps + 1) text =
      (readMembers steps rest).map fun read => ((key, json) :: read.1, read.2) := by
  have comma := skipSpace_mark isSpace (c := ',') (by decide) rest
  simp [readMembers, opened, isKey, colon, read, comma]

theorem readMembers_last (opened : skipSpace text = '"' :: quoted)
    (isKey : readString none quoted = some (key, after)) (colon : skipSpace after = ':' :: value)
    (isSpace : IsSpace space) (read : readValue steps value = some (json, space ++ '\x7d' :: rest)) :
    readMembers (steps + 1) text = some ([(key, json)], rest) := by
  have closed := skipSpace_mark isSpace (c := '\x7d') (by decide) rest
  simp [readMembers, opened, isKey, colon, read, closed]

end Marks

/-! ### Every spelling is read -/

/-- What it means that a phrase is read from a text, whatever follows the text.  Two steps
    for each character are enough, and one more for a list. -/
def Phrase.IsRead : Phrase → Text → Prop
  | .value json, text => ∀ steps rest, 2 * text.length ≤ steps →
    readValue steps (text ++ rest) = some (json, rest)
  | .element json, text => ∀ steps rest, 2 * text.length ≤ steps →
    ∃ space, IsSpace space ∧ readValue steps (text ++ rest) = some (json, space ++ rest)
  | .elements items, text => ∀ steps rest, 2 * text.length < steps →
    readItems steps (text ++ ']' :: rest) = some (items, rest)
  | .member key json, text => ∀ steps rest, 2 * text.length ≤ steps →
    readMembers (steps + 1) (text ++ ',' :: rest) =
      (readMembers steps rest).map (fun read => ((key, json) :: read.1, read.2)) ∧
    readMembers (steps + 1) (text ++ '\x7d' :: rest) = some ([(key, json)], rest)
  | .members list, text => ∀ steps rest, 2 * text.length < steps →
    readMembers steps (text ++ '\x7d' :: rest) = some (list, rest)

theorem exists_steps {steps : Nat} {c : Char} {cs : Text} (enough : 2 * (c :: cs).length ≤ steps) :
    ∃ fewer, steps = fewer + 1 ∧ 2 * cs.length < fewer := by
  rw [List.length_cons] at enough
  exact ⟨steps - 1, by omega, by omega⟩

/-- **Every spelling is read**, as what it spells. -/
theorem isRead_of_spells {phrase : Phrase} {text : Text} (spells : Spells phrase text) :
    phrase.IsRead text := by
  induction spells with
  | null =>
    intro steps rest enough
    obtain ⟨steps, rfl, -⟩ := exists_steps enough
    exact readValue_null steps rest
  | string spells =>
    intro steps rest enough
    obtain ⟨steps, rfl, -⟩ := exists_steps enough
    rw [List.cons_append, List.append_assoc, readValue_quote]
    rw [List.singleton_append, readString_of_spellsText spells]
    rfl
  | emptyArray isSpace =>
    intro steps rest enough
    obtain ⟨steps, rfl, -⟩ := exists_steps enough
    rw [List.cons_append, List.append_assoc, List.singleton_append]
    exact readValue_emptyArray steps _ (skipSpace_mark isSpace (by decide) rest)
  | @array items body spells ih =>
    intro steps rest enough
    obtain ⟨steps, rfl, fewer⟩ := exists_steps enough
    rw [List.length_append] at fewer
    obtain ⟨c, cs, opened, notClosed⟩ := skipSpace_elements spells (']' :: rest)
    rw [List.cons_append, List.append_assoc, List.singleton_append,
      readValue_array _ _ opened notClosed, ih steps rest (by omega)]
    rfl
  | emptyObject isSpace =>
    intro steps rest enough
    obtain ⟨steps, rfl, -⟩ := exists_steps enough
    rw [List.cons_append, List.append_assoc, List.singleton_append]
    exact readValue_emptyObject steps _ (skipSpace_mark isSpace (by decide) rest)
  | @object members body spells ih =>
    intro steps rest enough
    obtain ⟨steps, rfl, fewer⟩ := exists_steps enough
    rw [List.length_append] at fewer
    obtain ⟨cs, opened⟩ := skipSpace_members spells ('\x7d' :: rest)
    rw [List.cons_append, List.append_assoc, List.singleton_append,
      readValue_object _ _ opened, ih steps rest (by omega)]
    rfl
  | @element json before text after isBefore spells isAfter ih =>
    intro steps rest enough
    refine ⟨after, isAfter, ?_⟩
    simp only [List.length_append] at enough
    rw [List.append_assoc, readValue_space isBefore, List.append_assoc]
    exact ih steps _ (by omega)
  | lastElement spells ih =>
    intro steps rest enough
    obtain ⟨steps, rfl⟩ := Nat.exists_eq_add_one_of_ne_zero (Nat.ne_zero_of_lt enough)
    obtain ⟨space, isSpace, read⟩ := ih steps (']' :: rest) (Nat.le_of_lt_succ enough)
    exact readItems_last steps rest isSpace read
  | nextElement spells more ih ihMore =>
    intro steps rest enough
    obtain ⟨steps, rfl⟩ := Nat.exists_eq_add_one_of_ne_zero (Nat.ne_zero_of_lt enough)
    simp only [List.length_append, List.length_cons] at enough
    obtain ⟨space, isSpace, read⟩ := ih steps _ (by omega)
    rw [List.append_assoc, List.cons_append, readItems_next steps _ isSpace read,
      ihMore steps rest (by omega)]
    rfl
  | @member key spelled json before after text isBefore isKey isAfter spells ih =>
    intro steps rest enough
    simp only [List.length_append, List.length_cons] at enough
    have opened : ∀ more, skipSpace (before ++ '"' :: (spelled ++ '"' :: (after ++ ':' :: text)) ++
        more) = '"' :: (spelled ++ '"' :: (after ++ ':' :: (text ++ more))) := by
      intro more
      rw [List.append_assoc]
      simpa using skipSpace_mark isBefore (by decide) _
    have colon : ∀ more, skipSpace (after ++ ':' :: more) = ':' :: more :=
      skipSpace_mark isAfter (by decide)
    constructor
    · obtain ⟨space, isSpace, read⟩ := ih steps (',' :: rest) (by omega)
      exact readMembers_next steps rest (opened _) (readString_of_spellsText isKey _) (colon _)
        isSpace read
    · obtain ⟨space, isSpace, read⟩ := ih steps ('\x7d' :: rest) (by omega)
      exact readMembers_last steps rest (opened _) (readString_of_spellsText isKey _) (colon _)
        isSpace read
  | lastMember spells ih =>
    intro steps rest enough
    obtain ⟨steps, rfl⟩ := Nat.exists_eq_add_one_of_ne_zero (Nat.ne_zero_of_lt enough)
    exact (ih steps rest (Nat.le_of_lt_succ enough)).2
  | nextMember spells more ih ihMore =>
    intro steps rest enough
    obtain ⟨steps, rfl⟩ := Nat.exists_eq_add_one_of_ne_zero (Nat.ne_zero_of_lt enough)
    simp only [List.length_append, List.length_cons] at enough
    rw [List.append_assoc, List.cons_append, (ih steps _ (by omega)).1, ihMore steps rest (by omega)]
    rfl

/-- A document is read from every spelling. -/
theorem read?_of_spells {json : Json} {text : Text} (spells : Spells (.element json) text) :
    read? text = some json := by
  obtain ⟨space, isSpace, read⟩ := isRead_of_spells spells (2 * text.length + 2) [] (by omega)
  have nothing : skipSpace (space ++ []) = [] := skipSpace_append isSpace []
  rw [List.append_nil] at read
  unfold read?
  rw [read]
  exact if_pos nothing

/-! ### What is written is a spelling -/

theorem spellsChar_escapeChar (c : Char) : SpellsChar c (escapeChar c) := by
  fun_cases escapeChar c with
  | case1 | case2 | case3 | case4 | case5 | case6 | case7 =>
    subst_vars
    exact .letter (by decide)
  | case8 _ _ _ _ _ _ _ control =>
    apply SpellsChar.unit
    have digits := SpellsUnit.digits (w := 0) (x := 0) ⟨by decide, .inl rfl⟩ ⟨by decide, .inl rfl⟩
      ⟨show c.toNat / 16 < 16 by omega, .inl rfl⟩ ⟨show c.toNat % 16 < 16 by omega, .inl rfl⟩
    have number : ((0 * 16 + 0) * 16 + c.toNat / 16) * 16 + c.toNat % 16 = c.toNat := by omega
    rw [number] at digits
    exact digits
  | case9 quote backslash _ _ _ _ _ printable => exact .plain quote backslash (by omega)

theorem spellsText_flatMap_escapeChar (text : Text) : SpellsText text (text.flatMap escapeChar) := by
  induction text with
  | nil => exact .nil
  | cons c cs ih => exact .cons (spellsChar_escapeChar c) ih

theorem spells_string (text : Text) (level : Nat) :
    Spells (.value (.string text)) ((Json.string text).writeAt level) :=
  .string (spellsText_flatMap_escapeChar text)

theorem isSpace_newLine (level : Nat) : IsSpace (newLine level) := by
  intro c member
  rcases List.mem_cons.mp member with rfl | member
  · decide
  · rw [List.eq_of_mem_replicate member]
    decide

theorem isSpace_nil : IsSpace [] := by
  intro c member
  cases member

section Lists

variable {level : Nat} {before space after : Text}

theorem spells_elements (isSpace : IsSpace space) (isAfter : IsSpace after) {items : List Json}
    (some : items ≠ [])
    (each : ∀ item ∈ items, Spells (.value item) (item.writeAt level)) (isBefore : IsSpace before) :
    Spells (.elements items)
      (before ++ (Text.join (',' :: space) (writeItems level items) ++ after)) := by
  induction items generalizing before with
  | nil => exact (some rfl).elim
  | cons item items ih =>
    have spells := each item List.mem_cons_self
    cases items with
    | nil => exact .lastElement (.element isBefore spells isAfter)
    | cons next items =>
      have more := ih (by simp)
        (fun other member => each other (List.mem_cons_of_mem _ member)) isSpace
      have whole := Spells.nextElement (.element isBefore spells isSpace_nil) more
      simpa [writeItems, Text.join] using whole

theorem spells_members (isSpace : IsSpace space) (isAfter : IsSpace after)
    {members : List (Text × Json)} (some : members ≠ [])
    (each : ∀ member ∈ members, Spells (.value member.2) (member.2.writeAt level))
    (isBefore : IsSpace before) :
    Spells (.members members)
      (before ++ (Text.join (',' :: space) (writeMembers level members) ++ after)) := by
  induction members generalizing before with
  | nil => exact (some rfl).elim
  | cons member members ih =>
    obtain ⟨key, json⟩ := member
    have blank : IsSpace [' '] := by
      intro c member
      rw [List.mem_singleton.mp member]
      decide
    have pair : ∀ {after : Text}, IsSpace after → Spells (.member key json)
        (before ++ (writeString key ++ (": ".toList ++ (json.writeAt level ++ after)))) := by
      intro after isAfter
      have spells := Spells.member isBefore (spellsText_flatMap_escapeChar key) isSpace_nil
        (.element blank (each _ List.mem_cons_self) isAfter)
      simpa [writeString, Text.quoted] using spells
    cases members with
    | nil => simpa [writeMembers, Text.join] using Spells.lastMember (pair isAfter)
    | cons next members =>
      have more := ih (by simp)
        (fun other member => each other (List.mem_cons_of_mem _ member)) isSpace
      have whole := Spells.nextMember (pair isSpace_nil) more
      simpa [writeMembers, Text.join] using whole

end Lists

theorem spells_array {items : List Json} {level : Nat}
    (each : ∀ item ∈ items, Spells (.value item) (item.writeAt (level + 1))) :
    Spells (.value (.array items)) ((Json.array items).writeAt level) := by
  cases items with
  | nil => exact .emptyArray isSpace_nil
  | cons item items =>
    have body := spells_elements (isSpace_newLine (level + 1)) (isSpace_newLine level) (by simp) each
      (isSpace_newLine (level + 1))
    simpa [writeAt, bracketed, writeItems] using Spells.array body

theorem spells_object {members : List (Text × Json)} {level : Nat}
    (each : ∀ member ∈ members, Spells (.value member.2) (member.2.writeAt (level + 1))) :
    Spells (.value (.object members)) ((Json.object members).writeAt level) := by
  cases members with
  | nil => exact .emptyObject isSpace_nil
  | cons member members =>
    have body := spells_members (isSpace_newLine (level + 1)) (isSpace_newLine level) (by simp) each
      (isSpace_newLine (level + 1))
    simpa [writeAt, bracketed, writeMembers] using Spells.object body

end ViewScript.Json
