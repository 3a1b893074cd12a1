/-
  ViewScript/Text/Basic.lean
  ==========================
  **Text and byte offsets.**

  A text is a list of characters.  Every offset of this library counts the bytes
  of the text's UTF-8 form, because that is how positions are reported.  An
  offset therefore may fall inside a character, or past the end; cutting a text
  at such an offset gives `none`.

  The two cuts `dropBytes?` and `takeBytes?` are inverse to appending: cutting
  `front ++ back` at `byteSize front` gives back `back` and `front`.
-/

namespace ViewScript

/-- A text, as the list of its characters. -/
abbrev Text := List Char

/-- A literal stands for its characters. -/
instance : Coe String Text := ⟨String.toList⟩

namespace Text

/-- The number of bytes of a text in UTF-8. -/
def byteSize : Text → Nat
  | [] => 0
  | c :: cs => c.utf8Size + byteSize cs

/-- What follows the first `n` bytes; `none` if they end inside a character or
    there are fewer. -/
def dropBytes? : Nat → Text → Option Text
  | 0, cs => some cs
  | _ + 1, [] => none
  | n + 1, c :: cs =>
    if c.utf8Size ≤ n + 1 then dropBytes? (n + 1 - c.utf8Size) cs else none

/-- The first `n` bytes; `none` if they end inside a character or there are
    fewer. -/
def takeBytes? : Nat → Text → Option Text
  | 0, _ => some []
  | _ + 1, [] => none
  | n + 1, c :: cs =>
    if c.utf8Size ≤ n + 1 then (takeBytes? (n + 1 - c.utf8Size) cs).map (c :: ·) else none

/-- An offset is a boundary when it does not split a character and is not past
    the end. -/
def IsBoundary (text : Text) (offset : Nat) : Prop := (dropBytes? offset text).isSome

instance (text : Text) (offset : Nat) : Decidable (IsBoundary text offset) :=
  inferInstanceAs (Decidable ((dropBytes? offset text).isSome = true))

/-- Put a text between double quotes. -/
def quoted (text : Text) : Text := '"' :: text ++ ['"']

/-- Write texts one after the other with `separator` between neighbours. -/
def join (separator : Text) : List Text → Text
  | [] => []
  | [text] => text
  | text :: texts => text ++ separator ++ join separator texts

/-- A text of `count` blanks. -/
def blanks (count : Nat) : Text := List.replicate count ' '

/-- Fill a text with blanks on the left up to `width` characters. -/
def alignRight (width : Nat) (text : Text) : Text := blanks (width - text.length) ++ text

/-- The decimal digits of a number. -/
def ofNat (n : Nat) : Text := Nat.toDigits 10 n

/-! ### Byte sizes and cuts -/

@[simp] theorem byteSize_nil : byteSize [] = 0 := rfl

@[simp] theorem byteSize_cons (c : Char) (cs : Text) :
    byteSize (c :: cs) = c.utf8Size + byteSize cs := rfl

@[simp] theorem byteSize_append (front back : Text) :
    byteSize (front ++ back) = byteSize front + byteSize back := by
  induction front with
  | nil => simp
  | cons c cs ih => simp [ih, Nat.add_assoc]

/-- Every character takes a byte or more. -/
theorem length_le_byteSize (text : Text) : text.length ≤ byteSize text := by
  induction text with
  | nil => simp
  | cons c cs ih =>
    have positive := c.utf8Size_pos
    simp only [byteSize_cons, List.length_cons]
    omega

@[simp] theorem dropBytes?_zero (text : Text) : dropBytes? 0 text = some text := by
  cases text <;> rfl

@[simp] theorem takeBytes?_zero (text : Text) : takeBytes? 0 text = some [] := by
  cases text <;> rfl

/-- Going past a whole character leaves the cut of the rest. -/
theorem dropBytes?_cons (c : Char) (cs : Text) (n : Nat) :
    dropBytes? (c.utf8Size + n) (c :: cs) = dropBytes? n cs := by
  have positive := c.utf8Size_pos
  obtain ⟨k, hk⟩ : ∃ k, c.utf8Size + n = k + 1 := ⟨c.utf8Size + n - 1, by omega⟩
  rw [hk, dropBytes?, if_pos (by omega)]
  congr 1
  omega

theorem takeBytes?_cons (c : Char) (cs : Text) (n : Nat) :
    takeBytes? (c.utf8Size + n) (c :: cs) = (takeBytes? n cs).map (c :: ·) := by
  have positive := c.utf8Size_pos
  obtain ⟨k, hk⟩ : ∃ k, c.utf8Size + n = k + 1 := ⟨c.utf8Size + n - 1, by omega⟩
  rw [hk, takeBytes?, if_pos (by omega)]
  congr 2
  omega

/-- Cutting after `front` leaves `back`. -/
@[simp] theorem dropBytes?_append (front back : Text) :
    dropBytes? (byteSize front) (front ++ back) = some back := by
  induction front with
  | nil => simp
  | cons c cs ih => simp [dropBytes?_cons, ih]

/-- Cutting after `front` gives `front`. -/
@[simp] theorem takeBytes?_append (front back : Text) :
    takeBytes? (byteSize front) (front ++ back) = some front := by
  induction front with
  | nil => simp
  | cons c cs ih => simp [takeBytes?_cons, ih]

/-- A cut that succeeds splits the text at the offset. -/
theorem exists_append_of_dropBytes? {n : Nat} {text back : Text}
    (h : dropBytes? n text = some back) :
    ∃ front, text = front ++ back ∧ byteSize front = n := by
  fun_induction dropBytes? n text with
  | case1 cs => exact ⟨[], by simpa using h, rfl⟩
  | case2 => cases h
  | case3 n c cs fits ih =>
    obtain ⟨front, rfl, size⟩ := ih h
    exact ⟨c :: front, rfl, by simp only [byteSize_cons, size]; omega⟩
  | case4 => cases h

/-! ### Joining -/

/-- What the first text starts with, the joined text starts with. -/
theorem join_cons_append (separator front text : Text) (texts : List Text) :
    join separator ((front ++ text) :: texts) = front ++ join separator (text :: texts) := by
  cases texts <;> simp [join]

end Text

end ViewScript
