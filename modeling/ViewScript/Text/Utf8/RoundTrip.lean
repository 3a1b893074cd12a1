/-
  ViewScript/Text/Utf8/RoundTrip.lean
  ===================================
  **Reading what was written.**

  The bytes of a text hold no broken part, and the characters they are cut into are
  those of the text.  So both readers give back every text that was written.
-/
import ViewScript.Text.Utf8

namespace ViewScript.Utf8

/-! ### One byte -/

/-- The first byte of a character of several bytes. -/
theorem parts_begin {byte : UInt8} {begun : Begun} (more : start byte.toNat = .more begun)
    (rest : Bytes) : parts none (byte :: rest) = parts (some begun) rest := by
  simp only [parts, more]

/-- A byte in range that is not the last one of its character. -/
theorem parts_next {bits missing low high : Nat} {byte : UInt8}
    (inside : low ≤ byte.toNat ∧ byte.toNat ≤ high) (more : 1 < missing) (rest : Bytes) :
    parts (some ⟨bits, missing, low, high⟩) (byte :: rest) =
      parts (some ⟨bits * 64 + (byte.toNat - 0x80), missing - 1, 0x80, 0xBF⟩) rest := by
  rw [parts, if_pos inside, if_neg (by omega)]

/-- The last byte of a character. -/
theorem parts_last {bits low high : Nat} {byte : UInt8}
    (inside : low ≤ byte.toNat ∧ byte.toNat ≤ high) (rest : Bytes) :
    parts (some ⟨bits, 1, low, high⟩) (byte :: rest) =
      some (Char.ofNat (bits * 64 + (byte.toNat - 0x80))) :: parts none rest := by
  rw [parts, if_pos inside, if_pos (by omega)]

/-! ### The first byte of a character -/

theorem toNat_ofNat_of_lt {n : Nat} (small : n < 256) : (UInt8.ofNat n).toNat = n := by
  simpa using small

theorem start_two {v : Nat} (low : 0x80 ≤ v) (high : v < 0x800) :
    start (v / 64 + 0xC0) = .more ⟨v / 64, 1, 0x80, 0xBF⟩ := by
  rw [start, if_neg (by omega), if_neg (by omega), if_pos (by omega), Nat.add_sub_cancel]

/-- The second of three bytes is in the range that the first one leaves to it. -/
theorem start_three {v : Nat} (low : 0x800 ≤ v) (high : v < 0x10000)
    (valid : v < 0xD800 ∨ 0xDFFF < v) :
    ∃ least most, start (v / 4096 + 0xE0) = .more ⟨v / 4096, 2, least, most⟩ ∧
      least ≤ v / 64 % 64 + 0x80 ∧ v / 64 % 64 + 0x80 ≤ most := by
  unfold start
  rw [if_neg (by omega), if_neg (by omega), if_neg (by omega)]
  by_cases first : v / 4096 = 0
  · exact ⟨0xA0, 0xBF, by simp [first], by omega⟩
  by_cases surrogates : v / 4096 = 0x0D
  · exact ⟨0x80, 0x9F, by simp [surrogates], by omega⟩
  · refine ⟨0x80, 0xBF, ?_, by omega⟩
    rw [if_neg (by omega), if_neg (by omega), if_pos (by omega), Nat.add_sub_cancel]

/-- The second of four bytes is in the range that the first one leaves to it. -/
theorem start_four {v : Nat} (low : 0x10000 ≤ v) (high : v < 0x110000) :
    ∃ least most, start (v / 262144 + 0xF0) = .more ⟨v / 262144, 3, least, most⟩ ∧
      least ≤ v / 4096 % 64 + 0x80 ∧ v / 4096 % 64 + 0x80 ≤ most := by
  unfold start
  rw [if_neg (by omega), if_neg (by omega), if_neg (by omega), if_neg (by omega),
    if_neg (by omega), if_neg (by omega)]
  by_cases first : v / 262144 = 0
  · exact ⟨0x90, 0xBF, by simp [first], by omega⟩
  by_cases last : v / 262144 = 4
  · exact ⟨0x80, 0x8F, by simp [last], by omega⟩
  · refine ⟨0x80, 0xBF, ?_, by omega⟩
    rw [if_neg (by omega), if_pos (by omega), Nat.add_sub_cancel]

/-! ### Characters and texts -/

/-- A character is read back from its bytes, whatever follows them. -/
theorem parts_encodeChar (c : Char) (rest : Bytes) :
    parts none (String.utf8EncodeChar c ++ rest) = some c :: parts none rest := by
  have valid : c.toNat < 0xD800 ∨ 0xDFFF < c.toNat ∧ c.toNat < 0x110000 := c.valid
  have back : Char.ofNat c.toNat = c := Char.ofNat_toNat c
  simp only [String.utf8EncodeChar, show c.val.toNat = c.toNat from rfl]
  generalize c.toNat = v at valid back
  subst back
  split
  next small =>
    have byte : (UInt8.ofNat v).toNat = v := toNat_ofNat_of_lt (by omega)
    have whole : start v = .whole (Char.ofNat v) := if_pos (by omega)
    simp only [List.cons_append, List.nil_append, parts, byte, whole]
  split
  next big small =>
    rw [show v / 64 % 32 = v / 64 by omega]
    have first := toNat_ofNat_of_lt (show v / 64 + 192 < 256 by omega)
    have second := toNat_ofNat_of_lt (show v % 64 + 128 < 256 by omega)
    rw [List.cons_append, List.cons_append, List.nil_append,
      parts_begin (by rw [first]; exact start_two (by omega) (by omega)),
      parts_last (by omega), second,
      show v / 64 * 64 + (v % 64 + 128 - 128) = v by omega]
  split
  next big small =>
    rw [show v / 4096 % 16 = v / 4096 by omega]
    have first := toNat_ofNat_of_lt (show v / 4096 + 224 < 256 by omega)
    have second := toNat_ofNat_of_lt (show v / 64 % 64 + 128 < 256 by omega)
    have third := toNat_ofNat_of_lt (show v % 64 + 128 < 256 by omega)
    obtain ⟨least, most, begun, inside⟩ := start_three (v := v) (by omega) (by omega) (by omega)
    rw [List.cons_append, List.cons_append, List.cons_append, List.nil_append,
      parts_begin (by rw [first]; exact begun), parts_next (by omega) (by omega),
      parts_last (by omega), second, third,
      show (v / 4096 * 64 + (v / 64 % 64 + 128 - 128)) * 64 + (v % 64 + 128 - 128) = v by omega]
  next big =>
    rw [show v / 262144 % 8 = v / 262144 by omega]
    have first := toNat_ofNat_of_lt (show v / 262144 + 240 < 256 by omega)
    have second := toNat_ofNat_of_lt (show v / 4096 % 64 + 128 < 256 by omega)
    have third := toNat_ofNat_of_lt (show v / 64 % 64 + 128 < 256 by omega)
    have fourth := toNat_ofNat_of_lt (show v % 64 + 128 < 256 by omega)
    obtain ⟨least, most, begun, inside⟩ := start_four (v := v) (by omega) (by omega)
    rw [List.cons_append, List.cons_append, List.cons_append, List.cons_append, List.nil_append,
      parts_begin (by rw [first]; exact begun), parts_next (by omega) (by omega),
      parts_next (by omega) (by omega), parts_last (by omega), second, third, fourth,
      show ((v / 262144 * 64 + (v / 4096 % 64 + 128 - 128)) * 64 + (v / 64 % 64 + 128 - 128)) * 64 +
        (v % 64 + 128 - 128) = v by omega]

theorem parts_encode (text : Text) : parts none (encode text) = text.map some := by
  induction text with
  | nil => rfl
  | cons c cs ih =>
    rw [show encode (c :: cs) = String.utf8EncodeChar c ++ encode cs from rfl, parts_encodeChar, ih]
    rfl

@[simp] theorem decode?_encode (text : Text) : decode? (encode text) = some text := by
  rw [decode?, parts_encode]
  induction text with
  | nil => rfl
  | cons c cs ih => simp [ih]

@[simp] theorem decodeLossy_encode (text : Text) : decodeLossy (encode text) = text := by
  simp [decodeLossy, parts_encode, Function.comp_def]

end ViewScript.Utf8
