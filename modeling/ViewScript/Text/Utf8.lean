/-
  ViewScript/Text/Utf8.lean
  =========================
  **Bytes and text.**

  Files hold bytes.  Reading them as UTF-8 walks the bytes once and cuts them
  into parts, each a well-formed character or a *broken part*: the longest start
  of a character that the next byte does not continue, or a byte that starts
  none.  A strict reader refuses broken parts; a lenient one puts the replacement
  character in the place of each.
-/
import ViewScript.Text.Basic

namespace ViewScript

/-- The contents of a file. -/
abbrev Bytes := List UInt8

namespace Utf8

/-- A character of which some bytes have been read: the bits so far, the number
    of bytes that are missing and the range the next one must lie in. -/
structure Begun where
  bits : Nat
  missing : Nat
  low : Nat
  high : Nat
deriving DecidableEq, Repr

/-- What the first byte of a part tells. -/
inductive Start where
  | whole (char : Char)
  | more (begun : Begun)
  | broken
deriving DecidableEq, Repr

/-- Read the first byte of a part.  The ranges for the second byte leave out
    overlong forms, surrogates and numbers above the last code point. -/
def start (byte : Nat) : Start :=
  if byte < 0x80 then .whole (Char.ofNat byte)
  else if byte < 0xC2 then .broken
  else if byte < 0xE0 then .more ⟨byte - 0xC0, 1, 0x80, 0xBF⟩
  else if byte = 0xE0 then .more ⟨0, 2, 0xA0, 0xBF⟩
  else if byte = 0xED then .more ⟨0x0D, 2, 0x80, 0x9F⟩
  else if byte < 0xF0 then .more ⟨byte - 0xE0, 2, 0x80, 0xBF⟩
  else if byte = 0xF0 then .more ⟨0, 3, 0x90, 0xBF⟩
  else if byte < 0xF4 then .more ⟨byte - 0xF0, 3, 0x80, 0xBF⟩
  else if byte = 0xF4 then .more ⟨4, 3, 0x80, 0x8F⟩
  else .broken

/-- Cut bytes into parts; `none` stands for a broken part.  The first argument is
    the character begun before them, if any. -/
def parts : Option Begun → Bytes → List (Option Char)
  | none, [] => []
  | some _, [] => [none]
  | none, byte :: bytes =>
    match start byte.toNat with
    | .whole char => some char :: parts none bytes
    | .more begun => parts (some begun) bytes
    | .broken => none :: parts none bytes
  | some ⟨bits, missing, low, high⟩, byte :: bytes =>
    if low ≤ byte.toNat ∧ byte.toNat ≤ high then
      let bits := bits * 64 + (byte.toNat - 0x80)
      if missing ≤ 1 then some (Char.ofNat bits) :: parts none bytes
      else parts (some ⟨bits, missing - 1, 0x80, 0xBF⟩) bytes
    else
      none :: match start byte.toNat with
        | .whole char => some char :: parts none bytes
        | .more begun => parts (some begun) bytes
        | .broken => none :: parts none bytes

/-- Read bytes as text, if they are well formed throughout. -/
def decode? (bytes : Bytes) : Option Text := (parts none bytes).mapM id

/-- Read bytes as text, with U+FFFD in the place of every broken part. -/
def decodeLossy (bytes : Bytes) : Text := (parts none bytes).map (·.getD '�')

/-- The bytes of a text. -/
def encode (text : Text) : Bytes := text.flatMap String.utf8EncodeChar

end Utf8

end ViewScript
