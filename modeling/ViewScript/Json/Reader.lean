/-
  ViewScript/Json/Reader.lean
  ===========================
  **Reading JSON.**

  The reader takes exactly the texts of the JSON grammar: no comments, no comma
  before a closing bracket, nothing but blanks around the document.  An escape for
  a code point above U+FFFF is a pair of surrogates, and surrogates come in no other
  way.
-/
import ViewScript.Json.Basic

namespace ViewScript.Json

/-- The white space of JSON. -/
def isSpace (c : Char) : Bool := c == ' ' || c == '\t' || c == '\n' || c == '\r'

def skipSpace (text : Text) : Text := text.dropWhile isSpace

/-! ### Strings -/

def hexValue? (c : Char) : Option Nat :=
  if '0' ≤ c ∧ c ≤ '9' then some (c.toNat - '0'.toNat)
  else if 'a' ≤ c ∧ c ≤ 'f' then some (c.toNat - 'a'.toNat + 10)
  else if 'A' ≤ c ∧ c ≤ 'F' then some (c.toNat - 'A'.toNat + 10)
  else none

/-- The number that four digits spell. -/
def hexUnit? (a b c d : Char) : Option Nat := do
  return (((← hexValue? a) * 16 + (← hexValue? b)) * 16 + (← hexValue? c)) * 16 + (← hexValue? d)

/-- The character of an escape by a letter. -/
def unescape? (c : Char) : Option Char :=
  match c with
  | '"' => some '"'
  | '\\' => some '\\'
  | '/' => some '/'
  | 'b' => some '\x08'
  | 'f' => some '\x0c'
  | 'n' => some '\n'
  | 'r' => some '\r'
  | 't' => some '\t'
  | _ => none

/-- What four digits after a `u` mean, given the first half of a pair before them. -/
inductive Escaped where
  | char (c : Char)
  | firstHalf (unit : Nat)
  | broken

def escapedUnit (first : Option Nat) (unit : Nat) : Escaped :=
  match first with
  | some first =>
    if 0xDC00 ≤ unit ∧ unit < 0xE000 then
      .char (Char.ofNat (0x10000 + (first - 0xD800) * 0x400 + (unit - 0xDC00)))
    else .broken
  | none =>
    if 0xD800 ≤ unit ∧ unit < 0xDC00 then .firstHalf unit
    else if 0xDC00 ≤ unit ∧ unit < 0xE000 then .broken
    else .char (Char.ofNat unit)

/-- The rest of a string after its opening quote, and what follows the string.  The
    first argument is the first half of a pair that waits for the second. -/
def readString : Option Nat → Text → Option (Text × Text)
  | first, '\\' :: 'u' :: a :: b :: c :: d :: rest => do
    match escapedUnit first (← hexUnit? a b c d) with
    | .char c =>
      let (text, rest) ← readString none rest
      return (c :: text, rest)
    | .firstHalf unit => readString (some unit) rest
    | .broken => none
  | none, '\\' :: c :: rest => do
    let c ← unescape? c
    let (text, rest) ← readString none rest
    return (c :: text, rest)
  | none, '"' :: rest => some ([], rest)
  | none, c :: rest => do
    if c.toNat < 0x20 ∨ c = '\\' then none
    else
      let (text, rest) ← readString none rest
      return (c :: text, rest)
  | _, _ => none

theorem hexValue?_hexDigit (n : Nat) (small : n < 16) : hexValue? (hexDigit n) = some n := by
  revert n
  decide

/-! ### Numbers -/

/-- One digit or more. -/
def readDigits? (text : Text) : Option (Text × Text) :=
  match text.takeWhile Char.isDigit with
  | [] => none
  | digits => some (digits, text.dropWhile Char.isDigit)

/-- The part of a number before the point; no digit follows a leading zero. -/
def readWhole? : Text → Option (Text × Text)
  | '0' :: rest => some (['0'], rest)
  | text => readDigits? text

/-- Digits after one of the given marks, if there is such a mark. -/
def readAfterMark? (isMark : Char → Bool) (signed : Bool) : Text → Option (Text × Text)
  | c :: rest =>
    if isMark c then
      match rest with
      | s :: digits =>
        if signed && (s == '+' || s == '-') then
          (readDigits? digits).map fun (text, rest) => (c :: s :: text, rest)
        else (readDigits? rest).map fun (text, rest) => (c :: text, rest)
      | [] => none
    else some ([], c :: rest)
  | [] => some ([], [])

/-- The spelling of a number. -/
def readNumber? (text : Text) : Option (Text × Text) := do
  let (sign, text) : Text × Text := match text with
    | '-' :: rest => (['-'], rest)
    | text => ([], text)
  let (whole, text) ← readWhole? text
  let (fraction, text) ← readAfterMark? (· == '.') false text
  let (exponent, text) ← readAfterMark? (fun c => c == 'e' || c == 'E') true text
  return (sign ++ whole ++ fraction ++ exponent, text)

/-! ### Values -/

mutual

/-- A value and what follows it.  The first argument bounds the number of steps. -/
def readValue : Nat → Text → Option (Json × Text)
  | 0, _ => none
  | steps + 1, text =>
    match skipSpace text with
    | 'n' :: 'u' :: 'l' :: 'l' :: rest => some (.null, rest)
    | 't' :: 'r' :: 'u' :: 'e' :: rest => some (.bool true, rest)
    | 'f' :: 'a' :: 'l' :: 's' :: 'e' :: rest => some (.bool false, rest)
    | '"' :: rest => (readString none rest).map fun (text, rest) => (.string text, rest)
    | '[' :: rest =>
      match skipSpace rest with
      | ']' :: rest => some (.array [], rest)
      | rest => (readItems steps rest).map fun (items, rest) => (.array items, rest)
    | '\x7b' :: rest =>
      match skipSpace rest with
      | '\x7d' :: rest => some (.object [], rest)
      | rest => (readMembers steps rest).map fun (members, rest) => (.object members, rest)
    | text => (readNumber? text).map fun (literal, rest) => (.number literal, rest)

/-- Items and the bracket after them. -/
def readItems : Nat → Text → Option (List Json × Text)
  | 0, _ => none
  | steps + 1, text => do
    let (item, rest) ← readValue steps text
    match skipSpace rest with
    | ',' :: rest => (readItems steps rest).map fun (items, rest) => (item :: items, rest)
    | ']' :: rest => some ([item], rest)
    | _ => none

/-- Members and the brace after them. -/
def readMembers : Nat → Text → Option (List (Text × Json) × Text)
  | 0, _ => none
  | steps + 1, text =>
    match skipSpace text with
    | '"' :: rest => do
      let (key, rest) ← readString none rest
      match skipSpace rest with
      | ':' :: rest =>
        let (value, rest) ← readValue steps rest
        match skipSpace rest with
        | ',' :: rest =>
          (readMembers steps rest).map fun (members, rest) => ((key, value) :: members, rest)
        | '\x7d' :: rest => some ([(key, value)], rest)
        | _ => none
      | _ => none
    | _ => none

end

/-- Read a document.  A step either reads a character or goes from a list to its next
    item, so twice the length of the text bounds the steps. -/
def read? (text : Text) : Option Json :=
  match readValue (2 * text.length + 2) text with
  | some (json, rest) => if skipSpace rest = [] then some json else none
  | none => none

end ViewScript.Json
