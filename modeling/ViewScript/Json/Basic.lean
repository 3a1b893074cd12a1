/-
  ViewScript/Json/Basic.lean
  ==========================
  **JSON values and how they are written.**

  An object keeps its members in the order they were given, also if two have the
  same key.  Documents are written over several lines, two blanks deeper for each
  level; an empty array or object stays on its line.
-/
import ViewScript.Text.Basic

namespace ViewScript

/-- A JSON value.  A number is kept as it is spelled. -/
inductive Json where
  | null
  | bool (value : Bool)
  | number (literal : Text)
  | string (text : Text)
  | array (items : List Json)
  | object (members : List (Text × Json))
deriving Repr

namespace Json

/-- A natural number. -/
def ofNat (n : Nat) : Json := .number (Text.ofNat n)

/-- A value that may be absent, which is written as null. -/
def ofOption {α : Type} (encode : α → Json) : Option α → Json
  | some value => encode value
  | none => .null

/-- A member of an object. -/
def member (key : Text) (value : Json) : Text × Json := (key, value)

/-- A member that is left out when its value is absent. -/
def optionalMember {α : Type} (key : Text) (encode : α → Json) : Option α → List (Text × Json)
  | some value => [member key (encode value)]
  | none => []

/-! ### Writing -/

/-- A digit to the base sixteen. -/
def hexDigit (n : Nat) : Char := (Nat.toDigits 16 n).headD '0'

/-- A character of a string.  Quotes, backslashes and control characters are
    escaped, the latter by a letter if there is one for it. -/
def escapeChar (c : Char) : Text :=
  if c = '"' then ['\\', '"']
  else if c = '\\' then ['\\', '\\']
  else if c = '\n' then ['\\', 'n']
  else if c = '\r' then ['\\', 'r']
  else if c = '\t' then ['\\', 't']
  else if c = '\x08' then ['\\', 'b']
  else if c = '\x0c' then ['\\', 'f']
  else if c.toNat < 0x20 then
    ['\\', 'u', '0', '0', hexDigit (c.toNat / 16), hexDigit (c.toNat % 16)]
  else [c]

/-- A string between quotes. -/
def writeString (text : Text) : Text := Text.quoted (text.flatMap escapeChar)

/-- A line break and the blanks of a level. -/
def newLine (level : Nat) : Text := '\n' :: Text.blanks (2 * level)

/-- Put items between brackets, each on a line of its own. -/
def bracketed (opening closing : Char) (level : Nat) (items : List Text) : Text :=
  match items with
  | [] => [opening, closing]
  | items =>
    opening :: newLine (level + 1) ++ Text.join (',' :: newLine (level + 1)) items ++
      newLine level ++ [closing]

mutual

/-- Write a value at a level. -/
def writeAt (level : Nat) : Json → Text
  | .null => "null"
  | .bool true => "true"
  | .bool false => "false"
  | .number literal => literal
  | .string text => writeString text
  | .array items => bracketed '[' ']' level (writeItems (level + 1) items)
  | .object members => bracketed '\x7b' '\x7d' level (writeMembers (level + 1) members)

def writeItems (level : Nat) : List Json → List Text
  | [] => []
  | item :: items => writeAt level item :: writeItems level items

def writeMembers (level : Nat) : List (Text × Json) → List Text
  | [] => []
  | (key, value) :: members =>
    (writeString key ++ ": " ++ writeAt level value) :: writeMembers level members

end

/-- Write a document. -/
def write (json : Json) : Text := json.writeAt 0

end Json

end ViewScript
