/-
  ViewScript/Text/Blank.lean
  ==========================
  **Blank characters.**

  A character is blank when it has the Unicode property `White_Space`.  The
  property has twenty-five members; they are listed here as ranges of code
  points.
-/
import ViewScript.Text.Basic

namespace ViewScript

/-- The ranges of code points with the property `White_Space`. -/
def blankRanges : List (Nat × Nat) :=
  [(0x09, 0x0D), (0x20, 0x20), (0x85, 0x85), (0xA0, 0xA0), (0x1680, 0x1680), (0x2000, 0x200A),
    (0x2028, 0x2029), (0x202F, 0x202F), (0x205F, 0x205F), (0x3000, 0x3000)]

/-- A blank character. -/
def isBlank (c : Char) : Bool :=
  blankRanges.any fun (low, high) => low ≤ c.toNat && c.toNat ≤ high

/-- A text without anything to see. -/
def Text.isBlank (text : Text) : Bool := text.all ViewScript.isBlank

end ViewScript
