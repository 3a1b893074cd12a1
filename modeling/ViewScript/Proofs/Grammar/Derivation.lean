/-
  ViewScript/Proofs/Grammar/Derivation.lean
  =========================================
  **The grammar as a relation.**

  `Derives production offset text value` says that the text, standing at the offset,
  is derived from the production, and that the value is the tree of the derivation.
  The rules are free of context: they say nothing about order of choice, about what
  comes before or after, or about how far a run must go.

  A rule puts its text together from the texts of its parts, each part at the offset
  where the part before it ends.  What a rule does not keep in the tree stands in its
  premises only: the separators between attributes and the name in a closing tag.
-/
import Mathlib.Data.List.Infix
import ViewScript.Grammar.Basic
import ViewScript.Proofs.Parser.Contract

namespace ViewScript.Grammar

/-! ### Lexical classes -/

/-- A run of at least one character of a class. -/
def IsRun (test : Char → Bool) (text : Text) : Prop := text ≠ [] ∧ ∀ c ∈ text, test c = true

/-- A run in which a backslash takes the next character with it.  The characters in
    `ends` stand in it only after a backslash, those in `never` not even there. -/
inductive EscapedRun (ends never : List Char) : Text → Prop
  | nil : EscapedRun ends never []
  | escape {c : Char} {rest : Text} :
    c ∉ never → EscapedRun ends never rest → EscapedRun ends never ('\\' :: c :: rest)
  | plain {c : Char} {rest : Text} :
    c ≠ '\\' → c ∉ ends → EscapedRun ends never rest → EscapedRun ends never (c :: rest)

/-- The marks that a string can stand between. -/
def quotes : List Char := ['"', '\'', '\x60']

/-- A character of plain host code. -/
def isCodeChar (c : Char) : Bool := !codeDelimiters.contains [c]

/-- Host code that starts with a slash or is a less-than sign. -/
inductive HostMark : Text → Prop
  | lineComment {content : Text} : '\n' ∉ content → HostMark ('/' :: '/' :: content)
  | blockComment {content : Text} :
    ¬ ['*', '/'] <:+: content → HostMark ('/' :: '*' :: (content ++ ['*', '/']))
  | regex {items : Text} :
    items ≠ [] → EscapedRun ['/', '\n'] ['\n'] items → HostMark ('/' :: (items ++ ['/']))
  | slash : HostMark ['/']
  | lessThan : HostMark ['<']

/-! ### Productions -/

/-- The productions of the grammar. -/
inductive Production where
  | separator
  | comment
  | value
  | attributes
  | text
  | interpolation
  | opening
  | reference
  | selfClosing
  | element
  | fragment
  | view
  | children
  | expression
  | program
deriving DecidableEq, Repr

namespace Production

/-- The type of the trees of a production. -/
@[reducible] def Value : Production → Type
  | .separator | .children | .expression | .program => List Node
  | .attributes => List (Attribute Node)
  | .opening => Tag Node
  | .comment | .value | .text | .interpolation | .reference | .selfClosing | .element
  | .fragment | .view => Node

/-- The parser of a production. -/
def parser : (production : Production) → Parser production.Value
  | .separator => Grammar.separator
  | .comment => Grammar.comment
  | .value => Grammar.value
  | .attributes => Grammar.attributes
  | .text => Grammar.text
  | .interpolation => Grammar.interpolation
  | .opening => close Rules.opening
  | .reference => Grammar.reference
  | .selfClosing => Grammar.selfClosing
  | .element => Grammar.element
  | .fragment => Grammar.fragment
  | .view => close fun nested => Parser.firstOf (Rules.views nested)
  | .children => Grammar.children
  | .expression => Grammar.expression
  | .program => Grammar.program

end Production

/-! ### Derivations -/

/-- The text at the offset is derived from the production, with the value as its
    tree. -/
inductive Derives : (production : Production) → Nat → Text → production.Value → Prop
  -- White space and comments.
  | separatorEnd {o : Nat} : Derives .separator o [] []
  | separatorBlank {o : Nat} {blank rest : Text} {nodes : List Node} :
    IsRun isSeparatorChar blank →
      Derives .separator (o + blank.byteSize) rest nodes →
        Derives .separator o (blank ++ rest) (.verbatim (.ofText o blank) :: nodes)
  | separatorComment {o : Nat} {note rest : Text} {node : Node} {nodes : List Node} :
    Derives .comment o note node →
      Derives .separator (o + note.byteSize) rest nodes →
        Derives .separator o (note ++ rest) (node :: nodes)
  | comment {o : Nat} {content : Text} :
    EscapedRun ['#'] [] content →
      Derives .comment o ('#' :: (content ++ ['#'])) (.comment (.ofText (o + 1) content))
  -- Names, strings and brackets.
  | name {o : Nat} {run : Text} :
    IsRun isNameChar run → Derives .value o run (.code (.ofText o run))
  | quoted {o : Nat} {mark : Char} {content : Text} :
    mark ∈ quotes → EscapedRun [mark] [] content →
      Derives .value o (mark :: (content ++ [mark]))
        (.verbatim (.ofText o (mark :: (content ++ [mark]))))
  | group {o : Nat} {delimiter : Delimiter} {inside : Text} {body : List Node} :
    Derives .expression (o + 1) inside body →
      Derives .value o (delimiter.opening :: (inside ++ [delimiter.closing]))
        (.group delimiter body)
  -- Attributes; the separator after each is dropped.
  | attributesEnd {o : Nat} : Derives .attributes o [] []
  | attributesName {o : Nat} {word gap rest : Text} {name : Node} {dropped : List Node}
      {attributes : List (Attribute Node)} :
    Derives .value o word name →
      Derives .separator (o + word.byteSize) gap dropped →
        Derives .attributes (o + word.byteSize + gap.byteSize) rest attributes →
          Derives .attributes o (word ++ (gap ++ rest)) (⟨name, none⟩ :: attributes)
  | attributesValue {o : Nat} {word given gap rest : Text} {name value : Node}
      {dropped : List Node} {attributes : List (Attribute Node)} :
    Derives .value o word name →
      Derives .value (o + word.byteSize + 1) given value →
        Derives .separator (o + word.byteSize + 1 + given.byteSize) gap dropped →
          Derives .attributes (o + word.byteSize + 1 + given.byteSize + gap.byteSize) rest
              attributes →
            Derives .attributes o (word ++ ('=' :: given ++ (gap ++ rest)))
              (⟨name, some value⟩ :: attributes)
  -- What stands between tags.
  | text {o : Nat} {run : Text} :
    run ≠ [] → EscapedRun ['\x7b', '<'] [] run → Derives .text o run (.text (.ofText o run))
  | interpolation {o : Nat} {inside : Text} {body : List Node} :
    Derives .expression (o + 1) inside body →
      Derives .interpolation o ('\x7b' :: (inside ++ ['\x7d'])) (.interpolation body)
  -- Tags and fragments; the name in a closing tag is dropped.
  | opening {o : Nat} {before word after : Text} {leading trailing : List Node} {name : Node} :
    Derives .separator (o + 1) before leading →
      Derives .value (o + 1 + before.byteSize) word name →
        Derives .separator (o + 1 + before.byteSize + word.byteSize) after trailing →
          Derives .opening o ('<' :: (before ++ (word ++ after))) ⟨leading, name, trailing⟩
  | reference {o : Nat} {opened : Text} {tag : Tag Node} :
    Derives .opening o opened tag →
      Derives .reference o (opened ++ ['*', '>']) (.reference tag)
  | selfClosing {o : Nat} {opened list : Text} {tag : Tag Node}
      {attributes : List (Attribute Node)} :
    Derives .opening o opened tag →
      Derives .attributes (o + opened.byteSize) list attributes →
        Derives .selfClosing o (opened ++ (list ++ ['/', '>']))
          (.selfClosing tag (.attributes attributes))
  | selfClosingValue {o : Nat} {opened given : Text} {tag : Tag Node} {value : Node} :
    Derives .opening o opened tag →
      Derives .value (o + opened.byteSize) given value →
        Derives .selfClosing o (opened ++ (given ++ ['/', '>']))
          (.selfClosing tag (.expression value))
  | element {o : Nat} {opened list inside closing : Text} {tag : Tag Node}
      {attributes : List (Attribute Node)} {children : List Node} :
    Derives .opening o opened tag →
      Derives .attributes (o + opened.byteSize) list attributes →
        Derives .children (o + opened.byteSize + list.byteSize + 1) inside children →
          '>' ∉ closing →
            Derives .element o
              (opened ++ (list ++ ('>' :: (inside ++ ('<' :: '/' :: (closing ++ ['>']))))))
              (.element tag attributes children)
  | fragment {o : Nat} {inside : Text} {children : List Node} :
    Derives .children (o + 2) inside children →
      Derives .fragment o ('<' :: '>' :: (inside ++ ['<', '/', '>'])) (.fragment children)
  | viewReference {o : Nat} {text : Text} {node : Node} :
    Derives .reference o text node → Derives .view o text node
  | viewSelfClosing {o : Nat} {text : Text} {node : Node} :
    Derives .selfClosing o text node → Derives .view o text node
  | viewElement {o : Nat} {text : Text} {node : Node} :
    Derives .element o text node → Derives .view o text node
  | viewFragment {o : Nat} {text : Text} {node : Node} :
    Derives .fragment o text node → Derives .view o text node
  -- The children of a tag.
  | childrenEnd {o : Nat} : Derives .children o [] []
  | childrenView {o : Nat} {item rest : Text} {node : Node} {nodes : List Node} :
    Derives .view o item node → Derives .children (o + item.byteSize) rest nodes →
      Derives .children o (item ++ rest) (node :: nodes)
  | childrenText {o : Nat} {item rest : Text} {node : Node} {nodes : List Node} :
    Derives .text o item node → Derives .children (o + item.byteSize) rest nodes →
      Derives .children o (item ++ rest) (node :: nodes)
  | childrenInterpolation {o : Nat} {item rest : Text} {node : Node} {nodes : List Node} :
    Derives .interpolation o item node → Derives .children (o + item.byteSize) rest nodes →
      Derives .children o (item ++ rest) (node :: nodes)
  -- Host code with views in it.
  | expressionEnd {o : Nat} : Derives .expression o [] []
  | expressionMark {o : Nat} {item rest : Text} {nodes : List Node} :
    HostMark item → Derives .expression (o + item.byteSize) rest nodes →
      Derives .expression o (item ++ rest) (.verbatim (.ofText o item) :: nodes)
  | expressionCode {o : Nat} {item rest : Text} {nodes : List Node} :
    IsRun isCodeChar item → Derives .expression (o + item.byteSize) rest nodes →
      Derives .expression o (item ++ rest) (.code (.ofText o item) :: nodes)
  | expressionComment {o : Nat} {item rest : Text} {node : Node} {nodes : List Node} :
    Derives .comment o item node → Derives .expression (o + item.byteSize) rest nodes →
      Derives .expression o (item ++ rest) (node :: nodes)
  | expressionValue {o : Nat} {item rest : Text} {node : Node} {nodes : List Node} :
    Derives .value o item node → Derives .expression (o + item.byteSize) rest nodes →
      Derives .expression o (item ++ rest) (node :: nodes)
  | expressionView {o : Nat} {item rest : Text} {node : Node} {nodes : List Node} :
    Derives .view o item node → Derives .expression (o + item.byteSize) rest nodes →
      Derives .expression o (item ++ rest) (node :: nodes)
  | program {o : Nat} {text : Text} {nodes : List Node} :
    Derives .expression o text nodes → Derives .program o text nodes

end ViewScript.Grammar
