/-
  ViewScript/Code/Names.lean
  ==========================
  **Names in generated code.**

  Generated code calls three things of the runtime library, whose names can be
  configured.  A tag whose name is the name of an element of HTML is looked up
  among the components of the library, and a few attributes have a second
  spelling.
-/
import ViewScript.Text.Basic

namespace ViewScript

/-- The names that generated code refers to. -/
structure RuntimeNames where
  /-- The object that holds `text` and the elements of HTML. -/
  components : Text := "Moon.view.components"
  /-- The function that flattens interpolated children. -/
  normalizeChildren : Text := "Moon.view.normalizeChildren"
  /-- The function that merges objects from left to right. -/
  merge : Text := "Object.assign"
deriving DecidableEq, Repr

instance : Inhabited RuntimeNames := ⟨{}⟩

/-- The elements that the library provides. -/
def builtinNames : List Text := List.map String.toList [
  "a", "abbr", "acronym", "address", "applet", "area", "article", "aside", "audio", "b", "base",
  "basefont", "bdi", "bdo", "bgsound", "big", "blink", "blockquote", "body", "br", "button",
  "canvas", "caption", "center", "cite", "code", "col", "colgroup", "command", "content", "data",
  "datalist", "dd", "del", "details", "dfn", "dialog", "dir", "div", "dl", "dt", "element", "em",
  "embed", "fieldset", "figcaption", "figure", "font", "footer", "form", "frame", "frameset",
  "h1", "h2", "h3", "h4", "h5", "h6", "head", "header", "hgroup", "hr", "html", "i", "iframe",
  "image", "img", "input", "ins", "isindex", "kbd", "keygen", "label", "legend", "li", "link",
  "listing", "main", "map", "mark", "marquee", "math", "menu", "menuitem", "meta", "meter",
  "multicol", "nav", "nextid", "nobr", "noembed", "noframes", "noscript", "object", "ol",
  "optgroup", "option", "output", "p", "param", "picture", "plaintext", "pre", "progress", "q",
  "rb", "rbc", "rp", "rt", "rtc", "ruby", "s", "samp", "script", "section", "select", "shadow",
  "slot", "small", "source", "spacer", "span", "strike", "strong", "style", "sub", "summary",
  "sup", "svg", "table", "tbody", "td", "template", "text", "textarea", "tfoot", "th", "thead",
  "time", "title", "tr", "track", "tt", "u", "ul", "var", "video", "wbr", "xmp"]

/-- Whether a name is the name of such an element. -/
def isBuiltin (name : Text) : Bool := builtinNames.contains name

/-- The attributes with a second spelling, which comes first. -/
def attributeAliases : List (Text × Text) := [
  ("className", "class"),
  ("htmlFor", "for"),
  ("onChange", "oninput"),
  ("onDoubleClick", "ondblclick"),
  ("dangerouslySetInnerHTML", "innerHTML")]

/-- The spelling of an attribute in generated code. -/
def attributeName (name : Text) : Text := (attributeAliases.lookup name).getD name

end ViewScript
