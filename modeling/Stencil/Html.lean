import Stencil.Text.Letters

/-!
# Element names

Which elements have no content, and which have content that is not markup. Case does not matter.
-/

namespace Stencil.Html

/-- Elements without content and without an end tag. -/
def voidNames : List Text :=
  ["area", "base", "br", "col", "embed", "hr", "img", "input", "link", "meta", "param", "source",
    "track", "wbr"].map String.toList

/-- Elements whose content is raw text up to their end tag. -/
def rawTextNames : List Text :=
  ["script".toList, "style".toList]

def isVoid (name : Text) : Bool :=
  voidNames.contains name.lower

def isRawText (name : Text) : Bool :=
  rawTextNames.contains name.lower

def isScript (name : Text) : Bool :=
  name.lower == "script".toList

def isStyle (name : Text) : Bool :=
  name.lower == "style".toList

/-- Whether a character can be part of a tag name. -/
def isNameChar (c : Char) : Bool :=
  !(Text.isBlank c || c == '>' || c == '/' || c == '<' || c == '=' || c == '"' || c == '\'' ||
    c.toNat == 0)

theorem isRawText_iff (name : Text) :
    isRawText name = true ↔ isScript name = true ∨ isStyle name = true := by
  simp [isRawText, rawTextNames, isScript, isStyle]

end Stencil.Html
