import Stencil.Diagnostic.Basic
import Stencil.Text.Escaped

/-!
# Problems

The causes of the diagnostics that reading a template can give. A cause fixes the severity, the
kind and the wording; `Problem.located` puts it at a place.
-/

namespace Stencil

/-- A token or name that a template must have at some place. -/
inductive Wanted where
  | brace (c : Char)
  | bracket (text : Text)
  | equals
  | quote (c : Char)
  | tagName
  | attributeName
deriving DecidableEq, Repr, Inhabited

namespace Wanted

/-- What is wanted, as the message names it and, for a token, as it stands in the source. -/
def text : Wanted → Text
  | brace c => [c]
  | bracket t => t
  | equals => ['=']
  | quote c => [c]
  | tagName => "tag name".toList
  | attributeName => "attribute name".toList

def code : Wanted → Code
  | brace _ => .expectedBrace
  | bracket _ => .expectedBracket
  | equals => .expectedEquals
  | quote _ => .expectedQuote
  | tagName => .expectedTagName
  | attributeName => .expectedAttributeName

end Wanted

/-- A part of embedded code that runs into the end of the template. -/
inductive Unclosed where
  | string
  | blockComment
  /-- A bracketed group of a code expression, by its opening bracket. -/
  | group (bracket : Char)
deriving DecidableEq, Repr, Inhabited

/-- What the message calls an unclosed part. -/
def Unclosed.describe : Unclosed → String
  | string => "a string literal"
  | blockComment => "a block comment"
  | group bracket => s!"'{bracket}' in a code expression"

/-- Why a diagnostic is reported. -/
inductive Problem where
  | unexpectedEnd (inside : Unclosed)
  /-- Something wanted is not there; `found` is the character there, if any. -/
  | expected (wanted : Wanted) (found : Option Char)
  | unterminatedAttribute (quote : Char)
  | unterminatedComment
  | unterminatedCData
  | unterminatedDoctype
  | unterminatedRawText (name : Text)
  | missingEndTag (name : Text)
  | unexpectedEndTag (name : Text)
  | mismatchedEndTag (name opened : Text)
  | invalidTransition (transition : Char)
  | duplicateAttribute (name : Text)
  | unknownDeclaration
  | voidElementEndTag (name : Text)
  | nestingTooDeep (limit : Nat)
deriving DecidableEq, Repr, Inhabited

namespace Problem

def code : Problem → Code
  | unexpectedEnd _ => .unexpectedEndOfInput
  | expected wanted _ => wanted.code
  | unterminatedAttribute _ => .unterminatedAttribute
  | unterminatedComment => .unterminatedComment
  | unterminatedCData => .unterminatedCData
  | unterminatedDoctype => .unterminatedDoctype
  | unterminatedRawText _ => .unterminatedRawText
  | missingEndTag _ => .missingEndTag
  | unexpectedEndTag _ => .unexpectedEndTag
  | mismatchedEndTag _ _ => .mismatchedEndTag
  | invalidTransition _ => .invalidTransition
  | duplicateAttribute _ => .duplicateAttribute
  | unknownDeclaration => .unknownDeclaration
  | voidElementEndTag _ => .voidElementEndTag
  | nestingTooDeep _ => .nestingTooDeep

/-- What leaves the meaning of the template in no doubt is a warning. -/
def severity : Problem → Severity
  | invalidTransition _ => .warning
  | duplicateAttribute _ => .warning
  | unknownDeclaration => .warning
  | voidElementEndTag _ => .warning
  | nestingTooDeep _ => .warning
  | _ => .error

/-- The character that was found, or that there was none. -/
def describeFound : Option Char → String
  | some c => s!"'{String.ofList (Text.shownAlone c)}'"
  | none => "end of input"

/-- The wording of a problem. -/
def message : Problem → String
  | unexpectedEnd inside => s!"Unexpected end of input inside {inside.describe}"
  | expected wanted found =>
    s!"Expected '{String.ofList wanted.text}' but found {describeFound found}"
  | unterminatedAttribute quote => s!"Attribute value is missing its closing {quote}"
  | unterminatedComment => "Comment is missing its closing '-->'"
  | unterminatedCData => "CDATA section is missing its closing ']]>'"
  | unterminatedDoctype => "Declaration is missing its closing '>'"
  | unterminatedRawText name =>
    s!"'<{String.ofList name}>' is missing its end tag '</{String.ofList name}>'"
  | missingEndTag name =>
    s!"Element '<{String.ofList name}>' is missing its end tag '</{String.ofList name}>'"
  | unexpectedEndTag name => s!"End tag '</{String.ofList name}>' has no matching start tag"
  | mismatchedEndTag name opened =>
    s!"End tag '</{String.ofList name}>' does not match the open element " ++
      s!"'<{String.ofList opened}>'"
  | invalidTransition t =>
    s!"'{t}' must be followed by an identifier, '\x7b' or another '{t}'; treating it as text"
  | duplicateAttribute name => s!"Attribute '{String.ofList name}' is specified more than once"
  | unknownDeclaration => "Unknown declaration; only '<!doctype ...>' is recognized"
  | voidElementEndTag name =>
    s!"'<{String.ofList name}>' is a void element and takes no end tag"
  | nestingTooDeep limit =>
    s!"Nesting deeper than {limit} levels; deeper content is parsed flat"

/-- The diagnostic for a problem at a place. -/
def located (p : Problem) (place : Location) : Diagnostic :=
  ⟨p.severity, p.code, p.message, some place⟩

end Problem

end Stencil
