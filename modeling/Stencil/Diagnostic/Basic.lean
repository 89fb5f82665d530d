import Stencil.Location

/-!
# Diagnostics

A diagnostic is a message about a template: how bad it is, which kind of problem it reports, its
wording and, mostly, the place it is about.
-/

namespace Stencil

/-- How bad a diagnostic is. -/
inductive Severity where
  | info
  | warning
  | error
deriving DecidableEq, Repr, Inhabited

/-- The kinds of problems. -/
inductive Code where
  | unexpectedEndOfInput
  | expectedBrace
  | expectedBracket
  | expectedEquals
  | expectedQuote
  | expectedTagName
  | expectedAttributeName
  | unterminatedAttribute
  | unterminatedComment
  | unterminatedCData
  | unterminatedDoctype
  | unterminatedRawText
  | missingEndTag
  | unexpectedEndTag
  | mismatchedEndTag
  | invalidTransition
  | duplicateAttribute
  | unknownDeclaration
  | voidElementEndTag
  | nestingTooDeep
deriving DecidableEq, Repr, Inhabited

namespace Severity

/-- Every severity. -/
def all : List Severity :=
  [info, warning, error]

def name : Severity → String
  | info => "info"
  | warning => "warning"
  | error => "error"

/-- The severity with a given name. -/
def ofName? (s : String) : Option Severity :=
  all.find? fun v => v.name == s

end Severity

namespace Code

/-- Every kind of problem, in the order of their numbers. -/
def all : List Code :=
  [unexpectedEndOfInput, expectedBrace, expectedBracket, expectedEquals, expectedQuote,
    expectedTagName, expectedAttributeName, unterminatedAttribute, unterminatedComment,
    unterminatedCData, unterminatedDoctype, unterminatedRawText, missingEndTag, unexpectedEndTag,
    mismatchedEndTag, invalidTransition, duplicateAttribute, unknownDeclaration,
    voidElementEndTag, nestingTooDeep]

/-- The number of a kind of problem, counted from one. -/
def number (c : Code) : Nat :=
  all.idxOf c + 1

/-- The name of a kind of problem in structured output. -/
def name : Code → String
  | unexpectedEndOfInput => "UnexpectedEndOfInput"
  | expectedBrace => "ExpectedBrace"
  | expectedBracket => "ExpectedBracket"
  | expectedEquals => "ExpectedEquals"
  | expectedQuote => "ExpectedQuote"
  | expectedTagName => "ExpectedTagName"
  | expectedAttributeName => "ExpectedAttributeName"
  | unterminatedAttribute => "UnterminatedAttribute"
  | unterminatedComment => "UnterminatedComment"
  | unterminatedCData => "UnterminatedCData"
  | unterminatedDoctype => "UnterminatedDoctype"
  | unterminatedRawText => "UnterminatedRawText"
  | missingEndTag => "MissingEndTag"
  | unexpectedEndTag => "UnexpectedEndTag"
  | mismatchedEndTag => "MismatchedEndTag"
  | invalidTransition => "InvalidTransition"
  | duplicateAttribute => "DuplicateAttribute"
  | unknownDeclaration => "UnknownDeclaration"
  | voidElementEndTag => "VoidElementEndTag"
  | nestingTooDeep => "NestingTooDeep"

/-- The title of a kind of problem for a reader. -/
def title : Code → String
  | unexpectedEndOfInput => "Unexpected end of input"
  | expectedBrace => "Expected brace"
  | expectedBracket => "Expected bracket"
  | expectedEquals => "Expected equals"
  | expectedQuote => "Expected quote"
  | expectedTagName => "Expected tag name"
  | expectedAttributeName => "Expected attribute name"
  | unterminatedAttribute => "Unterminated attribute"
  | unterminatedComment => "Unterminated comment"
  | unterminatedCData => "Unterminated CDATA section"
  | unterminatedDoctype => "Unterminated doctype"
  | unterminatedRawText => "Unterminated raw text"
  | missingEndTag => "Missing end tag"
  | unexpectedEndTag => "Unexpected end tag"
  | mismatchedEndTag => "Mismatched end tag"
  | invalidTransition => "Invalid transition"
  | duplicateAttribute => "Duplicate attribute"
  | unknownDeclaration => "Unknown declaration"
  | voidElementEndTag => "End tag on void element"
  | nestingTooDeep => "Nesting too deep"

/-- The kind of problem with a given name. -/
def ofName? (s : String) : Option Code :=
  all.find? fun c => c.name == s

/-- The label of a kind of problem: its number in four digits. -/
def label (c : Code) : String :=
  let digits := toString c.number
  "KLN" ++ "".pushn '0' (4 - digits.length) ++ digits

end Code

/-- A message about a template. -/
structure Diagnostic where
  severity : Severity
  code : Code
  message : String
  location : Option Location
deriving DecidableEq, Repr, Inhabited

namespace Diagnostic

def isError (d : Diagnostic) : Bool :=
  d.severity == .error

/-- The diagnostic on one line, with both ends of its location. -/
def summary (d : Diagnostic) : String :=
  let place :=
    match d.location with
    | some l => s!" [{l.render}]"
    | none => ""
  s!"[{d.severity.name}] {d.code.label}: {d.message}{place}"

end Diagnostic

end Stencil
