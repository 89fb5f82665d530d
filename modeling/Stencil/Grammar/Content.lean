import Stencil.Grammar.Region
import Stencil.Grammar.Tag

/-!
# Content

What stands between tags: embedded code, markup and text, and the document that is made of them. The
parsers for embedded code and for elements are parameters.

An end tag in content may belong to a flattened element, one that was opened past the nesting limit.
It then closes that element and, as unclosed, those that were flattened inside it. Any other end tag
closes nothing here and is reported.
-/

namespace Stencil.Parse

/-! ## End tags and open elements -/

/-- Reports an element without an end tag, at its name. -/
def reportMissingEnd (name : Text) (place : Option Location) : Parse Unit := do
  report (.missingEndTag name) (place.getD (.empty (← get).pos))

/-- Closes the flattened elements with an index from `base` up, which all lack their end tags. -/
def closeFlattened (base : Nat) : Parse Unit := do
  let gone := (← get).flattenedFrom base
  modify fun c => c.truncateFlattened base
  gone.forM fun f => reportMissingEnd f.name f.location

/-- Reads the end tag at the cursor if it belongs to a flattened element with an index from `base`
up. The flattened elements inside that one are closed without end tags. -/
def flattenedEnd? (base : Nat) : Parse (Option Node) := do
  let c ← get
  match c.rest.endTagName?.bind fun name => c.findFlattened? name base with
  | some index =>
    closeFlattened (index + 1)
    modify fun c => c.truncateFlattened index
    return some (← endTag)
  | none => return none

/-- An end tag that closes nothing. -/
def orphanEnd : Parse Node := do
  let tag ← endTag
  let c ← get
  let name := tag.tagName?.getD []
  let place := ((tag.child? .htmlTagName).bind Node.location?).getD (.empty c.pos)
  if Html.isVoid name then report (.voidElementEndTag name) place
  else
    match c.currentElement? with
    | some opened => report (.mismatchedEndTag name opened) place
    | none => report (.unexpectedEndTag name) place
  return tag

/-! ## Content -/

/-- Whether a run of content text ends at a place. -/
def stopsText (transition : Char) (previous : Option Char) (t : Text) : Bool :=
  t.ahead 0 == '<' || startsTransition transition previous t

/-- A run of text without blanks at its start. The blanks at its end become trivia. -/
def literalRun (lead : Option Location) : Parse Node := do
  let c ← get
  let l ← read (c.rest.runLength (stopsText c.transition) c.previous?)
  let core := l.text.trimRight.length
  if core = l.text.length then return (Node.token .literal l).withLead lead
  else
    let (head, tail) := l.splitAt core
    return (Node.token .literal head).withTrivia ⟨lead, some tail⟩

/-- Content text. Text of nothing but blanks is a node of trivia. -/
def contentText : Parse Node := do
  let lead ← blanks
  let c ← get
  if c.atEnd || stopsText c.transition c.previous? c.rest then
    match lead with
    | some l => return .token .trivia l
    -- text is asked for only where it can start; reads on anyway
    | none => token .literal 1
  else literalRun lead

/-- The markup at the cursor. -/
def markup (element : Parse Node) : Parse Node := do
  let t := (← get).rest
  if t.startsWith commentRegion.start then region commentRegion
  else if t.startsWith cdataRegion.start then region cdataRegion
  else if t.startsWith ['<', '!'] then declaration
  else if t.startsWith ['<', '/'] then orphanEnd
  else element

/-- One node of content: embedded code, markup, or text. -/
def content (code element : Parse Node) : Parse Node := do
  let c ← get
  if c.atTransition then code
  else if c.current = '<' then markup element
  else contentText

/-- One node of a document. -/
def documentPart (code element : Parse Node) (base : Nat) : Parse (Option Node) := do
  if (← get).atEnd then return none
  else
    match ← flattenedEnd? base with
    | some tag => return some tag
    | none => return some (← content code element)

/-- A document. -/
def document (code element : Parse Node) : Parse Node := do
  let base := (← get).flattenedCount
  let nodes ← manyNodes (documentPart code element base)
  closeFlattened base
  return .ofChildren .document nodes

end Stencil.Parse
