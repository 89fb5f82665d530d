import Stencil.Grammar.Content

/-!
# Elements

An element is its start tag, what it contains and its end tag. Void and self-closing elements
contain nothing, and a raw text element contains text up to its own end tag, with code in it only if
it is a script. An element past the nesting limit is its start tag alone; what follows it becomes
its siblings.
-/

namespace Stencil.Parse

/-- One node of the content of an element. The content ends before an end tag of the element or of
an open element around it. -/
def elementPart (code element : Parse Node) (name : Text) (base : Nat) :
    Parse (Option Node) := do
  if (← get).atEnd then return none
  else
    match ← flattenedEnd? base with
    | some tag => return some tag
    | none =>
      let c ← get
      match c.rest.endTagName? with
      | some other =>
        if other.sameLetters name || c.isOpen other then return none
        else return some (← content code element)
      | none => return some (← content code element)

/-- The end tag of an element, if it is at the cursor; else its absence is reported. -/
def elementEnd (name : Text) (place : Option Location) : Parse (List Node) := do
  let c ← get
  if c.rest.endTagName?.any fun other => other.sameLetters name then return [← endTag]
  else
    reportMissingEnd name place
    return []

/-- The content of an element, with its end tag. -/
def elementContent (code element : Parse Node) (name : Text) (place : Option Location) :
    Parse (List Node) := do
  modify fun c => c.pushElement name
  let base := (← get).flattenedCount
  let nodes ← manyNodes (elementPart code element name base)
  closeFlattened base
  let last ← elementEnd name place
  modify Context.popElement
  return nodes ++ last

/-- Whether the end tag of a raw text element stands at the start of a text. -/
def endsRawText (name t : Text) : Bool :=
  t.startsWithLetters ('<' :: '/' :: name) && !Html.isNameChar (t.ahead (name.length + 2))

/-- One node of raw text: embedded code, in a script only, or text up to the end tag. -/
def rawTextPart (code : Parse Node) (name : Text) : Parse (Option Node) := do
  let c ← get
  let script := Html.isScript name
  if c.atEnd || endsRawText name c.rest then return none
  else if script && c.atTransition then return some (← code)
  else
    let stop (previous : Option Char) (t : Text) :=
      endsRawText name t || (script && startsTransition c.transition previous t)
    return some (← token .rawText (c.rest.runLength stop c.previous?))

/-- The content of a raw text element, with its end tag. -/
def rawTextContent (code : Parse Node) (name : Text) : Parse (List Node) := do
  let nodes ← manyNodes (rawTextPart code name)
  if (← get).atEnd then
    reportHere (.unterminatedRawText name)
    return nodes
  else return nodes ++ [← endTag]

/-- An element. `code` and `element` read what is nested in it. -/
def nestedElement (code element : Parse Node) : Parse Node := do
  let o ← opening code
  match o.contentName? with
  | none => return .ofChildren o.kind [o.tag]
  | some name =>
    let rest ←
      if Html.isRawText name then rawTextContent code name
      else elementContent code element name o.place
    return .ofChildren o.kind (o.tag :: rest)

/-- An element past the nesting limit. Unless its content is raw text, it consists of its start tag
and counts as open from here on. -/
def flatElement (code : Parse Node) : Parse Node := do
  modify Context.reportTooDeep
  let o ← opening code
  match o.contentName? with
  | none => return .ofChildren o.kind [o.tag]
  | some name =>
    if Html.isRawText name then
      return .ofChildren o.kind (o.tag :: (← rawTextContent code name))
    else
      modify fun c => c.pushFlattened name o.place
      return .ofChildren o.kind [o.tag]

end Stencil.Parse
