import Stencil.Grammar.Transition
import Stencil.Html

/-!
# Tags

Start tags with their attributes, and end tags. Attribute values may hold embedded code; so may the
list of attributes itself. Blanks become trivia of the token after them.
-/

namespace Stencil

namespace Text

/-- The number of characters of a tag name at the start of a text. -/
def nameLength (t : Text) : Nat :=
  (t.takeWhile Html.isNameChar).length

/-- The name in the end tag that a text starts with, if it starts with one. The name may be
empty. -/
def endTagName? (t : Text) : Option Text :=
  if t.startsWith ['<', '/'] then some ((t.drop 2).takeWhile Html.isNameChar) else none

/-- Whether a start tag ends, or breaks off, at the start of a text. -/
def endsTag (t : Text) : Bool :=
  t.ahead 0 == '>' || t.ahead 0 == '<' || t.startsWith ['/', '>']

/-- Whether an unquoted attribute value ends at the start of a text. -/
def endsUnquoted (t : Text) : Bool :=
  isBlank (t.ahead 0) || t.endsTag

/-- Whether an attribute name ends at the start of a text. -/
def endsAttributeName (t : Text) : Bool :=
  t.endsUnquoted || t.ahead 0 == '=' || t.ahead 0 == '"' || t.ahead 0 == '\''

/-- Whether a text starts with a quote around an attribute value. -/
def startsQuote (t : Text) : Bool :=
  t.ahead 0 == '"' || t.ahead 0 == '\''

end Text

/-- What is read of an element up to the end of its start tag. -/
structure Opening where
  /-- The start tag. -/
  tag : Node
  name : Option Text
  /-- Where the name stands, or should stand. -/
  place : Option Location
  /-- Whether the tag is closed by `>`, so that content may follow. -/
  closed : Bool

namespace Opening

/-- The name of the element if content follows its start tag. -/
def contentName? (o : Opening) : Option Text :=
  o.name.filter fun name => o.closed && !Html.isVoid name

/-- The kind of the element. -/
def kind (o : Opening) : Kind :=
  match o.name with
  | some name =>
    if Html.isScript name then .scriptTag
    else if Html.isStyle name then .styleTag
    else .htmlTag
  | none => .htmlTag

end Opening

namespace Parse

/-- A tag name. -/
def tagName : Parse Node := do
  let n := (← get).rest.nameLength
  if n = 0 then absent .htmlTagName .tagName else token .htmlTagName n

/-! ## Attributes -/

/-- One part of an attribute value: embedded code or a run of text. -/
def valuePart (code : Parse Node) (ends : Text → Bool) : Parse (Option Node) := do
  let c ← get
  if c.atEnd || ends c.rest then return none
  else if c.atTransition then return some (← code)
  else
    let stop (previous : Option Char) (t : Text) :=
      ends t || startsTransition c.transition previous t
    return some (← token .literal (c.rest.runLength stop c.previous?))

/-- The inside of an attribute value. -/
def valueContent (code : Parse Node) (ends : Text → Bool) : Parse Node := do
  return .ofChildren .attributeValue (← manyNodes (valuePart code ends))

/-- An attribute value in the quote at the cursor. -/
def quotedValue (code : Parse Node) : Parse (List Node) := do
  let quote := (← get).current
  let opening ← token .quote 1
  let content ← valueContent code fun t => t.head? == some quote
  if (← get).atEnd then
    reportHere (.unterminatedAttribute quote)
    return [opening, content, ← missing .quote]
  else return [opening, content, ← token .quote 1]

/-- An attribute value. Where there is none, a quote is wanted. -/
def attributeValue (code : Parse Node) : Parse (List Node) := do
  let c ← get
  if c.rest.startsQuote then quotedValue code
  else if c.atEnd || c.rest.endsUnquoted then return [← absent .quote (.quote '"')]
  else return [← valueContent code Text.endsUnquoted]

/-- An attribute name. -/
def attributeName : Parse Node := do
  let c ← get
  if c.current = '=' || c.rest.startsQuote then absent .attributeName .attributeName
  else token .attributeName (c.rest.runLength (fun _ t => t.endsAttributeName) none)

/-- The sign and the value of an attribute after its name, if it has a value. Before a value that
follows its name directly, the sign is missing. -/
def attributeRest (code : Parse Node) (named : Bool) : Parse (List Node) := do
  let c ← get
  if c.rest.ahead c.rest.blanksAhead = '=' then
    let lead ← blanks
    let sign ← token .equals 1
    let trail ← blanks
    return sign.withTrivia ⟨lead, trail⟩ :: (← attributeValue code)
  else if c.rest.startsQuote then
    if named then
      let sign ← absent .equals .equals
      return sign :: (← attributeValue code)
    else attributeValue code
  else return []

/-- An attribute and its name. -/
def attributeNode (code : Parse Node) (lead : Option Location) : Parse (Node × Node) := do
  let name ← attributeName
  let rest ← attributeRest code (!name.isMissing)
  return (.ofChildren .htmlAttribute (name.withLead lead :: rest), name)

/-- What is known in the middle of a list of attributes. -/
structure AttributeState where
  /-- The names seen so far, in lower case. -/
  seen : List Text
  /-- The blanks before the next token. -/
  lead : Option Location

/-- Reports an attribute name that was seen before, and gives the names seen with it. -/
def checkName (seen : List Text) (name : Node) : Parse (List Text) := do
  match name with
  | .leaf _ (.token v) l _ =>
    if seen.contains v.lower then
      report (.duplicateAttribute v.lower) l
      return seen
    else return v.lower :: seen
  | _ => return seen

/-- One attribute, or embedded code among the attributes, with the blanks after it. -/
def attributePart (code : Parse Node) (s : AttributeState) :
    Parse (Option (Node × AttributeState)) := do
  let c ← get
  if c.atEnd || c.rest.endsTag then return none
  else if c.atTransition then
    let node ← code
    return some (node.withLead s.lead, ⟨s.seen, ← blanks⟩)
  else
    let (node, name) ← attributeNode code s.lead
    let seen ← checkName s.seen name
    return some (node, ⟨seen, ← blanks⟩)

/-- The attributes of a start tag, and the blanks after the last of them. -/
def attributes (code : Parse Node) : Parse (Node × Option Location) := do
  let (nodes, s) ← many (attributePart code) ⟨[], ← blanks⟩
  return (.ofChildren .htmlAttributes nodes, s.lead)

/-! ## Tags -/

/-- A start tag. -/
def opening (code : Parse Node) : Parse Opening := do
  let bracket ← token .bracket 1
  let name ← tagName
  let (attrs, lead) ← attributes code
  let c ← get
  let close ←
    if c.rest.startsWith ['/', '>'] then token .bracket 2
    else expect .bracket (.bracket ['>'])
  return {
    tag := .ofChildren .htmlStartTag [bracket, name, attrs, close.withLead lead]
    name := name.value?
    place := name.location?
    closed := c.current = '>' }

/-- An end tag. -/
def endTag : Parse Node := do
  let bracket ← token .bracket 2
  let name ← tagName
  let lead ← blanks
  let close ← expect .bracket (.bracket ['>'])
  return .ofChildren .htmlEndTag [bracket, name, close.withLead lead]

end Parse

end Stencil
