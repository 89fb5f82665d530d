import Stencil.Code.Extent
import Stencil.Parse

/-!
# Embedded code

The transition character introduces code: a block in braces, an expression, or, doubled, the
character itself. A transition that follows a letter or digit, as in a mail address, is plain text
unless it is doubled.
-/

namespace Stencil

/-- Whether a transition to code, or an escaped one, stands at a place, given the character before
it and the text from it on. -/
def startsTransition (transition : Char) (previous : Option Char) (t : Text) : Bool :=
  t.ahead 0 == transition &&
    (t.ahead 1 == transition || !(previous.any Char.isAlphanum))

/-- Whether a transition to code, or an escaped one, stands at the cursor. -/
def Context.atTransition (c : Context) : Bool :=
  startsTransition c.transition c.previous? c.rest

namespace Parse

/-- Reads a piece of code and reports what the end of the template cuts off. -/
def code (e : Code.Extent) : Parse Node := do
  let node ← token .codeValue e.length
  e.unclosed.forM fun u => reportHere (.unexpectedEnd u)
  return node

/-- The transition character as the start of code. -/
def transitionMarker : Parse Node := do
  return .marker .transition (← read 1)

/-- A doubled transition, which stands for the character itself. -/
def escapedTransition : Parse Node := do
  let l ← read 2
  return .leaf .escapedTransition (.token [(← get).transition]) l {}

/-- A transition that introduces nothing and is therefore text. -/
def invalidTransition : Parse Node := do
  let l ← read 1
  report (.invalidTransition (← get).transition) l
  return .token .literal l

/-- An expression: the transition and the longest run of code that continues an identifier. -/
def codeExpression : Parse Node := do
  let marker ← transitionMarker
  let value ← code (Code.expression (← get).rest)
  return .ofChildren .codeExpression [marker, value]

/-- A block: the transition, a brace and the body of the block. -/
def codeBlock (body : Parse (List Node)) : Parse Node := do
  let marker ← transitionMarker
  let opening ← token .brace 1
  return .ofChildren .codeBlock (marker :: opening :: (← body))

/-- What a transition at the cursor introduces. -/
def embedded (body : Parse (List Node)) : Parse Node := do
  let c ← get
  if c.peek = c.transition then escapedTransition
  else if c.peek = '{' then codeBlock body
  else if Code.isIdentifierStart c.peek then codeExpression
  else invalidTransition

/-- A body past the nesting limit: one piece of code up to the brace that closes it. -/
def flatBody : Parse (List Node) := do
  modify Context.reportTooDeep
  let value ← code (Code.flatBody 0 (← get).rest)
  let closing ← expect .brace (.brace '}')
  return if value.source.isEmpty then [closing] else [value, closing]

/-- One part of a body: a pair of braces, an element where a statement may start, or a piece of
code. `last` is the last significant character before it. -/
def bodyPart (nested : Parse (List Node)) (element : Parse Node) (last : Option Char) :
    Parse (Option (Node × Option Char)) := do
  let c ← get
  if c.atEnd || c.current = '}' then return none
  else if c.current = '{' then
    let opening ← token .brace 1
    return some (.ofChildren .codeBrace (opening :: (← nested)), some '}')
  else if Code.startsMarkup last c.rest then
    return some (← element, none)
  else
    let (extent, last) := Code.value last c.rest
    return some (← code extent, last)

/-- A body up to the brace that closes it. `nested` reads the bodies of braces in it. -/
def codeBody (nested : Parse (List Node)) (element : Parse Node) : Parse (List Node) := do
  let (parts, _) ← many (bodyPart nested element) none
  let closing ← expect .brace (.brace '}')
  return parts ++ [closing]

end Parse

end Stencil
