import Stencil.Grammar.Element

/-!
# Nesting levels

Elements and code braces nest, up to a limit. What may be nested is read by the three parsers of a
`Level`, and a level is built from the level below it: the content of an element and the body of a
brace are read with one level of nesting less. At the ground level nothing nests any more.
-/

namespace Stencil

/-- The parsers for what may be nested, at one level of nesting. -/
structure Level where
  /-- What a transition at the cursor introduces. -/
  code : Parse Node
  /-- The element at the cursor. -/
  element : Parse Node
  /-- The body of a brace that was opened at the cursor. -/
  body : Parse (List Node)

namespace Level

/-- The level at which nothing may be nested. -/
def ground : Level where
  code := Parse.embedded Parse.flatBody
  element := Parse.flatElement (Parse.embedded Parse.flatBody)
  body := Parse.flatBody

/-- The level above another one, which is given as a function so that it is built only if
something is nested. -/
def above (inner : Unit → Level) : Level where
  code c := Parse.embedded (inner ()).body c
  element c := Parse.nestedElement (inner ()).code (inner ()).element c
  body c :=
    Parse.codeBody (inner ()).body (Parse.nestedElement (inner ()).code (inner ()).element) c

/-- The level at which `room` more levels may be nested. -/
def ofRoom : Nat → Level
  | 0 => ground
  | room + 1 => above fun _ => ofRoom room

end Level

namespace Parse

/-- The document first, and the end of the file after it. -/
def template : Parse Node := do
  let c ← get
  if c.rootParsed then return .marker .endOfFile (.empty c.pos)
  else
    set { c with rootParsed := true }
    let level := Level.ofRoom c.room
    document level.code level.element

end Parse

end Stencil
