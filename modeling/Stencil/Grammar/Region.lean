import Stencil.Parse

/-!
# Regions without code

Comments and sections of character data, which run from one delimiter to the next, and declarations,
which run through the first `>`. No code is looked for in any of them.
-/

namespace Stencil.Parse

/-- The tokens and the kinds of a region between two delimiters that holds no code. -/
structure Region where
  kind : Kind
  startKind : Kind
  contentKind : Kind
  stopKind : Kind
  start : Text
  stop : Text
  unterminated : Problem

/-- A comment. -/
def commentRegion : Region :=
  ⟨.comment, .commentStart, .commentContent, .commentEnd, "<!--".toList, "-->".toList,
    .unterminatedComment⟩

/-- A section of character data. -/
def cdataRegion : Region :=
  ⟨.cdata, .cdataStart, .cdataContent, .cdataEnd, "<![CDATA[".toList, "]]>".toList,
    .unterminatedCData⟩

/-- The region whose opening delimiter is at the cursor. -/
def region (r : Region) : Parse Node := do
  let start ← token r.startKind r.start.length
  let c ← get
  let content ← token r.contentKind (c.rest.runLength (fun _ t => t.startsWith r.stop) none)
  if (← get).atEnd then
    reportHere r.unterminated
    return .ofChildren r.kind [start, content, ← missing r.stopKind]
  else return .ofChildren r.kind [start, content, ← token r.stopKind r.stop.length]

/-- A declaration, through the first `>`. -/
def declaration : Parse Node := do
  let c ← get
  let known := c.rest.startsWithLetters "<!doctype".toList
  let body := c.rest.runLength (fun _ t => t.ahead 0 == '>') none
  let l ← read (body + 1)
  if l.text.getLast? ≠ some '>' then report .unterminatedDoctype l
  if !known then report .unknownDeclaration l
  return .token .doctype l

end Stencil.Parse
