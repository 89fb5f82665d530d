import Stencil.Diagnostic.Problem
import Stencil.Text.Ahead
import Stencil.Text.Letters

/-!
# Contexts

The state of reading one template: how far it has been read, what has been reported, and which
elements stand open. `Context.consume` is the only operation that moves the cursor, and it only
moves it on.
-/

namespace Stencil

/-- How a template is read. -/
structure ParseOptions where
  /-- The character that introduces embedded code. -/
  transition : Char := '@'
  /-- The name of the grammar to read with. -/
  language : String := "kiln"
  /-- Elements and code braces nested deeper than this are read flat. -/
  maxNestingDepth : Nat := 128
deriving DecidableEq, Repr, Inhabited

/-- An element that was opened past the nesting limit. Its content is not nested below it, so that
it stays open until its end tag turns up among its siblings. -/
structure Flattened where
  name : Text
  location : Option Location
deriving DecidableEq, Repr, Inhabited

/-- The state of reading one template. -/
structure Context where
  /-- The characters read so far, the latest first. -/
  before : Text := []
  /-- The characters still to come. -/
  rest : Text
  /-- Where the cursor stands. -/
  pos : Position := {}
  /-- Where the current token starts. -/
  mark : Position := {}
  /-- How many of the latest characters are held in the buffer. -/
  held : Nat := 0
  diagnostics : List Diagnostic := []
  transition : Char
  /-- The names of the open elements in lower case, the innermost first. -/
  openElements : List Text := []
  /-- Whether the document node has been produced. -/
  rootParsed : Bool := false
  depth : Nat := 0
  maxDepth : Nat
  /-- Whether the nesting limit has been reported. -/
  depthReported : Bool := false
  /-- The open flattened elements, the innermost first. -/
  flattened : List Flattened := []
deriving Repr, Inhabited

namespace Context

/-- The context in which nothing of a text has been read. -/
def ofText (options : ParseOptions) (t : Text) : Context :=
  { rest := t, transition := options.transition, maxDepth := options.maxNestingDepth }

/-! ## The cursor -/

def atEnd (c : Context) : Bool :=
  c.rest.isEmpty

/-- The character `n` places ahead; `Text.nul` past the end. -/
def peekAt (c : Context) (n : Nat) : Char :=
  c.rest.ahead n

/-- The character at the cursor. -/
def current (c : Context) : Char :=
  c.peekAt 0

/-- The character after the one at the cursor. -/
def peek (c : Context) : Char :=
  c.peekAt 1

/-- The character before the cursor. -/
def previous? (c : Context) : Option Char :=
  c.before.head?

/-- Marks the start of a token and empties the buffer. -/
def reset (c : Context) : Context :=
  { c with mark := c.pos, held := 0 }

/-- Reads the next `n` characters, or all that are left, into the buffer. -/
def consume (c : Context) (n : Nat) : Context :=
  { c with
    before := (c.rest.take n).reverse ++ c.before
    rest := c.rest.drop n
    pos := c.pos.after (c.rest.take n)
    held := c.held + (c.rest.take n).length }

/-- The characters read since the mark was set or the buffer was emptied. -/
def buffer (c : Context) : Text :=
  (c.before.take c.held).reverse

/-- Empties the buffer. -/
def clearBuffer (c : Context) : Context :=
  { c with held := 0 }

/-- Everything read since the mark. -/
def location (c : Context) : Location :=
  ⟨c.mark, c.pos, (c.before.take (c.pos.offset - c.mark.offset)).reverse⟩

/-- Reads the next `n` characters as a token: the mark is set before them, and the buffer is empty
afterwards. -/
def read (c : Context) (n : Nat) : Location × Context :=
  let d := c.reset.consume n
  (d.location, d.clearBuffer)

/-! ## Diagnostics -/

def report (c : Context) (d : Diagnostic) : Context :=
  { c with diagnostics := c.diagnostics ++ [d] }

/-! ## Open elements -/

def pushElement (c : Context) (name : Text) : Context :=
  { c with openElements := name.lower :: c.openElements }

def popElement (c : Context) : Context :=
  { c with openElements := c.openElements.tail }

def isOpen (c : Context) (name : Text) : Bool :=
  c.openElements.contains name.lower

def currentElement? (c : Context) : Option Text :=
  c.openElements.head?

/-! ## Nesting -/

/-- Whether one more level of elements or braces may be opened. -/
def canNest (c : Context) : Bool :=
  c.depth < c.maxDepth

/-- How many more levels of elements or braces may be opened. -/
def room (c : Context) : Nat :=
  c.maxDepth - c.depth

def enterNested (c : Context) : Context :=
  { c with depth := c.depth + 1 }

def leaveNested (c : Context) : Context :=
  { c with depth := c.depth - 1 }

/-- Reports that the nesting limit was met, the first time only. -/
def reportTooDeep (c : Context) : Context :=
  if c.depthReported then c
  else
    { c.report ((Problem.nestingTooDeep c.maxDepth).located (.empty c.pos)) with
      depthReported := true }

def pushFlattened (c : Context) (name : Text) (l : Option Location) : Context :=
  { c with flattened := ⟨name.lower, l⟩ :: c.flattened }

/-- The number of open flattened elements. -/
def flattenedCount (c : Context) : Nat :=
  c.flattened.length

/-- The index, counted from the outermost, of the innermost flattened element of a name among those
with an index from `base` up. -/
def findFlattened? (c : Context) (name : Text) (base : Nat) : Option Nat :=
  ((c.flattened.take (c.flattenedCount - base)).findIdx? fun f => f.name == name.lower).map
    fun i => c.flattenedCount - 1 - i

/-- The flattened elements with an index from `n` up, the innermost first. -/
def flattenedFrom (c : Context) (n : Nat) : List Flattened :=
  c.flattened.take (c.flattenedCount - n)

/-- Forgets the flattened elements with an index from `n` up. -/
def truncateFlattened (c : Context) (n : Nat) : Context :=
  { c with flattened := c.flattened.drop (c.flattenedCount - n) }

end Context

end Stencil
