import Stencil.Location
import Stencil.Script.Output
import Stencil.Text.Quoted

/-!
# Emitters

An emitter writes the lines of a render function. Literal text is held back so that adjacent pieces
become one call; code is written verbatim on a line of its own. Every line made from the source gets
a mapping and, if asked for, a range.
-/

namespace Stencil

/-- What the emitted code stands in. It decides what becomes of a code expression. -/
inductive Scope where
  | document
  | insideTag
  | insideCodeBlock
deriving DecidableEq, Repr, Inhabited

namespace Scope

def name : Scope → String
  | document => "Document"
  | insideTag => "InsideTag"
  | insideCodeBlock => "InsideCodeBlock"

/-- The scope with a given name. -/
def ofName? (s : String) : Option Scope :=
  [document, insideTag, insideCodeBlock].find? fun v => v.name == s

end Scope

/-- Literal text that waits to be written. -/
structure Pending where
  text : Text
  start : Position
  stop : Position
deriving DecidableEq, Repr, Inhabited

/-- The state of writing a render function. -/
structure Emitter where
  /-- The template text, from which offsets in UTF-16 units are taken. -/
  source : Text
  /-- Whether ranges are recorded. -/
  collectRanges : Bool
  output : Output := {}
  /-- The scopes around the next line, the innermost first. -/
  scopes : List Scope := []
  /-- The greatest number of scopes so far. -/
  maxDepth : Nat := 0
  pending : Option Pending := none
  /-- The mappings that were handed on to a source map, in their order. -/
  traced : List Mapping := []
deriving DecidableEq, Repr, Inhabited

namespace Emitter

/-- The innermost scope. -/
def scope? (e : Emitter) : Option Scope :=
  e.scopes.head?

/-- Puts a scope around what comes next. -/
def enter (e : Emitter) (s : Scope) : Emitter :=
  { e with scopes := s :: e.scopes, maxDepth := max e.maxDepth (e.scopes.length + 1) }

/-- Takes the innermost scope away. -/
def leave (e : Emitter) : Emitter :=
  { e with scopes := e.scopes.tail }

/-- Does something inside a scope. -/
def within (e : Emitter) (s : Scope) (act : Emitter → Emitter) : Emitter :=
  (act (e.enter s)).leave

/-- The offset of a position in UTF-16 units. -/
def unitOffset (e : Emitter) (p : Position) : Nat :=
  e.source.unitOffset p.offset

/-- The column of a position in UTF-16 units: the units between the start of its line and itself. -/
def unitColumn (e : Emitter) (p : Position) : Nat :=
  Text.unitOffset (e.source.drop (p.offset - p.col)) (min p.col p.offset)

/-- Writes a text. -/
def write (e : Emitter) (t : Text) : Emitter :=
  { e with output := e.output.push t }

/-- Records that what is written next comes from a position, and hands the mapping on. -/
def mapHere (e : Emitter) (p : Position) : Emitter :=
  { e with
    output := e.output.mapHere p.line (e.unitColumn p)
    traced := e.traced ++ [e.output.mappingHere p.line (e.unitColumn p)] }

/-- Records a range, if ranges are wanted. -/
def addRange (e : Emitter) (kind : RangeKind) (start stop : Position)
    (compiledStart compiledStop : Nat) (verbatim : Bool) : Emitter :=
  let range : CodeRange :=
    ⟨kind, e.unitOffset start, e.unitOffset stop, compiledStart, compiledStop, verbatim⟩
  if e.collectRanges then { e with output := e.output.addRange range } else e

/-- What stands before every line of the function. -/
def indent : Text := [' ', ' ']

/-- Adds literal text to what waits to be written. -/
def literal (e : Emitter) (t : Text) (l : Location) : Emitter :=
  if t.isEmpty then e
  else
    match e.pending with
    | some p => { e with pending := some { p with text := p.text ++ t, stop := l.stop } }
    | none => { e with pending := some ⟨t, l.start, l.stop⟩ }

/-- Writes the literal text that waits, as one call. -/
def flush (e : Emitter) : Emitter :=
  match e.pending with
  | none => e
  | some p =>
    let opened :=
      (({ e with pending := none }.write indent).mapHere p.start).write
        "__writer.writeLiteral(".toList
    let filled := opened.write p.text.quoted
    (filled.write ");\n".toList).addRange .html p.start p.stop
      (opened.output.length + 1) (filled.output.length - 1) false

/-- Writes code between two texts on a line of its own. -/
def codeLine (e : Emitter) (opening closing code : Text) (l : Location) : Emitter :=
  if code.allBlank then e
  else
    let opened := ((e.flush.write indent).write opening).mapHere l.start
    let filled := opened.write code
    (filled.write closing).addRange .javascript l.start l.stop
      opened.output.length filled.output.length (l.text == code)

/-- Writes code as a statement. -/
def statement (e : Emitter) (code : Text) (l : Location) : Emitter :=
  e.codeLine [] ['\n'] code l

/-- Writes code as an expression whose value is written out. -/
def expression (e : Emitter) (code : Text) (l : Location) : Emitter :=
  e.codeLine "__writer.write(".toList ");\n".toList code l

/-- Writes a line that no part of the source stands for. -/
def line (e : Emitter) (t : Text) : Emitter :=
  (e.flush.write t).write ['\n']

/-- The output once all literal text is written. -/
def finish (e : Emitter) : Output :=
  e.flush.output

end Emitter

end Stencil
