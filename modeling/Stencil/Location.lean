import Stencil.Position
import Stencil.Text.Lines

/-!
# Locations

A location is a stretch of a text: where it starts, where it stops, and the characters in between.
Its parts on the single lines are a function of the start and the characters.
-/

namespace Stencil

/-- The part of a location that falls on one line. -/
structure LineSpan where
  line : Nat
  startCol : Nat
  endCol : Nat
  startByte : Nat
  endByte : Nat
deriving DecidableEq, Repr, Inhabited

namespace LineSpan

/-- Length in characters. -/
def length (s : LineSpan) : Nat :=
  s.endCol - s.startCol

/-- Whether a span holds no character. -/
def isEmpty (s : LineSpan) : Bool :=
  s.startCol == s.endCol

/-- The spans of consecutive lines with the given contents, from a line, a column and a byte on.
Every line but the first starts at column zero, one byte after the end of the line before. -/
def ofPieces (line col byte : Nat) : List Text → List LineSpan
  | [] => []
  | piece :: more =>
    ⟨line, col, col + piece.length, byte, byte + piece.bytes⟩ ::
      ofPieces (line + 1) 0 (byte + piece.bytes + 1) more

end LineSpan

/-- A stretch of text with its two ends. -/
structure Location where
  start : Position
  stop : Position
  text : Text
deriving DecidableEq, Repr, Inhabited

namespace Location

/-- The location of no text at a position. -/
def empty (p : Position) : Location :=
  ⟨p, p, []⟩

/-- The location of a text that starts at a position. -/
def ofText (p : Position) (t : Text) : Location :=
  ⟨p, p.after t, t⟩

/-- The parts on the single lines, in order; never empty. -/
def lines (l : Location) : List LineSpan :=
  LineSpan.ofPieces l.start.line l.start.col l.start.byte l.text.pieces

/-- Length in characters. -/
def length (l : Location) : Nat :=
  l.stop.offset - l.start.offset

/-- Whether both ends have the same offset. -/
def isEmpty (l : Location) : Bool :=
  l.start.offset == l.stop.offset

/-- Whether a position lies at the start or later, and before the stop. -/
def contains (l : Location) (p : Position) : Bool :=
  !p.isBefore l.start && p.isBefore l.stop

/-- The two parts of a location, the first of them `n` characters long or all of it. -/
def splitAt (l : Location) (n : Nat) : Location × Location :=
  let n := min n l.length
  let middle := l.start.after (l.text.take n)
  (⟨l.start, middle, l.text.take n⟩, ⟨middle, l.stop, l.text.drop n⟩)

/-- Both ends for a reader. -/
def render (l : Location) : String :=
  s!"{l.start.render}-{l.stop.render}"

@[simp]
theorem text_empty (p : Position) : (empty p).text = [] := rfl

@[simp]
theorem text_ofText (p : Position) (t : Text) : (ofText p t).text = t := rfl

theorem length_ofText (p : Position) (t : Text) : (ofText p t).length = t.length := by
  simp [length, ofText, Position.offset_after]

end Location

end Stencil
