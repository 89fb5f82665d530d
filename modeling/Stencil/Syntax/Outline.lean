import Stencil.Syntax.Node
import Stencil.Text.Escaped

/-!
# Outlines

A tree written as indented lines, one line per node: its kind, what it says, and its trivia.
-/

namespace Stencil.Node

/-- What a leaf adds to its line. -/
def leafNote (content : Leaf) (l : Location) : Text :=
  match content with
  | .token v => ' ' :: v.shown
  | .missing => " <missing>".toList
  | .marker => ' ' :: l.text.shown

/-- What the trivia of a node add to its line. -/
def triviaNote (t : Trivia) : Text :=
  (match t.lead with
    | some l => " lead=".toList ++ l.text.shown
    | none => []) ++
  (match t.trail with
    | some l => " trail=".toList ++ l.text.shown
    | none => [])

/-- The start of a line at a depth: two spaces for each level, then the kind. -/
def lineStart (depth : Nat) (k : Kind) : Text :=
  List.replicate (2 * depth) ' ' ++ k.name.toList

mutual

/-- The outline of a node at a depth. -/
def outline (depth : Nat) : Node → Text
  | leaf k c l t => lineStart depth k ++ leafNote c l ++ triviaNote t ++ ['\n']
  | branch k cs t => lineStart depth k ++ triviaNote t ++ ['\n'] ++ outlineAll (depth + 1) cs

/-- The outlines of several nodes, one after the other. -/
def outlineAll (depth : Nat) : List Node → Text
  | [] => []
  | n :: ns => outline depth n ++ outlineAll depth ns

end

end Stencil.Node
