import Stencil.Syntax.Node

/-!
# Walks

A walk through a tree in document order, as the list of what it meets: the blanks before a node,
the node on the way in, its children unless they are skipped, the node on the way out, and the
blanks after it.
-/

namespace Stencil

/-- One thing that a walk meets. -/
inductive Visit where
  | trivia (l : Location)
  | enter (n : Node)
  | leave (n : Node)
deriving Repr, Inhabited

namespace Node

/-- The blanks on one side of a node, as a walk meets them. -/
def blankVisits (l : Option Location) : List Visit :=
  match l with
  | some l => [.trivia l]
  | none => []

mutual

/-- The walk through a node; the children of a node for which `skip` holds are left out. -/
def walk (skip : Node → Bool) : Node → List Visit
  | leaf k c l t =>
    blankVisits t.lead ++ [.enter (leaf k c l t), .leave (leaf k c l t)] ++ blankVisits t.trail
  | branch k cs t =>
    let inner := if skip (branch k cs t) then [] else walkAll skip cs
    blankVisits t.lead ++ [.enter (branch k cs t)] ++ inner ++ [.leave (branch k cs t)] ++
      blankVisits t.trail

/-- The walk through several nodes. -/
def walkAll (skip : Node → Bool) : List Node → List Visit
  | [] => []
  | n :: ns => walk skip n ++ walkAll skip ns

end

end Node

end Stencil
