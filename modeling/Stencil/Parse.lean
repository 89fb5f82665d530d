import Stencil.Context
import Stencil.Syntax.Node

/-!
# Parsing steps

A parsing step reads on in a context and gives a result. Steps are put together in sequence; the
one loop is `Parse.many`, which repeats a step for as long as it gives nodes and reads on.
-/

namespace Stencil

/-- A step of reading a template. -/
abbrev Parse := StateM Context

namespace Parse

/-- Reports a problem at a place. -/
def report (p : Problem) (l : Location) : Parse Unit :=
  modify fun c => c.report (p.located l)

/-- Reports a problem at the cursor. -/
def reportHere (p : Problem) : Parse Unit :=
  modify fun c => c.report (p.located (.empty c.pos))

/-- Reads the next `n` characters. -/
def read (n : Nat) : Parse Location :=
  modifyGet fun c => c.read n

/-- Reads the next `n` characters as a token. -/
def token (k : Kind) (n : Nat) : Parse Node := do
  return .token k (← read n)

/-- A token that is not at the cursor. -/
def missing (k : Kind) : Parse Node := do
  return .missing k (← get).pos

/-- Reports that something wanted is not at the cursor, and stands in for it. -/
def absent (k : Kind) (w : Wanted) : Parse Node := do
  reportHere (.expected w (← get).rest.head?)
  missing k

/-- Reads a wanted token if it is at the cursor, else reports it and stands in for it. -/
def expect (k : Kind) (w : Wanted) : Parse Node := do
  if (← get).rest.startsWith w.text then token k w.text.length else absent k w

/-- Reads the blanks at the cursor, if there are any. -/
def blanks : Parse (Option Location) := do
  let n := (← get).rest.blanksAhead
  if n = 0 then return none else return some (← read n)

/-- Repeats a step, which carries a state along, and collects its nodes. The loop ends when the step
gives no node; a step that gives a node and reads nothing ends it as well. -/
def many {σ : Type} (step : σ → Parse (Option (Node × σ))) (s : σ) :
    Parse (List Node × σ) := fun c =>
  match step s c with
  | (none, d) => (([], s), d)
  | (some (n, s'), d) =>
    if _h : d.rest.length < c.rest.length then
      match many step s' d with
      | ((ns, last), e) => ((n :: ns, last), e)
    else (([n], s'), d)
termination_by c => c.rest.length

/-- Repeats a step without a state. -/
def manyNodes (step : Parse (Option Node)) : Parse (List Node) := do
  let (nodes, _) ← many (fun _ => do return (← step).map fun n => (n, ())) ()
  return nodes

end Parse

end Stencil
