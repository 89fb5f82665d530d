import Stencil.Compile

/-!
# Log lines

What the program says about its own work when asked to: one line for a whole template and, on the
finer level, one for every diagnostic and every node that a grammar produced.
-/

namespace Stencil

/-- The lines on one call of a grammar. -/
def Round.traceLines (r : Round) : List String :=
  r.reported.map (fun d => s!"diagnostic: {d.summary}") ++
    [s!"produced {r.node.kind.name} at offset {r.offset}"]

/-- The lines on all calls of a grammar. -/
def Run.traceLines (r : Run) : List String :=
  r.rounds.flatMap Round.traceLines ++
    if r.stalled then [s!"grammar '{r.language}' made no progress, ending parse"] else []

/-- The line on a template that was read. -/
def Run.debugLine (r : Run) : String :=
  let t := r.template
  s!"parsed {r.final.pos.offset} chars as '{r.language}': {t.nodes.length} top-level nodes, " ++
    s!"{t.diagnostics.length} diagnostics"

/-- The line on a generated function. -/
def Rendered.debugLine (r : Rendered) (file : String) : String :=
  s!"generated {r.code.lines.length} lines for {file} " ++
    s!"({r.mappings.length} mappings, {r.ranges.length} ranges)"

namespace Command

/-- The levels of log lines. -/
inductive LogLevel where
  | debug
  | trace
deriving DecidableEq, Repr, Inhabited

namespace LogLevel

def name : LogLevel → String
  | debug => "DEBUG"
  | trace => "TRACE"

/-- The least verbosity at which lines of a level are shown. -/
def verbosity : LogLevel → Nat
  | debug => 1
  | trace => 2

end LogLevel

end Command

end Stencil
