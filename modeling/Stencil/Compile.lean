import Stencil.Grammar.Registry
import Stencil.Script.Render
import Stencil.Script.SourceMap

/-!
# Compilation

From the text of a template to its render function, with the diagnostics found on the way.
-/

namespace Stencil

/-- A render function together with the diagnostics of the template that it was made from. -/
structure Compiled where
  rendered : Rendered
  diagnostics : List Diagnostic
deriving Repr, Inhabited

namespace Compiled

def hasErrors (c : Compiled) : Bool :=
  c.diagnostics.any Diagnostic.isError

end Compiled

/-- The render function of a template with its diagnostics. -/
def Template.compiled (t : Template) (options : RenderOptions) : Compiled :=
  ⟨t.render options, t.diagnostics⟩

/-- Compiles the text of a template. -/
def compile (parsing : ParseOptions) (options : RenderOptions) (source : Text) :
    Except ParseError Compiled := do
  return (← Template.parse parsing source).compiled options

end Stencil
