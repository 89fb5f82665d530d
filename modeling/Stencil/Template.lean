import Stencil.Diagnostic.Basic
import Stencil.Syntax.Outline

/-!
# Templates

A template as it was read: its top-level nodes, which for the template grammar are the document and
the end of the file, and every diagnostic in the order of reporting.
-/

namespace Stencil

/-- A template that has been read. -/
structure Template where
  nodes : List Node
  diagnostics : List Diagnostic
deriving Repr, Inhabited

namespace Template

/-- The document node. -/
def root? (t : Template) : Option Node :=
  t.nodes.find? fun n => n.kind == .document

/-- The diagnostics that are errors. -/
def errors (t : Template) : List Diagnostic :=
  t.diagnostics.filter Diagnostic.isError

def hasErrors (t : Template) : Bool :=
  t.diagnostics.any Diagnostic.isError

/-- The text that the template was read from. -/
def source (t : Template) : Text :=
  Node.sourceAll t.nodes

/-- The outline of the tree. -/
def outline (t : Template) : Text :=
  Node.outlineAll 0 t.nodes

end Template

end Stencil
