import Stencil.Grammar.Level
import Stencil.Template

/-!
# Grammars

A grammar produces the top-level nodes of a template one by one; it says that it is done by a node
of kind `endOfFile`. A registry holds at most one grammar for a language. `Grammar.run` calls a
grammar until it is done or stops reading on, whatever it does otherwise.
-/

namespace Stencil

/-- A way to read templates in one language. -/
structure Grammar where
  language : String
  /-- Produces the next top-level node. -/
  next : Parse Node

/-- One call of a grammar: what it produced, where it started, and what it reported. -/
structure Round where
  node : Node
  offset : Nat
  reported : List Diagnostic
deriving Repr, Inhabited

namespace Round

/-- Whether the grammar said with this round that it is done. -/
def isLast (r : Round) : Bool :=
  r.node.kind == .endOfFile

end Round

/-- All calls of a grammar for one template. -/
structure Run where
  language : String
  rounds : List Round
  /-- The context after the last round. -/
  final : Context
deriving Repr, Inhabited

namespace Grammar

/-- Markup with embedded code. -/
def template : Grammar :=
  ⟨"kiln", Parse.template⟩

/-- Calls a grammar until it is done or has not read on. -/
def rounds (g : Grammar) (c : Context) : List Round × Context :=
  match g.next c with
  | (node, d) =>
    let round : Round :=
      ⟨node, c.pos.offset, d.diagnostics.drop c.diagnostics.length⟩
    if round.isLast then ([round], d)
    else if _h : d.rest.length < c.rest.length then
      match rounds g d with
      | (more, last) => (round :: more, last)
    else ([round], d)
termination_by c.rest.length

/-- All calls of a grammar for a text. -/
def run (g : Grammar) (options : ParseOptions) (t : Text) : Run :=
  let (rounds, final) := g.rounds (.ofText options t)
  ⟨g.language, rounds, final⟩

end Grammar

namespace Run

/-- Whether the grammar stopped reading on before it said that it is done. -/
def stalled (r : Run) : Bool :=
  !(r.rounds.getLast?.any Round.isLast)

/-- The template that was read. A grammar that stopped reading on is cut off with the end of the
file. -/
def template (r : Run) : Template where
  nodes :=
    r.rounds.map Round.node ++
      if r.stalled then [.marker .endOfFile (.empty r.final.pos)] else []
  diagnostics := r.final.diagnostics

end Run

/-- Why a template cannot be read at all. -/
inductive ParseError where
  | noGrammar (language : String)
deriving DecidableEq, Repr, Inhabited

def ParseError.message : ParseError → String
  | noGrammar language => s!"no grammar registered for language '{language}'"

/-- The grammars at hand, in the order of their registration. -/
structure Registry where
  grammars : List Grammar := []

namespace Registry

/-- Adds a grammar in place of the one for its language, if there is one. -/
def register (r : Registry) (g : Grammar) : Registry :=
  ⟨r.grammars.filter (fun other => other.language != g.language) ++ [g]⟩

/-- The registry that holds the template grammar. -/
def standard : Registry :=
  ({} : Registry).register .template

/-- The grammar for a language. -/
def get? (r : Registry) (language : String) : Option Grammar :=
  r.grammars.find? fun g => g.language == language

def languages (r : Registry) : List String :=
  r.grammars.map Grammar.language

/-- The registry on one line, with its languages. -/
def render (r : Registry) : String :=
  let names := ", ".intercalate (r.languages.map fun l => String.ofList (Text.shown l.toList))
  s!"GrammarRegistry \x7b languages: [{names}] \x7d"

/-- Reads a text in a language and keeps all calls of its grammar. -/
def run (r : Registry) (options : ParseOptions) (language : String) (t : Text) :
    Except ParseError Run :=
  match r.get? language with
  | some g => .ok (g.run options t)
  | none => .error (.noGrammar language)

/-- Reads a text in a language. -/
def parse (r : Registry) (options : ParseOptions) (language : String) (t : Text) :
    Except ParseError Template :=
  (r.run options language t).map Run.template

end Registry

namespace Template

/-- Reads a text with the standard grammars. -/
def parse (options : ParseOptions) (t : Text) : Except ParseError Template :=
  Registry.standard.parse options options.language t

end Template

end Stencil
