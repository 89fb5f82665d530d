import Stencil.Script.Emitter
import Stencil.Script.Injection
import Stencil.Syntax.Node
import Stencil.Template

/-!
# Render functions

A template becomes a module with one function. Text and markup are written as they are, code
between them becomes statements, and the value of a code expression inside an element is written
out. A template with errors gives a function as well, for what was recognised.
-/

namespace Stencil

/-- How the function is generated. -/
structure RenderOptions where
  /-- The name of the function. -/
  functionName : String := "render"
  /-- The file that mappings point into. -/
  filePath : String := "template.kiln"
  /-- Whether ranges and injections are wanted. -/
  includeRanges : Bool := false
deriving DecidableEq, Repr, Inhabited

/-- A generated function with its links to the source. -/
structure Rendered where
  code : Text
  mappings : List Mapping
  /-- The mappings that were handed on to the source map. -/
  traced : List Mapping
  ranges : List CodeRange
  injections : List Injection
deriving DecidableEq, Repr, Inhabited

namespace Node

/-- Writes the blanks on one side of a node. -/
def emitBlanks (l : Option Location) (e : Emitter) : Emitter :=
  match l with
  | some l => e.literal l.text l
  | none => e

/-- Writes a code expression: its value inside an element, else a statement. -/
def emitExpression (children : List Node) (e : Emitter) : Emitter :=
  match children.find? fun n => n.kind == .codeValue with
  | some (leaf _ (.token code) l _) =>
    if e.scope? = some .insideTag then e.expression code l else e.statement code l
  | _ => e

/-- Writes a brace of the code. The function stays balanced where a brace is missing: the first
brace opens, every other one closes. -/
def emitBrace (first : Bool) (n : Node) (e : Emitter) : Emitter :=
  match n with
  | leaf _ (.token brace) l _ => e.statement brace l
  | leaf _ _ l _ => e.statement (if first then ['{'] else ['}']) l
  | branch _ _ _ => e

/-- Writes a leaf by its kind. -/
def emitLeaf (k : Kind) (content : Leaf) (l : Location) (e : Emitter) : Emitter :=
  match k, content with
  | .codeValue, .token code => e.statement code l
  | .codeValue, _ => e
  | .escapedTransition, .token value => e.literal value l
  | .escapedTransition, _ => e
  | .trivia, _ | .literal, _ | .brace, _ | .bracket, _ | .equals, _ | .quote, _ | .doctype, _
  | .commentStart, _ | .commentContent, _ | .commentEnd, _ | .cdataStart, _ | .cdataContent, _
  | .cdataEnd, _ | .htmlTagName, _ | .attributeName, _ | .rawText, _ => e.literal l.text l
  | .document, _ => e.within .document id
  | .htmlTag, _ | .scriptTag, _ | .styleTag, _ => e.within .insideTag id
  | .codeBlock, _ => e.within .insideCodeBlock id
  | _, _ => e

mutual

/-- Writes a node and everything below it. -/
def emit : Node → Emitter → Emitter
  | leaf k c l t, e => emitBlanks t.trail (emitLeaf k c l (emitBlanks t.lead e))
  | branch k cs t, e =>
    let e := emitBlanks t.lead e
    emitBlanks t.trail <|
      match k with
      | .document => e.within .document (emitAll cs)
      | .htmlTag | .scriptTag | .styleTag => e.within .insideTag (emitAll cs)
      | .codeBlock => e.within .insideCodeBlock (emitBlock cs)
      | .codeBrace => emitBraces true cs e
      | .codeExpression => emitExpression cs e
      | .htmlStartTag | .htmlAttributes | .htmlAttribute | .attributeValue | .htmlEndTag
      | .comment | .cdata => emitAll cs e
      | _ => e

/-- Writes nodes one after the other. -/
def emitAll : List Node → Emitter → Emitter
  | [], e => e
  | n :: ns, e => emitAll ns (emit n e)

/-- Writes the parts of a code block. Its transition and its own braces belong to the template, not
to the code. -/
def emitBlock : List Node → Emitter → Emitter
  | [], e => e
  | n :: ns, e =>
    if n.kind = .transition ∨ n.kind = .brace then emitBlock ns e else emitBlock ns (emit n e)

/-- Writes the parts of nested braces, which belong to the code. -/
def emitBraces (first : Bool) : List Node → Emitter → Emitter
  | [], e => e
  | n :: ns, e =>
    if n.kind = .brace then emitBraces false ns (emitBrace first n e)
    else emitBraces false ns (emit n e)

end

end Node

namespace Template

/-- The emitter that has written the lines of the render function. -/
def emitted (t : Template) (options : RenderOptions) : Emitter :=
  let e : Emitter := { source := t.source, collectRanges := options.includeRanges }
  let head := s!"export default function {options.functionName}(model, __writer) \x7b"
  (Node.emitAll t.nodes (e.line head.toList)).line ['}']

/-- The lines of the render function, as output. -/
def output (t : Template) (options : RenderOptions) : Output :=
  (t.emitted options).finish

/-- The render function of a template. -/
def render (t : Template) (options : RenderOptions) : Rendered :=
  let o := t.output options
  { code := o.code
    mappings := o.mappings
    traced := (t.emitted options).flush.traced
    ranges := o.ranges
    injections := if options.includeRanges then Injection.all o.code o.ranges else [] }

end Template

end Stencil
