import Stencil.Syntax.Node

/-!
# Semantic tokens

What an editor highlights: every leaf of the tree that has a class, one token for each of its lines.
Editors take them in a relative form of five numbers each.
-/

namespace Stencil

/-- The highlighting class of a token. -/
inductive TokenClass where
  | tag
  | attr
  | string
  | keyword
  | comment
  | operator
  | code
  | text
deriving DecidableEq, Repr, Inhabited

namespace TokenClass

/-- The classes in the order of their numbers. -/
def legend : List TokenClass :=
  [tag, attr, string, keyword, comment, operator, code, text]

def name : TokenClass → String
  | tag => "tag"
  | attr => "attribute"
  | string => "string"
  | keyword => "keyword"
  | comment => "comment"
  | operator => "operator"
  | code => "code"
  | text => "text"

/-- The class with a given name. -/
def ofName? (s : String) : Option TokenClass :=
  legend.find? fun k => k.name == s

/-- The number of a class. -/
def number (k : TokenClass) : Nat :=
  legend.idxOf k

/-- The class of a leaf by its kind. A literal is a string inside an attribute value. -/
def ofKind? (inValue : Bool) : Kind → Option TokenClass
  | .htmlTagName => some tag
  | .attributeName => some attr
  | .quote => some string
  | .literal => some (if inValue then string else text)
  | .cdataContent => some text
  | .doctype | .cdataStart | .cdataEnd => some keyword
  | .commentStart | .commentContent | .commentEnd => some comment
  | .bracket | .equals | .brace | .transition | .escapedTransition => some operator
  | .codeValue | .rawText => some code
  | _ => none

end TokenClass

/-- A stretch of one line with its class. Columns count characters. -/
structure SemanticToken where
  line : Nat
  startCol : Nat
  length : Nat
  kind : TokenClass
deriving DecidableEq, Repr, Inhabited

namespace SemanticToken

/-- The tokens of a location: one for each line on which it holds a character. -/
def ofLocation (kind : TokenClass) (l : Location) : List SemanticToken :=
  (l.lines.filter fun span => !span.isEmpty).map
    fun span => ⟨span.line, span.startCol, span.length, kind⟩

mutual

/-- The tokens of a node; `inValue` says whether it stands inside an attribute value. -/
def ofNode (inValue : Bool) : Node → List SemanticToken
  | .leaf k _ l _ =>
    match TokenClass.ofKind? inValue k with
    | some kind => ofLocation kind l
    | none => []
  | .branch k cs _ => ofNodes (inValue || k == .attributeValue) cs

/-- The tokens of several nodes. -/
def ofNodes (inValue : Bool) : List Node → List SemanticToken
  | [] => []
  | n :: ns => ofNode inValue n ++ ofNodes inValue ns

end

/-- The order of positions. -/
def inOrder (a b : SemanticToken) : Bool :=
  a.line < b.line || (a.line == b.line && a.startCol ≤ b.startCol)

/-- The five numbers of a token after a position: lines and columns on from there, its length, the
number of its class, and no modifiers. Columns start anew on a new line. Each number is cut to 32
bits. -/
def encodeAfter (line col : Nat) (t : SemanticToken) : List UInt32 :=
  let lines := t.line - line
  let cols := if lines = 0 then t.startCol - col else t.startCol
  [lines.toUInt32, cols.toUInt32, t.length.toUInt32, t.kind.number.toUInt32, 0]

/-- The relative form of tokens in the order of their positions. -/
def encodeFrom (line col : Nat) : List SemanticToken → List UInt32
  | [] => []
  | t :: more => encodeAfter line col t ++ encodeFrom t.line t.startCol more

/-- The relative form of tokens in any order. -/
def encode (tokens : List SemanticToken) : List UInt32 :=
  encodeFrom 0 0 (tokens.mergeSort inOrder)

end SemanticToken

end Stencil
