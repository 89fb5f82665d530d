import Stencil.Syntax.Node

/-!
# Language regions

The stretches of a template that are written in one language. Transitions and the braces of a code
block belong to the template itself and lie in no region.
-/

namespace Stencil

/-- A language found in a template. -/
inductive Language where
  | html
  | javascript
  | css
deriving DecidableEq, Repr, Inhabited

def Language.name : Language → String
  | html => "html"
  | javascript => "javascript"
  | css => "css"

/-- A stretch of a template in one language. -/
structure LanguageRegion where
  language : Language
  start : Position
  stop : Position
deriving DecidableEq, Repr, Inhabited

/-- What stands around a node: its parent, and the innermost element. -/
structure Surroundings where
  parent : Option Kind := none
  element : Option Kind := none
deriving DecidableEq, Repr, Inhabited

namespace Surroundings

/-- What stands around the children of a node of kind `k`. -/
def inside (s : Surroundings) (k : Kind) : Surroundings :=
  ⟨some k, if k.isElement then some k else s.element⟩

/-- The language of blanks. -/
def blankLanguage (s : Surroundings) : Language :=
  if s.parent = some .codeBlock ∨ s.parent = some .codeBrace then .javascript else .html

/-- The language of a leaf, if it belongs to one. -/
def leafLanguage? (s : Surroundings) : Kind → Option Language
  | .codeValue => some .javascript
  | .rawText => some (if s.element = some .styleTag then .css else .javascript)
  | .brace => if s.parent = some .codeBrace then some .javascript else none
  | .transition | .escapedTransition => none
  | _ => some .html

end Surroundings

/-- A location in a language. -/
structure LanguagePiece where
  language : Language
  location : Location
deriving DecidableEq, Repr, Inhabited

namespace LanguagePiece

/-- The blanks on one side of a node. -/
def ofBlanks (s : Surroundings) (l : Option Location) : List LanguagePiece :=
  match l with
  | some l => [⟨s.blankLanguage, l⟩]
  | none => []

mutual

/-- The pieces of a node in document order. -/
def ofNode (s : Surroundings) : Node → List LanguagePiece
  | .leaf k _ l t =>
    ofBlanks s t.lead ++
      (match s.leafLanguage? k with
        | some language => [⟨language, l⟩]
        | none => []) ++
      ofBlanks s t.trail
  | .branch k cs t => ofBlanks s t.lead ++ ofNodes (s.inside k) cs ++ ofBlanks s t.trail

/-- The pieces of several nodes in document order. -/
def ofNodes (s : Surroundings) : List Node → List LanguagePiece
  | [] => []
  | n :: ns => ofNode s n ++ ofNodes s ns

end

end LanguagePiece

namespace LanguageRegion

/-- Adds a piece to the regions before it, the latest first: it continues a region of the same
language that ends where it starts. Empty pieces add nothing. -/
def add (regions : List LanguageRegion) (p : LanguagePiece) : List LanguageRegion :=
  if p.location.isEmpty then regions
  else
    match regions with
    | last :: more =>
      if last.language = p.language ∧ last.stop = p.location.start then
        { last with stop := p.location.stop } :: more
      else ⟨p.language, p.location.start, p.location.stop⟩ :: last :: more
    | [] => [⟨p.language, p.location.start, p.location.stop⟩]

/-- The regions of pieces in document order. -/
def ofPieces (pieces : List LanguagePiece) : List LanguageRegion :=
  (pieces.foldl add []).reverse

/-- The regions of nodes. -/
def ofNodes (nodes : List Node) : List LanguageRegion :=
  ofPieces (LanguagePiece.ofNodes {} nodes)

end LanguageRegion

end Stencil
