import Stencil.Location
import Stencil.Syntax.Kind

/-!
# Syntax nodes

A template is kept as a tree that loses nothing: every character of the source lies in exactly one
leaf or in the trivia (the blanks) attached to a node, so the text can be read back off the tree.
-/

namespace Stencil

/-- What a leaf says beside its location. -/
inductive Leaf where
  /-- A token with its value. -/
  | token (value : Text)
  /-- A required token that was not found. -/
  | missing
  /-- A marker, whose meaning is its location alone. -/
  | marker
deriving DecidableEq, Repr, Inhabited

/-- The blanks attached to a node, before it and after it. -/
structure Trivia where
  lead : Option Location := none
  trail : Option Location := none
deriving DecidableEq, Repr, Inhabited

/-- A node of the syntax tree. -/
inductive Node where
  | leaf (kind : Kind) (content : Leaf) (location : Location) (trivia : Trivia)
  | branch (kind : Kind) (children : List Node) (trivia : Trivia)
deriving Repr, Inhabited

namespace Trivia

/-- The text before the node. -/
def leadText (t : Trivia) : Text :=
  match t.lead with
  | some l => l.text
  | none => []

/-- The text after the node. -/
def trailText (t : Trivia) : Text :=
  match t.trail with
  | some l => l.text
  | none => []

end Trivia

namespace Node

/-- A token whose value is the text it covers. -/
def token (kind : Kind) (l : Location) : Node :=
  leaf kind (.token l.text) l {}

/-- A required token that was not found at a position. -/
def missing (kind : Kind) (p : Position) : Node :=
  leaf kind .missing (.empty p) {}

/-- A marker. -/
def marker (kind : Kind) (l : Location) : Node :=
  leaf kind .marker l {}

/-- A node made of other nodes. -/
def ofChildren (kind : Kind) (children : List Node) : Node :=
  branch kind children {}

/-- The node with other trivia. -/
def withTrivia (t : Trivia) : Node → Node
  | leaf k c l _ => leaf k c l t
  | branch k cs _ => branch k cs t

def kind : Node → Kind
  | leaf k _ _ _ => k
  | branch k _ _ => k

def trivia : Node → Trivia
  | leaf _ _ _ t => t
  | branch _ _ t => t

/-- The node with `lead` as the blanks before it. -/
def withLead (lead : Option Location) (n : Node) : Node :=
  n.withTrivia { n.trivia with lead := lead }

def children : Node → List Node
  | leaf _ _ _ _ => []
  | branch _ cs _ => cs

/-- The location of a leaf; a branch has none of its own. -/
def location? : Node → Option Location
  | leaf _ _ l _ => some l
  | branch _ _ _ => none

/-- The value of a token. -/
def value? : Node → Option Text
  | leaf _ (.token v) _ _ => some v
  | _ => none

/-- Whether the node stands for a token that was not found. -/
def isMissing : Node → Bool
  | leaf _ .missing _ _ => true
  | _ => false

/-- The first child of a kind. -/
def child? (n : Node) (k : Kind) : Option Node :=
  n.children.find? fun c => c.kind == k

/-- The name of an element or of an end tag. -/
def tagName? (n : Node) : Option Text :=
  if n.kind = .htmlEndTag then (n.child? .htmlTagName).bind value?
  else if n.kind.isElement then
    ((n.child? .htmlStartTag).bind fun tag => tag.child? .htmlTagName).bind value?
  else none

mutual

/-- Where the node starts, blanks before it included. A branch without text has no start. -/
def fullStart? : Node → Option Position
  | leaf _ _ l t => some (t.lead.getD l).start
  | branch _ cs t =>
    match t.lead with
    | some l => some l.start
    | none => firstStart? cs

/-- The first start among several nodes. -/
def firstStart? : List Node → Option Position
  | [] => none
  | n :: ns =>
    match fullStart? n with
    | some p => some p
    | none => firstStart? ns

end

mutual

/-- Where the node ends, blanks after it included. -/
def fullStop? : Node → Option Position
  | leaf _ _ l t => some (t.trail.getD l).stop
  | branch _ cs t =>
    match t.trail with
    | some l => some l.stop
    | none => lastStop? cs

/-- The last end among several nodes. -/
def lastStop? : List Node → Option Position
  | [] => none
  | n :: ns =>
    match lastStop? ns with
    | some p => some p
    | none => fullStop? n

end

/-- Where the node itself starts, without the blanks before it. -/
def start? : Node → Option Position
  | leaf _ _ l _ => some l.start
  | branch _ cs _ => firstStart? cs

mutual

/-- The text that the node covers, blanks included. -/
def source : Node → Text
  | leaf _ _ l t => t.leadText ++ l.text ++ t.trailText
  | branch _ cs t => t.leadText ++ sourceAll cs ++ t.trailText

/-- The text that several nodes cover. -/
def sourceAll : List Node → Text
  | [] => []
  | n :: ns => source n ++ sourceAll ns

end

mutual

/-- The node and all nodes below it, in document order. -/
def descendants : Node → List Node
  | leaf k c l t => [leaf k c l t]
  | branch k cs t => branch k cs t :: descendantsAll cs

/-- Several nodes and all nodes below them, in document order. -/
def descendantsAll : List Node → List Node
  | [] => []
  | n :: ns => descendants n ++ descendantsAll ns

end

end Node

end Stencil
