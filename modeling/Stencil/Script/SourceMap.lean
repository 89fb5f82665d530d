import Stencil.Json
import Stencil.Script.Output

/-!
# Source maps

Mappings collected over several files, and their form in a source map of version 3: lines of
generated code are divided by `;`, mappings on a line by `,`, and a mapping is four numbers in base
64, each the difference from the mapping before.
-/

namespace Stencil

/-! ## Numbers of variable length -/

namespace Vlq

/-- The digits in the order of their values. -/
def alphabet : Text :=
  "ABCDEFGHIJKLMNOPQRSTUVWXYZabcdefghijklmnopqrstuvwxyz0123456789+/".toList

/-- The digits of a number, five bits in each and the lowest first. Thirty-two is added to each
digit but the last. -/
def digits (n : Nat) : List Nat :=
  if n < 32 then [n] else (n % 32 + 32) :: digits (n / 32)
termination_by n
decreasing_by omega

/-- A signed number with its sign in the lowest bit. -/
def ofInt (n : Int) : Nat :=
  if n < 0 then 2 * n.natAbs + 1 else 2 * n.natAbs

/-- A signed number in base 64. -/
def encode (n : Int) : Text :=
  (digits (ofInt n)).map fun d => alphabet.getD d 'A'

end Vlq

/-! ## Maps -/

/-- A mapping with the index of the file that it points into. -/
structure MapEntry where
  source : Nat
  mapping : Mapping
deriving DecidableEq, Repr, Inhabited

/-- Collected mappings. -/
structure SourceMap where
  /-- The files in the order of their first use. -/
  sources : List String := []
  entries : List MapEntry := []
deriving DecidableEq, Repr, Inhabited

namespace SourceMap

/-- Adds a mapping into a file. -/
def add (m : SourceMap) (file : String) (mapping : Mapping) : SourceMap :=
  match m.sources.idxOf? file with
  | some i => { m with entries := m.entries ++ [⟨i, mapping⟩] }
  | none =>
    { sources := m.sources ++ [file], entries := m.entries ++ [⟨m.sources.length, mapping⟩] }

/-- Adds mappings into one file. -/
def addAll (m : SourceMap) (file : String) (mappings : List Mapping) : SourceMap :=
  mappings.foldl (fun m mapping => m.add file mapping) m

/-- The order of generated positions. -/
def inOrder (a b : MapEntry) : Bool :=
  a.mapping.genLine < b.mapping.genLine ||
    (a.mapping.genLine == b.mapping.genLine && a.mapping.genCol ≤ b.mapping.genCol)

/-- The entries in the order of generated positions; those of one position stay in the order in
which they were added. -/
def sorted (m : SourceMap) : List MapEntry :=
  m.entries.mergeSort inOrder

/-- What the numbers of the next mapping are measured from. -/
structure Reference where
  line : Nat := 0
  genCol : Int := 0
  source : Int := 0
  srcLine : Int := 0
  srcCol : Int := 0
  /-- Whether the next mapping is the first of its line. -/
  first : Bool := true

/-- The text of one entry: the line ends and the comma before it, and its four numbers. -/
def encodeEntry (r : Reference) (e : MapEntry) : Text :=
  let m := e.mapping
  let skipped := m.genLine - r.line
  List.replicate skipped ';' ++
    (if skipped = 0 && !r.first then [','] else []) ++
    Vlq.encode (m.genCol - (if skipped = 0 then r.genCol else 0)) ++
    Vlq.encode (e.source - r.source) ++
    Vlq.encode (m.srcLine - r.srcLine) ++
    Vlq.encode (m.srcCol - r.srcCol)

/-- What the entry after `e` is measured from. -/
def referenceAfter (r : Reference) (e : MapEntry) : Reference where
  line := max r.line e.mapping.genLine
  genCol := e.mapping.genCol
  source := e.source
  srcLine := e.mapping.srcLine
  srcCol := e.mapping.srcCol
  first := false

/-- The text of entries that are in the order of generated positions. -/
def encodeFrom (r : Reference) : List MapEntry → Text
  | [] => []
  | e :: more => encodeEntry r e ++ encodeFrom (referenceAfter r e) more

/-- All mappings as a source map holds them. -/
def encode (m : SourceMap) : Text :=
  encodeFrom {} m.sorted

/-- The source map of a generated file. -/
def json (m : SourceMap) (file : String) : Json :=
  .obj [("file", .ofString file), ("mappings", .str m.encode), ("names", .arr []),
    ("sources", .arr (m.sources.map .ofString)), ("version", .num 3)]

end SourceMap

end Stencil
