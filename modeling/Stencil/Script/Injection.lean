import Stencil.Script.Output

/-!
# Injections

An editor that understands the generated language, but not templates, is given the generated file in
parts: for each verbatim range the generated code before it, then the source text itself, and after
the last range the rest of the code. All parts of one kind form one file.
-/

namespace Stencil

/-- A range of the source, in UTF-16 units, with the code to put around it. -/
structure Injection where
  kind : RangeKind
  start : Nat
  stop : Nat
  before : Text
  after : Text
deriving DecidableEq, Repr, Inhabited

namespace Injection

/-- The injections for ranges in the order of the source; `previous` is where the generated code of
the range before ends. -/
def ofRanges (code : Text) (previous : Nat) : List CodeRange → List Injection
  | [] => []
  | r :: more =>
    { kind := r.kind
      start := r.sourceStart
      stop := r.sourceStop
      before := code.slice previous r.compiledStart
      after := if more.isEmpty then code.slice r.compiledStop code.units else [] } ::
      ofRanges code r.compiledStop more

/-- The verbatim ranges of a kind, in the order of the source. -/
def verbatimRanges (kind : RangeKind) (ranges : List CodeRange) : List CodeRange :=
  (ranges.filter fun r => r.kind == kind && r.verbatim).mergeSort
    fun a b => a.sourceStart ≤ b.sourceStart

/-- The injections for all verbatim ranges: code first, then literal text. -/
def all (code : Text) (ranges : List CodeRange) : List Injection :=
  ofRanges code 0 (verbatimRanges .javascript ranges) ++
    ofRanges code 0 (verbatimRanges .html ranges)

end Injection

end Stencil
