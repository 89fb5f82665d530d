import Stencil.Text.Units

/-!
# Output

Generated code as it grows, with the line, the column and the length that it has reached, all in
UTF-16 units, and with what links it back to the source: mappings of single points and ranges.
-/

namespace Stencil

/-- A point of the generated code and the point of the source that it comes from. Columns count
UTF-16 units. -/
structure Mapping where
  genLine : Nat
  genCol : Nat
  srcLine : Nat
  srcCol : Nat
deriving DecidableEq, Repr, Inhabited

/-- What a range of the source is: code, or text that is written as a literal. -/
inductive RangeKind where
  | javascript
  | html
deriving DecidableEq, Repr, Inhabited

namespace RangeKind

def name : RangeKind → String
  | javascript => "javascript"
  | html => "html"

/-- The kind of range with a given name. -/
def ofName? (s : String) : Option RangeKind :=
  [javascript, html].find? fun k => k.name == s

end RangeKind

/-- A range of the source and the range of the generated code made from it, in UTF-16 units. -/
structure CodeRange where
  kind : RangeKind
  sourceStart : Nat
  sourceStop : Nat
  compiledStart : Nat
  compiledStop : Nat
  /-- Whether both ranges hold the same text, so that an editor can put one for the other. -/
  verbatim : Bool
deriving DecidableEq, Repr, Inhabited

/-- Generated code as it grows. -/
structure Output where
  /-- The characters written so far, the latest first. -/
  written : Text := []
  line : Nat := 0
  col : Nat := 0
  length : Nat := 0
  mappings : List Mapping := []
  ranges : List CodeRange := []
deriving DecidableEq, Repr, Inhabited

namespace Output

/-- The code written so far. -/
def code (o : Output) : Text :=
  o.written.reverse

/-- Writes one character. -/
def put (o : Output) (c : Char) : Output :=
  if c = '\n' then
    { o with written := c :: o.written, line := o.line + 1, col := 0,
             length := o.length + Text.width c }
  else
    { o with written := c :: o.written, col := o.col + Text.width c,
             length := o.length + Text.width c }

/-- Writes a text. -/
def push (o : Output) (t : Text) : Output :=
  t.foldl put o

/-- The mapping from what is written next to a point of the source. -/
def mappingHere (o : Output) (srcLine srcCol : Nat) : Mapping :=
  ⟨o.line, o.col, srcLine, srcCol⟩

/-- Records a mapping from what is written next to a point of the source. -/
def mapHere (o : Output) (srcLine srcCol : Nat) : Output :=
  { o with mappings := o.mappings ++ [o.mappingHere srcLine srcCol] }

/-- Ends the line. -/
def newline (o : Output) : Output :=
  o.push ['\n']

/-- Records a range. -/
def addRange (o : Output) (r : CodeRange) : Output :=
  { o with ranges := o.ranges ++ [r] }

theorem push_append (o : Output) (a b : Text) : o.push (a ++ b) = (o.push a).push b := by
  simp [push]

@[simp]
theorem code_put (o : Output) (c : Char) : (o.put c).code = o.code ++ [c] := by
  unfold put; split <;> simp [code]

@[simp]
theorem length_put (o : Output) (c : Char) : (o.put c).length = o.length + Text.width c := by
  unfold put; split <;> rfl

@[simp]
theorem code_push (o : Output) (t : Text) : (o.push t).code = o.code ++ t := by
  induction t generalizing o with
  | nil => simp [push]
  | cons c rest ih =>
    have h := ih (o.put c)
    simp only [push, List.foldl_cons] at h ⊢
    rw [h, code_put]
    simp

theorem length_push (o : Output) (t : Text) : (o.push t).length = o.length + t.units := by
  induction t generalizing o with
  | nil => simp [push, Text.units]
  | cons c rest ih =>
    have h := ih (o.put c)
    simp only [push, List.foldl_cons] at h ⊢
    rw [h, length_put, Text.units, Nat.add_assoc]

end Output

end Stencil
