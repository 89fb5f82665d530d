import Stencil.Text.Blank

/-!
# UTF-16 units

Editors and source maps address text in UTF-16 code units. A character of the Basic Multilingual
Plane takes one unit, every other character takes two.
-/

namespace Stencil.Text

/-- The number of UTF-16 units of one character. -/
def width (c : Char) : Nat :=
  if c.toNat < 0x10000 then 1 else 2

/-- The number of UTF-16 units of a text. -/
def units : Text → Nat
  | [] => 0
  | c :: rest => width c + units rest

/-- The number of UTF-8 bytes of a text. -/
def bytes : Text → Nat
  | [] => 0
  | c :: rest => c.utf8Size + bytes rest

/-- The unit offset of a place given in characters; past the end it is that of the end. -/
def unitOffset : Text → Nat → Nat
  | [], _ => 0
  | _ :: _, 0 => 0
  | c :: rest, n + 1 => width c + unitOffset rest n

/-- What a half of a cut character is shown as. -/
def replacement : Char := Char.ofNat 0xFFFD

/-- The part of a text between two unit offsets, where the text itself starts at offset `here`. A
character of two units that an end of the cut runs through becomes `replacement`. -/
def cut (start stop : Nat) (here : Nat) : Text → Text
  | [] => []
  | c :: rest =>
    let after := here + width c
    let inside := min stop after - max start here
    if stop ≤ here then []
    else if inside = 0 then cut start stop after rest
    else if inside = width c then c :: cut start stop after rest
    else replacement :: cut start stop after rest

/-- The part of a text between two unit offsets. -/
def slice (t : Text) (start stop : Nat) : Text :=
  cut start stop 0 t

theorem units_append (a b : Text) : units (a ++ b) = units a + units b := by
  induction a with
  | nil => simp [units]
  | cons c rest ih => simp [units, ih, Nat.add_assoc]

theorem unitOffset_eq (t : Text) (n : Nat) : t.unitOffset n = units (t.take n) := by
  fun_induction unitOffset t n with
  | case1 => simp [units]
  | case2 => simp [units]
  | case3 c rest n ih => simp [units, ih]

theorem bytes_append (a b : Text) : bytes (a ++ b) = bytes a + bytes b := by
  induction a with
  | nil => simp [bytes]
  | cons c rest ih => simp [bytes, ih, Nat.add_assoc]

end Stencil.Text
