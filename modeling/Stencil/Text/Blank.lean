/-!
# Text and blanks

Source text is handled as its characters. This module fixes which characters count as blank (the
25 characters with the Unicode property `White_Space`) and how blank runs are cut off a text.
-/

namespace Stencil

/-- Text as the characters it consists of, U+0000 included. -/
abbrev Text := List Char

namespace Text

/-- A blank is a character with the Unicode property `White_Space`. -/
def isBlank (c : Char) : Bool :=
  let n := c.toNat
  (9 ≤ n && n ≤ 13) || n == 0x20 || n == 0x85 || n == 0xA0 || n == 0x1680 ||
    (0x2000 ≤ n && n ≤ 0x200A) || n == 0x2028 || n == 0x2029 || n == 0x202F || n == 0x205F ||
    n == 0x3000

/-- The number of blanks at the start of a text. -/
def blanksAhead (t : Text) : Nat :=
  (t.takeWhile isBlank).length

/-- A text without the blanks at its end. -/
def trimRight (t : Text) : Text :=
  (t.reverse.dropWhile isBlank).reverse

/-- Whether a text holds nothing but blanks. -/
def allBlank (t : Text) : Bool :=
  t.all isBlank

theorem trimRight_append_blanks (t : Text) :
    t.trimRight ++ (t.reverse.takeWhile isBlank).reverse = t := by
  rw [trimRight, ← List.reverse_append, List.takeWhile_append_dropWhile, List.reverse_reverse]

end Text

end Stencil
