import Stencil.Text.Blank
import Stencil.Text.Printable

/-!
# Escaped text

Text shown on one line for a reader: the usual backslash escapes, and `\u` with the code point in
braces for a character that cannot be shown as it is. Inside double quotes an apostrophe is plain;
a character shown on its own has both kinds of quote escaped.
-/

namespace Stencil.Text

/-- How one character is shown inside double quotes. -/
def shownChar (c : Char) : Text :=
  match c.toNat with
  | 0x00 => ['\\', '0']
  | 0x09 => ['\\', 't']
  | 0x0D => ['\\', 'r']
  | 0x0A => ['\\', 'n']
  | 0x5C => ['\\', '\\']
  | 0x22 => ['\\', '"']
  | n => if isPrintable c then [c] else ['\\', 'u', '{'] ++ Nat.toDigits 16 n ++ ['}']

/-- A text shown between double quotes. -/
def shown (t : Text) : Text :=
  '"' :: (t.flatMap shownChar ++ ['"'])

/-- A single character shown on its own. -/
def shownAlone (c : Char) : Text :=
  if c.toNat = 0x27 then ['\\', c] else shownChar c

end Stencil.Text
