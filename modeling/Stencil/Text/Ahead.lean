import Stencil.Text.Blank

/-!
# Looking ahead

What a text starts with, and how far a run reaches. Past its end a text reads as `nul`, so a
comparison with `nul` also holds at the end.
-/

namespace Stencil.Text

/-- The character read past the end of a text. -/
def nul : Char := Char.ofNat 0

/-- The character `n` places ahead; `nul` past the end. -/
def ahead (t : Text) (n : Nat) : Char :=
  t.getD n nul

/-- Whether a text starts with another one. -/
def startsWith (t : Text) : Text → Bool
  | [] => true
  | e :: es => t.headD nul == e && startsWith t.tail es

/-- As `startsWith`, up to the case of the letters `A` to `Z`. -/
def startsWithLetters (t : Text) : Text → Bool
  | [] => true
  | e :: es => (t.headD nul).toLower == e.toLower && startsWithLetters t.tail es

/-- How many characters stand before the first place where `stop` holds. A place is given by the
character before it, if any, and the text from it on. -/
def runLength (stop : Option Char → Text → Bool) (previous : Option Char) : Text → Nat
  | [] => 0
  | c :: rest => if stop previous (c :: rest) then 0 else runLength stop (some c) rest + 1

end Stencil.Text
