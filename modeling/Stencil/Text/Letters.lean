import Stencil.Text.Blank

/-!
# Letters

Names are compared without regard to case, and case is a matter of the letters `A` to `Z` only:
every other character stands for itself.
-/

namespace Stencil.Text

/-- A text with `A` to `Z` replaced by `a` to `z`. -/
def lower (t : Text) : Text :=
  t.map Char.toLower

/-- Equality up to the case of the letters `A` to `Z`. -/
def sameLetters (a b : Text) : Bool :=
  a.lower == b.lower

@[simp]
theorem length_lower (t : Text) : t.lower.length = t.length := by
  simp [lower]

theorem sameLetters_iff {a b : Text} : a.sameLetters b = true ↔ a.lower = b.lower := by
  simp [sameLetters]

theorem sameLetters_self (t : Text) : t.sameLetters t = true :=
  sameLetters_iff.2 rfl

end Stencil.Text
