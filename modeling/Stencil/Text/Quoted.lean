import Stencil.Text.Blank

/-!
# Quoted text

A text between double quotes, as JSON and the generated code write it: quote, backslash and the
characters below U+0020 are escaped, everything else stands as it is.

The code generator counts what it writes, and needs two things only of the way in which characters are
escaped (`Escapes`): each of them is written, and as at most six characters.
-/

namespace Stencil.Text

/-- The lower-case hexadecimal digit of a number below sixteen. -/
def hexDigit (n : Nat) : Char :=
  Nat.digitChar n

/-- How one character is written between the quotes. -/
def quotedChar (c : Char) : Text :=
  match c.toNat with
  | 0x22 => ['\\', '"']
  | 0x5C => ['\\', '\\']
  | 0x08 => ['\\', 'b']
  | 0x09 => ['\\', 't']
  | 0x0A => ['\\', 'n']
  | 0x0C => ['\\', 'f']
  | 0x0D => ['\\', 'r']
  | n => if n < 0x20 then ['\\', 'u', '0', '0', hexDigit (n / 16), hexDigit (n % 16)] else [c]

/-- A text written between double quotes. -/
def quoted (t : Text) : Text :=
  '"' :: (t.flatMap quotedChar ++ ['"'])

/-! ## What the code generator needs of the escapes -/

/-- Each character is written as at least one and at most six characters. -/
structure Escapes (escape : Char → Text) : Prop where
  ne_nil : ∀ c, escape c ≠ []
  length_le : ∀ c, (escape c).length ≤ 6

section

variable {escape : Char → Text} (h : Escapes escape)

include h

/-- Text that is written leaves a trace. -/
theorem Escapes.flatMap_ne_nil {t : Text} (ht : t ≠ []) : t.flatMap escape ≠ [] := by
  cases t with
  | nil => exact absurd rfl ht
  | cons c t => simp [h.ne_nil c]

theorem Escapes.length_flatMap_le (t : Text) : (t.flatMap escape).length ≤ 6 * t.length := by
  induction t with
  | nil => simp
  | cons c t ih =>
    have hc := h.length_le c
    rw [List.flatMap_cons, List.length_append, List.length_cons]
    omega

end

theorem escapes_quotedChar : Escapes quotedChar where
  ne_nil c := by
    unfold quotedChar
    split
    case h_8 => split <;> simp
    all_goals simp
  length_le c := by
    unfold quotedChar
    split
    case h_8 => split <;> simp
    all_goals decide

end Stencil.Text
