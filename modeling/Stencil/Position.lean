import Stencil.Text.Units

/-!
# Positions

A position says how much text lies before a point: in characters, in UTF-8 bytes, and as a line
with a column, the last two counted from zero. `Position.next` steps over one character and
`Position.after` over a text.
-/

namespace Stencil

/-- A point in a text. Columns count characters. -/
structure Position where
  offset : Nat := 0
  byte : Nat := 0
  line : Nat := 0
  col : Nat := 0
deriving DecidableEq, Repr, Inhabited

namespace Position

/-- The position after one more character. -/
def next (p : Position) (c : Char) : Position :=
  if c = '\n' then
    { offset := p.offset + 1, byte := p.byte + c.utf8Size, line := p.line + 1, col := 0 }
  else
    { offset := p.offset + 1, byte := p.byte + c.utf8Size, line := p.line, col := p.col + 1 }

/-- The position after a text that starts at `p`. -/
def after (p : Position) (t : Text) : Position :=
  t.foldl next p

/-- Earlier by offset, then byte, line and column. -/
def isBefore (p q : Position) : Bool :=
  p.offset < q.offset || (p.offset == q.offset &&
    (p.byte < q.byte || (p.byte == q.byte &&
      (p.line < q.line || (p.line == q.line && p.col < q.col)))))

/-- Line and column for a reader, both counted from one. -/
def render (p : Position) : String :=
  s!"{p.line + 1}:{p.col + 1}"

@[simp]
theorem after_nil (p : Position) : p.after [] = p := rfl

@[simp]
theorem after_cons (p : Position) (c : Char) (t : Text) : p.after (c :: t) = (p.next c).after t :=
  rfl

theorem after_append (p : Position) (a b : Text) : p.after (a ++ b) = (p.after a).after b := by
  simp [after]

@[simp]
theorem offset_next (p : Position) (c : Char) : (p.next c).offset = p.offset + 1 := by
  unfold next; split <;> rfl

@[simp]
theorem byte_next (p : Position) (c : Char) : (p.next c).byte = p.byte + c.utf8Size := by
  unfold next; split <;> rfl

theorem offset_after (p : Position) (t : Text) : (p.after t).offset = p.offset + t.length := by
  induction t generalizing p with
  | nil => simp
  | cons c rest ih => simp [ih]; omega

end Position

end Stencil
