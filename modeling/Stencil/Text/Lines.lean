import Stencil.Text.Blank

/-!
# Lines

Texts cut at a character, and two ways to cut a text at its line feeds. `pieces` keeps everything
between the line feeds, so it always gives one piece more than there are line feeds; `lines` is what
a reader sees: a line loses a carriage return that stands right before its line feed, and a line
feed at the very end opens no further line.
-/

namespace Stencil.Text

/-- The stretches between the occurrences of a character in a text; never empty. -/
def split (divider : Char) : Text → List Text
  | [] => [[]]
  | c :: rest =>
    if c = divider then [] :: split divider rest
    else
      match split divider rest with
      | [] => [[c]]
      | piece :: more => (c :: piece) :: more

/-- The stretches between the line feeds of a text. -/
def pieces (t : Text) : List Text :=
  t.split '\n'

/-- A line without the carriage return at its end, if it has one. -/
def dropReturn (t : Text) : Text :=
  if t.getLast? = some '\r' then t.dropLast else t

/-- The lines of a text as a reader counts them. -/
def lines (t : Text) : List Text :=
  (t.pieces.dropLast.map dropReturn) ++
    match t.pieces.getLast? with
    | none => []
    | some [] => []
    | some last => [last]

theorem split_ne_nil (divider : Char) (t : Text) : t.split divider ≠ [] := by
  cases t with
  | nil => simp [Text.split]
  | cons c rest =>
    rw [Text.split]
    split
    · simp
    · split <;> simp

theorem pieces_ne_nil (t : Text) : t.pieces ≠ [] :=
  split_ne_nil '\n' t

end Stencil.Text
