import Stencil.Text.Quoted

/-!
# JSON

The JSON values that the program writes, in a compact form and in an indented one. An object keeps
the order of its members.
-/

namespace Stencil

/-- A JSON value without fractions. -/
inductive Json where
  | num (n : Nat)
  | str (t : Text)
  | arr (items : List Json)
  | obj (members : List (String × Json))
deriving Repr, Inhabited

namespace Json

/-- A string value. -/
def ofString (s : String) : Json :=
  str s.toList

/-- A number as text. -/
def numText (n : Nat) : Text :=
  Nat.toDigits 10 n

mutual

/-- A value without any blanks between its tokens. -/
def compact : Json → Text
  | num n => numText n
  | str t => t.quoted
  | arr items => '[' :: (compactItems true items ++ [']'])
  | obj members => '{' :: (compactMembers true members ++ ['}'])

/-- Items after each other; a comma stands before each but the first. -/
def compactItems (first : Bool) : List Json → Text
  | [] => []
  | v :: more => (if first then [] else [',']) ++ compact v ++ compactItems false more

/-- Members after each other; a comma stands before each but the first. -/
def compactMembers (first : Bool) : List (String × Json) → Text
  | [] => []
  | (key, v) :: more =>
    (if first then [] else [',']) ++ Text.quoted key.toList ++ [':'] ++ compact v ++
      compactMembers false more

end

mutual

/-- The value with the members of every object in the order of their keys. -/
def sorted : Json → Json
  | num n => num n
  | str t => str t
  | arr items => arr (sortedItems items)
  | obj members => obj ((sortedMembers members).mergeSort fun a b => a.1 ≤ b.1)

/-- Each item with its members in order. -/
def sortedItems : List Json → List Json
  | [] => []
  | v :: more => sorted v :: sortedItems more

/-- Each member with the members of its value in order. -/
def sortedMembers : List (String × Json) → List (String × Json)
  | [] => []
  | (key, v) :: more => (key, sorted v) :: sortedMembers more

end

/-- A line break and two spaces for each level. -/
def newLine (depth : Nat) : Text :=
  '\n' :: List.replicate (2 * depth) ' '

mutual

/-- A value with every item and member on a line of its own. -/
def indented (depth : Nat) : Json → Text
  | num n => numText n
  | str t => t.quoted
  | arr [] => ['[', ']']
  | arr (v :: more) =>
    '[' :: (newLine (depth + 1) ++ indented (depth + 1) v ++ indentedItems (depth + 1) more ++
      newLine depth ++ [']'])
  | obj [] => ['{', '}']
  | obj ((key, v) :: more) =>
    '{' :: (newLine (depth + 1) ++ Text.quoted key.toList ++ [':', ' '] ++ indented (depth + 1) v ++
      indentedMembers (depth + 1) more ++ newLine depth ++ ['}'])

/-- The items after the first. -/
def indentedItems (depth : Nat) : List Json → Text
  | [] => []
  | v :: more => ',' :: (newLine depth ++ indented depth v ++ indentedItems depth more)

/-- The members after the first. -/
def indentedMembers (depth : Nat) : List (String × Json) → Text
  | [] => []
  | (key, v) :: more =>
    ',' :: (newLine depth ++ Text.quoted key.toList ++ [':', ' '] ++ indented depth v ++
      indentedMembers depth more)

end

end Json

end Stencil
