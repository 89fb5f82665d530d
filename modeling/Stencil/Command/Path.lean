import Stencil.Text.Lines

/-!
# Paths

Paths are texts whose components are divided by `/`. Empty components and `.` say nothing.
-/

namespace Stencil.Path

/-- The components of a path that say something. -/
def components (path : Text) : List Text :=
  (path.split '/').filter fun c => c != [] && c != ['.']

/-- The last component, unless it leads upwards. -/
def fileName? (path : Text) : Option Text :=
  (components path).getLast?.filter fun name => name != ['.', '.']

/-- What follows the last dot of a file name. A name whose only dot is its first character has no
extension. -/
def extension? (name : Text) : Option Text :=
  let stem := (name.reverse.dropWhile (· != '.')).drop 1
  if stem.isEmpty then none else some (name.reverse.takeWhile (· != '.')).reverse

/-- The extension of templates. -/
def templateExtension : Text := "kiln".toList

/-- Whether a path names a template. -/
def isTemplate (path : Text) : Bool :=
  (fileName? path).bind extension? == some templateExtension

/-- The path with another extension in place of the one of its file name. -/
def withExtension (path extension : Text) : Text :=
  ((path.reverse.dropWhile (· != '.')).drop 1).reverse ++ '.' :: extension

/-- The path of something below a directory. -/
def join (directory : Text) (below : List Text) : Text :=
  let divider := if directory.getLast? = some '/' then [] else ['/']
  directory ++ divider ++ List.intercalate ['/'] below

/-- The order of paths, component by component. -/
def inOrder (a b : Text) : Bool :=
  !(components b).lex (components a) fun x y => x.lex y fun c d => c.toNat < d.toNat

end Stencil.Path
