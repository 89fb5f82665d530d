import Stencil.Command.Path
import Stencil.Command.Host

/-!
# Files in memory

A tree of files and directories as two lists of paths, and a host of the program made from it.
-/

namespace Stencil.Command

/-- Files and directories by their components; the root directory always exists. -/
structure Storage where
  files : List (List Text × ByteArray) := []
  directories : List (List Text) := []
deriving Inhabited

namespace Storage

/-- What the components lead to. -/
def entry? (s : Storage) (place : List Text) : Option Entry :=
  if (s.files.lookup place).isSome then some .file
  else if place.isEmpty || s.directories.contains place then some .directory
  else none

/-- Adds a directory and the directories above it. -/
def addDirectory (s : Storage) (place : List Text) : Storage :=
  let above := (List.range place.length).map fun n => place.take (n + 1)
  { s with directories := s.directories ++ above.filter fun p => !s.directories.contains p }

/-- Adds a file and the directories above it, or gives a file new contents. -/
def addFile (s : Storage) (place : List Text) (contents : ByteArray) : Storage :=
  let s := s.addDirectory place.dropLast
  { s with files := (place, contents) :: s.files.filter fun f => f.1 != place }

/-- Follows the components of a path from a place on. Everything but the last component must lead to
a directory. -/
def follow (s : Storage) (here : List Text) : List Text → Except FileError (List Text)
  | [] => .ok here
  | name :: rest =>
    match s.entry? here with
    | none => .error .notFound
    | some .file => .error .notDirectory
    | some .directory =>
      if name == [] || name == ['.'] then s.follow here rest
      else if name == ['.', '.'] then s.follow here.dropLast rest
      else s.follow (here ++ [name]) rest

/-- The place that a path leads to. Paths from the root of the machine lead nowhere. -/
def resolve (s : Storage) (path : Text) : Except FileError (List Text) :=
  if path.head? = some '/' then .error .notFound else s.follow [] (path.split '/')

/-- The bytes of a file. -/
def read (s : Storage) (path : Text) : Except FileError ByteArray := do
  let place ← s.resolve path
  match s.files.lookup place with
  | some contents => return contents
  | none =>
    match s.entry? place with
    | some .directory => throw .isDirectory
    | _ => throw .notFound

/-- Gives a file new contents. -/
def write (s : Storage) (path contents : Text) : Except FileError Storage := do
  let place ← s.resolve path
  match s.entry? place with
  | some .directory => throw .isDirectory
  | _ => return s.addFile place (String.ofList contents).toUTF8

/-- The paths of a directory and of everything below it. -/
def walk (s : Storage) (path : Text) : List Text :=
  match s.resolve path with
  | .error _ => []
  | .ok place =>
    let below := (s.directories ++ s.files.map Prod.fst).filterMap fun p =>
      if place.isPrefixOf p && p != place then some (p.drop place.length) else none
    path :: below.map (Path.join path)

end Storage

/-- A run of the program on files in memory: the files and what was written to the streams. -/
structure World where
  storage : Storage
  input : ByteArray
  out : Text := []
  err : String := ""
deriving Inhabited

/-- The host of a program that runs on files in memory. Time stands still. -/
def World.host : Host (StateM World) where
  entry? path := do
    let s := (← get).storage
    match s.resolve path with
    | .ok place => return s.entry? place
    | .error _ => return none
  read path := do return (← get).storage.read path
  write path contents := do
    let w ← get
    match w.storage.write path contents with
    | .ok s =>
      set { w with storage := s }
      return .ok ()
    | .error e => return .error e
  walk path := do return (← get).storage.walk path
  input := do return (← get).input
  out t := modify fun w => { w with out := w.out ++ t }
  err t := modify fun w => { w with err := w.err ++ t }
  terminal := return false
  clock := return 0

end Stencil.Command
