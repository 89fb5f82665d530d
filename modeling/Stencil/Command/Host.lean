import Stencil.Grammar.Registry

/-!
# The host of the program

What the program needs of its surroundings, as a record of operations in some monad: files, the
three streams and a clock. So the same program runs on real files and on files in memory.
-/

namespace Stencil.Command

/-- What a path leads to. -/
inductive Entry where
  | file
  | directory
deriving DecidableEq, Repr, Inhabited

/-- Why a file operation failed. -/
inductive FileError where
  | notFound
  | notDirectory
  | isDirectory
  | notText
  | other (message : String)
deriving DecidableEq, Repr, Inhabited

def FileError.message : FileError → String
  | notFound => "No such file or directory (os error 2)"
  | notDirectory => "Not a directory (os error 20)"
  | isDirectory => "Is a directory (os error 21)"
  | notText => "stream did not contain valid UTF-8"
  | other message => message

/-- The operations that the program uses. -/
structure Host (m : Type → Type) where
  /-- What a path leads to, if anything. -/
  entry? : Text → m (Option Entry)
  /-- The bytes of a file. -/
  read : Text → m (Except FileError ByteArray)
  /-- Gives a file new contents. -/
  write : Text → Text → m (Except FileError Unit)
  /-- The paths of a directory and of everything below it. -/
  walk : Text → m (List Text)
  /-- All of the standard input. -/
  input : m ByteArray
  /-- Writes to the standard output. -/
  out : Text → m Unit
  /-- Writes to the standard error output. -/
  err : String → m Unit
  /-- Whether the standard error output is a terminal. -/
  terminal : m Bool
  /-- Microseconds since some moment. -/
  clock : m Nat

/-- What is wrong with a path that was asked for. -/
inductive PathProblem where
  | notTemplate
  | missing
  | noTemplates
deriving DecidableEq, Repr, Inhabited

def PathProblem.message : PathProblem → String
  | notTemplate => "not a .kiln file"
  | missing => "does not exist"
  | noTemplates => "no .kiln files found"

/-- Why a run of the program breaks off. -/
inductive Failure where
  | read (path : Text) (e : FileError)
  | write (path : Text) (e : FileError)
  | input (e : FileError)
  | unusable (path : Text) (problem : PathProblem)
  | parse (e : ParseError)
deriving DecidableEq, Repr, Inhabited

def Failure.message : Failure → String
  | read path e => s!"failed to read {String.ofList path}: {e.message}"
  | write path e => s!"failed to write {String.ofList path}: {e.message}"
  | input e => s!"failed to read stdin: {e.message}"
  | unusable path problem => s!"{String.ofList path}: {problem.message}"
  | parse e => e.message

end Stencil.Command
