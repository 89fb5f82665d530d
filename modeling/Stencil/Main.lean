import Stencil.Command.Program

/-!
# The executable

The program on the files and the streams of the machine.
-/

namespace Stencil.Command

/-- The cause of a failed file operation. -/
def FileError.ofError : IO.Error → FileError
  | .noFileOrDirectory .. => notFound
  | .inappropriateType _ code text =>
    if code = 20 then notDirectory
    else if code = 21 then isDirectory
    else other s!"{text} (os error {code})"
  | .alreadyExists _ code text | .permissionDenied _ code text | .resourceExhausted _ code text
  | .invalidArgument _ code text | .noSuchThing _ code text | .interrupted _ code text
  | .otherError code text | .resourceBusy code text | .resourceVanished code text
  | .unsupportedOperation code text | .hardwareFault code text | .illegalOperation code text
  | .unsatisfiedConstraints code text | .protocolError code text | .timeExpired code text =>
    other s!"{text} (os error {code})"
  | .unexpectedEof => other "unexpected end of file"
  | .userError text => other text

/-- Runs a file operation and keeps the cause if it fails. -/
def attempt {α : Type} (operation : IO α) : IO (Except FileError α) := do
  try
    return .ok (← operation)
  catch e => return .error (.ofError e)

/-- What a path leads to on this machine, if anything. -/
def machineEntry? (path : Text) : IO (Option Entry) := do
  let place := (← IO.currentDir) / String.ofList path
  if ← place.isDir then return some .directory
  else if ← place.pathExists then return some .file
  else return none

/-- The paths of a directory and of everything below it. What cannot be listed is left out. -/
partial def machineWalk (path : Text) : IO (List Text) := do
  match ← machineEntry? path with
  | some .directory =>
    let place := (← IO.currentDir) / String.ofList path
    match ← attempt place.readDir with
    | .ok entries =>
      let below ← entries.toList.mapM fun e => machineWalk (Path.join path [e.fileName.toList])
      return path :: below.flatten
    | .error _ => return [path]
  | _ => return [path]

/-- The files and the streams of this machine. -/
def machine : Host IO where
  entry? := machineEntry?
  read path := attempt (IO.FS.readBinFile (String.ofList path))
  write path contents :=
    attempt (IO.FS.writeBinFile (String.ofList path) (String.ofList contents).toUTF8)
  walk := machineWalk
  input := do (← IO.getStdin).readBinToEnd
  out t := IO.print (String.ofList t)
  err t := IO.eprint t
  terminal := do (← IO.getStderr).isTty
  clock := do return (← IO.monoNanosNow) / 1000

end Stencil.Command

def main (args : List String) : IO UInt32 :=
  Stencil.Command.run Stencil.Command.machine (args.map String.toList)
