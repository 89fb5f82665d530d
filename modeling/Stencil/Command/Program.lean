import Stencil.Command.Arguments
import Stencil.Command.Host
import Stencil.Command.Log
import Stencil.Command.Path
import Stencil.Diagnostic.Excerpt
import Stencil.Record

/-!
# The program

The three commands: `generate` writes the render function of every template that it is given next to
the template, or reads one template from the standard input; `check` reports diagnostics; `tree`
shows the syntax tree. The exit code is zero if there was no error, one if there was, and two if the
arguments make no sense.
-/

namespace Stencil.Command

variable {m : Type → Type} [Monad m]

/-- A part of a run that may break off. -/
abbrev Action (m : Type → Type) := ExceptT Failure m

/-- The host of a run and how much it logs. -/
structure Session (m : Type → Type) where
  host : Host m
  verbosity : Nat

namespace Session

/-- Writes a line to the standard error output. -/
def say (s : Session m) (line : String) : Action m Unit :=
  s.host.err (line ++ "\n")

/-- Writes a log line if its level is shown. -/
def log (s : Session m) (level : LogLevel) (line : String) : Action m Unit :=
  if level.verbosity ≤ s.verbosity then s.say s!"[{level.name}] {line}" else pure ()

/-- Writes to the standard output. -/
def print (s : Session m) (t : Text) : Action m Unit :=
  s.host.out t

/-- Reads a text from bytes. -/
def decode (bytes : Except FileError ByteArray) : Except FileError Text := do
  match String.fromUTF8? (← bytes) with
  | some text => return text.toList
  | none => throw .notText

/-- The text of a file. -/
def readFile (s : Session m) (path : Text) : Action m Text := do
  match decode (← s.host.read path) with
  | .ok text => return text
  | .error e => throw (.read path e)

/-- Gives a file new contents. -/
def writeFile (s : Session m) (path contents : Text) : Action m Unit := do
  match ← s.host.write path contents with
  | .ok () => return ()
  | .error e => throw (.write path e)

/-- Reads a template and logs how. -/
def parse (s : Session m) (source : Text) : Action m Template := do
  let options : ParseOptions := {}
  match Registry.standard.run options options.language source with
  | .ok run =>
    run.traceLines.forM (s.log .trace)
    s.log .debug run.debugLine
    return run.template
  | .error e => throw (.parse e)

/-- Compiles a template and logs how. -/
def compile (s : Session m) (options : RenderOptions) (source : Text) : Action m Compiled := do
  let compiled := (← s.parse source).compiled options
  s.log .debug (compiled.rendered.debugLine options.filePath)
  return compiled

/-- Writes diagnostics with excerpts of the source. -/
def showDiagnostics (s : Session m) (diagnostics : List Diagnostic) (source : Text)
    (file : String) : Action m Unit := do
  let palette := if ← s.host.terminal then Palette.ansi else Palette.plain
  diagnostics.forM fun d => s.host.err (d.excerpt palette source file)

/-- The templates that a path stands for: a template itself, or all below a directory. -/
def templates (s : Session m) (path : Text) : Action m (List Text) := do
  match ← s.host.entry? path with
  | none => throw (.unusable path .missing)
  | some .file =>
    if Path.isTemplate path then return [path] else throw (.unusable path .notTemplate)
  | some .directory =>
    let found := (← s.host.walk path).filter Path.isTemplate
    if found.isEmpty then throw (.unusable path .noTemplates)
    else return found.mergeSort Path.inOrder

/-! ## Generating -/

/-- The options that a task gives for the render function. -/
def renderOptions (functionName : Option Text) (ranges : Bool) : RenderOptions :=
  let options : RenderOptions := { includeRanges := ranges }
  match functionName with
  | some name => { options with functionName := String.ofList name }
  | none => options

/-- Compiles the standard input. -/
def generateInput (s : Session m) (options : RenderOptions) (json : Bool) : Action m Bool := do
  let bytes ← s.host.input
  match decode (.ok bytes) with
  | .error e => throw (.input e)
  | .ok source =>
    let compiled ← s.compile options source
    if json then s.print (compiled.json.compact ++ ['\n'])
    else
      s.print compiled.rendered.code
      s.showDiagnostics compiled.diagnostics source "<stdin>"
    return !compiled.hasErrors

/-- Compiles one template into the file next to it, with a source map if one is wanted. -/
def generateFile (s : Session m) (options : RenderOptions) (sourceMap : Bool) (path : Text) :
    Action m Bool := do
  let source ← s.readFile path
  let fileName := String.ofList ((Path.fileName? path).getD options.filePath.toList)
  let compiled ← s.compile { options with filePath := fileName } source
  s.showDiagnostics compiled.diagnostics source fileName
  let target := Path.withExtension path "js".toList
  let code ←
    if sourceMap then
      let mapPath := Path.withExtension path "js.map".toList
      let map := ({} : SourceMap).addAll fileName compiled.rendered.traced
      let targetName := String.ofList ((Path.fileName? target).getD "template.js".toList)
      s.writeFile mapPath (map.json targetName).compact
      let link := "//# sourceMappingURL=".toList ++ (Path.fileName? mapPath).getD [] ++ ['\n']
      pure (compiled.rendered.code ++ link)
    else pure compiled.rendered.code
  s.writeFile target code
  let tick := if ← s.host.terminal then "\x1b[32m✓\x1b[0m" else "✓"
  s.say s!"  {tick} {String.ofList target}"
  return !compiled.hasErrors

/-- A duration for a reader: in microseconds, milliseconds or seconds, whichever suits it. -/
def showDuration (micros : Nat) : String :=
  if micros < 1000 then s!"{micros}μs"
  else if micros < 1000000 then
    let tenths := (micros + 50) / 100
    s!"{tenths / 10}.{tenths % 10}ms"
  else
    let hundredths := (micros + 5000) / 10000
    s!"{hundredths / 100}.{hundredths % 100 / 10}{hundredths % 10}s"

/-- Compiles all templates that a path stands for. -/
def generateFiles (s : Session m) (options : RenderOptions) (sourceMap : Bool) (path : Text) :
    Action m Bool := do
  let start ← s.host.clock
  let files ← s.templates path
  let clean ← files.mapM (s.generateFile options sourceMap)
  let time := showDuration ((← s.host.clock) - start)
  let noun := if files.length = 1 then "file" else "files"
  let summary := s!"Generated {files.length} {noun} in {time}"
  s.say (if ← s.host.terminal then s!"\n\x1b[1m{summary}\x1b[0m" else s!"\n{summary}")
  return clean.all id

/-! ## Checking and showing -/

/-- The report on one template as JSON. -/
def report (path : Text) (t : Template) : Json :=
  .obj [("file", .str path), ("diagnostics", .arr (t.diagnostics.map Diagnostic.json))]

/-- Reports the diagnostics of all templates that a path stands for. -/
def check (s : Session m) (path : Text) (json : Bool) : Action m Bool := do
  let results ← (← s.templates path).mapM fun file => do
    let source ← s.readFile file
    let t ← s.parse source
    if !json then s.showDiagnostics t.diagnostics source (String.ofList file)
    return (file, t)
  let errors := (results.flatMap fun r => r.2.errors).length
  if json then
    let reports := Json.arr (results.map fun r => report r.1 r.2)
    s.print (reports.sorted.indented 0 ++ ['\n'])
  else if errors = 0 then s.say "No errors found"
  else
    let noun := if errors = 1 then "error" else "errors"
    s.say s!"{errors} {noun} found"
  return errors == 0

/-- Shows the syntax tree of a file and its diagnostics. -/
def tree (s : Session m) (path : Text) : Action m Bool := do
  let source ← s.readFile path
  let t ← s.parse source
  s.print t.outline
  t.diagnostics.forM fun d => s.print (d.summary.toList ++ ['\n'])
  return !t.hasErrors

/-- Does what was asked for, and says whether there was no error. -/
def perform (s : Session m) : Task → Action m Bool
  | .generateFiles path functionName ranges sourceMap =>
    s.generateFiles (renderOptions functionName ranges) sourceMap path
  | .generateInput functionName ranges json =>
    s.generateInput (renderOptions functionName ranges) json
  | .check path json => s.check path json
  | .tree path => s.tree path

end Session

/-- How the program is called. -/
def usage : String :=
  "Usage: kiln [-v]... generate [FILE] [--stdin] [--json] [--ranges] [--function-name NAME] " ++
    "[--source-map]\n       kiln [-v]... check PATH [--json]\n       kiln [-v]... tree FILE\n"

/-- Runs the program with its arguments and gives its exit code. -/
def run (host : Host m) (args : List Text) : m UInt32 := do
  match invocation args with
  | .error .help =>
    host.out usage.toList
    return 0
  | .error .usage =>
    host.err usage
    return 2
  | .ok call =>
    match ← (Session.perform ⟨host, call.verbosity⟩ call.task).run with
    | .ok clean => return if clean then 0 else 1
    | .error failure =>
      host.err s!"Error: {failure.message}\n"
      return 1

end Stencil.Command
