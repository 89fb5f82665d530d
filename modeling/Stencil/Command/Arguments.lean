import Stencil.Text.Lines

/-!
# Arguments

What the command line asks for. Options may stand before and after the path, each at most once, and
`--` ends them. Verbosity counts its occurrences; when it is given both before and after the name of
the command, the second count holds.
-/

namespace Stencil.Command

/-- What a run of the program is to do. -/
inductive Task where
  | generateFiles (path : Text) (functionName : Option Text) (ranges sourceMap : Bool)
  | generateInput (functionName : Option Text) (ranges json : Bool)
  | check (path : Text) (json : Bool)
  | tree (path : Text)
deriving DecidableEq, Repr, Inhabited

/-- A task and how much is logged on the way. -/
structure Invocation where
  task : Task
  verbosity : Nat
deriving DecidableEq, Repr, Inhabited

/-- Why the arguments lead to no task. -/
inductive Refusal where
  | help
  | usage
deriving DecidableEq, Repr, Inhabited

/-- The options that a command takes. -/
structure Signature where
  flags : List Text
  options : List Text
deriving Repr, Inhabited

/-- The arguments of a command, sorted out. -/
structure Given where
  verbose : Option Nat := none
  flags : List Text := []
  options : List (Text × Text) := []
  path : Option Text := none
deriving DecidableEq, Repr, Inhabited

namespace Given

def hasFlag (g : Given) (name : String) : Bool :=
  g.flags.contains name.toList

def option? (g : Given) (name : String) : Option Text :=
  g.options.lookup name.toList

/-- Counts `n` more requests for verbosity. -/
def addVerbose (g : Given) (n : Nat) : Given :=
  { g with verbose := some (g.verbose.getD 0 + n) }

/-- Adds a flag, which must be new. -/
def addFlag (g : Given) (name : Text) : Except Refusal Given :=
  if g.flags.contains name then .error .usage else .ok { g with flags := name :: g.flags }

/-- Adds an option with its value, which must be new. -/
def addOption (g : Given) (name value : Text) : Except Refusal Given :=
  if (g.options.lookup name).isSome then .error .usage
  else .ok { g with options := (name, value) :: g.options }

/-- Sets the path, which must be new and not empty. -/
def addPath (g : Given) (path : Text) : Except Refusal Given :=
  if path.isEmpty || g.path.isSome then .error .usage else .ok { g with path := some path }

/-- Adds a cluster of one-letter options: `v` for verbosity, `h` for help. -/
def addLetters (g : Given) : Text → Except Refusal Given
  | [] => .ok g
  | 'v' :: more => (g.addVerbose 1).addLetters more
  | 'h' :: _ => .error .help
  | _ => .error .usage

end Given

/-- A long option: its name and, after an equals sign, its value. -/
def splitOption (t : Text) : Text × Option Text :=
  let value := t.dropWhile (· != '=')
  (t.takeWhile (· != '='), if value.isEmpty then none else some (value.drop 1))

/-- Whether an argument stands for itself. A single dash does. -/
def isPlain : Text → Bool
  | ['-'] => true
  | '-' :: _ => false
  | _ => true

/-- Sorts out the arguments of a command. -/
def sortOut (signature : Signature) (g : Given) : List Text → Except Refusal Given
  | [] => .ok g
  | ['-', '-'] :: rest => rest.foldlM Given.addPath g
  | ('-' :: '-' :: long) :: rest =>
    let (name, value?) := splitOption long
    if name == "verbose".toList && value?.isNone then sortOut signature (g.addVerbose 1) rest
    else if name == "help".toList && value?.isNone then .error .help
    else if signature.flags.contains name && value?.isNone then do
      sortOut signature (← g.addFlag name) rest
    else if signature.options.contains name then
      match value?, rest with
      | some value, rest => do sortOut signature (← g.addOption name value) rest
      | none, value :: rest =>
        if isPlain value then do sortOut signature (← g.addOption name value) rest
        else .error .usage
      | none, [] => .error .usage
    else .error .usage
  | arg :: rest =>
    if isPlain arg then do sortOut signature (← g.addPath arg) rest
    else do sortOut signature (← g.addLetters (arg.drop 1)) rest

/-- The task that `generate` is given. Without `--stdin` it needs a path. -/
def generateTask (g : Given) : Except Refusal Task :=
  let functionName := g.option? "function-name"
  let ranges := g.hasFlag "ranges"
  if g.hasFlag "stdin" then .ok (.generateInput functionName ranges (g.hasFlag "json"))
  else
    match g.path with
    | some path => .ok (.generateFiles path functionName ranges (g.hasFlag "source-map"))
    | none => .error .usage

/-- The task that `check` is given. -/
def checkTask (g : Given) : Except Refusal Task :=
  match g.path with
  | some path => .ok (.check path (g.hasFlag "json"))
  | none => .error .usage

/-- The task that `tree` is given. -/
def treeTask (g : Given) : Except Refusal Task :=
  match g.path with
  | some path => .ok (.tree path)
  | none => .error .usage

/-- The options and the task of a command. -/
def command? (name : Text) : Option (Signature × (Given → Except Refusal Task)) :=
  if name == "generate".toList then
    some (⟨["stdin", "json", "ranges", "source-map"].map String.toList,
      ["function-name".toList]⟩, generateTask)
  else if name == "check".toList then some (⟨["json".toList], []⟩, checkTask)
  else if name == "tree".toList then some (⟨[], []⟩, treeTask)
  else none

/-- What comes of asking for help on some commands: there is help on the program and on each single
command, asking for help among them. -/
def helpOn : List Text → Refusal
  | [] => .help
  | [name] => if (command? name).isSome || name == "help".toList then .help else .usage
  | _ => .usage

/-- Finds the command and its task, after options that stand before it. -/
def invocationFrom (g : Given) : List Text → Except Refusal Invocation
  | [] => .error .usage
  | arg :: rest =>
    if arg == "--verbose".toList then invocationFrom (g.addVerbose 1) rest
    else if arg == "--help".toList then .error .help
    else if arg == "help".toList then .error (helpOn rest)
    else
      match command? arg with
      | some (signature, task) => do
        let given ← sortOut signature {} rest
        return ⟨← task given, given.verbose.getD (g.verbose.getD 0)⟩
      | none =>
        match arg with
        | '-' :: c :: more =>
          if c = '-' then .error .usage
          else do invocationFrom (← g.addLetters (c :: more)) rest
        | _ => .error .usage

/-- What the arguments ask for. -/
def invocation (args : List Text) : Except Refusal Invocation :=
  invocationFrom {} args

end Stencil.Command
