import Stencil.Diagnostic.Basic

/-!
# Excerpts

A diagnostic shown with the source line it starts on and carets under the place, plain or with
terminal colours.
-/

namespace Stencil

/-- The control sequences around the parts of an excerpt. -/
structure Palette where
  accent : Severity → String
  dim : String
  reset : String

namespace Palette

/-- No colours. -/
def plain : Palette :=
  ⟨fun _ => "", "", ""⟩

/-- Bold red, yellow or cyan by severity, and a dim margin. -/
def ansi : Palette where
  accent
    | .error => "\x1b[1;31m"
    | .warning => "\x1b[1;33m"
    | .info => "\x1b[1;36m"
  dim := "\x1b[2m"
  reset := "\x1b[0m"

end Palette

namespace Diagnostic

/-- A text filled up with spaces on the left. -/
def padLeft (width : Nat) (s : String) : String :=
  "".pushn ' ' (width - s.length) ++ s

/-- The number of carets under a line of the given length: what the location covers of its first
line, but at least one. -/
def underline (l : Location) (lineLength : Nat) : Nat :=
  if l.stop.line = l.start.line then max 1 (l.stop.col - l.start.col)
  else max 1 (lineLength - l.start.col)

/-- The quoted source line with its margin and the carets. -/
def quoteLine (palette : Palette) (severity : Severity) (l : Location) (line : Text) : String :=
  let number := toString (l.start.line + 1)
  let width := max 2 number.length
  let margin (label : String) := s!"{palette.dim}{padLeft width label} |{palette.reset}"
  let carets := "".pushn '^' (underline l line.length)
  margin "" ++ "\n" ++
    margin number ++ " " ++ String.ofList line ++ "\n" ++
    margin "" ++ " " ++ "".pushn ' ' l.start.col ++
      s!"{palette.accent severity}{carets}{palette.reset}\n"

/-- The diagnostic for a reader who has the source in a file. The source line is quoted if the
source has a line of that number. -/
def excerpt (palette : Palette) (d : Diagnostic) (source : Text) (file : String) : String :=
  let place :=
    match d.location with
    | some l => s!"{file}:{l.start.render}"
    | none => file
  let quoted :=
    match d.location with
    | some l =>
      match source.lines[l.start.line]? with
      | some line => quoteLine palette d.severity l line
      | none => ""
    | none => ""
  let kind := s!"{d.severity.name}[{d.code.label}]:"
  s!"\n {palette.dim}file:{palette.reset} {place}\n" ++
    s!"{palette.accent d.severity}{kind}{palette.reset} {d.message}\n" ++ quoted ++ "\n"

end Diagnostic

end Stencil
