import Stencil.Compile
import Stencil.Json

/-!
# Records

The results of reading and compiling a template as JSON values, with their fields in a fixed order.
-/

namespace Stencil

def Position.json (p : Position) : Json :=
  .obj [("offset", .num p.offset), ("byte", .num p.byte), ("line", .num p.line),
    ("col", .num p.col)]

def LineSpan.json (s : LineSpan) : Json :=
  .obj [("line", .num s.line), ("start_col", .num s.startCol), ("end_col", .num s.endCol),
    ("start_byte", .num s.startByte), ("end_byte", .num s.endByte)]

def Location.json (l : Location) : Json :=
  .obj [("start", l.start.json), ("end", l.stop.json), ("text", .str l.text),
    ("lines", .arr (l.lines.map LineSpan.json))]

/-- A diagnostic without a location has no such field. -/
def Diagnostic.json (d : Diagnostic) : Json :=
  .obj ([("severity", .ofString d.severity.name), ("code", .ofString d.code.name),
      ("message", .ofString d.message)] ++
    match d.location with
    | some l => [("location", l.json)]
    | none => [])

def Mapping.json (m : Mapping) : Json :=
  .obj [("gen_line", .num m.genLine), ("gen_col", .num m.genCol), ("src_line", .num m.srcLine),
    ("src_col", .num m.srcCol)]

def CodeRange.json (r : CodeRange) : Json :=
  .obj [("range_type", .ofString r.kind.name), ("source_start", .num r.sourceStart),
    ("source_end", .num r.sourceStop), ("compiled_start", .num r.compiledStart),
    ("compiled_end", .num r.compiledStop)]

def Injection.json (i : Injection) : Json :=
  .obj [("type", .ofString i.kind.name), ("start", .num i.start), ("end", .num i.stop),
    ("prefix", .str i.before), ("suffix", .str i.after)]

def Compiled.json (c : Compiled) : Json :=
  .obj [("code", .str c.rendered.code), ("mappings", .arr (c.rendered.mappings.map Mapping.json)),
    ("ranges", .arr (c.rendered.ranges.map CodeRange.json)),
    ("injections", .arr (c.rendered.injections.map Injection.json)),
    ("diagnostics", .arr (c.diagnostics.map Diagnostic.json))]

end Stencil
