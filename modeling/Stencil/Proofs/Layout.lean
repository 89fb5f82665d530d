import Stencil.Proofs.Points

/-!
# The lines of a render function

What a render function does is a list of chunks, and chunks have lines: one for each
chunk that is not empty, with adjacent texts joined (`Chunk.renderAll`). A placed chunk
knows the stretch of the source that it was made from, and a line the placed chunks
that it was made from; so each line has its mapping and its range (`Line.mapping`,
`Line.range`).

The emitter holds text back and writes code at once. `Emitter.Writes e ls e'` says what
is new in `e'`: the code of the lines `ls`, a mapping for each of them and, if asked for,
a range.

* `flush_writes`, `put_code_writes`: what is written for the text that waits, and for
  one more chunk of code.
* `put_emits`, `Emits.trans`: chunks are emitted one after the other (`Emits`): what is
  written and what waits are always the lines of all of them.
* `Emits.flush_writes`: **what is emitted is written as its lines**, with their mappings
  and ranges.
-/

namespace Stencil

/-- A part of what a render function does: it writes text as it stands, writes the
value of an expression, or runs a statement. -/
inductive Chunk where
  | lit (t : Text)
  | write (code : Text)
  | stmt (code : Text)
deriving DecidableEq, Repr, Inhabited

namespace Chunk

/-- Whether a chunk leaves a trace: empty text and blank code do not. -/
def isKept : Chunk → Bool
  | lit t => !t.isEmpty
  | write code | stmt code => !code.allBlank

/-- Joins adjacent texts. -/
def merge : List Chunk → List Chunk
  | [] => []
  | lit a :: cs =>
    match merge cs with
    | lit b :: more => lit (a ++ b) :: more
    | more => lit a :: more
  | c :: cs => c :: merge cs

/-- The line of a render function for a chunk. -/
def render : Chunk → Text
  | lit t => "  ".toList ++ "__writer.writeLiteral(".toList ++ t.quoted ++ ");\n".toList
  | write code => "  ".toList ++ "__writer.write(".toList ++ code ++ ");\n".toList
  | stmt code => "  ".toList ++ code ++ "\n".toList

/-- The lines for chunks: one for each that leaves a trace, adjacent texts joined. -/
def renderAll (cs : List Chunk) : Text :=
  ((merge (cs.filter isKept)).map render).flatten

/-- The function of a name that does what the chunks say. -/
def function (name : String) (cs : List Chunk) : Text :=
  s!"export default function {name}(model, __writer) \x7b".toList ++ ['\n'] ++ renderAll cs ++ ['}', '\n']

/-! ## The parts of a line -/

/-- The text or the code of a chunk. -/
def content : Chunk → Text
  | lit t => t
  | write code | stmt code => code

def isText : Chunk → Bool
  | lit _ => true
  | _ => false

/-- The start of the line, up to the point that is mapped. -/
def lead : Chunk → Text
  | write _ => "  ".toList ++ "__writer.write(".toList
  | _ => "  ".toList

/-- The code between the point that is mapped and what comes from the source. -/
def opening : Chunk → Text
  | lit _ => "__writer.writeLiteral(".toList ++ ['"']
  | _ => []

/-- What comes from the source: code as it stands, and text with its escapes. -/
def body : Chunk → Text
  | lit t => t.flatMap Text.quotedChar
  | write code | stmt code => code

/-- The end of the line. -/
def closing : Chunk → Text
  | lit _ => '"' :: ");\n".toList
  | write _ => ");\n".toList
  | stmt _ => "\n".toList

def rangeKind : Chunk → RangeKind
  | lit _ => .html
  | _ => .javascript

theorem quoted_between (a b t c : Text) :
    a ++ b ++ t.quoted ++ c = a ++ (b ++ ['"']) ++ t.flatMap Text.quotedChar ++ '"' :: c := by
  simp [Text.quoted]

theorem bare_between (a t c : Text) : a ++ t ++ c = a ++ [] ++ t ++ c := by
  rw [List.append_nil]

/-- A chunk is written as its lead, and its body between the opening and the closing. -/
theorem render_eq (c : Chunk) : c.render = c.lead ++ c.opening ++ c.body ++ c.closing := by
  cases c with
  | lit t => exact quoted_between _ _ t _
  | write code => exact bare_between _ code _
  | stmt code => exact bare_between _ code _

/-- Code is written as it stands. -/
theorem body_of_code {c : Chunk} (h : c.isText = false) : c.body = c.content := by
  cases c <;> first | rfl | simp [isText] at h

theorem opening_of_code {c : Chunk} (h : c.isText = false) : c.opening = [] := by
  cases c <;> first | rfl | simp [isText] at h

end Chunk

/-- A chunk with the stretch of the source that it was made from. -/
structure Placed where
  chunk : Chunk
  place : Location
  /-- Whether it stands for a token that was not found. -/
  missing : Bool := false
deriving DecidableEq, Repr, Inhabited

/-- If a chunk is code whose token was found, then it is the text of its place. -/
def Placed.Faithful (p : Placed) : Prop :=
  p.chunk.isText = false → p.missing = false → p.chunk.content = p.place.text

/-- Those placed chunks that leave a trace. -/
def Placed.kept (ps : List Placed) : List Placed :=
  ps.filter fun p => p.chunk.isKept

/-- A line of a render function, by the chunks that it was made from: one chunk of code,
or some texts that are joined. -/
structure Line where
  first : Placed
  more : List Placed := []
deriving DecidableEq, Repr, Inhabited

namespace Line

/-- What the line does. -/
def chunk (l : Line) : Chunk :=
  match l.first.chunk with
  | .lit t => .lit (t ++ l.more.flatMap fun p => p.chunk.content)
  | c => c

/-- Where the first of the chunks starts. -/
def start (l : Line) : Position :=
  l.first.place.start

/-- Where the last of the chunks stops. -/
def stop (l : Line) : Position :=
  (l.more.getLastD l.first).place.stop

/-- Whether the line holds the source text that it was made from, as it stands. -/
def verbatim (l : Line) : Bool :=
  !l.first.chunk.isText && l.first.place.text == l.first.chunk.content

/-- Puts a text before lines, joined to the text of the first of them. -/
def glue (p : Placed) : List Line → List Line
  | [] => [⟨p, []⟩]
  | l :: ls => if l.first.chunk.isText then ⟨p, l.first :: l.more⟩ :: ls else ⟨p, []⟩ :: l :: ls

/-- The lines of placed chunks, adjacent texts joined. -/
def join : List Placed → List Line
  | [] => []
  | p :: ps => if p.chunk.isText then glue p (join ps) else ⟨p, []⟩ :: join ps

/-- The lines of those placed chunks that leave a trace. -/
def ofPlaced (ps : List Placed) : List Line :=
  join (Placed.kept ps)

theorem isText_chunk (l : Line) : l.chunk.isText = l.first.chunk.isText := by
  unfold chunk
  cases h : l.first.chunk <;> simp [Chunk.isText]

theorem chunk_of_code {l : Line} (h : l.first.chunk.isText = false) : l.chunk = l.first.chunk := by
  unfold chunk
  cases hc : l.first.chunk with
  | lit t => simp [hc, Chunk.isText] at h
  | write code => rfl
  | stmt code => rfl

/-- Code keeps what is behind it apart from the text before it. -/
theorem glue_append (p : Placed) (ls : List Line) {l : Line} (h : l.first.chunk.isText = false)
    (ms : List Line) : glue p (ls ++ l :: ms) = glue p ls ++ l :: ms := by
  cases ls with
  | nil => simp [glue, h]
  | cons l' ls =>
    simp only [List.cons_append, glue]
    split <;> simp

/-- Code parts the lines before it from those after it. -/
theorem join_append_code (ws : List Placed) {p : Placed} (h : p.chunk.isText = false) (ps : List Placed) :
    join (ws ++ p :: ps) = join ws ++ ⟨p, []⟩ :: join ps := by
  induction ws with
  | nil => simp [join, h]
  | cons w ws ih =>
    rw [List.cons_append, join, join, ih]
    split
    · exact glue_append w _ h _
    · rfl

/-- Texts alone are one line. -/
theorem join_texts {p : Placed} {ps : List Placed} (h : ∀ q ∈ p :: ps, q.chunk.isText = true) :
    join (p :: ps) = [⟨p, ps⟩] := by
  induction ps generalizing p with
  | nil => simp [join, glue, h p (by simp)]
  | cons q ps ih =>
    rw [join, if_pos (h p (by simp)), ih fun r hr => h r (by simp [List.mem_cons.1 hr]), glue,
      if_pos (h q (by simp))]

/-- Text in front of text becomes one chunk with it. -/
theorem map_chunk_glue {p : Placed} {t : Text} (hp : p.chunk = .lit t) (ls : List Line) :
    (glue p ls).map chunk = match ls.map chunk with
      | .lit b :: more => .lit (t ++ b) :: more
      | more => .lit t :: more := by
  have hsingle : chunk ⟨p, []⟩ = .lit t := by simp [chunk, hp]
  cases ls with
  | nil => simp [glue, hsingle]
  | cons l ls =>
    rw [glue, List.map_cons]
    cases hl : l.first.chunk with
    | lit b =>
      have hjoined : chunk ⟨p, l.first :: l.more⟩ =
          .lit (t ++ (b ++ l.more.flatMap fun q => q.chunk.content)) := by
        simp [chunk, hp, hl, Chunk.content]
      have hchunk : l.chunk = .lit (b ++ l.more.flatMap fun q => q.chunk.content) := by
        simp [chunk, hl]
      simp [Chunk.isText, hjoined, hchunk]
    | write code =>
      have hchunk : l.chunk = .write code := by simp [chunk, hl]
      simp [Chunk.isText, hsingle, hchunk]
    | stmt code =>
      have hchunk : l.chunk = .stmt code := by simp [chunk, hl]
      simp [Chunk.isText, hsingle, hchunk]

/-- Joining placed chunks is joining chunks. -/
theorem map_chunk_join (ps : List Placed) : (join ps).map chunk = Chunk.merge (ps.map Placed.chunk) := by
  induction ps with
  | nil => rfl
  | cons p ps ih =>
    rw [join, List.map_cons]
    cases hp : p.chunk with
    | lit t => simp only [Chunk.isText, if_true, map_chunk_glue hp, ih, Chunk.merge]
    | write code =>
      have hsingle : chunk ⟨p, []⟩ = .write code := by simp [chunk, hp]
      simp [Chunk.isText, Chunk.merge, hsingle, ih]
    | stmt code =>
      have hsingle : chunk ⟨p, []⟩ = .stmt code := by simp [chunk, hp]
      simp [Chunk.isText, Chunk.merge, hsingle, ih]

/-- **The chunks of the lines** are the merged chunks that are kept. -/
theorem map_chunk_ofPlaced (ps : List Placed) :
    (ofPlaced ps).map chunk = Chunk.merge ((ps.map Placed.chunk).filter Chunk.isKept) := by
  rw [ofPlaced, map_chunk_join, Placed.kept, List.filter_map]
  rfl

/-- The lines of placed chunks, as one text. -/
theorem render_ofPlaced (ps : List Placed) :
    ((ofPlaced ps).flatMap fun l => l.chunk.render) = Chunk.renderAll (ps.map Placed.chunk) := by
  rw [Chunk.renderAll, ← map_chunk_ofPlaced, List.map_map, List.flatMap_def]
  rfl

theorem firsts_glue (p : Placed) (ls : List Line) : ((glue p ls).map first).Sublist (p :: ls.map first) := by
  cases ls with
  | nil => simp [glue]
  | cons l ls =>
    rw [glue]
    split
    · exact (List.sublist_cons_self _ _).cons_cons p
    · exact .refl _

/-- The chunks that lines start with, in their order. -/
theorem firsts_join (ps : List Placed) : ((join ps).map first).Sublist ps := by
  induction ps with
  | nil => exact .refl _
  | cons p ps ih =>
    rw [join]
    split
    · exact (firsts_glue p _).trans (ih.cons_cons p)
    · exact ih.cons_cons p

/-- Lines start with different chunks, in order. -/
theorem firsts_ofPlaced (ps : List Placed) : ((ofPlaced ps).map first).Sublist ps :=
  (firsts_join _).trans List.filter_sublist

/-! ## Mappings and ranges -/

/-- The mapping that an emitter makes for a line after the code `before`. -/
def mapping (e : Emitter) (before : Text) (l : Line) : Mapping :=
  let p := (before ++ l.chunk.lead).endPoint
  ⟨p.line, p.col, l.start.line, e.unitColumn l.start⟩

/-- The range that an emitter makes for a line after the code `before`. -/
def range (e : Emitter) (before : Text) (l : Line) : CodeRange where
  kind := l.chunk.rangeKind
  sourceStart := e.unitOffset l.start
  sourceStop := e.unitOffset l.stop
  compiledStart := (before ++ l.chunk.lead ++ l.chunk.opening).units
  compiledStop := (before ++ l.chunk.lead ++ l.chunk.opening ++ l.chunk.body).units
  verbatim := l.verbatim

/-- What is recorded for lines that are written one after the other. -/
def records {α : Type} (f : Text → Line → α) (before : Text) : List Line → List α
  | [] => []
  | l :: ls => f before l :: records f (before ++ l.chunk.render) ls

/-- What is recorded for later lines counts the text of the earlier ones. -/
theorem records_append {α : Type} (f : Text → Line → α) (before : Text) (ls ms : List Line) :
    records f before (ls ++ ms) =
      records f before ls ++ records f (before ++ ls.flatMap fun l => l.chunk.render) ms := by
  induction ls generalizing before with
  | nil => simp [records]
  | cons l ls ih => simp [records, ih]

/-- Mappings depend on the source of the emitter alone. -/
theorem mapping_congr {e e' : Emitter} (h : e'.source = e.source) : mapping e' = mapping e := by
  funext before l
  simp [mapping, Emitter.unitColumn, h]

theorem range_congr {e e' : Emitter} (h : e'.source = e.source) : range e' = range e := by
  funext before l
  simp [range, Emitter.unitOffset, h]

end Line

/-! ## What an emitter writes -/

namespace Emitter

/-- Gives an emitter one more chunk. -/
def put (e : Emitter) (p : Placed) : Emitter :=
  match p.chunk with
  | .lit t => e.literal t p.place
  | .write code => e.expression code p.place
  | .stmt code => e.statement code p.place

/-- From `e` to `e'` the lines were written, each with its mapping and its range. -/
structure Writes (e : Emitter) (ls : List Line) (e' : Emitter) : Prop where
  source : e'.source = e.source
  collectRanges : e'.collectRanges = e.collectRanges
  code : e'.output.code = e.output.code ++ ls.flatMap fun l => l.chunk.render
  mappings : e'.output.mappings =
    e.output.mappings ++ Line.records (Line.mapping e) e.output.code ls
  ranges : e'.output.ranges = e.output.ranges ++
    if e.collectRanges then Line.records (Line.range e) e.output.code ls else []
  tracked : e'.output.Tracked

variable {e e' e'' : Emitter} {ls ms : List Line}

theorem Writes.refl (h : e.output.Tracked) : e.Writes [] e :=
  ⟨rfl, rfl, by simp, by simp [Line.records], by simp [Line.records], h⟩

/-- Lines may be followed by more lines. -/
theorem Writes.trans (h : e.Writes ls e') (h' : e'.Writes ms e'') : e.Writes (ls ++ ms) e'' where
  source := h'.source.trans h.source
  collectRanges := h'.collectRanges.trans h.collectRanges
  code := by rw [h'.code, h.code]; simp
  mappings := by
    rw [h'.mappings, h.mappings, h.code, Line.mapping_congr h.source, Line.records_append,
      List.append_assoc]
  ranges := by
    rw [h'.ranges, h.ranges, h.code, h.collectRanges, Line.range_congr h.source, Line.records_append]
    split <;> simp
  tracked := h'.tracked

/-- Writing that leaves the output alone. -/
theorem Writes.of_output (h : e.output.Tracked) (hs : e'.source = e.source)
    (hc : e'.collectRanges = e.collectRanges) (ho : e'.output = e.output) : e.Writes [] e' :=
  ⟨hs, hc, by simp [ho], by simp [ho, Line.records], by simp [ho, Line.records], ho ▸ h⟩

@[simp]
theorem output_write (e : Emitter) (t : Text) : (e.write t).output = e.output.push t := rfl

theorem output_addRange (e : Emitter) (k : RangeKind) (p q : Position) (i j : ℕ) (v : Bool) :
    (e.addRange k p q i j v).output = { e.output with
      ranges := e.output.ranges ++
        if e.collectRanges then [⟨k, e.unitOffset p, e.unitOffset q, i, j, v⟩] else [] } := by
  unfold addRange
  cases e.collectRanges <;> simp [Output.addRange]

theorem source_addRange (e : Emitter) (k : RangeKind) (p q : Position) (i j : ℕ) (v : Bool) :
    (e.addRange k p q i j v).source = e.source := by
  unfold addRange; split <;> rfl

theorem collectRanges_addRange (e : Emitter) (k : RangeKind) (p q : Position) (i j : ℕ) (v : Bool) :
    (e.addRange k p q i j v).collectRanges = e.collectRanges := by
  unfold addRange; split <;> rfl

theorem pending_addRange (e : Emitter) (k : RangeKind) (p q : Position) (i j : ℕ) (v : Bool) :
    (e.addRange k p q i j v).pending = e.pending := by
  unfold addRange; split <;> rfl

/-- The emitter writes one line: first what stands before the mapped point, then the
rest, and records the range last. -/
def writeLine (e : Emitter) (l : Line) : Emitter :=
  let opened := ((e.write l.chunk.lead).mapHere l.start).write l.chunk.opening
  let filled := opened.write l.chunk.body
  (filled.write l.chunk.closing).addRange l.chunk.rangeKind l.start l.stop opened.output.length
    filled.output.length l.verbatim

/-- **A line is written with its mapping and its range.** -/
theorem writeLine_writes (h : e.output.Tracked) (l : Line) : e.Writes [l] (e.writeLine l) := by
  -- the output at the mapped point
  set o := (e.output.push l.chunk.lead).mapHere l.start.line (e.unitColumn l.start) with ho
  have htracked : o.Tracked := (h.push l.chunk.lead).mapHere _ _
  have hcode : o.code = e.output.code ++ l.chunk.lead := by rw [ho, Output.code_mapHere, Output.code_push]
  have hmapping : o.mappings = e.output.mappings ++ [Line.mapping e e.output.code l] := by
    have hpoint := (h.push l.chunk.lead).point
    rw [Output.code_push] at hpoint
    rw [ho, Output.mapHere, Output.mappings_push, Line.mapping, ← hpoint]
    rfl
  have hopened := htracked.push l.chunk.opening
  have hfilled := hopened.push l.chunk.body
  have houtput : (e.writeLine l).output =
      { ((o.push l.chunk.opening).push l.chunk.body).push l.chunk.closing with
        ranges := e.output.ranges ++ if e.collectRanges then [Line.range e e.output.code l] else [] } := by
    have hstart : (o.push l.chunk.opening).length =
        (e.output.code ++ l.chunk.lead ++ l.chunk.opening).units := by
      rw [hopened.length, Output.code_push, hcode]
    have hstop : ((o.push l.chunk.opening).push l.chunk.body).length =
        (e.output.code ++ l.chunk.lead ++ l.chunk.opening ++ l.chunk.body).units := by
      rw [hfilled.length, Output.code_push, Output.code_push, hcode]
    have hranges : (((o.push l.chunk.opening).push l.chunk.body).push l.chunk.closing).ranges =
        e.output.ranges := by
      simp only [Output.ranges_push, ho, Output.ranges_mapHere]
    rw [writeLine, output_addRange, Line.range, ← hstart, ← hstop, ← hranges]
    rfl
  refine ⟨source_addRange .., collectRanges_addRange .., ?_, ?_, ?_, ?_⟩
  · have hall : (e.writeLine l).output.code =
        (((o.push l.chunk.opening).push l.chunk.body).push l.chunk.closing).code := by rw [houtput]; rfl
    rw [hall]
    simp only [Output.code_push, hcode, List.flatMap_singleton, Chunk.render_eq, List.append_assoc]
  · have hall : (e.writeLine l).output.mappings =
        (((o.push l.chunk.opening).push l.chunk.body).push l.chunk.closing).mappings := by rw [houtput]
    rw [hall]
    simp only [Output.mappings_push, hmapping, Line.records]
  · rw [houtput]; rfl
  · have hclosed := hfilled.push l.chunk.closing
    rw [houtput]; exact ⟨hclosed.point, hclosed.length⟩

theorem write_append (e : Emitter) (a b : Text) : e.write (a ++ b) = (e.write a).write b := by
  simp only [write, Output.push_append]

/-- Text that waits is written as the line of that text: the quotes around it belong to
the code of the line. -/
theorem flush_eq_writeLine {l : Line} {t : Text} (hl : l.chunk = .lit t)
    (hp : e.pending = some ⟨t, l.start, l.stop⟩) :
    e.flush = { e with pending := none }.writeLine l := by
  have hverbatim : l.verbatim = false := by
    have htext := l.isText_chunk
    rw [hl] at htext
    rw [Line.verbatim, ← htext]; rfl
  have hquoted : t.quoted = ['"'] ++ (Chunk.lit t).body ++ ['"'] := by
    simp [Text.quoted, Chunk.body]
  rw [flush, hp, writeLine, hl, hverbatim]
  dsimp only
  -- the quotes belong to what the line opens and closes with, so the range starts behind the first one
  generalize hcall : (({ e with pending := none }.write indent).mapHere l.start).write
    "__writer.writeLiteral(".toList = o
  have hopened : (({ e with pending := none }.write (Chunk.lit t).lead).mapHere l.start).write
      (Chunk.lit t).opening = o.write ['"'] := by
    rw [← hcall]; exact write_append _ _ _
  have hfilled : o.write t.quoted = ((o.write ['"']).write (Chunk.lit t).body).write ['"'] := by
    rw [hquoted, write_append, write_append]
  have hend : (o.write t.quoted).write ");\n".toList =
      ((o.write ['"']).write (Chunk.lit t).body).write (Chunk.lit t).closing := by
    rw [hfilled, ← write_append]; rfl
  have hlength : ∀ d : Emitter, (d.write ['"']).output.length = d.output.length + 1 := fun d =>
    Output.length_push _ _
  rw [hopened, hend, hfilled, hlength o, hlength, Nat.add_sub_cancel]
  rfl

/-- Code is written as a line of its own, after the text that waits. -/
theorem put_eq_writeLine {p : Placed} (hp : p.chunk.isText = false) (hkept : p.chunk.isKept = true) :
    e.put p = e.flush.writeLine ⟨p, []⟩ := by
  have hline : Line.chunk ⟨p, []⟩ = p.chunk := Line.chunk_of_code hp
  have hverbatim : Line.verbatim ⟨p, []⟩ = (p.place.text == p.chunk.content) := by
    simp [Line.verbatim, hp]
  rw [put, writeLine, hline, hverbatim]
  cases hc : p.chunk with
  | lit t => simp [hc, Chunk.isText] at hp
  | write code =>
    have hblank : code.allBlank = false := by simpa [hc, Chunk.isKept] using hkept
    have hlead : e.flush.write (Chunk.write code).lead = (e.flush.write indent).write
      "__writer.write(".toList := write_append _ _ _
    dsimp only
    rw [expression, codeLine, if_neg (by simp [hblank]), hlead]
    rfl
  | stmt code =>
    have hblank : code.allBlank = false := by simpa [hc, Chunk.isKept] using hkept
    dsimp only
    rw [statement, codeLine, if_neg (by simp [hblank])]
    rfl

/-! ## Texts that wait -/

/-- There is nothing to write if no text waits. -/
theorem flush_of_none (h : e.pending = none) : e.flush = e := by
  rw [flush, h]

/-- No text waits after it was written. -/
theorem pending_flush (e : Emitter) : e.flush.pending = none := by
  unfold flush
  cases hp : e.pending with
  | none => exact hp
  | some p => exact pending_addRange ..

/-- The texts as an emitter holds them back. -/
def pendingOf : List Placed → Option Pending
  | [] => none
  | p :: ps => some ⟨(p :: ps).flatMap fun q => q.chunk.content, p.place.start,
      (ps.getLastD p).place.stop⟩

/-- The texts that wait in an emitter. -/
structure Waits (e : Emitter) (ws : List Placed) : Prop where
  pending : e.pending = pendingOf ws
  texts : ∀ p ∈ ws, p.chunk.isText = true

variable {ws : List Placed}

/-- **Waiting text becomes one line.** -/
theorem flush_writes (h : e.output.Tracked) (hw : e.Waits ws) :
    e.Writes (Line.join ws) e.flush ∧ e.flush.Waits [] := by
  cases ws with
  | nil =>
    rw [flush_of_none hw.pending]
    exact ⟨.refl h, hw⟩
  | cons p ps =>
    obtain ⟨t, ht⟩ : ∃ t, p.chunk = .lit t := by
      have htext := hw.texts p (by simp)
      cases hc : p.chunk with
      | lit t => exact ⟨t, rfl⟩
      | write code => simp [hc, Chunk.isText] at htext
      | stmt code => simp [hc, Chunk.isText] at htext
    have hpending : e.pending = some ⟨t ++ ps.flatMap fun q => q.chunk.content, (Line.mk p ps).start,
        (Line.mk p ps).stop⟩ := by
      rw [hw.pending, pendingOf, List.flatMap_cons, ht]; rfl
    have hchunk : (Line.mk p ps).chunk = .lit (t ++ ps.flatMap fun q => q.chunk.content) := by
      rw [Line.chunk, ht]
    rw [Line.join_texts hw.texts, flush_eq_writeLine hchunk hpending]
    have hwrites := writeLine_writes (e := { e with pending := none }) h ⟨p, ps⟩
    exact ⟨⟨hwrites.source, hwrites.collectRanges, hwrites.code, hwrites.mappings, hwrites.ranges,
      hwrites.tracked⟩, pending_addRange .., by simp⟩

/-- Text joins the texts that wait, if there is any of it. -/
theorem put_text_writes (h : e.output.Tracked) (hw : e.Waits ws) {p : Placed} (hp : p.chunk.isText = true) :
    e.Writes [] (e.put p) ∧ (e.put p).Waits (ws ++ Placed.kept [p]) := by
  cases hc : p.chunk with
  | write code => simp [hc, Chunk.isText] at hp
  | stmt code => simp [hc, Chunk.isText] at hp
  | lit t =>
    rw [put, hc]
    cases t with
    | nil => simpa [Placed.kept, hc, Chunk.isKept, literal] using ⟨Writes.refl h, hw⟩
    | cons x t =>
      have hkept : Placed.kept [p] = [p] := by simp [Placed.kept, hc, Chunk.isKept]
      have htexts : ∀ q ∈ ws ++ [p], q.chunk.isText = true := by
        intro q hq
        rcases List.mem_append.1 hq with hq | hq
        · exact hw.texts q hq
        · rw [List.mem_singleton.1 hq]; exact hp
      rw [hkept]
      dsimp only
      rw [literal, if_neg (by simp), hw.pending]
      cases ws with
      | nil => exact ⟨.of_output h rfl rfl rfl, by simp [pendingOf, hc, Chunk.content], htexts⟩
      | cons w ws =>
        refine ⟨.of_output h rfl rfl rfl, ?_, htexts⟩
        simp [pendingOf, hc, Chunk.content]

/-- **Code** is written after the text that waits for it. -/
theorem put_code_writes (h : e.output.Tracked) (hw : e.Waits ws) {p : Placed} (hp : p.chunk.isText = false)
    (hkept : p.chunk.isKept = true) :
    e.Writes (Line.join ws ++ [⟨p, []⟩]) (e.put p) ∧ (e.put p).Waits [] := by
  obtain ⟨hflush, hnone⟩ := flush_writes h hw
  rw [put_eq_writeLine hp hkept]
  refine ⟨hflush.trans (writeLine_writes hflush.tracked _), ?_, by simp⟩
  exact (pending_addRange ..).trans hnone.pending

/-- Blank code leaves no trace. -/
theorem put_blank {p : Placed} (hp : p.chunk.isText = false) (hkept : p.chunk.isKept = false) :
    e.put p = e := by
  rw [put]
  cases hc : p.chunk with
  | lit t => simp [hc, Chunk.isText] at hp
  | write code =>
    have hblank : code.allBlank = true := by simpa [hc, Chunk.isKept] using hkept
    exact if_pos hblank
  | stmt code =>
    have hblank : code.allBlank = true := by simpa [hc, Chunk.isKept] using hkept
    exact if_pos hblank

/-! ## Emission -/

/-- From `e` to `e'` the placed chunks were emitted, and the scopes are as before: some of
their lines were written, and the texts of the last line may still wait. -/
structure Emits (e : Emitter) (ps : List Placed) (e' : Emitter) : Prop where
  scopes : e'.scopes = e.scopes
  writes : ∀ ws, e.output.Tracked → e.Waits ws → ∃ ls ws', e.Writes ls e' ∧ e'.Waits ws' ∧
    ∀ qs, Line.join (ws ++ Placed.kept ps ++ qs) = ls ++ Line.join (ws' ++ qs)

variable {ps qs : List Placed}

theorem Emits.refl (e : Emitter) : e.Emits [] e :=
  ⟨rfl, fun ws h hw => ⟨[], ws, .refl h, hw, fun qs => by simp [Placed.kept]⟩⟩

/-- Chunks may be followed by more chunks. -/
theorem Emits.trans (h : e.Emits ps e') (h' : e'.Emits qs e'') : e.Emits (ps ++ qs) e'' := by
  refine ⟨h'.scopes.trans h.scopes, fun ws htracked hw => ?_⟩
  obtain ⟨ls, ws', hls, hws', hjoin⟩ := h.writes ws htracked hw
  obtain ⟨ms, ws'', hms, hws'', hjoin'⟩ := h'.writes ws' hls.tracked hws'
  refine ⟨ls ++ ms, ws'', hls.trans hms, hws'', fun more => ?_⟩
  have hsplit : ws ++ Placed.kept (ps ++ qs) ++ more =
      ws ++ Placed.kept ps ++ (Placed.kept qs ++ more) := by
    simp [Placed.kept]
  rw [hsplit, hjoin, ← List.append_assoc ws', hjoin', List.append_assoc]

theorem scopes_addRange (e : Emitter) (k : RangeKind) (p q : Position) (i j : ℕ) (v : Bool) :
    (e.addRange k p q i j v).scopes = e.scopes := by
  unfold addRange; split <;> rfl

/-- Writing opens and closes no scope. -/
theorem scopes_flush (e : Emitter) : e.flush.scopes = e.scopes := by
  unfold flush
  cases e.pending with
  | none => rfl
  | some p =>
    dsimp only
    rw [scopes_addRange]; rfl

theorem scopes_codeLine (e : Emitter) (opening closing code : Text) (l : Location) :
    (e.codeLine opening closing code l).scopes = e.scopes := by
  unfold codeLine
  split
  · rfl
  · dsimp only
    rw [scopes_addRange]; exact scopes_flush e

/-- Putting a chunk opens and closes no scope. -/
theorem scopes_put (e : Emitter) (p : Placed) : (e.put p).scopes = e.scopes := by
  unfold put
  cases p.chunk with
  | lit t =>
    dsimp only [literal]
    split
    · rfl
    · split <;> rfl
  | write code => exact scopes_codeLine ..
  | stmt code => exact scopes_codeLine ..

/-- One more chunk is emitted: text waits, code is written at once. -/
theorem put_emits (e : Emitter) (p : Placed) : e.Emits [p] (e.put p) := by
  refine ⟨scopes_put e p, fun ws h hw => ?_⟩
  cases hp : p.chunk.isText with
  | true =>
    obtain ⟨hput, hwaits⟩ := put_text_writes h hw hp
    exact ⟨[], _, hput, hwaits, fun qs => rfl⟩
  | false =>
    cases hkept : p.chunk.isKept with
    | true =>
      obtain ⟨hput, hwaits⟩ := put_code_writes h hw hp hkept
      refine ⟨_, [], hput, hwaits, fun qs => ?_⟩
      simp [Placed.kept, hkept, Line.join_append_code ws hp]
    | false =>
      rw [put_blank hp hkept]
      exact ⟨[], ws, .refl h, hw, fun qs => by simp [Placed.kept, hkept]⟩

/-- **Text** is put as one chunk, and so are expressions and statements. -/
theorem literal_emits (e : Emitter) (t : Text) (l : Location) (missing : Bool) :
    e.Emits [⟨.lit t, l, missing⟩] (e.literal t l) :=
  e.put_emits ⟨.lit t, l, missing⟩

theorem expression_emits (e : Emitter) (code : Text) (l : Location) (missing : Bool) :
    e.Emits [⟨.write code, l, missing⟩] (e.expression code l) :=
  e.put_emits ⟨.write code, l, missing⟩

theorem statement_emits (e : Emitter) (code : Text) (l : Location) (missing : Bool) :
    e.Emits [⟨.stmt code, l, missing⟩] (e.statement code l) :=
  e.put_emits ⟨.stmt code, l, missing⟩

/-- What is emitted inside a scope is emitted. -/
theorem within_emits {s : Scope} {act : Emitter → Emitter} (h : (e.enter s).Emits ps (act (e.enter s))) :
    e.Emits ps (e.within s act) := by
  refine ⟨?_, fun ws htracked hw => ?_⟩
  · show (act (e.enter s)).scopes.tail = e.scopes
    rw [h.scopes]; rfl
  · obtain ⟨ls, ws', hls, hws', hjoin⟩ := h.writes ws htracked ⟨hw.pending, hw.texts⟩
    exact ⟨ls, ws', ⟨hls.source, hls.collectRanges, hls.code, hls.mappings, hls.ranges, hls.tracked⟩,
      ⟨hws'.pending, hws'.texts⟩, hjoin⟩

/-- **What is emitted is written as its lines**, once the text that waits is flushed. -/
theorem Emits.flush_writes (h : e.Emits ps e') (htracked : e.output.Tracked) (hw : e.Waits []) :
    e.Writes (Line.ofPlaced ps) e'.flush := by
  obtain ⟨ls, ws', hls, hws', hjoin⟩ := h.writes [] htracked hw
  have hlines : Line.ofPlaced ps = ls ++ Line.join ws' := by simpa [Line.ofPlaced] using hjoin []
  rw [hlines]
  exact hls.trans (Emitter.flush_writes hls.tracked hws').1

end Emitter

end Stencil
