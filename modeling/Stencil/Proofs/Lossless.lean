import Stencil.Grammar.Registry
import Stencil.Proofs.Progress

/-!
# Reading a template

Reading a template with the standard grammars comes down to reading one document
from the beginning (`parse_eq_document`); the document reaches the end of the
template, and the end of the file stands after it.

* `parse_tiles`: **the blanks and leaves of the tree tile the source**, with true
  positions and exact texts, so the source is the text of the tree.
* `parse_total`: **every loop of the parser reads on, and the result has a fixed
  shape**: the document and the end of the file.
-/

namespace Stencil

open Context

/-! ## The rounds of a grammar -/

namespace Grammar

/-- One call of a grammar in a context. -/
def round (g : Grammar) (c : Context) : Round :=
  ⟨(g.next c).1, c.pos.offset, (g.next c).2.diagnostics.drop c.diagnostics.length⟩

variable {g : Grammar} {c : Context}

/-- One round, and then the others if it read on. -/
theorem rounds_eq : g.rounds c =
    if (g.round c).isLast then ([g.round c], (g.next c).2)
    else if (g.next c).2.rest.length < c.rest.length then
      (g.round c :: (g.rounds (g.next c).2).1, (g.rounds (g.next c).2).2)
    else ([g.round c], (g.next c).2) := by
  rw [rounds]; rfl

theorem isLast_round : (g.round c).isLast = true ↔ (g.next c).1.kind = .endOfFile := by
  simp [Round.isLast, round]

end Grammar

/-! ## Down to the document -/

/-- The context in which the document of a template is read. -/
def Context.atDocument (options : ParseOptions) (t : Text) : Context :=
  { Context.ofText options t with rootParsed := true }

/-- The document of a template, and the context after it. -/
def Template.document (options : ParseOptions) (t : Text) : Node × Context :=
  Parse.document (Level.ofRoom options.maxNestingDepth).code (Level.ofRoom options.maxNestingDepth).element
    (.atDocument options t)

section

variable (options : ParseOptions) (t : Text)

theorem next_ofText : Grammar.template.next (.ofText options t) = Template.document options t := rfl

/-- Behind the document there is nothing but the end of the file. -/
theorem next_rootParsed {d : Context} (h : d.rootParsed = true) :
    Grammar.template.next d = (.marker .endOfFile (.empty d.pos), d) := by
  show (if d.rootParsed then pure (Node.marker .endOfFile (.empty d.pos)) else _ : Parse Node) d = _
  rw [if_pos h]; rfl

theorem kind_document : (Template.document options t).1.kind = .document := rfl

/-- **A document is read to the end of the template.** -/
theorem document_rest (room : ℕ) (c : Context) :
    Parse.Ends (Parse.document (Level.ofRoom room).code (Level.ofRoom room).element) c
      fun _ d => d.rest = [] := by
  have htraced := Level.traced_ofRoom room
  refine Parse.Ends.get_bind ?_
  have hgo : Parse.NodesGoOn (Parse.documentPart (Level.ofRoom room).code (Level.ofRoom room).element
      c.flattenedCount) := .of_readOn fun _ => Parse.documentPart_readOn htraced.code htraced.element _
  refine Parse.Ends.bind (Parse.Ends.manyNodes_exit hgo (fun _ _ => True) (fun _ _ _ _ _ _ => trivial)
    trivial) ?_
  rintro ns d ⟨e, -, hnone⟩
  obtain ⟨hrest, rfl⟩ := Parse.documentPart_none hnone
  refine Parse.Ends.bind (Q := fun _ d' => d'.rest = d.rest) ?_ fun _ d' hd => Parse.Ends.pure (hd.trans hrest)
  exact (Parse.closeFlattened_moved _ d).rest_eq

/-- **The document of a template has a trace.** -/
theorem Template.document_traced : Trace false (.atDocument options t) [(Template.document options t).1] 1
    (Template.document options t).2 :=
  (Parse.document_gives (Level.traced_ofRoom _).code (Level.traced_ofRoom _).element).trace

/-- The document is all of the template, read from the very beginning. -/
theorem document_moved : (Context.atDocument options t).Moved t (Template.document options t).2 := by
  obtain ⟨u, hu⟩ := (Template.document_traced options t).moved
  have hend : (Template.document options t).2.rest = [] := document_rest _ _
  have hrest : t = u ++ (Template.document options t).2.rest := hu.rest
  rw [hend, List.append_nil] at hrest
  rw [hrest]; rw [hrest] at hu; exact hu

/-- A document is read to the end of its text. -/
theorem pos_document : (Template.document options t).2.pos = t.positionAt t.length := by
  have h := Text.after_eq_positionAt t []
  rw [List.append_nil] at h
  rw [(document_moved options t).pos, ← h]; rfl

variable {options}

theorem mem_languages_standard :
    options.language ∈ Registry.standard.languages ↔ options.language = "kiln" := by
  simp [Registry.standard, Registry.languages, Registry.register, Grammar.template]

/-- A grammar that reads the document first, and then says that it is done. -/
theorem Grammar.template_run_of_next {g : Grammar} (hnext : g.next (.ofText options t) = Template.document options t)
    (hdone : ∀ d : Context, d.rootParsed = true → g.next d = (.marker .endOfFile (.empty d.pos), d)) :
    (g.run options t).template =
      ⟨[(Template.document options t).1, .marker .endOfFile (.empty (Template.document options t).2.pos)],
        (Template.document options t).2.diagnostics⟩ := by
  have hfirst : ¬ (g.round (.ofText options t)).isLast = true := by
    rw [isLast_round, hnext, kind_document]; decide
  show Run.template ⟨_, (g.rounds (.ofText options t)).1, (g.rounds (.ofText options t)).2⟩ = _
  rw [rounds_eq, if_neg hfirst, hnext]
  split
  · -- the end of the file is the second round
    have hdone := hdone _ (document_moved options t).rootParsed
    have hlast : (g.round (Template.document options t).2).isLast = true := by
      rw [isLast_round, hdone]; rfl
    have hstalled : (Run.mk g.language [g.round (.ofText options t), g.round (Template.document options t).2]
        (Template.document options t).2).stalled = false := by simp [Run.stalled, hlast]
    rw [rounds_eq, if_pos hlast, hdone, Run.template, hstalled]
    simp [round, hnext, hdone]
  · -- nothing was there to read, and the run is cut off
    have hstalled : (Run.mk g.language [g.round (.ofText options t)]
        (Template.document options t).2).stalled = true := by simp [Run.stalled, hfirst]
    rw [Run.template, hstalled]
    simp [round, hnext]

/-- A template is its document and the end of the file. -/
theorem Grammar.template_run (options : ParseOptions) (t : Text) : (template.run options t).template =
    ⟨[(Template.document options t).1, .marker .endOfFile (.empty (Template.document options t).2.pos)],
      (Template.document options t).2.diagnostics⟩ :=
  template_run_of_next t (next_ofText options t) fun _ => next_rootParsed

/-- **Reading a template is reading one document**; the end of the file stands
where the document stops. -/
theorem parse_eq_document (h : options.language ∈ Registry.standard.languages) :
    Template.parse options t = .ok
      ⟨[(Template.document options t).1, .marker .endOfFile (.empty (Template.document options t).2.pos)],
        (Template.document options t).2.diagnostics⟩ := by
  have hget : Registry.standard.get? options.language = some .template := by
    rw [mem_languages_standard.1 h]; rfl
  rw [Template.parse, Registry.parse, Registry.run, hget]
  exact congrArg Except.ok (Grammar.template_run options t)

/-! ## The tiling -/

/-- Pieces read from the beginning of a text to its end tile it. -/
theorem Context.Reads.tiles {c d : Context} {ps : List Piece} (h : c.Reads ps d) (hpos : c.pos = {})
    (hrest : d.rest = []) (hps : ps ≠ []) :
    Location.Tiles c.rest (ps.map Piece.location) ∧ ps.flatMap (·.location.text) = c.rest := by
  obtain ⟨ts, hlocs, hmoved⟩ := h
  have hall : c.rest = ts.flatten := by rw [hmoved.rest, hrest, List.append_nil]
  have hts : ts ≠ [] := by
    rintro rfl; exact hps (List.map_eq_nil_iff.1 hlocs)
  rw [hlocs, hpos, hall]
  refine ⟨Location.tiles_tile hts, ?_⟩
  rw [← Location.flatMap_text_tile {} ts, ← hpos, ← hlocs, List.flatMap_map]

/-- The pieces of a template are those of its document and the end of the file. -/
theorem template_reads : (Context.atDocument options t).Reads
    (Node.piecesAll [(Template.document options t).1,
      .marker .endOfFile (.empty (Template.document options t).2.pos)]) (Template.document options t).2 := by
  have hdoc := (Template.document_traced options t).reads
  have hend : (Template.document options t).2.Reads
      [.leaf .endOfFile .marker (.empty (Template.document options t).2.pos)]
      (Template.document options t).2 :=
    .single rfl (.refl _)
  simpa using hdoc.trans hend

/-- The pieces of a template are laid edge to edge over the parts of its text. -/
theorem template_tile : ∃ ts, (Node.piecesAll [(Template.document options t).1,
    .marker .endOfFile (.empty (Template.document options t).2.pos)]).map Piece.location =
      Location.tile {} ts ∧ ts.flatten = t := by
  obtain ⟨ts, hlocs, hmoved⟩ : (Context.atDocument options t).Reads _ _ := template_reads t
  have hall : t = ts.flatten ++ (Template.document options t).2.rest := hmoved.rest
  have hend : (Template.document options t).2.rest = [] := document_rest _ _
  rw [hend, List.append_nil] at hall
  exact ⟨ts, hlocs, hall.symm⟩

/-- **The blanks and leaves of a template tile its source**: they lie edge to edge
from its beginning to its end, at true positions and with exact texts. So nothing
is lost, and the source is the text of the tree. -/
theorem parse_tiles (h : options.language ∈ Registry.standard.languages) :
    ∃ r, Template.parse options t = .ok r ∧
      Location.Tiles t ((Node.piecesAll r.nodes).map Piece.location) ∧ r.source = t := by
  refine ⟨_, parse_eq_document t h, ?_⟩
  have hne : Node.piecesAll [(Template.document options t).1,
      .marker .endOfFile (.empty (Template.document options t).2.pos)] ≠ [] := by simp
  obtain ⟨htiles, htext⟩ := (template_reads t).tiles rfl (document_rest _ _) hne
  refine ⟨htiles, ?_⟩
  rw [Template.source, Node.sourceAll_eq_pieces]
  exact htext

theorem parse_tiles_unclosed :
    ({ maxNestingDepth := 0 } : ParseOptions).language ∈ Registry.standard.languages ∧
      ∃ r, Template.parse { maxNestingDepth := 0 } "<a b='@@\n<p>".toList = .ok r ∧
        Location.Tiles "<a b='@@\n<p>".toList ((Node.piecesAll r.nodes).map Piece.location) ∧
        r.source = "<a b='@@\n<p>".toList :=
  ⟨by decide, parse_tiles _ (by decide)⟩

/-! ## Progress and the shape of the result -/

/-- A turn of a loop that gives something has read on. -/
def Parse.TurnsReadOn {α : Type} (turn : Parse (Option α)) : Prop :=
  ∀ c, Parse.Ends turn c fun r d => r ≠ none → c.ReadOn d

/-- The loops of the grammar, with the parsers for what may be nested in them
when `room` more levels may be nested: each turn that does not end its loop reads
on, and so does the content at any place before the end of the template. -/
structure Level.LoopsReadOn (room : ℕ) : Prop where
  document : ∀ base, Parse.TurnsReadOn (Parse.documentPart (ofRoom room).code (ofRoom room).element base)
  element : ∀ name base,
    Parse.TurnsReadOn (Parse.elementPart (ofRoom room).code (ofRoom room).element name base)
  attributes : ∀ s, Parse.TurnsReadOn (Parse.attributePart (ofRoom room).code s)
  value : ∀ ends, Parse.TurnsReadOn (Parse.valuePart (ofRoom room).code ends)
  rawText : ∀ name, Parse.TurnsReadOn (Parse.rawTextPart (ofRoom room).code name)
  body : ∀ last, Parse.TurnsReadOn (Parse.bodyPart (ofRoom room).body (ofRoom (room + 1)).element last)
  content : ∀ c, c.rest ≠ [] →
    Parse.Ends (Parse.content (ofRoom room).code (ofRoom room).element) c fun _ d => c.ReadOn d

/-- The scans of code: each of them repeats a turn that, unless it is the last,
takes at least one character. -/
structure Code.ScansReadOn : Prop where
  string : ∀ quote, (stringTurn quote).Drives fun _ => stringRest quote
  blockComment : blockCommentTurn.Drives fun _ => blockCommentRest
  group : ∀ opening closing, (groupTurn opening closing).Drives (groupRest opening closing)
  chain : chainTurn.Drives fun _ => Code.chain
  value : valueTurn.Drives fun last t => (Code.value last t).1
  flatBody : flatBodyTurn.Drives Code.flatBody

theorem loopsReadOn (room : ℕ) : Level.LoopsReadOn room := by
  have h := Level.traced_ofRoom room
  exact
    { document := fun base _ => Parse.documentPart_readOn h.code h.element base
      element := fun name base _ => Parse.elementPart_readOn h.code h.element name base
      attributes := fun s _ => Parse.attributePart_readOn h.code s
      value := fun ends _ => Parse.valuePart_readOn h.code ends
      rawText := fun name _ => Parse.rawTextPart_readOn h.code name
      body := fun last _ => Parse.bodyPart_readOn h.body (Level.traced_ofRoom (room + 1)).element last
      content := fun _ hc => (Parse.content_traces h.code h.element hc).imp fun _ _ hn => hn.1.readOn }

theorem scansReadOn : Code.ScansReadOn :=
  ⟨Code.stringTurn_drives, Code.blockCommentTurn_drives, Code.groupTurn_drives, Code.chainTurn_drives,
    Code.valueTurn_drives, Code.flatBodyTurn_drives⟩

/-- **Reading a template always ends, in a document and the end of the file.**
Every turn of every loop reads on unless it is the last one, and the end of the
file is an empty marker at the end of the source. -/
theorem parse_total :
    (∀ room, Level.LoopsReadOn room) ∧ Code.ScansReadOn ∧
      ∀ (options : ParseOptions) (t : Text), options.language ∈ Registry.standard.languages →
        ∃ doc ds, Template.parse options t =
            .ok ⟨[doc, .marker .endOfFile (.empty (t.positionAt t.length))], ds⟩ ∧
          doc.kind = .document := by
  refine ⟨loopsReadOn, scansReadOn, fun options t h => ?_⟩
  refine ⟨(Template.document options t).1, (Template.document options t).2.diagnostics, ?_,
    kind_document options t⟩
  rw [parse_eq_document t h, pos_document]

/-- Attributes, content, raw text and a block with an element in it: every loop of the grammar turns. -/
def turningLoops : Text :=
  "<a b='@c d' e>f @\x7b g \x7b \x7d <h> \x7d</a><script>i @j</script>".toList

/-- A template on which every loop turns, and one on which none does. -/
theorem parse_total_turning :
    ({} : ParseOptions).language ∈ Registry.standard.languages ∧
      (∃ doc ds, Template.parse {} turningLoops =
          .ok ⟨[doc, .marker .endOfFile (.empty (turningLoops.positionAt turningLoops.length))], ds⟩ ∧
        doc.kind = .document) ∧
      ({ transition := Text.nul } : ParseOptions).language ∈ Registry.standard.languages ∧
      ∃ doc ds, Template.parse { transition := Text.nul } [] =
          .ok ⟨[doc, .marker .endOfFile (.empty {})], ds⟩ ∧
        doc.kind = .document :=
  ⟨by decide, parse_total.2.2 _ _ (by decide), by decide, parse_total.2.2 _ _ (by decide)⟩

end

end Stencil
