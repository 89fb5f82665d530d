import Stencil.Proofs.Chunks

/-!
# Source maps

A mapping has two points, one of the generated code and one of the source. A mapping is
made for each line of a render function, at the place in the source that the line was
made from.

* `Line.mapped_mapping`: the mapping of one line is exact (`Line.Mapped`): code that was
  found in the source stands at both points, and the point of a text is that of its
  first piece.
* `Line.generated_records`, `Line.original_records`: **along the lines the points of the
  generated code grow, and those of the source do not go back.**
* `compile_mappings`: the mappings of a template are those of its lines.
-/

namespace Stencil

namespace Mapping

/-- The point of the generated code. -/
def generated (m : Mapping) : Point :=
  ⟨m.genLine, m.genCol⟩

/-- The point of the source. -/
def original (m : Mapping) : Point :=
  ⟨m.srcLine, m.srcCol⟩

end Mapping

namespace Text

/-- From the point on the text begins with `s`. -/
def BeginsAt (t : Text) (p : Point) (s : Text) : Prop :=
  ∃ rest, t.from? p = some (s ++ rest)

theorem beginsAt_endPoint (u s rest : Text) : (u ++ s ++ rest).BeginsAt u.endPoint s :=
  ⟨rest, by rw [List.append_assoc]; exact from?_endPoint u _⟩

end Text

namespace Line

/-- The first of the chunks of the line was made from a stretch of the source, and its
place is the true one. -/
def Lies (source : Text) (l : Line) : Prop :=
  ∃ u v w, source = u ++ v ++ w ∧ l.first.place = .ofText (({} : Position).after u) v

/-- The mapping is exact for the line. The code of the line begins at both of its points,
if its token was found. For text the one point is that of the call that writes it, and
the other that of the first of its pieces. -/
structure Mapped (source generated : Text) (l : Line) (m : Mapping) : Prop where
  code : l.chunk.isText = false → l.first.missing = false →
    generated.BeginsAt m.generated l.chunk.content ∧ source.BeginsAt m.original l.chunk.content
  text : l.chunk.isText = true → generated.BeginsAt m.generated "__writer.writeLiteral(".toList ∧
    m.original = Text.endPoint (source.take l.start.offset) ∧
    source.BeginsAt m.original l.first.place.text

variable {e : Emitter} {l : Line} {ls : List Line}

/-- What stands before a line in the source. -/
theorem take_start {source u v w : Text} (hsource : source = u ++ v ++ w)
    (hplace : l.first.place = .ofText (({} : Position).after u) v) : source.take l.start.offset = u := by
  have hlength : l.start.offset = u.length := by simp [start, hplace, Location.ofText, Position.offset_after]
  rw [hlength, hsource, List.append_assoc, List.take_left]

/-- The point of the source is the end of the text before the line. -/
theorem original_mapping (hlies : l.Lies e.source) (before : Text) :
    (mapping e before l).original = Text.endPoint (e.source.take l.start.offset) := by
  obtain ⟨u, v, w, hsource, hplace⟩ := hlies
  have htake := take_start hsource hplace
  have hlength : u.length ≤ e.source.length := by simp [hsource]
  have htrue : l.start = e.source.positionAt u.length := by
    rw [hsource, List.append_assoc, ← Text.after_eq_positionAt, start, hplace]; rfl
  have hcol : e.unitColumn l.start = (Text.endPoint (e.source.take l.start.offset)).col := by
    rw [htrue, Emitter.unitColumn_eq hlength]; rfl
  have hline : l.start.line = (Text.endPoint (e.source.take l.start.offset)).line := by
    rw [htrue]; rfl
  show Point.mk l.start.line (e.unitColumn l.start) = _
  rw [hline, hcol]

/-- **The mapping of a line is exact.** -/
theorem mapped_mapping (hlies : l.Lies e.source) (hfaithful : l.first.Faithful) (before rest : Text) :
    l.Mapped e.source (before ++ l.chunk.render ++ rest) (mapping e before l) := by
  have horiginal := original_mapping hlies before
  have hbegins : e.source.BeginsAt (Text.endPoint (e.source.take l.start.offset)) l.first.place.text := by
    obtain ⟨u, v, w, hsource, hplace⟩ := hlies
    rw [take_start hsource hplace, hsource, hplace]
    exact Text.beginsAt_endPoint u v w
  have hgenerated : (mapping e before l).generated = (before ++ l.chunk.lead).endPoint := rfl
  refine ⟨fun hcode hfound => ?_, fun htext => ?_⟩
  · -- a line of code: what is written is the text of its place
    rw [isText_chunk] at hcode
    have hcontent : l.chunk.content = l.first.place.text := by
      rw [chunk_of_code hcode, hfaithful hcode hfound]
    have hsplit : before ++ l.chunk.render ++ rest =
        before ++ l.chunk.lead ++ l.chunk.content ++ (l.chunk.closing ++ rest) := by
      rw [Chunk.render_eq, Chunk.opening_of_code (by rwa [isText_chunk]),
        Chunk.body_of_code (by rwa [isText_chunk])]
      simp
    rw [hgenerated, horiginal, hsplit]
    exact ⟨Text.beginsAt_endPoint _ _ _, hcontent ▸ hbegins⟩
  · -- a line of text: the call is written first
    have hopening : l.chunk.opening = "__writer.writeLiteral(".toList ++ ['"'] := by
      cases hc : l.chunk with
      | lit t => rfl
      | write code => simp [hc, Chunk.isText] at htext
      | stmt code => simp [hc, Chunk.isText] at htext
    have hsplit : before ++ l.chunk.render ++ rest = before ++ l.chunk.lead ++ "__writer.writeLiteral(".toList ++
        (['"'] ++ l.chunk.body ++ l.chunk.closing ++ rest) := by
      rw [Chunk.render_eq, hopening]
      simp only [List.append_assoc]
    rw [hgenerated, horiginal, hsplit]
    exact ⟨Text.beginsAt_endPoint _ _ _, rfl, hbegins⟩

/-! ## Along the lines -/

/-- What is recorded comes from one of the lines. -/
theorem mem_records {α : Type} {f : Text → Line → α} {before : Text} {x : α} (h : x ∈ records f before ls) :
    ∃ u, ∃ l ∈ ls, x = f (before ++ u) l := by
  induction ls generalizing before with
  | nil => simp [records] at h
  | cons l ls ih =>
    rcases List.mem_cons.1 h with rfl | h
    · exact ⟨[], l, by simp, by simp⟩
    · obtain ⟨u, l', hl', rfl⟩ := ih h
      exact ⟨l.chunk.render ++ u, l', by simp [hl'], by simp⟩

/-- What does not depend on the code before can be read off the lines. -/
theorem map_records {α β : Type} {f : Text → Line → α} {g : α → β} {k : Line → β}
    (h : ∀ before, ∀ l ∈ ls, g (f before l) = k l) {before : Text} :
    (records f before ls).map g = ls.map k := by
  induction ls generalizing before with
  | nil => rfl
  | cons l ls ih =>
    rw [records, List.map_cons, List.map_cons, h _ l (by simp),
      ih fun before l' hl' => h before l' (by simp [hl'])]

/-- Lines written one after the other are mapped exactly. -/
theorem mapped_records (hlies : ∀ l ∈ ls, l.Lies e.source) (hfaithful : ∀ l ∈ ls, l.first.Faithful)
    (before rest : Text) :
    List.Forall₂ (Mapped e.source (before ++ (ls.flatMap fun l => l.chunk.render) ++ rest)) ls
      (records (mapping e) before ls) := by
  induction ls generalizing before with
  | nil => exact .nil
  | cons l ls ih =>
    obtain ⟨hl, hls⟩ := List.forall_mem_cons.1 hlies
    obtain ⟨hl', hls'⟩ := List.forall_mem_cons.1 hfaithful
    have hhead := mapped_mapping hl hl' before ((ls.flatMap fun l => l.chunk.render) ++ rest)
    have htail := ih hls hls' (before ++ l.chunk.render)
    simp only [List.flatMap_cons, List.append_assoc] at hhead htail ⊢
    exact .cons hhead htail

theorem closing_ne_nil (c : Chunk) : c.closing ≠ [] := by
  cases c <;> simp [Chunk.closing]

/-- **The points of the generated code grow from line to line.** -/
theorem generated_records (before : Text) (ls : List Line) :
    ((records (mapping e) before ls).map Mapping.generated).Pairwise (· < ·) := by
  induction ls generalizing before with
  | nil => exact .nil
  | cons l ls ih =>
    refine .cons (fun p hp => ?_) (ih _)
    obtain ⟨m, hm, rfl⟩ := List.mem_map.1 hp
    obtain ⟨u, l', -, rfl⟩ := mem_records hm
    -- the rest of this line, at least its end, comes before the next point
    have hmore : before ++ l.chunk.render ++ u ++ l'.chunk.lead = before ++ l.chunk.lead ++
        (l.chunk.opening ++ l.chunk.body ++ l.chunk.closing ++ u ++ l'.chunk.lead) := by
      rw [Chunk.render_eq]; simp only [List.append_assoc]
    show (before ++ l.chunk.lead).endPoint < (before ++ l.chunk.render ++ u ++ l'.chunk.lead).endPoint
    rw [hmore]
    exact Text.endPoint_lt_append _ (by simp [closing_ne_nil])

/-- **The points of the source do not go back**, if the lines were made from stretches
that come one after the other. -/
theorem original_records (hlies : ∀ l ∈ ls, l.Lies e.source)
    (hsorted : ls.Pairwise fun a b => a.start.offset ≤ b.start.offset) (before : Text) :
    ((records (mapping e) before ls).map Mapping.original).Pairwise (· ≤ ·) := by
  have hmap : (records (mapping e) before ls).map Mapping.original =
      ls.map fun l => Text.endPoint (e.source.take l.start.offset) :=
    map_records fun before l hl => original_mapping (hlies l hl) before
  rw [hmap, List.pairwise_map]
  exact hsorted.imp fun h => Text.endPoint_mono _ h

/-! ## The places of lines -/

variable {ps : List Placed} {ts : List Text}

/-- Lines lie in the source, if the places of their chunks are laid out over its parts. -/
theorem lies_ofPlaced (h : (ps.map Placed.place).Sublist (Location.tile {} ts)) :
    ∀ l ∈ ofPlaced ps, l.Lies ts.flatten := by
  intro l hl
  have hfirst : l.first ∈ ps := (firsts_ofPlaced ps).subset (List.mem_map_of_mem hl)
  exact Location.mem_tile (h.subset (List.mem_map_of_mem hfirst))

/-- The places of the first chunks of lines come one after the other. -/
theorem sorted_ofPlaced (h : (ps.map Placed.place).Sublist (Location.tile {} ts)) :
    (ofPlaced ps).Pairwise fun a b => a.first.place.stop.offset ≤ b.first.place.start.offset := by
  have hfirsts := ((firsts_ofPlaced ps).map Placed.place).trans h
  have hsorted := (Location.tile_pairwise {} ts).sublist hfirsts
  rwa [List.map_map, List.pairwise_map] at hsorted

theorem Lies.start_le_stop {source : Text} (h : l.Lies source) :
    l.first.place.start.offset ≤ l.first.place.stop.offset := by
  obtain ⟨u, v, w, -, hplace⟩ := h
  simp [hplace, Location.ofText, Position.offset_after]

end Line

/-! ## Whole templates -/

/-- What is known of a template that was read from a source: its nodes have their shapes,
and their pieces lie edge to edge over the source. -/
structure Template.Laid (tr : Char) (source : Text) (r : Template) : Prop where
  shaped : Node.ShapedAll tr r.nodes
  brace_notMem : .brace ∉ r.nodes.map Node.kind
  tile : ∃ ts, (Node.piecesAll r.nodes).map Piece.location = Location.tile {} ts ∧ ts.flatten = source

/-- **Every template is laid out over its source.** -/
theorem parse_laid {parsing : ParseOptions} (source : Text)
    (h : parsing.language ∈ Registry.standard.languages) :
    ∃ r, Template.parse parsing source = .ok r ∧ r.Laid parsing.transition source := by
  refine ⟨_, parse_eq_document source h, shaped_template parsing source, ?_, template_tile source⟩
  rw [List.map_cons, kind_document]
  simp [Node.marker, Node.kind]

namespace Template.Laid

variable {tr : Char} {source : Text} {r : Template}

theorem source_eq (h : r.Laid tr source) : r.source = source := by
  obtain ⟨ts, htile, hflat⟩ := h.tile
  calc r.source
    _ = (Node.piecesAll r.nodes).flatMap (·.location.text) := Node.sourceAll_eq_pieces _
    _ = ((Node.piecesAll r.nodes).map Piece.location).flatMap Location.text := by rw [List.flatMap_map]
    _ = ts.flatten := by rw [htile, Location.flatMap_text_tile]
    _ = source := hflat

/-- The chunks lie in order over the source. -/
theorem places (h : r.Laid tr source) : ∃ ts, ((Node.placedAll tr false none r.nodes).map Placed.place).Sublist
    (Location.tile {} ts) ∧ ts.flatten = source := by
  obtain ⟨ts, htile, hflat⟩ := h.tile
  exact ⟨ts, htile ▸ Node.places_placedAll tr r.nodes false none, hflat⟩

/-- Every line lies in the source, -/
theorem lies (h : r.Laid tr source) : ∀ l ∈ r.lines tr, l.Lies source := by
  obtain ⟨ts, hplaces, hflat⟩ := h.places
  rw [← hflat]
  exact Line.lies_ofPlaced hplaces

/-- one behind the other, -/
theorem sorted (h : r.Laid tr source) :
    (r.lines tr).Pairwise fun a b => a.first.place.stop.offset ≤ b.first.place.start.offset := by
  obtain ⟨ts, hplaces, -⟩ := h.places
  exact Line.sorted_ofPlaced hplaces

theorem starts_sorted (h : r.Laid tr source) :
    (r.lines tr).Pairwise fun a b => a.start.offset ≤ b.start.offset :=
  h.sorted.imp_of_mem fun ha _ hab => ((h.lies _ ha).start_le_stop).trans hab

/-- and says what stands there. -/
theorem faithful (h : r.Laid tr source) : ∀ l ∈ r.lines tr, l.first.Faithful := fun l hl =>
  Node.placedAll_faithful r.nodes false none h.shaped l.first
    ((Line.firsts_ofPlaced _).subset (List.mem_map_of_mem hl))

end Template.Laid

/-- **Source maps are exact.** The generated code is the lines of the template between
its first and its last line, and each line has one mapping. The points of the generated
code grow from mapping to mapping, those of the source do not go back, and each mapping
is exact for its line. -/
theorem compile_mappings (parsing : ParseOptions) (options : RenderOptions) (source : Text)
    (h : parsing.language ∈ Registry.standard.languages) :
    ∃ r c, Template.parse parsing source = .ok r ∧ compile parsing options source = .ok c ∧
      c.rendered.code = Chunk.head options.functionName ++
        ((r.lines parsing.transition).flatMap fun l => l.chunk.render) ++ ['}', '\n'] ∧
      (c.rendered.mappings.map Mapping.generated).Pairwise (· < ·) ∧
      (c.rendered.mappings.map Mapping.original).Pairwise (· ≤ ·) ∧
      List.Forall₂ (Line.Mapped source c.rendered.code) (r.lines parsing.transition)
        c.rendered.mappings := by
  obtain ⟨r, hparse, hr⟩ := parse_laid source h
  obtain ⟨hcode, hmappings, -⟩ := Template.output_writes options hr.shaped hr.brace_notMem
  have hsource : (r.emitter options).source = source := hr.source_eq
  have hlies : ∀ l ∈ r.lines parsing.transition, l.Lies (r.emitter options).source := hsource ▸ hr.lies
  refine ⟨r, r.compiled options, hparse, by rw [compile, hparse]; rfl, hcode, ?_, ?_, ?_⟩
  · show ((r.output options).mappings.map Mapping.generated).Pairwise (· < ·)
    rw [hmappings]
    exact Line.generated_records _ _
  · show ((r.output options).mappings.map Mapping.original).Pairwise (· ≤ ·)
    rw [hmappings]
    exact Line.original_records hlies (hr.starts_sorted) _
  · show List.Forall₂ (Line.Mapped source (r.output options).code) _ (r.output options).mappings
    have hmapped := Line.mapped_records hlies hr.faithful (Chunk.head options.functionName) ['}', '\n']
    rwa [← hcode, ← hmappings, hsource] at hmapped

theorem compile_mappings_astral :
    ({} : ParseOptions).language ∈ Registry.standard.languages ∧
      ∃ r c, Template.parse {} "😀\n<p>@x".toList = .ok r ∧ compile {} {} "😀\n<p>@x".toList = .ok c ∧
        c.rendered.code = Chunk.head "render" ++
          ((r.lines '@').flatMap fun l => l.chunk.render) ++ ['}', '\n'] ∧
        (c.rendered.mappings.map Mapping.generated).Pairwise (· < ·) ∧
        (c.rendered.mappings.map Mapping.original).Pairwise (· ≤ ·) ∧
        List.Forall₂ (Line.Mapped "😀\n<p>@x".toList c.rendered.code) (r.lines '@') c.rendered.mappings :=
  ⟨by decide, compile_mappings {} {} _ (by decide)⟩

end Stencil
