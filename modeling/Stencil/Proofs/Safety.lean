import Mathlib.Algebra.Order.BigOperators.Group.List
import Mathlib.Algebra.Order.Group.Nat
import Stencil.Proofs.CheckedRender
import Stencil.Proofs.Depth
import Stencil.Proofs.Spans

/-!
# No fault on the way

A template of fewer than `2 ^ 31` characters is read, rendered and shown to an editor
without a fault, whatever its text and whatever the options: no assertion fails, no index
is out of range, and no number leaves its word.

The tree has at most six nodes for each character of the source, so words are enough to
count with, and no level of nesting comes without a character (`Grammar.template_inWords`).
What is left to show is that the output is not too long either.

* `Template.Laid.length_output_le`: apart from the name of the function, the output is
  bounded by the nodes and the characters of the source.
* `Template.Laid.slight`: the numbers of its mappings are small.
* `parse_faultless`: **nothing that is done with a template faults** (`Template.Faultless`).

What only compares positions, such as the regions of languages, cannot fault and is not
written once more.
-/

namespace Stencil

/-! ## The size of the output -/

namespace Text

theorem width_le (c : Char) : width c ≤ 2 := by
  unfold width; split <;> omega

/-- A character takes two units at most. -/
theorem units_le (t : Text) : t.units ≤ 2 * t.length := by
  induction t with
  | nil => exact Nat.le_refl _
  | cons c t ih =>
    have := width_le c
    rw [units, List.length_cons]
    omega

/-- A character of two units has four bytes. -/
theorem width_le_utf8Size (c : Char) : width c ≤ c.utf8Size := by
  have hpos := c.utf8Size_pos
  unfold width
  split
  next => omega
  next h =>
    have hbig : ∀ n : UInt32, n.toNat ≤ 0xFFFF → ¬ c.val ≤ n := fun n hn hc => by
      rw [UInt32.le_iff_toNat_le] at hc
      exact h (Nat.lt_of_le_of_lt (hc.trans hn) (by decide))
    rw [Char.utf8Size, if_neg (hbig _ (by decide)), if_neg (hbig _ (by decide)), if_neg (hbig _ (by decide))]
    decide

theorem units_le_bytes (t : Text) : t.units ≤ t.bytes := by
  induction t with
  | nil => exact Nat.le_refl _
  | cons c t ih =>
    have := width_le_utf8Size c
    rw [units, bytes]
    omega

/-- A quoted character takes six at most. -/
theorem length_quoted_le (t : Text) : t.quoted.length ≤ 6 * t.length + 2 := by
  have hinner := escapes_quotedChar.length_flatMap_le t
  rw [quoted, List.length_cons, List.length_append, List.length_singleton]
  omega

end Text

namespace Chunk

/-- What the lines for chunks may take: thirty-two units for each, and twelve for each
character in it. -/
def allowance (cs : List Chunk) : ℕ :=
  (cs.map fun c => 32 + 12 * c.content.length).sum

theorem render_ne_nil (c : Chunk) : c.render ≠ [] := by
  cases c <;> simp [render]

theorem allowance_cons (c : Chunk) (cs : List Chunk) :
    allowance (c :: cs) = 32 + 12 * c.content.length + allowance cs := by
  rw [allowance, List.map_cons, List.sum_cons]; rfl

theorem allowance_append (cs ds : List Chunk) : allowance (cs ++ ds) = allowance cs + allowance ds := by
  rw [allowance, List.map_append, List.sum_append]; rfl

/-- A chunk is rendered within its allowance. -/
theorem units_render_le (c : Chunk) : c.render.units ≤ 32 + 12 * c.content.length := by
  cases c with
  | lit t =>
    have hquoted := t.quoted.units_le
    have := t.length_quoted_le
    have hlead : Text.units ("  ".toList ++ "__writer.writeLiteral(".toList) = 24 := by decide
    have hend : Text.units ");\n".toList = 3 := by decide
    rw [render, Text.units_append, Text.units_append, content]
    omega
  | write code =>
    have := code.units_le
    have hlead : Text.units ("  ".toList ++ "__writer.write(".toList) = 17 := by decide
    have hend : Text.units ");\n".toList = 3 := by decide
    rw [render, Text.units_append, Text.units_append, content]
    omega
  | stmt code =>
    have := code.units_le
    have hlead : Text.units "  ".toList = 2 := by decide
    have hend : Text.units "\n".toList = 1 := by decide
    rw [render, Text.units_append, Text.units_append, content]
    omega

/-- Texts that are joined take one line less. -/
theorem allowance_merge_le (cs : List Chunk) : allowance (merge cs) ≤ allowance cs := by
  fun_induction merge cs with
  | case1 => exact Nat.le_refl _
  | case2 a cs b more hmerge ih =>
    rw [hmerge, allowance_cons] at ih
    simp only [allowance_cons, content, List.length_append] at ih ⊢
    omega
  | case3 a cs hmerge ih =>
    rw [allowance_cons, allowance_cons]
    omega
  | case4 c cs hc ih =>
    rw [allowance_cons, allowance_cons]
    omega

theorem units_flatten_render_le (cs : List Chunk) : Text.units (cs.map render).flatten ≤ allowance cs := by
  induction cs with
  | nil => exact Nat.le_refl _
  | cons c cs ih =>
    have := units_render_le c
    rw [List.map_cons, List.flatten_cons, Text.units_append, allowance_cons]
    omega

theorem units_renderAll_le (cs : List Chunk) : (renderAll cs).units ≤ allowance cs :=
  calc (renderAll cs).units
    _ ≤ allowance (merge (cs.filter isKept)) := units_flatten_render_le _
    _ ≤ allowance (cs.filter isKept) := allowance_merge_le _
    _ ≤ allowance cs := (List.filter_sublist.map _).sum_le_sum fun _ _ => Nat.zero_le _

/-- The rest of the function is as long as its name, and forty-six units. -/
theorem units_function (name : String) (cs : List Chunk) :
    (function name cs).units = Text.units name.toList + 46 + (renderAll cs).units := by
  show Text.units (("export default function " ++ name ++ "(model, __writer) \x7b").toList ++ ['\n'] ++
    renderAll cs ++ ['}', '\n']) = _
  have hbefore : Text.units "export default function ".toList = 24 := by decide
  have hafter : Text.units "(model, __writer) \x7b".toList = 19 := by decide
  have hend : Text.units ['\n'] = 1 := by decide
  have hlast : Text.units ['}', '\n'] = 2 := by decide
  simp only [String.toList_append, Text.units_append]
  omega

end Chunk

namespace Node

theorem allowance_lead (t : Trivia) : Chunk.allowance (blankChunks t.lead) ≤ 32 + 12 * t.leadText.length := by
  unfold Trivia.leadText
  cases t.lead with
  | none => exact Nat.zero_le _
  | some l => exact Nat.le_refl _

theorem allowance_trail (t : Trivia) : Chunk.allowance (blankChunks t.trail) ≤ 32 + 12 * t.trailText.length := by
  unfold Trivia.trailText
  cases t.trail with
  | none => exact Nat.zero_le _
  | some l => exact Nat.le_refl _

theorem length_value_le {tr : Char} {k : Kind} {l : Location} {c : Leaf} (h : LeafShaped tr k l c)
    (hk : k ≠ .escapedTransition) : c.value.length ≤ l.text.length := by
  cases c with
  | token v =>
    rw [LeafShaped, if_neg hk] at h
    exact Nat.le_of_eq (congrArg List.length h.1)
  | missing | marker => exact Nat.zero_le _

/-- A leaf is written as it stands, or as one character. -/
theorem allowance_leafChunks {tr : Char} {k : Kind} {l : Location} {c : Leaf} (h : LeafShaped tr k l c)
    (inElement : Bool) (parent : Option Kind) :
    Chunk.allowance (leafChunks tr inElement parent k c l) ≤ 44 + 12 * l.text.length := by
  -- a leaf makes one chunk at most, which is at most one character longer than its text
  have hone : ∀ x : Chunk, x.content.length ≤ l.text.length + 1 →
      Chunk.allowance [x] ≤ 44 + 12 * l.text.length := by
    intro x hx
    rw [Chunk.allowance_cons]
    show 32 + 12 * x.content.length + 0 ≤ _
    omega
  cases k with
  | transition | endOfFile => exact Nat.zero_le _
  | escapedTransition => exact hone _ (Nat.succ_le_succ (Nat.zero_le _))
  | brace =>
    have hvalue := length_value_le h (by decide)
    unfold leafChunks
    dsimp only
    split
    · refine hone _ ?_
      rw [Chunk.content]
      split
      · exact Nat.succ_le_succ (Nat.zero_le _)
      · omega
    · exact Nat.zero_le _
  | codeValue =>
    have hvalue := length_value_le h (by decide)
    unfold leafChunks
    dsimp only
    split
    · exact hone _ (by rw [Chunk.content]; omega)
    · exact hone _ (by rw [Chunk.content]; omega)
  | _ => exact hone _ (Nat.le_succ _)

mutual

/-- **The chunks of a node are paid for by its nodes and characters.** -/
theorem allowance_chunks {tr : Char} : ∀ (n : Node) (inElement : Bool) (parent : Option Kind), n.Shaped tr →
    Chunk.allowance (chunks tr inElement parent n) ≤ 108 * n.descendants.length + 12 * n.source.length
  | leaf k c l t, inElement, parent, h => by
    have hlead := allowance_lead t
    have hleaf := allowance_leafChunks h.1 inElement parent
    have htrail := allowance_trail t
    rw [chunks, Chunk.allowance_append, Chunk.allowance_append, descendants, List.length_singleton, source,
      List.length_append, List.length_append]
    omega
  | branch k cs t, inElement, parent, h => by
    have hlead := allowance_lead t
    have hcs := allowance_chunksAll cs (k.putsInElement inElement) (some k) h.2.2.2
    have htrail := allowance_trail t
    rw [chunks, Chunk.allowance_append, Chunk.allowance_append, descendants, List.length_cons, source,
      List.length_append, List.length_append]
    omega

/-- **The chunks of trees are paid for by their nodes and their text.** -/
theorem allowance_chunksAll {tr : Char} : ∀ (ns : List Node) (inElement : Bool) (parent : Option Kind),
    ShapedAll tr ns → Chunk.allowance (chunksAll tr inElement parent ns) ≤
      108 * (descendantsAll ns).length + 12 * (sourceAll ns).length
  | [], _, _, _ => Nat.zero_le _
  | n :: ns, inElement, parent, h => by
    have hn := allowance_chunks n inElement parent h.1
    have hns := allowance_chunksAll ns inElement parent h.2
    rw [chunksAll, Chunk.allowance_append, descendantsAll, sourceAll, List.length_append, List.length_append]
    omega

end

end Node

/-! ## The numbers of mappings -/

namespace Line

/-- Within a line the column grows by the units that are written. -/
theorem col_foldl_next_le (p : Point) (t : Text) : (t.foldl Point.next p).col ≤ p.col + t.units := by
  induction t generalizing p with
  | nil => exact Nat.le_refl _
  | cons c t ih =>
    have hnext : (p.next c).col ≤ p.col + Text.width c := by
      unfold Point.next; split <;> dsimp only <;> omega
    rw [List.foldl_cons, Text.units]
    exact (ih (p.next c)).trans (by omega)

theorem col_append_lead (before : Text) (c : Chunk) :
    (Text.endPoint (before ++ c.lead)).col ≤ before.endPoint.col + 17 := by
  have hlead : c.lead.units ≤ 17 := by
    cases c with
    | write code => exact Nat.le_refl _
    | lit t | stmt code => exact Nat.le_add_right 2 15
  rw [← Text.foldl_next]
  exact (col_foldl_next_le _ _).trans (by omega)

/-- A line ends with a line feed. -/
theorem col_append_render (before : Text) (c : Chunk) : (Text.endPoint (before ++ c.render)).col = 0 := by
  obtain ⟨u, hu⟩ : ∃ u, c.render = u ++ ['\n'] := by
    cases c with
    | lit t => exact ⟨_, (List.append_assoc _ ");".toList ['\n']).symm⟩
    | write code => exact ⟨_, (List.append_assoc _ ");".toList ['\n']).symm⟩
    | stmt code => exact ⟨_, rfl⟩
  rw [hu, ← List.append_assoc, Text.endPoint_concat]
  rfl

/-- **Lines are mapped close to their starts**, and their number is that of the line feeds
before them. -/
theorem generated_le {e : Emitter} {ls : List Line} {before : Text} (hbefore : before.endPoint.col = 0) :
    ∀ m ∈ records (mapping e) before ls, m.genCol ≤ 17 ∧
      m.genLine ≤ Text.units (before ++ ls.flatMap fun l => l.chunk.render) := by
  induction ls generalizing before with
  | nil => intro m hm; cases hm
  | cons l ls ih =>
    rw [records, List.flatMap_cons, ← List.append_assoc]
    rintro m (_ | ⟨_, hm⟩)
    · refine ⟨(col_append_lead before l.chunk).trans (by omega), ?_⟩
      have hcount : (before ++ l.chunk.lead).count '\n' ≤ Text.units (before ++ l.chunk.lead) :=
        List.count_le_length.trans (Text.length_le_units _)
      show (before ++ l.chunk.lead).count '\n' ≤ _
      rw [Chunk.render_eq]
      simp only [Text.units_append] at hcount ⊢
      omega
    · exact ih (col_append_render before l.chunk) m hm

theorem length_records {α : Type} (f : Text → Line → α) (before : Text) (ls : List Line) :
    (records f before ls).length = ls.length := by
  induction ls generalizing before with
  | nil => rfl
  | cons l ls ih => rw [records, List.length_cons, List.length_cons, ih]

/-- Each line takes a unit at least. -/
theorem length_le_units_render (ls : List Line) :
    ls.length ≤ Text.units (ls.flatMap fun l => l.chunk.render) := by
  induction ls with
  | nil => exact Nat.le_refl _
  | cons l ls ih =>
    have hline := List.length_pos_of_ne_nil l.chunk.render_ne_nil
    have hunits := Text.length_le_units l.chunk.render
    rw [List.flatMap_cons, Text.units_append, List.length_cons]
    omega

end Line

namespace SourceMap

/-- Mappings of one file add no further file. -/
theorem entries_addAll_same {m : SourceMap} {file : String} (h : m.sources = [file]) (ms : List Mapping) :
    (m.addAll file ms).entries = m.entries ++ ms.map (MapEntry.mk 0) := by
  induction ms generalizing m with
  | nil => simp [addAll]
  | cons x ms ih =>
    have hadd : m.add file x = ⟨[file], m.entries ++ [⟨0, x⟩]⟩ := by
      simp [add, h, List.idxOf?_cons]
    show ((m.add file x).addAll file ms).entries = _
    rw [ih (by rw [hadd]), hadd]
    simp

/-- A map that is made for one file has no other index. -/
theorem entries_addAll (file : String) (ms : List Mapping) :
    (({} : SourceMap).addAll file ms).entries = ms.map (MapEntry.mk 0) := by
  cases ms with
  | nil => rfl
  | cons x ms =>
    show ((SourceMap.mk [file] [⟨0, x⟩]).addAll file ms).entries = _
    rw [entries_addAll_same rfl]; rfl

end SourceMap

namespace Template.Laid

variable {tr : Char} {source : Text} {r : Template}

theorem units_source (h : r.Laid tr source) : r.source.units ≤ 2 * source.length :=
  h.source_eq ▸ Text.units_le source

/-- **The output is not much longer than the source and the name of the function.** -/
theorem length_output_le (h : r.Laid tr source) (hsource : source.length < 2 ^ 31) (options : RenderOptions) :
    (r.output options).length ≤ Text.bytes options.functionName.toList + 46 +
      108 * (Node.descendantsAll r.nodes).length + 12 * source.length := by
  have hunits := h.units_source
  have hname := Text.units_le_bytes options.functionName.toList
  have hlines := Chunk.units_renderAll_le (Node.chunksAll tr false none r.nodes)
  have hchunks := Node.allowance_chunksAll r.nodes false none h.shaped
  have htext : Node.sourceAll r.nodes = source := h.source_eq
  rw [htext] at hchunks
  rw [(Template.tracked_output options (by omega)).length, Template.code_output options h.shaped h.brace_notMem,
    Chunk.units_function]
  omega

/-- **The numbers of the mappings are small.** -/
theorem slight (h : r.Laid tr source) (hsource : source.length < 2 ^ 31) (options : RenderOptions)
    (hlen : (r.output options).length < 2 ^ 64) :
    ∀ x ∈ (({} : SourceMap).addAll options.filePath (r.output options).mappings).entries, SourceMap.Slight x := by
  intro x hx
  rw [SourceMap.entries_addAll, List.mem_map] at hx
  obtain ⟨m, hm, rfl⟩ := hx
  obtain ⟨hcode, hmappings, -⟩ := Template.output_writes options h.shaped h.brace_notMem
  rw [hmappings] at hm
  have hunits := h.units_source
  -- the generated side
  have hhead : (Chunk.head options.functionName).endPoint.col = 0 := by
    rw [Chunk.head, Text.endPoint_concat]; rfl
  obtain ⟨hcol, hline⟩ := Line.generated_le hhead m hm
  have hlength := (Template.tracked_output options (show r.source.units < 2 ^ 64 by omega)).length
  rw [hcode, Text.units_append] at hlength
  -- the source side
  obtain ⟨u, l, hl, rfl⟩ := Line.mem_records hm
  have hstretch : l.first.place.Stretch source := h.lies l hl
  have hstart := hstretch.within.1
  unfold Position.Within at hstart
  have hcolumn := (r.emitter options).unitColumn_le l.start
  refine ⟨?_, ?_, ?_, ?_, ?_⟩
  · exact Nat.lt_of_le_of_lt hline (by omega)
  · exact Nat.lt_of_le_of_lt hcol (by decide)
  · show 0 < 2 ^ 62
    decide
  · show l.first.place.start.line < 2 ^ 62
    omega
  · refine Nat.lt_of_le_of_lt hcolumn ?_
    show r.source.units < 2 ^ 62
    omega

/-- There are no more ranges than units in the output. -/
theorem length_ranges_le (h : r.Laid tr source) (hsource : source.length < 2 ^ 31) (options : RenderOptions) :
    (r.output options).ranges.length ≤ (r.output options).length := by
  obtain ⟨hcode, -, hranges⟩ := Template.output_writes options h.shaped h.brace_notMem
  have hunits := h.units_source
  have hlength := (Template.tracked_output options (show r.source.units < 2 ^ 64 by omega)).length
  have hlines := Line.length_le_units_render (r.lines tr)
  rw [hcode, Text.units_append, Text.units_append] at hlength
  rw [hranges]
  split
  · rw [Line.length_records]
    omega
  · exact Nat.zero_le _

end Template.Laid

/-! ## No fault -/

/-- A location can be cut from the source and measured in words. -/
structure Location.Faultless (source : Text) (l : Location) : Prop where
  slice : Location.slice? source l.start l.stop = some l
  length : l.length? = some l.length
  start : l.start.Within source.length
  stop : l.stop.Within source.length
  lines : ∀ s ∈ l.lines, s.length? = some s.length ∧
    s.line ≤ source.length ∧ s.endCol ≤ source.length ∧ s.endByte ≤ 4 * source.length

theorem Location.Stretch.faultless {source : Text} {l : Location} (h : l.Stretch source) : l.Faultless source :=
  ⟨h.slice?_eq, h.length?_eq, h.within.1, h.within.2, h.lines_within⟩

/-- **A leaf and the blanks behind it were cut from one stretch**: their texts follow each other. -/
theorem Piece.StandIn.whole {source : Text} {k : Kind} {c : Leaf} {l b : Location}
    (h : Piece.StandIn source [.leaf k c l, .blank b]) :
    ∃ whole : Location, whole.Stretch source ∧ whole.splitAt l.text.length = (l, b) := by
  obtain ⟨u, v, w, rfl, ts, hts, rfl⟩ := h
  rcases ts with _ | ⟨x, _ | ⟨y, _ | ⟨z, ts⟩⟩⟩
  · simp at hts
  · simp at hts
  · simp only [List.map_cons, List.map_nil, Location.tile_cons, Location.tile_nil, List.cons.injEq, and_true,
      Piece.location_leaf, Piece.location_blank] at hts
    obtain ⟨rfl, rfl⟩ := hts
    refine ⟨.ofText (({} : Position).after u) (x ++ y), ⟨u, x ++ y, w, by simp, rfl⟩, ?_⟩
    rw [Parse.splitAt_ofText, Location.text_ofText, List.take_left, List.drop_left]
  · simp at hts

/-- All locations of a template: those of its pieces and those of its diagnostics. -/
def Template.locations (r : Template) : List Location :=
  (Node.piecesAll r.nodes).map Piece.location ++ r.diagnostics.filterMap Diagnostic.location

/-- Nothing that is done to read, to render or to show a template faults. -/
structure Template.Faultless (parsing : ParseOptions) (source : Text) (options : RenderOptions) (r : Template) :
    Prop where
  /-- The depth of nesting is counted in a word: whatever a fault did, the template is read so. -/
  nesting : ∀ fault, ((Grammar.inWords fault).run parsing source).template = r
  /-- Each location is that of a stretch of the source. -/
  located : ∀ l ∈ r.locations, l.Stretch source
  /-- Such a location can be built, and so can its two parts. -/
  stretches : ∀ l : Location, l.Stretch source → l.Faultless source ∧
    ∀ n, (l.splitAt n).1.Faultless source ∧ (l.splitAt n).2.Faultless source
  /-- Text with blanks behind it was read as one location, before it was cut in two. -/
  wholes : ∀ n ∈ Node.descendantsAll r.nodes, ∀ l ∈ n.location?, ∀ b ∈ n.trivia.trail,
    ∃ whole : Location, whole.Stretch source ∧ whole.splitAt l.text.length = (l, b)
  /-- What is taken for blanks is blank. -/
  blanks : ∀ p ∈ Node.piecesAll r.nodes, p.isBlank = true → p.location.text.allBlank = true
  /-- Wherever a flat body starts, its open braces are counted without a fault. -/
  bodies : ∀ t, t <:+ source → Code.flatBody? 0 t = some (Code.flatBody 0 t)
  /-- Wherever a group starts, its open brackets are counted without a fault. -/
  groups : ∀ opening closing t, Code.closing? opening = some closing → opening :: t <:+ source →
    Code.group? opening closing 0 (opening :: t) = some (.after 1 (Code.groupRest opening closing 0 t))
  /-- The column of any position is a difference of words. -/
  columns : ∀ p, (r.emitter options).unitColumn? p = some ((r.emitter options).unitColumn p)
  /-- The render function is written to its end, where every scope has been left. -/
  output : r.output? options = some (r.output options)
  /-- The parts to be put around verbatim code are cut out of the output. -/
  injections : Injection.all? (r.output options).code (r.output options).ranges =
    some (Injection.all (r.output options).code (r.output options).ranges)
  /-- The mappings are recorded, and their numbers are written. -/
  mappings : (({} : SourceMap).addAll? options.filePath (r.output options).mappings).bind SourceMap.encode? =
    some (({} : SourceMap).addAll options.filePath (r.output options).mappings).encode
  /-- The tokens are collected, and at the end no attribute value stands open. -/
  tokens : SemanticToken.collect? r.nodes = some ⟨0, SemanticToken.ofNodes false r.nodes⟩
  /-- The tokens have a relative form. -/
  relative : SemanticToken.encode? (SemanticToken.ofNodes false r.nodes) =
    some (SemanticToken.encode (SemanticToken.ofNodes false r.nodes))
  /-- The room for it is a word. -/
  room : SemanticToken.room? (SemanticToken.ofNodes false r.nodes) =
    some (SemanticToken.encode (SemanticToken.ofNodes false r.nodes)).length

/-- A template in a language without a grammar is not read at all. -/
theorem parse_eq_noGrammar {options : ParseOptions} (t : Text)
    (h : options.language ∉ Registry.standard.languages) :
    Template.parse options t = .error (.noGrammar options.language) := by
  have hget : Registry.standard.get? options.language = none := by
    rw [Registry.get?, List.find?_eq_none]
    intro g hg hlang
    rw [beq_iff_eq] at hlang
    exact h (hlang ▸ List.mem_map_of_mem hg)
  rw [Template.parse, Registry.parse, Registry.run, hget]
  rfl

/-- What is known of the tree is enough for all that is done with it. -/
theorem Template.Laid.faultless {tr : Char} {parsing : ParseOptions} {source : Text} {r : Template}
    {options : RenderOptions} (h : r.Laid tr source) (hsource : source.length < 2 ^ 31)
    (hname : Text.bytes options.functionName.toList < 2 ^ 63)
    (hnodes : (Node.descendantsAll r.nodes).length ≤ 6 * source.length + 2)
    (hpieces : ∀ p ∈ Node.piecesAll r.nodes, p.Sound source)
    (hdiagnostics : ∀ x ∈ r.diagnostics, ∃ l, x.location = some l ∧ l.Stretch source)
    (hrun : (Grammar.template.run parsing source).template = r) : r.Faultless parsing source options := by
  -- all bounds come from the length of the source: it bounds the nodes, the output and the tokens
  have hunits := h.units_source
  have hlength := h.length_output_le hsource options
  have hsuffix : ∀ t : Text, t <:+ source → t.length ≤ source.length := fun t ht => ht.length_le
  have hready : (r.emitter options).Ready := ready_emitter options (by omega)
  have hencode := SourceMap.encode?_eq (h.slight hsource options (by omega))
  constructor
  case nesting => exact fun fault => (Grammar.template_inWords (by omega) fault).trans hrun
  case located =>
    refine List.forall_mem_append.2 ⟨fun l hl => ?_, fun l hl => ?_⟩
    · obtain ⟨p, hp, rfl⟩ := List.mem_map.1 hl
      exact (hpieces p hp).stretch
    · obtain ⟨x, hx, hloc⟩ := List.mem_filterMap.1 hl
      obtain ⟨l', hl', hstretch⟩ := hdiagnostics x hx
      rw [hl'] at hloc
      exact Option.some.inj hloc ▸ hstretch
  case stretches =>
    exact fun l hl => ⟨hl.faultless, fun n => ⟨(hl.splitAt n).1.faultless, (hl.splitAt n).2.faultless⟩⟩
  case wholes =>
    intro n hn l hl b hb
    have hstand := Node.standIn_of_pave h.tile hn
    cases n with
    | branch => cases hl
    | leaf k c l' t =>
      obtain rfl : l' = l := Option.some.inj hl
      rw [Node.pieces, show t.trail = some b from hb, List.append_assoc] at hstand
      rw [← List.append_nil (_ ++ _)] at hstand
      exact hstand.middle.whole
  case blanks => exact fun p hp => (hpieces p hp).blank
  case bodies =>
    intro t ht
    have := hsuffix t ht
    exact Code.flatBody?_eq (by omega)
  case groups =>
    intro opening closing t hclosing ht
    have := hsuffix _ ht
    rw [List.length_cons] at this
    exact Code.group?_eq hclosing (by omega)
  case columns => exact Emitter.unitColumn?_eq hready.source
  case output => exact output?_eq options hready.source (by omega)
  case injections =>
    have hranges := h.length_ranges_le hsource options
    exact Injection.all?_eq (by omega)
  case mappings => rw [SourceMap.addAll?_eq]; exact hencode
  case tokens => exact SemanticToken.collect?_eq (by omega)
  case relative => exact SemanticToken.encode?_eq _
  case room =>
    have htokens := SemanticToken.length_ofNodes_le false r.nodes
    have htext : Node.sourceAll r.nodes = source := h.source_eq
    rw [htext] at htokens
    exact SemanticToken.room?_eq (by omega)

/-- **Nothing that is done with a template faults**, if it has fewer than `2 ^ 31`
characters. A string in memory has fewer than `2 ^ 63` bytes, and so has the name of the
function. -/
theorem parse_faultless (parsing : ParseOptions) (options : RenderOptions) (source : Text)
    (hsource : source.length < 2 ^ 31) (hname : Text.bytes options.functionName.toList < 2 ^ 63) :
    (parsing.language ∉ Registry.standard.languages ∧
        Template.parse parsing source = .error (.noGrammar parsing.language)) ∨
      ∃ r, Template.parse parsing source = .ok r ∧ r.Faultless parsing source options := by
  by_cases hlanguage : parsing.language ∈ Registry.standard.languages
  · have hparse := parse_eq_document source hlanguage
    obtain ⟨r, hr, hlaid⟩ := parse_laid source hlanguage
    obtain rfl := Except.ok.inj (hr.symm.trans hparse)
    exact Or.inr ⟨_, hparse, hlaid.faultless hsource hname
      (Template.length_descendantsAll_le parsing source) (Template.sound_piecesAll parsing source)
      (Template.stretch_diagnostics parsing source) (Grammar.template_run parsing source)⟩
  · exact Or.inl ⟨hlanguage, parse_eq_noGrammar source hlanguage⟩

/-- Braces, an attribute value with code, a character of two units, and no end to any of
them. -/
theorem parse_faultless_unclosed :
    ("@\x7b\x7b<p a=\"😀@f(\"\n".toList.length < 2 ^ 31 ∧ Text.bytes "render".toList < 2 ^ 63) ∧
      ((({} : ParseOptions).language ∉ Registry.standard.languages ∧
          Template.parse {} "@\x7b\x7b<p a=\"😀@f(\"\n".toList = .error (.noGrammar "kiln")) ∨
        ∃ r, Template.parse {} "@\x7b\x7b<p a=\"😀@f(\"\n".toList = .ok r ∧
          r.Faultless {} "@\x7b\x7b<p a=\"😀@f(\"\n".toList { includeRanges := true }) :=
  ⟨⟨by decide, by decide⟩, parse_faultless {} { includeRanges := true } _ (by decide) (by decide)⟩

end Stencil
