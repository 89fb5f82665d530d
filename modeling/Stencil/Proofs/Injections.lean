import Stencil.Proofs.SourceMaps

/-!
# Injections

An injection is a stretch of the source with generated code around it. Put together, the
injections of a template give back the generated file (`Injection.rebuild`).

* `Line.copies_of_verbatim`: the range of a verbatim line holds a stretch of the source,
  and this is what the line says.
* `Line.rebuild_records`: **the injections of the verbatim ranges of some lines give back
  the code of all of them.** The induction is on the lines, over what has been given back
  and what has been written since.
* `compile_injections`: the injections of a template are code, do not overlap, and give
  back the generated file.
-/

namespace Stencil

namespace Text

theorem unitOffset_mono (t : Text) {m n : ℕ} (h : m ≤ n) : t.unitOffset m ≤ t.unitOffset n := by
  obtain ⟨k, rfl⟩ := Nat.exists_eq_add_of_le h
  rw [unitOffset_eq, unitOffset_eq, List.take_add, units_append]
  exact Nat.le_add_right _ _

theorem slice_between {t a b c : Text} (h : t = a ++ b ++ c) : t.slice (units a) (units (a ++ b)) = b := by
  rw [h, slice_append]

end Text

namespace Injection

/-- The file that an editor puts together from injections. -/
def rebuild (source : Text) (is : List Injection) : Text :=
  is.flatMap fun i => i.before ++ source.slice i.start i.stop ++ i.after

/-- What an injection takes over from its range. -/
theorem map_ofRanges (code : Text) (previous : ℕ) (rs : List CodeRange) :
    (ofRanges code previous rs).map (fun i => (i.kind, i.start, i.stop)) =
      rs.map fun r => (r.kind, r.sourceStart, r.sourceStop) := by
  induction rs generalizing previous with
  | nil => rfl
  | cons r rs ih => simp [ofRanges, ih]

theorem mem_ofRanges {code : Text} {previous : ℕ} {rs : List CodeRange} {i : Injection}
    (h : i ∈ ofRanges code previous rs) :
    ∃ r ∈ rs, r.kind = i.kind ∧ r.sourceStart = i.start ∧ r.sourceStop = i.stop := by
  have hmem := List.mem_map_of_mem (f := fun i => (i.kind, i.start, i.stop)) h
  rw [map_ofRanges] at hmem
  obtain ⟨r, hr, heq⟩ := List.mem_map.1 hmem
  simp only [Prod.mk.injEq] at heq
  exact ⟨r, hr, heq⟩

/-- Injections come one after the other if their ranges do. -/
theorem pairwise_ofRanges {rs : List CodeRange} (h : rs.Pairwise fun a b => a.sourceStop ≤ b.sourceStart)
    (code : Text) (previous : ℕ) : (ofRanges code previous rs).Pairwise fun a b => a.stop ≤ b.start := by
  have hmap : (rs.map fun r => (r.kind, r.sourceStart, r.sourceStop)).Pairwise
      fun a b => a.2.2 ≤ b.2.1 := List.pairwise_map.2 h
  rw [← map_ofRanges code previous] at hmap
  exact List.pairwise_map.1 hmap

/-- What stands around the stretches is part of the file put together. -/
theorem infix_rebuild {is : List Injection} {i : Injection} (h : i ∈ is) (source : Text) :
    i.before <:+: rebuild source is ∧ i.after <:+: rebuild source is := by
  obtain ⟨xs, ys, rfl⟩ := List.append_of_mem h
  have hsplit : rebuild source (xs ++ i :: ys) = rebuild source xs ++ i.before ++
      source.slice i.start i.stop ++ i.after ++ rebuild source ys := by
    simp [rebuild]
  rw [hsplit]
  refine ⟨⟨rebuild source xs, source.slice i.start i.stop ++ i.after ++ rebuild source ys, ?_⟩,
    ⟨rebuild source xs ++ i.before ++ source.slice i.start i.stop, rebuild source ys, rfl⟩⟩
  simp only [List.append_assoc]

/-- Where all verbatim ranges are code and in the order of the source, the injections are
theirs. -/
theorem all_eq_ofRanges {code : Text} {ranges : List CodeRange}
    (hkind : ∀ r ∈ ranges, r.verbatim = true → r.kind = .javascript)
    (hsorted : (ranges.filter (·.verbatim)).Pairwise fun a b => a.sourceStart ≤ b.sourceStart) :
    all code ranges = ofRanges code 0 (ranges.filter (·.verbatim)) := by
  have hcode : ranges.filter (fun r => r.kind == .javascript && r.verbatim) =
      ranges.filter (·.verbatim) := by
    refine List.filter_congr fun r hr => ?_
    cases hv : r.verbatim with
    | false => simp
    | true => simp [hkind r hr hv]
  have htext : ranges.filter (fun r => r.kind == .html && r.verbatim) = [] := by
    refine List.filter_eq_nil_iff.2 fun r hr => ?_
    cases hv : r.verbatim with
    | false => simp
    | true => simp [hkind r hr hv]
  have hself : verbatimRanges .javascript ranges = ranges.filter (·.verbatim) := by
    rw [verbatimRanges, hcode]
    exact List.mergeSort_of_pairwise (hsorted.imp fun h => by simpa using h)
  have hnone : verbatimRanges .html ranges = [] := by
    rw [verbatimRanges, htext, List.mergeSort_nil]
  rw [all, hself, hnone, ofRanges, List.append_nil]

section

variable {source code done lead body tail : Text} {r : CodeRange} {more : List CodeRange}
  (hcode : code = done ++ lead ++ body ++ tail) (hstart : r.compiledStart = (done ++ lead).units)
  (hstop : r.compiledStop = (done ++ lead ++ body).units)
  (hcopy : source.slice r.sourceStart r.sourceStop = body)

include hcode hstart hstop hcopy

/-- The last injection takes all the rest of the code. -/
theorem rebuild_last : done ++ rebuild source (ofRanges code done.units [r]) = code := by
  have hbefore : code.slice done.units r.compiledStart = lead := by
    rw [hstart]
    exact Text.slice_between (by rw [hcode, List.append_assoc (done ++ lead)])
  have hafter : code.slice r.compiledStop code.units = tail := by
    rw [hstop, hcode]
    exact Text.slice_between (by rw [List.append_nil])
  rw [ofRanges, rebuild, List.flatMap_cons, hbefore, hcopy, List.isEmpty_nil, if_pos rfl, hafter, hcode]
  simp [ofRanges]

/-- An injection that is not the last leaves the rest of the code to those after it. -/
theorem rebuild_cons (hmore : more ≠ [])
    (hrest : done ++ lead ++ body ++ rebuild source (ofRanges code (done ++ lead ++ body).units more) = code) :
    done ++ rebuild source (ofRanges code done.units (r :: more)) = code := by
  have hbefore : code.slice done.units r.compiledStart = lead := by
    rw [hstart]
    exact Text.slice_between (by rw [hcode, List.append_assoc (done ++ lead)])
  have hafter : ¬ more.isEmpty = true := by simpa using hmore
  rw [← hstop, rebuild] at hrest
  rw [ofRanges, rebuild, List.flatMap_cons, hbefore, hcopy, if_neg hafter, List.append_nil,
    ← List.append_assoc, ← List.append_assoc]
  exact hrest

end

end Injection

/-! ## Verbatim lines -/

namespace Line

variable {e : Emitter} {l : Line} {ls : List Line} {ps : List Placed}

theorem more_glue {p : Placed} (hp : p.chunk.isText = true)
    (h : ∀ l ∈ ls, l.first.chunk.isText = false → l.more = []) :
    ∀ l ∈ glue p ls, l.first.chunk.isText = false → l.more = [] := by
  cases ls with
  | nil => simp [glue]
  | cons m ls =>
    obtain ⟨hm, hls⟩ := List.forall_mem_cons.1 h
    rw [glue]
    split
    · exact List.forall_mem_cons.2 ⟨fun hcode => by simp [hp] at hcode, hls⟩
    · exact List.forall_mem_cons.2 ⟨fun _ => rfl, h⟩

/-- A line of code is made from one chunk. -/
theorem more_join (ps : List Placed) : ∀ l ∈ join ps, l.first.chunk.isText = false → l.more = [] := by
  induction ps with
  | nil => simp [join]
  | cons p ps ih =>
    rw [join]
    split
    · exact more_glue ‹_› ih
    · exact List.forall_mem_cons.2 ⟨fun _ => rfl, ih⟩

/-- The range of the line in the source is not empty, and the line says what stands there. -/
structure Copies (e : Emitter) (l : Line) : Prop where
  lt : e.unitOffset l.start < e.unitOffset l.stop
  slice : e.source.slice (e.unitOffset l.start) (e.unitOffset l.stop) = l.chunk.body
  body_infix : l.chunk.body <:+: e.source

theorem isText_of_verbatim (h : l.verbatim = true) : l.first.chunk.isText = false := by
  rw [verbatim, Bool.and_eq_true, Bool.not_eq_true'] at h
  exact h.1

theorem stop_of_verbatim (hl : l ∈ ofPlaced ps) (h : l.verbatim = true) : l.stop = l.first.place.stop := by
  rw [stop, more_join _ l hl (isText_of_verbatim h)]; rfl

/-- **A verbatim line copies a stretch of the source.** -/
theorem copies_of_verbatim (hl : l ∈ ofPlaced ps) (hlies : l.Lies e.source) (h : l.verbatim = true) :
    l.Copies e := by
  have hcode := isText_of_verbatim h
  have hbody : l.chunk.body = l.first.place.text := by
    rw [verbatim, Bool.and_eq_true, beq_iff_eq] at h
    rw [Chunk.body_of_code (by rwa [isText_chunk]), chunk_of_code hcode, h.2]
  -- a chunk that is kept is not blank, so what it copies is not empty
  have hne : l.first.place.text ≠ [] := by
    have hkept : l.first.chunk.isKept = true := by
      have hmem : l.first ∈ Placed.kept ps := (firsts_join _).subset (List.mem_map_of_mem hl)
      exact (List.mem_filter.1 hmem).2
    rw [← hbody, Chunk.body_of_code (by rwa [isText_chunk]), chunk_of_code hcode]
    cases hc : l.first.chunk with
    | lit t => simp [hc, Chunk.isText] at hcode
    | write code => rintro rfl; rw [hc] at hkept; simp [Chunk.isKept, Text.allBlank] at hkept
    | stmt code => rintro rfl; simp [hc, Chunk.isKept, Text.allBlank] at hkept
  obtain ⟨u, v, w, hsource, hplace⟩ := hlies
  rw [hplace] at hne hbody
  have hstart : e.unitOffset l.start = u.units := by
    rw [Emitter.unitOffset, Text.unitOffset_eq, take_start hsource hplace]
  have hstop : e.unitOffset l.stop = (u ++ v).units := by
    have hoffset : l.stop.offset = (u ++ v).length := by
      rw [stop_of_verbatim hl h, hplace]
      simp [Location.ofText, Position.offset_after]
    rw [Emitter.unitOffset, Text.unitOffset_eq, hoffset, hsource, List.take_left]
  refine ⟨?_, ?_, ?_⟩
  · have := Text.units_pos hne
    rw [hstart, hstop, Text.units_append]
    exact Nat.lt_add_of_pos_right this
  · rw [hstart, hstop, hbody]
    exact Text.slice_between hsource
  · rw [hbody]
    exact ⟨u, w, hsource.symm⟩

/-! ## The ranges of lines -/

/-- What is recorded for some of the lines and does not depend on the code before. -/
theorem filter_map_records {α β : Type} {f : Text → Line → α} {p : α → Bool} {q : Line → Bool} {g : α → β}
    {k : Line → β} (hp : ∀ before l, p (f before l) = q l) (hg : ∀ before l, g (f before l) = k l)
    (before : Text) (ls : List Line) :
    ((records f before ls).filter p).map g = (ls.filter q).map k := by
  induction ls generalizing before with
  | nil => rfl
  | cons l ls ih =>
    rw [records, List.filter_cons, List.filter_cons, hp]
    split
    · rw [List.map_cons, List.map_cons, hg, ih]
    · exact ih _

theorem kind_of_verbatim {before : Text} : ∀ r ∈ records (range e) before ls, r.verbatim = true →
    r.kind = .javascript := by
  intro r hr hv
  obtain ⟨u, l, -, rfl⟩ := mem_records hr
  have hcode := isText_of_verbatim hv
  show l.chunk.rangeKind = .javascript
  rw [chunk_of_code hcode]
  cases hc : l.first.chunk with
  | lit t => simp [hc, Chunk.isText] at hcode
  | write code => rfl
  | stmt code => rfl

variable {source : Text}

/-- **The injections of the verbatim ranges of lines give back the code**, once there is
one. What was given back before them is `done`, and `gap` has been written since. -/
theorem rebuild_records {code done gap rest : Text} (hcopies : ∀ l ∈ ls, l.verbatim = true → l.Copies e)
    (hcode : code = done ++ gap ++ (ls.flatMap fun l => l.chunk.render) ++ rest)
    (hne : (records (range e) (done ++ gap) ls).filter (·.verbatim) ≠ []) :
    done ++ Injection.rebuild e.source
      (Injection.ofRanges code done.units ((records (range e) (done ++ gap) ls).filter (·.verbatim))) =
        code := by
  induction ls generalizing done gap with
  | nil => exact absurd rfl hne
  | cons l ls ih =>
    obtain ⟨hl, hls⟩ := List.forall_mem_cons.1 hcopies
    rw [records] at hne ⊢
    cases hv : l.verbatim with
    | false =>
      -- no injection for this line: it is part of what stands before the next one
      have hskip : ¬ (range e (done ++ gap) l).verbatim = true := by simp [range, hv]
      rw [List.filter_cons_of_neg hskip, List.append_assoc] at hne ⊢
      exact ih hls (by rw [hcode]; simp) hne
    | true =>
      have htake : (range e (done ++ gap) l).verbatim = true := hv
      have hcopy : e.source.slice (range e (done ++ gap) l).sourceStart (range e (done ++ gap) l).sourceStop =
          l.chunk.body := (hl hv).slice
      have hsplit : code = done ++ (gap ++ l.chunk.lead ++ l.chunk.opening) ++ l.chunk.body ++
          (l.chunk.closing ++ (ls.flatMap fun l => l.chunk.render) ++ rest) := by
        rw [hcode, List.flatMap_cons, Chunk.render_eq]
        simp only [List.append_assoc]
      have hstart : (range e (done ++ gap) l).compiledStart =
          (done ++ (gap ++ l.chunk.lead ++ l.chunk.opening)).units := by
        simp only [range, List.append_assoc]
      have hstop : (range e (done ++ gap) l).compiledStop =
          (done ++ (gap ++ l.chunk.lead ++ l.chunk.opening) ++ l.chunk.body).units := by
        simp only [range, List.append_assoc]
      have hrender : done ++ gap ++ l.chunk.render =
          done ++ (gap ++ l.chunk.lead ++ l.chunk.opening) ++ l.chunk.body ++ l.chunk.closing := by
        rw [Chunk.render_eq]
        simp only [List.append_assoc]
      rw [List.filter_cons_of_pos htake, hrender]
      by_cases hmore : (records (range e) (done ++ (gap ++ l.chunk.lead ++ l.chunk.opening) ++ l.chunk.body ++
          l.chunk.closing) ls).filter (·.verbatim) = []
      · rw [hmore]
        exact Injection.rebuild_last hsplit hstart hstop hcopy
      · refine Injection.rebuild_cons hsplit hstart hstop hcopy hmore (ih hls ?_ hmore)
        rw [hsplit]
        simp only [List.append_assoc]

end Line

/-! ## Whole templates -/

namespace Template.Laid

variable {tr : Char} {source : Text} {r : Template} {e : Emitter}

/-- The verbatim ranges of a template stand in the source where its verbatim lines do. -/
theorem map_ranges (r : Template) (e : Emitter) (before : Text) :
    ((Line.records (Line.range e) before (r.lines tr)).filter (·.verbatim)).map
      (fun a => (a.sourceStart, a.sourceStop)) =
        ((r.lines tr).filter (·.verbatim)).map fun l => (e.unitOffset l.start, e.unitOffset l.stop) :=
  Line.filter_map_records (f := Line.range e) (p := fun a => a.verbatim) (q := Line.verbatim)
    (fun _ _ => rfl) (fun _ _ => rfl) before _

/-- The verbatim ranges of a template come one after the other in its source. -/
theorem ranges_sorted (h : r.Laid tr source) (before : Text) :
    ((Line.records (Line.range e) before (r.lines tr)).filter (·.verbatim)).Pairwise
      fun a b => a.sourceStop ≤ b.sourceStart := by
  have hmap := @map_ranges tr r e before
  have hlines : ((r.lines tr).filter (·.verbatim)).Pairwise
      fun a b => e.unitOffset a.stop ≤ e.unitOffset b.start := by
    refine (h.sorted.filter _).imp_of_mem fun ha _ hab => Text.unitOffset_mono _ ?_
    obtain ⟨hmem, hv⟩ := List.mem_filter.1 ha
    rw [Line.stop_of_verbatim hmem hv]
    exact hab
  have hpairs : (((r.lines tr).filter (·.verbatim)).map
      fun l => (e.unitOffset l.start, e.unitOffset l.stop)).Pairwise fun a b => a.2 ≤ b.1 :=
    List.pairwise_map.2 hlines
  rw [← hmap] at hpairs
  exact List.pairwise_map.1 hpairs

/-- A verbatim range is that of a line that copies a stretch of the source. -/
theorem range_copies (h : r.Laid tr source) (he : e.source = source) (before : Text) :
    ∀ a ∈ (Line.records (Line.range e) before (r.lines tr)).filter (·.verbatim),
      a.kind = .javascript ∧ a.sourceStart < a.sourceStop ∧
        source.slice a.sourceStart a.sourceStop <:+: source := by
  intro a ha
  obtain ⟨hmem, hv⟩ := List.mem_filter.1 ha
  refine ⟨Line.kind_of_verbatim a hmem hv, ?_⟩
  obtain ⟨u, l, hl, rfl⟩ := Line.mem_records hmem
  have hcopies := Line.copies_of_verbatim hl (he ▸ h.lies l hl) hv
  have hslice : source.slice (e.unitOffset l.start) (e.unitOffset l.stop) = l.chunk.body := he ▸ hcopies.slice
  refine ⟨hcopies.lt, ?_⟩
  show source.slice (e.unitOffset l.start) (e.unitOffset l.stop) <:+: source
  rw [hslice, ← he]
  exact hcopies.body_infix

/-- The injections of the verbatim ranges of a template give back its code, if there are
any. -/
theorem rebuild_ofRanges (h : r.Laid tr source) (he : e.source = source) {code before rest : Text}
    (hcode : code = before ++ ((r.lines tr).flatMap fun l => l.chunk.render) ++ rest)
    (hne : (Line.records (Line.range e) before (r.lines tr)).filter (·.verbatim) ≠ []) :
    Injection.rebuild source (Injection.ofRanges code 0
      ((Line.records (Line.range e) before (r.lines tr)).filter (·.verbatim))) = code := by
  have hcopies : ∀ l ∈ r.lines tr, l.verbatim = true → l.Copies e := fun l hl hv =>
    Line.copies_of_verbatim hl (he ▸ h.lies l hl) hv
  have hrebuild : [] ++ Injection.rebuild e.source (Injection.ofRanges code (Text.units [])
      ((Line.records (Line.range e) ([] ++ before) (r.lines tr)).filter (·.verbatim))) = code :=
    Line.rebuild_records hcopies hcode hne
  rwa [he] at hrebuild

/-- The injections of a template are those of its verbatim ranges. -/
theorem injections_eq (h : r.Laid tr source) {options : RenderOptions} (hranges : options.includeRanges = true) :
    (r.render options).injections = Injection.ofRanges (r.output options).code 0
      ((Line.records (Line.range (r.emitter options)) (Chunk.head options.functionName)
        (r.lines tr)).filter (·.verbatim)) := by
  obtain ⟨-, -, hwritten⟩ := Template.output_writes options h.shaped h.brace_notMem
  rw [if_pos hranges] at hwritten
  have hall : (r.render options).injections =
      Injection.all (r.output options).code (r.output options).ranges := if_pos hranges
  rw [hall, hwritten]
  refine Injection.all_eq_ofRanges Line.kind_of_verbatim ?_
  refine (h.ranges_sorted _).imp_of_mem fun ha _ hab => ?_
  exact (h.range_copies h.source_eq _ _ ha).2.1.le.trans hab

/-- The injections of a template stand in its source where its verbatim lines do. -/
theorem map_injections (h : r.Laid tr source) {options : RenderOptions} (hranges : options.includeRanges = true) :
    (r.render options).injections.map (fun i => (i.start, i.stop)) =
      ((r.lines tr).filter (·.verbatim)).map fun l =>
        (source.unitOffset l.start.offset, source.unitOffset l.stop.offset) := by
  have hkinds := congrArg (List.map Prod.snd) (Injection.map_ofRanges (r.output options).code 0
    ((Line.records (Line.range (r.emitter options)) (Chunk.head options.functionName)
      (r.lines tr)).filter (·.verbatim)))
  rw [List.map_map, List.map_map] at hkinds
  have hsource : (r.emitter options).source = source := h.source_eq
  rw [h.injections_eq hranges, ← hsource]
  exact hkinds.trans (map_ranges r _ _)

theorem injections (h : r.Laid tr source) {options : RenderOptions} (hranges : options.includeRanges = true)
    (hne : (r.render options).injections ≠ []) :
    (∀ i ∈ (r.render options).injections, i.kind = .javascript ∧ i.start < i.stop) ∧
      ((r.render options).injections.Pairwise fun a b => a.stop ≤ b.start) ∧
      Injection.rebuild source (r.render options).injections = (r.render options).code ∧
      ∀ i ∈ (r.render options).injections, i.before <:+: (r.render options).code ∧
        i.after <:+: (r.render options).code ∧ source.slice i.start i.stop <:+: source := by
  obtain ⟨hcode, -, -⟩ := Template.output_writes options h.shaped h.brace_notMem
  have hcopies := h.range_copies (e := r.emitter options) h.source_eq (Chunk.head options.functionName)
  rw [h.injections_eq hranges] at hne ⊢
  have hrebuild := h.rebuild_ofRanges (e := r.emitter options) h.source_eq hcode fun hnil => by
    rw [hnil] at hne
    exact hne rfl
  refine ⟨fun i hi => ?_, Injection.pairwise_ofRanges (h.ranges_sorted _) _ _, hrebuild, fun i hi => ?_⟩
  · obtain ⟨a, ha, hkind, hstart, hstop⟩ := Injection.mem_ofRanges hi
    rw [← hkind, ← hstart, ← hstop]
    exact ⟨(hcopies a ha).1, (hcopies a ha).2.1⟩
  · obtain ⟨a, ha, -, hstart, hstop⟩ := Injection.mem_ofRanges hi
    obtain ⟨hbefore, hafter⟩ := Injection.infix_rebuild hi source
    rw [hrebuild] at hbefore hafter
    rw [← hstart, ← hstop]
    exact ⟨hbefore, hafter, (hcopies a ha).2.2⟩

end Template.Laid

/-- **Injections give back the generated file.** If a template has injections, then all of
them are code, their stretches of the source are not empty and come one after the other,
and put together they are the generated code; what stands around a stretch is made of
whole characters of the code, and the stretch of whole characters of the source. -/
theorem compile_injections (parsing : ParseOptions) (options : RenderOptions) (source : Text)
    (h : parsing.language ∈ Registry.standard.languages) (hranges : options.includeRanges = true) :
    ∃ c, compile parsing options source = .ok c ∧ (c.rendered.injections ≠ [] →
      (∀ i ∈ c.rendered.injections, i.kind = .javascript ∧ i.start < i.stop) ∧
      (c.rendered.injections.Pairwise fun a b => a.stop ≤ b.start) ∧
      Injection.rebuild source c.rendered.injections = c.rendered.code ∧
      ∀ i ∈ c.rendered.injections, i.before <:+: c.rendered.code ∧ i.after <:+: c.rendered.code ∧
        source.slice i.start i.stop <:+: source) := by
  obtain ⟨r, hparse, hr⟩ := parse_laid source h
  exact ⟨r.compiled options, by rw [compile, hparse]; rfl, hr.injections hranges⟩

/-- Two expressions after a character of two units. -/
def astralExpressions : Text := ['😀', '@', 'x', ' ', '@', 'y']

theorem compile_injections_statement :
    ({ maxNestingDepth := 0 } : ParseOptions).language ∈ Registry.standard.languages ∧
      ({ includeRanges := true } : RenderOptions).includeRanges = true ∧
      ∃ c, compile { maxNestingDepth := 0 } { includeRanges := true } astralExpressions = .ok c ∧
        c.rendered.injections.map (fun i => (i.start, i.stop)) = [(3, 4), (6, 7)] ∧
        (∀ i ∈ c.rendered.injections, i.kind = .javascript ∧ i.start < i.stop) ∧
        (c.rendered.injections.Pairwise fun a b => a.stop ≤ b.start) ∧
        Injection.rebuild astralExpressions c.rendered.injections = c.rendered.code ∧
        ∀ i ∈ c.rendered.injections, i.before <:+: c.rendered.code ∧ i.after <:+: c.rendered.code ∧
          astralExpressions.slice i.start i.stop <:+: astralExpressions := by
  obtain ⟨c, hc, hinjections⟩ := compile_injections { maxNestingDepth := 0 } { includeRanges := true }
    astralExpressions (by decide) rfl
  have hplaces : c.rendered.injections.map (fun i => (i.start, i.stop)) = [(3, 4), (6, 7)] := by
    obtain ⟨r, hparse, hlaid⟩ := @parse_laid { maxNestingDepth := 0 } astralExpressions (by decide)
    have hlines : (Template.parse { maxNestingDepth := 0 } astralExpressions).toOption.map (fun r =>
        ((r.lines '@').filter (·.verbatim)).map fun l =>
          (astralExpressions.unitOffset l.start.offset, astralExpressions.unitOffset l.stop.offset)) =
        some [(3, 4), (6, 7)] := by decide +kernel
    rw [compile, hparse] at hc
    rw [hparse] at hlines
    rw [← Except.ok.inj hc]
    exact (hlaid.map_injections rfl).trans (Option.some.inj hlines)
  have hne : c.rendered.injections ≠ [] := by
    intro hnil
    rw [hnil] at hplaces
    cases hplaces
  exact ⟨by decide, rfl, c, hc, hplaces, hinjections hne⟩

end Stencil
