import Stencil.Diagnostic.Excerpt
import Stencil.Proofs.Highlighting
import Stencil.Proofs.Spans

/-!
# Excerpts of the source

A report is shown with the line of the source it starts on and carets under the place. The line is looked
up among the lines as a reader counts them, while the place was counted by line feeds; and the number of
carets is the difference of two columns, which would be too large if the place went on under a carriage
return that the shown line has lost. Both agree with the source: reports are tidy.

* `Text.lines_getElem?`: the lines of a reader, by what stands around a line in the text.
* `Location.exists_startsOn`: the line on which a location starts, cut where the location starts.
* `Location.StartsOn.underline_eq`: **the carets are as many as the characters of the line that a tidy
  location covers**, but at least one.
* `parse_excerpts`: every report of a template points at a stretch of it and is shown with the right line.
-/

namespace Stencil

/-! ## Lines and columns -/

namespace Position

/-- Lines are counted by their line feeds. -/
theorem line_after (p : Position) (t : Text) : (p.after t).line = p.line + t.count '\n' := by
  induction t generalizing p with
  | nil => simp
  | cons x t ih =>
    rw [after_cons, ih, next]
    by_cases hx : x = '\n'
    · rw [if_pos hx, hx, List.count_cons_self]
      simp only
      omega
    · rw [if_neg hx, List.count_cons_of_ne hx]

/-- On one line, columns are counted by characters. -/
theorem col_after {t : Text} (p : Position) (h : '\n' ∉ t) : (p.after t).col = p.col + t.length := by
  induction t generalizing p with
  | nil => rfl
  | cons x t ih =>
    rw [List.mem_cons, not_or] at h
    rw [after_cons, ih _ h.2, next, if_neg (Ne.symm h.1), List.length_cons]
    simp only
    omega

end Position

namespace Text

/-- A line starts after the text: there is none, or it ends with a line feed. -/
def AtLineStart (u : Text) : Prop :=
  u = [] ∨ u.getLast? = some '\n'

/-- A line starts at the beginning or behind a line feed. -/
theorem AtLineStart.cases {u : Text} (h : u.AtLineStart) : u = [] ∨ ∃ v, u = v ++ ['\n'] := by
  rcases h with h | h
  · exact .inl h
  · right
    obtain ⟨v, x, rfl⟩ := (List.eq_nil_or_concat' u).resolve_left fun hnil => by simp [hnil] at h
    exact ⟨v, by simpa using h⟩

/-- Where a line starts, the column is zero. -/
theorem AtLineStart.col {u : Text} (h : u.AtLineStart) : (({} : Position).after u).col = 0 := by
  rcases h.cases with rfl | ⟨v, rfl⟩
  · rfl
  · rw [Position.after_append, Position.after_cons, Position.next, if_pos rfl]
    rfl

/-- Every text is a number of lines and the start of one more. -/
theorem exists_lineStart (a : Text) : ∃ u s, a = u ++ s ∧ AtLineStart u ∧ '\n' ∉ s := by
  induction a using List.reverseRecOn with
  | nil => exact ⟨[], [], rfl, .inl rfl, List.not_mem_nil⟩
  | append_singleton a x ih =>
    by_cases hx : x = '\n'
    · exact ⟨a ++ [x], [], by simp, .inr (by simp [hx]), List.not_mem_nil⟩
    · obtain ⟨u, s, rfl, hu, hs⟩ := ih
      refine ⟨u, s ++ [x], by simp, hu, ?_⟩
      simpa [hs] using Ne.symm hx

/-- Every text goes on to the end of a line, and stops there or at a line feed. -/
theorem exists_lineEnd (b : Text) : ∃ x y, b = x ++ y ∧ '\n' ∉ x ∧ (y = [] ∨ y.head? = some '\n') := by
  induction b with
  | nil => exact ⟨[], [], rfl, List.not_mem_nil, .inl rfl⟩
  | cons c b ih =>
    by_cases hc : c = '\n'
    · exact ⟨[], c :: b, rfl, List.not_mem_nil, .inr (by simp [hc])⟩
    · obtain ⟨x, y, rfl, hx, hy⟩ := ih
      exact ⟨c :: x, y, rfl, by simpa [hx] using Ne.symm hc, hy⟩

theorem pieces_of_notMem {s : Text} (h : '\n' ∉ s) : s.pieces = [s] := by
  rw [pieces_eq_splitOn, List.splitOn_eq_singleton h]

/-- A line feed separates pieces. -/
theorem pieces_append_lineFeed (a b : Text) : pieces (a ++ '\n' :: b) = a.pieces ++ b.pieces := by
  simp only [pieces_eq_splitOn, List.splitOn_append_cons_self]

/-- There is one piece more than there are line feeds. -/
theorem length_pieces (t : Text) : t.pieces.length = t.count '\n' + 1 := by
  induction t with
  | nil => rfl
  | cons x t ih =>
    by_cases hx : x = '\n'
    · rw [hx, pieces_cons_lineFeed, List.length_cons, ih, List.count_cons_self]
    · obtain ⟨piece, more, hpieces⟩ := List.exists_cons_of_ne_nil (pieces_ne_nil t)
      rw [pieces_cons_of_ne hx hpieces, List.count_cons_of_ne hx, ← ih, hpieces]
      rfl

/-- The pieces of what follows a number of lines come after as many pieces. -/
theorem AtLineStart.pieces {u : Text} (h : u.AtLineStart) :
    ∃ ps : List Text, ps.length = u.count '\n' ∧ ∀ v, Text.pieces (u ++ v) = ps ++ v.pieces := by
  rcases h.cases with rfl | ⟨v, rfl⟩
  · exact ⟨[], rfl, fun _ => rfl⟩
  · refine ⟨v.pieces, by rw [length_pieces]; simp, fun w => ?_⟩
    rw [List.append_assoc, List.singleton_append, pieces_append_lineFeed]

/-- **The lines of a reader**: a line that ends with a line feed loses the carriage return before it, and
a line at the end of the text is one only if there is something on it. -/
theorem lines_getElem? {u p y : Text} (hu : u.AtLineStart) (hp : '\n' ∉ p) (hy : y = [] ∨ y.head? = some '\n') :
    (lines (u ++ p ++ y))[u.count '\n']? =
      if y ≠ [] then some p.dropReturn else if p = [] then none else some p := by
  obtain ⟨ps, hlength, hps⟩ := hu.pieces
  unfold lines
  rw [List.append_assoc, hps, ← hlength]
  cases y with
  | nil =>
    rw [List.append_nil, pieces_of_notMem hp, List.dropLast_concat, List.getLast?_concat]
    rw [List.getElem?_append_right (by simp)]
    cases p <;> simp
  | cons c y =>
    obtain rfl : c = '\n' := by simpa using hy
    -- the line is not the last piece
    have hlast : (ps ++ p :: pieces y).dropLast = ps ++ p :: (pieces y).dropLast := by
      obtain ⟨piece, more, hpieces⟩ := List.exists_cons_of_ne_nil (pieces_ne_nil y)
      rw [hpieces, List.dropLast_append_of_ne_nil (by simp), List.dropLast_cons_cons]
    rw [pieces_append_lineFeed, pieces_of_notMem hp, List.singleton_append, hlast]
    rw [List.getElem?_append_left (by simp), List.map_append, List.getElem?_append_right (by simp)]
    simp

/-- Line `k` of the text as it is shown, with `u` before it: it lacks its line feed, and a carriage return
right before that. -/
structure ShownLine (t : Text) (k : ℕ) (u line : Text) : Prop where
  number : u.count '\n' = k
  first : u.AtLineStart
  single : '\n' ∉ line
  rest : ∃ y, t = u ++ line ++ y ∧
    (y = [] ∨ (y.head? = some '\n' ∧ line.getLast? ≠ some '\r') ∨ ['\r', '\n'] <+: y)

/-- Line `k` is the empty one after a line feed at the end of the text, or that of an empty text. -/
def IsEmptyEnd (t : Text) (k : ℕ) : Prop :=
  k = t.count '\n' ∧ (t = [] ∨ t.getLast? = some '\n')

end Text

/-! ## The line of a location -/

namespace Location

/-- How many of the `n` characters from an offset on the location covers. -/
def covered (l : Location) (first n : ℕ) : ℕ :=
  (List.range n).countP fun i => decide (l.start.offset ≤ first + i ∧ first + i < l.stop.offset)

variable {t u s x y : Text} {l : Location}

/-- What a location covers of a line is cut off at both ends of the line. -/
theorem covered_eq (l : Location) (first n : ℕ) :
    l.covered first n = min n (l.stop.offset - first) - (l.start.offset - first) := by
  unfold covered
  induction n with
  | zero => simp
  | succ n ih =>
    rw [List.range_succ, List.countP_append, ih, List.countP_singleton]
    by_cases h : l.start.offset ≤ first + n ∧ first + n < l.stop.offset
    · rw [if_pos (decide_eq_true h)]
      omega
    · rw [if_neg (by simpa using h)]
      omega

/-- The line of the text on which the location starts, with `u` before it. The location starts after `s`,
with `x` left of the line and `y` after that. -/
structure StartsOn (t u s x y : Text) (l : Location) : Prop where
  text : t = u ++ (s ++ x) ++ y
  first : u.AtLineStart
  single : '\n' ∉ s ++ x
  rest : y = [] ∨ y.head? = some '\n'
  reads : l.text <+: x ++ y
  start : l.start = ({} : Position).after (u ++ s)
  stop : l.stop = l.start.after l.text

/-- **A stretch starts on a line of the text.** -/
theorem exists_startsOn (h : l.Stretch t) : ∃ u s x y, l.StartsOn t u s x y := by
  obtain ⟨a, v, w, rfl, rfl⟩ := h
  obtain ⟨u, s, rfl, hu, hs⟩ := Text.exists_lineStart a
  obtain ⟨x, y, hxy, hx, hy⟩ := Text.exists_lineEnd (v ++ w)
  refine ⟨u, s, x, y, ?_, hu, ?_, hy, ⟨w, hxy⟩, rfl, rfl⟩
  · rw [List.append_assoc, hxy]
    simp
  · rw [List.mem_append, not_or]
    exact ⟨hs, hx⟩

namespace StartsOn

variable (h : l.StartsOn t u s x y)

include h

theorem line : l.start.line = u.count '\n' := by
  have hs : s.count '\n' = 0 := List.count_eq_zero.2 fun hmem => h.single (List.mem_append_left x hmem)
  rw [h.start, Position.line_after, List.count_append, hs]
  simp

theorem col : l.start.col = s.length := by
  have hs : '\n' ∉ s := fun hmem => h.single (List.mem_append_left x hmem)
  rw [h.start, Position.after_append, Position.col_after _ hs, h.first.col]
  simp

theorem offset : l.start.offset = u.length + s.length := by
  rw [h.start, Position.offset_after, List.length_append]
  simp

theorem stop_offset : l.stop.offset = u.length + s.length + l.text.length := by
  rw [h.stop, Position.offset_after, h.offset]

/-- The end of the text after a line feed is the line of nothing. -/
theorem isEmptyEnd_iff : t.IsEmptyEnd l.start.line ↔ y = [] ∧ s ++ x = [] := by
  rw [h.line]
  unfold Text.IsEmptyEnd
  have hp : (s ++ x).count '\n' = 0 := List.count_eq_zero.2 h.single
  have hcount : t.count '\n' = u.count '\n' + y.count '\n' := by
    rw [h.text, List.count_append, List.count_append, hp]
    omega
  constructor
  · rintro ⟨hk, hend⟩
    have hy : y = [] := by
      rcases h.rest with hy | hy
      · exact hy
      · -- a line feed that follows would count
        have := List.count_pos_iff.2 (List.mem_of_head? hy)
        omega
    refine ⟨hy, ?_⟩
    by_contra hne
    have htext := h.text
    rw [hy, List.append_nil] at htext
    rcases hend with hnil | hlast
    · rw [htext] at hnil
      exact hne (List.append_eq_nil_iff.1 hnil).2
    · rw [htext, List.getLast?_append_of_ne_nil _ hne] at hlast
      exact h.single (List.mem_of_getLast? hlast)
  · rintro ⟨hy, hp⟩
    have htext : t = u := by rw [h.text, hy, hp]; simp
    rw [htext]
    exact ⟨rfl, h.first⟩

/-- The line that is shown has all of the line, or all but a carriage return before the line feed. -/
theorem shown (hend : ¬ t.IsEmptyEnd l.start.line) : ∃ line, t.ShownLine l.start.line u line ∧
    t.lines[l.start.line]? = some line ∧
    (line.length = (s ++ x).length ∨ y ≠ [] ∧ (s ++ x).getLast? = some '\r' ∧ line.length + 1 = (s ++ x).length) := by
  rw [h.isEmptyEnd_iff, not_and] at hend
  have hlines := Text.lines_getElem? h.first h.single h.rest
  rw [← h.text, ← h.line] at hlines
  by_cases hy : y = []
  · rw [if_neg (by simpa using hy), if_neg (hend hy)] at hlines
    exact ⟨s ++ x, ⟨h.line.symm, h.first, h.single, y, h.text, .inl hy⟩, hlines, .inl rfl⟩
  · rw [if_pos hy, Text.dropReturn] at hlines
    have hfeed := h.rest.resolve_left hy
    by_cases hreturn : (s ++ x).getLast? = some '\r'
    · rw [if_pos hreturn] at hlines
      -- the carriage return stands between the line that is shown and the line feed
      obtain ⟨q, hq⟩ : ∃ q, s ++ x = q ++ ['\r'] := List.getLast?_eq_some_iff.1 hreturn
      rw [hq, List.dropLast_concat] at hlines
      refine ⟨q, ⟨h.line.symm, h.first, ?_, '\r' :: y, ?_, ?_⟩, hlines, ?_⟩
      · intro hmem
        exact h.single (hq ▸ List.mem_append_left _ hmem)
      · rw [h.text, hq]
        simp
      · obtain ⟨z, rfl⟩ : ∃ z, y = '\n' :: z := ⟨y.tail, List.eq_cons_of_mem_head? hfeed⟩
        exact .inr (.inr ⟨z, rfl⟩)
      · exact .inr ⟨hy, hreturn, by rw [hq]; simp⟩
    · rw [if_neg hreturn] at hlines
      exact ⟨s ++ x, ⟨h.line.symm, h.first, h.single, y, h.text, .inr (.inl ⟨hfeed, hreturn⟩)⟩, hlines, .inl rfl⟩

/-- A location without a line feed ends on its line; any other one goes on after it. -/
theorem length_text : if '\n' ∈ l.text then x.length < l.text.length else l.text <+: x := by
  split
  case isTrue hfeed =>
    by_contra hle
    have hfront : l.text <+: x :=
      List.prefix_of_prefix_length_le h.reads (List.prefix_append x y) (by omega)
    exact h.single (List.mem_append_right s (hfront.subset hfeed))
  case isFalse hfeed =>
    refine List.prefix_of_prefix_length_le h.reads (List.prefix_append x y) ?_
    by_contra hlt
    have hfront : x <+: l.text :=
      List.prefix_of_prefix_length_le (List.prefix_append x y) h.reads (by omega)
    obtain ⟨z, hz⟩ := hfront
    have hreads := h.reads
    rw [← hz, List.prefix_append_right_inj] at hreads
    -- what the location has beyond the line starts with a line feed
    obtain ⟨c, z, rfl⟩ : ∃ c z', z = c :: z' := List.exists_cons_of_ne_nil fun hnil => by simp [← hz, hnil] at hlt
    rcases h.rest with hy | hy
    · rw [hy, List.prefix_nil] at hreads
      cases hreads
    · obtain ⟨w, rfl⟩ := hreads
      obtain rfl : c = '\n' := by simpa using hy
      exact hfeed (by rw [← hz]; simp)

/-- **The carets are as many as the characters of the shown line that a tidy location covers**, but at
least one. -/
theorem underline_eq (htidy : l.Tidy t) {n : ℕ} (hn : n = (s ++ x).length ∨
      y ≠ [] ∧ (s ++ x).getLast? = some '\r' ∧ n + 1 = (s ++ x).length) :
    Diagnostic.underline l n = max 1 (l.covered u.length n) := by
  have hlength := h.length_text
  have hline : l.stop.line = l.start.line + l.text.count '\n' := by rw [h.stop, Position.line_after]
  rw [List.length_append] at hn
  rw [covered_eq, h.offset, h.stop_offset]
  unfold Diagnostic.underline
  rw [hline, h.col]
  by_cases hfeed : '\n' ∈ l.text
  · -- the location covers the rest of its first line
    rw [if_pos hfeed] at hlength
    have hcount := List.count_pos_iff.2 hfeed
    rw [if_neg (by omega)]
    omega
  · rw [if_neg hfeed] at hlength
    have hcol : l.stop.col = s.length + l.text.length := by rw [h.stop, Position.col_after _ hfeed, h.col]
    have hle := hlength.length_le
    rw [List.count_eq_zero.2 hfeed, if_pos (by omega), hcol]
    rcases hn with hn | ⟨hy, hreturn, hn⟩
    · omega
    · by_cases hshort : l.text.length < x.length ∨ l.text.length = 0
      · omega
      · -- the location would end with the carriage return, and the line feed follows it
        exfalso
        have htext : l.text = x := hlength.eq_of_length (by omega)
        have hx : x ≠ [] := by
          intro hnil
          rw [htext, hnil] at hshort
          simp at hshort
        rw [List.getLast?_append_of_ne_nil _ hx, ← htext] at hreturn
        have hstop := htidy hreturn
        have hpos := List.length_pos_iff.2 hy
        rw [h.stop_offset, h.text] at hstop
        simp only [List.length_append] at hstop
        omega

end StartsOn

end Location

/-! ## The rows of an excerpt -/

namespace Diagnostic

/-- The rows in which a report about a place is shown, around those that quote the source. -/
def rows (d : Diagnostic) (file : String) (l : Location) (quotation : List String) : List String :=
  ["", s!" file: {file}:{l.start.line + 1}:{l.start.col + 1}",
    s!"{d.severity.name}[{d.code.label}]: {d.message}"] ++ quotation ++ [""]

/-- The rows that quote a line: the line with its number, and carets from the start column on. -/
def quotation (l : Location) (line : Text) (carets : ℕ) : List String :=
  let number := toString (l.start.line + 1)
  let width := max 2 number.length
  ["".pushn ' ' width ++ " |", padLeft width number ++ " | " ++ String.ofList line,
    "".pushn ' ' width ++ " | " ++ "".pushn ' ' l.start.col ++ "".pushn '^' carets]

/-- Every row on a line of its own. -/
def unlines (rows : List String) : String :=
  String.join (rows.map (· ++ "\n"))

/-- Each row is ended by a line feed. -/
theorem toList_unlines (rows : List String) :
    (unlines rows).toList = rows.flatMap fun row => row.toList ++ ['\n'] := by
  simp [unlines, String.toList_join, List.flatMap_map]

theorem toString_string (s : String) : toString s = s := rfl

variable {d : Diagnostic} {l : Location} {t line : Text}

theorem excerpt_of_none (hl : d.location = some l) (hline : t.lines[l.start.line]? = none) (file : String) :
    d.excerpt .plain t file = unlines (d.rows file l []) := by
  unfold excerpt
  rw [hl]
  simp only [hline]
  rw [← String.toList_inj, toList_unlines]
  simp [rows, Palette.plain, Position.render, toString_string]

/-- Where the line is known it is quoted and underlined. -/
theorem excerpt_of_some (hl : d.location = some l) (hline : t.lines[l.start.line]? = some line) (file : String) :
    d.excerpt .plain t file = unlines (d.rows file l (quotation l line (underline l line.length))) := by
  unfold excerpt
  rw [hl]
  simp only [hline]
  rw [← String.toList_inj, toList_unlines]
  simp [rows, quotation, quoteLine, padLeft, Palette.plain, Position.render, toString_string]

/-- The report is shown as it should be: with no line of the source if it starts on the empty line at the
end, else with the line it starts on and carets under what its place covers of that line. -/
structure ShownRight (t : Text) (l : Location) (d : Diagnostic) : Prop where
  atEnd : t.IsEmptyEnd l.start.line → ∀ file, d.excerpt .plain t file = unlines (d.rows file l [])
  onLine : ¬ t.IsEmptyEnd l.start.line → ∃ u line, t.ShownLine l.start.line u line ∧ ∀ file,
    d.excerpt .plain t file =
      unlines (d.rows file l (quotation l line (max 1 (l.covered u.length line.length))))

/-- **A report at a tidy stretch of the source is shown as it should be.** -/
theorem shownRight (hl : d.location = some l) (hstretch : l.Stretch t) (htidy : l.Tidy t) :
    d.ShownRight t l := by
  obtain ⟨u, s, x, y, hstarts⟩ := Location.exists_startsOn hstretch
  constructor
  · intro hend
    obtain ⟨hy, hp⟩ := hstarts.isEmptyEnd_iff.1 hend
    have hlines := Text.lines_getElem? hstarts.first hstarts.single hstarts.rest
    rw [← hstarts.text, ← hstarts.line, if_neg (by simpa using hy), if_pos hp] at hlines
    exact excerpt_of_none hl hlines
  · intro hend
    obtain ⟨line, hshown, hlines, hlength⟩ := hstarts.shown hend
    refine ⟨u, line, hshown, fun file => ?_⟩
    rw [excerpt_of_some hl hlines, hstarts.underline_eq htidy hlength]

end Diagnostic

/-- **Reports point at the source and are shown with it.** Every report of a template has the location of
a stretch of the source, with true positions and the exact text. Shown to a reader, it quotes a line of
the source exactly if it does not start on the empty line at the end. That line is the one it starts on
without its line feed and a carriage return before that, and from the start column on it is underlined as
far as the location covers it, with one caret at least. -/
theorem parse_excerpts {options : ParseOptions} (t : Text)
    (hlanguage : options.language ∈ Registry.standard.languages)
    (htransition : Text.isBlank options.transition = false) :
    ∃ r, Template.parse options t = .ok r ∧ ∀ x ∈ r.diagnostics, ∃ l, x.location = some l ∧ l.Exact t ∧
      x.ShownRight t l := by
  refine ⟨_, parse_eq_document t hlanguage, fun x hx => ?_⟩
  obtain ⟨l, hl, hstretch⟩ := Template.stretch_diagnostics options t x hx
  obtain ⟨l', hl', htidy⟩ := Template.tidy_diagnostics options t htransition x hx
  obtain rfl : l = l' := Option.some.inj (hl.symm.trans hl')
  exact ⟨l, hl, hstretch.exact, Diagnostic.shownRight hl hstretch htidy⟩

/-- A repeated attribute before a carriage return and a line feed, and a tag that the end cuts off. -/
def cutOffTag : Text :=
  "<p ab ab\r\n>@\r\n<i\n".toList

theorem parse_excerpts_cut_off :
    ({ maxNestingDepth := 1 } : ParseOptions).language ∈ Registry.standard.languages ∧
      Text.isBlank ({ maxNestingDepth := 1 } : ParseOptions).transition = false ∧
      ∃ r, Template.parse { maxNestingDepth := 1 } cutOffTag = .ok r ∧
        r.diagnostics.map Diagnostic.code =
          [.duplicateAttribute, .invalidTransition, .nestingTooDeep, .expectedBracket, .missingEndTag] ∧
        ∀ x ∈ r.diagnostics, ∃ l, x.location = some l ∧ l.Exact cutOffTag ∧ x.ShownRight cutOffTag l := by
  refine ⟨by decide, by decide, ?_⟩
  obtain ⟨r, hr, hshown⟩ := @parse_excerpts { maxNestingDepth := 1 } cutOffTag (by decide) (by decide)
  have hcodes : (Template.parse { maxNestingDepth := 1 } cutOffTag).toOption.map
      (fun r => r.diagnostics.map Diagnostic.code) = some [.duplicateAttribute, .invalidTransition, .nestingTooDeep,
        .expectedBracket, .missingEndTag] := by decide +kernel
  rw [hr] at hcodes
  exact ⟨r, hr, Option.some.inj hcodes, hshown⟩

end Stencil
