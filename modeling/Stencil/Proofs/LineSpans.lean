import Mathlib.Data.List.Chain
import Stencil.Location

/-!
# Spans of lines

The spans of a location come from cutting its text at the line feeds and measuring the pieces. One
pass over the characters gives the same spans: the span of the current line is held open, a line feed
closes it and opens that of the next line, and any other character makes it longer.

* `LineSpan.StopsAt.next`: **step.** The open span stops where a cursor stands that has stepped over
  the same characters.
* `LineSpan.getLast?_scan`: **run.** So the last span of a text stops where the text does.
* `LineSpan.ofPieces_eq_scan`: cutting and measuring gives the spans of the pass.
* `Location.lineByLine_ofText`: **the spans of a text lead from its start to its end, line by line.**
-/

namespace Stencil

namespace Text

theorem pieces_cons_lineFeed (t : Text) : pieces ('\n' :: t) = [] :: pieces t := by
  simp [pieces, split]

theorem pieces_cons_of_ne {c : Char} (hc : c ≠ '\n') {t piece : Text} {more : List Text}
    (h : pieces t = piece :: more) : pieces (c :: t) = (c :: piece) :: more := by
  rw [pieces] at h
  simp [pieces, split, hc, h]

theorem pieces_eq_splitOn (t : Text) : t.pieces = t.splitOn '\n' := by
  induction t with
  | nil => rw [List.splitOn_nil]; rfl
  | cons c t ih =>
    rw [List.splitOn_cons_eq_if_modifyHead, ← ih]
    by_cases hc : c = '\n'
    · rw [hc, pieces_cons_lineFeed]
      simp
    · obtain ⟨piece, more, hpieces⟩ := List.exists_cons_of_ne_nil (pieces_ne_nil t)
      rw [pieces_cons_of_ne hc hpieces, hpieces]
      simp [hc]

end Text

/-! ## One pass over the characters -/

namespace LineSpan

/-- The span of no character at a position. -/
def opened (p : Position) : LineSpan :=
  ⟨p.line, p.col, p.col, p.byte, p.byte⟩

/-- The open span after one more character. -/
def next (s : LineSpan) (c : Char) : LineSpan :=
  if c = '\n' then ⟨s.line + 1, 0, 0, s.endByte + 1, s.endByte + 1⟩
  else { s with endCol := s.endCol + 1, endByte := s.endByte + c.utf8Size }

/-- The spans of a text that is read on from an open span. -/
def scan (s : LineSpan) : Text → List LineSpan
  | [] => [s]
  | c :: t => if c = '\n' then s :: scan (s.next c) t else scan (s.next c) t

/-- The span stops at a position. -/
structure StopsAt (s : LineSpan) (p : Position) : Prop where
  line : s.line = p.line
  col : s.endCol = p.col
  byte : s.endByte = p.byte

variable {s : LineSpan} {p : Position}

theorem stopsAt_opened (p : Position) : (opened p).StopsAt p := ⟨rfl, rfl, rfl⟩

/-- **The open span and the cursor move alike** over a character. -/
theorem StopsAt.next (h : s.StopsAt p) (c : Char) : (s.next c).StopsAt (p.next c) := by
  unfold LineSpan.next Position.next
  by_cases hc : c = '\n'
  · have hsize : c.utf8Size = 1 := by rw [hc]; rfl
    rw [if_pos hc, if_pos hc]
    refine ⟨?_, rfl, ?_⟩
    · rw [h.line]
    · rw [h.byte, hsize]
  · rw [if_neg hc, if_neg hc]
    refine ⟨h.line, ?_, ?_⟩
    · rw [h.col]
    · rw [h.byte]

/-- **The last span of a text stops where the text does.** -/
theorem getLast?_scan (h : s.StopsAt p) (t : Text) :
    ∃ e, (scan s t).getLast? = some e ∧ e.StopsAt (p.after t) := by
  induction t generalizing s p with
  | nil => exact ⟨s, rfl, h⟩
  | cons c t ih =>
    obtain ⟨e, hlast, hstops⟩ := ih (h.next c)
    refine ⟨e, ?_, hstops⟩
    rw [scan]
    split
    · -- the span that the line feed closes is followed by others
      rw [List.getLast?_cons, hlast]
      rfl
    · exact hlast

/-- **Every span stops where a part of the text stops.** -/
theorem stopsAt_of_mem_scan (h : s.StopsAt p) {t : Text} {e : LineSpan} (he : e ∈ scan s t) :
    ∃ u v, t = u ++ v ∧ e.StopsAt (p.after u) := by
  induction t generalizing s p with
  | nil =>
    obtain rfl : e = s := List.mem_singleton.1 he
    exact ⟨[], [], rfl, h⟩
  | cons c t ih =>
    have hmore : e ∈ scan (s.next c) t → ∃ u v, c :: t = u ++ v ∧ e.StopsAt (p.after u) := by
      intro he
      obtain ⟨u, v, rfl, hstops⟩ := ih (h.next c) he
      exact ⟨c :: u, v, rfl, hstops⟩
    rw [scan] at he
    split at he
    · rcases List.mem_cons.1 he with rfl | he
      · exact ⟨[], c :: t, rfl, h⟩
      · exact hmore he
    · exact hmore he

/-- The first span starts where the open one does. -/
theorem head?_scan (s : LineSpan) (t : Text) :
    (scan s t).head?.map (fun e => (e.startCol, e.startByte)) = some (s.startCol, s.startByte) := by
  induction t generalizing s with
  | nil => rfl
  | cons c t ih =>
    rw [scan]
    split
    case isTrue => rfl
    case isFalse hc =>
      rw [ih, next, if_neg hc]

/-- Every further span starts at the beginning of its line, after the line feed. -/
theorem isChain_scan (s : LineSpan) (t : Text) :
    (scan s t).IsChain fun a b => b.startCol = 0 ∧ b.startByte = a.endByte + 1 := by
  induction t generalizing s with
  | nil => exact .singleton s
  | cons c t ih =>
    rw [scan]
    split
    case isTrue hc =>
      refine List.isChain_cons.2 ⟨?_, ih (s.next c)⟩
      intro b hb
      -- `b` starts where the span that `c` opens does
      have hhead := head?_scan (s.next c) t
      rw [hb, next, if_pos hc] at hhead
      simpa using hhead
    case isFalse => exact ih (s.next c)

/-- The spans stand on consecutive lines, one for each line of the text. -/
theorem map_line_scan (s : LineSpan) (t : Text) :
    (scan s t).map line = List.range' s.line (t.count '\n' + 1) := by
  induction t generalizing s with
  | nil => rfl
  | cons c t ih =>
    rw [scan]
    split
    case isTrue hc =>
      rw [List.map_cons, ih, next, if_pos hc, hc, List.count_cons_self, ← List.range'_succ]
    case isFalse hc =>
      rw [ih, next, if_neg hc, List.count_cons_of_ne hc]

/-! ## The pieces of a text -/

/-- What a pass does up to the next line feed it does to the open span. -/
theorem scan_eq_cons {t piece : Text} {more : List Text} (h : t.pieces = piece :: more) (s : LineSpan) :
    scan s t = { s with endCol := s.endCol + piece.length, endByte := s.endByte + piece.bytes } ::
      ofPieces (s.line + 1) 0 (s.endByte + piece.bytes + 1) more := by
  induction t generalizing s piece more with
  | nil =>
    obtain ⟨rfl, rfl⟩ : [] = piece ∧ [] = more := by simpa [Text.pieces, Text.split] using h
    rfl
  | cons c t ih =>
    obtain ⟨first, others, hpieces⟩ := List.exists_cons_of_ne_nil (Text.pieces_ne_nil t)
    rw [scan, ih hpieces]
    by_cases hc : c = '\n'
    · -- the open span is closed as it is, and the next one takes in the first piece of `t`
      rw [hc, Text.pieces_cons_lineFeed, List.cons.injEq] at h
      obtain ⟨rfl, rfl⟩ := h
      rw [if_pos hc, next, if_pos hc, hpieces, ofPieces]
      rfl
    · -- `c` and the first piece of `t` go to the same span
      rw [Text.pieces_cons_of_ne hc hpieces, List.cons.injEq] at h
      obtain ⟨rfl, rfl⟩ := h
      rw [if_neg hc, next, if_neg hc]
      simp only [List.length_cons, Text.bytes, Nat.add_assoc, Nat.add_comm 1]

/-- **Cutting a text and measuring its pieces gives the spans of one pass over it.** -/
theorem ofPieces_eq_scan (p : Position) (t : Text) :
    ofPieces p.line p.col p.byte t.pieces = scan (opened p) t := by
  obtain ⟨piece, more, hpieces⟩ := List.exists_cons_of_ne_nil (Text.pieces_ne_nil t)
  rw [scan_eq_cons hpieces, hpieces]
  rfl

/-- The span has the length of a line. -/
structure Fits (s : LineSpan) (line : Text) : Prop where
  le : s.startCol ≤ s.endCol
  length : s.length = line.length
  bytes : s.endByte = s.startByte + line.bytes

theorem forall₂_ofPieces (line col byte : ℕ) (ps : List Text) :
    List.Forall₂ Fits (ofPieces line col byte ps) ps := by
  induction ps generalizing line col byte with
  | nil => exact .nil
  | cons piece ps ih =>
    refine .cons ⟨Nat.le_add_right _ _, ?_, rfl⟩ (ih _ _ _)
    exact Nat.add_sub_cancel_left col piece.length

end LineSpan

/-! ## The spans of a location -/

namespace Location

/-- The spans of a location lead from its start to its stop, line by line. -/
structure LineByLine (l : Location) : Prop where
  /-- There is one span for each line. -/
  count : l.lines.length = l.text.count '\n' + 1
  /-- The lines are consecutive. -/
  numbers : l.lines.map LineSpan.line = List.range' l.start.line l.lines.length
  /-- The first span starts where the location does. -/
  first : l.lines.head?.map (fun s => (s.startCol, s.startByte)) = some (l.start.col, l.start.byte)
  /-- Each further one starts a line, one byte after the end of the span before. -/
  next : l.lines.IsChain fun a b => b.startCol = 0 ∧ b.startByte = a.endByte + 1
  /-- The last span stops where the location does. -/
  last : ∃ s, l.lines.getLast? = some s ∧ s.StopsAt l.stop
  /-- Each span has the length of its piece of the text. -/
  pieces : List.Forall₂ LineSpan.Fits l.lines (l.text.splitOn '\n')

theorem lines_eq_scan (l : Location) : l.lines = LineSpan.scan (.opened l.start) l.text :=
  LineSpan.ofPieces_eq_scan l.start l.text

/-- **The spans of a text lead from its start to its end,** wherever it starts. -/
theorem lineByLine_ofText (p : Position) (t : Text) : (ofText p t).LineByLine := by
  have hlines : (ofText p t).lines = LineSpan.scan (.opened p) t := lines_eq_scan _
  have hnumbers := LineSpan.map_line_scan (.opened p) t
  have hcount : (LineSpan.scan (.opened p) t).length = t.count '\n' + 1 := by
    rw [← List.length_map LineSpan.line, hnumbers, List.length_range']
  constructor
  case count => rw [hlines, hcount]; rfl
  case numbers => rw [hlines, hcount, hnumbers]; rfl
  case first => rw [hlines, LineSpan.head?_scan]; rfl
  case next => rw [hlines]; exact LineSpan.isChain_scan _ t
  case last => rw [hlines]; exact LineSpan.getLast?_scan (LineSpan.stopsAt_opened p) t
  case pieces => rw [← Text.pieces_eq_splitOn]; exact LineSpan.forall₂_ofPieces _ _ _ _

end Location

end Stencil
