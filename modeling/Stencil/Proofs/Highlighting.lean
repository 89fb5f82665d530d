import Stencil.Proofs.SourceMaps
import Stencil.Proofs.WellFormed
import Stencil.Proofs.Checked

/-!
# Semantic tokens cover the text once

A **cell** is the place of one character: its line and its column there. The tokens of a
template are compared with its text cell by cell.

* `LineSpan.cells_ofPieces`: the spans of a location have the cells of its characters, line
  feeds apart.
* `SemanticToken.cells_ofNodes`: the tokens of a tree have the cells of its highlighted pieces.
* `Piece.highlighted_of_mem`: every piece with a character that is not blank is highlighted.
* `parse_highlights`: **tokens come in order, each inside one line, and every character that is
  not blank lies in exactly one of them.**
-/

namespace Stencil

/-! ## Cells -/

/-- The place of one character. Columns count characters. -/
structure Cell where
  line : ℕ
  col : ℕ
deriving DecidableEq, Repr

namespace Cell

/-- Earlier by line, then by column. -/
def Before (a b : Cell) : Prop :=
  a.line < b.line ∨ a.line = b.line ∧ a.col < b.col

theorem Before.trans {a b c : Cell} (hab : a.Before b) (hbc : b.Before c) : a.Before c := by
  unfold Before at *
  omega

end Cell

def Position.cell (p : Position) : Cell :=
  ⟨p.line, p.col⟩

/-- Each character stands in a cell of its own. -/
theorem Position.cell_before_next (p : Position) (c : Char) : p.cell.Before (p.next c).cell := by
  unfold Cell.Before next cell
  by_cases hc : c = '\n'
  · left; simp [hc]
  · right; simp [hc]

namespace Text

/-- The cells of those characters of a text that are kept; the text starts at `p`. -/
def cells (keep : Char → Bool) (p : Position) : Text → List Cell
  | [] => []
  | c :: t => (if keep c then [p.cell] else []) ++ cells keep (p.next c) t

variable (keep : Char → Bool) (p : Position)

/-- The cells of two texts in a row. -/
theorem cells_append (t u : Text) : cells keep p (t ++ u) = cells keep p t ++ cells keep (p.after t) u := by
  induction t generalizing p with
  | nil => rfl
  | cons c t ih => simp [cells, ih]

variable {keep p}

theorem cells_eq_nil {t : Text} (h : ∀ c ∈ t, keep c = false) : cells keep p t = [] := by
  induction t generalizing p with
  | nil => rfl
  | cons c t ih =>
    rw [List.forall_mem_cons] at h
    simp [cells, h.1, ih h.2]

theorem cells_sublist {more : Char → Bool} (h : ∀ c, keep c = true → more c = true) (t : Text) :
    (cells keep p t).Sublist (cells more p t) := by
  induction t generalizing p with
  | nil => exact .slnil
  | cons c t ih =>
    rw [cells, cells]
    refine List.Sublist.append ?_ ih
    by_cases hc : keep c = true
    · rw [if_pos hc, if_pos (h c hc)]
    · rw [if_neg hc]
      exact List.nil_sublist _

/-- No character has a cell before the start of its text. -/
theorem cell_eq_or_before {t : Text} {x : Cell} (hx : x ∈ cells keep p t) : x = p.cell ∨ p.cell.Before x := by
  induction t generalizing p with
  | nil => cases hx
  | cons c t ih =>
    rw [cells, List.mem_append] at hx
    rcases hx with hx | hx
    · rw [List.mem_ite_nil_right, List.mem_singleton] at hx
      exact Or.inl hx.2
    · right
      have hnext := p.cell_before_next c
      rcases ih hx with rfl | hlater
      · exact hnext
      · exact hnext.trans hlater

/-- Characters have cells of their own, in the order of the text. -/
theorem cells_pairwise (t : Text) : (cells keep p t).Pairwise Cell.Before := by
  induction t generalizing p with
  | nil => exact .nil
  | cons c t ih =>
    rw [cells, List.pairwise_append]
    refine ⟨?_, ih, ?_⟩
    · by_cases hc : keep c = true <;> simp [hc]
    · intro x hx y hy
      rw [List.mem_ite_nil_right, List.mem_singleton] at hx
      obtain ⟨-, rfl⟩ := hx
      have hnext := p.cell_before_next c
      rcases cell_eq_or_before hy with rfl | hlater
      · exact hnext
      · exact hnext.trans hlater

/-- Every character that is kept has its cell. -/
theorem cell_mem_cells {t : Text} {c : Char} {i : ℕ} (hi : t[i]? = some c) (hc : keep c = true) :
    (t.positionAt i).cell ∈ cells keep {} t := by
  have hlt : i < t.length := (List.getElem?_eq_some_iff.1 hi).1
  have hsplit : t.take i ++ c :: t.drop (i + 1) = t := by
    have hget : t[i] = c := (List.getElem?_eq_some_iff.1 hi).2
    rw [← hget, List.getElem_cons_drop, List.take_append_drop]
  have hplace : ({} : Position).after (t.take i) = t.positionAt i := by
    have := after_eq_positionAt (t.take i) (c :: t.drop (i + 1))
    rwa [hsplit, List.length_take_of_le hlt.le] at this
  have hcells := cells_append keep {} (t.take i) (c :: t.drop (i + 1))
  rw [hsplit, hplace, cells, if_pos hc] at hcells
  rw [hcells]
  simp

end Text

/-! ## Spans of a line -/

namespace LineSpan

def cells (s : LineSpan) : List Cell :=
  (List.range' s.startCol s.length).map (Cell.mk s.line)

/-- A character that is not a line feed gives the open span one more cell. -/
theorem cells_next {s : LineSpan} (hle : s.startCol ≤ s.endCol) {c : Char} (hc : c ≠ '\n') :
    (s.next c).cells = s.cells ++ [⟨s.line, s.endCol⟩] := by
  have hlength : s.endCol + 1 - s.startCol = s.length + 1 := Nat.sub_add_comm hle
  have hend : s.startCol + s.length = s.endCol := Nat.add_sub_cancel' hle
  rw [next, if_neg hc]
  show (List.range' s.startCol (s.endCol + 1 - s.startCol)).map (Cell.mk s.line) = _
  rw [hlength, List.range'_1_concat, hend, List.map_append]
  rfl

/-- A pass over a text gives the cells of the open span, and then those of the text. -/
theorem cells_scan {s : LineSpan} {p : Position} (h : s.StopsAt p) (hle : s.startCol ≤ s.endCol) (t : Text) :
    (scan s t).flatMap cells = s.cells ++ t.cells (· != '\n') p := by
  induction t generalizing s p with
  | nil => simp [scan, Text.cells]
  | cons c t ih =>
    rw [scan, Text.cells]
    by_cases hc : c = '\n'
    · -- the span that is opened has no cell yet
      have hle' : (s.next c).startCol ≤ (s.next c).endCol := by simp [next, hc]
      have hnil : (s.next c).cells = [] := by simp [next, hc, cells, length]
      rw [if_pos hc, List.flatMap_cons, ih (h.next c) hle', hnil]
      simp [hc]
    · have hle' : (s.next c).startCol ≤ (s.next c).endCol := by simp [next, hc]; omega
      rw [if_neg hc, ih (h.next c) hle', cells_next hle hc]
      simp [hc, Position.cell, h.line, h.col]

/-- **The spans of a location have the cells of its characters,** line feeds apart. -/
theorem cells_ofPieces (p : Position) (t : Text) :
    (ofPieces p.line p.col p.byte t.pieces).flatMap cells = t.cells (· != '\n') p := by
  rw [ofPieces_eq_scan, cells_scan (stopsAt_opened p) le_rfl]
  simp [opened, cells, length]

/-- A span of a text from its very beginning lies on one of its lines. -/
theorem mem_ofPieces {line byte : ℕ} {ps : List Text} {s : LineSpan} (hs : s ∈ ofPieces line 0 byte ps) :
    ∃ i piece, ps[i]? = some piece ∧ s.line = line + i ∧ s.startCol = 0 ∧ s.length = piece.length := by
  induction ps generalizing line byte with
  | nil => cases hs
  | cons piece ps ih =>
    rw [ofPieces, List.mem_cons] at hs
    rcases hs with rfl | hs
    · exact ⟨0, piece, rfl, rfl, rfl, by simp [length]⟩
    · obtain ⟨i, q, hq, hline, hstart⟩ := ih hs
      exact ⟨i + 1, q, by simpa using hq, by omega, hstart⟩

end LineSpan

/-- The line spans of a location cover its characters, line feeds apart. -/
theorem Location.cells_lines (p : Position) (t : Text) :
    (ofText p t).lines.flatMap LineSpan.cells = t.cells (· != '\n') p :=
  LineSpan.cells_ofPieces p t

/-- A character that is not a line feed stands inside a line. -/
theorem Text.cell_inside {t : Text} {x : Cell} (hx : x ∈ t.cells (· != '\n') {}) :
    ∃ line, t.pieces[x.line]? = some line ∧ x.col < line.length := by
  rw [← LineSpan.cells_ofPieces, List.mem_flatMap] at hx
  obtain ⟨s, hs, hx⟩ := hx
  obtain ⟨i, line, hline, hi, hstart, hlength⟩ := LineSpan.mem_ofPieces hs
  obtain ⟨col, hcol, rfl⟩ := List.mem_map.1 hx
  rw [List.mem_range'_1] at hcol
  refine ⟨line, ?_, show col < line.length by omega⟩
  have hi' : s.line = i := by rw [hi]; exact Nat.zero_add i
  exact hi' ▸ hline

/-! ## Tokens -/

namespace SemanticToken

def cells (s : SemanticToken) : List Cell :=
  (List.range' s.startCol s.length).map (Cell.mk s.line)

/-- Whether the character at a position lies in the token. -/
def covers (s : SemanticToken) (p : Position) : Bool :=
  s.line == p.line && s.startCol ≤ p.col && p.col < s.startCol + s.length

theorem mem_cells {s : SemanticToken} {x : Cell} :
    x ∈ s.cells ↔ s.line = x.line ∧ s.startCol ≤ x.col ∧ x.col < s.startCol + s.length := by
  obtain ⟨line, col⟩ := x
  simp only [cells, List.mem_map, List.mem_range'_1, Cell.mk.injEq]
  constructor
  · rintro ⟨y, hy, rfl, rfl⟩
    exact ⟨rfl, hy⟩
  · rintro ⟨rfl, hcol⟩
    exact ⟨col, hcol, rfl, rfl⟩

/-- A token covers the positions of its cells. -/
theorem covers_iff {s : SemanticToken} {p : Position} : s.covers p = true ↔ p.cell ∈ s.cells := by
  rw [mem_cells]
  simp [covers, Position.cell, and_assoc]

theorem first_mem_cells {s : SemanticToken} (h : 0 < s.length) : ⟨s.line, s.startCol⟩ ∈ s.cells :=
  mem_cells.2 ⟨rfl, Nat.le_refl _, by simp only; omega⟩

theorem last_mem_cells {s : SemanticToken} (h : 0 < s.length) :
    ⟨s.line, s.startCol + s.length - 1⟩ ∈ s.cells :=
  mem_cells.2 ⟨rfl, by simp only; omega, by simp only; omega⟩

/-- Only spans with a character give tokens, so no cell is lost. -/
theorem cells_ofLocation (kind : TokenClass) (l : Location) :
    (ofLocation kind l).flatMap cells = l.lines.flatMap LineSpan.cells := by
  unfold ofLocation
  induction l.lines with
  | nil => rfl
  | cons s ss ih =>
    rw [List.flatMap_cons, ← ih]
    by_cases hs : s.isEmpty = true
    · have hnone : s.cells = [] := by
        have : s.startCol = s.endCol := by simpa [LineSpan.isEmpty] using hs
        simp [LineSpan.cells, LineSpan.length, this]
      rw [List.filter_cons_of_neg (by simp [hs]), hnone]; rfl
    · rw [List.filter_cons_of_pos (by simp [hs]), List.map_cons, List.flatMap_cons]; rfl

theorem length_pos_of_mem_ofLocation {kind : TokenClass} {l : Location} {s : SemanticToken}
    (hs : s ∈ ofLocation kind l) : 0 < s.length := by
  obtain ⟨span, hspan, rfl⟩ := List.mem_map.1 hs
  obtain ⟨hmem, hne⟩ := List.mem_filter.1 hspan
  have hle := LineSpan.startCol_le_endCol span hmem
  have hne : span.startCol ≠ span.endCol := by simpa [LineSpan.isEmpty] using hne
  show 0 < span.endCol - span.startCol
  omega

mutual

/-- No token is empty. -/
theorem length_pos_of_mem_ofNode : ∀ (inValue : Bool) (n : Node), ∀ s ∈ ofNode inValue n, 0 < s.length
  | inValue, .leaf k c l t, s, hs => by
    rw [ofNode] at hs
    split at hs
    · exact length_pos_of_mem_ofLocation hs
    · cases hs
  | inValue, .branch k cs t, s, hs => length_pos_of_mem_ofNodes _ cs s hs

theorem length_pos_of_mem_ofNodes : ∀ (inValue : Bool) (ns : List Node), ∀ s ∈ ofNodes inValue ns, 0 < s.length
  | _, [], s, hs => by cases hs
  | inValue, n :: ns, s, hs => by
    rw [ofNodes, List.mem_append] at hs
    rcases hs with hs | hs
    · exact length_pos_of_mem_ofNode inValue n s hs
    · exact length_pos_of_mem_ofNodes inValue ns s hs

end

end SemanticToken

/-! ## Pieces -/

/-- An attribute value changes the class of a leaf, and not whether it has one. -/
theorem TokenClass.isSome_ofKind? (inValue : Bool) (k : Kind) :
    (ofKind? inValue k).isSome = (ofKind? false k).isSome := by
  cases k <;> rfl

namespace Piece

/-- Whether tokens are made of a piece. -/
def isHighlighted : Piece → Bool
  | blank _ => false
  | leaf k _ _ => (TokenClass.ofKind? false k).isSome

def cells (q : Piece) : List Cell :=
  if q.isHighlighted then q.location.lines.flatMap LineSpan.cells else []

theorem cells_blanks (l : Option Location) : (Node.blankPieces l).flatMap cells = [] := by
  cases l <;> rfl

end Piece

namespace SemanticToken

mutual

/-- **The tokens of a node cover its pieces cell by cell**, by induction on the tree. -/
theorem cells_ofNode : ∀ (inValue : Bool) (n : Node),
    (ofNode inValue n).flatMap cells = n.pieces.flatMap Piece.cells
  | inValue, .leaf k c l t => by
    have hclass := TokenClass.isSome_ofKind? inValue k
    rw [ofNode, Node.pieces]
    simp only [List.flatMap_append, Piece.cells_blanks, List.nil_append, List.append_nil,
      List.flatMap_singleton, Piece.cells, Piece.isHighlighted, ← hclass]
    cases hkind : TokenClass.ofKind? inValue k with
    | none => rfl
    | some kind => exact cells_ofLocation kind l
  | inValue, .branch k cs t => by
    rw [ofNode, Node.pieces]
    simp only [List.flatMap_append, Piece.cells_blanks, List.nil_append, List.append_nil]
    exact cells_ofNodes _ cs

/-- **The tokens of a tree have the cells of its highlighted pieces.** -/
theorem cells_ofNodes : ∀ (inValue : Bool) (ns : List Node),
    (ofNodes inValue ns).flatMap cells = (Node.piecesAll ns).flatMap Piece.cells
  | _, [] => rfl
  | inValue, n :: ns => by
    rw [ofNodes, List.flatMap_append, cells_ofNode inValue n, cells_ofNodes inValue ns, Node.piecesAll_cons,
      List.flatMap_append]

end

end SemanticToken

namespace Piece

variable {qs : List Piece} {p : Position} {ts : List Text}

/-- Pieces laid edge to edge have no cell but those of the characters of the text. -/
theorem cells_sublist (h : qs.map location = Location.tile p ts) :
    (qs.flatMap cells).Sublist (Text.cells (· != '\n') p ts.flatten) := by
  induction ts generalizing qs p with
  | nil =>
    obtain rfl := List.map_eq_nil_iff.1 h
    exact .slnil
  | cons t ts ih =>
    obtain ⟨q, qs, rfl, hq, hqs⟩ := List.map_eq_cons_iff.1 h
    rw [List.flatMap_cons, List.flatten_cons, Text.cells_append]
    refine List.Sublist.append ?_ (ih hqs)
    unfold cells
    by_cases hlit : q.isHighlighted = true
    · rw [if_pos hlit, hq, Location.cells_lines]
    · rw [if_neg hlit]
      exact List.nil_sublist _

/-- Pieces laid edge to edge have the cells of all characters that are not blank, as long as the
pieces without tokens are blank. -/
theorem sublist_cells (h : qs.map location = Location.tile p ts)
    (hqs : ∀ q ∈ qs, q.isHighlighted = true ∨ q.location.text.allBlank = true) :
    (Text.cells (fun c => !Text.isBlank c) p ts.flatten).Sublist (qs.flatMap cells) := by
  induction ts generalizing qs p with
  | nil => exact List.nil_sublist _
  | cons t ts ih =>
    obtain ⟨q, qs, rfl, hq, htile⟩ := List.map_eq_cons_iff.1 h
    rw [List.forall_mem_cons] at hqs
    rw [List.flatMap_cons, List.flatten_cons, Text.cells_append]
    refine List.Sublist.append ?_ (ih htile hqs.2)
    unfold cells
    rcases hqs.1 with hlit | hblank
    · rw [if_pos hlit, hq, Location.cells_lines]
      apply Text.cells_sublist
      intro c hc
      -- a line feed is blank
      have hne : c ≠ '\n' := by rintro rfl; simp [Text.isBlank] at hc
      simpa using hne
    · rw [hq, Location.text_ofText, Text.allBlank, List.all_eq_true] at hblank
      rw [Text.cells_eq_nil fun c hc => by simp [hblank c hc]]
      exact List.nil_sublist _

end Piece

/-! ## Highlighted pieces of a tree -/

namespace Kind

/-- Whether a branch of the first kind may have a child of the second kind. -/
def admits : Kind → Kind → Bool
  | document, x => x.isContent
  | htmlTag, x | scriptTag, x | styleTag, x => x == htmlStartTag || x.isContent || x == rawText
  | htmlStartTag, x => [bracket, htmlTagName, htmlAttributes].contains x
  | htmlEndTag, x => [bracket, htmlTagName].contains x
  | htmlAttributes, x => x == htmlAttribute || x.isEmbedded
  | htmlAttribute, x => [attributeName, equals, quote, attributeValue].contains x
  | attributeValue, x => x.isEmbedded
  | comment, x => [commentStart, commentContent, commentEnd].contains x
  | cdata, x => [cdataStart, cdataContent, cdataEnd].contains x
  | codeExpression, x => [transition, codeValue].contains x
  | codeBlock, x => x == transition || x == brace || x.isBodyPart
  | codeBrace, x => x == brace || x.isBodyPart
  | _, _ => false

variable {k x : Kind} {ks : List Kind}

/-- Where the shape allows a kind, the tokens know it. -/
theorem Holds.admits (h : k.Holds ks) (hx : x ∈ ks) : k.admits x = true := by
  revert h
  cases k with
  | document | attributeValue => exact fun h => h x hx
  | htmlAttributes =>
    intro h
    simpa [Kind.admits] using h x hx
  | htmlTag | scriptTag | styleTag =>
    rintro ⟨rest, rfl, hrest⟩
    rcases List.mem_cons.1 hx with rfl | hx
    · rfl
    · rcases hrest x hx with hcontent | rfl
      · simp [Kind.admits, hcontent]
      · rfl
  | htmlAttribute =>
    rintro ⟨rest, rfl, hrest⟩
    rcases List.mem_cons.1 hx with rfl | hx
    · rfl
    · rcases hrest x hx with rfl | rfl | rfl <;> rfl
  | codeBlock | codeBrace =>
    rintro ⟨parts, rfl, hparts⟩
    simp only [List.cons_append, List.mem_cons, List.mem_append, List.not_mem_nil, or_false] at hx
    have := hparts x
    simp only [Kind.admits, Bool.or_eq_true, beq_iff_eq]
    tauto
  | htmlStartTag | htmlEndTag | comment | cdata | codeExpression =>
    intro h
    rw [Holds] at h
    subst h
    simp only [List.mem_cons, List.not_mem_nil, or_false] at hx
    rcases hx with rfl | rfl | rfl | rfl <;> rfl
  | _ => exact False.elim

/-- The end of the file stands below no other node. -/
theorem Holds.endOfFile_notMem (h : k.Holds ks) : .endOfFile ∉ ks := by
  intro hmem
  have := h.admits hmem
  revert this
  cases k <;> decide

end Kind

namespace Node

variable {tr : Char}

/-- The table of classes misses no kind of leaf that the grammar makes, but for blanks and for the end
of the file. -/
theorem LeafShaped.highlighted {k : Kind} {l : Location} {c : Leaf} (h : LeafShaped tr k l c)
    (hk : k ≠ .endOfFile) : (Piece.leaf k c l).isHighlighted = true ∨ (Piece.leaf k c l).isBlank = true := by
  have hkind : k = .escapedTransition ∨ k.isPlain = true ∨ k = .brace ∨ k = .codeValue ∨ k.canMiss = true ∨
      k = .transition := by
    cases c with
    | token v =>
      by_cases hesc : k = .escapedTransition
      · exact Or.inl hesc
      · rw [LeafShaped, if_neg hesc] at h
        tauto
    | missing => exact Or.inr (Or.inr (Or.inr (Or.inr (Or.inl h))))
    | marker =>
      rcases h with h | h
      · simp [h]
      · exact absurd h hk
  unfold Piece.isHighlighted Piece.isBlank
  revert hkind
  cases k <;> simp [Kind.isPlain, Kind.canMiss, TokenClass.ofKind?]

theorem isBlank_of_mem_blankPieces {l : Option Location} {q : Piece} (hq : q ∈ blankPieces l) :
    q.isBlank = true := by
  obtain ⟨l, -, rfl⟩ := List.mem_map.1 hq
  rfl

mutual

theorem Shaped.highlighted : ∀ n : Node, n.Shaped tr → n.kind ≠ .endOfFile →
    ∀ q ∈ n.pieces, q.isHighlighted = true ∨ q.isBlank = true
  | leaf k c l t, h, hk, q, hq => by
    rw [pieces, List.mem_append, List.mem_append, List.mem_singleton] at hq
    rcases hq with (hq | rfl) | hq
    · exact Or.inr (isBlank_of_mem_blankPieces hq)
    · exact h.1.highlighted hk
    · exact Or.inr (isBlank_of_mem_blankPieces hq)
  | branch k cs t, h, _, q, hq => by
    rw [pieces, List.mem_append, List.mem_append] at hq
    rcases hq with (hq | hq) | hq
    · exact Or.inr (isBlank_of_mem_blankPieces hq)
    · refine ShapedAll.highlighted cs h.2.2.2 (fun hmem => ?_) q hq
      exact h.1.endOfFile_notMem hmem
    · exact Or.inr (isBlank_of_mem_blankPieces hq)

/-- **The pieces of a tree without tokens are blank.** -/
theorem ShapedAll.highlighted : ∀ ns : List Node, ShapedAll tr ns → .endOfFile ∉ ns.map kind →
    ∀ q ∈ piecesAll ns, q.isHighlighted = true ∨ q.isBlank = true
  | [], _, _, q, hq => by cases hq
  | n :: ns, h, hk, q, hq => by
    rw [piecesAll_cons, List.mem_append] at hq
    rw [List.map_cons, List.mem_cons, not_or] at hk
    rcases hq with hq | hq
    · exact Shaped.highlighted n h.1 (Ne.symm hk.1) q hq
    · exact ShapedAll.highlighted ns h.2 hk.2 q hq

end

end Node

/-- Every piece of a template that has a character which is not blank is highlighted. -/
theorem Piece.highlighted_of_mem (options : ParseOptions) (t : Text) :
    ∀ q ∈ Node.piecesAll [(Template.document options t).1,
        .marker .endOfFile (.empty (Template.document options t).2.pos)],
      q.isHighlighted = true ∨ q.location.text.allBlank = true := by
  intro q hq
  have hsound := Template.sound_piecesAll options t q hq
  have hshaped := shaped_template options t
  rw [Node.piecesAll_cons, List.mem_append] at hq
  rcases hq with hq | hq
  · have hkind : (Template.document options t).1.kind ≠ .endOfFile := by
      rw [kind_document]
      decide
    rcases hshaped.1.highlighted _ hkind q hq with hlit | hblank
    · exact Or.inl hlit
    · exact Or.inr (hsound.blank hblank)
  · -- nothing is left at the end of the file
    obtain rfl : q = .leaf .endOfFile .marker (.empty (Template.document options t).2.pos) := by simpa using hq
    exact Or.inr rfl

/-! ## Tokens of a template -/

/-- Where the holders of a property exclude each other in a list, one of them is the only one. -/
theorem filter_eq_singleton {α : Type} {holds : α → Bool} {l : List α} {a : α}
    (h : l.Pairwise fun x y => ¬ (holds x = true ∧ holds y = true)) (ha : a ∈ l) (hholds : holds a = true) :
    l.filter holds = [a] := by
  induction l with
  | nil => cases ha
  | cons x l ih =>
    obtain ⟨hx, hl⟩ := List.pairwise_cons.1 h
    rcases List.mem_cons.1 ha with rfl | hmem
    · rw [List.filter_cons_of_pos hholds, List.filter_eq_nil_iff.2]
      intro y hy hy'
      exact hx y hy ⟨hholds, hy'⟩
    · have hnot : ¬ holds x = true := fun hx' => hx a hmem ⟨hx', hholds⟩
      rw [List.filter_cons_of_neg hnot, ih hl hmem]

namespace SemanticToken

/-- The first token ends before the second one starts: on an earlier line, or on the same line at the start
of the second one or before it. -/
def Precedes (a b : SemanticToken) : Prop :=
  a.line < b.line ∨ a.line = b.line ∧ a.startCol < b.startCol ∧ a.startCol + a.length ≤ b.startCol

/-- No position is covered by two tokens of which one precedes the other. -/
theorem Precedes.not_both {a b : SemanticToken} (h : a.Precedes b) (p : Position) :
    ¬ (a.covers p = true ∧ b.covers p = true) := by
  rintro ⟨ha, hb⟩
  rw [covers_iff, mem_cells] at ha hb
  unfold Precedes at h
  omega

/-- Tokens whose cells are in order are in order. -/
theorem precedes_of_cells {tokens : List SemanticToken} (hpos : ∀ s ∈ tokens, 0 < s.length)
    (h : (tokens.flatMap cells).Pairwise Cell.Before) : tokens.Pairwise Precedes := by
  refine (List.pairwise_flatMap.1 h).2.imp_of_mem ?_
  intro a b ha hb hcells
  -- the last cell of the one stands before the first cell of the other
  have hbefore := hcells _ (last_mem_cells (hpos a ha)) _ (first_mem_cells (hpos b hb))
  have := hpos a ha
  unfold Cell.Before at hbefore
  unfold Precedes
  simp only at hbefore
  omega

end SemanticToken

/-- **Semantic tokens cover the text exactly once.** The tokens of a template have a character each and lie
inside one line of the text. They come one after the other without an overlap, and every character that is
not blank lies in exactly one of them. -/
theorem parse_highlights (options : ParseOptions) (t : Text)
    (h : options.language ∈ Registry.standard.languages) :
    ∃ r, Template.parse options t = .ok r ∧
      (∀ s ∈ SemanticToken.ofNodes false r.nodes, 0 < s.length ∧
        ∃ line, t.pieces[s.line]? = some line ∧ s.startCol + s.length ≤ line.length) ∧
      (SemanticToken.ofNodes false r.nodes).Pairwise SemanticToken.Precedes ∧
      ∀ i c, t[i]? = some c → Text.isBlank c = false →
        (SemanticToken.ofNodes false r.nodes).countP (·.covers (t.positionAt i)) = 1 := by
  refine ⟨_, parse_eq_document t h, ?_⟩
  obtain ⟨ts, htile, rfl⟩ := @template_tile options t
  generalize hnodes : [(Template.document options ts.flatten).1, _] = nodes at *
  have hcells := SemanticToken.cells_ofNodes false nodes
  have hwithin := hcells ▸ Piece.cells_sublist htile
  have hpos := SemanticToken.length_pos_of_mem_ofNodes false nodes
  have hprecedes := SemanticToken.precedes_of_cells hpos ((Text.cells_pairwise _).sublist hwithin)
  refine ⟨fun s hs => ⟨hpos s hs, ?_⟩, hprecedes, ?_⟩
  · -- the last character of the token stands inside the line
    have hlast := List.mem_flatMap_of_mem hs (SemanticToken.last_mem_cells (hpos s hs))
    obtain ⟨line, hline, hcol⟩ := Text.cell_inside (hwithin.subset hlast)
    have := hpos s hs
    exact ⟨line, hline, by simp only at hcol; omega⟩
  · intro i c hi hc
    have hblank := Piece.highlighted_of_mem options ts.flatten
    rw [hnodes] at hblank
    have hcell : (Text.positionAt ts.flatten i).cell ∈ (SemanticToken.ofNodes false nodes).flatMap
        SemanticToken.cells := by
      rw [hcells]
      exact (Piece.sublist_cells htile hblank).subset (Text.cell_mem_cells hi (by simp [hc]))
    obtain ⟨s, hs, hmem⟩ := List.mem_flatMap.1 hcell
    have honly := filter_eq_singleton (hprecedes.imp fun hab => hab.not_both _) hs
      (SemanticToken.covers_iff.2 hmem)
    rw [List.countP_eq_length_filter, honly]
    rfl

/-- A comment over two lines, and a tag that is cut off: the `z` on the second line is highlighted once. -/
theorem parse_highlights_cut_off :
    ({} : ParseOptions).language ∈ Registry.standard.languages ∧
      ∃ r, Template.parse {} ['<', '!', '-', '-', 'y', '\n', ' ', 'z', '-', '-', '>', '<', 'p'] = .ok r ∧
        (SemanticToken.ofNodes false r.nodes).Pairwise SemanticToken.Precedes ∧
        (SemanticToken.ofNodes false r.nodes).countP (·.covers ⟨7, 7, 1, 1⟩) = 1 := by
  obtain ⟨r, hparse, -, hprecedes, hcovered⟩ := parse_highlights {}
    ['<', '!', '-', '-', 'y', '\n', ' ', 'z', '-', '-', '>', '<', 'p'] (by decide)
  exact ⟨by decide, r, hparse, hprecedes, hcovered 7 'z' rfl rfl⟩

end Stencil
