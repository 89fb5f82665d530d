import Stencil.Editor.LanguageRegion
import Stencil.Proofs.Highlighting

/-!
# Language regions partition the template

A **parented** piece is a piece of a template with the kind of the node that it stands in. Its
language is read off these two alone (`Piece.language?`), while a walk through the tree takes it
from all the nodes that it is inside of.

* `Trace.rawPlaced`: raw text stands in scripts and styles only.
* `LanguagePiece.ofNodes_eq`: the walk gives every piece its language.
* `LanguageRegion.spread_add`, `LanguageRegion.spread_ofPieces`: **step and run.** Regions spread out
  to their offsets are the pieces spread out to theirs.
* `RegionWalk.visit_walkAll`: a walk with a stack of the nodes around collects these regions.
* `parse_regions`: **the regions of a template are in order, no two that touch have the same
  language, and every character lies in one region of its language or, if it has none, in no region.**
-/

namespace Stencil

/-! ## Raw text -/

namespace Node

mutual

/-- No element but a script or a style has raw text in it. -/
def RawPlaced : Node → Prop
  | leaf _ _ _ _ => True
  | branch k cs _ => (k = .htmlTag → .rawText ∉ cs.map kind) ∧ RawPlacedAll cs

def RawPlacedAll : List Node → Prop
  | [] => True
  | n :: ns => RawPlaced n ∧ RawPlacedAll ns

end

/-- Nodes in a row are placed one by one. -/
theorem rawPlacedAll_iff {ns : List Node} : RawPlacedAll ns ↔ ∀ n ∈ ns, n.RawPlaced := by
  induction ns with
  | nil => simp [RawPlacedAll]
  | cons n ns ih => simp [RawPlacedAll, ih]

variable {k : Kind} {ns : List Node} {t : Trivia}

theorem rawPlaced_branch (hk : k ≠ .htmlTag) (h : ∀ n ∈ ns, n.RawPlaced) : (branch k ns t).RawPlaced :=
  ⟨fun heq => absurd heq hk, rawPlacedAll_iff.2 h⟩

theorem RawPlaced.withTrivia {n : Node} (h : n.RawPlaced) (t : Trivia) : (n.withTrivia t).RawPlaced := by
  cases n with
  | leaf => trivial
  | branch => exact h

/-- An element has its raw text in its place if it is a script or a style, or has none. -/
theorem rawPlaced_element {o : Opening} (htag : o.tag.RawPlaced) (hkind : o.tag.kind = .htmlStartTag)
    (hns : ∀ n ∈ ns, n.RawPlaced) (hraw : o.kind = .htmlTag → ∀ n ∈ ns, n.kind ≠ .rawText) :
    (ofChildren o.kind (o.tag :: ns)).RawPlaced := by
  refine ⟨fun hk hmem => ?_, rawPlacedAll_iff.2 (List.forall_mem_cons.2 ⟨htag, hns⟩)⟩
  rw [List.map_cons, List.mem_cons, hkind] at hmem
  rcases hmem with hmem | hmem
  · cases hmem
  · obtain ⟨n, hn, hkind⟩ := List.mem_map.1 hmem
    exact hraw hk n hn hkind

end Node

namespace Parse

/-- A name of raw text makes a script or a style of its element. -/
theorem Opening.kind_ne_htmlTag {o : Opening} {name : Text} (hname : o.name = some name)
    (hraw : Html.isRawText name = true) : o.kind ≠ .htmlTag := by
  unfold Opening.kind
  rw [hname]
  rcases (Html.isRawText_iff name).1 hraw with hscript | hstyle
  · simp [hscript]
  · by_cases hscript : Html.isScript name = true
    · simp [hscript]
    · simp [hscript, hstyle]

/-- Only a script and a style have raw text inside. -/
theorem Inside.rawText {o : Opening} {name : Text} {c d : Context} {ns : List Node} (h : Inside name c ns d)
    (hname : o.contentName? = some name) (hk : o.kind = .htmlTag) : ∀ n ∈ ns, n.kind ≠ .rawText := by
  cases h with
  | content _ hns =>
    intro n hn hkind
    have hcontent := hns n hn
    rw [hkind] at hcontent
    cases hcontent
  | raw hraw =>
    exact absurd hk (Opening.kind_ne_htmlTag (Option.filter_eq_some_iff.1 hname).1 hraw)

end Parse

open Node

/-- **Raw text stands in scripts and styles only.** -/
theorem Trace.rawPlaced {b : Bool} {c d : Context} {ns : List Node} {w : ℤ} (h : Trace b c ns w d) :
    ∀ n ∈ ns, n.RawPlaced := by
  induction h with
  | nil | silent => simp
  | append _ _ ih ih' => exact List.forall_mem_append.2 ⟨ih, ih'⟩
  | le _ _ ih | loosen _ ih | repeated _ _ _ _ _ ih => exact ih
  | text => exact List.forall_mem_singleton.2 trivial
  | leaf h => cases h <;> exact List.forall_mem_singleton.2 trivial
  | lead _ _ _ _ ih => exact List.forall_mem_singleton.2 ((ih _ (.head _)).withTrivia _)
  | frame _ hframes ih =>
    have hk := hframes.frame
    exact List.forall_mem_singleton.2 (rawPlaced_branch (by rintro rfl; cases hk) ih)
  | value _ _ ih => exact List.forall_mem_singleton.2 (rawPlaced_branch (by decide) ih)
  | @region _ d e R _ y stop _ hR _ _ _ _ hstops ih =>
    have hk : R.kind ≠ .htmlTag := by rcases hR with rfl | rfl <;> decide
    have hstop : stop.RawPlaced := by cases hstops <;> trivial
    refine List.forall_mem_singleton.2 (rawPlaced_branch hk ?_)
    simpa [List.forall_mem_cons, hstop] using ih
  | orphan _ _ _ ih | flattenedEnd _ _ _ _ ih =>
    exact List.forall_mem_singleton.2 (rawPlaced_branch (by decide) ih)
  | empty _ hshows _ ih =>
    exact List.forall_mem_singleton.2 (rawPlaced_element (ih _ (.head _)) hshows.kind (by simp) (by simp))
  | ended _ hshows hname _ hinside _ _ _ ihTag ih ihEnd =>
    have hend := rawPlaced_branch (k := .htmlEndTag) (t := {}) (by decide) ihEnd
    refine List.forall_mem_singleton.2 (rawPlaced_element (ihTag _ (.head _)) hshows.kind ?_ fun hk => ?_)
    · exact List.forall_mem_append.2 ⟨ih, List.forall_mem_singleton.2 hend⟩
    · exact List.forall_mem_append.2 ⟨hinside.rawText hname hk, List.forall_mem_singleton.2 nofun⟩
  | unended _ hshows hname _ hinside _ ihTag ih =>
    exact List.forall_mem_singleton.2
      (rawPlaced_element (ihTag _ (.head _)) hshows.kind ih (hinside.rawText hname))
  | flattened _ hshows _ _ ih =>
    exact List.forall_mem_singleton.2 (rawPlaced_element (ih _ (.head _)) hshows.kind (by simp) (by simp))

/-- **In a document raw text stands in scripts and styles only.** -/
theorem document_rawPlaced (options : ParseOptions) (t : Text) : (Template.document options t).1.RawPlaced :=
  (Template.document_traced options t).rawPlaced _ (.head _)

/-! ## Pieces and what they stand in -/

/-- The language of a piece in a node of kind `parent`. Transitions and the braces of a code block have
none. -/
def Piece.language? (parent : Option Kind) : Piece → Option Language
  | .leaf .transition _ _ | .leaf .escapedTransition _ _ => none
  | .leaf .codeValue _ _ => some .javascript
  | .leaf .brace _ _ =>
    if parent = some .codeBlock then none
    else if parent = some .codeBrace then some .javascript
    else some .html
  | .leaf .rawText _ _ =>
    if parent = some .styleTag then some .css
    else if parent = some .scriptTag then some .javascript
    else some .html
  | _ => some .html

/-- A piece of a template and the kind of the node that it stands in. -/
structure Parented where
  parent : Option Kind
  piece : Piece
deriving DecidableEq, Repr

def Parented.location (x : Parented) : Location :=
  x.piece.location

/-- The piece in its language, if it has one. -/
def Parented.spoken? (x : Parented) : Option LanguagePiece :=
  (x.piece.language? x.parent).map (⟨·, x.location⟩)

namespace Node

mutual

/-- The pieces of a node that stands in one of kind `parent`. -/
def parented (parent : Option Kind) : Node → List Parented
  | leaf k c l t => (blankPieces t.lead ++ [Piece.leaf k c l] ++ blankPieces t.trail).map (⟨parent, ·⟩)
  | branch k cs t => (blankPieces t.lead).map (⟨parent, ·⟩) ++ parentedAll (some k) cs ++
      (blankPieces t.trail).map (⟨parent, ·⟩)

def parentedAll (parent : Option Kind) : List Node → List Parented
  | [] => []
  | n :: ns => parented parent n ++ parentedAll parent ns

end

mutual

/-- A piece is told together with its parent. -/
theorem map_piece_parented : ∀ (parent : Option Kind) (n : Node), (n.parented parent).map Parented.piece = n.pieces
  | parent, leaf k c l t => by simp [parented, pieces, Function.comp_def]
  | parent, branch k cs t => by
    simp [parented, pieces, map_piece_parentedAll (some k) cs, Function.comp_def]

theorem map_piece_parentedAll : ∀ (parent : Option Kind) (ns : List Node),
    (parentedAll parent ns).map Parented.piece = piecesAll ns
  | _, [] => rfl
  | parent, n :: ns => by
    rw [parentedAll, List.map_append, map_piece_parented parent n, map_piece_parentedAll parent ns, piecesAll_cons]

end

end Node

namespace Surroundings

/-- A node of kind `k` may stand here: blanks have no other language than that of the template, raw
text is in a script or a style, and braces are those of code. -/
structure Suits (s : Surroundings) (k : Kind) : Prop where
  blanks : k.takesBlanks = true → s.blankLanguage = .html
  rawText : k = .rawText → s.element = s.parent ∧ (s.parent = some .scriptTag ∨ s.parent = some .styleTag)
  brace : k = .brace → s.parent = some .codeBlock ∨ s.parent = some .codeBrace

/-- What a node admits suits its surroundings. -/
theorem suits_inside (s : Surroundings) {k x : Kind} (hx : k.admits x = true)
    (hraw : k = .htmlTag → x ≠ .rawText) : (s.inside k).Suits x where
  blanks htakes := by
    have hk : k ≠ .codeBlock ∧ k ≠ .codeBrace := by
      constructor
      all_goals
        rintro rfl
        revert hx htakes
        cases x <;> decide
    simp [blankLanguage, inside, hk.1, hk.2]
  rawText heq := by
    subst heq
    revert hx hraw
    cases k with
    | scriptTag => exact fun _ _ => ⟨rfl, Or.inl rfl⟩
    | styleTag => exact fun _ _ => ⟨rfl, Or.inr rfl⟩
    | htmlTag => exact fun _ hraw => absurd rfl (hraw rfl)
    | _ => intro hx; cases hx
  brace heq := by
    subst heq
    revert hx
    cases k with
    | codeBlock => exact fun _ => Or.inl rfl
    | codeBrace => exact fun _ => Or.inr rfl
    | _ => intro hx; cases hx

/-- Where the kind suits, the surroundings tell the language of a leaf by its parent. -/
theorem Suits.leafLanguage? {s : Surroundings} {k : Kind} (h : s.Suits k) (c : Leaf) (l : Location) :
    s.leafLanguage? k = (Piece.leaf k c l).language? s.parent := by
  cases k with
  | rawText =>
    obtain ⟨helement, hparent⟩ := h.rawText rfl
    rcases hparent with hparent | hparent <;> simp [Surroundings.leafLanguage?, Piece.language?, helement, hparent]
  | brace =>
    rcases h.brace rfl with hparent | hparent <;> simp [Surroundings.leafLanguage?, Piece.language?, hparent]
  | _ => rfl

end Surroundings

namespace LanguagePiece

theorem ofBlanks_eq {s : Surroundings} (h : s.blankLanguage = .html) (l : Option Location) :
    ofBlanks s l = ((Node.blankPieces l).map (⟨s.parent, ·⟩)).filterMap Parented.spoken? := by
  cases l with
  | none => rfl
  | some l => simp [ofBlanks, h, Parented.spoken?, Piece.language?, Parented.location]

theorem ofBlanks_trivia {s : Surroundings} {k : Kind} {t : Trivia} (h : s.Suits k)
    (ht : t = {} ∨ k.takesBlanks = true) :
    ofBlanks s t.lead = ((Node.blankPieces t.lead).map (⟨s.parent, ·⟩)).filterMap Parented.spoken? ∧
      ofBlanks s t.trail = ((Node.blankPieces t.trail).map (⟨s.parent, ·⟩)).filterMap Parented.spoken? := by
  rcases ht with rfl | htakes
  · exact ⟨rfl, rfl⟩
  · exact ⟨ofBlanks_eq (h.blanks htakes) _, ofBlanks_eq (h.blanks htakes) _⟩

mutual

/-- **The pieces of languages are those that speak one**, by induction on the tree. -/
theorem ofNode_eq : ∀ (s : Surroundings) (n : Node), n.Shaped tr → n.RawPlaced → s.Suits n.kind →
    ofNode s n = (n.parented s.parent).filterMap Parented.spoken?
  | s, .leaf k c l t, hshaped, _, hs => by
    obtain ⟨hlead, htrail⟩ := ofBlanks_trivia hs hshaped.2
    have hleaf : s.leafLanguage? k = (Piece.leaf k c l).language? s.parent := hs.leafLanguage? c l
    rw [ofNode, Node.parented, hlead, htrail, hleaf]
    simp only [List.map_append, List.filterMap_append]
    congr 2
    cases hlanguage : (Piece.leaf k c l).language? s.parent <;>
      simp [Parented.spoken?, Parented.location, hlanguage]
  | s, .branch k cs t, hshaped, hraw, hs => by
    obtain ⟨hlead, htrail⟩ := ofBlanks_trivia hs hshaped.2.1
    have hchildren : ∀ m ∈ cs, (s.inside k).Suits m.kind := by
      intro m hm
      have hmem := List.mem_map_of_mem (f := Node.kind) hm
      apply Surroundings.suits_inside s (hshaped.1.admits hmem)
      intro hk hkind
      exact hraw.1 hk (hkind ▸ hmem)
    have hcs := ofNodes_eq (s.inside k) cs hshaped.2.2.2 hraw.2 hchildren
    rw [ofNode, Node.parented, hlead, htrail, hcs]
    simp only [List.filterMap_append, Surroundings.inside]

/-- **The walk gives every piece its language.** -/
theorem ofNodes_eq : ∀ (s : Surroundings) (ns : List Node), Node.ShapedAll tr ns → Node.RawPlacedAll ns →
    (∀ n ∈ ns, s.Suits n.kind) → ofNodes s ns = (Node.parentedAll s.parent ns).filterMap Parented.spoken?
  | _, [], _, _, _ => rfl
  | s, n :: ns, hshaped, hraw, hs => by
    rw [List.forall_mem_cons] at hs
    rw [ofNodes, Node.parentedAll, List.filterMap_append, ofNode_eq s n hshaped.1 hraw.1 hs.1,
      ofNodes_eq s ns hshaped.2 hraw.2 hs.2]

end

end LanguagePiece

/-! ## Walks with the nodes around -/

/-- What stands around a node below nodes of these kinds, the innermost first. -/
def Surroundings.ofParents (parents : List Kind) : Surroundings :=
  ⟨parents.head?, parents.find? Kind.isElement⟩

theorem Surroundings.ofParents_cons (k : Kind) (parents : List Kind) :
    ofParents (k :: parents) = (ofParents parents).inside k := by
  unfold ofParents inside
  by_cases hk : k.isElement = true
  · simp [List.find?_cons_of_pos hk, hk]
  · simp [List.find?_cons_of_neg hk, hk]

/-- A walk that collects regions: the kinds of the nodes that it is inside of, the innermost first, and
the regions so far, the latest first. -/
structure RegionWalk where
  parents : List Kind := []
  regions : List LanguageRegion := []
deriving DecidableEq, Repr

namespace RegionWalk

/-- The walk meets one more thing. -/
def visit (w : RegionWalk) : Visit → RegionWalk
  | .trivia l => { w with
      regions := LanguageRegion.add w.regions ⟨(Surroundings.ofParents w.parents).blankLanguage, l⟩ }
  | .enter n =>
    ⟨n.kind :: w.parents,
      match (Surroundings.ofParents w.parents).leafLanguage? n.kind, n.location? with
      | some language, some l => LanguageRegion.add w.regions ⟨language, l⟩
      | _, _ => w.regions⟩
  | .leave _ => { w with parents := w.parents.tail }

theorem visit_blanks (w : RegionWalk) (l : Option Location) : (Node.blankVisits l).foldl visit w =
    { w with regions := (LanguagePiece.ofBlanks (.ofParents w.parents) l).foldl LanguageRegion.add w.regions } := by
  cases l <;> rfl

mutual

/-- **A walk adds the pieces of its nodes in order.** -/
theorem visit_walk : ∀ (n : Node) (w : RegionWalk), (n.walk fun _ => false).foldl visit w =
    { w with regions := (LanguagePiece.ofNode (.ofParents w.parents) n).foldl LanguageRegion.add w.regions }
  | .leaf k c l t, w => by
    rw [Node.walk, LanguagePiece.ofNode]
    simp only [List.foldl_append, visit_blanks, List.foldl_cons, List.foldl_nil, visit, Node.kind,
      Node.location?, List.tail_cons]
    cases (Surroundings.ofParents w.parents).leafLanguage? k <;> rfl
  | .branch k cs t, w => by
    rw [Node.walk, LanguagePiece.ofNode]
    -- a branch has no location of its own: it only stands around what is below it
    simp only [List.foldl_append, visit_blanks, List.foldl_cons, List.foldl_nil, visit, Node.kind,
      Node.location?, Bool.false_eq_true, if_false, visit_walkAll cs, Surroundings.ofParents_cons, List.tail_cons]
    cases (Surroundings.ofParents w.parents).leafLanguage? k <;> rfl

/-- **A walk with the nodes around at hand collects the regions.** -/
theorem visit_walkAll : ∀ (ns : List Node) (w : RegionWalk), (Node.walkAll (fun _ => false) ns).foldl visit w =
    { w with regions := (LanguagePiece.ofNodes (.ofParents w.parents) ns).foldl LanguageRegion.add w.regions }
  | [], _ => rfl
  | n :: ns, w => by
    rw [Node.walkAll, LanguagePiece.ofNodes, List.foldl_append, List.foldl_append, visit_walk n, visit_walkAll ns]

end

end RegionWalk

/-! ## Regions -/

/-- The region lies in the text: its ends are true positions there, and it has a character. -/
structure LanguageRegion.Lies (t : Text) (r : LanguageRegion) : Prop where
  start : r.start = t.positionAt r.start.offset
  stop : r.stop = t.positionAt r.stop.offset
  nonempty : r.start.offset < r.stop.offset
  inside : r.stop.offset ≤ t.length

namespace LanguageRegion

/-- The region of a single piece. -/
def ofPiece (p : LanguagePiece) : LanguageRegion :=
  ⟨p.language, p.location.start, p.location.stop⟩

/-- Whether the character at an offset lies in the region. -/
def holds (i : ℕ) (r : LanguageRegion) : Bool :=
  r.start.offset ≤ i && i < r.stop.offset

/-- The offsets of the characters in the region, each with its language. -/
def spread (r : LanguageRegion) : List (ℕ × Language) :=
  (List.range' r.start.offset (r.stop.offset - r.start.offset)).map (·, r.language)

/-- What one more piece does: nothing, if it is empty; else it continues the latest region, or it starts a
new one. -/
theorem add_cases (regions : List LanguageRegion) (p : LanguagePiece) :
    p.location.start.offset = p.location.stop.offset ∧ add regions p = regions ∨
      p.location.start.offset ≠ p.location.stop.offset ∧
        ((∃ last more, regions = last :: more ∧ last.language = p.language ∧ last.stop = p.location.start ∧
            add regions p = { last with stop := p.location.stop } :: more) ∨
          add regions p = ofPiece p :: regions ∧
            ∀ last ∈ regions.head?, last.stop = p.location.start → last.language ≠ p.language) := by
  unfold add
  by_cases hempty : p.location.isEmpty = true
  · left
    rw [if_pos hempty]
    exact ⟨by simpa [Location.isEmpty] using hempty, rfl⟩
  · right
    rw [if_neg hempty]
    refine ⟨by simpa [Location.isEmpty] using hempty, ?_⟩
    cases regions with
    | nil => exact Or.inr ⟨rfl, by simp⟩
    | cons last more =>
      by_cases hmerge : last.language = p.language ∧ last.stop = p.location.start
      · left
        exact ⟨last, more, rfl, hmerge.1, hmerge.2, by simp [hmerge]⟩
      · right
        refine ⟨by simp [hmerge, ofPiece], ?_⟩
        intro last' hlast hstop hlanguage
        obtain rfl : last = last' := by simpa using hlast
        exact hmerge ⟨hlanguage, hstop⟩

/-- Regions, the latest first: they lie in the text, and where one stops at the start of the next, their
languages differ. -/
structure Apart (t : Text) (regions : List LanguageRegion) : Prop where
  lies : ∀ r ∈ regions, r.Lies t
  chain : regions.IsChain fun later earlier =>
    earlier.stop.offset = later.start.offset → earlier.language ≠ later.language

variable {t : Text} {regions : List LanguageRegion} {p : LanguagePiece}

theorem lies_ofPiece (hp : p.location.Stretch t)
    (hne : p.location.start.offset ≠ p.location.stop.offset) : (ofPiece p).Lies t := by
  obtain ⟨u, v, w, rfl, hl⟩ := hp
  have hstart : p.location.start = Text.positionAt (u ++ v ++ w) u.length := by
    rw [hl, List.append_assoc, ← Text.after_eq_positionAt]; rfl
  have hstop : p.location.stop = Text.positionAt (u ++ v ++ w) (u ++ v).length := by
    rw [hl, ← Text.after_eq_positionAt, Position.after_append]; rfl
  have hle : p.location.start.offset ≤ p.location.stop.offset := by
    rw [hstart, hstop]
    simp [Text.positionAt]
  unfold ofPiece
  refine ⟨?_, ?_, lt_of_le_of_ne hle hne, ?_⟩
  · rw [hstart]; rfl
  · rw [hstop]; rfl
  · rw [hstop]
    simp [Text.positionAt]

/-- **One more piece keeps the regions apart.** -/
theorem Apart.add (h : Apart t regions) (hp : p.location.Stretch t) : Apart t (add regions p) := by
  rcases add_cases regions p with ⟨-, heq⟩ | ⟨hne, ⟨last, more, rfl, hlanguage, hstop, heq⟩ | ⟨heq, hapart⟩⟩
  · rwa [heq]
  · -- the latest region grows at its end, and what is before it does not change
    have hnew := lies_ofPiece hp hne
    obtain ⟨hlast, hmore⟩ := List.forall_mem_cons.1 h.lies
    obtain ⟨hfirst, hchain⟩ := List.isChain_cons.1 h.chain
    have hgrown : last.start.offset < p.location.stop.offset := by
      have hpiece := hnew.nonempty
      unfold ofPiece at hpiece
      rw [← hstop] at hpiece
      exact hlast.nonempty.trans hpiece
    rw [heq]
    refine ⟨List.forall_mem_cons.2 ⟨?_, hmore⟩, List.isChain_cons.2 ⟨hfirst, hchain⟩⟩
    exact ⟨hlast.start, hnew.stop, hgrown, hnew.inside⟩
  · have hnew := lies_ofPiece hp hne
    rw [heq]
    refine ⟨List.forall_mem_cons.2 ⟨hnew, h.lies⟩, List.isChain_cons.2 ⟨?_, h.chain⟩⟩
    intro last hlast hoffset
    apply hapart last hlast
    have hlies := h.lies last (List.mem_of_mem_head? hlast)
    rw [hlies.stop, hoffset]
    exact hnew.start.symm

theorem apart_foldl {pieces : List LanguagePiece} (hpieces : ∀ p ∈ pieces, p.location.Stretch t)
    (h : Apart t regions) : Apart t (pieces.foldl LanguageRegion.add regions) := by
  induction pieces generalizing regions with
  | nil => exact h
  | cons p pieces ih =>
    rw [List.forall_mem_cons] at hpieces
    exact ih hpieces.2 (h.add hpieces.1)

/-- Regions do not overlap. -/
theorem apart_ofPieces {pieces : List LanguagePiece} (hpieces : ∀ p ∈ pieces, p.location.Stretch t) :
    Apart t (ofPieces pieces).reverse := by
  rw [ofPieces, List.reverse_reverse]
  exact apart_foldl hpieces ⟨by simp, .nil⟩

/-- Two ranges of offsets that meet are one. -/
theorem spread_append (language : Language) {a b c : Position} (hab : a.offset ≤ b.offset)
    (hbc : b.offset ≤ c.offset) :
    spread ⟨language, a, b⟩ ++ spread ⟨language, b, c⟩ = spread ⟨language, a, c⟩ := by
  unfold spread
  have hlength : c.offset - a.offset = (b.offset - a.offset) + (c.offset - b.offset) := by omega
  have hstart : b.offset = a.offset + (b.offset - a.offset) := by omega
  rw [← List.map_append, hlength, ← List.range'_append_1, ← hstart]

/-- **One more piece adds its own offsets.** -/
theorem spread_add (h : Apart t regions) (hp : p.location.start.offset ≤ p.location.stop.offset) :
    (LanguageRegion.add regions p).reverse.flatMap spread =
      regions.reverse.flatMap spread ++ (ofPiece p).spread := by
  rcases add_cases regions p with ⟨hempty, heq⟩ | ⟨-, ⟨last, more, rfl, hlanguage, hstop, heq⟩ | ⟨heq, -⟩⟩
  · rw [heq]
    simp [spread, ofPiece, hempty]
  · have hlast := (h.lies last List.mem_cons_self).nonempty
    have hjoin := spread_append last.language hlast.le (hstop ▸ hp)
    rw [heq, List.reverse_cons, List.reverse_cons, List.flatMap_append, List.flatMap_append, List.append_assoc,
      List.flatMap_singleton, List.flatMap_singleton, ← hjoin, ofPiece, ← hlanguage, ← hstop]
  · rw [heq, List.reverse_cons, List.flatMap_append, List.flatMap_singleton]

/-- Whether pieces are merged or not, they cover the same characters. -/
theorem spread_foldl {pieces : List LanguagePiece} (h : Apart t regions)
    (hpieces : ∀ p ∈ pieces, p.location.Stretch t) :
    (pieces.foldl LanguageRegion.add regions).reverse.flatMap spread =
      regions.reverse.flatMap spread ++ (pieces.map ofPiece).flatMap spread := by
  induction pieces generalizing regions with
  | nil => simp
  | cons p pieces ih =>
    rw [List.forall_mem_cons] at hpieces
    have hle : p.location.start.offset ≤ p.location.stop.offset := by
      obtain ⟨u, v, w, -, hl⟩ := hpieces.1
      rw [hl]
      show _ ≤ (Position.after _ v).offset
      rw [Position.offset_after _ v]
      exact Nat.le_add_right _ _
    rw [List.foldl_cons, ih (h.add hpieces.1) hpieces.2, spread_add h hle, List.map_cons, List.flatMap_cons,
      List.append_assoc]

/-- **Regions spread out are the pieces spread out.** -/
theorem spread_ofPieces {pieces : List LanguagePiece} (hpieces : ∀ p ∈ pieces, p.location.Stretch t) :
    (ofPieces pieces).flatMap spread = (pieces.map ofPiece).flatMap spread := by
  have h := spread_foldl ⟨by simp, .nil⟩ hpieces
  simpa [ofPieces] using h

theorem filter_range' (i a n : ℕ) :
    (List.range' a n).filter (· == i) = if a ≤ i ∧ i < a + n then [i] else [] := by
  by_cases hi : a ≤ i ∧ i < a + n
  · rw [if_pos hi]
    refine filter_eq_singleton ?_ (List.mem_range'_1.2 hi) (by simp)
    refine List.Pairwise.imp (fun {x y} hxy => ?_) List.pairwise_lt_range'
    simp only [beq_iff_eq]
    omega
  · rw [if_neg hi, List.filter_eq_nil_iff]
    intro x hx
    rw [List.mem_range'_1] at hx
    simp only [beq_iff_eq]
    omega

/-- The languages at an offset, read off the regions spread out. -/
theorem language_at (i : ℕ) (rs : List LanguageRegion) :
    ((rs.flatMap spread).filter (·.1 == i)).map Prod.snd = (rs.filter (holds i)).map language := by
  induction rs with
  | nil => rfl
  | cons r rs ih =>
    have hspread : ((spread r).filter (·.1 == i)).map Prod.snd =
        ((List.range' r.start.offset (r.stop.offset - r.start.offset)).filter (· == i)).map fun _ => r.language := by
      rw [spread, List.filter_map, List.map_map]
      rfl
    rw [List.flatMap_cons, List.filter_append, List.map_append, ih, hspread, filter_range']
    by_cases hi : holds i r = true
    · have hin : r.start.offset ≤ i ∧ i < r.start.offset + (r.stop.offset - r.start.offset) := by
        simp only [holds, Bool.and_eq_true, decide_eq_true_eq] at hi
        omega
      rw [if_pos hin, List.filter_cons_of_pos hi]
      rfl
    · have hout : ¬ (r.start.offset ≤ i ∧ i < r.start.offset + (r.stop.offset - r.start.offset)) := by
        simp only [holds, Bool.and_eq_true, decide_eq_true_eq] at hi
        omega
      rw [if_neg hout, List.filter_cons_of_neg hi]
      rfl

/-- The offsets of regions that come one after the other grow. -/
theorem spread_ordered {rs : List LanguageRegion}
    (h : rs.Pairwise fun a b => a.stop.offset ≤ b.start.offset) :
    ((rs.flatMap spread).map Prod.fst).Pairwise (· < ·) := by
  have hmem : ∀ {r : LanguageRegion} {x : ℕ × Language}, x ∈ r.spread →
      r.start.offset ≤ x.1 ∧ x.1 < r.stop.offset := by
    intro r x hx
    obtain ⟨i, hi, rfl⟩ := List.mem_map.1 hx
    rw [List.mem_range'_1] at hi
    simp only
    omega
  rw [List.pairwise_map, List.pairwise_flatMap]
  constructor
  · intro r _
    unfold spread
    rw [List.pairwise_map]
    exact List.pairwise_lt_range'
  · refine h.imp fun {a b} hab x hx y hy => ?_
    have hx := hmem hx
    have hy := hmem hy
    omega

/-- Regions whose offsets grow come one after the other. -/
theorem ordered_of_spread {rs : List LanguageRegion} (hlies : ∀ r ∈ rs, r.Lies t)
    (h : ((rs.flatMap spread).map Prod.fst).Pairwise (· < ·)) :
    rs.Pairwise fun a b => a.stop.offset ≤ b.start.offset := by
  rw [List.pairwise_map, List.pairwise_flatMap] at h
  refine h.2.imp_of_mem fun {a b} ha hb hab => ?_
  have hposa := (hlies a ha).nonempty
  have hposb := (hlies b hb).nonempty
  -- the last offset of the one and the first offset of the other
  have hlast : (a.stop.offset - 1, a.language) ∈ a.spread :=
    List.mem_map.2 ⟨_, List.mem_range'_1.2 (by omega), rfl⟩
  have hfirst : (b.start.offset, b.language) ∈ b.spread :=
    List.mem_map.2 ⟨_, List.mem_range'_1.2 (by omega), rfl⟩
  have := hab _ hlast _ hfirst
  simp only at this
  omega

end LanguageRegion

/-! ## Regions of a template -/

def Parented.holds (i : ℕ) (x : Parented) : Bool :=
  x.location.start.offset ≤ i && i < x.location.stop.offset

namespace Parented

variable {xs : List Parented} {ts : List Text}

theorem pairwise_of_tile (h : xs.map location = Location.tile {} ts) :
    xs.Pairwise fun a b => a.location.stop.offset ≤ b.location.start.offset := by
  have := Location.tile_pairwise {} ts
  rwa [← h, List.pairwise_map] at this

/-- Every character of the text lies in exactly one of the pieces that tile it. -/
theorem exists_filter_holds (h : xs.map location = Location.tile {} ts) {i : ℕ} (hi : i < ts.flatten.length) :
    ∃ x, xs.filter (holds i) = [x] := by
  -- the tiles leave no gap, by induction on the texts from any position
  have hcovered : ∀ (p : Position), p.offset ≤ i → i < p.offset + ts.flatten.length →
      ∃ l ∈ Location.tile p ts, l.start.offset ≤ i ∧ i < l.stop.offset := by
    clear h hi
    induction ts with
    | nil =>
      intro p hp hlt
      rw [List.flatten_nil, List.length_nil] at hlt
      omega
    | cons t ts ih =>
      intro p hp hlt
      rw [List.flatten_cons, List.length_append] at hlt
      have hstop := Position.offset_after p t
      by_cases hin : i < (p.after t).offset
      · exact ⟨_, List.mem_cons_self, hp, hin⟩
      · obtain ⟨l, hl, hlies⟩ := ih (p.after t) (by omega) (by omega)
        exact ⟨l, List.mem_cons_of_mem _ hl, hlies⟩
  obtain ⟨l, hl, hstart, hstop⟩ := hcovered {} (Nat.zero_le i) ((Nat.zero_add _).symm ▸ hi)
  rw [← h, List.mem_map] at hl
  obtain ⟨x, hx, rfl⟩ := hl
  refine ⟨x, filter_eq_singleton ((pairwise_of_tile h).imp fun {a b} hab => ?_) hx (by simp [holds, hstart, hstop])⟩
  simp only [holds, Bool.and_eq_true, decide_eq_true_eq]
  omega

/-- The pieces with a language at an offset are those at the offset, as far as they have one. -/
theorem filter_spoken (i : ℕ) (xs : List Parented) :
    ((xs.filterMap spoken?).map LanguageRegion.ofPiece).filter (LanguageRegion.holds i) =
      ((xs.filter (holds i)).filterMap spoken?).map LanguageRegion.ofPiece := by
  induction xs with
  | nil => rfl
  | cons x xs ih =>
    cases hspoken : x.spoken? with
    | none =>
      rw [List.filterMap_cons_none hspoken, ih]
      by_cases hx : x.holds i = true
      · rw [List.filter_cons_of_pos hx, List.filterMap_cons_none hspoken]
      · rw [List.filter_cons_of_neg hx]
    | some p =>
      have hholds : (LanguageRegion.ofPiece p).holds i = x.holds i := by
        obtain ⟨language, -, rfl⟩ := Option.map_eq_some_iff.1 hspoken
        rfl
      rw [List.filterMap_cons_some hspoken, List.map_cons]
      by_cases hx : x.holds i = true
      · rw [List.filter_cons_of_pos (hholds.trans hx), List.filter_cons_of_pos hx,
          List.filterMap_cons_some hspoken, List.map_cons, ih]
      · rw [List.filter_cons_of_neg (hholds ▸ hx), List.filter_cons_of_neg hx, ih]

end Parented

/-- The regions partition the text of the nodes. They lie in it one after the other, and two that touch have
different languages. Each character is in one piece of the nodes; it lies in one region if the piece has a
language, which is that of the region, and else in none. -/
structure LanguageRegion.Partition (t : Text) (nodes : List Node) (regions : List LanguageRegion) : Prop where
  lies : ∀ r ∈ regions, r.Lies t
  ordered : regions.Pairwise fun a b => a.stop.offset ≤ b.start.offset
  apart : regions.IsChain fun a b => a.stop.offset = b.start.offset → a.language ≠ b.language
  language : ∀ i < t.length, ∃ x, (Node.parentedAll none nodes).filter (·.holds i) = [x] ∧
    (regions.filter (holds i)).map language = (x.piece.language? x.parent).toList

/-- Regions of pieces that tile a text partition it. -/
theorem LanguageRegion.partition_ofPieces {nodes : List Node} {ts : List Text}
    (h : (Node.parentedAll none nodes).map Parented.location = Location.tile {} ts) :
    Partition ts.flatten nodes (ofPieces ((Node.parentedAll none nodes).filterMap Parented.spoken?)) := by
  generalize hxs : Node.parentedAll none nodes = xs at *
  -- pieces that say nothing are left out, which keeps the others where they are
  have hstretch : ∀ p ∈ xs.filterMap Parented.spoken?, p.location.Stretch ts.flatten := by
    intro p hp
    obtain ⟨x, hx, hspoken⟩ := List.mem_filterMap.1 hp
    obtain ⟨language, -, rfl⟩ := Option.map_eq_some_iff.1 hspoken
    obtain ⟨u, v, w, htext, hl⟩ := Location.mem_tile (h ▸ List.mem_map_of_mem hx)
    exact ⟨u, v, w, htext, hl⟩
  have hapart := apart_ofPieces hstretch
  have hspread := spread_ofPieces hstretch
  have hlies : ∀ r ∈ ofPieces (xs.filterMap Parented.spoken?), r.Lies ts.flatten := fun r hr =>
    hapart.lies r (List.mem_reverse.2 hr)
  refine ⟨hlies, ordered_of_spread hlies ?_, ?_, ?_⟩
  · rw [hspread]
    apply spread_ordered
    rw [List.pairwise_map, List.pairwise_filterMap]
    refine (Parented.pairwise_of_tile h).imp fun {a b} hab p hp q hq => ?_
    obtain ⟨-, -, rfl⟩ := Option.map_eq_some_iff.1 hp
    obtain ⟨-, -, rfl⟩ := Option.map_eq_some_iff.1 hq
    exact hab
  · simpa [List.isChain_reverse, flip] using hapart.chain
  · intro i hi
    obtain ⟨x, hx⟩ := Parented.exists_filter_holds h hi
    refine ⟨x, hxs ▸ hx, ?_⟩
    rw [← language_at, hspread, language_at, Parented.filter_spoken, hx]
    cases hlanguage : x.piece.language? x.parent <;> simp [Parented.spoken?, hlanguage, ofPiece]

/-- **Language regions partition the template.** A walk that knows the kinds of the nodes around it collects
them. They are in order, two that touch have different languages, and each character lies in one region of
its language or, if it is part of a transition or a brace of a code block, in no region. -/
theorem parse_regions (options : ParseOptions) (t : Text)
    (h : options.language ∈ Registry.standard.languages) :
    ∃ r, Template.parse options t = .ok r ∧
      (Node.walkAll (fun _ => false) r.nodes).foldl RegionWalk.visit {} =
        ⟨[], (LanguageRegion.ofNodes r.nodes).reverse⟩ ∧
      LanguageRegion.Partition t r.nodes (LanguageRegion.ofNodes r.nodes) := by
  refine ⟨_, parse_eq_document t h, ?_, ?_⟩
  · rw [RegionWalk.visit_walkAll, LanguageRegion.ofNodes, LanguageRegion.ofPieces, List.reverse_reverse]
    rfl
  · obtain ⟨ts, htile, hflat⟩ := @template_tile options t
    have hshaped := shaped_template options t
    have hraw : Node.RawPlacedAll [(Template.document options t).1,
        .marker .endOfFile (.empty (Template.document options t).2.pos)] :=
      ⟨document_rawPlaced options t, trivial, trivial⟩
    have hsuits : ∀ n ∈ [(Template.document options t).1,
        .marker .endOfFile (.empty (Template.document options t).2.pos)], ({} : Surroundings).Suits n.kind := by
      rw [List.forall_mem_cons, List.forall_mem_singleton, kind_document, Node.marker, Node.kind]
      exact ⟨⟨by decide, by decide, by decide⟩, ⟨by decide, by decide, by decide⟩⟩
    rw [LanguageRegion.ofNodes, LanguagePiece.ofNodes_eq {} _ hshaped hraw hsuits, ← hflat]
    apply LanguageRegion.partition_ofPieces
    rw [hflat, ← htile, ← Node.map_piece_parentedAll none, List.map_map]
    rfl

/-- A style, a block that is not closed, and braces of the code in it. -/
def unclosedBlock : Text :=
  "<style>a</style>@\x7bb\x7b\x7d ".toList

theorem parse_regions_unclosed :
    ({} : ParseOptions).language ∈ Registry.standard.languages ∧
      ∃ r, Template.parse {} unclosedBlock = .ok r ∧
        (Node.walkAll (fun _ => false) r.nodes).foldl RegionWalk.visit {} =
          ⟨[], (LanguageRegion.ofNodes r.nodes).reverse⟩ ∧
        LanguageRegion.Partition unclosedBlock r.nodes (LanguageRegion.ofNodes r.nodes) :=
  ⟨by decide, parse_regions {} unclosedBlock (by decide)⟩

end Stencil
