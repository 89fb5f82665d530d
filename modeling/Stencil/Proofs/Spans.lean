import Stencil.Proofs.Chunks
import Stencil.Proofs.Provenance
import Stencil.Proofs.Ways

/-!
# Spans of nodes

A node spans the text from where it starts, blanks before it included, to where it stops, blanks
after it included. The two ends are found by different searches through the tree: the start is that of
the first child that has one, the stop that of the last child that has one, and blanks attached to the
node come before both. Children without text, such as a list of no attributes, are passed over.

Both ends are read off the pieces of the node instead (`Shaped.fullStart?_eq`, and
`Shaped.fullStop?_eq` for the other end). The pieces of a node lie edge to edge over a stretch of the
source, wherever the node stands in the tree, and all else is the order of the pieces.

* `Location.Stretch.exact`: a stretch of a text has true ends and the characters in between.
* `Piece.Pave.append`: pieces edge to edge over a text are so over its two parts.
* `Node.Way.pieces`: the pieces of a descendant are consecutive pieces of the tree.
* `Node.Shaped.spanned`: **a node whose pieces stand in a text spans what it covers of the text**.
* `parse_spans`: so does every node of a template.
-/

namespace Stencil

/-! ## True places in a text -/

namespace Location

/-- Both ends of the location are true positions of the text, and its characters are those in between. -/
structure Exact (t : Text) (l : Location) : Prop where
  start_true : l.start = t.positionAt l.start.offset
  stop_true : l.stop = t.positionAt l.stop.offset
  le : l.start.offset ≤ l.stop.offset
  inside : l.stop.offset ≤ t.length
  text_true : l.text = (t.take l.stop.offset).drop l.start.offset

theorem exact_ofText (u v w : Text) : (ofText (({} : Position).after u) v).Exact (u ++ v ++ w) := by
  unfold ofText
  have hu : (({} : Position).after u).offset = u.length := by simp [Position.offset_after]
  have huv : (({} : Position).after (u ++ v)).offset = (u ++ v).length := by simp [Position.offset_after]
  rw [← Position.after_append]
  constructor
  · rw [hu, List.append_assoc]; exact Text.after_eq_positionAt u (v ++ w)
  · rw [huv]; exact Text.after_eq_positionAt (u ++ v) w
  · rw [hu, huv, List.length_append]; omega
  · rw [huv]; simp
  · rw [hu, huv, List.take_left, List.drop_left]

theorem Stretch.exact {t : Text} {l : Location} (h : l.Stretch t) : l.Exact t := by
  obtain ⟨u, v, w, rfl, rfl⟩ := h
  exact exact_ofText u v w

end Location

/-! ## Pieces over a stretch of a text -/

namespace Piece

/-- The pieces lie edge to edge over the text `v`, with `u` before it. -/
def Pave (u v : Text) (ps : List Piece) : Prop :=
  ∃ ts, ps.map location = Location.tile (({} : Position).after u) ts ∧ ts.flatten = v

/-- The pieces lie edge to edge over a stretch of the text. -/
def StandIn (t : Text) (ps : List Piece) : Prop :=
  ∃ u v w, t = u ++ v ++ w ∧ Pave u v ps

variable {t u v : Text} {ps qs : List Piece}

/-- **Pieces edge to edge over a text** are so over its two parts. -/
theorem Pave.append (h : Pave u v (ps ++ qs)) :
    ∃ v₁ v₂, v = v₁ ++ v₂ ∧ Pave u v₁ ps ∧ Pave (u ++ v₁) v₂ qs := by
  induction ps generalizing u v with
  | nil => exact ⟨[], v, rfl, ⟨[], rfl, rfl⟩, by simpa using h⟩
  | cons p ps ih =>
    obtain ⟨ts, hts, rfl⟩ := h
    cases ts with
    | nil => simp at hts
    | cons x ts =>
      simp only [List.cons_append, List.map_cons, Location.tile_cons, List.cons.injEq] at hts
      obtain ⟨hp, hts⟩ := hts
      rw [← Position.after_append] at hts
      obtain ⟨v₁, v₂, hv, ⟨us, hus, rfl⟩, hqs⟩ := ih ⟨ts, hts, rfl⟩
      refine ⟨x ++ us.flatten, v₂, by simp [hv], ⟨x :: us, ?_, rfl⟩, by simpa using hqs⟩
      rw [List.map_cons, Location.tile_cons, hp, hus, Position.after_append]

/-- Consecutive pieces stand in the text as well. -/
theorem StandIn.middle {rs : List Piece} (h : StandIn t (ps ++ qs ++ rs)) : StandIn t qs := by
  obtain ⟨u, v, w, rfl, hpave⟩ := h
  obtain ⟨v', v₃, rfl, hpave, -⟩ := hpave.append
  obtain ⟨v₁, v₂, rfl, -, hpave⟩ := hpave.append
  exact ⟨u ++ v₁, v₂, v₃ ++ w, by simp, hpave⟩

theorem Pave.text (h : Pave u v ps) : ps.flatMap (·.location.text) = v := by
  obtain ⟨ts, hts, rfl⟩ := h
  rw [← Location.flatMap_text_tile (({} : Position).after u) ts, ← hts, List.flatMap_map]

theorem Pave.head? (h : Pave u v ps) (hps : ps ≠ []) :
    ps.head?.map (fun p => p.location.start) = some (({} : Position).after u) := by
  obtain ⟨ts, hts, -⟩ := h
  have hhead : (ps.map location).head?.map Location.start = ps.head?.map fun p => p.location.start := by
    rw [List.head?_map, Option.map_map]; rfl
  rw [← hhead, hts]
  cases ts with
  | nil => exact absurd (List.map_eq_nil_iff.1 hts) hps
  | cons x ts => rfl

theorem Pave.getLast? (h : Pave u v ps) (hps : ps ≠ []) :
    ps.getLast?.map (fun p => p.location.stop) = some (({} : Position).after (u ++ v)) := by
  obtain ⟨ts, hts, rfl⟩ := h
  have hne : ts ≠ [] := by
    rintro rfl; exact hps (List.map_eq_nil_iff.1 hts)
  have hlast : (ps.map location).getLast?.map Location.stop = ps.getLast?.map fun p => p.location.stop := by
    rw [List.getLast?_map, Option.map_map]; rfl
  rw [← hlast, hts, Location.getLast?_tile _ hne, Position.after_append]

/-- Each of the pieces lies within the text. -/
theorem Pave.within (h : Pave u v ps) {p : Piece} (hp : p ∈ ps) :
    u.length ≤ p.location.start.offset ∧ p.location.start.offset ≤ p.location.stop.offset ∧
      p.location.stop.offset ≤ (u ++ v).length := by
  obtain ⟨ts, hts, rfl⟩ := h
  have hmem : p.location ∈ Location.tile (({} : Position).after u) ts := hts ▸ List.mem_map_of_mem hp
  obtain ⟨a, b, c, hflat, hl⟩ := Location.mem_tile hmem
  have hlen := congrArg List.length hflat
  simp only [List.length_append] at hlen
  rw [hl]
  simp only [Location.ofText, Position.offset_after, List.length_append]
  omega

/-- Where two pieces follow each other, the second one starts where the first one stops. -/
theorem Pave.cons {p q : Piece} (h : Pave u v (p :: q :: ps)) :
    p.location.start = ({} : Position).after u ∧ q.location.start = p.location.stop := by
  obtain ⟨ts, hts, -⟩ := h
  rcases ts with _ | ⟨x, _ | ⟨y, ts⟩⟩
  · simp at hts
  · simp at hts
  · simp only [List.map_cons, Location.tile_cons, List.cons.injEq] at hts
    rw [hts.1, hts.2.1]
    exact ⟨rfl, rfl⟩

theorem Pave.pairwise (h : Pave u v ps) :
    ps.Pairwise fun p q => p.location.stop.offset ≤ q.location.start.offset := by
  obtain ⟨ts, hts, -⟩ := h
  have htile := Location.tile_pairwise (({} : Position).after u) ts
  rw [← hts] at htile
  exact List.pairwise_map.1 htile

end Piece

namespace Node

variable {tr : Char} {t : Text}

/-- The pieces of a descendant are consecutive pieces of the tree. -/
theorem Way.pieces {n e : Node} {fs : List Passage} (h : n.Way fs e) (hn : Piece.StandIn t n.pieces) :
    Piece.StandIn t e.pieces := by
  induction h with
  | here => exact hn
  | @child k before after m tv fs e hway ih =>
    apply ih
    rw [Node.pieces, piecesAll_append, piecesAll_cons] at hn
    have hinner := hn.middle
    rw [← List.append_assoc] at hinner
    exact hinner.middle

/-! ## Both ends of a node -/

mutual

/-- A node starts where its first piece does. -/
theorem Shaped.fullStart?_eq : ∀ {n : Node}, n.Shaped tr →
    n.fullStart? = n.pieces.head?.map fun p => p.location.start
  | leaf k v l ⟨lead, trail⟩, _ => by
    cases lead <;> simp [fullStart?, pieces]
  | branch k cs ⟨some l, trail⟩, _ => by simp [fullStart?, pieces]
  | branch k cs ⟨none, none⟩, h => by
    simpa [fullStart?, pieces] using firstStart?_eq h.2.2.2
  | branch k cs ⟨none, some l⟩, h => by
    -- the blanks after the node are not its first piece
    have hne := h.piecesAll_ne_nil (h.2.1.resolve_left (by simp))
    rw [fullStart?, firstStart?_eq h.2.2.2, pieces, blankPieces_none, List.nil_append,
      List.head?_append_of_ne_nil _ hne]

theorem firstStart?_eq : ∀ {ns : List Node}, ShapedAll tr ns →
    firstStart? ns = (piecesAll ns).head?.map fun p => p.location.start
  | [], _ => rfl
  | n :: ns, h => by
    rw [firstStart?, h.1.fullStart?_eq, firstStart?_eq h.2, piecesAll_cons, List.head?_append]
    cases n.pieces.head? <;> rfl

end

theorem start?_eq_fullStart? {n : Node} (h : n.trivia.lead = none) : n.start? = n.fullStart? := by
  cases n <;> simp only [trivia] at h <;> simp [start?, fullStart?, h]

/-- A node with text starts itself with one of its pieces. -/
theorem Shaped.start?_mem {n : Node} (h : n.Shaped tr) (hne : n.pieces ≠ []) :
    ∃ p ∈ n.pieces, n.start? = some p.location.start := by
  cases n with
  | leaf k c l tv => exact ⟨.leaf k c l, by simp [pieces], rfl⟩
  | branch k cs tv =>
    -- blanks alone do not make the text of a node
    have hcs : piecesAll cs ≠ [] := by
      rcases h.2.1 with rfl | hk
      · simpa [pieces] using hne
      · exact h.piecesAll_ne_nil hk
    obtain ⟨p, ps, hps⟩ := List.exists_cons_of_ne_nil hcs
    refine ⟨p, by simp [pieces, hps], ?_⟩
    rw [start?, firstStart?_eq h.2.2.2, hps]
    rfl

/-- With blanks before it, a node starts itself with its second piece. -/
theorem Shaped.pieces_of_lead {n : Node} {l : Location} (h : n.Shaped tr) (hlead : n.trivia.lead = some l) :
    ∃ p ps, n.pieces = .blank l :: p :: ps ∧ n.start? = some p.location.start := by
  cases n with
  | leaf k c m tv =>
    refine ⟨.leaf k c m, blankPieces tv.trail, ?_, rfl⟩
    rw [pieces, show tv.lead = some l from hlead]
    rfl
  | branch k cs tv =>
    have htrivia : tv ≠ {} := by
      rintro rfl
      cases hlead
    obtain ⟨p, ps, hps⟩ := List.exists_cons_of_ne_nil (h.piecesAll_ne_nil (h.2.1.resolve_left htrivia))
    refine ⟨p, ps ++ blankPieces tv.trail, ?_, ?_⟩
    · rw [pieces, show tv.lead = some l from hlead, hps]
      rfl
    · rw [start?, firstStart?_eq h.2.2.2, hps]
      rfl

/-! ## Spans -/

/-- The first node stops before the second one starts. -/
def StopsBefore (a b : Node) : Prop :=
  ∀ q ∈ a.fullStop?, ∀ p ∈ b.fullStart?, q.offset ≤ p.offset

/-- The span of the first node, if it has one, lies inside that of the second. -/
def LiesIn (m n : Node) : Prop :=
  ∀ p ∈ m.fullStart?, ∀ q ∈ m.fullStop?, ∃ p' ∈ n.fullStart?, ∃ q' ∈ n.fullStop?,
    p'.offset ≤ p.offset ∧ q.offset ≤ q'.offset

/-- The two positions are true ones of the source, and the text of the node is what stands between them.
The node itself starts between them, at the first one if it has no blanks before it. Blanks before it
start there instead, and the node itself starts where they stop. -/
structure SpansText (t : Text) (n : Node) (p q : Position) : Prop where
  exact : (Location.mk p q n.source).Exact t
  own : ∃ s, n.start? = some s ∧ p.offset ≤ s.offset ∧ s.offset ≤ q.offset ∧
    (n.trivia.lead = none → s = p) ∧ ∀ l, n.trivia.lead = some l → l.start = p ∧ s = l.stop

/-- The node has both ends or none of them, and its span is that of its text, around those of its
children, which follow each other. -/
structure Spanned (t : Text) (n : Node) : Prop where
  span : (n.fullStart? = none ∧ n.fullStop? = none ∧ n.source = []) ∨
    ∃ p q, n.fullStart? = some p ∧ n.fullStop? = some q ∧ n.SpansText t p q
  children : ∀ m ∈ n.children, m.LiesIn n
  order : n.children.Pairwise StopsBefore

/-- Where a node starts and stops, one of its pieces does. -/
theorem Shaped.fullStart?_mem {n : Node} (h : n.Shaped tr) {p : Position} (hp : p ∈ n.fullStart?) :
    ∃ x ∈ n.pieces, x.location.start = p := by
  rw [h.fullStart?_eq, Option.mem_def, Option.map_eq_some_iff] at hp
  obtain ⟨x, hx, rfl⟩ := hp
  exact ⟨x, List.mem_of_head? hx, rfl⟩

theorem Shaped.fullStop?_mem {n : Node} (h : n.Shaped tr) {q : Position} (hq : q ∈ n.fullStop?) :
    ∃ x ∈ n.pieces, x.location.stop = q := by
  rw [h.fullStop?_eq, Option.mem_def, Option.map_eq_some_iff] at hq
  obtain ⟨x, hx, rfl⟩ := hq
  exact ⟨x, List.mem_of_getLast? hx, rfl⟩

/-- The ends of a node with text are those of the stretch its pieces lie over. -/
theorem Shaped.ends_of_pave {n : Node} {u v : Text} (h : n.Shaped tr) (hpave : Piece.Pave u v n.pieces)
    (hne : n.pieces ≠ []) : n.fullStart? = some (({} : Position).after u) ∧
      n.fullStop? = some (({} : Position).after (u ++ v)) := by
  rw [h.fullStart?_eq, h.fullStop?_eq]
  exact ⟨hpave.head? hne, hpave.getLast? hne⟩

theorem Shaped.spansText {n : Node} {u v w : Text} (h : n.Shaped tr) (hpave : Piece.Pave u v n.pieces)
    (hne : n.pieces ≠ []) :
    n.SpansText (u ++ v ++ w) (({} : Position).after u) (({} : Position).after (u ++ v)) := by
  constructor
  · rw [source_eq_pieces, hpave.text, Position.after_append]
    exact Location.exact_ofText u v w
  · obtain ⟨x, hx, hstart⟩ := h.start?_mem hne
    have hwithin := hpave.within hx
    rw [List.length_append] at hwithin
    refine ⟨_, hstart, ?_, ?_, fun hlead => ?_, fun l hlead => ?_⟩
    · simp only [Position.offset_after]; omega
    · simp only [Position.offset_after, List.length_append]; omega
    · rw [start?_eq_fullStart? hlead, (h.ends_of_pave hpave hne).1] at hstart
      exact (Option.some.inj hstart).symm
    · -- the blanks are the first piece, and the node itself starts with the second one
      obtain ⟨p, ps, hps, hown⟩ := h.pieces_of_lead hlead
      rw [hps] at hpave
      obtain ⟨hl, htail⟩ := hpave.cons
      rw [hown, htail] at hstart
      exact ⟨hl, (Option.some.inj hstart).symm⟩

/-- Nodes whose pieces follow each other do so themselves. -/
theorem pairwise_stopsBefore {ns : List Node} (h : ShapedAll tr ns)
    (hps : (piecesAll ns).Pairwise fun p q => p.location.stop.offset ≤ q.location.start.offset) :
    ns.Pairwise StopsBefore := by
  induction ns with
  | nil => exact .nil
  | cons n ns ih =>
    rw [piecesAll_cons, List.pairwise_append] at hps
    refine .cons (fun m hm => ?_) (ih h.2 hps.2.1)
    intro q hq p hp
    obtain ⟨x, hx, rfl⟩ := h.1.fullStop?_mem hq
    obtain ⟨y, hy, rfl⟩ := (shapedAll_iff.1 h.2 m hm).fullStart?_mem hp
    exact hps.2.2 x hx y (mem_piecesAll hm hy)

theorem Shaped.children {n : Node} (h : n.Shaped tr) : ShapedAll tr n.children := by
  cases n with
  | leaf => trivial
  | branch => exact h.2.2.2

/-- **A node whose pieces stand in a text spans what it covers of the text.** -/
theorem Shaped.spanned {n : Node} (h : n.Shaped tr) (hn : Piece.StandIn t n.pieces) : n.Spanned t := by
  obtain ⟨u, v, w, rfl, hpave⟩ := hn
  refine ⟨?_, fun m hm => ?_, ?_⟩
  · by_cases hne : n.pieces = []
    · left
      rw [h.fullStart?_eq, h.fullStop?_eq, source_eq_pieces, hne]
      exact ⟨rfl, rfl, rfl⟩
    · right
      have hends := h.ends_of_pave hpave hne
      exact ⟨_, _, hends.1, hends.2, h.spansText hpave hne⟩
  · intro p hp q hq
    have hshaped := shapedAll_iff.1 h.children m hm
    -- the pieces of a child are among those of the node, and so lie between its ends
    have hsub : ∀ x ∈ m.pieces, x ∈ n.pieces := fun x hx =>
      (piecesAll_children_sublist n).subset (mem_piecesAll hm hx)
    obtain ⟨x, hx, rfl⟩ := hshaped.fullStart?_mem hp
    obtain ⟨y, hy, rfl⟩ := hshaped.fullStop?_mem hq
    have hends := h.ends_of_pave hpave (List.ne_nil_of_mem (hsub x hx))
    refine ⟨_, hends.1, _, hends.2, ?_⟩
    have hx := hpave.within (hsub x hx)
    have hy := hpave.within (hsub y hy)
    simp only [Position.offset_after]
    omega
  · exact pairwise_stopsBefore h.children (hpave.pairwise.sublist (piecesAll_children_sublist n))

/-- In a tree whose pieces lie edge to edge over the text, the pieces of every node do so over a
stretch of it. -/
theorem standIn_of_pave {ns : List Node} (hns : Piece.Pave [] t (piecesAll ns)) {n : Node}
    (hn : n ∈ descendantsAll ns) : Piece.StandIn t n.pieces := by
  obtain ⟨before, m, after, fs, rfl, hway⟩ := exists_wayAll hn
  rw [piecesAll_append, piecesAll_cons, ← List.append_assoc] at hns
  have hstand : Piece.StandIn t (piecesAll before ++ m.pieces ++ piecesAll after) := ⟨[], t, [], by simp, hns⟩
  exact hway.pieces hstand.middle

/-- So every node in such a tree spans what it covers of the text. -/
theorem spanned_of_pave {ns : List Node} (h : ShapedAll tr ns) (hns : Piece.Pave [] t (piecesAll ns)) {n : Node}
    (hn : n ∈ descendantsAll ns) : n.Spanned t :=
  (shaped_of_mem_descendantsAll ns h n hn).spanned (standIn_of_pave hns hn)

end Node

/-! ## Spans in a template -/

/-- **Spans of nodes match their text.** Every node of a template has both ends or none of them. One
with no ends has no text. One with both has the text of the source between them, and starts itself
between them, after the blanks before it if there are any and else where its span starts. The spans of
its children lie inside its own, one after the other. -/
theorem parse_spans {options : ParseOptions} (t : Text) (h : options.language ∈ Registry.standard.languages) :
    ∃ r, Template.parse options t = .ok r ∧ r.nodes.Pairwise Node.StopsBefore ∧
      ∀ n ∈ Node.descendantsAll r.nodes, n.Spanned t := by
  have hshaped := shaped_template options t
  have hpave : Piece.Pave [] t (Node.piecesAll _) := @template_tile options t
  refine ⟨_, parse_eq_document t h, Node.pairwise_stopsBefore hshaped hpave.pairwise, fun n hn => ?_⟩
  exact Node.spanned_of_pave hshaped hpave hn

/-- A start tag with an empty list of attributes, one with a missing bracket, and blanks that a branch
and a leaf hold. -/
theorem parse_spans_unclosed :
    ({ maxNestingDepth := 1 } : ParseOptions).language ∈ Registry.standard.languages ∧
      ∃ r, Template.parse { maxNestingDepth := 1 } "<p><b c = '\n@x' >\n @y <i".toList = .ok r ∧
        r.nodes.Pairwise Node.StopsBefore ∧
        ∀ n ∈ Node.descendantsAll r.nodes, n.Spanned "<p><b c = '\n@x' >\n @y <i".toList :=
  ⟨by decide, parse_spans _ (by decide)⟩

end Stencil
