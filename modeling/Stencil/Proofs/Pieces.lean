import Mathlib.Data.List.Chain
import Mathlib.Data.List.Induction
import Stencil.Template

/-!
# Pieces of a template and tilings of its text

The pieces of a tree are its blanks and its leaves, in document order.

* `source_eq_pieces`: the text of a tree is the text of its pieces.
* `after_eq_positionAt`: stepping over a text character by character leads to
  its true end, counted from the whole text before it.
* `tiles_tile`: **locations laid edge to edge over the parts of a text tile it.**
-/

namespace Stencil

/-- A piece of a template: the blanks on one side of a node, or a leaf. -/
inductive Piece where
  | blank (l : Location)
  | leaf (kind : Kind) (content : Leaf) (l : Location)
deriving DecidableEq, Repr, Inhabited

namespace Piece

def location : Piece → Location
  | blank l => l
  | leaf _ _ l => l

@[simp]
theorem location_blank (l : Location) : (blank l).location = l := rfl

@[simp]
theorem location_leaf (k : Kind) (c : Leaf) (l : Location) : (leaf k c l).location = l := rfl

end Piece

namespace Node

/-- The blanks on one side of a node, as pieces. -/
def blankPieces (l : Option Location) : List Piece :=
  l.toList.map Piece.blank

mutual

/-- The pieces of a node in document order. -/
def pieces : Node → List Piece
  | leaf k c l t => blankPieces t.lead ++ [.leaf k c l] ++ blankPieces t.trail
  | branch _ cs t => blankPieces t.lead ++ piecesAll cs ++ blankPieces t.trail

/-- The pieces of several nodes. -/
def piecesAll : List Node → List Piece
  | [] => []
  | n :: ns => pieces n ++ piecesAll ns

end

@[simp]
theorem blankPieces_none : blankPieces none = [] := rfl

@[simp]
theorem blankPieces_some (l : Location) : blankPieces (some l) = [.blank l] := rfl

@[simp]
theorem piecesAll_nil : piecesAll [] = [] := rfl

@[simp]
theorem piecesAll_cons (n : Node) (ns : List Node) :
    piecesAll (n :: ns) = n.pieces ++ piecesAll ns := rfl

/-- The pieces of nodes in a row. -/
@[simp]
theorem piecesAll_append (a b : List Node) : piecesAll (a ++ b) = piecesAll a ++ piecesAll b := by
  induction a with
  | nil => rfl
  | cons n ns ih => simp [ih]

/-- The pieces of a node are among those of its siblings. -/
theorem mem_piecesAll {p : Piece} {n : Node} {ns : List Node} (hn : n ∈ ns) (hp : p ∈ n.pieces) :
    p ∈ piecesAll ns := by
  induction ns with
  | nil => cases hn
  | cons m ns ih =>
    rw [piecesAll_cons, List.mem_append]
    rcases List.mem_cons.1 hn with rfl | hn
    · exact Or.inl hp
    · exact Or.inr (ih hn)

/-- What the children cover is part of what the node covers. -/
theorem piecesAll_children_sublist (n : Node) : (piecesAll n.children).Sublist n.pieces := by
  cases n with
  | leaf => exact List.nil_sublist _
  | branch k cs tv =>
    rw [pieces]
    exact (List.sublist_append_right _ _).trans (List.sublist_append_left _ _)

@[simp]
theorem pieces_token (k : Kind) (l : Location) :
    (token k l).pieces = [.leaf k (.token l.text) l] := rfl

@[simp]
theorem pieces_missing (k : Kind) (p : Position) :
    (missing k p).pieces = [.leaf k .missing (.empty p)] := rfl

@[simp]
theorem pieces_marker (k : Kind) (l : Location) : (marker k l).pieces = [.leaf k .marker l] := rfl

/-- A branch without blanks covers what its children cover. -/
@[simp]
theorem pieces_ofChildren (k : Kind) (cs : List Node) : (ofChildren k cs).pieces = piecesAll cs := by
  simp [ofChildren, pieces]

/-- Blanks given to a node that had none stand around its pieces. -/
theorem pieces_withTrivia {n : Node} (h : n.trivia = {}) (t : Trivia) :
    (n.withTrivia t).pieces = blankPieces t.lead ++ n.pieces ++ blankPieces t.trail := by
  cases n with
  | leaf k c l u => simp only [trivia] at h; subst h; simp [withTrivia, pieces]
  | branch k cs u => simp only [trivia] at h; subst h; simp [withTrivia, pieces]

/-- Blanks in front of a node are its first piece. -/
theorem pieces_withLead {n : Node} (h : n.trivia = {}) (lead : Option Location) :
    (n.withLead lead).pieces = blankPieces lead ++ n.pieces := by
  rw [withLead, pieces_withTrivia h, h]; simp

theorem text_lead (t : Trivia) : (blankPieces t.lead).flatMap (·.location.text) = t.leadText := by
  unfold Trivia.leadText; cases t.lead <;> simp

theorem text_trail (t : Trivia) : (blankPieces t.trail).flatMap (·.location.text) = t.trailText := by
  unfold Trivia.trailText; cases t.trail <;> simp

mutual

/-- **The text of a node is the text of its pieces.** -/
theorem source_eq_pieces : ∀ n : Node, n.source = n.pieces.flatMap (·.location.text)
  | leaf k c l t => by
    simp [source, pieces, text_lead, text_trail]
  | branch k cs t => by
    simp [source, pieces, text_lead, text_trail, sourceAll_eq_pieces cs]

/-- **The text of a tree is the text of its pieces.** -/
theorem sourceAll_eq_pieces : ∀ ns : List Node, sourceAll ns = (piecesAll ns).flatMap (·.location.text)
  | [] => rfl
  | n :: ns => by
    simp only [sourceAll, piecesAll, List.flatMap_append, source_eq_pieces n, sourceAll_eq_pieces ns]

end

/-! ## Descendants -/

/-- The nodes below nodes in a row. -/
theorem descendantsAll_append (ns ms : List Node) :
    descendantsAll (ns ++ ms) = descendantsAll ns ++ descendantsAll ms := by
  induction ns with
  | nil => rfl
  | cons n ns ih => simp [descendantsAll, ih]

/-- A node below some of the nodes is below one of them. -/
theorem mem_descendantsAll {ns : List Node} {m : Node} :
    m ∈ descendantsAll ns ↔ ∃ n ∈ ns, m ∈ n.descendants := by
  induction ns with
  | nil => simp [descendantsAll]
  | cons n ns ih => simp [descendantsAll, ih]

theorem descendants_ofChildren (k : Kind) (ns : List Node) :
    (ofChildren k ns).descendants = ofChildren k ns :: descendantsAll ns := rfl

theorem descendantsAll_singleton (n : Node) : descendantsAll [n] = n.descendants := by
  simp [descendantsAll]

/-- A node comes before all that is below it. -/
theorem descendants_eq_cons (n : Node) : n.descendants = n :: n.descendants.tail := by
  cases n <;> rfl

/-- Blanks around a node change none of the nodes below it. -/
theorem descendants_withTrivia (n : Node) (t : Trivia) :
    (n.withTrivia t).descendants = n.withTrivia t :: n.descendants.tail := by
  cases n <;> rfl

end Node

/-! ## True positions -/

namespace Text

/-- The position of an offset in a text, counted from all the text before it. -/
def positionAt (t : Text) (n : ℕ) : Position where
  offset := n
  byte := bytes (t.take n)
  line := (t.take n).count '\n'
  col := ((t.take n).reverse.takeWhile (· != '\n')).length

/-- Stepping over the start of a text leads to the true position there. -/
theorem after_eq_positionAt (t u : Text) : ({} : Position).after t = positionAt (t ++ u) t.length := by
  -- from the end: one more character moves both sides alike
  induction t using List.reverseRecOn generalizing u with
  | nil => simp [positionAt, bytes]
  | append_singleton t c ih =>
    have h := ih (c :: u)
    simp only [positionAt, List.take_left'] at h ⊢
    rw [Position.after_append, h]
    simp only [Position.after_cons, Position.after_nil, Position.next, bytes_append, bytes]
    by_cases hc : c = '\n'
    · subst hc; simp
    · simp [hc, List.count_append]

end Text

/-! ## Tilings -/

namespace Location

/-- The locations of consecutive texts, the first of which starts at `p`. -/
def tile (p : Position) : List Text → List Location
  | [] => []
  | t :: ts => ofText p t :: tile (p.after t) ts

@[simp]
theorem tile_nil (p : Position) : tile p [] = [] := rfl

@[simp]
theorem tile_cons (p : Position) (t : Text) (ts : List Text) :
    tile p (t :: ts) = ofText p t :: tile (p.after t) ts := rfl

/-- Tiles in a row: the second part starts where the first one stops. -/
theorem tile_append (p : Position) (ts us : List Text) :
    tile p (ts ++ us) = tile p ts ++ tile (p.after ts.flatten) us := by
  induction ts generalizing p with
  | nil => rfl
  | cons t ts ih => simp [ih, Position.after_append]

/-- The locations tile a text: the first starts at the very beginning, each
further one where the one before it stops, and the last stops at the end. Both
ends of each are true positions of the text, and its characters are those of the
text in between. -/
structure Tiles (t : Text) (ls : List Location) : Prop where
  first : ls.head?.map start = some {}
  next : ls.IsChain fun a b => a.stop = b.start
  last : ls.getLast?.map stop = some (t.positionAt t.length)
  inside : ∀ l ∈ ls, l.start.offset ≤ l.stop.offset ∧ l.stop.offset ≤ t.length
  start_true : ∀ l ∈ ls, l.start = t.positionAt l.start.offset
  stop_true : ∀ l ∈ ls, l.stop = t.positionAt l.stop.offset
  text_true : ∀ l ∈ ls, l.text = (t.take l.stop.offset).drop l.start.offset

/-- Nothing of the texts is lost between their locations. -/
theorem flatMap_text_tile (p : Position) (ts : List Text) : (tile p ts).flatMap text = ts.flatten := by
  induction ts generalizing p with
  | nil => rfl
  | cons t ts ih => simp [ih]

/-- Each tile starts where the one before it stops. -/
theorem tile_isChain (p : Position) (ts : List Text) :
    (tile p ts).IsChain fun a b => a.stop = b.start := by
  induction ts generalizing p with
  | nil => exact .nil
  | cons t ts ih =>
    cases ts with
    | nil => exact .singleton _
    | cons u us => exact .cons_cons rfl (ih (p.after t))

/-- The last tile stops where the text ends. -/
theorem getLast?_tile (p : Position) {ts : List Text} (h : ts ≠ []) :
    (tile p ts).getLast?.map stop = some (p.after ts.flatten) := by
  induction ts generalizing p with
  | nil => exact absurd rfl h
  | cons t ts ih =>
    cases ts with
    | nil => simp [ofText]
    | cons u us =>
      have := ih (p.after t) (by simp)
      simp only [tile_cons, List.getLast?_cons_cons, List.flatten_cons] at this ⊢
      rw [this, ← Position.after_append]

/-- Every location of a tiling covers one stretch of the text. -/
theorem mem_tile {p : Position} {ts : List Text} {l : Location} (h : l ∈ tile p ts) :
    ∃ u v w, ts.flatten = u ++ v ++ w ∧ l = ofText (p.after u) v := by
  induction ts generalizing p with
  | nil => simp at h
  | cons t ts ih =>
    rcases List.mem_cons.1 h with rfl | h
    · exact ⟨[], t, ts.flatten, by simp, rfl⟩
    · obtain ⟨u, v, w, hts, rfl⟩ := ih h
      exact ⟨t ++ u, v, w, by simp [hts], by rw [Position.after_append]⟩

/-- Locations laid edge to edge come one after the other. -/
theorem tile_pairwise (p : Position) (ts : List Text) :
    (tile p ts).Pairwise fun a b => a.stop.offset ≤ b.start.offset := by
  induction ts generalizing p with
  | nil => exact .nil
  | cons t ts ih =>
    refine .cons (fun b hb => ?_) (ih _)
    obtain ⟨u, v, w, -, rfl⟩ := mem_tile hb
    show (p.after t).offset ≤ ((p.after t).after u).offset
    rw [Position.offset_after _ u]; omega

/-- **Locations laid edge to edge from the beginning over the parts of a text tile it.** -/
theorem tiles_tile {ts : List Text} (h : ts ≠ []) : Tiles ts.flatten (tile {} ts) := by
  -- a tile is known by the text before it, its own text and the text behind it
  have hmem : ∀ l ∈ tile {} ts, ∃ u v w, ts.flatten = u ++ v ++ w ∧
      l.start = Text.positionAt ts.flatten u.length ∧
      l.stop = Text.positionAt ts.flatten (u ++ v).length ∧ l.text = v := by
    intro l hl
    obtain ⟨u, v, w, hts, rfl⟩ := mem_tile hl
    refine ⟨u, v, w, hts, ?_, ?_, rfl⟩
    · rw [hts, List.append_assoc, ← Text.after_eq_positionAt]; rfl
    · rw [hts, ← Text.after_eq_positionAt, Position.after_append]; rfl
  refine ⟨?_, tile_isChain _ _, ?_, ?_, ?_, ?_, ?_⟩
  · obtain ⟨t, ts, rfl⟩ := List.exists_cons_of_ne_nil h
    rfl
  · have hend := Text.after_eq_positionAt ts.flatten []
    rw [List.append_nil] at hend
    rw [getLast?_tile _ h, hend]
  · intro l hl
    obtain ⟨u, v, w, hts, h1, h2, -⟩ := hmem l hl
    rw [h1, h2, hts]; simp [Text.positionAt]
  · intro l hl
    obtain ⟨u, v, w, -, h1, -, -⟩ := hmem l hl
    rw [h1]; rfl
  · intro l hl
    obtain ⟨u, v, w, -, -, h2, -⟩ := hmem l hl
    rw [h2]; rfl
  · intro l hl
    obtain ⟨u, v, w, hts, h1, h2, h3⟩ := hmem l hl
    have ht : ts.flatten.take (u ++ v).length = u ++ v := by rw [hts, List.take_left']; rfl
    rw [h1, h2, h3]
    show v = (ts.flatten.take (u ++ v).length).drop u.length
    rw [ht, List.drop_left]

end Location

end Stencil
