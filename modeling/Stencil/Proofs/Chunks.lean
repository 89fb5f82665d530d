import Stencil.Compile
import Stencil.Proofs.Layout
import Stencil.Proofs.Lossless
import Stencil.Proofs.Shape

/-!
# What a render function does, chunk by chunk

The emitter holds text back, writes code at once and knows the scopes around it.
What it does can be said without any of that: a tree has a list of chunks, read off
its blanks and leaves in document order (`Node.chunks`), and a list of chunks has
lines (`Chunk.renderAll`), one for each chunk that is not empty, with adjacent texts
joined. With the places that they were made from (`Node.placed`), the chunks also say
what the lines are mapped to.

* `Node.emit_emits`, `Node.childrenEmit`: **nodes are emitted as their chunks**, if
  they have the shape that the grammar gives them.
* `Template.output_writes`: the output of a template is the lines of its chunks, with
  their mappings and ranges.
* `compile_code`: **the generated code is the function of the chunks of the tree**
  (`Chunk.function`): its head, the lines for the chunks, and its end. Nothing is lost
  and nothing is written twice.
-/

namespace Stencil

/-! ## The chunks of a tree -/

/-- Whether the nearest of the documents, elements and code blocks around a child of
a node of this kind is an element, if it is not known otherwise. -/
def Kind.putsInElement (k : Kind) (outer : Bool) : Bool :=
  match k with
  | document | codeBlock => false
  | htmlTag | scriptTag | styleTag => true
  | _ => outer

/-- The value of a leaf; nothing if it has none. -/
def Leaf.value : Leaf → Text
  | token v => v
  | _ => []

namespace Node

/-- The chunk of the blanks attached to a node. -/
def blankChunks : Option Location → List Chunk
  | some l => [.lit l.text]
  | none => []

/-- The chunk of a leaf, by the kind of its parent and by whether it is in an element. -/
def leafChunks (transition : Char) (inElement : Bool) (parent : Option Kind) (k : Kind) (c : Leaf)
    (l : Location) : List Chunk :=
  match k with
  | .transition | .endOfFile => []
  | .escapedTransition => [.lit [transition]]
  | .brace => if parent = some .codeBrace then [.stmt (if c = .missing then ['}'] else c.value)] else []
  | .codeValue =>
    if parent = some .codeExpression ∧ inElement = true then [.write c.value] else [.stmt c.value]
  | _ => [.lit l.text]

mutual

/-- The chunks of a tree: blanks and leaves one by one, in document order. -/
def chunks (transition : Char) (inElement : Bool) (parent : Option Kind) : Node → List Chunk
  | leaf k c l t =>
    blankChunks t.lead ++ leafChunks transition inElement parent k c l ++ blankChunks t.trail
  | branch k cs t =>
    blankChunks t.lead ++ chunksAll transition (k.putsInElement inElement) (some k) cs ++ blankChunks t.trail

/-- The chunks of several trees. -/
def chunksAll (transition : Char) (inElement : Bool) (parent : Option Kind) : List Node → List Chunk
  | [] => []
  | n :: ns => chunks transition inElement parent n ++ chunksAll transition inElement parent ns

end

/-- The placed chunk of the blanks attached to a node. -/
def blankPlaced : Option Location → List Placed
  | some l => [⟨.lit l.text, l, false⟩]
  | none => []

/-- The placed chunk of a leaf, which stands where the leaf does. -/
def leafPlaced (transition : Char) (inElement : Bool) (parent : Option Kind) (k : Kind) (c : Leaf)
    (l : Location) : List Placed :=
  (leafChunks transition inElement parent k c l).map fun x => ⟨x, l, c = .missing⟩

mutual

/-- The chunks of a tree with their places. -/
def placed (transition : Char) (inElement : Bool) (parent : Option Kind) : Node → List Placed
  | leaf k c l t =>
    blankPlaced t.lead ++ leafPlaced transition inElement parent k c l ++ blankPlaced t.trail
  | branch k cs t =>
    blankPlaced t.lead ++ placedAll transition (k.putsInElement inElement) (some k) cs ++ blankPlaced t.trail

/-- The chunks of several trees with their places. -/
def placedAll (transition : Char) (inElement : Bool) (parent : Option Kind) : List Node → List Placed
  | [] => []
  | n :: ns => placed transition inElement parent n ++ placedAll transition inElement parent ns

end

theorem map_chunk_blankPlaced (l : Option Location) : (blankPlaced l).map Placed.chunk = blankChunks l := by
  cases l <;> rfl

theorem map_chunk_leafPlaced (tr : Char) (inElement : Bool) (parent : Option Kind) (k : Kind) (c : Leaf)
    (l : Location) :
    (leafPlaced tr inElement parent k c l).map Placed.chunk = leafChunks tr inElement parent k c l := by
  rw [leafPlaced, List.map_map]
  exact List.map_id _

mutual

/-- **The placed chunks of a node are its chunks**, by induction on the tree. -/
theorem map_chunk_placed (tr : Char) : ∀ (n : Node) (inElement : Bool) (parent : Option Kind),
    (placed tr inElement parent n).map Placed.chunk = chunks tr inElement parent n
  | leaf k c l t, inElement, parent => by
    simp only [placed, chunks, List.map_append, map_chunk_blankPlaced, map_chunk_leafPlaced]
  | branch k cs t, inElement, parent => by
    simp only [placed, chunks, List.map_append, map_chunk_blankPlaced, map_chunk_placedAll tr cs]

/-- Without their places, placed chunks are the chunks of the trees. -/
theorem map_chunk_placedAll (tr : Char) : ∀ (ns : List Node) (inElement : Bool) (parent : Option Kind),
    (placedAll tr inElement parent ns).map Placed.chunk = chunksAll tr inElement parent ns
  | [], _, _ => rfl
  | n :: ns, inElement, parent => by
    simp only [placedAll, chunksAll, List.map_append, map_chunk_placed tr n, map_chunk_placedAll tr ns]

end

theorem placedAll_append (tr : Char) (b : Bool) (parent : Option Kind) (ns ms : List Node) :
    placedAll tr b parent (ns ++ ms) = placedAll tr b parent ns ++ placedAll tr b parent ms := by
  induction ns with
  | nil => rfl
  | cons n ns ih => simp [placedAll, ih]

theorem places_blankPlaced (l : Option Location) :
    (blankPlaced l).map Placed.place = (blankPieces l).map Piece.location := by
  cases l <;> rfl

theorem places_leafPlaced (tr : Char) (inElement : Bool) (parent : Option Kind) (k : Kind) (c : Leaf)
    (l : Location) : ((leafPlaced tr inElement parent k c l).map Placed.place).Sublist [l] := by
  unfold leafPlaced leafChunks
  split
  all_goals first | exact .refl _ | exact List.nil_sublist _ | (split <;> simp)

mutual

/-- Chunks are placed on pieces of the node, in order. -/
theorem places_placed (tr : Char) : ∀ (n : Node) (inElement : Bool) (parent : Option Kind),
    ((placed tr inElement parent n).map Placed.place).Sublist (n.pieces.map Piece.location)
  | leaf k c l t, inElement, parent => by
    simp only [placed, pieces, List.map_append, places_blankPlaced]
    exact ((List.Sublist.refl _).append (places_leafPlaced tr inElement parent k c l)).append (.refl _)
  | branch k cs t, inElement, parent => by
    simp only [placed, pieces, List.map_append, places_blankPlaced]
    exact ((List.Sublist.refl _).append (places_placedAll tr cs _ _)).append (.refl _)

/-- The places of the chunks are those of pieces, in document order. -/
theorem places_placedAll (tr : Char) : ∀ (ns : List Node) (inElement : Bool) (parent : Option Kind),
    ((placedAll tr inElement parent ns).map Placed.place).Sublist ((piecesAll ns).map Piece.location)
  | [], _, _ => .refl _
  | n :: ns, inElement, parent => by
    simp only [placedAll, piecesAll, List.map_append]
    exact (places_placed tr n _ _).append (places_placedAll tr ns _ _)

end

/-- Code is placed where it stands in the source. -/
theorem leafPlaced_faithful {tr : Char} {k : Kind} {c : Leaf} {l : Location} (h : LeafShaped tr k l c)
    (inElement : Bool) (parent : Option Kind) :
    ∀ p ∈ leafPlaced tr inElement parent k c l, p.Faithful := by
  intro p hp hcode hfound
  obtain ⟨x, hx, rfl⟩ := List.mem_map.1 hp
  cases c with
  | missing => simp at hfound
  | marker => rcases h with rfl | rfl <;> simp [leafChunks] at hx
  | token v =>
    show x.content = l.text
    -- code is made of braces and values only, which hold the text that they cover
    have hv : k = .brace ∨ k = .codeValue → v = l.text := by
      rintro (rfl | rfl)
      · exact h.1
      · exact h.1
    unfold leafChunks at hx
    split at hx
    · simp at hx
    · simp at hx
    · simp only [List.mem_singleton] at hx; subst hx; simp [Chunk.isText] at hcode
    · split at hx
      · simp only [List.mem_singleton, reduceCtorEq, if_false] at hx; subst hx; exact hv (.inl rfl)
      · simp at hx
    · split at hx
      · simp only [List.mem_singleton] at hx; subst hx; exact hv (.inr rfl)
      · simp only [List.mem_singleton] at hx; subst hx; exact hv (.inr rfl)
    · simp only [List.mem_singleton] at hx; subst hx; simp [Chunk.isText] at hcode

theorem blankPlaced_faithful (l : Option Location) : ∀ p ∈ blankPlaced l, p.Faithful := by
  intro p hp hcode
  cases l with
  | none => simp [blankPlaced] at hp
  | some l => rw [List.mem_singleton.1 hp] at hcode; simp [Chunk.isText] at hcode

mutual

theorem placed_faithful {tr : Char} : ∀ (n : Node) (inElement : Bool) (parent : Option Kind), n.Shaped tr →
    ∀ p ∈ placed tr inElement parent n, p.Faithful
  | leaf k c l t, inElement, parent, h => by
    rw [placed]
    exact List.forall_mem_append.2 ⟨List.forall_mem_append.2
      ⟨blankPlaced_faithful _, leafPlaced_faithful h.1 inElement parent⟩, blankPlaced_faithful _⟩
  | branch k cs t, inElement, parent, h => by
    rw [placed]
    exact List.forall_mem_append.2 ⟨List.forall_mem_append.2
      ⟨blankPlaced_faithful _, placedAll_faithful cs _ _ h.2.2.2⟩, blankPlaced_faithful _⟩

/-- **Code is taken over as it stands**, unless it stands for a brace that was not found. -/
theorem placedAll_faithful {tr : Char} : ∀ (ns : List Node) (inElement : Bool) (parent : Option Kind),
    ShapedAll tr ns → ∀ p ∈ placedAll tr inElement parent ns, p.Faithful
  | [], _, _, _ => by simp [placedAll]
  | n :: ns, inElement, parent, h => by
    rw [placedAll]
    exact List.forall_mem_append.2 ⟨placed_faithful n _ _ h.1, placedAll_faithful ns _ _ h.2⟩

end

/-! ## Emission, node by node -/

open Emitter

variable {tr : Char} {inElement : Bool} {parent : Option Kind} {e : Emitter}

/-- Blanks are emitted as text. -/
theorem emitBlanks_emits (l : Option Location) (e : Emitter) : e.Emits (blankPlaced l) (emitBlanks l e) := by
  cases l with
  | none => exact .refl e
  | some l => exact e.literal_emits l.text l false

theorem emitLeaf_plain {k : Kind} (hk : k.isPlain = true) (c : Leaf) (l : Location) :
    e.Emits (leafPlaced tr inElement parent k c l) (emitLeaf k c l e) := by
  have hchunk : leafChunks tr inElement parent k c l = [.lit l.text] := by
    revert hk; cases k <;> simp [Kind.isPlain, leafChunks]
  have hemit : emitLeaf k c l e = e.literal l.text l := by
    revert hk; cases k <;> simp [Kind.isPlain, emitLeaf]
  rw [leafPlaced, hchunk, hemit]
  exact e.literal_emits l.text l _

theorem isPlain_of_canMiss {k : Kind} (h : k.canMiss = true) (hk : k ≠ .brace) : k.isPlain = true := by
  revert h hk; cases k <;> decide

/-- A leaf other than a brace or the value of an expression is emitted as its chunk. -/
theorem emitLeaf_emits {k : Kind} {c : Leaf} {l : Location} (h : LeafShaped tr k l c) (hk : k ≠ .brace)
    (hparent : parent ≠ some .codeExpression) :
    e.Emits (leafPlaced tr inElement parent k c l) (emitLeaf k c l e) := by
  cases c with
  | token v =>
    rw [LeafShaped] at h
    split at h
    · rename_i hesc
      subst hesc h
      exact e.literal_emits [tr] l _
    · obtain ⟨-, hplain | hbrace | rfl⟩ := h
      · exact emitLeaf_plain hplain _ l
      · exact absurd hbrace hk
      · have hchunk : leafChunks tr inElement parent .codeValue (.token v) l = [.stmt v] := by
          simp [leafChunks, hparent, Leaf.value]
        rw [leafPlaced, hchunk]
        exact e.statement_emits v l _
  | missing => exact emitLeaf_plain (isPlain_of_canMiss h hk) _ l
  | marker =>
    rcases h with rfl | rfl
    · exact .refl e
    · exact .refl e

/-- A node of a leaf kind that takes no blanks is a bare leaf. -/
theorem Shaped.bare {n : Node} (h : n.Shaped tr)
    (hk : n.kind = .transition ∨ n.kind = .brace ∨ n.kind = .codeValue) :
    ∃ c l, n = leaf n.kind c l {} ∧ LeafShaped tr n.kind l c := by
  cases n with
  | leaf k c l t =>
    obtain ⟨hleaf, ht⟩ := h
    have hno : k.takesBlanks = false := by
      simp only [kind] at hk
      rcases hk with rfl | rfl | rfl <;> rfl
    obtain rfl : t = {} := ht.resolve_right (by simp [hno])
    exact ⟨c, l, rfl, hleaf⟩
  | branch k cs t =>
    -- no branch is of these kinds
    have hholds := h.1
    simp only [kind] at hk
    rcases hk with rfl | rfl | rfl <;> exact hholds.elim

/-- An expression is its transition and its value. -/
theorem emitExpression_emits {cs : List Node} (h : ShapedAll tr cs)
    (hkinds : cs.map kind = [.transition, .codeValue])
    (hscope : e.scope? = some .insideTag ↔ inElement = true) :
    e.Emits (placedAll tr inElement (some .codeExpression) cs) (emitExpression cs e) := by
  obtain ⟨a, rest, rfl, ha, hrest⟩ := List.map_eq_cons_iff.1 hkinds
  obtain ⟨b, rest, rfl, hb, hrest⟩ := List.map_eq_cons_iff.1 hrest
  obtain rfl := List.map_eq_nil_iff.1 hrest
  rw [shapedAll_iff] at h
  obtain ⟨ca, la, hna, -⟩ := (h a (by simp)).bare (.inl ha)
  obtain ⟨cb, lb, hnb, hleaf⟩ := (h b (by simp)).bare (.inr (.inr hb))
  rw [ha] at hna
  rw [hb] at hnb hleaf
  subst hna hnb
  cases cb with
  | token v =>
    -- the scope of the emitter and the place in the tree decide alike
    have hemit : emitExpression [leaf .transition ca la {}, leaf .codeValue (.token v) lb {}] e =
        if e.scope? = some .insideTag then e.expression v lb else e.statement v lb := rfl
    rw [hemit]
    by_cases hin : inElement = true
    · rw [if_pos (hscope.2 hin)]
      simpa [placedAll, placed, blankPlaced, leafPlaced, leafChunks, Leaf.value, hin] using
        e.expression_emits v lb _
    · rw [if_neg fun h => hin (hscope.1 h)]
      simpa [placedAll, placed, blankPlaced, leafPlaced, leafChunks, Leaf.value, hin] using
        e.statement_emits v lb _
  | missing => simp [LeafShaped, Kind.canMiss] at hleaf
  | marker => simp [LeafShaped] at hleaf

/-- A brace of the code is a statement; a missing one closes. -/
theorem emitBrace_emits {n : Node} {first : Bool} (h : n.Shaped tr) (hk : n.kind = .brace)
    (hfirst : first = true → n.isMissing = false) :
    e.Emits (placed tr inElement (some .codeBrace) n) (emitBrace first n e) := by
  obtain ⟨c, l, hn, hleaf⟩ := h.bare (.inr (.inl hk))
  rw [hk] at hn hleaf
  subst hn
  cases c with
  | token v =>
    simpa [placed, blankPlaced, leafPlaced, leafChunks, Leaf.value, emitBrace] using
      e.statement_emits v l _
  | missing =>
    have hlater : first = false := by
      cases first with
      | false => rfl
      | true => exact absurd (hfirst rfl) (by simp [isMissing])
    simpa [placed, blankPlaced, leafPlaced, leafChunks, emitBrace, hlater] using
      e.statement_emits ['}'] l true
  | marker => simp [LeafShaped] at hleaf

/-- The transition of a code block and its braces are not emitted. -/
theorem placed_skipped {n : Node} (h : n.Shaped tr) (hk : n.kind = .transition ∨ n.kind = .brace) :
    placed tr inElement (some .codeBlock) n = [] := by
  obtain ⟨c, l, hn, -⟩ := h.bare (hk.imp_right .inl)
  rcases hk with hk | hk
  · rw [hn, hk]; simp [placed, blankPlaced, leafPlaced, leafChunks]
  · rw [hn, hk]; simp [placed, blankPlaced, leafPlaced, leafChunks]

/-- What is emitted for a branch between the blanks attached to it. -/
def emitInner (k : Kind) (cs : List Node) (e : Emitter) : Emitter :=
  match k with
  | .document => e.within .document (emitAll cs)
  | .htmlTag | .scriptTag | .styleTag => e.within .insideTag (emitAll cs)
  | .codeBlock => e.within .insideCodeBlock (emitBlock cs)
  | .codeBrace => emitBraces true cs e
  | .codeExpression => emitExpression cs e
  | .htmlStartTag | .htmlAttributes | .htmlAttribute | .attributeValue | .htmlEndTag | .comment | .cdata =>
    emitAll cs e
  | _ => e

theorem emit_branch (k : Kind) (cs : List Node) (t : Trivia) (e : Emitter) :
    emit (branch k cs t) e = emitBlanks t.trail (emitInner k cs (emitBlanks t.lead e)) := by
  cases k <;> simp only [emit, emitInner]

/-- The three ways to emit the children of a branch agree with their chunks. -/
structure ChildrenEmit (tr : Char) (cs : List Node) : Prop where
  all : ∀ (e : Emitter) (inElement : Bool) (parent : Option Kind), .brace ∉ cs.map kind →
    parent ≠ some .codeExpression → (e.scope? = some .insideTag ↔ inElement = true) →
    e.Emits (placedAll tr inElement parent cs) (emitAll cs e)
  block : ∀ e : Emitter, e.scope? ≠ some .insideTag →
    e.Emits (placedAll tr false (some .codeBlock) cs) (emitBlock cs e)
  braces : ∀ (e : Emitter) (inElement first : Bool), (e.scope? = some .insideTag ↔ inElement = true) →
    (first = true → ∀ n ∈ cs.head?, n.isMissing = false) →
    e.Emits (placedAll tr inElement (some .codeBrace) cs) (emitBraces first cs e)

/-- **A branch emits the chunks of its children** in its own way. -/
theorem emitInner_emits {k : Kind} {cs : List Node} (h : ShapedAll tr cs) (hk : k.Holds (cs.map kind))
    (hopen : k = .codeBrace → ∀ n ∈ cs.head?, n.isMissing = false) (hcs : ChildrenEmit tr cs)
    (hscope : e.scope? = some .insideTag ↔ inElement = true) :
    e.Emits (placedAll tr (k.putsInElement inElement) (some k) cs) (emitInner k cs e) := by
  -- a document, an element, a group, a block, a brace of the code, an expression
  rcases hk.cases with rfl | helem | hgroup | rfl | rfl | rfl
  · refine within_emits (hcs.all _ _ _ (hk.brace_notMem (.inl rfl)) (by simp) ?_)
    simp [scope?, enter, Kind.putsInElement]
  · have hinner : k.putsInElement inElement = true ∧
        emitInner k cs e = e.within .insideTag (emitAll cs) := by
      revert helem; cases k <;> simp [Kind.isElement, Kind.putsInElement, emitInner]
    rw [hinner.1, hinner.2]
    refine within_emits (hcs.all _ _ _ (hk.brace_notMem (.inr (.inl helem))) ?_ (by simp [scope?, enter]))
    rintro ⟨⟩; simp [Kind.isElement] at helem
  · have hinner : k.putsInElement inElement = inElement ∧ emitInner k cs e = emitAll cs e := by
      revert hgroup; cases k <;> simp [Kind.isGroup, Kind.putsInElement, emitInner]
    rw [hinner.1, hinner.2]
    refine hcs.all _ _ _ (hk.brace_notMem (.inr (.inr hgroup))) ?_ hscope
    rintro ⟨⟩; simp [Kind.isGroup] at hgroup
  · exact within_emits (hcs.block _ (by simp [scope?, enter]))
  · exact hcs.braces e _ true hscope fun _ => hopen rfl
  · exact emitExpression_emits h hk hscope

mutual

/-- **A node is emitted as its chunks.** -/
theorem emit_emits : ∀ (n : Node) (e : Emitter) (inElement : Bool) (parent : Option Kind),
    n.Shaped tr → n.kind ≠ .brace → parent ≠ some .codeExpression →
    (e.scope? = some .insideTag ↔ inElement = true) →
    e.Emits (placed tr inElement parent n) (emit n e)
  | leaf k c l t, e, inElement, parent, h, hk, hparent, _ => by
    rw [placed, emit]
    have hlead := emitBlanks_emits t.lead e
    exact (hlead.trans (emitLeaf_emits h.1 hk hparent)).trans (emitBlanks_emits t.trail _)
  | branch k cs t, e, inElement, parent, h, _, _, hscope => by
    have hlead := emitBlanks_emits t.lead e
    have hscope' : (emitBlanks t.lead e).scope? = some .insideTag ↔ inElement = true := by
      rw [scope?, hlead.scopes]; exact hscope
    rw [placed, emit_branch]
    exact (hlead.trans (emitInner_emits h.2.2.2 h.1 h.2.2.1 (childrenEmit cs h.2.2.2) hscope')).trans
      (emitBlanks_emits t.trail _)

/-- **Nodes are emitted as their chunks**, in each of the ways that their parent may ask for. -/
theorem childrenEmit : ∀ ns : List Node, ShapedAll tr ns → ChildrenEmit tr ns
  | [], _ => ⟨fun e _ _ _ _ _ => .refl e, fun e _ => .refl e, fun e _ _ _ _ => .refl e⟩
  | n :: ns, h => by
    have hns := childrenEmit ns h.2
    refine ⟨?_, ?_, ?_⟩
    · intro e inElement parent hbrace hparent hscope
      rw [List.map_cons, List.mem_cons, not_or] at hbrace
      have hn := emit_emits n e inElement parent h.1 (Ne.symm hbrace.1) hparent hscope
      rw [placedAll, emitAll]
      exact hn.trans (hns.all _ _ _ hbrace.2 hparent (by rwa [scope?, hn.scopes]))
    · intro e hscope
      rw [placedAll, emitBlock]
      by_cases hskip : n.kind = .transition ∨ n.kind = .brace
      · -- the transition of the block or one of its braces
        rw [if_pos hskip, placed_skipped h.1 hskip]
        exact hns.block e hscope
      · rw [if_neg hskip]
        have hn := emit_emits n e false (some .codeBlock) h.1 (fun hk => hskip (.inr hk)) (by simp)
          (by simpa using hscope)
        exact hn.trans (hns.block _ (by rwa [scope?, hn.scopes]))
    · intro e inElement first hscope hfirst
      rw [placedAll, emitBraces]
      by_cases hk : n.kind = .brace
      · rw [if_pos hk]
        have hn : e.Emits (placed tr inElement (some .codeBrace) n) (emitBrace first n e) :=
          emitBrace_emits h.1 hk fun hf => hfirst hf n rfl
        exact hn.trans (hns.braces _ _ false (by rwa [scope?, hn.scopes]) (by simp))
      · rw [if_neg hk]
        have hn := emit_emits n e inElement (some .codeBrace) h.1 hk (by simp) hscope
        exact hn.trans (hns.braces _ _ false (by rwa [scope?, hn.scopes]) (by simp))

end

end Node

/-! ## Whole templates -/

/-- The lines of the render function of a template. -/
def Template.lines (transition : Char) (r : Template) : List Line :=
  Line.ofPlaced (Node.placedAll transition false none r.nodes)

/-- The first line of the function of a name. -/
def Chunk.head (name : String) : Text :=
  s!"export default function {name}(model, __writer) \x7b".toList ++ ['\n']

/-- An emitter before anything is written. -/
def Template.emitter (r : Template) (options : RenderOptions) : Emitter where
  source := r.source
  collectRanges := options.includeRanges

/-- **The output of a template** whose nodes have their shapes: between the first line and
the last, the lines for its chunks, each with its mapping and its range. -/
theorem Template.output_writes {r : Template} {tr : Char} (options : RenderOptions)
    (h : Node.ShapedAll tr r.nodes) (hbrace : .brace ∉ r.nodes.map Node.kind) :
    (r.output options).code = Chunk.head options.functionName ++
        ((r.lines tr).flatMap fun l => l.chunk.render) ++ ['}', '\n'] ∧
      (r.output options).mappings =
        Line.records (Line.mapping (r.emitter options)) (Chunk.head options.functionName) (r.lines tr) ∧
      (r.output options).ranges = if options.includeRanges then
        Line.records (Line.range (r.emitter options)) (Chunk.head options.functionName) (r.lines tr)
        else [] := by
  -- the emitter after the head of the function, in which no text waits
  generalize hstart : (r.emitter options).line
    s!"export default function {options.functionName}(model, __writer) \x7b".toList = e
  have he : e = (r.emitter options).write (Chunk.head options.functionName) := by
    rw [← hstart, Emitter.line, Emitter.flush_of_none rfl, ← Emitter.write_append]; rfl
  have htracked : e.output.Tracked := by
    rw [he]; exact Output.tracked_empty.push _
  have hwaits : e.Waits [] := by
    rw [he]; exact ⟨rfl, by simp⟩
  have hscope : e.scope? = some .insideTag ↔ false = true := by
    have hnone : e.scope? = none := by
      rw [he]; rfl
    simp [hnone]
  have hemits := (Node.childrenEmit r.nodes h).all e false none hbrace (by simp) hscope
  have hwrites := hemits.flush_writes htracked hwaits
  -- the last line is written after the flush, and then nothing waits
  have houtput : r.output options = (Node.emitAll r.nodes e).flush.output.push ['}', '\n'] := by
    show (Emitter.finish (Emitter.line (Node.emitAll r.nodes (Emitter.line (r.emitter options) _)) ['}'])) = _
    have hnone : ((Node.emitAll r.nodes e).flush.write (['}'] ++ ['\n'])).pending = none :=
      Emitter.pending_flush _
    rw [hstart, Emitter.finish, Emitter.line, ← Emitter.write_append, Emitter.flush_of_none hnone]
    rfl
  have hcode : e.output.code = Chunk.head options.functionName := by
    rw [he, Emitter.output_write, Output.code_push]; rfl
  have hmappings : e.output.mappings = [] := by
    rw [he, Emitter.output_write, Output.mappings_push]; rfl
  have hranges : e.output.ranges = [] := by
    rw [he, Emitter.output_write, Output.ranges_push]; rfl
  have hsource : e.source = (r.emitter options).source := by rw [he]; rfl
  have hcollect : e.collectRanges = options.includeRanges := by rw [he]; rfl
  refine ⟨?_, ?_, ?_⟩
  · rw [houtput, Output.code_push, hwrites.code, hcode]; rfl
  · rw [houtput, Output.mappings_push, hwrites.mappings, hmappings, hcode, Line.mapping_congr hsource]; rfl
  · rw [houtput, Output.ranges_push, hwrites.ranges, hranges, hcode, Line.range_congr hsource, hcollect]; rfl

/-- The code of a template whose nodes have their shapes. -/
theorem Template.code_output {r : Template} {tr : Char} (options : RenderOptions)
    (h : Node.ShapedAll tr r.nodes) (hbrace : .brace ∉ r.nodes.map Node.kind) :
    (r.output options).code = Chunk.function options.functionName (Node.chunksAll tr false none r.nodes) := by
  rw [(output_writes options h hbrace).1, lines, Line.render_ofPlaced, Node.map_chunk_placedAll]
  rfl

/-- The document and the end of the file have the shapes that the grammar gives them. -/
theorem shaped_template (options : ParseOptions) (t : Text) :
    Node.ShapedAll options.transition [(Template.document options t).1,
      .marker .endOfFile (.empty (Template.document options t).2.pos)] := by
  have hdoc := (Template.document_traced options t).shaped _ (List.mem_singleton_self _)
  exact ⟨hdoc, ⟨.inr rfl, .inl rfl⟩, trivial⟩

/-- **The generator loses nothing and writes nothing twice.** The generated code is
the function that does what the chunks of the tree say. -/
theorem compile_code (parsing : ParseOptions) (options : RenderOptions) (source : Text)
    (h : parsing.language ∈ Registry.standard.languages) :
    ∃ r c, Template.parse parsing source = .ok r ∧ compile parsing options source = .ok c ∧
      c.rendered.code =
        Chunk.function options.functionName (Node.chunksAll parsing.transition false none r.nodes) := by
  have hparse := parse_eq_document source h
  have hshaped := shaped_template parsing source
  refine ⟨_, Template.compiled _ options, hparse, ?_, Template.code_output options hshaped ?_⟩
  · rw [compile, hparse]; rfl
  · -- neither the document nor the end of the file is a brace
    rw [List.map_cons, kind_document]
    simp [Node.marker, Node.kind]

theorem compile_code_unclosed :
    ({} : ParseOptions).language ∈ Registry.standard.languages ∧
      ∃ r c, Template.parse {} ['@', '{', 'f', '{', '<', 'p', '>', '@', 'x', ' '] = .ok r ∧
        compile {} {} ['@', '{', 'f', '{', '<', 'p', '>', '@', 'x', ' '] = .ok c ∧
        c.rendered.code = Chunk.function "render" (Node.chunksAll '@' false none r.nodes) :=
  ⟨by decide, compile_code {} {} _ (by decide)⟩

end Stencil
