import Stencil.Proofs.Bookkeeping
import Stencil.Proofs.Flattening
import Stencil.Proofs.Mirror
import Stencil.Proofs.SourceMaps

/-!
# The nesting limit does not change what is rendered

Inside an element a template without blocks of code is rendered piece by piece
(`Node.placed_eq_pieces`), and the pieces do not depend on the nesting limit. It remains
to see which pieces are inside. With any limit above zero the elements at the top of a
document nest, and what is flattened is flattened inside of them.

The yardstick is again the run in which all elements are flattened, with its nodes
regrouped: a node that is read while an element is open is put into an element of its own
(`regroupTurn`). An element that nests at the top of a document is open in the flat run
from its start tag to its end. Had it been closed there in between, then what is open at
its end would have been read later, and elements are told apart by their places (`Past`).

* `Level.blockless_ofRoom`: a template without blocks has no blocks in its tree, and
  elements are flattened at the places where they are read.
* `Parse.Runs.regroup`: **an element that is open before and after some turns of the flat
  run is open all the time.**
* `Parse.document_regroups`: **a document is rendered as its regrouped flat run.**
* `compile_limits_agree`: two runs with limits above zero render the same.
-/

namespace Stencil

open List (Forall₂)

/-! ## Trees without blocks -/

/-- Inside an element, nodes of these kinds are rendered alike below every parent. -/
def Kind.isFree : Kind → Bool
  | document | brace | codeValue => false
  | _ => true

theorem Kind.isFree_of_isContent {k : Kind} (h : k.isContent = true) : k.isFree = true := by
  revert h; cases k <;> decide

theorem Kind.isFree_of_isEmbedded {k : Kind} (h : k.isEmbedded = true) : k.isFree = true := by
  revert h; cases k <;> decide

theorem Kind.Holds.isFree_of_isGroup {k : Kind} {ks : List Kind} (h : k.Holds ks) (hk : k.isGroup = true) :
    ∀ x ∈ ks, x.isFree = true := by
  revert h hk
  cases k with
  | htmlAttributes =>
    intro h _ x hx
    rcases h x hx with rfl | hx
    · rfl
    · exact isFree_of_isEmbedded hx
  | attributeValue => exact fun h _ x hx => isFree_of_isEmbedded (h x hx)
  | htmlAttribute =>
    rintro ⟨rest, rfl, hrest⟩ _
    refine List.forall_mem_cons.2 ⟨rfl, fun x hx => ?_⟩
    rcases hrest x hx with rfl | rfl | rfl <;> rfl
  | htmlStartTag | htmlEndTag | comment | cdata =>
    intro h _
    rw [Holds] at h
    rw [h]; decide
  | _ => simp [isGroup]

/-- The values of code stand only in expressions, in blocks and in braces of the code. -/
theorem Kind.Holds.isFree {k : Kind} {ks : List Kind} (h : k.Holds ks)
    (hk : k.isElement = true ∨ k.isGroup = true) : ∀ x ∈ ks, x.isFree = true := by
  rcases hk with hk | hk
  · obtain ⟨rest, rfl, hrest⟩ := h.ofElement hk
    refine List.forall_mem_cons.2 ⟨rfl, fun x hx => ?_⟩
    rcases hrest x hx with hx | rfl
    · exact isFree_of_isContent hx
    · rfl
  · exact h.isFree_of_isGroup hk

/-- The chunk of a piece inside an element. -/
def Piece.placed (transition : Char) : Piece → List Placed
  | blank l => Node.blankPlaced (some l)
  | leaf k c l => Node.leafPlaced transition true (some .codeExpression) k c l

namespace Node

variable {tr : Char} {n : Node}

mutual

/-- There are no blocks and no braces of the code in the tree. -/
def Blockless : Node → Prop
  | leaf _ _ _ _ => True
  | branch k cs _ => k ≠ .codeBlock ∧ k ≠ .codeBrace ∧ BlocklessAll cs

/-- There are no blocks and no braces of the code in the trees. -/
def BlocklessAll : List Node → Prop
  | [] => True
  | n :: ns => Blockless n ∧ BlocklessAll ns

end

/-- Nodes are without blocks one by one. -/
theorem blocklessAll_iff {ns : List Node} : BlocklessAll ns ↔ ∀ n ∈ ns, n.Blockless := by
  induction ns with
  | nil => simp [BlocklessAll]
  | cons n ns ih => simp [BlocklessAll, ih]

theorem Blockless.withLead (h : n.Blockless) (lead : Option Location) : (n.withLead lead).Blockless := by
  cases n <;> exact h

/-- A node without code has no blocks. -/
theorem Closed.blockless (h : n.Closed) : n.Blockless := by
  induction h with
  | leaf => trivial
  | @group k cs t hk _ ih =>
    have hkind : k ≠ .codeBlock ∧ k ≠ .codeBrace := by revert hk; cases k <;> decide
    exact ⟨hkind.1, hkind.2, blocklessAll_iff.2 ih⟩

/-- The node has its shape and is of one of the kinds in `P`. -/
def Fits (tr : Char) (P : Kind → Prop) (n : Node) : Prop :=
  n.Shaped tr ∧ P n.kind

theorem blankPlaced_eq_pieces (tr : Char) (l : Option Location) :
    blankPlaced l = (blankPieces l).flatMap (Piece.placed tr) := by
  cases l <;> rfl

/-- Only code in blocks depends on what is around it. -/
theorem leafPlaced_eq_piece {k : Kind} {parent : Option Kind}
    (hk : k.isFree = true ∨ parent = some .codeExpression ∧ k = .codeValue) (c : Leaf) (l : Location) :
    leafPlaced tr true parent k c l = (Piece.leaf k c l).placed tr := by
  rcases hk with hk | ⟨rfl, -⟩
  · have hchunks : leafChunks tr true parent k c l = leafChunks tr true (some .codeExpression) k c l := by
      revert hk; cases k <;> simp [Kind.isFree, leafChunks]
    rw [Piece.placed, leafPlaced, leafPlaced, hchunks]
  · rfl

mutual

/-- **Inside an element a tree without blocks is rendered piece by piece.** -/
theorem placed_eq_pieces : ∀ (n : Node) (parent : Option Kind), n.Shaped tr → n.Blockless →
    n.kind.isFree = true ∨ parent = some .codeExpression ∧ n.kind = .codeValue →
    placed tr true parent n = n.pieces.flatMap (Piece.placed tr)
  | leaf k c l t, parent, _, _, hk => by
    simp only [kind] at hk
    simp only [placed, pieces, List.flatMap_append, List.flatMap_singleton, blankPlaced_eq_pieces tr,
      leafPlaced_eq_piece hk]
  | branch k cs t, parent, h, hb, hk => by
    -- there are no blocks, so code stands in expressions only
    have hchildren : k.putsInElement true = true ∧ ∀ n ∈ cs, n.kind.isFree = true ∨
        some k = some Kind.codeExpression ∧ n.kind = .codeValue := by
      rcases h.1.cases with rfl | hk | hk | hk | hk | rfl
      · simp [kind, Kind.isFree] at hk
      · refine ⟨by revert hk; cases k <;> decide, fun n hn => .inl ?_⟩
        exact h.1.isFree (.inl hk) _ (List.mem_map_of_mem hn)
      · refine ⟨by revert hk; cases k <;> decide, fun n hn => .inl ?_⟩
        exact h.1.isFree (.inr hk) _ (List.mem_map_of_mem hn)
      · exact absurd hk hb.1
      · exact absurd hk hb.2.1
      · refine ⟨rfl, fun n hn => ?_⟩
        have hkinds : cs.map kind = [.transition, .codeValue] := h.1
        have hmem := hkinds ▸ List.mem_map_of_mem (f := kind) hn
        rcases List.mem_pair.1 hmem with hn | hn
        · exact .inl (by rw [hn]; rfl)
        · exact .inr ⟨rfl, hn⟩
    simp only [placed, pieces, List.flatMap_append, blankPlaced_eq_pieces tr, hchildren.1,
      placedAll_eq_pieces cs (some k) h.2.2.2 hb.2.2 hchildren.2]

theorem placedAll_eq_pieces : ∀ (ns : List Node) (parent : Option Kind), ShapedAll tr ns →
    BlocklessAll ns →
    (∀ n ∈ ns, n.kind.isFree = true ∨ parent = some .codeExpression ∧ n.kind = .codeValue) →
    placedAll tr true parent ns = (piecesAll ns).flatMap (Piece.placed tr)
  | [], _, _, _, _ => rfl
  | n :: ns, parent, h, hb, hk => by
    rw [List.forall_mem_cons] at hk
    simp only [placedAll, piecesAll, List.flatMap_append, placed_eq_pieces n parent h.1 hb.1 hk.1,
      placedAll_eq_pieces ns parent h.2 hb.2 hk.2]

end

/-- What an element holds is inside an element, wherever the element stands. -/
theorem placed_element {b : Bool} {parent : Option Kind} (hk : n.kind.isElement = true) :
    placed tr b parent n = placed tr true parent n := by
  cases n with
  | leaf k c l t =>
    simp only [kind] at hk
    cases k <;> first | rfl | cases hk
  | branch k cs t =>
    simp only [kind] at hk
    have hin : ∀ outer, k.putsInElement outer = true := by
      revert hk; cases k <;> simp [Kind.isElement, Kind.putsInElement]
    rw [placed, placed, hin, hin]

end Node

/-! ## The parsers of each level -/

open Node Parse

/-- No transition before a brace is left to read, and all that was flattened stands past
an offset, as does the cursor. -/
structure Past (tr : Char) (p : ℕ) (c : Context) : Prop where
  transition : c.transition = tr
  noBlock : ¬ [tr, '{'] <:+: c.rest
  pos : p ≤ c.pos.offset
  flattened : ∀ f ∈ c.flattened, ∀ l, f.location = some l → p ≤ l.start.offset

/-- A node without blocks, on both sides. -/
def IsBlockless (n _n' : Node) : Prop :=
  n.Blockless

variable {tr : Char} {p : ℕ} {c d : Context}

theorem Past.cut (h : Past tr p c) (k : ℕ) : Past tr p (c.truncateFlattened k) :=
  { h with flattened := fun f hf => h.flattened f (List.mem_of_mem_drop hf) }

/-- What is left to read has no block in it if there was none before. -/
theorem steady_past : Steady (Past tr p) where
  read {c} h n := by
    have hmoved := c.moved_read n
    have hsuffix : (c.read n).2.rest <:+ c.rest := ⟨_, hmoved.rest.symm⟩
    exact ⟨h.transition, fun hb => h.noBlock (hb.trans hsuffix.isInfix),
      h.pos.trans hmoved.offset_le, h.flattened⟩
  report h _ := { h with }
  tooDeep {c} h := by
    unfold Context.reportTooDeep
    split
    · exact h
    · exact { h with }

theorem blockless_of_forall₂ {ns ns' : List Node} (h : Forall₂ IsBlockless ns ns') : BlocklessAll ns := by
  induction h with
  | nil => trivial
  | cons hn _ ih => exact ⟨hn, ih⟩

/-- What is put together from nodes without blocks is without blocks. -/
theorem weave_blockless : Weave (Past tr p) IsBlockless where
  toSteady := steady_past
  closed h := h.blockless
  lead h l := h.withLead l
  group {k ns ns'} hk h := by
    have hkind : k ≠ .codeBlock ∧ k ≠ .codeBrace := by revert hk; cases k <;> decide
    exact ⟨hkind.1, hkind.2, blockless_of_forall₂ h⟩

namespace Parse

variable {code element : Parse Node}

/-- A transition that no brace follows introduces no block. -/
theorem embedded_blockless (body : Parse (List Node)) :
    CodeMirrors (Past tr p) IsBlockless (embedded body) (embedded body) := by
  intro c hc ht
  have hbrace : c.peek ≠ '{' := peek_ne_brace (hc.transition ▸ hc.noBlock) ht
  have htextual : ∀ {q : Parse Node} {Q : Node → Prop}, Textual Q q → (∀ n, Q n → n.Blockless) →
      Mirror q q c fun n n' d => Past tr p d ∧ IsBlockless n n' :=
    fun hq hQ => (hq.mirrors steady_past).imp (fun n _ h => hQ n h.2) c hc
  refine Mirror.get_bind (Mirror.ite (fun _ => ?_) fun _ => Mirror.ite (fun hb => absurd hb hbrace) fun _ =>
    Mirror.ite (fun _ => ?_) fun _ => ?_)
  · exact htextual escapedTransition_textual fun _ h => h.blockless
  · refine htextual codeExpression_textual ?_
    rintro _ ⟨cs, rfl, hcs⟩
    exact ⟨by decide, by decide, blocklessAll_iff.2 fun m hm => (hcs m hm).blockless⟩
  · exact htextual invalidTransition_textual fun _ h => h.blockless

/-- There is no block in an element if there is none in its tag and in what follows it. -/
theorem element_blockless {o o' : Opening} {ns ns' : List Node} (ho : OpeningsMatch IsBlockless o o')
    (hns : Forall₂ IsBlockless ns ns') :
    IsBlockless (.ofChildren o.kind (o.tag :: ns)) (.ofChildren o'.kind (o'.tag :: ns')) := by
  have helement := o.isElement_kind
  refine ⟨?_, ?_, ho.tag, blockless_of_forall₂ hns⟩
  · intro hk; rw [hk] at helement; cases helement
  · intro hk; rw [hk] at helement; cases helement

/-- Elements past the limit have no blocks in them. -/
theorem flatElement_blockless (hcode : CodeMirrors (Past tr p) IsBlockless code code)
    (htraces : TracesCode code) :
    Mirrors (Past tr p) IsBlockless (flatElement code) (flatElement code) := by
  refine flatElement_mirrors weave_blockless hcode ?_ (fun ho => element_blockless ho .nil) ?_
  · -- the element is read past the offset, and so is its name
    intro c d o name hc heq hd hname
    obtain ⟨htag, hshows⟩ := (opening_traces htraces).of_eq heq
    obtain ⟨l, hl, hle, -⟩ := hshows.place_within htag hname
    refine { hd with flattened := List.forall_mem_cons.2 ⟨fun l' hl' => ?_, hd.flattened⟩ }
    obtain rfl : l = l' := Option.some.inj (hl.symm.trans hl')
    exact hc.pos.trans hle
  · intro o o' name ho _ _
    exact (rawTextContent_mirrors weave_blockless.toCarries name fun _ => hcode).imp
      fun _ _ h => element_blockless ho h

/-- **Nor have nested ones.** -/
theorem nestedElement_blockless (hcode : CodeMirrors (Past tr p) IsBlockless code code)
    (helement : Mirrors (Past tr p) IsBlockless element element) :
    Mirrors (Past tr p) IsBlockless (nestedElement code element) (nestedElement code element) := by
  refine fun c hc => nestedElement_mirror weave_blockless hcode (fun ho => element_blockless ho .nil) ?_ ?_
    (weave_blockless.read hc 1)
  · intro o o' name ho _ _
    exact (rawTextContent_mirrors weave_blockless.toCarries name fun _ => hcode).imp
      fun _ _ h => element_blockless ho h
  · intro o o' name ho _ _ c hc
    have hopens : Opens (Past tr p) name c (Past tr p) (Past tr p) :=
      ⟨{ hc with }, fun k _ _ h => h.cut k, fun _ h => h.cut _, steady_past, fun _ h => { h with }⟩
    obtain ⟨hctx, hd, hns⟩ := elementContent_mirror o.place hopens weave_blockless.toCarries hcode
      helement.element
    exact ⟨hctx, hd, element_blockless ho hns⟩

end Parse

/-- The parsers of a level read no blocks, and flatten what stands past an offset. -/
structure Level.Blockless (tr : Char) (p : ℕ) (l : Level) : Prop where
  code : CodeMirrors (Past tr p) IsBlockless l.code l.code
  element : Mirrors (Past tr p) IsBlockless l.element l.element

/-- **A template without blocks has no blocks in its tree**, at every level of nesting. -/
theorem Level.blockless_ofRoom (tr : Char) (p room : ℕ) : (ofRoom room).Blockless tr p := by
  induction room with
  | zero =>
    exact ⟨embedded_blockless flatBody,
      flatElement_blockless (embedded_blockless flatBody) (traced_ofRoom 0).code⟩
  | succ room ih => exact ⟨embedded_blockless _, nestedElement_blockless ih.code ih.element⟩

/-- A turn of a document reads a node of its shape without blocks. -/
theorem Parse.documentPart_blockless (room : ℕ) {n : Node} (hc : Past tr p c)
    (hturn : documentPart (Level.ofRoom room).code (Level.ofRoom room).element 0 c = (some n, d)) :
    Past tr p d ∧ n.Fits tr (·.isContent) ∧ n.Blockless := by
  have hl := Level.blockless_ofRoom tr p room
  have htraced := Level.traced_ofRoom room
  obtain ⟨htrace, hcontent⟩ := (documentPart_traces htraced.code htraced.element 0).of_eq hturn
  have hpart : Mirrors (Past tr p) (Option.Rel IsBlockless) (documentPart _ _ 0) (documentPart _ _ 0) :=
    documentPart_mirrors weave_blockless.toCarries hl.code hl.element.element fun k _ _ h => h.cut k
  obtain ⟨hd, hrel⟩ := hpart.of_eq hc hturn
  cases hrel with
  | some hn => exact ⟨hd, ⟨hc.transition ▸ htrace.shaped n (.head _), hcontent n (.head _)⟩, hn⟩

/-! ## The flat run, regrouped -/

/-- The node, as one read while an element is open. -/
def Node.inElement (n : Node) : Node :=
  .ofChildren .htmlTag [n]

/-- A turn of the flat run. A node read while an element is open is put into one. -/
def regroupTurn : Parse (Option Node) := do
  let c ← get
  return (← flatTurn).map fun n => if c.flattened = [] then n else n.inElement

theorem regroupTurn_eq {n : Node} (h : flatTurn c = (some n, d)) :
    regroupTurn c = (some (if c.flattened = [] then n else n.inElement), d) := by
  rw [regroupTurn, bind_apply, get_apply]
  show ((flatTurn c).1.map _, (flatTurn c).2) = _
  rw [h]; rfl

/-- Every turn but the last one reads on. -/
theorem regroupTurn_goesOn : NodesGoOn regroupTurn := by
  intro c n d h
  have hrest : (flatTurn c).2 = d := congrArg Prod.snd h
  obtain ⟨m, hm, -⟩ := Option.map_eq_some_iff.1 (congrArg Prod.fst h)
  exact documentPart_goesOn 0 0 c m d (Prod.ext hm hrest)

theorem regroupTurn_atEnd (h : c.rest = []) : regroupTurn c = (none, c) := by
  have hturn : flatTurn c = (none, c) := documentPart_atEnd h
  rw [regroupTurn, bind_apply, get_apply]
  show ((flatTurn c).1.map _, (flatTurn c).2) = _
  rw [hturn]; rfl

/-- What the flat run reads, turn after turn. -/
theorem Parse.Runs.blockless {ms : List Node} (h : Runs flatTurn c ms d) (hc : Past tr p c) :
    Past tr p d ∧ ∀ m ∈ ms, m.Fits tr (·.isContent) ∧ m.Blockless := by
  induction h with
  | refl => exact ⟨hc, by simp⟩
  | turn hturn _ ih =>
    obtain ⟨hnext, hn⟩ := documentPart_blockless 0 hc hturn
    obtain ⟨hd, hms⟩ := ih hnext
    exact ⟨hd, List.forall_mem_cons.2 ⟨hn, hms⟩⟩

/-- **An element that is open before and after some turns is open all the time.** Had it
been closed in between, then only elements read later could be open after. -/
theorem Parse.Runs.regroup {ms : List Node} {f : Flattened} {l : Location} (h : Runs flatTurn c ms d)
    (hc : Past tr 0 c) (hf : f ∈ d.flattened) (hl : f.location = some l)
    (hlt : l.start.offset < c.pos.offset) : Runs regroupTurn c (ms.map Node.inElement) d := by
  induction h with
  | refl => exact .refl _
  | @turn c c' d n ms hturn hrun ih =>
    have hnext := (documentPart_blockless 0 hc hturn).1
    -- if nothing were open here, then `f` would have been read past this place
    have hopen : c.flattened ≠ [] := by
      intro hnil
      have hpast : Past tr c.pos.offset c := { hc with pos := le_rfl, flattened := by simp [hnil] }
      have hle := (Runs.blockless (.turn hturn hrun) hpast).1.flattened f hf l hl
      omega
    have hground := Level.traced_ofRoom 0
    obtain ⟨_, hmoved⟩ := ((documentPart_traces hground.code hground.element 0).of_eq hturn).1.moved
    refine .turn ?_ (ih hnext hf (hlt.trans_le hmoved.offset_le))
    rw [regroupTurn_eq hturn, if_neg hopen]

/-! ## In step with the regrouped run -/

/-- From `d`, the regrouped flat run reads what is rendered as the nodes `ns` are and comes
to a context in step with `e`. Elements wait there for their end tags only at the end of
the template. -/
def Regroups (tr : Char) (d : Context) (ns : List Node) (e : Context) : Prop :=
  ∃ ms d' P, Runs regroupTurn d ms d' ∧
    placedAll tr false (some .document) ns = placedAll tr false (some .document) ms ∧
    InStep P [] [] e d' ∧ (P ≠ [] → e.rest = [])

variable {room : ℕ}

/-- The two runs have the same text before them. -/
theorem InStep.past (h : InStep [] [] [] c d) (hc : Past tr 0 c) : Past tr 0 d :=
  ⟨h.transition.trans hc.transition, h.rest ▸ hc.noBlock, Nat.zero_le _, fun _ _ _ _ => Nat.zero_le _⟩

/-- A node that is the same in the flat run, between top elements. -/
theorem InStep.regroups {n : Node} {d' e : Context} (h : InStep [] [] [] c d)
    (hturn : flatTurn d = (some n, d')) (hin : InStep [] [] [] e d') : Regroups tr d [n] e := by
  refine ⟨[n], d', [], .turn ?_ (.refl d'), rfl, hin, fun hP => absurd rfl hP⟩
  have hnil : d.flattened = [] := h.flat
  rw [regroupTurn_eq hturn, if_pos hnil]

namespace Node

theorem placedAll_inElement {parent : Option Kind} {ms : List Node}
    (h : ∀ m ∈ ms, m.Fits tr (·.isContent) ∧ m.Blockless) :
    placedAll tr false parent (ms.map inElement) = (piecesAll ms).flatMap (Piece.placed tr) := by
  induction ms with
  | nil => rfl
  | cons m ms ih =>
    rw [List.forall_mem_cons] at h
    obtain ⟨⟨hfits, hblock⟩, hms⟩ := h
    have hm := placed_eq_pieces m (some .htmlTag) hfits.1 hblock (.inl (Kind.isFree_of_isContent hfits.2))
    have hinner : placed tr false parent m.inElement = placed tr true (some .htmlTag) m := by
      simp [inElement, ofChildren, placed, placedAll, blankPlaced, Kind.putsInElement]
    rw [List.map_cons, placedAll, hinner, hm, ih hms, piecesAll, List.flatMap_append]

theorem Fits.placed_eq_pieces {n : Node} {b : Bool} {parent : Option Kind} (h : n.Fits tr (·.isElement))
    (hb : n.Blockless) : placed tr b parent n = n.pieces.flatMap (Piece.placed tr) := by
  have hfree : n.kind.isFree = true := by
    have helement := h.2
    revert helement; cases n.kind <;> decide
  rw [placed_element h.2]
  exact Node.placed_eq_pieces n parent h.1 hb (.inl hfree)

/-- An element is rendered as its pieces are if these are regrouped. -/
theorem placedAll_regrouped {n n' : Node} {ms : List Node} {parent : Option Kind}
    (hn : n.Fits tr (·.isElement) ∧ n.Blockless) (hn' : n'.Fits tr (·.isElement) ∧ n'.Blockless)
    (hms : ∀ m ∈ ms, m.Fits tr (·.isContent) ∧ m.Blockless) (hpieces : n.pieces = n'.pieces ++ piecesAll ms) :
    placedAll tr false parent [n] = placedAll tr false parent (n' :: ms.map inElement) := by
  rw [placedAll, placedAll, placedAll, List.append_nil, hn.1.placed_eq_pieces hn.2,
    hn'.1.placed_eq_pieces hn'.2, placedAll_inElement hms, hpieces, List.flatMap_append]

end Node

namespace Parse

/-- An element of a template without blocks. -/
theorem element_fits_blockless (room : ℕ) {n : Node} (hc : Past tr p c) (hrest : c.rest ≠ [])
    (h : (Level.ofRoom room).element c = (n, d)) :
    Past tr p d ∧ n.Fits tr (·.isElement) ∧ n.Blockless := by
  have hgives := ((Level.traced_ofRoom room).element c hrest).of_eq h
  obtain ⟨hd, hblock⟩ := (Level.blockless_ofRoom tr p room).element.of_eq hc h
  exact ⟨hd, ⟨hc.transition ▸ hgives.trace.shaped n (.head _), hgives.kind⟩, hblock⟩

/-- **An element at the top of a document is rendered as its regrouped flat run.** -/
theorem element_regroups {n n' : Node} {d₁ e : Context} (hc : Past tr 0 c) (h : InStep [] [] [] c d)
    (hn : (Level.ofRoom (room + 1)).element c = (n, e)) (hn' : Level.ground.element d = (n', d₁))
    (hturn : flatTurn d = (some n', d₁)) : Regroups tr d [n] e := by
  have hboth := nestedElement_inStep (Level.catchesUp_ofRoom room) (Level.traced_ofRoom room) h
  unfold Both at hboth
  rw [show nestedElement _ _ c = (n, e) from hn,
    show flatElement Level.ground.code d = (n', d₁) from hn'] at hboth
  rcases hboth with ⟨rfl, hin⟩ | ⟨f, x, ms, d₂, P, last, hx, hlt, hrun, hpieces, hopen, hlast⟩
  · exact h.regroups hturn hin
  -- the start tag is read while nothing is open, and what follows while the element is
  have hnil : d.flattened = [] := h.flat
  have hfirst : regroupTurn d = (some n', d₁) := by rw [regroupTurn_eq hturn, if_pos hnil]
  have hrest : d.rest ≠ [] := fun hnil => by
    rw [flatTurn, documentPart_atEnd hnil] at hturn
    cases hturn
  obtain ⟨-, hnode⟩ := element_fits_blockless _ hc (h.rest ▸ hrest) hn
  obtain ⟨hd₁, hnode'⟩ := element_fits_blockless 0 (h.past hc) hrest hn'
  obtain ⟨hd₂, hms⟩ := hrun.blockless hd₁
  have hregroup := hrun.regroup hd₁ (by rw [hopen]; simp) hx hlt
  cases hlast with
  | @endTag tag d₃ _ hend hin =>
    obtain ⟨-, htag⟩ := documentPart_blockless 0 hd₂ hend
    have hlast : regroupTurn d₂ = (some tag.inElement, d₃) := by
      rw [regroupTurn_eq hend, if_neg (by rw [hopen]; simp)]
    refine ⟨n' :: (ms ++ [tag]).map inElement, d₃, [], ?_, ?_, hin, fun hP => absurd rfl hP⟩
    · rw [List.map_append]
      exact .turn hfirst (hregroup.trans (.turn hlast (.refl _)))
    · refine placedAll_regrouped hnode hnode' ?_ (by rw [hpieces, piecesAll_append])
      exact List.forall_mem_append.2 ⟨hms, by simpa using htag⟩
  | missing hin hstop =>
    -- no element is open around this one, so only the end of the template stops it
    refine ⟨n' :: ms.map inElement, d₂, _, .turn hfirst hregroup, ?_, hin, fun _ => ?_⟩
    · exact placedAll_regrouped hnode hnode' hms (by rw [hpieces]; simp)
    · exact hstop.resolve_right (by simp)

/-- **A turn of a document**, by the regrouped flat run. -/
theorem documentPart_regroups {n : Node} {e : Context} (hc : Past tr 0 c) (h : InStep [] [] [] c d)
    (hturn : documentPart (Level.ofRoom (room + 1)).code (Level.ofRoom (room + 1)).element 0 c = (some n, e)) :
    Regroups tr d [n] e := by
  have hrest : c.rest ≠ [] := by
    intro hnil
    rw [documentPart_atEnd hnil] at hturn; cases hturn
  have hnil : d.flattened = [] := h.flat
  rw [documentPart_eq_content _ _ hrest (by simp [h.flattened])] at hturn
  obtain ⟨⟨⟩, rfl⟩ := Prod.mk.inj hturn
  have hflat : flatTurn d = _ := documentPart_eq_content _ _ (h.rest ▸ hrest) (by simp [hnil])
  rcases content_inStep (Level.catchesUp_ofRoom (room + 1)) h with ⟨hn, hn'⟩ | ⟨heq, hin⟩
  · exact element_regroups hc h hn hn' hflat
  · rw [heq]
    exact h.regroups hflat hin

/-- **A document is rendered as its regrouped flat run.** -/
theorem document_regroups (room : ℕ) (hc : Past tr 0 c) (h : InStep [] [] [] c d) :
    Ends (document (Level.ofRoom (room + 1)).code (Level.ofRoom (room + 1)).element) c fun n _ =>
      placed tr false none n = placedAll tr false (some .document) (manyNodes regroupTurn d).1 := by
  have hloop := Ends.manyNodes_exit (documentPart_goesOn (room + 1) 0)
    (fun ns e => Past tr 0 e ∧ Regroups tr d ns e) ?_
    ⟨hc, [], d, [], .refl d, rfl, h, fun hP => absurd rfl hP⟩
  · obtain ⟨e, ⟨-, ms, d', P, hrun, hplaced, hin, -⟩, hnone⟩ := hloop
    -- both loops have come to the end of the template
    have hrest := (documentPart_none hnone).1
    have hflat := hrun.manyNodes_eq regroupTurn_goesOn (regroupTurn_atEnd (hin.rest.trans hrest))
    unfold Ends
    rw [document_eq h.flattened, hflat, ← hplaced]
    simp [ofChildren, placed, blankPlaced, Kind.putsInElement]
  · rintro ns e n e' ⟨he, ms, d', P, hrun, hplaced, hin, hP⟩ hturn
    -- nothing waits for its end tag, for there is a turn left
    obtain rfl : P = [] := by
      by_contra hne
      rw [documentPart_atEnd (hP hne)] at hturn; cases hturn
    obtain ⟨ms', d'', P', hrun', hplaced', hin', hP'⟩ := documentPart_regroups he hin hturn
    refine ⟨(documentPart_blockless _ he hturn).1, ms ++ ms', d'', P', hrun.trans hrun', ?_, hin', hP'⟩
    rw [placedAll_append, placedAll_append, hplaced, hplaced']

end Parse

/-! ## Whole templates -/

/-- **The chunks of a template without blocks are those of its regrouped flat run**, with
every limit above zero. -/
theorem parse_regrouped (parsing : ParseOptions) {m : ℕ} (t : Text)
    (hlang : parsing.language ∈ Registry.standard.languages) (hblock : ¬ [parsing.transition, '{'] <:+: t)
    (hm : 1 ≤ m) :
    ∃ r, Template.parse { parsing with maxNestingDepth := m } t = .ok r ∧ r.Laid parsing.transition t ∧
      placedAll parsing.transition false none r.nodes =
        placedAll parsing.transition false (some .document)
          (manyNodes regroupTurn (.atDocument { parsing with maxNestingDepth := 0 } t)).1 := by
  obtain ⟨room, rfl⟩ : ∃ room, m = room + 1 := ⟨m - 1, by omega⟩
  obtain ⟨r, hparse, hlaid⟩ :
      ∃ r, Template.parse { parsing with maxNestingDepth := room + 1 } t = .ok r ∧
        r.Laid parsing.transition t := parse_laid t hlang
  refine ⟨r, hparse, hlaid, ?_⟩
  -- the document and the end of the file, which is not rendered
  obtain rfl := Except.ok.inj (hparse.symm.trans (parse_eq_document t hlang))
  have hpast : Past parsing.transition 0 (.atDocument { parsing with maxNestingDepth := room + 1 } t) :=
    ⟨rfl, hblock, Nat.zero_le _, fun _ _ _ _ => Nat.zero_le _⟩
  have hstep : InStep [] [] [] (.atDocument { parsing with maxNestingDepth := room + 1 } t)
      (.atDocument { parsing with maxNestingDepth := 0 } t) :=
    ⟨rfl, rfl, rfl, rfl, hblock, rfl, rfl, rfl, rfl⟩
  have hdocument : placed parsing.transition false none
      (Template.document { parsing with maxNestingDepth := room + 1 } t).1 = _ :=
    document_regroups room hpast hstep
  have hend : ∀ l, placed parsing.transition false none (.marker .endOfFile l) = [] := fun _ => rfl
  rw [placedAll, placedAll, placedAll, hdocument, hend, List.append_nil, List.append_nil]

/-- Templates with the same text and the same chunks are rendered alike. -/
theorem Template.Laid.render_congr {r₁ r₂ : Template} {source : Text} (h₁ : r₁.Laid tr source)
    (h₂ : r₂.Laid tr source) (hplaced : placedAll tr false none r₁.nodes = placedAll tr false none r₂.nodes)
    (options : RenderOptions) : r₁.render options = r₂.render options := by
  obtain ⟨hcode₁, hmappings₁, hranges₁⟩ := Template.output_writes options h₁.shaped h₁.brace_notMem
  obtain ⟨hcode₂, hmappings₂, hranges₂⟩ := Template.output_writes options h₂.shaped h₂.brace_notMem
  have hlines : r₁.lines tr = r₂.lines tr := congrArg Line.ofPlaced hplaced
  have hemitter : r₁.emitter options = r₂.emitter options := by
    rw [Template.emitter, Template.emitter, h₁.source_eq, h₂.source_eq]
  have hcode : (r₁.output options).code = (r₂.output options).code := by
    rw [hcode₁, hcode₂, hlines]
  have hmappings : (r₁.output options).mappings = (r₂.output options).mappings := by
    rw [hmappings₁, hmappings₂, hlines, hemitter]
  have hranges : (r₁.output options).ranges = (r₂.output options).ranges := by
    rw [hranges₁, hranges₂, hlines, hemitter]
  have htraced : (r₁.render options).traced = (r₂.render options).traced := by
    rw [r₁.traced_render, r₂.traced_render]
    exact hmappings
  rw [Template.render] at htraced ⊢
  rw [Template.render] at htraced ⊢
  simp only [hcode, hmappings, hranges]
  simpa using htraced

/-- **The nesting limit does not change what is rendered.** A template without blocks has
the same code, mappings, ranges and injections with all limits above zero. -/
theorem compile_limits_agree (parsing : ParseOptions) (options : RenderOptions) (m₁ m₂ : ℕ) (t : Text)
    (hlang : parsing.language ∈ Registry.standard.languages) (hblock : ¬ [parsing.transition, '{'] <:+: t)
    (h₁ : 1 ≤ m₁) (h₂ : 1 ≤ m₂) :
    ∃ c₁ c₂, compile { parsing with maxNestingDepth := m₁ } options t = .ok c₁ ∧
      compile { parsing with maxNestingDepth := m₂ } options t = .ok c₂ ∧ c₁.rendered = c₂.rendered := by
  obtain ⟨r₁, hparse₁, hlaid₁, hplaced₁⟩ := parse_regrouped parsing t hlang hblock h₁
  obtain ⟨r₂, hparse₂, hlaid₂, hplaced₂⟩ := parse_regrouped parsing t hlang hblock h₂
  have hrender := hlaid₁.render_congr hlaid₂ (hplaced₁.trans hplaced₂.symm) options
  exact ⟨r₁.compiled options, r₂.compiled options, by rw [compile, hparse₁]; rfl,
    by rw [compile, hparse₂]; rfl, hrender⟩

/-- An element inside another one lacks its end tag, and an expression stands in each and
after them. -/
def unclosedElements : Text :=
  ['<', 'a', '>', '@', 'x', '<', 'b', ' ', '@', 'y', '>', '@', 'z', '<', '/', 'a', '>', '@', 'w']

theorem compile_limits_agree_unclosed :
    ({} : ParseOptions).language ∈ Registry.standard.languages ∧ ¬ ['@', '{'] <:+: unclosedElements ∧
      ∃ c₁ c₂,
        compile { ({} : ParseOptions) with maxNestingDepth := 1 } { includeRanges := true } unclosedElements =
          .ok c₁ ∧
        compile { ({} : ParseOptions) with maxNestingDepth := 3 } { includeRanges := true } unclosedElements =
          .ok c₂ ∧
        c₁.rendered = c₂.rendered :=
  ⟨by decide, by decide,
    compile_limits_agree {} { includeRanges := true } 1 3 _ (by decide) (by decide) (by decide) (by decide)⟩

end Stencil
