import Stencil.Proofs.Chunks
import Stencil.Proofs.Mirror

/-!
# Where code expressions are met

A code expression is written out inside an element and is a statement outside. The parser
knows what is inside by the elements that are open at the cursor; the generator knows it by
the nodes around the expression in the tree. The two agree.

What the parser knows is made visible by a run of the same grammar that notes it on each
expression it meets (`Parse.noting`): a note is set in place of the blanks after the
expression, where the grammar never puts any. `Node.plain` takes the notes away, and
`Node.notedChunks` lowers a tree by its notes: an expression is written if it stands in a
start tag, in a script, or has a note.

* `Level.notes_ofRoom`: **noting changes nothing but the notes**, expressions in the
  content of an element have one and those of a document have none.
* `Node.chunks_plain`: by that, lowering by the nodes around is lowering by the notes.
* `compile_expressions`: the generated code is that of the notes.
* `flattened_expression`: where nothing nests, an element that was flattened does not put
  an expression inside.
-/

namespace Stencil

open List (Forall₂)

/-! ## Notes -/

/-- An element is open at the cursor: it is one around the cursor or a flattened one. Where
nothing nests, flattened elements do not count. -/
def Context.inElement (c : Context) : Bool :=
  !c.openElements.isEmpty || (c.maxDepth != 0 && !c.flattened.isEmpty)

/-- Whether a start tag or a script is around a child of a node of this kind, if it is not
known otherwise. -/
def Kind.putsInTag (k : Kind) (outer : Bool) : Bool :=
  match k with
  | htmlStartTag | scriptTag => true
  | _ => outer

namespace Node

/-- The node with a note. -/
def note (n : Node) : Node :=
  n.withTrivia { n.trivia with trail := some (.empty {}) }

/-- Whether the node has a note. -/
def isNoted (n : Node) : Bool :=
  n.trivia.trail.isSome

/-- The blanks around a node of a kind, without the note on an expression. -/
def plainTrivia (k : Kind) (t : Trivia) : Trivia :=
  if k = .codeExpression then { t with trail := none } else t

mutual

/-- The tree without the notes on its expressions. -/
def plain : Node → Node
  | leaf k c l t => leaf k c l (plainTrivia k t)
  | branch k cs t => branch k (plainAll cs) (plainTrivia k t)

def plainAll : List Node → List Node
  | [] => []
  | n :: ns => plain n :: plainAll ns

end

mutual

/-- The chunks of a tree by its notes. `inTag` says whether a start tag or a script is
around the node. -/
def notedChunks (transition : Char) (inTag : Bool) (parent : Option Kind) : Node → List Chunk
  | leaf k c l t =>
    blankChunks t.lead ++ leafChunks transition inTag parent k c l ++ blankChunks t.trail
  | branch k cs t =>
    if k = .codeExpression then
      blankChunks t.lead ++ notedChunksAll transition (inTag || t.trail.isSome) (some k) cs
    else
      blankChunks t.lead ++ notedChunksAll transition (k.putsInTag inTag) (some k) cs ++
        blankChunks t.trail

def notedChunksAll (transition : Char) (inTag : Bool) (parent : Option Kind) :
    List Node → List Chunk
  | [] => []
  | n :: ns => notedChunks transition inTag parent n ++ notedChunksAll transition inTag parent ns

end

end Node

/-- Reads code and notes on an expression whether it was met `inside`. -/
def Parse.noting (inside : Context → Bool) (code : Parse Node) : Parse Node := do
  let c ← get
  let n ← code
  return if n.kind = .codeExpression ∧ inside c = true then n.note else n

/-- The parsers of a level that note whether expressions are met `inside`. -/
def Level.noting (inside : Context → Bool) : ℕ → Level
  | 0 =>
    { code := Parse.noting inside (Parse.embedded Parse.flatBody)
      element := Parse.flatElement (Parse.noting inside (Parse.embedded Parse.flatBody))
      body := Parse.flatBody }
  | room + 1 =>
    let inner := noting inside room
    { code := Parse.noting inside (Parse.embedded inner.body)
      element := Parse.nestedElement inner.code inner.element
      body := Parse.codeBody inner.body (Parse.nestedElement inner.code inner.element) }

/-- The document of a template with a note on each expression that was met `inside`. -/
def Template.noted (inside : Context → Bool) (options : ParseOptions) (t : Text) : Node :=
  (Parse.document (Level.noting inside options.maxNestingDepth).code
    (Level.noting inside options.maxNestingDepth).element (.atDocument options t)).1

/-! ## Lowering by notes -/

namespace Node

variable {tr : Char} {n : Node} {k : Kind}

/-- A node without its notes is of the same kind. -/
@[simp]
theorem kind_plain (n : Node) : n.plain.kind = n.kind := by cases n <;> rfl

theorem plainAll_eq_map (ns : List Node) : plainAll ns = ns.map plain := by
  induction ns with
  | nil => rfl
  | cons n ns ih => rw [plainAll, ih, List.map_cons]

mutual

/-- The notes on the expressions among the children of elements and documents are right. -/
def Told : Node → Prop
  | leaf _ _ _ _ => True
  | branch k cs _ =>
    (k = .htmlTag ∨ k = .styleTag → ∀ n ∈ cs, n.kind = .codeExpression → n.isNoted = true) ∧
      (k = .document → ∀ n ∈ cs, n.kind = .codeExpression → n.isNoted = false) ∧ ToldAll cs

def ToldAll : List Node → Prop
  | [] => True
  | n :: ns => Told n ∧ ToldAll ns

end

/-- A node of kind `k` that stands in an element if `inElement`, by the nodes around it, and
in a start tag or a script if `inTag`, may have the note. -/
def Suits (inElement inTag : Bool) (k : Kind) (noted : Bool) : Prop :=
  match k with
  | .codeExpression => inElement = (inTag || noted)
  | .htmlStartTag => inElement = true
  | .htmlAttributes | .htmlAttribute | .attributeValue => inElement = true ∧ inTag = true
  | .document => inTag = false
  | _ => True

/-- In a tag every note will do, for no expression there depends on it. -/
theorem suits_of_isEmbedded (hk : k.isEmbedded = true) (noted : Bool) : Suits true true k noted := by
  revert hk; cases k <;> simp [Kind.isEmbedded, Suits]

/-- Content other than expressions may stand anywhere. -/
theorem suits_of_isContent {inElement inTag : Bool} (hk : k.isContent = true ∨ k = .rawText) (noted : Bool)
    (h : k = .codeExpression → inElement = (inTag || noted)) : Suits inElement inTag k noted := by
  revert hk h
  cases k <;> simp [Kind.isContent, Kind.isEmbedded, Kind.isElement, Suits]

/-- Nor does any part of a body. -/
theorem suits_of_isBodyPart (inElement inTag : Bool) (hk : k.isBodyPart = true ∨ k = .brace ∨ k = .transition)
    (noted : Bool) : Suits inElement inTag k noted := by
  revert hk
  cases k <;> simp [Kind.isBodyPart, Kind.isElement, Suits]

/-- **One step down a tree**: the children of a node suit their places if the node does. -/
theorem suits_child {cs : List Node} {t : Trivia} {inElement inTag : Bool} (hk : k.Holds (cs.map kind))
    (htold : Told (branch k cs t)) (hexpr : k ≠ .codeExpression)
    (h : Suits inElement inTag k (branch k cs t).isNoted) : ∀ n ∈ cs,
      Suits (k.putsInElement inElement) (k.putsInTag inTag) n.kind n.isNoted := by
  intro n hn
  have hmem : n.kind ∈ cs.map kind := List.mem_map_of_mem hn
  obtain ⟨hinside, houtside, -⟩ := htold
  revert hk
  cases k with
  -- only these three look at the notes: expressions have none in a document, and one in an element
  | document =>
    intro hk
    have htag : inTag = false := h
    refine suits_of_isContent (.inl (hk _ hmem)) _ fun hkind => ?_
    simp [Kind.putsInElement, Kind.putsInTag, htag, houtside rfl n hn hkind]
  | htmlTag | styleTag =>
    rintro ⟨rest, hks, hrest⟩
    rw [hks] at hmem
    rcases List.mem_cons.1 hmem with hkind | hmem
    · rw [hkind]; rfl
    · refine suits_of_isContent (hrest _ hmem) _ fun hkind => ?_
      simp [Kind.putsInElement, hinside (by simp) n hn hkind]
  | scriptTag =>
    rintro ⟨rest, hks, hrest⟩
    rw [hks] at hmem
    rcases List.mem_cons.1 hmem with hkind | hmem
    · rw [hkind]; rfl
    · exact suits_of_isContent (hrest _ hmem) _ fun _ => by
        simp [Kind.putsInElement, Kind.putsInTag]
  -- from here on the expressions are in a tag, where the notes do not matter
  | htmlStartTag =>
    intro hk
    rw [Kind.Holds] at hk
    have hin : inElement = true := h
    rw [hk] at hmem
    simp only [List.mem_cons, List.not_mem_nil, or_false] at hmem
    rcases hmem with hkind | hkind | hkind | hkind <;> rw [hkind] <;>
      simp [Suits, Kind.putsInElement, Kind.putsInTag, hin]
  | htmlAttributes =>
    intro hk
    obtain ⟨rfl, rfl⟩ := h
    rcases hk _ hmem with hkind | hkind
    · rw [hkind]; exact ⟨rfl, rfl⟩
    · exact suits_of_isEmbedded hkind _
  | htmlAttribute =>
    rintro ⟨rest, hks, hrest⟩
    obtain ⟨rfl, rfl⟩ := h
    rw [hks] at hmem
    rcases List.mem_cons.1 hmem with hkind | hmem
    · rw [hkind]; trivial
    · rcases hrest _ hmem with hkind | hkind | hkind
      · rw [hkind]; trivial
      · rw [hkind]; trivial
      · rw [hkind]; exact ⟨rfl, rfl⟩
  | attributeValue =>
    intro hk
    obtain ⟨rfl, rfl⟩ := h
    exact suits_of_isEmbedded (hk _ hmem) _
  | htmlEndTag | comment | cdata =>
    intro hk
    rw [Kind.Holds] at hk
    rw [hk] at hmem
    simp only [List.mem_cons, List.not_mem_nil, or_false] at hmem
    rcases hmem with hkind | hkind | hkind <;> rw [hkind] <;> trivial
  -- no expression is part of a body
  | codeBlock | codeBrace =>
    rintro ⟨parts, hks, hparts⟩
    rw [hks] at hmem
    apply suits_of_isBodyPart
    by_cases hpart : n.kind ∈ parts
    · exact .inl (hparts _ hpart)
    · right
      simp only [List.mem_append, List.mem_cons, List.not_mem_nil, or_false] at hmem
      tauto
  | codeExpression => exact absurd rfl hexpr
  | _ => exact False.elim

/-- Only in expressions does it matter where a leaf stands. -/
theorem leafChunks_congr {inElement inTag : Bool} {parent : Option Kind} (c : Leaf) (l : Location)
    (h : parent = some .codeExpression → inElement = inTag) :
    leafChunks tr inElement parent k c l = leafChunks tr inTag parent k c l := by
  by_cases hparent : parent = some .codeExpression
  · rw [h hparent]
  · unfold leafChunks
    split <;> simp [hparent]

mutual

/-- **Lowering by the nodes around is lowering by notes.** -/
theorem chunks_plain : ∀ (n : Node) (inElement inTag : Bool) (parent : Option Kind), n.plain.Shaped tr →
    n.Told → Suits inElement inTag n.kind n.isNoted → (parent = some .codeExpression → inElement = inTag) →
    chunks tr inElement parent n.plain = notedChunks tr inTag parent n
  | leaf k c l t, inElement, inTag, parent, hshaped, _, _, hparent => by
    have hk : k ≠ .codeExpression := by
      rintro rfl
      have hleaf := hshaped.1
      cases c <;> simp [LeafShaped, Kind.isPlain, Kind.canMiss] at hleaf
    rw [plain, plainTrivia, if_neg hk, chunks, notedChunks, leafChunks_congr c l hparent]
  | branch k cs t, inElement, inTag, parent, hshaped, htold, hsuits, _ => by
    have hcs : ShapedAll tr (plainAll cs) := hshaped.2.2.2
    have hkinds : k.Holds (cs.map kind) := by
      have h := hshaped.1
      rw [plainAll_eq_map, List.map_map] at h
      simpa [Function.comp_def] using h
    rw [plain, plainTrivia, chunks, notedChunks]
    by_cases hk : k = .codeExpression
    · subst hk
      have hflag : inElement = (inTag || t.trail.isSome) := hsuits
      have hchildren := chunksAll_plain cs inElement (inTag || t.trail.isSome) (some .codeExpression) hcs
        htold.2.2 ?_ fun _ => hflag
      · rw [if_pos rfl, if_pos rfl, ← hchildren]
        simp [blankChunks, Kind.putsInElement]
      · -- the transition and the value
        intro n hn
        have hmem : n.kind ∈ cs.map kind := List.mem_map_of_mem hn
        rw [Kind.Holds] at hkinds
        rw [hkinds] at hmem
        simp only [List.mem_cons, List.not_mem_nil, or_false] at hmem
        rcases hmem with hkind | hkind <;> rw [hkind] <;> trivial
    · rw [if_neg hk, if_neg hk, chunksAll_plain cs _ _ (some k) hcs htold.2.2
        (suits_child hkinds htold hk hsuits) (by simp [hk])]

/-- The same for nodes in a row. -/
theorem chunksAll_plain : ∀ (ns : List Node) (inElement inTag : Bool) (parent : Option Kind),
    ShapedAll tr (plainAll ns) → ToldAll ns → (∀ n ∈ ns, Suits inElement inTag n.kind n.isNoted) →
    (parent = some .codeExpression → inElement = inTag) →
    chunksAll tr inElement parent (plainAll ns) = notedChunksAll tr inTag parent ns
  | [], _, _, _, _, _, _, _ => rfl
  | n :: ns, inElement, inTag, parent, hshaped, htold, hsuits, hparent => by
    rw [List.forall_mem_cons] at hsuits
    rw [plainAll, chunksAll, notedChunksAll,
      chunks_plain n _ _ _ hshaped.1 htold.1 hsuits.1 hparent,
      chunksAll_plain ns _ _ _ hshaped.2 htold.2 hsuits.2 hparent]

end

/-! ## Noting changes nothing but the notes -/

/-- `n` is the node `n'` without its notes, which are right. -/
def Erases (n n' : Node) : Prop :=
  n = n'.plain ∧ n'.Told

/-- Besides, if the node is an expression then it is known whether it has a note. -/
def ErasesAs (noted : Bool) (n n' : Node) : Prop :=
  Erases n n' ∧ (n'.kind = .codeExpression → n'.isNoted = noted)

/-- Nodes in a row lose their notes one by one. -/
theorem Erases.all {ns ns' : List Node} (h : Forall₂ Erases ns ns') :
    ns = plainAll ns' ∧ ToldAll ns' := by
  induction h with
  | nil => exact ⟨rfl, trivial⟩
  | cons hn _ ih => exact ⟨by rw [plainAll, ← hn.1, ← ih.1], hn.2, ih.2⟩

theorem Erases.split {P : Node → Prop} {ns ns' : List Node}
    (h : Forall₂ (fun n n' => Erases n n' ∧ P n') ns ns') :
    Forall₂ Erases ns ns' ∧ ∀ n ∈ ns', P n := by
  induction h with
  | nil => exact ⟨.nil, by simp⟩
  | cons hn _ ih => exact ⟨.cons hn.1 ih.1, List.forall_mem_cons.2 ⟨hn.2, ih.2⟩⟩

/-- A node is without notes if those that it holds are, unless the notes on these matter. -/
theorem erases_branch {ns ns' : List Node} (hk : k ≠ .codeExpression) (h : Forall₂ Erases ns ns')
    (hinside : k = .htmlTag ∨ k = .styleTag → ∀ n ∈ ns', n.kind = .codeExpression → n.isNoted = true)
    (houtside : k = .document → ∀ n ∈ ns', n.kind = .codeExpression → n.isNoted = false) :
    Erases (ofChildren k ns) (ofChildren k ns') := by
  obtain ⟨heq, htold⟩ := Erases.all h
  refine ⟨?_, hinside, houtside, htold⟩
  rw [ofChildren, ofChildren, plain, plainTrivia, if_neg hk, heq]

/-- Blanks are kept, but for those that are a note. -/
theorem plain_withTrivia (n : Node) (t : Trivia) :
    (n.withTrivia t).plain = n.plain.withTrivia (plainTrivia n.kind t) := by
  cases n <;> rfl

theorem trivia_plain (n : Node) : n.plain.trivia = plainTrivia n.kind n.trivia := by
  cases n <;> rfl

theorem told_withTrivia (n : Node) (t : Trivia) : (n.withTrivia t).Told ↔ n.Told := by
  cases n <;> exact Iff.rfl

theorem plain_note (hk : n.kind = .codeExpression) : n.note.plain = n.plain := by
  cases n <;> simp_all [note, plain, Node.withTrivia, Node.trivia, plainTrivia, kind]

theorem isNoted_note (n : Node) : n.note.isNoted = true := by
  cases n <;> rfl

/-- Blanks may be put around any node but an expression, where they could be a note. -/
theorem Erases.withTrivia {n' : Node} (h : Erases n n') (hk : n'.kind ≠ .codeExpression) (t : Trivia) :
    Erases (n.withTrivia t) (n'.withTrivia t) := by
  refine ⟨?_, (told_withTrivia n' t).2 h.2⟩
  rw [plain_withTrivia, plainTrivia, if_neg hk, h.1]

/-- Blanks before a node are never a note. -/
theorem Erases.withLead {n' : Node} (h : Erases n n') (lead : Option Location) :
    Erases (n.withLead lead) (n'.withLead lead) := by
  refine ⟨?_, (told_withTrivia n' _).2 h.2⟩
  rw [Node.withLead, Node.withLead, plain_withTrivia, h.1, trivia_plain, plainTrivia, plainTrivia]
  split <;> rfl

/-- There is nothing to note in a node without code. -/
theorem Closed.erases (h : n.Closed) : Erases n n := by
  induction h with
  | leaf c l t hk =>
    exact ⟨by rw [plain, plainTrivia, if_neg (by rintro rfl; cases hk)], trivial⟩
  | @group k cs t hk _ ih =>
    have hkind : k ≠ .codeExpression ∧ k ≠ .htmlTag ∧ k ≠ .styleTag ∧ k ≠ .document := by
      revert hk; cases k <;> decide
    have herases := erases_branch hkind.1 (List.forall₂_same.2 ih) (fun h => by simp [hkind] at h)
      (fun h => by simp [hkind] at h)
    exact herases.withTrivia hkind.1 t

/-- An expression is not a node without code. -/
theorem Closed.kind_ne (h : n.Closed) : n.kind ≠ .codeExpression := by
  cases h with
  | leaf c l t hk => rintro rfl; cases hk
  | group t hk => rintro rfl; cases hk

end Node

open Node Parse

/-- The context reads with a nesting limit; these elements are open around the cursor, and the
flattened ones fulfil `F`. -/
structure Amid (limit : ℕ) (opened : List Text) (F : List Flattened → Prop) (c : Context) :
    Prop where
  maxDepth : c.maxDepth = limit
  opened : c.openElements = opened
  flattened : F c.flattened

variable {limit : ℕ} {opened : List Text} {F : List Flattened → Prop} {noted : Bool}

/-- Reading and reporting open no elements. -/
theorem steady_amid : Steady (Amid limit opened F) where
  read h _ := ⟨h.maxDepth, h.opened, h.flattened⟩
  report h _ := ⟨h.maxDepth, h.opened, h.flattened⟩
  tooDeep {c} h := by
    unfold Context.reportTooDeep
    split
    · exact h
    · exact ⟨h.maxDepth, h.opened, h.flattened⟩

/-- Nodes that are put together lose the notes of their parts. -/
theorem weave_erases : Weave (Amid limit opened F) Erases where
  toSteady := steady_amid
  closed h := h.erases
  lead h l := h.withLead l
  group {k ns ns'} hk h := by
    have hkind : k ≠ .codeExpression ∧ k ≠ .htmlTag ∧ k ≠ .styleTag ∧ k ≠ .document := by
      revert hk; cases k <;> decide
    exact erases_branch hkind.1 h (fun h => by simp [hkind] at h) (fun h => by simp [hkind] at h)

theorem carries_erasesAs : Carries (Amid limit opened F) (ErasesAs noted) where
  toSteady := steady_amid
  closed h := ⟨h.erases, fun heq => absurd heq h.kind_ne⟩

namespace Parse

variable {I : Context → Prop} {inside : Context → Bool} {code code' : Parse Node}

/-- An expression is noted as it is met, and all else stays as it is. -/
theorem noting_mirror (h : Mirrors I (ErasesAs false) code code') {c : Context} (hc : I c) :
    Mirror code (noting inside code') c fun n n' d => I d ∧ ErasesAs (inside c) n n' := by
  obtain ⟨hctx, hd, ⟨heq, htold⟩, hnote⟩ := h c hc
  refine ⟨hctx, hd, ?_⟩
  show ErasesAs (inside c) (code c).1
    (if (code' c).1.kind = .codeExpression ∧ inside c = true then (code' c).1.note else (code' c).1)
  split
  case isTrue hnoted =>
    refine ⟨⟨?_, (told_withTrivia _ _).2 htold⟩, fun _ => ?_⟩
    · rw [heq, plain_note hnoted.1]
    · rw [hnoted.2, isNoted_note]
  case isFalse hnoted =>
    refine ⟨⟨heq, htold⟩, fun hk => ?_⟩
    rw [hnote hk]
    simpa [hk] using hnoted

/-- An expression is read without a note. -/
theorem codeExpression_erases :
    Mirrors (Amid limit opened F) (ErasesAs false) codeExpression codeExpression := by
  have hI : Steady (Amid limit opened F) := steady_amid
  intro c hc
  obtain ⟨hctx, hd, -⟩ := codeExpression_textual.mirrors hI c hc
  exact ⟨hctx, hd, ⟨rfl, by simp, by simp, trivial, trivial, trivial⟩, fun _ => rfl⟩

/-- **Embedded code** loses the notes of its bodies. -/
theorem embedded_erases {body body' : Parse (List Node)}
    (hbody : Mirrors (Amid limit opened F) (Forall₂ Erases) body body') :
    Mirrors (Amid limit opened F) (ErasesAs false) (embedded body) (embedded body') := by
  refine embedded_mirrors carries_erasesAs weave_erases.toCarries codeExpression_erases ?_
    (hbody.body steady_amid)
  exact fun h => ⟨erases_branch (by decide) h (by simp) (by simp), by simp [ofChildren, kind]⟩

/-- Whatever is noted, nothing but a note is added. -/
theorem noting_erases {body body' : Parse (List Node)}
    (hbody : Mirrors (Amid limit opened F) (Forall₂ Erases) body body') :
    Mirrors (Amid limit opened F) Erases (embedded body) (noting inside (embedded body')) := by
  intro c hc
  obtain ⟨hctx, hd, hn⟩ := noting_mirror (embedded_erases hbody) hc
  exact ⟨hctx, hd, hn.1⟩

/-- Where it is known what is inside, it is known what has a note. -/
theorem noting_erasesAs {body body' : Parse (List Node)}
    (hbody : Mirrors (Amid limit opened F) (Forall₂ Erases) body body')
    (hin : ∀ c, Amid limit opened F c → inside c = noted) :
    Mirrors (Amid limit opened F) (ErasesAs noted) (embedded body) (noting inside (embedded body')) := by
  intro c hc
  rw [← hin c hc]
  exact noting_mirror (embedded_erases hbody) hc

end Parse

/-- Noted by `Context.inElement`, the parsers of one level erase to those of another. -/
structure Level.Notes (limit room : ℕ) (l l' : Level) : Prop where
  code : ∀ opened F, Mirrors (Amid limit opened F) Erases l.code l'.code
  noted : ∀ opened F noted, (∀ c, Amid limit opened F c → c.inElement = noted) →
    Mirrors (Amid limit opened F) (ErasesAs noted) l.code l'.code
  element : ∀ opened F, (room = 0 → ∀ f fs, F fs → F (f :: fs)) →
    Mirrors (Amid limit opened F) (fun n n' => Erases n n' ∧ n'.kind.isElement = true)
      l.element l'.element
  body : ∀ opened F, Mirrors (Amid limit opened F) (Forall₂ Erases) l.body l'.body

namespace Parse

variable {code code' element element' : Parse Node} {o o' : Opening} {ns ns' : List Node}

/-- An element is without notes if its start tag and what follows are. -/
theorem element_erases (ho : OpeningsMatch Erases o o') (hns : Forall₂ Erases ns ns')
    (hnoted : o.kind = .htmlTag ∨ o.kind = .styleTag →
      ∀ n ∈ ns', n.kind = .codeExpression → n.isNoted = true) :
    Erases (.ofChildren o.kind (o.tag :: ns)) (.ofChildren o'.kind (o'.tag :: ns')) ∧
      (Node.ofChildren o'.kind (o'.tag :: ns')).kind.isElement = true := by
  have hkind : o'.kind = o.kind := by rw [Opening.kind, Opening.kind, ho.name]
  have helement := o.isElement_kind
  rw [hkind]
  refine ⟨erases_branch ?_ (.cons ho.tag hns) ?_ ?_, helement⟩
  · intro h; rw [h] at helement; cases helement
  · intro h
    refine List.forall_mem_cons.2 ⟨fun htag => ?_, hnoted h⟩
    rw [ho.kind] at htag; cases htag
  · intro h; rw [h] at helement; cases helement

/-- Code in scripts needs no notes. -/
theorem rawText_erases {name : Text} (hname : o.name = some name) (ho : OpeningsMatch Erases o o')
    (hcode : CodeMirrors (Amid limit opened F) Erases code code') :
    Mirrors (Amid limit opened F) (fun ns ns' =>
      Erases (.ofChildren o.kind (o.tag :: ns)) (.ofChildren o'.kind (o'.tag :: ns')) ∧
        (Node.ofChildren o'.kind (o'.tag :: ns')).kind.isElement = true)
      (rawTextContent code name) (rawTextContent code' name) := by
  by_cases hscript : Html.isScript name = true
  · -- a script, whose expressions need no notes
    have hkind : o.kind = .scriptTag := by simp [Opening.kind, hname, hscript]
    refine (rawTextContent_mirrors weave_erases.toCarries name fun _ => hcode).imp fun ns ns' h => ?_
    exact element_erases ho h (by simp [hkind])
  · -- there are no expressions
    have hN : Carries (Amid limit opened F) fun n n' => Erases n n' ∧ n'.kind ≠ .codeExpression :=
      { steady_amid with
        closed := fun h => ⟨h.erases, h.kind_ne⟩ }
    refine (rawTextContent_mirrors hN name fun h => absurd h hscript).imp fun ns ns' h => ?_
    obtain ⟨hns, hnone⟩ := Erases.split h
    exact element_erases ho hns fun _ n hn hk => absurd hk (hnone n hn)

/-- In the content of an element it is open, and what is flattened there goes with it. -/
theorem opens_amid {c : Context} (hc : Amid limit opened F c) (name : Text) :
    Opens (Amid limit opened F) name c
      (Amid limit (name.lower :: opened) (c.flattened <:+ ·))
      (Amid limit (name.lower :: opened) (· = c.flattened)) where
  push := ⟨hc.maxDepth, by rw [← hc.opened]; rfl, List.suffix_refl _⟩
  cut k hk d hd := ⟨hd.maxDepth, hd.opened, Context.suffix_truncateFlattened hd.flattened hk⟩
  close d hd := ⟨hd.maxDepth, hd.opened, Context.flattened_truncateFlattened hd.flattened⟩
  steady := steady_amid
  pop d hd := by
    refine ⟨hd.maxDepth, ?_, ?_⟩
    · simp [Context.popElement, hd.opened]
    · show F d.flattened
      rw [hd.flattened]; exact hc.flattened

/-- Inside an element one is open. -/
theorem inElement_of_opened {name : Text} {c : Context} (hc : Amid limit (name :: opened) F c) :
    c.inElement = true := by
  simp [Context.inElement, hc.opened]

variable {l l' : Level} {room : ℕ}

/-- **Elements** lose the notes of what is in them. -/
theorem nestedElement_erases (h : l.Notes limit room l') :
    Mirrors (Amid limit opened F) (fun n n' => Erases n n' ∧ n'.kind.isElement = true)
      (nestedElement l.code l.element) (nestedElement l'.code l'.element) := by
  have hcode := (h.code opened F).code
  refine fun c hc => nestedElement_mirror weave_erases hcode (fun ho => element_erases ho .nil (by simp)) ?_ ?_
    (weave_erases.read hc 1)
  · exact fun ho hname _ => rawText_erases hname ho hcode
  · intro o o' name ho hname _ c hc
    have hin : ∀ d, Amid limit (name.lower :: opened) (c.flattened <:+ ·) d → d.inElement = true :=
      fun d hd => inElement_of_opened hd
    have helement : Mirrors (Amid limit (name.lower :: opened) (c.flattened <:+ ·)) (ErasesAs true)
        l.element l'.element := by
      refine (h.element _ _ fun _ f fs hfs => hfs.trans (List.suffix_cons f fs)).imp ?_
      intro n n' hn
      exact ⟨hn.1, fun hk => by rw [hk] at hn; cases hn.2⟩
    obtain ⟨hctx, hd, hns⟩ := elementContent_mirror o.place (opens_amid hc name) carries_erasesAs
      (h.noted _ _ true hin).code helement.element
    obtain ⟨hns, hnoted⟩ := Erases.split hns
    exact ⟨hctx, hd, element_erases ho hns fun _ => hnoted⟩

end Parse

/-- **Noting changes nothing but the notes**, at every level of nesting. -/
theorem Level.notes_ofRoom (limit room : ℕ) :
    (ofRoom room).Notes limit room (noting Context.inElement room) := by
  induction room with
  | zero =>
    have hbody : ∀ opened F, Mirrors (Amid limit opened F) (Forall₂ Erases) flatBody flatBody :=
      fun _ _ => flatBody_mirrors weave_erases.toCarries
    refine ⟨fun o F => noting_erases (hbody o F), fun o F noted => noting_erasesAs (hbody o F), ?_, hbody⟩
    intro opened F hpush
    have hcode : CodeMirrors (Amid limit opened F) Erases ground.code
        (noting Context.inElement 0).code := (noting_erases (hbody opened F)).code
    refine flatElement_mirrors weave_erases hcode ?_ (fun ho => element_erases ho .nil (by simp))
      fun ho hname _ => rawText_erases hname ho hcode
    exact fun c d o name _ _ hd _ => ⟨hd.maxDepth, hd.opened, hpush rfl _ _ hd.flattened⟩
  | succ room ih =>
    refine ⟨fun o F => noting_erases (ih.body o F), fun o F noted => noting_erasesAs (ih.body o F),
      fun _ _ _ => nestedElement_erases ih, fun o F => ?_⟩
    refine codeBody_mirrors weave_erases.toCarries weave_erases.toCarries ?_
      ((ih.body o F).body weave_erases.toSteady) (Mirrors.element ?_)
    · exact fun h => erases_branch (by decide) h (by simp) (by simp)
    · exact (nestedElement_erases ih).imp fun _ _ h => h.1

/-! ## Whole templates -/

/-- The document of a template, with its notes. -/
theorem document_erases (options : ParseOptions) (t : Text) :
    Erases (Template.document options t).1 (Template.noted Context.inElement options t) := by
  have hl := Level.notes_ofRoom options.maxNestingDepth options.maxNestingDepth
  -- where elements nest, none is flattened between the children of the document
  let F : List Flattened → Prop := fun fs => options.maxNestingDepth = 0 ∨ fs = []
  have hin : ∀ c, Amid options.maxNestingDepth [] F c → c.inElement = false := by
    intro c hc
    rcases hc.flattened with hlimit | hnil
    · simp [Context.inElement, hc.opened, hc.maxDepth, hlimit]
    · simp [Context.inElement, hc.opened, hnil]
  have hcut : ∀ k c, Amid options.maxNestingDepth [] F c →
      Amid options.maxNestingDepth [] F (c.truncateFlattened k) := by
    intro k c hc
    refine ⟨hc.maxDepth, hc.opened, hc.flattened.imp id fun hnil => ?_⟩
    simp [Context.truncateFlattened, hnil]
  have helement : Mirrors (Amid options.maxNestingDepth [] F) (ErasesAs false)
      (Level.ofRoom options.maxNestingDepth).element
      (Level.noting Context.inElement options.maxNestingDepth).element := by
    refine (hl.element [] F fun hlimit _ _ _ => .inl hlimit).imp fun n n' hn => ?_
    exact ⟨hn.1, fun hk => by rw [hk] at hn; cases hn.2⟩
  have hdocument := document_mirrors carries_erasesAs (hl.noted [] F false hin).code helement.element hcut
    (M := Erases)
    ?_ (.atDocument options t) ⟨rfl, rfl, .inr rfl⟩
  · exact hdocument.2.2
  · intro ns ns' h
    obtain ⟨hns, hnone⟩ := Erases.split h
    exact erases_branch (by decide) hns (by simp) fun _ => hnone

/-- **What the parser knows to be inside an element is what the generator writes out.** The
generated code is that of the tree with a note on each expression that was met while an
element was open: an expression is written if it stands in a start tag or in a script or
has a note, and else it is a statement. But for the notes the tree is the parsed one. -/
theorem compile_expressions (parsing : ParseOptions) (options : RenderOptions) (source : Text)
    (h : parsing.language ∈ Registry.standard.languages) :
    ∃ r c, Template.parse parsing source = .ok r ∧ compile parsing options source = .ok c ∧
      r.root? = some (Template.noted Context.inElement parsing source).plain ∧
      c.rendered.code = Chunk.function options.functionName (Node.notedChunks parsing.transition false none
        (Template.noted Context.inElement parsing source)) := by
  have hparse := parse_eq_document source h
  have hshaped := shaped_template parsing source
  obtain ⟨heq, htold⟩ := document_erases parsing source
  have hkind : (Template.noted Context.inElement parsing source).kind = .document := rfl
  rw [heq] at hparse hshaped
  have hchunks : Node.chunks parsing.transition false none (Template.noted Context.inElement parsing source).plain
      = _ := Node.chunks_plain _ false false none hshaped.1 htold (by rw [hkind]; rfl) (by simp)
  generalize hr : Template.mk _ _ = r at hparse
  refine ⟨r, r.compiled options, hparse, by rw [compile, hparse]; rfl, ?_, ?_⟩
  · rw [← hr]; rfl
  · have hcode : (r.output options).code = _ := Template.code_output options (by rw [← hr]; exact hshaped)
      (by rw [← hr, List.map_cons, Node.kind_plain, hkind]; simp [Node.marker, Node.kind])
    show (r.output options).code = _
    rw [hcode, ← hr, Node.chunksAll, hchunks]
    simp [Node.chunksAll, Node.marker, Node.chunks, Node.blankChunks, Node.leafChunks]

/-- Expressions outside of elements, in a start tag, and in an element in a block of code. -/
def mixedExpressions : Text :=
  ['@', 'a', '<', 'p', ' ', '@', 'b', '>', '@', '{', '<', 'i', '>', '@', 'c', '}']

theorem compile_expressions_mixed :
    ({} : ParseOptions).language ∈ Registry.standard.languages ∧
      ∃ r c, Template.parse {} mixedExpressions = .ok r ∧ compile {} {} mixedExpressions = .ok c ∧
        r.root? = some (Template.noted Context.inElement {} mixedExpressions).plain ∧
        c.rendered.code = Chunk.function "render" (Node.notedChunks '@' false none
          (Template.noted Context.inElement {} mixedExpressions)) :=
  ⟨by decide, compile_expressions {} {} _ (by decide)⟩

/-- An element is open at the cursor, around it or flattened, whatever the limit. -/
def Context.underElement (c : Context) : Bool :=
  !c.openElements.isEmpty || !c.flattened.isEmpty

/-- The options with which nothing nests. -/
def ParseOptions.flat : ParseOptions where
  maxNestingDepth := 0

/-- An expression in an element. -/
def paragraph : Text :=
  ['<', 'p', '>', '@', 'x', '<', '/', 'p', '>']

/-- Where nothing nests, an expression between the tags of an element is a statement,
although the parser has met it while an element was open. -/
theorem flattened_expression :
    ∃ c, compile .flat {} paragraph = .ok c ∧ c.rendered.code ≠ Chunk.function "render"
      (Node.notedChunks '@' false none (Template.noted Context.underElement .flat paragraph)) := by
  have hany : (compile .flat {} paragraph).toOption.any (fun c => c.rendered.code !=
      Chunk.function "render" (Node.notedChunks '@' false none
        (Template.noted Context.underElement .flat paragraph))) = true := by
    decide +kernel
  cases hc : compile .flat {} paragraph with
  | error e => rw [hc] at hany; cases hany
  | ok c =>
    rw [hc] at hany
    exact ⟨c, rfl, by simpa [Except.toOption] using hany⟩

end Stencil
