import Stencil.Proofs.Step

/-!
# The shape of syntax trees

`Shaped transition n` says which nodes the grammar makes: which kinds are leaves
and which are branches, what a leaf of each kind says, where blanks may be
attached, and of which kinds the children of a branch are. It looks at one node and
the kinds of its children at a time. All nodes of a trace have this shape (`Trace.shaped`).
-/

namespace Stencil

namespace Kind

/-- What a transition introduces. An invalid transition is literal text. -/
def isEmbedded : Kind → Bool
  | codeBlock | codeExpression | escapedTransition | literal => true
  | _ => false

/-- What stands between tags. -/
def isContent (k : Kind) : Bool :=
  k.isEmbedded || k.isElement || k matches trivia | doctype | comment | cdata | htmlEndTag

/-- What stands between the braces of code. -/
def isBodyPart (k : Kind) : Bool :=
  k.isElement || k matches codeBrace | codeValue

/-- Leaves that may stand for a token that was not found. -/
def canMiss : Kind → Bool
  | brace | bracket | equals | quote | commentEnd | cdataEnd | htmlTagName | attributeName => true
  | _ => false

/-- Leaves that cover the text that they stand for. -/
def isPlain : Kind → Bool
  | trivia | literal | bracket | equals | quote | doctype | commentStart | commentContent | commentEnd
  | cdataStart | cdataContent | cdataEnd | htmlTagName | attributeName | rawText => true
  | _ => false

/-- Nodes that blanks may be attached to. -/
def takesBlanks : Kind → Bool
  | bracket | equals | attributeName => true
  | k => k.isEmbedded

/-- Branches that only hold their children together. -/
def isGroup : Kind → Bool
  | htmlStartTag | htmlAttributes | htmlAttribute | attributeValue | htmlEndTag | comment | cdata => true
  | _ => false

/-- The token that ends a node of this kind: its kind and its text. -/
def stop? : Kind → Option (Kind × Text)
  | comment => some (commentEnd, "-->".toList)
  | cdata => some (cdataEnd, "]]>".toList)
  | codeBlock | codeBrace => some (brace, ['}'])
  | _ => none

/-- The kinds that the children of a branch may have. -/
def Holds (k : Kind) (ks : List Kind) : Prop :=
  match k with
  | document => ∀ x ∈ ks, x.isContent
  | htmlTag | scriptTag | styleTag =>
    ∃ rest, ks = htmlStartTag :: rest ∧ ∀ x ∈ rest, x.isContent ∨ x = rawText
  | htmlStartTag => ks = [bracket, htmlTagName, htmlAttributes, bracket]
  | htmlEndTag => ks = [bracket, htmlTagName, bracket]
  | htmlAttributes => ∀ x ∈ ks, x = htmlAttribute ∨ x.isEmbedded
  | htmlAttribute =>
    ∃ rest, ks = attributeName :: rest ∧ ∀ x ∈ rest, x = equals ∨ x = quote ∨ x = attributeValue
  | attributeValue => ∀ x ∈ ks, x.isEmbedded
  | comment => ks = [commentStart, commentContent, commentEnd]
  | cdata => ks = [cdataStart, cdataContent, cdataEnd]
  | codeExpression => ks = [transition, codeValue]
  | codeBlock => ∃ parts, ks = transition :: brace :: parts ++ [brace] ∧ ∀ x ∈ parts, x.isBodyPart
  | codeBrace => ∃ parts, ks = brace :: parts ++ [brace] ∧ ∀ x ∈ parts, x.isBodyPart
  | _ => False

variable {k : Kind} {ks : List Kind}

/-- Embedded code is content. -/
theorem isContent_of_isEmbedded (h : k.isEmbedded = true) : k.isContent = true := by
  simp [isContent, h]

/-- Elements are content. -/
theorem isContent_of_isElement (h : k.isElement = true) : k.isContent = true := by
  simp [isContent, h]

/-- Elements stand in bodies, too. -/
theorem isBodyPart_of_isElement (h : k.isElement = true) : k.isBodyPart = true := by
  simp [isBodyPart, h]

/-- Every kind of embedded code takes the blanks before it. -/
theorem takesBlanks_of_isEmbedded (h : k.isEmbedded = true) : k.takesBlanks = true := by
  revert h; cases k <;> decide

/-- The kinds of branches. -/
theorem Holds.cases (h : k.Holds ks) :
    k = document ∨ k.isElement = true ∨ k.isGroup = true ∨ k = codeBlock ∨ k = codeBrace ∨
      k = codeExpression := by
  revert h; cases k <;> simp [Holds, isElement, isGroup]

/-- An element holds its start tag first, and content or raw text after it. -/
theorem Holds.ofElement (h : k.Holds ks) (hk : k.isElement = true) :
    ∃ rest, ks = htmlStartTag :: rest ∧ ∀ x ∈ rest, x.isContent = true ∨ x = rawText := by
  revert h hk; cases k <;> simp [Holds, isElement]

/-- No brace stands in a node that only holds others together. -/
theorem Holds.brace_notMem_of_isGroup (h : k.Holds ks) (hk : k.isGroup = true) : brace ∉ ks := by
  revert h hk
  cases k with
  | htmlAttributes =>
    intro h _ hmem
    have := h brace hmem
    simp [isEmbedded] at this
  | attributeValue =>
    intro h _ hmem
    have := h brace hmem
    simp [isEmbedded] at this
  | htmlAttribute =>
    rintro ⟨rest, rfl, hrest⟩ _ hmem
    have := hrest brace (by simpa using hmem)
    simp at this
  | htmlStartTag | htmlEndTag | comment | cdata =>
    intro h _
    rw [Holds] at h
    rw [h]; decide
  | _ => simp [isGroup]

/-- Braces stand only in code blocks and in braces of the code. -/
theorem Holds.brace_notMem (h : k.Holds ks) (hk : k = document ∨ k.isElement = true ∨ k.isGroup = true) :
    brace ∉ ks := by
  have hcontent : brace.isContent ≠ true := by decide
  rcases hk with rfl | hk | hk
  · exact fun hmem => hcontent (h brace hmem)
  · obtain ⟨rest, rfl, hrest⟩ := h.ofElement hk
    intro hmem
    have := hrest brace (by simpa using hmem)
    simp [hcontent] at this
  · exact h.brace_notMem_of_isGroup hk

end Kind

namespace Node

/-- What a leaf of a kind says of the text it covers. -/
def LeafShaped (transition : Char) (k : Kind) (l : Location) : Leaf → Prop
  | .token v =>
    if k = .escapedTransition then v = [transition]
    else v = l.text ∧ (k.isPlain ∨ k = .brace ∨ k = .codeValue)
  | .missing => k.canMiss
  | .marker => k = .transition ∨ k = .endOfFile

mutual

/-- The node has the shape that the grammar gives to nodes. -/
def Shaped (transition : Char) : Node → Prop
  | leaf k c l t => LeafShaped transition k l c ∧ (t = {} ∨ k.takesBlanks)
  | branch k cs t => k.Holds (cs.map kind) ∧ (t = {} ∨ k.takesBlanks) ∧
      (k = .codeBrace → ∀ n ∈ cs.head?, n.isMissing = false) ∧ ShapedAll transition cs

/-- All of the nodes have the shape that the grammar gives to nodes. -/
def ShapedAll (transition : Char) : List Node → Prop
  | [] => True
  | n :: ns => Shaped transition n ∧ ShapedAll transition ns

end

variable {tr : Char}

/-- Nodes are shaped one by one. -/
theorem shapedAll_iff {ns : List Node} : ShapedAll tr ns ↔ ∀ n ∈ ns, n.Shaped tr := by
  induction ns with
  | nil => simp [ShapedAll]
  | cons n ns ih => simp [ShapedAll, ih]

/-- Blanks may stand around the nodes that take them. -/
theorem Shaped.withTrivia {n : Node} (h : n.Shaped tr) (hk : n.kind.takesBlanks = true) (t : Trivia) :
    (n.withTrivia t).Shaped tr := by
  cases n with
  | leaf k c l t' => exact ⟨h.1, .inr hk⟩
  | branch k cs t' => exact ⟨h.1, .inr hk, h.2.2⟩

@[simp]
theorem kind_ofChildren (k : Kind) (ns : List Node) : (ofChildren k ns).kind = k := rfl

@[simp]
theorem kind_token (k : Kind) (l : Location) : (Node.token k l).kind = k := rfl

@[simp]
theorem kind_withTrivia (n : Node) (t : Trivia) : (n.withTrivia t).kind = n.kind := by cases n <;> rfl

@[simp]
theorem kind_withLead (n : Node) (l : Option Location) : (n.withLead l).kind = n.kind := kind_withTrivia n _

/-- A token of a kind that stands for the text it covers. -/
theorem shaped_token {k : Kind} (hk : k.isPlain = true ∨ k = .brace ∨ k = .codeValue) (l : Location) :
    (Node.token k l).Shaped tr := by
  have hesc : k ≠ .escapedTransition := by rintro rfl; simp [Kind.isPlain] at hk
  refine ⟨?_, .inl rfl⟩
  rw [LeafShaped, if_neg hesc]
  exact ⟨rfl, hk⟩

/-- A node of shaped children has its shape if their kinds are those that it holds. -/
theorem shaped_ofChildren {k : Kind} {ns : List Node} (hns : ∀ n ∈ ns, n.Shaped tr)
    (hk : k.Holds (ns.map kind)) (hbrace : k = .codeBrace → ∀ n ∈ ns.head?, n.isMissing = false) :
    (ofChildren k ns).Shaped tr :=
  ⟨hk, .inl rfl, hbrace, shapedAll_iff.2 hns⟩

end Node

namespace Opening

/-- The kinds of elements. -/
theorem kind_cases (o : Opening) : o.kind = .htmlTag ∨ o.kind = .scriptTag ∨ o.kind = .styleTag := by
  unfold kind
  split
  · split
    · exact .inr (.inl rfl)
    · split
      · exact .inr (.inr rfl)
      · exact .inl rfl
  · exact .inl rfl

theorem isElement_kind (o : Opening) : o.kind.isElement = true := by
  rcases o.kind_cases with hk | hk | hk <;> rw [hk] <;> rfl

/-- An element holds its start tag and content. -/
theorem holds_kind (o : Opening) {ns : List Node} (htag : o.tag.kind = .htmlStartTag)
    (hns : ∀ n ∈ ns, n.kind.isContent = true ∨ n.kind = .rawText) :
    o.kind.Holds ((o.tag :: ns).map Node.kind) := by
  have hholds : ∃ ks, (o.tag :: ns).map Node.kind = .htmlStartTag :: ks ∧
      ∀ k ∈ ks, k.isContent = true ∨ k = .rawText :=
    ⟨ns.map Node.kind, by rw [List.map_cons, htag], List.forall_mem_map.2 hns⟩
  -- `Holds` says the same of the three kinds, but by three branches
  rcases o.kind_cases with hk | hk | hk <;> rw [hk] <;> exact hholds

end Opening

end Stencil
