import Stencil.Proofs.Pieces
import Stencil.Proofs.Trace

/-!
# Well-formed trees

`WellFormed n` says of one node that nothing is wrong with it: it was found, an element
that takes content ends with its end tag, no other end tag stands in it but that of a
void element, a declaration ends with `>`, and what has a closing delimiter ends with it.

`Checks n` is what a parser sees to when it makes a node; together with the shape of the
node it says the same (`Checks.wellFormed`). A node is `Sound` if it and all nodes below
it check.
-/

namespace Stencil

/-- End tags stand in documents and elements only. -/
theorem Kind.Holds.endTag_notMem {k : Kind} {ks : List Kind} (h : k.Holds ks) (hdoc : k ≠ document)
    (helem : k.isElement = false) : htmlEndTag ∉ ks := by
  revert h hdoc helem
  cases k with
  | htmlAttributes =>
    intro h _ _ hmem
    have := h htmlEndTag hmem
    simp [isEmbedded] at this
  | attributeValue =>
    intro h _ _ hmem
    have := h htmlEndTag hmem
    simp [isEmbedded] at this
  | htmlAttribute =>
    rintro ⟨rest, rfl, hrest⟩ _ _ hmem
    have := hrest htmlEndTag (by simpa using hmem)
    simp at this
  | codeBlock =>
    rintro ⟨parts, rfl, hparts⟩ _ _ hmem
    have := hparts htmlEndTag (by simpa using hmem)
    simp [isBodyPart, isElement] at this
  | codeBrace =>
    rintro ⟨parts, rfl, hparts⟩ _ _ hmem
    have := hparts htmlEndTag (by simpa using hmem)
    simp [isBodyPart, isElement] at this
  | htmlStartTag | htmlEndTag | comment | cdata | codeExpression =>
    intro h _ _
    rw [Holds] at h
    rw [h]; decide
  | document => simp
  | htmlTag | scriptTag | styleTag => simp [isElement]
  | _ => exact fun h => h.elim

namespace Node

/-- Whether a start tag is closed by `>`, so that content may follow. -/
def closesOpen (tag : Node) : Bool :=
  tag.children.getLast?.bind value? == some ['>']

/-- The node is an element of the name that takes content and an end tag. -/
structure TakesEnd (n : Node) (name : Text) : Prop where
  element : n.kind.isElement = true
  tagName : n.tagName? = some name
  closed : ∃ tag, n.child? .htmlStartTag = some tag ∧ tag.closesOpen = true
  content : Html.isVoid name = false

/-- The node is an end tag of the name, up to the case of letters. -/
def IsEndOf (name : Text) (n : Node) : Prop :=
  n.kind = .htmlEndTag ∧ ∃ other, n.tagName? = some other ∧ other.sameLetters name = true

/-- If the node is an end tag, then of a void element. -/
def Stray (n : Node) : Prop :=
  n.kind = .htmlEndTag → ∃ name, n.tagName? = some name ∧ Html.isVoid name = true

/-- Nothing is wrong with the node itself. -/
structure WellFormed (n : Node) : Prop where
  /-- It does not stand for a token that is missing. -/
  found : n.isMissing = false
  /-- An element has a name. -/
  named : n.kind.isElement = true → ∃ name, n.tagName? = some name
  /-- An element that takes content ends with an end tag of its name. -/
  ended : ∀ name, n.TakesEnd name → ∃ tag, n.children.getLast? = some tag ∧ tag.IsEndOf name
  /-- Every other end tag in it is that of a void element. -/
  stray : ∀ before tag after, n.children = before ++ tag :: after → tag.kind = .htmlEndTag →
    (after = [] ∧ ∃ name, n.TakesEnd name ∧ tag.IsEndOf name) ∨
      ∃ name, tag.tagName? = some name ∧ Html.isVoid name = true
  /-- A declaration ends with `>`. -/
  doctype : n.kind = .doctype → ∃ text, n.value? = some text ∧ text.getLast? = some '>'
  /-- What has a closing delimiter ends with it. -/
  delimited : ∀ k t, n.kind.stop? = some (k, t) →
    ∃ l, n.children.getLast? = some (.token k l) ∧ l.text = t

/-! ## What parsers see to -/

/-- The children of an element: its start tag, with a name, and if it takes content, then
the content and the end tag. -/
def ElementChecks (cs : List Node) : Prop :=
  ∃ tag rest name, cs = tag :: rest ∧ tag.kind = .htmlStartTag ∧
    (tag.child? .htmlTagName).bind value? = some name ∧
    if tag.closesOpen = true ∧ Html.isVoid name = false then
      ∃ body last, rest = body ++ [last] ∧ last.IsEndOf name ∧ ∀ n ∈ body, n.Stray
    else rest = []

/-- What a parser sees to when it makes the node. -/
def Checks : Node → Prop
  | leaf k c l _ => c ≠ .missing ∧ (k = .doctype → c = .token l.text ∧ l.text.getLast? = some '>')
  | branch k cs _ => (k = .document → ∀ n ∈ cs, n.Stray) ∧ (k.isElement = true → ElementChecks cs) ∧
      ∀ j t, k.stop? = some (j, t) → ∃ l, cs.getLast? = some (.token j l) ∧ l.text = t

/-- The node and all nodes below it check. -/
def Sound (n : Node) : Prop :=
  ∀ m ∈ n.descendants, m.Checks

section

variable {tr : Char} {k : Kind} {cs : List Node} {t : Trivia}

/-- The name of an element is that of its start tag. -/
theorem tagName?_branch {tag : Node} (hk : k.isElement = true) (htag : tag.kind = .htmlStartTag)
    (rest : List Node) : (branch k (tag :: rest) t).tagName? = (tag.child? .htmlTagName).bind value? := by
  have hkind : (branch k (tag :: rest) t).kind = k := rfl
  have hend : k ≠ .htmlEndTag := by rintro rfl; simp [Kind.isElement] at hk
  rw [tagName?, hkind, if_neg hend, if_pos hk]
  simp [child?, children, htag]

theorem takesEnd_branch {tag : Node} {rest : List Node} {name other : Text} (hk : k.isElement = true)
    (htag : tag.kind = .htmlStartTag) (hname : (tag.child? .htmlTagName).bind value? = some name) :
    (branch k (tag :: rest) t).TakesEnd other ↔
      other = name ∧ tag.closesOpen = true ∧ Html.isVoid name = false := by
  have hchild : (branch k (tag :: rest) t).child? .htmlStartTag = some tag := by
    simp [child?, children, htag]
  constructor
  · rintro ⟨-, hother, ⟨tag', htag', hclosed⟩, hvoid⟩
    rw [tagName?_branch hk htag, hname, Option.some.injEq] at hother
    rw [hchild, Option.some.injEq] at htag'
    subst hother htag'
    exact ⟨rfl, hclosed, hvoid⟩
  · rintro ⟨rfl, hclosed, hvoid⟩
    exact ⟨hk, by rw [tagName?_branch hk htag, hname], ⟨tag, hchild, hclosed⟩, hvoid⟩

/-- An element whose children check is well-formed. -/
theorem ElementChecks.wellFormed (hk : k.isElement = true) (h : ElementChecks cs) :
    (branch k cs t).WellFormed := by
  obtain ⟨tag, rest, name, rfl, htag, hname, hrest⟩ := h
  have htakes : ∀ other, (branch k (tag :: rest) t).TakesEnd other ↔
      other = name ∧ tag.closesOpen = true ∧ Html.isVoid name = false :=
    fun other => takesEnd_branch hk htag hname
  have hdoctype : k ≠ .doctype := by rintro rfl; simp [Kind.isElement] at hk
  have hstop : k.stop? = none := by revert hk; cases k <;> simp [Kind.isElement, Kind.stop?]
  refine ⟨rfl, fun _ => ⟨name, ?_⟩, ?_, ?_, fun h => absurd h hdoctype, ?_⟩
  · rw [tagName?_branch hk htag, hname]
  · intro other hother
    obtain ⟨rfl, hclosed, hvoid⟩ := (htakes other).1 hother
    rw [if_pos ⟨hclosed, hvoid⟩] at hrest
    obtain ⟨body, last, rfl, hlast, -⟩ := hrest
    refine ⟨last, ?_, hlast⟩
    rw [children, ← List.cons_append, List.getLast?_concat]
  · intro before other after hsplit hother
    cases before with
    | nil =>
      -- the start tag is not an end tag
      obtain rfl : tag = other := (List.cons.inj hsplit).1
      rw [htag] at hother; cases hother
    | cons _ before =>
      have hsplit' : rest = before ++ other :: after := (List.cons.inj hsplit).2
      split at hrest
      · rename_i hcond
        obtain ⟨body, last, rfl, hlast, hbody⟩ := hrest
        rcases List.eq_nil_or_concat after with rfl | ⟨after, x, rfl⟩
        · obtain ⟨-, heq⟩ := List.append_inj' hsplit' rfl
          obtain rfl : last = other := (List.cons.inj heq).1
          exact .inl ⟨rfl, name, (htakes name).2 ⟨rfl, hcond⟩, hlast⟩
        · -- what is not at the end stands in the content
          rw [List.concat_eq_append, ← List.cons_append, ← List.append_assoc] at hsplit'
          obtain ⟨rfl, -⟩ := List.append_inj' hsplit' rfl
          exact .inr (hbody other (by simp) hother)
      · rw [hrest] at hsplit'
        simp at hsplit'
  · intro j s hj
    simp [kind, hstop] at hj

/-- No leaf is an element, and no leaf has a closing delimiter. -/
theorem isElement_stop?_of_leaf {c : Leaf} {l : Location} (h : LeafShaped tr k l c) :
    k.isElement = false ∧ k.stop? = none := by
  have hk : k = .escapedTransition ∨ k.isPlain = true ∨ k = .brace ∨ k = .codeValue ∨ k.canMiss = true ∨
      k = .transition ∨ k = .endOfFile := by
    cases c with
    | token v =>
      rw [LeafShaped] at h
      split at h
      · exact .inl ‹_›
      · rcases h.2 with h | h | h <;> simp [h]
    | missing => rw [LeafShaped] at h; simp [h]
    | marker => rcases h with rfl | rfl <;> simp
  revert hk
  cases k <;> first | exact fun _ => ⟨rfl, rfl⟩ | simp [Kind.isPlain, Kind.canMiss]

/-- **A node that checks and has its shape is well-formed.** -/
theorem Checks.wellFormed {n : Node} (h : n.Checks) (hn : n.Shaped tr) : n.WellFormed := by
  cases n with
  | leaf k c l t =>
    have hmissing : (leaf k c l t).isMissing = false := by
      cases c with
      | missing => exact absurd rfl h.1
      | token v => rfl
      | marker => rfl
    obtain ⟨helem, hstop⟩ := isElement_stop?_of_leaf hn.1
    refine ⟨hmissing, fun hk => ?_, fun name hname => ?_, fun before tag after hsplit => ?_, fun hk => ?_,
      fun j s hj => ?_⟩
    · rw [kind, helem] at hk; cases hk
    · have hk := hname.element
      rw [kind, helem] at hk; cases hk
    · simp [children] at hsplit
    · obtain ⟨rfl, hlast⟩ := h.2 hk
      exact ⟨l.text, rfl, hlast⟩
    · rw [kind, hstop] at hj; cases hj
  | branch k cs t =>
    obtain ⟨hdoc, helem, hstop⟩ := h
    by_cases hk : k.isElement = true
    · exact (helem hk).wellFormed hk
    · have hdoctype : k ≠ .doctype := by rintro rfl; exact hn.1
      refine ⟨rfl, fun h => absurd h hk, fun name hname => absurd hname.element hk, ?_,
        fun h => absurd h hdoctype, hstop⟩
      intro before tag after hsplit htag
      have hmem : tag ∈ cs := by
        show tag ∈ (branch k cs t).children
        simp [hsplit]
      -- end tags stand in documents and elements only, and in documents they are stray
      by_cases hd : k = .document
      · exact .inr (hdoc hd tag hmem htag)
      · refine absurd ?_ (hn.1.endTag_notMem hd (by simpa using hk))
        rw [← htag]
        exact List.mem_map_of_mem hmem

end

/-! ## Sound nodes -/

mutual

/-- The nodes below a node have their shapes. -/
theorem shaped_of_mem_descendants {tr : Char} : ∀ n : Node, n.Shaped tr → ∀ m ∈ n.descendants, m.Shaped tr
  | leaf k c l t, h, m, hm => by
    obtain rfl : m = leaf k c l t := by simpa [descendants] using hm
    exact h
  | branch k cs t, h, m, hm => by
    rw [descendants, List.mem_cons] at hm
    rcases hm with rfl | hm
    · exact h
    · exact shaped_of_mem_descendantsAll cs h.2.2.2 m hm

theorem shaped_of_mem_descendantsAll {tr : Char} : ∀ ns : List Node, ShapedAll tr ns →
    ∀ m ∈ descendantsAll ns, m.Shaped tr
  | [], _, m, hm => by simp [descendantsAll] at hm
  | n :: ns, h, m, hm => by
    rw [descendantsAll, List.mem_append] at hm
    rcases hm with hm | hm
    · exact shaped_of_mem_descendants n h.1 m hm
    · exact shaped_of_mem_descendantsAll ns h.2 m hm

end

variable {k : Kind} {cs : List Node} {n : Node} {t : Trivia}

theorem sound_leaf {c : Leaf} {l : Location} (hc : c ≠ .missing) (hk : k ≠ .doctype) : (leaf k c l t).Sound := by
  intro m hm
  obtain rfl : m = leaf k c l t := by simpa [descendants] using hm
  exact ⟨hc, fun h => absurd h hk⟩

theorem sound_token (hk : k ≠ .doctype) (l : Location) : (token k l).Sound :=
  sound_leaf (by simp) hk

/-- A branch is sound if it checks and its children are sound. -/
theorem sound_branch (h : (branch k cs t).Checks) (hcs : ∀ n ∈ cs, n.Sound) : (branch k cs t).Sound := by
  intro m hm
  rw [descendants, List.mem_cons, mem_descendantsAll] at hm
  rcases hm with rfl | ⟨n, hn, hm⟩
  · exact h
  · exact hcs n hn m hm

theorem Sound.withTrivia (h : n.Sound) (t : Trivia) : (n.withTrivia t).Sound := by
  cases n with
  | leaf k c l u =>
    intro m hm
    obtain rfl : m = leaf k c l t := by simpa [Node.withTrivia, descendants] using hm
    exact h (leaf k c l u) (by simp [descendants])
  | branch k cs u =>
    refine sound_branch (h (branch k cs u) (by simp [descendants])) fun n hn m hm => h m ?_
    rw [descendants, List.mem_cons, mem_descendantsAll]
    exact .inr ⟨n, hn, hm⟩

/-- A branch of which nothing more is asked is sound if its children are. -/
theorem sound_group (hk : k ≠ .document) (helem : k.isElement = false) (hstop : k.stop? = none)
    (hcs : ∀ n ∈ cs, n.Sound) : (ofChildren k cs).Sound :=
  sound_branch ⟨fun h => absurd h hk, fun h => by simp [helem] at h, fun j s h => by simp [hstop] at h⟩ hcs

/-- A branch with a closing delimiter. -/
theorem sound_delimited {j : Kind} {s : Text} {l : Location} (hk : k.stop? = some (j, s)) (hl : l.text = s)
    (hcs : ∀ n ∈ cs, n.Sound) : (ofChildren k (cs ++ [token j l])).Sound := by
  have hother : k ≠ .document ∧ k.isElement = false ∧ j ≠ .doctype := by
    revert hk; cases k <;> simp [Kind.stop?, Kind.isElement] <;> rintro rfl <;> simp
  refine sound_branch ⟨fun h => absurd h hother.1, fun h => by simp [hother.2.1] at h, fun i u h => ?_⟩ ?_
  · rw [hk, Option.some.injEq, Prod.mk.injEq] at h
    obtain ⟨rfl, rfl⟩ := h
    exact ⟨l, by simp, hl⟩
  · exact List.forall_mem_append.2 ⟨hcs, List.forall_mem_singleton.2 (sound_token hother.2.2 l)⟩

end Node

/-- The end tag at the cursor has the name that stands there. -/
theorem Context.EndTag.isEndOf {c : Context} {cs : List Node} {name : Text} (h : c.EndTag cs) (hname : name ≠ [])
    (hsame : Text.sameLetters ((c.rest.drop 2).takeWhile Html.isNameChar) name = true) :
    (Node.ofChildren .htmlEndTag cs).IsEndOf name := by
  refine ⟨rfl, _, h.name fun hnil => hname ?_, hsame⟩
  rw [hnil] at hsame
  cases name with
  | nil => rfl
  | cons => cases hsame

end Stencil
