import Stencil.Proofs.Lossless
import Stencil.Proofs.Mirror

/-!
# How deep trees are

Elements, code blocks and braces of the code nest. The nesting limit bounds how many of
them stand one inside the other, and with that the height of the tree: between two of them
there are at most four other nodes.

* `Level.nesting_ofRoom`: **where `room` more levels may be nested, at most `room + 2`
  nodes nest.** An element may be opened past the limit, for its start tag, and a code block
  in that tag.
* `Node.Shaped.length_path_le`: the length of a path by the nodes on it that nest.
* `parse_nesting`: both bounds, for every template.
-/

namespace Stencil

open List (Forall₂)

namespace Kind

/-- The kinds that the nesting limit is about. -/
def nests (k : Kind) : Bool :=
  k.isElement || k matches codeBlock | codeBrace

/-- How many nodes a path from a node of this kind may have beside five for each one that
nests. -/
def slack : Kind → ℕ
  | htmlStartTag => 6
  | htmlAttributes => 5
  | htmlAttribute => 4
  | attributeValue | document => 3
  | htmlTag | scriptTag | styleTag | codeBlock | codeBrace | codeExpression | htmlEndTag |
    comment | cdata => 2
  | _ => 1

theorem slack_pos (k : Kind) : 0 < k.slack := by cases k <;> decide

/-- A path from content has at most two nodes that nesting does not pay for. -/
theorem slack_content {k : Kind} (h : k.isContent = true) : k.slack ≤ 2 := by
  revert h; cases k <;> decide

theorem slack_bodyPart {k : Kind} (h : k.isBodyPart = true) : k.slack ≤ 2 := by
  revert h; cases k <;> decide

theorem slack_embedded {k : Kind} (h : k.isEmbedded = true) : k.slack ≤ 2 := by
  revert h; cases k <;> decide

/-- One step down a tree. -/
theorem Holds.slack_le {k x : Kind} {ks : List Kind} (h : k.Holds ks) (hx : x ∈ ks) :
    x.slack + 1 ≤ k.slack + if k.nests then 5 else 0 := by
  revert h
  cases k with
  | document =>
    intro h
    have hle := slack_content (h x hx)
    show x.slack + 1 ≤ 3
    omega
  -- a start tag has the longest paths of its own; five for the element pay for them
  | htmlTag | scriptTag | styleTag =>
    rintro ⟨rest, rfl, hrest⟩
    show x.slack + 1 ≤ 7
    rcases List.mem_cons.1 hx with rfl | hx
    · decide
    · rcases hrest x hx with hx | rfl
      · have hle := slack_content hx
        omega
      · decide
  | htmlStartTag | htmlEndTag | comment | cdata | codeExpression =>
    rintro rfl
    revert x; decide
  | htmlAttributes =>
    intro h
    show x.slack + 1 ≤ 5
    rcases h x hx with rfl | hx
    · decide
    · have hle := slack_embedded hx
      omega
  | htmlAttribute =>
    rintro ⟨rest, rfl, hrest⟩
    rcases List.mem_cons.1 hx with rfl | hx
    · decide
    · rcases hrest x hx with rfl | rfl | rfl <;> decide
  | attributeValue =>
    intro h
    have hle := slack_embedded (h x hx)
    show x.slack + 1 ≤ 3
    omega
  | codeBlock | codeBrace =>
    rintro ⟨parts, rfl, hparts⟩
    show x.slack + 1 ≤ 7
    have hle : x.slack ≤ 2 := by
      simp only [List.mem_append, List.mem_cons, List.not_mem_nil, or_false] at hx
      by_cases hmem : x ∈ parts
      · exact slack_bodyPart (hparts x hmem)
      · have hleaf : x = transition ∨ x = brace := by simp_all
        rcases hleaf with rfl | rfl <;> decide
    omega
  | _ => exact False.elim

end Kind

namespace Node

mutual

/-- The kinds on each way down from the node to a leaf. -/
def paths : Node → List (List Kind)
  | leaf k _ _ _ => [[k]]
  | branch k [] _ => [[k]]
  | branch k (n :: ns) _ => (pathsAll (n :: ns)).map (k :: ·)

/-- The kinds on each way down from one of the nodes to a leaf. -/
def pathsAll : List Node → List (List Kind)
  | [] => []
  | n :: ns => paths n ++ pathsAll ns

end

mutual

/-- The number of steps on the longest way down from the node. -/
def height : Node → ℕ
  | leaf _ _ _ _ => 0
  | branch _ cs _ => heightAll cs

/-- The number of steps on the longest way down from above the nodes. -/
def heightAll : List Node → ℕ
  | [] => 0
  | n :: ns => max (height n + 1) (heightAll ns)

end

/-- A path through nodes in a row goes through one of them. -/
theorem mem_pathsAll {ns : List Node} {p : List Kind} :
    p ∈ pathsAll ns ↔ ∃ n ∈ ns, p ∈ n.paths := by
  induction ns with
  | nil => simp [pathsAll]
  | cons n ns ih => simp [pathsAll, ih]

/-- A path ends at the branch or goes on through a child. -/
theorem mem_paths_branch {k : Kind} {cs : List Node} {t : Trivia} {p : List Kind}
    (h : p ∈ (branch k cs t).paths) : p = [k] ∨ ∃ n ∈ cs, ∃ q ∈ n.paths, p = k :: q := by
  cases cs with
  | nil => exact .inl (by simpa [paths] using h)
  | cons n ns =>
    rw [paths] at h
    obtain ⟨q, hq, rfl⟩ := List.mem_map.1 h
    obtain ⟨m, hm, hqm⟩ := mem_pathsAll.1 hq
    exact .inr ⟨m, hm, q, hqm, rfl⟩

theorem paths_withTrivia (n : Node) (t : Trivia) : (n.withTrivia t).paths = n.paths := by
  rcases n with _ | ⟨k, _ | ⟨m, ms⟩, t'⟩ <;> rfl

mutual

/-- The height is the length of a path. -/
theorem exists_path_height : ∀ n : Node, ∃ p ∈ n.paths, p.length = n.height + 1
  | leaf k _ _ _ => ⟨[k], by simp [paths], rfl⟩
  | branch k [] _ => ⟨[k], by simp [paths], rfl⟩
  | branch k (n :: ns) t => by
    obtain ⟨p, hp, hlen⟩ := exists_path_heightAll (n :: ns) (by simp)
    exact ⟨k :: p, by rw [paths]; exact List.mem_map_of_mem hp, by simp [height, hlen]⟩

/-- Some path is as long as the nodes are high. -/
theorem exists_path_heightAll : ∀ ns : List Node, ns ≠ [] →
    ∃ p ∈ pathsAll ns, p.length = heightAll ns
  | [], h => absurd rfl h
  | n :: ns, _ => by
    obtain ⟨p, hp, hlen⟩ := exists_path_height n
    have hrest := exists_path_heightAll ns
    rw [pathsAll, heightAll]
    by_cases hle : heightAll ns ≤ n.height + 1
    · exact ⟨p, List.mem_append_left _ hp, by rw [hlen, max_eq_left hle]⟩
    · -- the longest way is through another node
      have hne : ns ≠ [] := by rintro rfl; simp [heightAll] at hle
      obtain ⟨q, hq, hlen'⟩ := hrest hne
      exact ⟨q, List.mem_append_right _ hq, by rw [hlen', max_eq_right (by omega)]⟩

end

/-- **A path is short if few nodes on it nest.** -/
theorem Shaped.length_path_le {tr : Char} : ∀ {n : Node}, n.Shaped tr → ∀ p ∈ n.paths,
    p.length ≤ 5 * p.countP Kind.nests + n.kind.slack
  | leaf k c l t, h, p, hp => by
    rw [paths, List.mem_singleton] at hp
    have := k.slack_pos
    subst hp
    simp only [List.length_singleton, kind]; omega
  | branch k cs t, h, p, hp => by
    rcases mem_paths_branch hp with rfl | ⟨n, hn, q, hq, rfl⟩
    · have := k.slack_pos
      simp only [List.length_singleton, kind]; omega
    · have hq := (shapedAll_iff.1 h.2.2.2 n hn).length_path_le q hq
      have hstep := h.1.slack_le (List.mem_map_of_mem hn)
      rw [List.length_cons, List.countP_cons, kind]
      split at hstep <;> simp_all <;> omega

/-- On each path at most `m` nodes nest. -/
def Within (m : ℕ) (n : Node) : Prop :=
  ∀ p ∈ n.paths, p.countP Kind.nests ≤ m

variable {m : ℕ} {k : Kind} {ns : List Node} {t : Trivia}

theorem Within.mono {n : Node} {m' : ℕ} (h : n.Within m) (hle : m ≤ m') : n.Within m' :=
  fun p hp => (h p hp).trans hle

theorem within_leaf (hk : k.nests = false) (c : Leaf) (l : Location) : (leaf k c l t).Within m := by
  intro p hp
  rw [paths, List.mem_singleton] at hp
  simp [hp, hk]

/-- A branch that does not nest adds nothing to what is in it. -/
theorem within_branch (hk : k.nests = false) (h : ∀ n ∈ ns, n.Within m) : (branch k ns t).Within m := by
  intro p hp
  rcases mem_paths_branch hp with rfl | ⟨n, hn, q, hq, rfl⟩
  · simp [hk]
  · simpa [hk] using h n hn q hq

/-- Any branch adds one level at most. -/
theorem within_nested (h : ∀ n ∈ ns, n.Within m) : (branch k ns t).Within (m + 1) := by
  intro p hp
  rcases mem_paths_branch hp with rfl | ⟨n, hn, q, hq, rfl⟩
  · have := List.countP_le_length (p := Kind.nests) (l := [k])
    simp only [List.length_singleton] at this
    omega
  · have := h n hn q hq
    rw [List.countP_cons]
    split <;> omega

/-- Nothing nests in a node without code. -/
theorem Closed.within {n : Node} (h : n.Closed) : n.Within m := by
  induction h with
  | @leaf k c l t hk =>
    have hnests : k.nests = false := by revert hk; cases k <;> decide
    exact within_leaf hnests c l
  | @group k cs t hk _ ih =>
    have hnests : k.nests = false := by revert hk; cases k <;> decide
    exact within_branch hnests ih

end Node

/-! ## The parsers of each level -/

open Node Parse

/-- A node in which at most `m` nodes nest, on both sides. -/
def NestsWithin (m : ℕ) (n _n' : Node) : Prop :=
  n.Within m

variable {m : ℕ}

/-- The relation says nothing of the second run. -/
theorem within_of_forall₂ {ns ns' : List Node} (h : Forall₂ (NestsWithin m) ns ns') :
    ∀ n ∈ ns, n.Within m := by
  induction h with
  | nil => simp
  | cons hn _ ih => exact List.forall_mem_cons.2 ⟨hn, ih⟩

/-- The bound is kept where nodes are put together without a level of their own. -/
theorem weave_nestsWithin : Weave (fun _ => True) (NestsWithin m) where
  toSteady := steady_true
  closed h := h.within
  lead {n n'} h l := by
    intro p hp
    rw [withLead, paths_withTrivia] at hp
    exact h p hp
  group {k ns ns'} hk h := by
    have hnests : k.nests = false := by revert hk; cases k <;> decide
    exact within_branch hnests (within_of_forall₂ h)

/-- At a level, at most `m` nodes nest in what its parsers read. -/
structure Level.Nesting (m : ℕ) (l : Level) : Prop where
  code : Mirrors (fun _ => True) (NestsWithin m) l.code l.code
  element : Mirrors (fun _ => True) (NestsWithin m) l.element l.element
  body : Mirrors (fun _ => True) (Forall₂ (NestsWithin m)) l.body l.body

namespace Parse

variable {code element : Parse Node} {body : Parse (List Node)}

/-- **Embedded code** is one level above its bodies. -/
theorem embedded_nests (hbody : Mirrors (fun _ => True) (Forall₂ (NestsWithin m)) body body) :
    Mirrors (fun _ => True) (NestsWithin (m + 1)) (embedded body) (embedded body) := by
  have hW : Weave (fun _ => True) (NestsWithin (m + 1)) := weave_nestsWithin
  have hM : Weave (fun _ => True) (NestsWithin m) := weave_nestsWithin
  have hexpression : Mirrors (fun _ => True) (NestsWithin (m + 1)) codeExpression codeExpression := by
    refine (codeExpression_textual.mirrors steady_true).imp ?_
    rintro _ _ ⟨rfl, cs, rfl, hcs⟩
    exact within_branch rfl fun n hn => (hcs n hn).within
  exact embedded_mirrors hW.toCarries hM.toCarries hexpression
    (fun h => within_nested (within_of_forall₂ h)) (hbody.body steady_true)

/-- The start tag of an element and what follows it nest in the element. -/
theorem element_nests {o : Opening} {ns ns' : List Node} {o' : Opening}
    (ho : OpeningsMatch (NestsWithin m) o o') (hns : Forall₂ (NestsWithin m) ns ns') :
    NestsWithin (m + 1) (.ofChildren o.kind (o.tag :: ns)) (.ofChildren o'.kind (o'.tag :: ns')) := by
  apply within_nested
  exact List.forall_mem_cons.2 ⟨ho.tag, within_of_forall₂ hns⟩

/-- Elements past the limit are one level above the code in their tags. -/
theorem flatElement_nests (hcode : CodeMirrors (fun _ => True) (NestsWithin m) code code) :
    Mirrors (fun _ => True) (NestsWithin (m + 1)) (flatElement code) (flatElement code) := by
  have hW : Weave (fun _ => True) (NestsWithin m) := weave_nestsWithin
  refine flatElement_mirrors hW hcode (fun _ _ _ _ _ _ hd _ => hd) (fun ho => element_nests ho .nil) ?_
  intro o o' name ho _ _
  exact (rawTextContent_mirrors hW.toCarries name fun _ => hcode).imp fun _ _ h => element_nests ho h

/-- **Elements** are one level above the code and the elements in them. -/
theorem nestedElement_nests (hcode : CodeMirrors (fun _ => True) (NestsWithin m) code code)
    (helement : Mirrors (fun _ => True) (NestsWithin m) element element) :
    Mirrors (fun _ => True) (NestsWithin (m + 1)) (nestedElement code element)
      (nestedElement code element) := by
  have hW : Weave (fun _ => True) (NestsWithin m) := weave_nestsWithin
  refine fun _ _ => nestedElement_mirror hW hcode (fun ho => element_nests ho .nil) ?_ ?_ trivial
  · intro o o' name ho _ _
    exact (rawTextContent_mirrors hW.toCarries name fun _ => hcode).imp fun _ _ h => element_nests ho h
  · intro o o' name ho _ _ c _
    obtain ⟨hctx, hd, hns⟩ := elementContent_mirror o.place (opens_true name c) hW.toCarries hcode
      helement.element
    exact ⟨hctx, hd, element_nests ho hns⟩

end Parse

/-- **Where `room` more levels may be nested, at most `room + 2` nodes nest.** -/
theorem Level.nesting_ofRoom (room : ℕ) : (ofRoom room).Nesting (room + 2) := by
  induction room with
  | zero =>
    have hM : Weave (fun _ => True) (NestsWithin 0) := weave_nestsWithin
    have hcode := embedded_nests (flatBody_mirrors hM.toCarries)
    refine ⟨?_, flatElement_nests hcode.code, ?_⟩
    · exact hcode.imp fun n _ h => Within.mono h (by omega)
    · exact (flatBody_mirrors hM.toCarries).imp fun _ _ h =>
        h.imp fun n _ hn => Within.mono hn (by omega)
  | succ room ih =>
    have hM : Weave (fun _ => True) (NestsWithin (room + 2)) := weave_nestsWithin
    have hW : Weave (fun _ => True) (NestsWithin (room + 1 + 2)) := weave_nestsWithin
    have helement := nestedElement_nests ih.code.code ih.element
    refine ⟨embedded_nests ih.body, helement, ?_⟩
    exact codeBody_mirrors hW.toCarries hM.toCarries
      (fun h => within_nested (within_of_forall₂ h)) (ih.body.body steady_true) helement.element

/-! ## Whole templates -/

/-- **A document** nests at most two levels deeper than the options allow. -/
theorem document_within (options : ParseOptions) (t : Text) :
    (Template.document options t).1.Within (options.maxNestingDepth + 2) := by
  have hl := Level.nesting_ofRoom options.maxNestingDepth
  have hW : Weave (fun _ => True) (NestsWithin (options.maxNestingDepth + 2)) := weave_nestsWithin
  have hdocument := document_mirrors hW.toCarries hl.code.code hl.element.element (fun _ _ h => h)
    (M := NestsWithin (options.maxNestingDepth + 2))
    (fun h => within_branch rfl (within_of_forall₂ h)) (.atDocument options t) trivial
  exact hdocument.2.2

/-- **Trees are as deep as the nesting limit allows.** On a path from the root to a leaf at
most `maxNestingDepth + 2` nodes are elements, code blocks or braces of the code, and so
the height of the tree is at most `5 * maxNestingDepth + 12`. -/
theorem parse_nesting (options : ParseOptions) (t : Text)
    (h : options.language ∈ Registry.standard.languages) :
    ∃ r, Template.parse options t = .ok r ∧ ∀ n ∈ r.nodes,
      (∀ p ∈ n.paths, p.countP Kind.nests ≤ options.maxNestingDepth + 2) ∧
      n.height ≤ 5 * options.maxNestingDepth + 12 := by
  refine ⟨_, parse_eq_document t h, ?_⟩
  rw [List.forall_mem_cons, List.forall_mem_singleton]
  refine ⟨⟨document_within options t, ?_⟩, within_leaf rfl _ _, Nat.zero_le _⟩
  -- the longest path is as short as its nodes that nest are few
  have hshaped : (Template.document options t).1.Shaped options.transition :=
    (Template.document_traced options t).shaped _ (.head _)
  obtain ⟨p, hp, hlen⟩ := (Template.document options t).1.exists_path_height
  have hcount := document_within options t p hp
  have hle := hshaped.length_path_le p hp
  have hslack : (Template.document options t).1.kind.slack = 3 := by rw [kind_document]; rfl
  omega

theorem parse_nesting_flat :
    ({} : ParseOptions).language ∈ Registry.standard.languages ∧
      ∃ r, Template.parse { ({} : ParseOptions) with maxNestingDepth := 0 }
          ['<', 'a', ' ', 'b', '=', '@', '{', 'c', '}', '>', '@', '{', 'd', '}'] = .ok r ∧
        ∀ n ∈ r.nodes, (∀ p ∈ n.paths, p.countP Kind.nests ≤ 2) ∧ n.height ≤ 12 :=
  ⟨by decide, parse_nesting { ({} : ParseOptions) with maxNestingDepth := 0 } _ (by decide)⟩

end Stencil
