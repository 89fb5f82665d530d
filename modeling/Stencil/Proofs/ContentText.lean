import Stencil.Proofs.Provenance

/-!
# Content text in its normal form

Blanks are read in three places: before and after the tokens of a tag, in front of content text, and at
the end of a run of it. In each they are cut off what is kept as literal text. Content text is read up to
a place where it must stop (`Context.AtStop`), and such text is never read where it stops. So what follows
it is no text, unless it is a transition that introduces nothing and is reported.

* `Context.Collects`: text among the nodes of a run stands apart, and what is carried from one node to
  the next for that.
* `Trace.arranged`: **along every trace that is not loose, literal text is trimmed and text stands
  apart.**
* `parse_text_apart`: the normal form of the text in a template.
-/

namespace Stencil

namespace Node

/-- The node is a transition that is text, and is reported as one that introduces nothing. -/
def Lone (tr : Char) (reports : List Diagnostic) (n : Node) : Prop :=
  n.kind = .literal ∧ ∃ l, n.location? = some l ∧ n.value? = some l.text ∧ l.text = [tr] ∧
    (Problem.invalidTransition tr).located l ∈ reports

/-- If both nodes are text, then one of them is a transition that is reported. -/
def TextApart (tr : Char) (reports : List Diagnostic) (a b : Node) : Prop :=
  a.kind.isText = true → b.kind.isText = true → a.Lone tr reports ∨ b.Lone tr reports

/-- Text is kept apart among the children of the node. -/
structure Neat (tr : Char) (reports : List Diagnostic) (n : Node) : Prop where
  literals : n.kind ≠ .attributeValue → ∀ m ∈ n.children, m.kind = .literal → m.HasText Text.Trimmed
  apart : n.kind = .document ∨ n.kind.isElement = true → n.children.IsChain (TextApart tr reports)

variable {tr : Char} {reports more : List Diagnostic} {k : Kind} {n : Node} {ns ms : List Node}

/-- Later reports do not matter. -/
theorem Lone.mono (h : n.Lone tr reports) (hsub : reports ⊆ more) : n.Lone tr more := by
  obtain ⟨hkind, l, hl, hv, htext, hmem⟩ := h
  exact ⟨hkind, l, hl, hv, htext, hsub hmem⟩

theorem Lone.withTrivia (h : n.Lone tr reports) (u : Trivia) : (n.withTrivia u).Lone tr reports := by
  rcases n with ⟨k, v, l, tv⟩ | ⟨k, cs, tv⟩
  · cases v <;> exact h
  · exact h

theorem isChain_mono (h : ns.IsChain (TextApart tr reports)) (hsub : reports ⊆ more) :
    ns.IsChain (TextApart tr more) := by
  refine h.imp fun a b hab ha hb => ?_
  rcases hab ha hb with h | h
  · exact .inl (h.mono hsub)
  · exact .inr (h.mono hsub)

theorem Neat.mono (h : n.Neat tr reports) (hsub : reports ⊆ more) : n.Neat tr more where
  literals := h.literals
  apart hk := isChain_mono (h.apart hk) hsub

theorem neat_leaf (k : Kind) (v : Leaf) (l : Location) (u : Trivia) : (leaf k v l u).Neat tr reports :=
  ⟨fun _ _ hm => (List.not_mem_nil hm).elim, fun _ => .nil⟩

theorem Neat.withTrivia (h : n.Neat tr reports) (u : Trivia) : (n.withTrivia u).Neat tr reports := by
  cases n <;> exact ⟨h.literals, h.apart⟩

end Node

/-! ## Text along a run -/

namespace Context

open Node

/-- Where nothing is read the cursor is where it was. -/
theorem Moved.atStop {c d : Context} (h : c.Moved [] d) : d.AtStop ↔ c.AtStop := by
  have hbefore : d.before = c.before := h.before
  simp only [AtStop, previous?, h.rest_eq, h.transition, hbefore]

/-- Where blanks stand, text goes on. -/
theorem not_atStop_of_blanks {c d : Context} {l : Location} (htr : Text.isBlank c.transition = false)
    (h : Parse.blanks c = (some l, d)) : ¬ c.AtStop := by
  obtain ⟨-, hnone, -⟩ | ⟨hne, -, -⟩ := Parse.blanks_cases h
  · cases hnone
  · rintro (hnil | hstop)
    · exact hne (by rw [hnil]; rfl)
    · -- neither `<` nor the transition is a blank
      cases hrest : c.rest with
      | nil => exact hne (by rw [hrest]; rfl)
      | cons x u =>
        have hx : Text.isBlank x = true := by
          by_contra hx
          exact hne (by simp [Text.blanksAhead, hrest, hx])
        rw [hrest, Parse.stopsText, Bool.or_eq_true] at hstop
        rcases hstop with hlt | htransition
        · obtain rfl : x = '<' := by simpa [Text.ahead] using hlt
          cases hx
        · rw [startsTransition, Bool.and_eq_true, beq_iff_eq] at htransition
          rw [← htransition.1, Text.ahead, List.getD_cons_zero, hx] at htr
          cases htr

/-- Along the nodes, which were read from `c` to `d`, literal text is trimmed and text stands apart. If
the first of them is text that could go on, it was read where text goes on; if the last is, it was read
up to where text stops. -/
structure Collects (tr : Char) (c : Context) (ns : List Node) (d : Context) : Prop where
  literals : ∀ n ∈ ns, n.kind = .literal → n.HasText Text.Trimmed
  apart : ns.IsChain (TextApart tr d.diagnostics)
  first : ∀ n, ns.head? = some n → n.kind.isText = true → n.Lone tr d.diagnostics ∨ ¬ c.AtStop
  last : ∀ n, ns.getLast? = some n → n.kind.isText = true → n.Lone tr d.diagnostics ∨ d.AtStop

/-- From `c` to `d` no report was taken back, and text is kept apart in all nodes. It is among the nodes
themselves, too, if they are not those of an attribute value. -/
structure Arranges (tr : Char) (loose : Bool) (c : Context) (ns : List Node) (d : Context) : Prop where
  grows : c.diagnostics ⊆ d.diagnostics
  stay : ns = [] → c.Moved [] d
  neat : ∀ m ∈ descendantsAll ns, m.Neat tr d.diagnostics
  text : loose = false → c.Collects tr ns d

variable {tr : Char} {loose : Bool} {c d e : Context} {k : Kind} {n : Node} {ns ms : List Node}

theorem collects_nil : c.Collects tr [] d :=
  ⟨fun _ hn => (List.not_mem_nil hn).elim, .nil, nofun, nofun⟩

/-- What is no text may stand next to any node. -/
theorem collects_of_not_text (h : n.kind.isText = false) : c.Collects tr [n] d := by
  refine ⟨List.forall_mem_singleton.2 fun hliteral => ?_, .singleton n, fun m hm htext => ?_, fun m hm htext => ?_⟩
  · rw [hliteral] at h
    cases h
  · obtain rfl : n = m := by simpa using hm
    rw [h] at htext
    cases htext
  · obtain rfl : n = m := by simpa using hm
    rw [h] at htext
    cases htext

/-- Two runs, one after the other. Text at the end of the first has stopped, and it goes on where the
second starts with text. -/
theorem Collects.append (h : c.Collects tr ns d) (h' : d.Collects tr ms e) (hgrows : d.diagnostics ⊆ e.diagnostics)
    (hns : ns = [] → c.Moved [] d) (hms : ms = [] → d.Moved [] e) : c.Collects tr (ns ++ ms) e where
  literals := List.forall_mem_append.2 ⟨h.literals, h'.literals⟩
  apart := by
    refine List.isChain_append.2 ⟨isChain_mono h.apart hgrows, h'.apart, ?_⟩
    intro a ha b hb htexta htextb
    rcases h'.first b hb htextb with hlone | hgo
    · exact .inr hlone
    · rcases h.last a ha htexta with hlone | hstop
      · exact .inl (hlone.mono hgrows)
      · exact absurd hstop hgo
  first n hn htext := by
    cases ns with
    | nil => exact (h'.first n hn htext).imp_right fun hgo hstop => hgo ((hns rfl).atStop.2 hstop)
    | cons m ns => exact (h.first n hn htext).imp_left fun hlone => hlone.mono hgrows
  last n hn htext := by
    rcases List.eq_nil_or_concat' ms with rfl | ⟨ms', m, rfl⟩
    · rw [List.append_nil] at hn
      exact (h.last n hn htext).imp (fun hlone => hlone.mono hgrows) (hms rfl).atStop.2
    · rw [← List.append_assoc, List.getLast?_concat] at hn
      exact h'.last n (by rw [List.getLast?_concat]; exact hn) htext

namespace Arranges

theorem of_moved (h : c.Moved [] d) (hgrows : c.diagnostics ⊆ d.diagnostics) : c.Arranges tr loose [] d :=
  ⟨hgrows, fun _ => h, nofun, fun _ => collects_nil⟩

/-- Nodes in a row, where the first run ends at the second. -/
theorem append (h : c.Arranges tr loose ns d) (h' : d.Arranges tr loose ms e) :
    c.Arranges tr loose (ns ++ ms) e where
  grows := List.Subset.trans h.grows h'.grows
  stay hnil := by
    rw [List.append_eq_nil_iff] at hnil
    exact (h.stay hnil.1).trans_stay (h'.stay hnil.2)
  neat := by
    rw [descendantsAll_append]
    exact List.forall_mem_append.2 ⟨fun m hm => (h.neat m hm).mono h'.grows, h'.neat⟩
  text hloose := (h.text hloose).append (h'.text hloose) h'.grows h.stay h'.stay

theorem append_stay (h : c.Arranges tr loose ns d) (h' : d.Arranges tr loose [] e) : c.Arranges tr loose ns e := by
  simpa using h.append h'

/-- A report after a run leaves it as it is. -/
theorem report (h : c.Arranges tr loose ns d) (x : Diagnostic) : c.Arranges tr loose ns (d.report x) :=
  h.append_stay (.of_moved (d.moved_report x) (List.subset_append_left _ _))

/-- Nodes among which text stands apart are put together. -/
theorem ofChildren (h : c.Arranges tr false ns d) (hk : k.isText = false) :
    c.Arranges tr false [.ofChildren k ns] d where
  grows := h.grows
  stay := nofun
  neat := forall_descendantsAll_ofChildren ⟨fun _ => (h.text rfl).literals, fun _ => (h.text rfl).apart⟩ h.neat
  text _ := collects_of_not_text hk

/-- Any text may stand in an attribute value. -/
theorem value (h : c.Arranges tr true ns d) : c.Arranges tr false [.ofChildren .attributeValue ns] d where
  grows := h.grows
  stay := nofun
  neat := forall_descendantsAll_ofChildren
    ⟨fun hk => absurd rfl hk, fun hk => by simp [Node.ofChildren, kind, Kind.isElement] at hk⟩ h.neat
  text _ := collects_of_not_text rfl

/-- A node that is no text. -/
theorem leaf {v : Leaf} {l : Location} (hgrows : c.diagnostics ⊆ d.diagnostics) (hk : k.isText = false) :
    c.Arranges tr false [.leaf k v l {}] d where
  grows := hgrows
  stay := nofun
  neat := forall_descendantsAll_leaf (neat_leaf _ _ _ _)
  text _ := collects_of_not_text hk

/-- Where blanks stand before a node, text goes on. -/
theorem lead {l : Option Location} (htr : Text.isBlank c.transition = false) (hlead : Parse.blanks c = (l, d))
    (h : d.Arranges tr false [n] e) : c.Arranges tr false [n.withLead l] e := by
  have hsame : d.diagnostics = c.diagnostics ∧ (l = none → d = c) := by
    obtain ⟨-, -, rfl⟩ | ⟨-, rfl, rfl⟩ := Parse.blanks_cases hlead
    · exact ⟨rfl, fun _ => rfl⟩
    · exact ⟨rfl, nofun⟩
  have htext := h.text rfl
  refine ⟨hsame.1 ▸ h.grows, nofun, forall_descendantsAll_withTrivia h.neat fun hn => hn.withTrivia _, fun _ => ?_⟩
  refine ⟨List.forall_mem_singleton.2 fun hliteral => ?_, .singleton _, fun m hm hm' => ?_, fun m hm hm' => ?_⟩
  · rw [kind_withLead] at hliteral
    exact (hasText_withTrivia _).2 (htext.literals n List.mem_cons_self hliteral)
  · obtain rfl : n.withLead l = m := by simpa using hm
    rw [kind_withLead] at hm'
    cases l with
    | none =>
      obtain rfl := hsame.2 rfl
      exact (htext.first n rfl hm').imp_left fun hlone => hlone.withTrivia _
    | some l => exact .inr (not_atStop_of_blanks htr hlead)
  · obtain rfl : n.withLead l = m := by simpa using hm
    rw [kind_withLead] at hm'
    exact (htext.last n rfl hm').imp_left fun hlone => hlone.withTrivia _

end Arranges

/-- A leaf that is text, and what is known of where it was read. -/
theorem collects_text (hliteral : n.kind = .literal → n.HasText Text.Trimmed)
    (hends : n.Lone tr d.diagnostics ∨ ¬ c.AtStop ∧ d.AtStop) : c.Collects tr [n] d := by
  refine ⟨List.forall_mem_singleton.2 hliteral, .singleton n, fun m hm _ => ?_, fun m hm _ => ?_⟩
  · obtain rfl : n = m := by simpa using hm
    exact hends.imp_right And.left
  · obtain rfl : n = m := by simpa using hm
    exact hends.imp_right And.right

theorem LeafStep.collects {w : ℤ} (htr : Text.isBlank c.transition = false) (h : c.LeafStep n w d) :
    c.Collects c.transition [n] d := by
  cases h with
  | @token k _ hk =>
    refine collects_of_not_text ?_
    show k.isText = false
    revert hk
    cases k <;> decide
  | @absent k _ hp =>
    refine collects_of_not_text ?_
    have hk := Code.canMiss_of_missing? hp
    show k.isText = false
    revert hk
    cases k <;> decide
  | sign => exact collects_of_not_text rfl
  | marker => exact collects_of_not_text rfl
  | escaped => exact collects_of_not_text rfl
  -- the one text that may stand next to text, and it is reported
  | invalid hne htransition =>
    have htake := take_one_of_atTransition hne htransition
    refine collects_text (fun _ => ⟨_, rfl, rfl, ?_⟩)
      (.inl ⟨rfl, _, rfl, rfl, htake, List.mem_append_right _ List.mem_cons_self⟩)
    rw [Location.text_ofText, htake]
    exact Text.trimmed_singleton htr
  | declaration => exact collects_of_not_text rfl
  | literal c₁ m _ hgo _ hstop _ htrimmed =>
    exact collects_text (fun _ => ⟨_, rfl, rfl, htrimmed⟩) (.inr ⟨hgo, hstop⟩)
  | blank _ hgo hstop => exact collects_text nofun (.inr ⟨hgo, hstop⟩)

end Context

open Context Node Parse in
/-- **Along every trace text is kept apart**, and literal text is trimmed. -/
theorem Trace.arranged {tr : Char} (htr : Text.isBlank tr = false) {b : Bool} {c d : Context} {ns : List Node}
    {w : ℤ} (h : Trace b c ns w d) (hc : c.transition = tr) : c.Arranges tr b ns d := by
  -- steps between the nodes, and the nodes that stand for elements
  have hsilent : ∀ {b : Bool} {c d : Context}, c.Moved [] d → c.diagnostics ⊆ d.diagnostics →
      c.Arranges tr b [] d := .of_moved
  have hentered : ∀ (c : Context) (name : Text), c.Arranges tr false [] (c.entered name) := by
    intro c name
    refine hsilent (c.moved_entered name) ?_
    unfold Context.entered
    split <;> exact List.Subset.refl _
  have hleft : ∀ (c : Context) (name : Text), c.Arranges tr false [] (c.left name) := by
    intro c name
    refine hsilent (c.moved_left name) ?_
    unfold Context.left
    split <;> exact List.Subset.refl _
  have helement : ∀ o : Opening, o.kind.isText = false := by
    intro o
    have := o.isElement_kind
    revert this
    cases o.kind <;> decide
  induction h with
  | nil c => exact hsilent (.refl c) (List.Subset.refl _)
  | append hns _ ih ih' => exact (ih hc).append (ih' (hns.transition.trans hc))
  | le _ _ ih => exact ih hc
  | loosen _ ih => exact ⟨(ih hc).grows, (ih hc).stay, (ih hc).neat, nofun⟩
  | text => exact ⟨List.Subset.refl _, nofun, forall_descendantsAll_leaf (neat_leaf _ _ _ _), nofun⟩
  | silent h => exact hsilent h.moved (Trace.silent h).diagnostics_grow.subset
  | leaf h =>
    refine ⟨(Trace.leaf h).diagnostics_grow.subset, nofun, ?_, fun _ => hc ▸ h.collects (hc ▸ htr)⟩
    cases h <;> exact forall_descendantsAll_leaf (neat_leaf _ _ _ _)
  | lead hlead _ _ _ ih =>
    obtain ⟨u, hu⟩ := (blanks_reads hlead).moved
    exact (ih (hu.transition.trans hc)).lead (hc ▸ htr) hlead
  | @frame _ _ k _ _ _ hframe ih =>
    refine (ih hc).ofChildren ?_
    have := hframe.frame
    revert this
    cases k <;> decide
  | value _ _ ih => exact (ih hc).value
  | repeated _ _ _ _ _ ih => exact (ih hc).report _
  | @region _ d e R _ _ stop _ hR _ _ _ _ hstop ih =>
    have hkind : R.kind.isText = false ∧ R.stopKind.isText = false := by rcases hR with rfl | rfl <;> exact ⟨rfl, rfl⟩
    have hlast : d.Arranges tr false [stop] e := by
      cases hstop with
      | missing => exact .leaf (List.subset_append_left _ _) hkind.2
      | token => exact .leaf (List.Subset.refl _) hkind.2
    exact ((ih hc).append hlast).ofChildren hkind.1
  | orphan _ _ _ ih => exact ((ih hc).ofChildren rfl).report _
  | @flattenedEnd c _ _ _ _ i _ _ _ _ _ ih =>
    have hclosed := (closeFlattened_moved (i + 1) c).trans_stay (moved_truncateFlattened _ i)
    have hgrows := (Trace.silent (.close c (i + 1))).diagnostics_grow.subset
    exact (hsilent hclosed hgrows).append ((ih (hclosed.transition.trans hc)).ofChildren rfl)
  | empty _ _ _ ih => exact (ih hc).ofChildren (helement _)
  | @ended _ d _ g _ name _ _ _ _ _ htag _ _ hns _ _ _ _ iho ih ihend =>
    have hd := (d.moved_entered name).transition.trans (htag.transition.trans hc)
    have hend := (ihend (hns.transition.trans hd)).ofChildren (k := .htmlEndTag) rfl
    have hcontent := (hentered d name).append ((ih hd).append hend)
    exact ((iho hc).append (hcontent.append_stay (hleft g name))).ofChildren (helement _)
  | @unended _ d e _ name _ p l _ _ htag _ _ _ _ _ iho ih =>
    have hd := (d.moved_entered name).transition.trans (htag.transition.trans hc)
    have hcontent := (hentered d name).append ((ih hd).report (p.located l))
    exact ((iho hc).append (hcontent.append_stay (hleft _ name))).ofChildren (helement _)
  | @flattened c d o name _ _ _ _ _ ih =>
    have hdeep := hsilent (b := false) c.moved_reportTooDeep (Trace.silent (.tooDeep c)).diagnostics_grow.subset
    have htag := hdeep.append (ih (c.moved_reportTooDeep.transition.trans hc))
    have hpush := hsilent (b := false) (d.moved_pushFlattened name o.place) (List.Subset.refl _)
    exact (htag.append_stay hpush).ofChildren (helement _)

/-! ## Templates -/

section

variable {options : ParseOptions} (t : Text)

/-- **The text of a template is in a normal form.** Blanks at a node and nodes of blanks are some blanks
and nothing else. Literal text outside of attribute values starts and ends with characters that are not
blank. In a document and in an element, text follows text only where one of the two is a transition
that introduces nothing and is reported. -/
theorem parse_text_apart (hlanguage : options.language ∈ Registry.standard.languages)
    (htransition : Text.isBlank options.transition = false) :
    ∃ r, Template.parse options t = .ok r ∧
      (∀ n ∈ Node.descendantsAll r.nodes, Node.BlankSide n.trivia.lead ∧ Node.BlankSide n.trivia.trail ∧
        (n.kind = .trivia → n.HasText Text.Blanks)) ∧
      (∀ m, m ∈ r.nodes ∨ (∃ n ∈ Node.descendantsAll r.nodes, n.kind ≠ .attributeValue ∧ m ∈ n.children) →
        m.kind = .literal → m.HasText Text.Trimmed) ∧
      ∀ n ∈ Node.descendantsAll r.nodes, n.kind = .document ∨ n.kind.isElement = true →
        n.children.IsChain (Node.TextApart options.transition r.diagnostics) := by
  have hdoc := (Template.document_traced options t).arranged htransition rfl
  have hend : ∀ m ∈ Node.descendantsAll [.marker .endOfFile (.empty (Template.document options t).2.pos)],
      m.Spaced ∧ m.Neat options.transition (Template.document options t).2.diagnostics :=
    Node.forall_descendantsAll_leaf ⟨Node.spaced_leaf _ _ (by decide), Node.neat_leaf _ _ _ _⟩
  have hall : ∀ m ∈ Node.descendantsAll [(Template.document options t).1,
      .marker .endOfFile (.empty (Template.document options t).2.pos)],
      m.Spaced ∧ m.Neat options.transition (Template.document options t).2.diagnostics := by
    rw [← List.singleton_append, Node.descendantsAll_append]
    exact List.forall_mem_append.2 ⟨fun m hm =>
      ⟨(Template.document_traced options t).spaced m hm, hdoc.neat m hm⟩, hend⟩
  refine ⟨_, parse_eq_document t hlanguage, fun n hn => ?_, fun m hm hliteral => ?_, fun n hn => (hall n hn).2.apart⟩
  · have hspaced := (hall n hn).1
    exact ⟨hspaced.lead, hspaced.trail, hspaced.blank⟩
  · rcases hm with hm | ⟨n, hn, hkind, hm⟩
    · -- neither the document nor the end of the file is text
      rcases List.mem_pair.1 hm with rfl | rfl <;> cases hliteral
    · exact (hall n hn).2.literals hkind m hm hliteral

/-- Text beside blanks, tags and a transition that introduces nothing. -/
theorem parse_text_apart_lone :
    ({} : ParseOptions).language ∈ Registry.standard.languages ∧
      Text.isBlank ({} : ParseOptions).transition = false ∧
      ∃ r, Template.parse {} " a @ b <p c=' d '>\n</p>".toList = .ok r ∧
        (∀ n ∈ Node.descendantsAll r.nodes, Node.BlankSide n.trivia.lead ∧ Node.BlankSide n.trivia.trail ∧
          (n.kind = .trivia → n.HasText Text.Blanks)) ∧
        (∀ m, m ∈ r.nodes ∨ (∃ n ∈ Node.descendantsAll r.nodes, n.kind ≠ .attributeValue ∧ m ∈ n.children) →
          m.kind = .literal → m.HasText Text.Trimmed) ∧
        ∀ n ∈ Node.descendantsAll r.nodes, n.kind = .document ∨ n.kind.isElement = true →
          n.children.IsChain (Node.TextApart '@' r.diagnostics) :=
  ⟨by decide, by decide, parse_text_apart _ (by decide) (by decide)⟩

end

end Stencil
