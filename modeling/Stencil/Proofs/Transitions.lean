import Stencil.Proofs.Chronicles

/-!
# No transition is missed

Text is read in three places: in content, in attribute values and in scripts. In each of them the
question whether a transition stands at the cursor is asked anew at every character, with the
character before it and the one after it, which may belong to other tokens.

* `Location.Plain`: what the transition character must look like to be text.
* `Node.Heeds`: what is asked of a node, by its kind.
* `chronicle_heeded`: runs of the parser keep it.
* `parse_heeds`: **no transition is missed, and nothing else is taken for one.**
-/

namespace Stencil

/-! ## What is text and what starts code -/

namespace Location

/-- Every `x` in the stretch directly follows a letter or digit, and no `x` directly follows it. -/
def Plain (t : Text) (x : Char) (l : Location) : Prop :=
  ∃ u w, l.Between t u w ∧ ∀ p q, l.text = p ++ x :: q →
    (u ++ p).getLast?.any Char.isAlphanum = true ∧ (q ++ w).head? ≠ some x

/-- The stretch starts with an `x` that another one directly follows, or that does not directly
follow a letter or digit. -/
def StartsCode (t : Text) (x : Char) (l : Location) : Prop :=
  ∃ u w, l.Between t u w ∧ l.text.head? = some x ∧
    ((l.text ++ w).tail.head? = some x ∨ u.getLast?.any Char.isAlphanum = false)

end Location

namespace Node

/-- What is asked of a node that was read with the transition `tr` from the text `t`, if these are
the reports. In text there is no transition, unless the text is one alone and is reported; the
tokens of transitions start code; and the same holds of the text of a script as of other text. -/
def Heeds (tr : Char) (t : Text) (reports : List Diagnostic) : Node → Prop
  | leaf .literal _ l _ =>
    l.Plain t tr ∨ l.text = [tr] ∧ (Problem.invalidTransition tr).located l ∈ reports
  | leaf .transition _ l _ => l.StartsCode t tr
  | leaf .escapedTransition _ l _ => l.StartsCode t tr ∧ l.text = [tr, tr]
  | branch .scriptTag cs _ => ∀ v l b, leaf .rawText v l b ∈ cs → l.Plain t tr
  | _ => True

variable {tr : Char} {t : Text} {reports more : List Diagnostic}

/-- Later reports do not matter. -/
theorem Heeds.mono {n : Node} (h : n.Heeds tr t reports) (hmore : reports <+: more) : n.Heeds tr t more := by
  unfold Heeds at h ⊢
  split
  · exact h.imp_right fun h => ⟨h.1, hmore.subset h.2⟩
  · exact h
  · exact h
  · exact h
  · trivial

/-- Nor do the blanks around a node. -/
theorem Heeds.withTrivia {n : Node} (b : Trivia) (h : n.Heeds tr t reports) :
    (n.withTrivia b).Heeds tr t reports := by
  cases n with
  | leaf k v l b' => cases k <;> exact h
  | branch k cs b' => cases k <;> exact h

/-- Only three kinds of leaves have to do with transitions. -/
theorem heeds_leaf {k : Kind} (hk : k ≠ .literal ∧ k ≠ .transition ∧ k ≠ .escapedTransition) (v : Leaf)
    (l : Location) (b : Trivia) : (leaf k v l b).Heeds tr t reports := by
  unfold Heeds
  split
  all_goals simp_all

/-- And only scripts of the branches. -/
theorem heeds_branch {k : Kind} (hk : k ≠ .scriptTag) (cs : List Node) (b : Trivia) :
    (branch k cs b).Heeds tr t reports := by
  unfold Heeds
  split
  all_goals simp_all

end Node

/-! ## At the cursor -/

namespace Context.Over

variable {tr : Char} {t : Text} {c : Context} (h : c.Over tr t)

include h

/-- **Characters at which no transition stands are text.** -/
theorem plain {m n : ℕ} (hmn : m ≤ n) (hfree : c.Free n) :
    (Location.ofText c.pos (c.rest.take m)).Plain t tr := by
  refine ⟨_, _, h.between m, fun p q hsplit => ?_⟩
  have hsplit : c.rest.take m = p ++ tr :: q := hsplit
  have hlength : p.length < m := by
    have := congrArg List.length hsplit
    simp only [List.length_take, List.length_append, List.length_cons] at this
    omega
  -- at the character itself, the question was answered with no
  have hat := hfree p.length (by omega)
  have hrest : c.rest = p ++ tr :: (q ++ c.rest.drop m) := by
    calc c.rest = c.rest.take m ++ c.rest.drop m := (List.take_append_drop m c.rest).symm
      _ = p ++ tr :: (q ++ c.rest.drop m) := by rw [hsplit]; simp
  have hread : (c.read p.length).2.atTransition =
      startsTransition tr (p.reverse ++ c.before).head? (tr :: (q ++ c.rest.drop m)) := by
    have htake : c.rest.take p.length = p := by rw [hrest, List.take_left']; rfl
    have hdrop : c.rest.drop p.length = tr :: (q ++ c.rest.drop m) := by
      nth_rewrite 1 [hrest]
      exact List.drop_left' rfl
    show startsTransition c.transition ((c.rest.take p.length).reverse ++ c.before).head?
      (c.rest.drop p.length) = _
    rw [htake, hdrop, h.transition]
  rw [hread, startsTransition] at hat
  simp only [Text.ahead, List.getD_cons_zero, beq_self_eq_true, Bool.true_and, Bool.or_eq_false_iff,
    Bool.not_eq_false'] at hat
  obtain ⟨hnext, hprevious⟩ := hat
  refine ⟨?_, fun hhead => ?_⟩
  · rw [← List.head?_reverse]
    simpa using hprevious
  · obtain ⟨more, hmore⟩ := List.head?_eq_some_iff.1 hhead
    rw [hmore] at hnext
    simp at hnext

/-- **A transition at the cursor starts code.** -/
theorem atTransition_cases (htr : tr ≠ Text.nul) (hat : c.atTransition = true) : ∃ rest, c.rest = tr :: rest ∧
    (rest.head? = some tr ∨ c.before.reverse.getLast?.any Char.isAlphanum = false) := by
  unfold atTransition startsTransition at hat
  rw [h.transition, Bool.and_eq_true, beq_iff_eq, Bool.or_eq_true, beq_iff_eq] at hat
  obtain ⟨hcurrent, hor⟩ := hat
  cases hrest : c.rest with
  | nil => exact absurd (by rw [← hcurrent, hrest]; rfl) htr
  | cons x rest =>
    rw [hrest] at hcurrent hor
    obtain rfl : x = tr := hcurrent
    refine ⟨rest, rfl, hor.imp (fun hnext => ?_) fun hprevious => ?_⟩
    · cases rest with
      | nil => exact absurd hnext.symm htr
      | cons y rest => exact congrArg some hnext
    · rw [← List.head?_reverse, List.reverse_reverse]
      simpa [previous?] using hprevious

/-- Where a transition is seen, code starts. -/
theorem startsCode (htr : tr ≠ Text.nul) (hat : c.atTransition = true) (n : ℕ) :
    (Location.ofText c.pos (c.rest.take (n + 1))).StartsCode t tr := by
  obtain ⟨rest, hrest, hor⟩ := h.atTransition_cases htr hat
  refine ⟨_, _, h.between (n + 1), ?_, hor.imp_left fun hnext => ?_⟩
  · rw [hrest]; rfl
  · rw [Location.text_ofText, List.take_append_drop, hrest]
    exact hnext

end Context.Over

/-! ## Runs -/

/-- What a run over the text leaves behind: its nodes are heeded, given what is reported by now. -/
structure Context.Heeded (tr : Char) (t : Text) (c : Context) (ns : List Node) (d : Context) : Prop where
  stays : d.Over tr t
  reports : c.diagnostics <+: d.diagnostics
  heeds : ∀ n ∈ Node.descendantsAll ns, n.Heeds tr t d.diagnostics

/-- The chronicle of a run that starts in the text. -/
def Heeding (tr : Char) (t : Text) (c : Context) (ns : List Node) (d : Context) : Prop :=
  c.Over tr t → c.Heeded tr t ns d

namespace Heeding

variable {tr : Char} {t u : Text} {c d e : Context} {ns ms : List Node}

/-- Steps without nodes only add reports. -/
theorem of_moved (hm : c.Moved u d) (hreports : c.diagnostics <+: d.diagnostics) : Heeding tr t c [] d :=
  fun hc => ⟨hc.moved hm, hreports, fun _ hn => (List.not_mem_nil hn).elim⟩

/-- The nodes of the first part heed the reports of both. -/
theorem trans (h : Heeding tr t c ns d) (h' : Heeding tr t d ms e) : Heeding tr t c (ns ++ ms) e := by
  intro hc
  obtain ⟨hd, hreports, hns⟩ := h hc
  obtain ⟨he, hreports', hms⟩ := h' hd
  refine ⟨he, hreports.trans hreports', fun n hn => ?_⟩
  rw [Node.descendantsAll_append, List.mem_append] at hn
  rcases hn with hn | hn
  · exact (hns n hn).mono hreports'
  · exact hms n hn

/-- A leaf, read before the context `d`. -/
theorem leaf {k : Kind} {v : Leaf} {l : Location} {b : Trivia} (h : Heeding tr t c [] d)
    (hleaf : c.Over tr t → (Node.leaf k v l b).Heeds tr t d.diagnostics) : Heeding tr t c [.leaf k v l b] d := by
  intro hc
  obtain ⟨hd, hreports, -⟩ := h hc
  refine ⟨hd, hreports, fun n hn => ?_⟩
  rw [Node.descendantsAll_singleton, Node.descendants, List.mem_singleton] at hn
  exact hn ▸ hleaf hc

/-- A branch adds its own demand to those of its children. -/
theorem branch {k : Kind} (h : Heeding tr t c ns d)
    (hbranch : c.Over tr t → (Node.ofChildren k ns).Heeds tr t d.diagnostics) :
    Heeding tr t c [.ofChildren k ns] d := by
  intro hc
  obtain ⟨hd, hreports, hns⟩ := h hc
  refine ⟨hd, hreports, fun n hn => ?_⟩
  rw [Node.descendantsAll_singleton, Node.descendants_ofChildren, List.mem_cons] at hn
  rcases hn with rfl | hn
  · exact hbranch hc
  · exact hns n hn

theorem withTrivia {n : Node} (b : Trivia) (h : Heeding tr t c [n] d) : Heeding tr t c [n.withTrivia b] d := by
  intro hc
  obtain ⟨hd, hreports, hn⟩ := h hc
  rw [Node.descendantsAll_singleton, Node.descendants_eq_cons] at hn
  obtain ⟨hself, hbelow⟩ := List.forall_mem_cons.1 hn
  refine ⟨hd, hreports, ?_⟩
  rw [Node.descendantsAll_singleton, Node.descendants_withTrivia]
  exact List.forall_mem_cons.2 ⟨hself.withTrivia b, hbelow⟩

theorem read (c : Context) (n : ℕ) : Heeding tr t c [] (c.read n).2 :=
  of_moved (c.moved_read n) List.prefix_rfl

theorem report (c : Context) (x : Diagnostic) : Heeding tr t c [] (c.report x) :=
  of_moved (c.moved_report x) (List.prefix_append _ _)

theorem passing (tr : Char) (t : Text) : Passing (Heeding tr t) where
  trans := trans
  stay hm hreports := of_moved hm (hreports ▸ List.prefix_rfl)
  read := read
  report c _ _ _ := report c _
  leaf c k v l b hk := by
    refine leaf (of_moved (.refl c) List.prefix_rfl) fun _ => Node.heeds_leaf ?_ v l b
    revert hk
    cases k <;> simp [Kind.isOrdinary]
  branch hk h := h.branch fun _ => Node.heeds_branch (by rintro rfl; cases hk) _ _
  trivia b h := h.withTrivia b

end Heeding

/-! ## Scripts -/

namespace Parse

variable {tr : Char} {t : Text} {c d e : Context}

/-- If the node is raw text, it is text. -/
def RawPlain (tr : Char) (t : Text) (n : Node) : Prop :=
  ∀ v l b, n = .leaf .rawText v l b → l.Plain t tr

theorem rawPlain_of_kind {n : Node} (h : n.kind ≠ .rawText) : RawPlain tr t n := by
  rintro v l b rfl
  exact absurd rfl h

/-- Only scripts become script elements. -/
theorem isScript_of_kind {o : Opening} {name : Text} (hname : o.contentName? = some name)
    (hkind : o.kind = .scriptTag) : Html.isScript name = true := by
  rw [Opening.kind_eq hname] at hkind
  by_contra hscript
  rw [if_neg hscript] at hkind
  split at hkind <;> cases hkind

/-- Raw text in a script is text. -/
theorem RawText.plain {name : Text} {ns : List Node} (h : RawText name d ns e) (hd : d.Over tr t)
    (hscript : Html.isScript name = true) : ∀ n ∈ ns, RawPlain tr t n := by
  intro n hn v l b hleaf
  obtain ⟨u, c₁, m, hmoved, hfree, htoken⟩ := h.script hscript n hn (by rw [hleaf]; rfl)
  obtain ⟨-, -, rfl, -⟩ := Node.leaf.inj (hleaf.symm.trans htoken)
  exact (hd.moved hmoved).plain le_rfl hfree

/-- Raw text matters in a script only. -/
theorem heeds_element {o : Opening} {ns : List Node} {reports : List Diagnostic} (hshows : Shows o d)
    (hns : o.kind = .scriptTag → ∀ n ∈ ns, RawPlain tr t n) :
    (Node.ofChildren o.kind (o.tag :: ns)).Heeds tr t reports := by
  by_cases hkind : o.kind = .scriptTag
  · have htag : RawPlain tr t o.tag := rawPlain_of_kind (by rw [hshows.kind]; decide)
    rw [hkind]
    intro v l b hmem
    exact List.forall_mem_cons.2 ⟨htag, hns hkind⟩ _ hmem v l b rfl
  · exact Node.heeds_branch hkind _ _

/-- However a region stops, nothing is asked of it. -/
theorem Region.Stops.heeding {R : Region} {y : Text} {stop : Node} (h : R.Stops y d stop e)
    (hR : R = commentRegion ∨ R = cdataRegion) : Heeding tr t d [stop] e := by
  have hkind : R.stopKind ≠ .literal ∧ R.stopKind ≠ .transition ∧ R.stopKind ≠ .escapedTransition := by
    rcases hR with rfl | rfl <;> decide
  cases h with
  | missing => exact (Heeding.report d _).leaf fun _ => Node.heeds_leaf hkind _ _ _
  | token => exact (Heeding.read d _).leaf fun _ => Node.heeds_leaf hkind _ _ _

end Parse

theorem Heeding.declared {tr : Char} {t : Text} (c : Context) (known : Bool) (l : Location) :
    Heeding tr t c [] (c.declared known l) := by
  have hreport : ∀ (d : Context) (b : Prop) [Decidable b] (p : Problem), Heeding tr t d [] (d.reportIf b p l) := by
    intro d b _ p
    unfold Context.reportIf
    split
    · exact .report d _
    · exact .of_moved (.refl d) List.prefix_rfl
  exact (hreport c _ _).trans (hreport _ _ _)

/-! ## Whole templates -/

/-- **Runs of the parser heed transitions.** -/
theorem chronicle_heeded {tr : Char} (htr : tr ≠ Text.nul) (t : Text) : Chronicle (Heeding tr t) where
  toPassing := Heeding.passing tr t
  marker {c} hat := (Heeding.read c 1).leaf fun hc => hc.startsCode htr hat 0
  escaped {c} hat hpeek := by
    refine (Heeding.read c 2).leaf fun hc => ⟨hc.startsCode htr hat 1, ?_⟩
    obtain ⟨rest, hrest, -⟩ := hc.atTransition_cases htr hat
    -- a transition at the end of the text is not followed by itself, for the end looks like no transition
    have hnext : rest.head? = some tr := by
      unfold Context.peek Context.peekAt at hpeek
      rw [hc.transition, hrest] at hpeek
      cases rest with
      | nil => exact absurd hpeek.symm htr
      | cons y rest => exact congrArg some hpeek
    obtain ⟨more, rfl⟩ := List.head?_eq_some_iff.1 hnext
    rw [hrest]
    rfl
  invalid {c} hat := by
    refine ((Heeding.read c 1).trans (Heeding.report _ _)).leaf fun hc => .inr ⟨?_, ?_⟩
    · obtain ⟨rest, hrest, -⟩ := hc.atTransition_cases htr hat
      rw [hrest]
      rfl
    · rw [hc.transition]
      exact List.mem_append_right _ (List.mem_singleton_self _)
  literal {c m n} b hmn hfree := (Heeding.read c n).leaf fun hc => .inl (hc.plain hmn hfree)
  region {c d e R x y stop} hR _ _ _ h hstop := by
    have hkind : R.kind ≠ .scriptTag := by rcases hR with rfl | rfl <;> decide
    exact (h.trans (hstop.heeding hR)).branch fun _ => Node.heeds_branch hkind _ _
  declaration {c n} known _ _ :=
    ((Heeding.read c (n + 1)).trans (.declared _ known _)).leaf fun _ => Node.heeds_leaf (by decide) _ _ _
  empty hshows _ h := h.branch fun _ => Parse.heeds_element hshows fun _ => List.forall_mem_nil _
  rawEnded {c d e g o name ns tag} hshows hname _ h hns hraw _ htag hkind _ := by
    -- only scripts ask for something: no transition in their raw text
    have hall : Heeding tr t c (o.tag :: (ns ++ [tag])) g := h.trans (hns.trans htag)
    refine hall.branch fun hc => Parse.heeds_element hshows fun hscript => ?_
    refine List.forall_mem_append.2 ⟨hraw.plain (h hc).stays (Parse.isScript_of_kind hname hscript), ?_⟩
    exact List.forall_mem_singleton.2 (Parse.rawPlain_of_kind (by rw [hkind]; decide))
  rawUnended {c d e o name ns} hshows hname _ h hns hraw _ := by
    have hreport : Heeding tr t e [] (e.report ((Problem.unterminatedRawText name).located (.empty e.pos))) :=
      .report e _
    have hall := h.trans ((Heeding.passing tr t).trans_stay hns hreport)
    refine hall.branch fun hc => Parse.heeds_element hshows fun hscript => ?_
    exact hraw.plain (h hc).stays (Parse.isScript_of_kind hname hscript)

/-- **No transition is missed.** Whatever the transition character is, except `nul`: where it stands
in text, or in the text of a script, it directly follows a letter or digit and none directly follows
it, unless it is all of the text and is reported there; and a token of a transition starts where one
directly follows, or where no letter or digit directly precedes. An escaped transition is two of
them. -/
theorem parse_heeds (options : ParseOptions) (t : Text) (h : options.language ∈ Registry.standard.languages)
    (htransition : options.transition ≠ Text.nul) :
    ∃ r, Template.parse options t = .ok r ∧
      ∀ n ∈ Node.descendantsAll r.nodes, n.Heeds options.transition t r.diagnostics := by
  refine ⟨_, parse_eq_document t h, fun n hn => ?_⟩
  have hdocument := Template.document_chronicled (chronicle_heeded htransition t) options t
    (Context.over_atDocument options t)
  rw [Node.descendantsAll, List.mem_append] at hn
  rcases hn with hn | hn
  · exact hdocument.heeds n (by rwa [Node.descendantsAll_singleton])
  · -- the end of the file
    rw [List.mem_singleton.1 hn]
    exact Node.heeds_leaf (by decide) _ _ _

theorem parse_heeds_letters :
    ({ transition := 'a', maxNestingDepth := 1 } : ParseOptions).language ∈ Registry.standard.languages ∧
      ({ transition := 'a', maxNestingDepth := 1 } : ParseOptions).transition ≠ Text.nul ∧
      ∃ r, Template.parse { transition := 'a', maxNestingDepth := 1 }
          "xay aa aax<i a?><p b='1a'>a!<script>1a a;aa</p".toList = .ok r ∧
        ∀ n ∈ Node.descendantsAll r.nodes, n.Heeds 'a'
          "xay aa aax<i a?><p b='1a'>a!<script>1a a;aa</p".toList r.diagnostics :=
  ⟨by decide, by decide, parse_heeds _ _ (by decide) (by decide)⟩

end Stencil
