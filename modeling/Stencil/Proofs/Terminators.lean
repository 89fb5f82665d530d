import Stencil.Proofs.Chronicles
import Stencil.Proofs.WellFormed

/-!
# Where regions without code end

Comments, sections of character data, declarations and the content of styles hold no code. Each of
them ends at its first terminator, or at the end of the source.

* `Text.UpTo`: what stands before the first place of a kind.
* `Node.Bounded`: what a region looks like, by its kind.
* `Node.unterminated?`: the problem of a region without a terminator, read off the tree.
* `chronicle_bounded`: runs of the parser keep all of it.
* `parse_bounds`: **regions without code end at their first terminators, and exactly those that
  have none are reported.**
-/

namespace Stencil

/-! ## The first place of a kind -/

namespace Text

/-- A text is found in another one where that goes on with it. -/
theorem infix_iff_exists_drop {s t : Text} : s <:+: t ↔ ∃ i, s <+: t.drop i := by
  constructor
  · rintro ⟨u, w, rfl⟩
    exact ⟨u.length, w, by rw [List.append_assoc, List.drop_left]⟩
  · rintro ⟨i, hi⟩
    exact hi.isInfix.trans (List.drop_suffix i t).isInfix

/-- A text starts with another up to case if some prefix of it is the other up to case. -/
theorem startsWithLetters_iff {s : Text} (hs : nul ∉ s.lower) (t : Text) :
    t.startsWithLetters s = true ↔ ∃ z w, t = z ++ w ∧ lower z = s.lower := by
  induction s generalizing t with
  | nil => simp [startsWithLetters, lower]
  | cons e es ih =>
    obtain ⟨he, hes⟩ : nul ≠ e.toLower ∧ nul ∉ lower es := by simpa [lower] using hs
    rw [startsWithLetters, Bool.and_eq_true, beq_iff_eq, ih hes]
    cases t with
    | nil =>
      refine iff_of_false (fun h => he h.1) ?_
      rintro ⟨z, w, hzw, hz⟩
      obtain ⟨rfl, -⟩ := List.append_eq_nil_iff.1 hzw.symm
      cases hz
    | cons x rest =>
      constructor
      · rintro ⟨hx, z, w, hrest, hz⟩
        exact ⟨x :: z, w, congrArg (x :: ·) hrest, congrArg₂ List.cons hx hz⟩
      · rintro ⟨z, w, hzw, hz⟩
        cases z with
        | nil => cases hz
        | cons y z =>
          obtain ⟨rfl, hrest⟩ := List.cons.inj hzw
          obtain ⟨hx, hz⟩ := List.cons.inj hz
          exact ⟨hx, z, w, hrest, hz⟩

/-- The text starts with `</style` in letters of any case, and nothing after it continues the name. -/
def EndsStyle (t : Text) : Prop :=
  ∃ z w, t = z ++ w ∧ lower z = "</style".toList ∧ ∀ x ∈ w.head?, Html.isNameChar x = false

theorem not_endsStyle_nil : ¬ EndsStyle [] := by
  rintro ⟨z, w, hzw, hz, -⟩
  obtain ⟨rfl, -⟩ := List.append_eq_nil_iff.1 hzw.symm
  cases hz

/-- **What ends the raw text of a style.** -/
theorem endsRawText_iff {name : Text} (hname : Html.isStyle name = true) (t : Text) :
    Parse.endsRawText name t = true ↔ t.EndsStyle := by
  have hlower : lower ('<' :: '/' :: name) = "</style".toList := by
    have hstyle : name.lower = "style".toList := by simpa [Html.isStyle] using hname
    show '<' :: '/' :: name.lower = _
    rw [hstyle]
    rfl
  have hnul : nul ∉ lower ('<' :: '/' :: name) := by rw [hlower]; decide
  rw [Parse.endsRawText, Bool.and_eq_true, startsWithLetters_iff hnul, hlower, Bool.not_eq_true']
  -- the character after the name is the first one that is left
  have hnext : ∀ z w : Text, lower z = "</style".toList →
      ((Html.isNameChar (Text.ahead (z ++ w) (name.length + 2)) = false) ↔
        ∀ x ∈ w.head?, Html.isNameChar x = false) := by
    intro z w hz
    have hlength : z.length = name.length + 2 := by
      rw [← length_lower z, hz, ← hlower, length_lower]
      rfl
    rw [ahead, List.getD_eq_getElem?_getD, List.getElem?_append_right (by omega), hlength, Nat.sub_self]
    cases w with
    | nil => simpa using Html.isNameChar_nul
    | cons x w => simp
  constructor
  · rintro ⟨⟨z, w, rfl, hz⟩, hend⟩
    exact ⟨z, w, rfl, hz, (hnext z w hz).1 hend⟩
  · rintro ⟨z, w, rfl, hz, hw⟩
    exact ⟨⟨z, w, rfl, hz⟩, (hnext z w hz).2 hw⟩

end Text

/-! ## Regions in the tree -/

/-- Whether a diagnostic reports a region without a terminator. -/
def Diagnostic.isUnterminated (x : Diagnostic) : Bool :=
  x.code.isUnterminated

/-- The location is that of a declaration: it starts with `<!` and goes through the first `>`, with
which it ends if there is one. -/
def Location.IsDeclaration (t : Text) (l : Location) : Prop :=
  ∃ u x y, t = u ++ (x ++ y) ∧ ['<', '!'] <+: x ++ y ∧ Text.UpTo (['>'] <+: ·) x y ∧
    l = .ofText (({} : Position).after u) (x ++ y.take 1) ∧
    (['>'] <:+: x ++ y ↔ l.text.getLast? = some '>')

namespace Node

/-- The children of a region: its opening delimiter, the text up to the first closing one, and that
one if there is one. -/
def Delimit (R : Parse.Region) (t : Text) (cs : List Node) : Prop :=
  ∃ u x y stop, t = u ++ (R.start ++ (x ++ y)) ∧ Text.UpTo (R.stop <+: ·) x y ∧
    cs = [.token R.startKind (.ofText (({} : Position).after u) R.start),
      .token R.contentKind (.ofText (({} : Position).after (u ++ R.start)) x), stop] ∧
    (R.stop <:+: x ++ y ∧
        stop = .token R.stopKind (.ofText (({} : Position).after (u ++ R.start ++ x)) R.stop) ∨
      ¬ R.stop <:+: x ++ y ∧ stop = .missing R.stopKind (({} : Position).after (u ++ R.start ++ x)))

/-- The children of a style with content: its start tag, the text up to the first end tag of a style
if there is any text, and the end tag if there is one. -/
def HoldStyle (t : Text) (cs : List Node) : Prop :=
  ∃ u x y tag last, t = u ++ (x ++ y) ∧ tag.fullStop? = some (({} : Position).after u) ∧
    Text.UpTo Text.EndsStyle x y ∧
    cs = tag :: ((if x = [] then [] else [.token .rawText (.ofText (({} : Position).after u) x)]) ++ last) ∧
    ((∃ i, Text.EndsStyle ((x ++ y).drop i)) ∧ (∃ e, last = [e] ∧ e.kind = .htmlEndTag ∧
        e.fullStart? = some (({} : Position).after (u ++ x))) ∨
      (¬ ∃ i, Text.EndsStyle ((x ++ y).drop i)) ∧ last = [])

/-- What is asked of a node of the text. -/
def Bounded (t : Text) : Node → Prop
  | branch .comment cs _ => Delimit Parse.commentRegion t cs
  | branch .cdata cs _ => Delimit Parse.cdataRegion t cs
  | leaf .doctype _ l _ => l.IsDeclaration t
  | branch .styleTag cs b => (branch .styleTag cs b).opensContent = true → HoldStyle t cs
  | _ => True

/-- An element with content and without an end tag. -/
def isUnended (n : Node) : Bool :=
  n.opensContent && !n.children.any fun m => m.kind == .htmlEndTag

/-- The problem of a region that has no terminator. The content of scripts is such a region here as
well. -/
def unterminated? (n : Node) : Option Problem :=
  match n with
  | branch .comment cs _ => if cs.any isMissing then some .unterminatedComment else none
  | branch .cdata cs _ => if cs.any isMissing then some .unterminatedCData else none
  | leaf .doctype _ l _ => if l.text.getLast? = some '>' then none else some .unterminatedDoctype
  | branch .scriptTag _ _ | branch .styleTag _ _ =>
    if n.isUnended then n.tagName?.map .unterminatedRawText else none
  | _ => none

/-- The report of a region that has no terminator: at a leaf where it stands, else at the end of the
text. -/
def unterminatedReport? (t : Text) (n : Node) : Option Diagnostic :=
  n.unterminated?.map fun p => p.located (n.location?.getD (.empty (({} : Position).after t)))

/-- A node of which nothing is asked, and which cannot lack a terminator. -/
def IsOpen (t : Text) (n : Node) : Prop :=
  n.Bounded t ∧ n.unterminated? = none

theorem isOpen_leaf {t : Text} {k : Kind} (hk : k ≠ .doctype) (v : Leaf) (l : Location) (b : Trivia) :
    (leaf k v l b).IsOpen t := by
  constructor
  · unfold Bounded
    split
    all_goals simp_all
  · unfold unterminated?
    split
    all_goals simp_all

/-- Ordinary branches ask for no terminator. -/
theorem isOpen_branch {t : Text} {k : Kind} (hk : k.isOrdinary = true) (cs : List Node) (b : Trivia) :
    (branch k cs b).IsOpen t := by
  constructor
  · unfold Bounded
    split
    all_goals simp_all [Kind.isOrdinary]
  · unfold unterminated?
    split
    all_goals simp_all [Kind.isOrdinary]

/-- Nothing is asked of the blanks around a node. -/
theorem Bounded.withTrivia {t : Text} {n : Node} (b : Trivia) (h : n.Bounded t) : (n.withTrivia b).Bounded t := by
  cases n with
  | leaf k v l b' => cases k <;> exact h
  | branch k cs b' => cases k <;> exact h

theorem unterminatedReport?_withTrivia (t : Text) (n : Node) (b : Trivia) :
    (n.withTrivia b).unterminatedReport? t = n.unterminatedReport? t := by
  cases n with
  | leaf k v l b' => cases k <;> rfl
  | branch k cs b' => cases k <;> rfl

end Node

/-! ## Runs -/

/-- What a run over the text leaves behind: regions that end where they should, and the reports of
those that have no terminator. Among other nodes the reports come in another order. -/
structure Context.Bounds (tr : Char) (t : Text) (c : Context) (ns : List Node) (d : Context) : Prop where
  stays : d.Over tr t
  bounded : ∀ n ∈ Node.descendantsAll ns, n.Bounded t
  reports : ∃ more, d.diagnostics = c.diagnostics ++ more ∧
    (more.filter Diagnostic.isUnterminated).Perm
      ((Node.descendantsAll ns).filterMap (Node.unterminatedReport? t))

/-- The chronicle of a run that starts in the text. -/
def Bounding (tr : Char) (t : Text) (c : Context) (ns : List Node) (d : Context) : Prop :=
  c.Over tr t → c.Bounds tr t ns d

/-- The step from `c` to `d` does not move the cursor, and reports the region without a terminator
that is given, if any. -/
structure Context.Closes (c : Context) (x : Option Diagnostic) (d : Context) : Prop where
  moved : c.Moved [] d
  reports : ∃ more, d.diagnostics = c.diagnostics ++ more ∧ more.filter Diagnostic.isUnterminated = x.toList

theorem Context.closes_refl (c : Context) : c.Closes none c :=
  ⟨.refl c, [], (List.append_nil _).symm, rfl⟩

theorem Context.closes_report (c : Context) (p : Problem) (l : Location) :
    c.Closes (if p.code.isUnterminated then some (p.located l) else none) (c.report (p.located l)) := by
  refine ⟨c.moved_report _, [p.located l], rfl, ?_⟩
  have hcode : (p.located l).isUnterminated = p.code.isUnterminated := rfl
  rw [List.filter_singleton, hcode]
  cases p.code.isUnterminated <;> rfl

/-- Steps that report no missing terminator may follow. -/
theorem Context.Closes.trans {c d e : Context} {x : Option Diagnostic} (h : c.Closes x d) (h' : d.Closes none e) :
    c.Closes x e := by
  obtain ⟨more, hmore, hfilter⟩ := h.reports
  obtain ⟨more', hmore', hfilter'⟩ := h'.reports
  refine ⟨h.moved.trans_stay h'.moved, more ++ more', by rw [hmore', hmore, List.append_assoc], ?_⟩
  rw [List.filter_append, hfilter, hfilter']
  exact List.append_nil _

namespace Bounding

variable {tr : Char} {t u : Text} {c d e : Context} {ns ms : List Node}

theorem of_moved (hm : c.Moved u d) (hreports : d.diagnostics = c.diagnostics) : Bounding tr t c [] d :=
  fun hc => ⟨hc.moved hm, fun _ hn => (List.not_mem_nil hn).elim, [],
    by rw [hreports, List.append_nil], .nil⟩

/-- What is bounded in each part is bounded in both. -/
theorem trans (h : Bounding tr t c ns d) (h' : Bounding tr t d ms e) : Bounding tr t c (ns ++ ms) e := by
  intro hc
  obtain ⟨hd, hns, more, hmore, hperm⟩ := h hc
  obtain ⟨he, hms, more', hmore', hperm'⟩ := h' hd
  refine ⟨he, ?_, more ++ more', ?_, ?_⟩
  · rw [Node.descendantsAll_append]
    exact List.forall_mem_append.2 ⟨hns, hms⟩
  · rw [hmore', hmore, List.append_assoc]
  · rw [Node.descendantsAll_append, List.filter_append, List.filterMap_append]
    exact hperm.append hperm'

theorem read (c : Context) (n : ℕ) : Bounding tr t c [] (c.read n).2 :=
  of_moved (c.moved_read n) rfl

/-- A step that reports nothing of regions. -/
theorem of_closes (h : c.Closes none d) : Bounding tr t c [] d := by
  intro hc
  obtain ⟨more, hmore, hfilter⟩ := h.reports
  refine ⟨hc.moved h.moved, fun _ hn => (List.not_mem_nil hn).elim, more, hmore, ?_⟩
  rw [hfilter]
  exact .nil

/-- **A node over others.** What is reported of it comes after what is reported below it. -/
theorem branch {k : Kind} (h : Bounding tr t c ns d)
    (hbounded : c.Over tr t → (Node.ofChildren k ns).Bounded t)
    (hcloses : d.Over tr t → d.Closes ((Node.ofChildren k ns).unterminatedReport? t) e) :
    Bounding tr t c [.ofChildren k ns] e := by
  intro hc
  obtain ⟨hd, hns, more, hmore, hperm⟩ := h hc
  obtain ⟨hmoved, last, hlast, hfilter⟩ := hcloses hd
  refine ⟨hd.moved hmoved, ?_, more ++ last, by rw [hlast, hmore, List.append_assoc], ?_⟩
  · rw [Node.descendantsAll_singleton, Node.descendants_ofChildren]
    exact List.forall_mem_cons.2 ⟨hbounded hc, hns⟩
  · have hself : (Node.descendantsAll [.ofChildren k ns]).filterMap (Node.unterminatedReport? t) =
        ((Node.ofChildren k ns).unterminatedReport? t).toList ++
          (Node.descendantsAll ns).filterMap (Node.unterminatedReport? t) := by
      rw [Node.descendantsAll_singleton, Node.descendants_ofChildren, List.filterMap_cons]
      cases (Node.ofChildren k ns).unterminatedReport? t <;> rfl
    rw [hself, List.filter_append, hfilter]
    exact (hperm.append_right _).trans List.perm_append_comm

/-- A leaf, read before the context `d`, with what is reported of it after that. -/
theorem leaf {k : Kind} {v : Leaf} {l : Location} {b : Trivia} (h : Bounding tr t c [] d)
    (hbounded : c.Over tr t → (Node.leaf k v l b).Bounded t)
    (hcloses : d.Closes ((Node.leaf k v l b).unterminatedReport? t) e) : Bounding tr t c [.leaf k v l b] e := by
  intro hc
  obtain ⟨hd, -, more, hmore, hperm⟩ := h hc
  obtain ⟨hmoved, last, hlast, hfilter⟩ := hcloses
  refine ⟨hd.moved hmoved, ?_, more ++ last, by rw [hlast, hmore, List.append_assoc], ?_⟩
  · exact List.forall_mem_singleton.2 (hbounded hc)
  · have hself : (Node.descendantsAll [.leaf k v l b]).filterMap (Node.unterminatedReport? t) =
        ((Node.leaf k v l b).unterminatedReport? t).toList := by
      rw [Node.descendantsAll_singleton, Node.descendants, List.filterMap_cons]
      cases (Node.leaf k v l b).unterminatedReport? t <;> rfl
    rw [hself, List.filter_append, hfilter]
    exact (List.Perm.append_right _ hperm)

/-- A leaf of which nothing is asked. -/
theorem openLeaf {k : Kind} {v : Leaf} {l : Location} {b : Trivia} (hk : k ≠ .doctype)
    (h : Bounding tr t c [] d) : Bounding tr t c [.leaf k v l b] d := by
  obtain ⟨hbounded, hnone⟩ := Node.isOpen_leaf (t := t) hk v l b
  refine h.leaf (fun _ => hbounded) ?_
  rw [Node.unterminatedReport?, hnone]
  exact d.closes_refl

theorem withTrivia {n : Node} (b : Trivia) (h : Bounding tr t c [n] d) : Bounding tr t c [n.withTrivia b] d := by
  intro hc
  obtain ⟨hd, hn, more, hmore, hperm⟩ := h hc
  rw [Node.descendantsAll_singleton, Node.descendants_eq_cons] at hn hperm
  obtain ⟨hself, hbelow⟩ := List.forall_mem_cons.1 hn
  refine ⟨hd, ?_, more, hmore, ?_⟩
  · rw [Node.descendantsAll_singleton, Node.descendants_withTrivia]
    exact List.forall_mem_cons.2 ⟨hself.withTrivia b, hbelow⟩
  · rw [Node.descendantsAll_singleton, Node.descendants_withTrivia, List.filterMap_cons,
      Node.unterminatedReport?_withTrivia, ← List.filterMap_cons]
    exact hperm

/-- Ordinary nodes pass. -/
theorem passing (tr : Char) (t : Text) : Passing (Bounding tr t) where
  trans := trans
  stay := of_moved
  read := read
  report c l p hp := by
    have hcloses := c.closes_report p l
    rw [if_neg (by simp [hp])] at hcloses
    exact of_closes hcloses
  leaf c k v l b hk := openLeaf (by rintro rfl; cases hk) (of_moved (.refl c) rfl)
  branch {c ns d k} hk h := by
    obtain ⟨hbounded, hnone⟩ := Node.isOpen_branch (t := t) hk ns {}
    refine h.branch (fun _ => hbounded) fun _ => ?_
    rw [Node.unterminatedReport?, Node.ofChildren, hnone]
    exact d.closes_refl
  trivia b h := h.withTrivia b

end Bounding

/-! ## Comments, character data and declarations -/

namespace Context.Over

variable {tr : Char} {t : Text} {c : Context} (h : c.Over tr t)

include h

/-- At the end of the text the cursor stands after all of it. -/
theorem pos_of_rest (hrest : c.rest = []) : c.pos = ({} : Position).after t := by
  rw [h.pos, h.text, hrest, List.append_nil]

theorem after_eq (x : Text) : c.pos.after x = ({} : Position).after (c.before.reverse ++ x) := by
  rw [h.pos, Position.after_append]

end Context.Over

namespace Parse

variable {tr : Char} {t : Text} {c : Context}

/-- What the two regions between delimiters have in common. -/
structure Region.Known (R : Region) : Prop where
  stop_ne : R.stop ≠ []
  stopKind : R.stopKind ≠ .doctype
  isUnterminated : R.unterminated.code.isUnterminated = true
  bounded : ∀ (t : Text) (cs : List Node), (Node.ofChildren R.kind cs).Bounded t = Node.Delimit R t cs
  unterminated? : ∀ cs : List Node, (Node.ofChildren R.kind cs).unterminated? =
    if cs.any Node.isMissing then some R.unterminated else none

theorem commentRegion_known : commentRegion.Known :=
  ⟨by decide, by decide, rfl, fun _ _ => rfl, fun _ => rfl⟩

theorem cdataRegion_known : cdataRegion.Known :=
  ⟨by decide, by decide, rfl, fun _ _ => rfl, fun _ => rfl⟩

/-- **A region between delimiters ends at its first terminator.** -/
theorem Region.Known.bounding {R : Region} (hR : R.Known) {d e : Context} {x y : Text} {stop : Node}
    (hrest : c.rest = R.start ++ (x ++ y)) (hupTo : Text.UpTo (R.stop <+: ·) x y) (hmoved : c.Moved (R.start ++ x) d)
    (h : Bounding tr t c [.token R.startKind (.ofText c.pos R.start),
      .token R.contentKind (.ofText (c.pos.after R.start) x)] d) (hstop : R.Stops y d stop e) :
    Bounding tr t c [.ofChildren R.kind [.token R.startKind (.ofText c.pos R.start),
      .token R.contentKind (.ofText (c.pos.after R.start) x), stop]] e := by
  have hoccurs : R.stop <:+: x ++ y ↔ y ≠ [] := by
    rw [Text.infix_iff_exists_drop]
    exact hupTo.exists_iff fun h => hR.stop_ne (List.prefix_nil.1 h)
  have hbounded : c.Over tr t → (Node.ofChildren R.kind [.token R.startKind (.ofText c.pos R.start),
      .token R.contentKind (.ofText (c.pos.after R.start) x), stop]).Bounded t := by
    intro hc
    have hpos : d.pos = ({} : Position).after (c.before.reverse ++ R.start ++ x) := by
      rw [hmoved.pos, hc.after_eq, List.append_assoc]
    rw [hR.bounded]
    refine ⟨c.before.reverse, x, y, stop, ?_, hupTo, ?_, ?_⟩
    · rw [hc.text, hrest]
    · rw [hc.after_eq, hc.pos]
    · rw [hoccurs, not_not, ← hpos]
      cases hstop with
      | missing hy => exact .inr ⟨hy, rfl⟩
      | token hy => exact .inl ⟨hy, rfl⟩
  cases hstop with
  | missing hy =>
    -- the region goes on to the end of the text
    have hall := h.trans (Bounding.openLeaf (v := .missing) (l := .empty d.pos) (b := {}) hR.stopKind
      (.of_moved (.refl d) rfl))
    refine hall.branch hbounded fun hd => ?_
    have hnone : d.rest = [] := by
      have hsplit := hrest.symm.trans hmoved.rest
      rw [hy, List.append_nil] at hsplit
      exact List.append_right_eq_self.1 hsplit.symm
    have hcloses := d.closes_report R.unterminated (.empty d.pos)
    rw [if_pos hR.isUnterminated, hd.pos_of_rest hnone] at hcloses
    rw [Node.unterminatedReport?, hR.unterminated?, hd.pos_of_rest hnone]
    exact hcloses
  | token =>
    have hall := h.trans (Bounding.openLeaf (v := .token R.stop) (l := .ofText d.pos R.stop) (b := {})
      hR.stopKind (.read d R.stop.length))
    refine hall.branch hbounded fun hd => ?_
    rw [Node.unterminatedReport?, hR.unterminated?]
    exact Context.closes_refl _

theorem ahead_eq_iff (u : Text) : (u.ahead 0 == '>') = true ↔ ['>'] <+: u := by
  cases u with
  | nil => simp [Text.ahead, Text.nul]
  | cons x u => simpa [Text.ahead] using eq_comm

/-- A declaration ends with `>` exactly if there is one. -/
theorem getLast?_declaration {x y : Text} (h : Text.UpTo (['>'] <+: ·) x y) :
    (x ++ y.take 1).getLast? = some '>' ↔ y ≠ [] := by
  rcases h.stop with rfl | ⟨z, rfl⟩
  · refine iff_of_false (fun hlast => ?_) (by simp)
    -- the last character would be a place to stop
    obtain ⟨u, hu⟩ := List.getLast?_eq_some_iff.1 hlast
    have hx : x = u ++ ['>'] := by simpa using hu
    refine h.first u.length (by simp [hx]) ?_
    rw [hx]
    simp
  · simp

/-- What a declaration reports of its end. -/
theorem closes_declared (d : Context) (known : Bool) (l : Location) :
    d.Closes ((Node.token .doctype l).unterminatedReport? t) (d.declared known l) := by
  have hknown : ∀ e : Context, e.Closes none (e.reportIf (known = false) .unknownDeclaration l) := by
    intro e
    unfold Context.reportIf
    split
    · exact e.closes_report .unknownDeclaration l
    · exact e.closes_refl
  refine Context.Closes.trans ?_ (hknown _)
  unfold Context.reportIf
  by_cases hend : l.text.getLast? = some '>'
  · have hnone : (Node.token .doctype l).unterminatedReport? t = none := by
      simp [Node.unterminatedReport?, Node.unterminated?, Node.token, hend]
    rw [hnone, if_neg (not_not.2 hend)]
    exact d.closes_refl
  · have hsome : (Node.token .doctype l).unterminatedReport? t =
        some (Problem.unterminatedDoctype.located l) := by
      simp [Node.unterminatedReport?, Node.unterminated?, Node.token, Node.location?, hend]
    rw [hsome, if_pos hend]
    exact d.closes_report .unterminatedDoctype l

/-- **A declaration goes through the first `>`.** -/
theorem declaration_bounding {n : ℕ} (known : Bool) (hstart : c.rest.startsWith ['<', '!'] = true)
    (hn : n = c.rest.runLength (fun _ t => t.ahead 0 == '>') none) :
    Bounding tr t c [.token .doctype (.ofText c.pos (c.rest.take (n + 1)))]
      ((c.read (n + 1)).2.declared known (.ofText c.pos (c.rest.take (n + 1)))) := by
  have hupTo : Text.UpTo (['>'] <+: ·) (c.rest.take n) (c.rest.drop n) := by
    rw [hn]
    exact (Text.upTo_runLength (fun t => t.ahead 0 == '>') c.rest []).congr ahead_eq_iff
  have htake : c.rest.take (n + 1) = c.rest.take n ++ (c.rest.drop n).take 1 := List.take_add
  have hlast := getLast?_declaration hupTo
  rw [← htake] at hlast
  refine (Bounding.read c (n + 1)).leaf (fun hc => ?_) (closes_declared _ known _)
  refine ⟨c.before.reverse, c.rest.take n, c.rest.drop n, ?_, ?_, hupTo, ?_, ?_⟩
  · rw [List.take_append_drop, hc.text]
  · rw [List.take_append_drop]
    exact (Text.startsWith_iff (by decide) _).1 hstart
  · rw [hc.pos, htake]
  · rw [Location.text_ofText, hlast, Text.infix_iff_exists_drop]
    exact hupTo.exists_iff (by simp)

/-! ## Styles and scripts -/

/-- **The raw text of a style ends at its first end tag.** -/
theorem RawText.holdStyle {name : Text} {tag : Node} {ns last : List Node} {e : Context} (h : RawText name c ns e)
    (hscript : Html.isScript name = false) (hname : Html.isStyle name = true) (hc : c.Over tr t)
    (htag : tag.fullStop? = some c.pos)
    (hlast : e.rest ≠ [] ∧ (∃ m, last = [m] ∧ m.kind = .htmlEndTag ∧ m.fullStart? = some e.pos) ∨
      e.rest = [] ∧ last = []) : Node.HoldStyle t (tag :: (ns ++ last)) := by
  obtain ⟨x, y, hrest, hupTo, hmoved, rfl⟩ := h.style hscript
  obtain rfl : e.rest = y := List.append_cancel_left (hmoved.rest.symm.trans hrest)
  have hstyle := hupTo.congr fun u => Text.endsRawText_iff hname u
  have hoccurs := hstyle.exists_iff Text.not_endsStyle_nil
  refine ⟨c.before.reverse, x, e.rest, tag, last, by rw [hc.text, hrest], by rw [htag, hc.pos], hstyle, ?_, ?_⟩
  · rw [hc.pos]
  · rw [hoccurs, not_not, ← hc.after_eq, ← hmoved.pos]
    exact hlast

/-- Raw text holds no end tag. -/
theorem RawText.kind_ne {name : Text} {ns : List Node} {e : Context} (h : RawText name c ns e) :
    ∀ n ∈ ns, n.kind ≠ .htmlEndTag := by
  intro n hn hkind
  have hk := h.kinds n hn
  rw [hkind] at hk
  rcases hk with hk | hk <;> cases hk

/-- An element with raw text has no end exactly if it has no end tag. -/
theorem unterminated?_raw {o : Opening} {name : Text} (hshows : Shows o c) (hname : o.contentName? = some name)
    (hraw : Html.isRawText name = true) (ns : List Node) :
    (Node.ofChildren o.kind (o.tag :: ns)).unterminated? =
      if ns.any fun m => m.kind == .htmlEndTag then none else some (.unterminatedRawText name) := by
  have hk := o.isElement_kind
  obtain ⟨hsome, -⟩ := Option.filter_eq_some_iff.1 hname
  have htag : (Node.ofChildren o.kind (o.tag :: ns)).tagName? = some name := by
    rw [Node.ofChildren, Node.tagName?_branch hk hshows.kind, hshows.name, hsome]
  have hopens : (Node.ofChildren o.kind (o.tag :: ns)).opensContent = true := by
    rw [hshows.opens _ _ hk, hname]
    rfl
  have hunended : (Node.ofChildren o.kind (o.tag :: ns)).isUnended = !ns.any fun m => m.kind == .htmlEndTag := by
    rw [Node.isUnended, hopens, Node.ofChildren, Node.children, List.any_cons, hshows.kind]
    rfl
  -- raw text stands in scripts and styles only
  have hkind : o.kind = .scriptTag ∨ o.kind = .styleTag := by
    rw [Opening.kind_eq hname]
    rcases (Html.isRawText_iff name).1 hraw with hscript | hstyle
    · rw [if_pos hscript]
      exact .inl rfl
    · rw [if_pos hstyle]
      split
      · exact .inl rfl
      · exact .inr rfl
  have hself : (Node.ofChildren o.kind (o.tag :: ns)).unterminated? =
      if (Node.ofChildren o.kind (o.tag :: ns)).isUnended then
        (Node.ofChildren o.kind (o.tag :: ns)).tagName?.map .unterminatedRawText
      else none := by
    rcases hkind with h | h
    · rw [h]; rfl
    · rw [h]; rfl
  rw [hself, hunended, htag]
  cases ns.any fun m => m.kind == .htmlEndTag <;> rfl

/-- Of elements, only the content of styles is asked after. -/
theorem bounded_element {o : Opening} {ns : List Node} (h : o.kind = .styleTag →
    (Node.ofChildren .styleTag (o.tag :: ns)).opensContent = true → Node.HoldStyle t (o.tag :: ns)) :
    (Node.ofChildren o.kind (o.tag :: ns)).Bounded t := by
  have hk := o.isElement_kind
  revert h hk
  generalize o.kind = k
  intro h hk
  cases k
  case styleTag => exact h rfl
  case htmlTag => trivial
  case scriptTag => trivial
  all_goals cases hk

theorem unterminated?_empty {o : Opening} (hshows : Shows o c) (hnone : o.contentName? = none) :
    (Node.ofChildren o.kind [o.tag]).unterminated? = none := by
  have hk := o.isElement_kind
  have hopens := hshows.opens o.kind [] hk
  rw [hnone] at hopens
  revert hk hopens
  generalize o.kind = k
  intro hk hopens
  have hended : (Node.ofChildren k [o.tag]).isUnended = false := by
    rw [Node.isUnended, hopens]
    rfl
  cases k
  case htmlTag => rfl
  case scriptTag => exact if_neg (by rw [hended]; exact Bool.false_ne_true)
  case styleTag => exact if_neg (by rw [hended]; exact Bool.false_ne_true)
  all_goals cases hk

/-- A style element has the name of one, and not that of a script. -/
theorem isStyle_of_kind {o : Opening} {name : Text} (hname : o.contentName? = some name)
    (hkind : o.kind = .styleTag) : Html.isScript name = false ∧ Html.isStyle name = true := by
  rw [Opening.kind_eq hname] at hkind
  cases hscript : Html.isScript name with
  | true => rw [hscript] at hkind; cases hkind
  | false =>
    refine ⟨rfl, ?_⟩
    by_contra hstyle
    rw [hscript, if_neg Bool.false_ne_true, if_neg hstyle] at hkind
    cases hkind

end Parse

/-! ## Whole templates -/

/-- **Runs of the parser end regions where they should.** -/
theorem chronicle_bounded (tr : Char) (t : Text) : Chronicle (Bounding tr t) where
  toPassing := Bounding.passing tr t
  marker {c} _ := Bounding.openLeaf (by decide) (.read c 1)
  escaped {c} _ _ := Bounding.openLeaf (by decide) (.read c 2)
  invalid {c} _ := by
    have hreport := (Bounding.passing tr t).report (c.read 1).2 (.ofText c.pos (c.rest.take 1))
      (p := .invalidTransition c.transition) rfl
    exact Bounding.openLeaf (by decide) ((Bounding.read c 1).trans hreport)
  literal {c m n} b _ _ := Bounding.openLeaf (by decide) (.read c n)
  region := by
    rintro c d e R x y stop (rfl | rfl) hrest hupTo hmoved h hstop
    · exact Parse.commentRegion_known.bounding hrest hupTo hmoved h hstop
    · exact Parse.cdataRegion_known.bounding hrest hupTo hmoved h hstop
  declaration known hstart hn := Parse.declaration_bounding known hstart hn
  empty {c d o} hshows hnone h := by
    refine h.branch (fun _ => Parse.bounded_element fun hkind hopens => ?_) fun _ => ?_
    · rw [hshows.opens _ _ rfl, hnone] at hopens
      cases hopens
    · rw [Node.unterminatedReport?, Parse.unterminated?_empty hshows hnone]
      exact d.closes_refl
  rawEnded {c d e g o name ns tag} hshows hname hraw h hns hrawText hne htag hkind hplace := by
    have hall : Bounding tr t c (o.tag :: (ns ++ [tag])) g := h.trans (hns.trans htag)
    refine hall.branch (fun hc => Parse.bounded_element fun hstyle _ => ?_) fun _ => ?_
    · obtain ⟨hscript, hisStyle⟩ := Parse.isStyle_of_kind hname hstyle
      exact hrawText.holdStyle hscript hisStyle (h hc).stays hshows.stops
        (.inl ⟨hne, tag, rfl, hkind, hplace⟩)
    -- the end tag is read, so nothing is reported
    · have hany : (ns ++ [tag]).any (fun m => m.kind == .htmlEndTag) = true :=
        List.any_eq_true.2 ⟨tag, by simp, by simp [hkind]⟩
      rw [Node.unterminatedReport?, Parse.unterminated?_raw hshows hname hraw, if_pos hany]
      exact g.closes_refl
  rawUnended {c d e o name ns} hshows hname hraw h hns hrawText hrest := by
    refine (h.trans hns).branch (fun hc => Parse.bounded_element fun hstyle _ => ?_) fun he => ?_
    · obtain ⟨hscript, hisStyle⟩ := Parse.isStyle_of_kind hname hstyle
      have hstyle := hrawText.holdStyle hscript hisStyle (h hc).stays hshows.stops (.inr ⟨hrest, rfl⟩)
      rwa [List.append_nil] at hstyle
    -- raw text holds no end tags, so the report is due
    · have hnone : ¬ ns.any (fun m => m.kind == .htmlEndTag) = true := by
        simpa using hrawText.kind_ne
      rw [Node.unterminatedReport?, List.singleton_append, Parse.unterminated?_raw hshows hname hraw, if_neg hnone,
        he.pos_of_rest hrest]
      exact e.closes_report (.unterminatedRawText name) _

/-- **Regions without code end at their first terminators.** Comments and character data hold one
leaf, the text up to the first terminator; a declaration goes through the first `>`; and a style that
opens content holds at most one leaf, the text up to the first end tag of a style. Without a terminator
they go on to the end of the source, and exactly then that is reported, once for each of them. -/
theorem parse_bounds (options : ParseOptions) (t : Text) (h : options.language ∈ Registry.standard.languages) :
    ∃ r, Template.parse options t = .ok r ∧ (∀ n ∈ Node.descendantsAll r.nodes, n.Bounded t) ∧
      (r.diagnostics.filter Diagnostic.isUnterminated).Perm
        ((Node.descendantsAll r.nodes).filterMap (Node.unterminatedReport? t)) := by
  have hdocument := Template.document_chronicled (chronicle_bounded options.transition t) options t
  have heof : Bounding options.transition t (Template.document options t).2
      [.marker .endOfFile (.empty (Template.document options t).2.pos)] (Template.document options t).2 :=
    Bounding.openLeaf (by decide) (.of_moved (.refl _) rfl)
  obtain ⟨-, hbounded, reports, hreports, hperm⟩ :=
    (hdocument.trans heof) (Context.over_atDocument options t)
  refine ⟨_, parse_eq_document t h, hbounded, ?_⟩
  have hall : (Template.document options t).2.diagnostics = reports := hreports
  rwa [hall]

/-- Regions without code, the last of which the end of the source cuts off. -/
def cutOffRegions : Text :=
  "<!--a--->@b<![CDATA[]]]><!x><style></styles></STYLE ><script>@\x7b<style>@c</style".toList

theorem parse_bounds_cut_off :
    ({ maxNestingDepth := 1 } : ParseOptions).language ∈ Registry.standard.languages ∧
      ∃ r, Template.parse { maxNestingDepth := 1 } cutOffRegions = .ok r ∧
        (∀ n ∈ Node.descendantsAll r.nodes, n.Bounded cutOffRegions) ∧
        (r.diagnostics.filter Diagnostic.isUnterminated).Perm
          ((Node.descendantsAll r.nodes).filterMap (Node.unterminatedReport? cutOffRegions)) :=
  ⟨by decide, parse_bounds _ _ (by decide)⟩

end Stencil
