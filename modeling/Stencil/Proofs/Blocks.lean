import Stencil.Proofs.Limit
import Stencil.Proofs.Matching
import Stencil.Proofs.Restoration

/-!
# Where a code block ends

The body of a code block is read in one of two ways. Above the nesting limit it is read brace by
brace, in stretches of code between them; past the limit it is read flat, in one scan that counts
the braces. As long as no element starts in the code, the two ways cannot be told apart by where
they end and by what they report as cut off.

`Context.Takes c e d`: from `c` to `d` the cursor has moved on over the extent `e`, and what the end of
the template cuts off there has been reported.

* `Level.blind_ofRoom`: **what is read does not depend on the depth and the limit** that the context
  names, nor on what has been reported.
* `Parse.codeBody_encloses`: **a body is read up to the brace that matches, if the bodies in it are.** Where an
  element can start, nothing is said about the end, but the element is in the tree.
* `block_matches`: **a code block without elements ends at the matching brace,** whatever the
  depth and the limit.
-/

namespace Stencil

/-! ## What is not looked at -/

namespace Context

/-- The contexts differ at most in the depth, in the nesting limit and in what was reported. -/
def Retuned (c d : Context) : Prop :=
  ∃ u, d = c.retuned u

variable {c d : Context}

theorem retuned_reportTooDeep (c : Context) : c.reportTooDeep = c.retuned c.reportTooDeep.tuning := by
  unfold reportTooDeep
  split
  · rfl
  · rfl

theorem Retuned.tuned : Parse.Tuned Retuned where
  retuned h := h
  change hk c d h := by
    obtain ⟨u, rfl⟩ := h
    exact ⟨u, hk c u⟩
  report h x := by
    obtain ⟨u, rfl⟩ := h
    exact ⟨{ u with diagnostics := u.diagnostics ++ [x] }, rfl⟩
  tooDeep {c d} h := by
    obtain ⟨u, rfl⟩ := h
    refine ⟨(c.retuned u).reportTooDeep.tuning, ?_⟩
    rw [retuned_reportTooDeep (c.retuned u), retuned_reportTooDeep c]
    rfl

end Context

namespace Level

/-- Each parser of the level does the same in related contexts. -/
structure Blind (R : Context → Context → Prop) (l : Level) : Prop where
  code : ∀ c d, R c d → Parse.Alike R l.code l.code c d
  element : ∀ c d, R c d → Parse.Alike R l.element l.element c d
  body : ∀ c d, R c d → Parse.Alike R l.body l.body c d

/-- **No level looks at the depth, at the limit or at the reports.** -/
theorem blind_ofRoom {R : Context → Context → Prop} (hR : Parse.Tuned R) (room : ℕ) :
    (ofRoom room).Blind R := by
  have hF := hR.congruence
  induction room with
  | zero =>
    have hbody := fun c => hF.flatBody (c := c) fun hf _ _ => hR.reportTooDeep_bind hf
    have hcode := fun c => hF.embedded (c := c) hbody
    exact ⟨hcode, fun c => hF.flatElement (fun hf _ _ => hR.reportTooDeep_bind hf) hcode, hbody⟩
  | succ room ih =>
    have helement := fun c => hF.nestedElement (c := c) ih.code ih.element
    exact ⟨fun c => hF.embedded ih.body, helement, fun c => hF.codeBody ih.body helement⟩

end Level

/-! ## Taking an extent -/

/-- Whether the diagnostic reports something that the end of the template cuts off. -/
def Diagnostic.isCutOff (x : Diagnostic) : Bool :=
  x.code == .unexpectedEndOfInput

namespace Context

/-- The reports of what the end of the template cuts off. -/
def cutOffs (c : Context) : List Diagnostic :=
  c.diagnostics.filter Diagnostic.isCutOff

/-- The reports of unclosed parts at the end of the template. -/
def atStop (c : Context) (us : List Unclosed) : List Diagnostic :=
  us.map fun u => (Problem.unexpectedEnd u).located (.empty (c.pos.after c.rest))

/-- From `c` to `d` the cursor has moved on over the extent, and what is unclosed in it has been
reported at the end of the template. -/
structure Takes (c : Context) (e : Code.Extent) (d : Context) : Prop where
  moved : c.Moved (c.rest.take e.length) d
  cutOffs : d.cutOffs = c.cutOffs ++ c.atStop e.unclosed

variable {c d g : Context} {e f : Code.Extent}

theorem Takes.rest (h : c.Takes e d) : d.rest = c.rest.drop e.length := by
  have hrest := h.moved.rest
  nth_rewrite 1 [← List.take_append_drop e.length c.rest] at hrest
  exact (List.append_cancel_left hrest).symm

/-- Seen from further on, the end of the template is the same. -/
theorem Takes.atStop (h : c.Takes e d) (us : List Unclosed) : d.atStop us = c.atStop us := by
  have hend : d.pos.after d.rest = c.pos.after c.rest := by
    rw [h.moved.pos, ← Position.after_append, ← h.moved.rest]
  unfold Context.atStop
  rw [hend]

theorem Takes.trans (h : c.Takes e d) (h' : d.Takes f g) : c.Takes (e.append f) g where
  moved := by
    have hmoved := h.moved.trans h'.moved
    rwa [h.rest, ← List.take_add] at hmoved
  cutOffs := by
    rw [h'.cutOffs, h.cutOffs, h.atStop, List.append_assoc]
    simp only [Context.atStop, Code.Extent.append, List.map_append]

/-- A step that stays where it is and reports nothing as cut off. -/
theorem Takes.of_stay (h : c.Moved [] d) (hsame : d.cutOffs = c.cutOffs) : c.Takes ⟨0, []⟩ d where
  moved := h
  cutOffs := by rw [hsame]; simp [Context.atStop]

theorem cutOffs_report {x : Diagnostic} (h : x.isCutOff = false) (c : Context) :
    (c.report x).cutOffs = c.cutOffs := by
  simp [cutOffs, report, h]

theorem takes_reportTooDeep (c : Context) : c.Takes ⟨0, []⟩ c.reportTooDeep := by
  refine .of_stay (moved_reportTooDeep c) ?_
  unfold reportTooDeep
  split
  · rfl
  · exact cutOffs_report (by simp [Diagnostic.isCutOff, Problem.located, Problem.code]) c

/-- A body has been read up to the brace that matches, or up to the end of the template. In that
case, and only then, the closing brace is missing. -/
structure Encloses (c : Context) (ns : List Node) (d : Context) : Prop where
  takes : c.Takes (Code.enclosed 0 c.rest) d
  closing : ∃ parts n, ns = parts ++ [n] ∧ n.kind = .brace ∧
    (n.isMissing = true ↔ Code.matching? .code 0 c.rest = none)

theorem Encloses.cons {ns : List Node} (h : c.Encloses ns d) (n : Node) : c.Encloses (n :: ns) d := by
  obtain ⟨htakes, parts, closing, rfl, hclosing⟩ := h
  exact ⟨htakes, n :: parts, closing, rfl, hclosing⟩

end Context

namespace Parse

open Context

variable {c : Context} {body : Parse (List Node)} {element : Parse Node}

/-! ## Single steps -/

theorem token_takes (k : Kind) (n : ℕ) : Ends (token k n) c fun _ d => c.Takes ⟨n, []⟩ d := by
  refine ⟨c.moved_read n, ?_⟩
  show c.cutOffs = c.cutOffs ++ []
  rw [List.append_nil]

/-- The reports of unclosed parts, where they are made at the end of the template. -/
theorem reportUnclosed_takes (us : List Unclosed) (h : us ≠ [] → c.rest = []) :
    Ends (us.forM fun u => reportHere (.unexpectedEnd u)) c fun _ d => c.Takes ⟨0, us⟩ d := by
  induction us generalizing c with
  | nil => exact .of_stay (.refl c) rfl
  | cons u us ih =>
    have hrest := h (List.cons_ne_nil u us)
    let d := c.report ((Problem.unexpectedEnd u).located (.empty c.pos))
    have hone : c.Takes ⟨0, [u]⟩ d := by
      refine ⟨moved_report c _, ?_⟩
      rw [Context.atStop, hrest]
      simp [d, Context.cutOffs, Context.report, Diagnostic.isCutOff, Problem.located, Problem.code]
    exact (ih (c := d) fun _ => hrest).imp fun _ e he => hone.trans he

/-- **A piece of code is taken**, if only the end of the template cuts something off. -/
theorem code_takes {e : Code.Extent} (h : e.unclosed ≠ [] → e.length = c.rest.length) :
    Ends (Parse.code e) c fun _ d => c.Takes e d := by
  refine Ends.bind (token_takes .codeValue e.length) fun n d hd => ?_
  have hend : e.unclosed ≠ [] → d.rest = [] := by
    intro hne
    rw [hd.rest, h hne, List.drop_length]
  refine Ends.bind (reportUnclosed_takes e.unclosed hend) fun _ f hf => ?_
  exact hd.trans hf

/-- The brace that closes a body, where it stands and where it does not. -/
theorem expect_takes : Ends (expect .brace (.brace '}')) c fun n d => n.kind = .brace ∧
    (c.rest.head? = some '}' ∧ n.isMissing = false ∧ c.Takes ⟨1, []⟩ d ∨
      c.rest.head? ≠ some '}' ∧ n.isMissing = true ∧ c.Takes ⟨0, []⟩ d) := by
  refine Ends.get_bind ?_
  have hhead : c.rest.startsWith (Wanted.brace '}').text = true ↔ c.rest.head? = some '}' := by
    rw [Text.startsWith_iff (by decide), List.head?_eq_some_iff]
    constructor
    · rintro ⟨u, hu⟩
      exact ⟨u, hu.symm⟩
    · rintro ⟨u, hu⟩
      exact ⟨u, hu.symm⟩
  split
  case isTrue h => exact ⟨rfl, .inl ⟨hhead.1 h, rfl, token_takes .brace 1⟩⟩
  case isFalse h =>
    have hstay : c.Takes ⟨0, []⟩ (c.report ((Problem.expected (.brace '}') c.rest.head?).located (.empty c.pos))) :=
      .of_stay (moved_report c _) (cutOffs_report rfl c)
    exact ⟨rfl, .inr ⟨fun hc => h (hhead.2 hc), rfl, hstay⟩⟩

/-- A body that was taken up to its end is closed there. -/
theorem expect_encloses {d : Context} (h : c.Takes (Code.flatBody 0 c.rest) d) (parts : List Node) :
    Ends (expect .brace (.brace '}')) d fun n e => c.Encloses (parts ++ [n]) e := by
  refine expect_takes.imp ?_
  rintro n e ⟨hkind, hcases⟩
  have hstops := Code.flatBody_stops 0 c.rest
  rw [← h.rest] at hstops
  have hlength : d.rest.length = c.rest.length - (Code.flatBody 0 c.rest).length := by
    rw [h.rest, List.length_drop]
  rcases hcases with ⟨hhead, hmissing, htakes⟩ | ⟨hhead, hmissing, htakes⟩
  · -- the brace is there
    obtain ⟨u, hu⟩ := List.head?_eq_some_iff.1 hhead
    rw [hu, List.length_cons] at hlength
    have hless : (Code.flatBody 0 c.rest).length < c.rest.length := by omega
    obtain ⟨-, hsome⟩ | ⟨hall, -⟩ := Code.matching?_cases c.rest
    · refine ⟨?_, parts, n, rfl, hkind, by simp [hmissing, hsome]⟩
      rw [Code.enclosed, if_pos hless]
      exact h.trans htakes
    · omega
  · -- the template has ended
    have hnil : d.rest = [] := by
      rcases hstops with hnil | hclose
      · exact hnil
      · exact absurd hclose hhead
    rw [hnil, List.length_nil] at hlength
    have hless : ¬ (Code.flatBody 0 c.rest).length < c.rest.length := by omega
    obtain ⟨hlt, -⟩ | ⟨-, hnone⟩ := Code.matching?_cases c.rest
    · exact absurd hlt hless
    · refine ⟨?_, parts, n, rfl, hkind, by simp [hmissing, hnone]⟩
      rw [Code.enclosed, if_neg hless]
      simpa [Code.Extent.append] using h.trans htakes

/-- **A body that is read flat.** -/
theorem flatBody_encloses : Ends flatBody c fun ns d => c.Encloses ns d := by
  have hdeep := takes_reportTooDeep c
  have hrest : c.reportTooDeep.rest = c.rest := hdeep.rest
  have hcode : Ends (Parse.code (Code.flatBody 0 c.rest)) c.reportTooDeep fun _ d =>
      c.Takes (Code.flatBody 0 c.rest) d := by
    refine (code_takes ?_).imp fun _ d hd => ?_
    · rw [hrest]
      exact Code.length_of_unclosed_flatBody
    · simpa [Code.Extent.empty_append] using hdeep.trans hd
  refine Ends.modify_bind (Ends.get_bind ?_)
  rw [hrest]
  refine Ends.bind hcode fun value d hd => ?_
  have hclosed := fun parts => expect_encloses hd parts
  unfold Ends at hclosed ⊢
  show c.Encloses (if _ then _ else _) _
  split
  · exact hclosed []
  · exact hclosed [value]

/-! ## Bodies -/

/-- What holds of some nodes holds of all that have these nodes in them. -/
def Spreads (Q : List Node → Prop) : Prop :=
  ∀ ns ms, Node.descendantsAll ns ⊆ Node.descendantsAll ms → Q ns → Q ms

/-- A body in which no element can start is read up to the brace that matches. Otherwise its nodes
fulfil `Q`. -/
def ReadsBody (Q : List Node → Prop) (body : Parse (List Node)) : Prop :=
  ∀ c, Ends body c fun ns d => (Code.isMarkupFree none 0 c.rest = true → c.Encloses ns d) ∧
    (Code.isMarkupFree none 0 c.rest = false → Q ns)

/-- From `c` to `d` one part of a flat body has been taken: what is left is the rest of it, and an element can
start there if one could start before. -/
structure TakesPart (c : Context) (last next : Option Char) (d : Context) : Prop where
  length : d.rest.length < c.rest.length
  takes : ∃ e, c.Takes e d ∧ Code.flatBody 0 c.rest = e.append (Code.flatBody 0 d.rest)
  markup : Code.isMarkupFree last 0 c.rest = Code.isMarkupFree next 0 d.rest

theorem TakesPart.of_takes {d : Context} {e : Code.Extent} {last next : Option Char} (hc : c.rest ≠ [])
    (hpos : 0 < e.length) (htakes : c.Takes e d)
    (hbody : Code.flatBody 0 c.rest = e.append (Code.flatBody 0 (c.rest.drop e.length)))
    (hmarkup : Code.isMarkupFree last 0 c.rest = Code.isMarkupFree next 0 (c.rest.drop e.length)) :
    TakesPart c last next d := by
  rw [← htakes.rest] at hbody hmarkup
  refine ⟨?_, ⟨e, htakes, hbody⟩, hmarkup⟩
  have := List.length_pos_iff.2 hc
  rw [htakes.rest, List.length_drop]
  omega

/-- What one turn of a body leaves. It is the last one where the body ends; otherwise an element is in
its node, or it has taken a part of the flat body. -/
def Turned (Q : List Node → Prop) (last : Option Char) (c : Context) :
    Option (Node × Option Char) → Context → Prop
  | none, d => d = c ∧ (c.rest = [] ∨ c.rest.head? = some '}')
  | some (n, next), d => Code.isMarkupFree last 0 c.rest = false ∧ Q [n] ∨ TakesPart c last next d

section Bodies

variable {Q : List Node → Prop} (hQ : Spreads Q) (hbody : ReadsBody Q body)
  (helement : ∀ c, Ends element c fun n _ => Q [n])

include hQ hbody

/-- A pair of braces in a body. -/
theorem brace_takes {t : Text} (hrest : c.rest = '{' :: t) (last : Option Char) :
    Ends (do return some (.ofChildren .codeBrace ((← token .brace 1) :: (← body)), some '}')) c
      (Turned Q last c) := by
  refine Ends.bind (token_takes .brace 1) fun opening d hd => ?_
  have hdrest : d.rest = t := by rw [hd.rest, hrest]; rfl
  have hinner := hbody d
  rw [hdrest] at hinner
  refine Ends.bind hinner ?_
  rintro ns e ⟨hfree, hmarked⟩
  -- whether the rest is free of markup is asked inside the braces first, and then behind them
  have hopen : Code.isMarkupFree last 0 c.rest = (Code.isMarkupFree none 0 t &&
      Code.isMarkupFree (some '}') 0 (t.drop (Code.enclosed 0 t).length)) := by
    rw [hrest, Code.isMarkupFree_open, Code.isMarkupFree_succ]
  cases hcase : Code.isMarkupFree none 0 t with
  | false =>
    left
    refine ⟨by rw [hopen, hcase, Bool.false_and], hQ ns _ ?_ (hmarked hcase)⟩
    rw [Node.descendantsAll_singleton, Node.descendants_ofChildren, Node.descendantsAll]
    exact fun x hx => List.mem_cons_of_mem _ (List.mem_append_right _ hx)
  | true =>
    have htakes := (hfree hcase).takes
    rw [hdrest] at htakes
    have hdrop : c.rest.drop (Code.Extent.append ⟨1, []⟩ (Code.enclosed 0 t)).length =
        t.drop (Code.enclosed 0 t).length := by
      rw [hrest, Code.Extent.append, Nat.add_comm, List.drop_succ_cons]
    have hpos : 0 < (Code.Extent.append ⟨1, []⟩ (Code.enclosed 0 t)).length :=
      Nat.lt_of_lt_of_le Nat.one_pos (Nat.le_add_right 1 _)
    right
    refine .of_takes (by simp [hrest]) hpos (hd.trans htakes) ?_ ?_
    · rw [hdrop, hrest, Code.flatBody_open, Code.flatBody_succ, Code.Extent.after_eq_append,
        Code.Extent.append_assoc]
    · rw [hdrop, hopen, hcase, Bool.true_and]

include helement

/-- **One part of a body.** Either an element is in it, or it is a part of the flat body. -/
theorem bodyPart_takes (last : Option Char) : Ends (bodyPart body element last) c (Turned Q last c) := by
  refine Ends.get_bind ?_
  split
  case isTrue hend =>
    refine ⟨rfl, ?_⟩
    cases hrest : c.rest with
    | nil => exact .inl rfl
    | cons x t => simpa [Context.atEnd, Context.current, Context.peekAt, Text.ahead, hrest] using hend
  case isFalse hend =>
  simp only [Bool.or_eq_true, decide_eq_true_eq, not_or] at hend
  have hne := rest_ne_nil_of_not_atEnd hend.1
  split
  case isTrue hopen =>
    obtain ⟨x, t, hrest⟩ := List.exists_cons_of_ne_nil hne
    obtain rfl : x = '{' := by simpa [Context.current, Context.peekAt, Text.ahead, hrest] using hopen
    exact brace_takes hQ hbody hrest last
  case isFalse hopen =>
  split
  case isTrue hmarkup =>
    refine Ends.bind (helement c) fun n d hn => ?_
    exact Or.inl ⟨Code.isMarkupFree_markup 0 hmarkup, hn⟩
  case isFalse hmarkup =>
    refine Ends.bind (code_takes Code.length_of_unclosed_value) fun n d hd => ?_
    have hpos := value_pos_of_current hne hopen hend.2 hmarkup
    right
    exact .of_takes hne hpos hd (Code.flatBody_value 0 last c.rest) (Code.isMarkupFree_value 0 last c.rest)

/-- **The parts of a body are the flat body, turn by turn**, if no element can start in it. -/
theorem bodyParts_take (last : Option Char) (c : Context) : Ends (many (bodyPart body element) last) c fun r d =>
    (Code.isMarkupFree last 0 c.rest = true → c.Takes (Code.flatBody 0 c.rest) d) ∧
      (Code.isMarkupFree last 0 c.rest = false → Q r.1) := by
  -- one turn after the other: an element stays in the tree, and parts of the flat body add up to it
  induction last, c using Parse.many.induct (bodyPart body element) with
  | case1 last c d hturn =>
    have hmany : many (bodyPart body element) last c = (([], last), d) := by rw [many, hturn]
    obtain ⟨rfl, hstop⟩ := (bodyPart_takes hQ hbody helement last).of_eq hturn
    have hempty : Code.flatBody 0 d.rest = ⟨0, []⟩ := by
      rcases hstop with hnil | hclose
      · rw [hnil, Code.flatBody_nil]
      · obtain ⟨t, ht⟩ := List.head?_eq_some_iff.1 hclose
        rw [ht, Code.flatBody_stop]
    unfold Ends
    rw [hmany, hempty, Code.isMarkupFree_stop last hstop]
    exact ⟨fun _ => .of_stay (.refl d) rfl, by simp⟩
  | case2 last c n next d hturn hlt rest final e hrest ih =>
    have hmany : many (bodyPart body element) last c = ((n :: rest, final), e) := by
      rw [many, hturn]; simp only [dif_pos hlt, hrest]
    unfold Ends at ih ⊢
    rw [hrest] at ih
    rw [hmany]
    rcases (bodyPart_takes hQ hbody helement last).of_eq hturn with ⟨hmarkup, hn⟩ | hpart
    · refine ⟨by simp [hmarkup], fun _ => hQ [n] _ ?_ hn⟩
      rw [Node.descendantsAll_singleton, Node.descendantsAll]
      exact List.subset_append_left _ _
    · obtain ⟨e', htakes, hbodies⟩ := hpart.takes
      rw [hpart.markup, hbodies]
      refine ⟨fun hfree => htakes.trans (ih.1 hfree), fun hmarked => hQ rest _ ?_ (ih.2 hmarked)⟩
      exact List.subset_append_right _ _
  | case3 last c n next d hturn hlt =>
    have hmany : many (bodyPart body element) last c = (([n], next), d) := by
      rw [many, hturn]; simp only [dif_neg hlt]
    rcases (bodyPart_takes hQ hbody helement last).of_eq hturn with ⟨hmarkup, hn⟩ | hpart
    · unfold Ends
      rw [hmany]
      exact ⟨by simp [hmarkup], fun _ => hn⟩
    · exact absurd hpart.length hlt

/-- **A body is read up to the brace that matches, if the bodies in it are.** -/
theorem codeBody_encloses : ReadsBody Q (codeBody body element) := by
  intro c
  refine Ends.bind (bodyParts_take hQ hbody helement none c) ?_
  rintro ⟨parts, last⟩ d ⟨hfree, hmarked⟩
  cases hcase : Code.isMarkupFree none 0 c.rest with
  | true =>
    refine Ends.bind (expect_encloses (hfree hcase) parts) fun closing e he => ?_
    exact ⟨fun _ => he, by simp⟩
  | false =>
    refine Ends.bind (Q := fun _ _ => True) trivial fun closing e _ => ⟨by simp, fun _ => ?_⟩
    refine hQ parts (parts ++ [closing]) ?_ (hmarked hcase)
    rw [Node.descendantsAll_append]
    exact List.subset_append_left _ _

end Bodies

/-- What is nested gives an element, whatever stands in it. -/
theorem nestedElement_isElement (code element : Parse Node) (c : Context) :
    Ends (nestedElement code element) c fun n _ => n.kind.isElement = true := by
  refine Ends.bind (Q := fun _ _ => True) trivial fun o d _ => ?_
  split
  · exact o.isElement_kind
  · dsimp only
    split
    · refine Ends.bind (Q := fun _ _ => True) trivial fun rest e _ => ?_
      exact o.isElement_kind
    · refine Ends.bind (Q := fun _ _ => True) trivial fun rest e _ => ?_
      exact o.isElement_kind

/-- A body that is read flat, with an element before it to tell that it was. -/
def markedBody : Parse (List Node) := do
  return .ofChildren .htmlTag [] :: (← flatBody)

end Parse

/-! ## Levels -/

/-- Whether some element stands among the nodes or below them. -/
def Node.HasElement (ns : List Node) : Prop :=
  ∃ x ∈ descendantsAll ns, x.kind.isElement = true

theorem Node.spreads_hasElement : Parse.Spreads HasElement := by
  rintro ns ms hsub ⟨x, hx, helement⟩
  exact ⟨x, hsub hx, helement⟩

namespace Level

/-- The ground level, where what is read flat has an element in it. -/
def marking : Level where
  code := Parse.embedded Parse.markedBody
  element := ground.element
  body := Parse.markedBody

theorem markedBody_encloses : Parse.ReadsBody Node.HasElement Parse.markedBody := by
  intro c
  refine Parse.Ends.bind Parse.flatBody_encloses fun ns d hns => ⟨fun _ => hns.cons _, fun _ => ?_⟩
  exact ⟨.ofChildren .htmlTag [], List.mem_cons_self, rfl⟩

variable {Q : List Node → Prop} {base : Level}

/-- **Every level reads bodies up to the brace that matches, if the ground does.** -/
theorem stacked_encloses (hQ : Parse.Spreads Q) (hbase : Parse.ReadsBody Q base.body)
    (helement : ∀ n : Node, n.kind.isElement = true → Q [n]) (room : ℕ) :
    Parse.ReadsBody Q (stacked base room).body := by
  induction room with
  | zero => exact hbase
  | succ room ih =>
    refine Parse.codeBody_encloses hQ ih fun c => ?_
    exact (Parse.nestedElement_isElement _ _ c).imp fun n _ hn => helement n hn

/-- What a transition introduces is read with the body of some level. -/
theorem stacked_code {P : Parse (List Node) → Prop} (hcode : base.code = Parse.embedded base.body)
    (hbody : ∀ room, P (stacked base room).body) (room : ℕ) :
    ∃ body, (stacked base room).code = Parse.embedded body ∧ P body := by
  cases room with
  | zero => exact ⟨base.body, hcode, hbody 0⟩
  | succ room => exact ⟨(stacked base room).body, rfl, hbody room⟩

theorem marking_code (room : ℕ) : ∃ body,
    (stacked marking room).code = Parse.embedded body ∧ Parse.ReadsBody Node.HasElement body := by
  refine stacked_code rfl (stacked_encloses Node.spreads_hasElement markedBody_encloses fun n hn => ?_) room
  refine ⟨n, ?_, hn⟩
  rw [Node.descendantsAll_singleton, Node.descendants_eq_cons]
  exact List.mem_cons_self

theorem ofRoom_code (room : ℕ) : ∃ body, (ofRoom room).code = Parse.embedded body ∧
    Parse.ReadsBody (fun _ => True) body ∧ Parse.TracesBody body := by
  have hground : Parse.ReadsBody (fun _ => True) ground.body :=
    fun c => Parse.flatBody_encloses.imp fun _ _ h => ⟨fun _ => h, fun _ => trivial⟩
  rw [← stacked_ground]
  refine stacked_code rfl (fun room => ⟨?_, ?_⟩) room
  · exact stacked_encloses (fun _ _ _ _ => trivial) hground (fun _ _ => trivial) room
  · rw [stacked_ground]
    exact (traced_ofRoom room).body

end Level

/-! ## Code blocks -/

namespace Parse

open Context

variable {c : Context} {t : Text} {Q : List Node → Prop} {body : Parse (List Node)}

theorem embedded_eq_codeBlock (hrest : c.rest = c.transition :: '{' :: t) (htransition : c.transition ≠ '{') :
    embedded body c = codeBlock body c := by
  have hpeek : c.peek = '{' := by rw [Context.peek, Context.peekAt, hrest]; rfl
  show (if c.peek = c.transition then _ else _ : Parse Node) c = _
  rw [if_neg (by rw [hpeek]; exact fun h => htransition h.symm), if_pos hpeek]

/-- **A block**, with its transition, its brace and its body. -/
theorem codeBlock_encloses (hbody : ReadsBody Q body) {x : Char} (hrest : c.rest = x :: '{' :: t) :
    Ends (codeBlock body) c fun n d => ∃ marker opening ns, n = .ofChildren .codeBlock (marker :: opening :: ns) ∧
      (Code.isMarkupFree none 0 t = true → c.Takes (.append ⟨2, []⟩ (Code.enclosed 0 t)) d ∧
        ∃ parts closing, ns = parts ++ [closing] ∧ closing.kind = .brace ∧
          (closing.isMissing = true ↔ Code.matching? .code 0 t = none)) ∧
      (Code.isMarkupFree none 0 t = false → Q ns) := by
  have hmarker : Ends transitionMarker c fun _ d => c.Takes ⟨1, []⟩ d := token_takes .transition 1
  refine Ends.bind hmarker fun marker d hd => ?_
  refine Ends.bind (token_takes .brace 1) fun opening e he => ?_
  have htwo := hd.trans he
  have herest : e.rest = t := by rw [htwo.rest, hrest]; rfl
  have hinner := hbody e
  rw [herest] at hinner
  refine Ends.bind hinner ?_
  rintro ns f ⟨hfree, hmarked⟩
  refine ⟨marker, opening, ns, rfl, fun h => ?_, hmarked⟩
  obtain ⟨htakes, hclosing⟩ := hfree h
  rw [herest] at htakes hclosing
  exact ⟨htwo.trans htakes, hclosing⟩

/-- A block covers the text that it was read from, if its body does. -/
theorem codeBlock_reads (hbody : TracesBody body) : Ends (codeBlock body) c fun n d => c.Reads n.pieces d := by
  have hmarker : Ends transitionMarker c fun n d => c.Reads n.pieces d := .single (c.read_location 1) (c.moved_read 1)
  refine Ends.bind hmarker fun marker d hd => Ends.bind (token_reads .brace 1) fun opening e he => ?_
  refine Ends.bind (hbody e) fun ns f hns => Ends.pure ?_
  simpa using hd.trans (he.trans hns.1.reads)

/-- What a transition at the cursor introduces, with as many levels as the context has room for. -/
def introduced : Parse Node := fun c => (Level.ofRoom c.room).code c

end Parse

namespace Context

/-- The context at another depth and under another limit. -/
def atNesting (n m : ℕ) (c : Context) : Context :=
  { c with depth := n, maxDepth := m }

/-- What the transition at the cursor introduces does not meet the nesting limit: it would not be
reported, had it not been reported before. -/
def LimitUnmet (c : Context) : Prop :=
  (Parse.introduced { c with depthReported := false }).2.depthReported = false

variable {c : Context} {t : Text}

/-- **Where the limit is not met, an element that can start is in the tree.** -/
theorem isMarkupFree_of_unmet (hrest : c.rest = c.transition :: '{' :: t) (htransition : c.transition ≠ '{')
    (hunmet : c.LimitUnmet) (hplain : ∀ x ∈ (Parse.introduced c).1.descendants, x.kind.isElement = false) :
    Code.isMarkupFree none 0 t = true := by
  let d : Context := { c with depthReported := false }
  -- the report of an earlier limit has no part in what is read
  have hsame : (Parse.introduced c).1 = (Parse.introduced d).1 :=
    ((Level.blind_ofRoom Retuned.tuned c.room).code c d ⟨d.tuning, rfl⟩).1
  -- nor has the ground, which may as well mark what it reads
  have hfollows := (@Level.follows_stacked .marking _ rfl c.maxDepth c.room).code d |>.agrees hunmet
  obtain ⟨body, hcode, hbody⟩ := Level.marking_code c.room
  have hnode := congrArg Prod.fst hfollows
  have hrun : (Parse.codeBlock body d).1 = (Parse.introduced d).1 := by
    rw [← Parse.embedded_eq_codeBlock (c := d) hrest htransition, ← hcode]
    exact hnode
  obtain ⟨marker, opening, ns, hn, -, hmarked⟩ := Parse.codeBlock_encloses (c := d) hbody hrest
  rw [hrun] at hn
  by_contra hmarkup
  obtain ⟨x, hx, helement⟩ := hmarked (eq_false_of_ne_true hmarkup)
  have hmem : x ∈ (Parse.introduced c).1.descendants := by
    rw [hsame, hn, Node.descendants_ofChildren, Node.descendantsAll, Node.descendantsAll]
    exact List.mem_cons_of_mem _ (List.mem_append_right _ (List.mem_append_right _ hx))
  rw [hplain x hmem] at helement
  cases helement

end Context

open Context

variable {c : Context} {t : Text}

/-- **A block in which no element can start ends at the brace that matches.** -/
theorem introduced_matches (hrest : c.rest = c.transition :: '{' :: t) (htransition : c.transition ≠ '{')
    (hfree : Code.isMarkupFree none 0 t = true) :
    Parse.Ends Parse.introduced c fun block d => ∃ parts closing,
      block = .ofChildren .codeBlock (parts ++ [closing]) ∧
      block.source = c.rest.take (2 + (Code.matching? .code 0 t).getD t.length) ∧
      d.rest = c.rest.drop (2 + (Code.matching? .code 0 t).getD t.length) ∧
      closing.kind = .brace ∧ (closing.isMissing = true ↔ Code.matching? .code 0 t = none) ∧
      d.cutOffs = c.cutOffs ++ c.atStop (Code.cutOff t) := by
  obtain ⟨body, hcode, hbody, htraces⟩ := Level.ofRoom_code c.room
  have hrun : Parse.introduced c = Parse.codeBlock body c := by
    rw [← Parse.embedded_eq_codeBlock hrest htransition, ← hcode]
    rfl
  have hreads := Parse.codeBlock_reads (c := c) htraces
  unfold Parse.Ends at hreads ⊢
  rw [hrun]
  obtain ⟨marker, opening, ns, hblock, hencloses, -⟩ := Parse.codeBlock_encloses hbody hrest
  obtain ⟨htakes, parts, closing, rfl, hkind, hmissing⟩ := hencloses hfree
  have hlength : (Code.Extent.append ⟨2, []⟩ (Code.enclosed 0 t)).length =
      2 + (Code.matching? .code 0 t).getD t.length := by
    rw [Code.Extent.append, Code.length_enclosed]
  refine ⟨marker :: opening :: parts, closing, hblock, ?_, ?_, hkind, hmissing, ?_⟩
  · rw [hreads.source htakes.moved, hlength]
  · rw [htakes.rest, hlength]
  · rw [← Code.unclosed_enclosed]
    exact htakes.cutOffs

/-- The parsers that count the levels in the context do what those with so much room do. -/
theorem counting_introduced (c : Context) : (Level.counting c.room).code c = Parse.introduced c := by
  have hcounts : Parse.Counts c.maxDepth c.depth (Level.ofRoom c.room).code (Level.counting c.room).code :=
    (Level.counts_ofRoom le_rfl).1
  obtain ⟨hresult, hcontext⟩ := hcounts c c ⟨rfl, rfl⟩
  -- the depth is the same before and after
  have hkept := ((Level.blind_ofRoom (Deepened.tuned c.maxDepth c.depth) c.room).code c c ⟨rfl, rfl⟩).2
  exact Prod.ext hresult.symm (hcontext.eq.trans hkept.eq.symm)

/-- **A code block ends at its matching brace on every path.** Let a transition and a brace stand at
the cursor, and let the block be read at some depth, under some limit that is not met, with no
element in it. Then at every depth and under every limit a block is read. It covers the text up to
the brace that matches, or all of the text if there is none; its closing brace is missing exactly in
that case; and what is reported as cut off by the end of the template is the same. Parsers that
count the levels in the context do so too. -/
theorem block_matches {n m : ℕ} (hrest : c.rest = c.transition :: '{' :: t) (htransition : c.transition ≠ '{')
    (hunmet : (c.atNesting n m).LimitUnmet)
    (hplain : ∀ x ∈ (Parse.introduced (c.atNesting n m)).1.descendants, x.kind.isElement = false) (n' m' : ℕ) :
    (Level.counting (m' - n')).code (c.atNesting n' m') = Parse.introduced (c.atNesting n' m') ∧
      Parse.Ends Parse.introduced (c.atNesting n' m') fun block d => ∃ parts closing,
        block = .ofChildren .codeBlock (parts ++ [closing]) ∧
        block.source = c.rest.take (2 + (Code.matching? .code 0 t).getD t.length) ∧
        d.rest = c.rest.drop (2 + (Code.matching? .code 0 t).getD t.length) ∧
        closing.kind = .brace ∧ (closing.isMissing = true ↔ Code.matching? .code 0 t = none) ∧
        d.diagnostics.filter Diagnostic.isCutOff = c.diagnostics.filter Diagnostic.isCutOff ++
          (Code.cutOff t).map fun u => (Problem.unexpectedEnd u).located (.empty (c.pos.after c.rest)) := by
  refine ⟨counting_introduced (c.atNesting n' m'), ?_⟩
  have hfree := isMarkupFree_of_unmet (c := c.atNesting n m) hrest htransition hunmet hplain
  exact introduced_matches (c := c.atNesting n' m') hrest htransition hfree

theorem block_matches_cut_off :
    let c : Context := { rest := "@\x7ba\x7b'\x7d'\x7d/*\x7d".toList, transition := '@', maxDepth := 3 }
    c.LimitUnmet ∧ (∀ x ∈ (Parse.introduced c).1.descendants, x.kind.isElement = false) ∧
      Parse.Ends Parse.introduced (c.atNesting 2 1) fun block d => ∃ parts closing,
        block = .ofChildren .codeBlock (parts ++ [closing]) ∧ block.source = c.rest ∧ d.rest = [] ∧
        closing.isMissing = true ∧ d.diagnostics.filter Diagnostic.isCutOff =
          [(Problem.unexpectedEnd .blockComment).located (.empty (c.pos.after c.rest))] := by
  intro c
  have hunmet : (c.atNesting 0 3).LimitUnmet := by
    unfold LimitUnmet
    decide +kernel
  have hplain : ∀ x ∈ (Parse.introduced (c.atNesting 0 3)).1.descendants, x.kind.isElement = false := by
    decide +kernel
  obtain ⟨-, parts, closing, hblock, hsource, hrest, -, hmissing, hcutOffs⟩ :=
    block_matches (c := c) rfl (by decide) hunmet hplain 2 1
  exact ⟨hunmet, hplain, parts, closing, hblock, hsource, hrest, hmissing.2 (by decide), hcutOffs⟩

end Stencil
