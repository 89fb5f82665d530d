import Stencil.Proofs.Alike

/-!
# Relations that the grammar respects

The parsers of the grammar are put together from smaller ones in a few ways: one after the
other, by a look at the context, by a change of it, and in loops. A relation between parsers
that each of these ways respects holds between two parsers of the grammar as soon as it holds
between the parsers for embedded code and for elements that they are built from.

`F c p q` relates the parsers as they run from `c`. Tags and raw text are read with a look at
nothing but the text (`TagCongruence`), so `F` may speak of a second run in any twin context.
No parser below the levels looks at the depth, at the nesting limit or at what was reported
(`Congruence`), and so the second run may be in a context where these are different
(`Context.retuned`).

* `TagCongruence.opening`, `TagCongruence.rawTextContent`: tags and raw text.
* `tagCongruence_twins`: **start tags and raw text are the same in twin contexts.**
* `Congruence.embedded`, `Congruence.codeBody`: code.
* `Congruence.elementContent`, `Congruence.nestedElement`, `Congruence.document`: content.
* `Congruence.flatBody`, `Congruence.flatElement`: what is read flat, if the relation also respects
  the report of the limit.
* `Tuned.congruence`: **the grammar reads the same whatever the depth, the limit and the reports
  are**, if the parsers for code and for elements do.
-/

namespace Stencil

/-- The part of a context that no parser below the levels looks at. -/
structure Context.Tuning where
  depth : ℕ
  maxDepth : ℕ
  depthReported : Bool
  diagnostics : List Diagnostic

namespace Context

def tuning (c : Context) : Tuning :=
  ⟨c.depth, c.maxDepth, c.depthReported, c.diagnostics⟩

/-- The context with another depth, another nesting limit and other reports. -/
def retuned (c : Context) (u : Tuning) : Context :=
  { c with
    depth := u.depth
    maxDepth := u.maxDepth
    depthReported := u.depthReported
    diagnostics := u.diagnostics }

/-- What does the same under every tuning leaves the tuning alone. -/
theorem tuning_eq {h : Context → Context} (hh : ∀ c u, h (c.retuned u) = (h c).retuned u) (c : Context) :
    (h c).tuning = c.tuning := by
  have hc : h c = (h c).retuned c.tuning := hh c c.tuning
  rw [hc]
  rfl

end Context

namespace Parse

variable {α : Type}

/-- The ways in which tags are put together respect the relation. What is looked at in the
context must not depend on anything but the text. -/
structure TagCongruence (F : Context → ∀ ⦃α : Type⦄, Parse α → Parse α → Prop) : Prop where
  textual : ∀ {α : Type} {Q : α → Prop} {p : Parse α}, Textual Q p → ∀ {c}, F c p p
  bind : ∀ {α β : Type} {p q : Parse α} {f g : α → Parse β} {c : Context}, F c p q →
    (∀ a d, F d (f a) (g a)) → F c (p >>= f) (q >>= g)
  look : ∀ {β : Type} {f g : Context → Parse β}, (∀ c d : Context, g (c.placedIn d) = g c) →
    (∀ c, F c (f c) (g c)) → ∀ {c}, F c (get >>= f) (get >>= g)
  many : ∀ {σ : Type} {step step' : σ → Parse (Option (Node × σ))}, (∀ s c, F c (step s) (step' s)) →
    ∀ s {c}, F c (Parse.many step s) (Parse.many step' s)

/-- The other ways of the grammar respect the relation, too. What is looked at in the context
and what is changed there must not depend on the depth, the limit and the reports. -/
structure Congruence (F : Context → ∀ ⦃α : Type⦄, Parse α → Parse α → Prop) : Prop extends TagCongruence F where
  ask : ∀ {β : Type} {f g : Context → Parse β}, (∀ (c : Context) u, g (c.retuned u) = g c) →
    (∀ c, F c (f c) (g c)) → ∀ {c}, F c (get >>= f) (get >>= g)
  modify_bind : ∀ {β : Type} {h : Context → Context} {f g : Unit → Parse β},
    (∀ (c : Context) u, h (c.retuned u) = (h c).retuned u) →
    (∀ c, F c (f ()) (g ())) → ∀ {c}, F c (modify h >>= f) (modify h >>= g)

namespace TagCongruence

variable {F : Context → ∀ ⦃α : Type⦄, Parse α → Parse α → Prop} (hF : TagCongruence F) {c : Context}

include hF

theorem pure (a : α) : F c (pure a) (pure a) :=
  hF.textual (.pure (Q := fun _ => True) trivial)

omit hF in
/-- Both take the same branch, for they look at the same text. -/
theorem ite {P : Prop} [Decidable P] {p q p' q' : Parse α} (hp : P → F c p q) (hn : F c p' q') :
    F c (if P then p else p') (if P then q else q') := by
  split
  case isTrue h => exact hp h
  case isFalse => exact hn

theorem bind_some {p q : Parse α} (hp : F c p q) :
    F c (p >>= fun a => Pure.pure (some a)) (q >>= fun a => Pure.pure (some a)) :=
  hF.bind hp fun _ _ => hF.pure _

/-- Related steps, one after the other. -/
theorem forM {f g : α → Parse Unit} (hf : ∀ a c, F c (f a) (g a)) (as : List α) :
    F c (as.forM f) (as.forM g) := by
  induction as generalizing c with
  | nil => exact hF.pure _
  | cons a as ih => exact hF.bind (hf a c) fun _ _ => ih

/-- Related turns of a loop. -/
theorem manyNodes {step step' : Parse (Option Node)} (hstep : ∀ c, F c step step') :
    F c (Parse.manyNodes step) (Parse.manyNodes step') :=
  hF.bind (hF.many (fun _ c => hF.bind (hstep c) fun _ _ => hF.pure _) ()) fun _ _ => hF.pure _

/-- Tokens are related to themselves, and so are all that stand for them. -/
theorem token {k : Kind} (hk : k.isClosed = true) (n : ℕ) : F c (Parse.token k n) (Parse.token k n) :=
  hF.textual (token_textual hk n)

theorem absent {k : Kind} (hk : k.isClosed = true) (w : Wanted) : F c (Parse.absent k w) (Parse.absent k w) :=
  hF.textual (absent_textual hk w)

theorem expect {k : Kind} (hk : k.isClosed = true) (w : Wanted) : F c (Parse.expect k w) (Parse.expect k w) :=
  hF.textual (expect_textual hk w)

theorem blanks : F c Parse.blanks Parse.blanks :=
  hF.textual blanks_textual

section

variable {code code' : Parse Node} (hcode : ∀ c, c.atTransition = true → F c code code')

include hcode

/-- The content of a value: text, and code in it. -/
theorem valueContent (ends : Text → Bool) : F c (Parse.valueContent code ends) (Parse.valueContent code' ends) := by
  have hpart : ∀ c, F c (valuePart code ends) (valuePart code' ends) := fun c =>
    hF.look (fun _ _ => rfl) fun c =>
      ite (fun _ => hF.pure _) (ite (fun h => hF.bind_some (hcode c h)) (hF.bind_some (hF.token rfl _)))
  exact hF.bind (hF.manyNodes hpart) fun ns _ => hF.pure _

/-- A value with quotes or without. -/
theorem attributeValue : F c (Parse.attributeValue code) (Parse.attributeValue code') := by
  have hquoted : ∀ c, F c (quotedValue code) (quotedValue code') := fun c => by
    refine hF.look (fun _ _ => rfl) fun c => hF.bind (hF.token rfl _) fun opening _ => ?_
    refine hF.bind (hF.valueContent hcode _) fun content _ => hF.look (fun _ _ => rfl) fun d => ite (fun _ => ?_) ?_
    · refine hF.bind (hF.textual (reportHere_textual _)) fun _ _ => ?_
      exact hF.bind (hF.textual (missing_textual rfl)) fun closing _ => hF.pure _
    · exact hF.bind (hF.token rfl _) fun closing _ => hF.pure _
  refine hF.look (fun _ _ => rfl) fun c => ite (fun _ => hquoted c) (ite (fun _ => ?_) ?_)
  · exact hF.bind (hF.absent rfl _) fun n _ => hF.pure _
  · exact hF.bind (hF.valueContent hcode _) fun n _ => hF.pure _

/-- What follows the name of an attribute. -/
theorem attributeRest (named : Bool) : F c (Parse.attributeRest code named) (Parse.attributeRest code' named) := by
  refine hF.look (fun _ _ => rfl) fun c => ite (fun _ => ?_) (ite (fun _ => ite (fun _ => ?_) ?_) (hF.pure _))
  · refine hF.bind hF.blanks fun lead _ => hF.bind (hF.token rfl _) fun sign _ => ?_
    exact hF.bind hF.blanks fun trail _ => hF.bind (hF.attributeValue hcode) fun ns _ => hF.pure _
  · exact hF.bind (hF.absent rfl _) fun sign _ => hF.bind (hF.attributeValue hcode) fun ns _ => hF.pure _
  · exact hF.attributeValue hcode

/-- **Attributes.** -/
theorem attributes : F c (Parse.attributes code) (Parse.attributes code') := by
  have hnode : ∀ lead c, F c (attributeNode code lead) (attributeNode code' lead) := fun lead c =>
    hF.bind (hF.textual attributeName_textual) fun name _ =>
      hF.bind (hF.attributeRest hcode _) fun rest _ => hF.pure _
  have hpart : ∀ s c, F c (attributePart code s) (attributePart code' s) := by
    intro s c
    refine hF.look (fun _ _ => rfl) fun c => ite (fun _ => hF.pure _) (ite (fun h => ?_) ?_)
    · exact hF.bind (hcode c h) fun n _ => hF.bind hF.blanks fun lead _ => hF.pure _
    · refine hF.bind (hnode s.lead c) fun r _ => ?_
      refine hF.bind (hF.textual (checkName_textual s.seen r.2)) fun seen _ => ?_
      exact hF.bind hF.blanks fun lead _ => hF.pure _
  exact hF.bind hF.blanks fun lead _ => hF.bind (hF.many hpart _) fun r _ => hF.pure _

/-- **Start tags.** -/
theorem opening : F c (Parse.opening code) (Parse.opening code') := by
  refine hF.bind (hF.token rfl _) fun bracket _ => hF.bind (hF.textual tagName_textual) fun name _ => ?_
  refine hF.bind (hF.attributes hcode) fun r _ => hF.look (fun _ _ => rfl) fun c => ite (fun _ => ?_) ?_
  · exact hF.bind (hF.token rfl _) fun close _ => hF.pure _
  · exact hF.bind (hF.expect rfl _) fun close _ => hF.pure _

/-- **Raw text.** -/
theorem rawTextContent (name : Text) :
    F c (Parse.rawTextContent code name) (Parse.rawTextContent code' name) := by
  have hpart : ∀ c, F c (rawTextPart code name) (rawTextPart code' name) := fun c =>
    hF.look (fun _ _ => rfl) fun c => ite (fun _ => hF.pure _) (ite
      (fun h => hF.bind_some (hcode c (Bool.and_eq_true_iff.1 h).2)) (hF.bind_some (hF.token rfl _)))
  refine hF.bind (hF.manyNodes hpart) fun ns _ => hF.look (fun _ _ => rfl) fun c => ite (fun _ => ?_) ?_
  · exact hF.bind (hF.textual (reportHere_textual _)) fun _ _ => hF.pure _
  · exact hF.bind (hF.textual endTag_textual) fun tag _ => hF.pure _

end

end TagCongruence

/-- What is put together from textual steps is the same in twin contexts. -/
theorem tagCongruence_twins {R : Context → Context → Prop} (hR : Twins R) :
    TagCongruence fun c _ p q => ∀ d, R c d → Alike R p q c d where
  textual hp _ _ h := hp.alike hR h
  bind hp hf d h := (hp d h).bind fun a c' d' h' => hf a c' d' h'
  look hg hf c d h := by
    refine Alike.get_bind ?_
    rw [hR.same hg h]
    exact hf c d h
  many hstep s _ _ h := many_alike hR h hstep s

namespace Congruence

open TagCongruence (ite)

variable {F : Context → ∀ ⦃α : Type⦄, Parse α → Parse α → Prop} (hF : Congruence F) {c : Context}

include hF

/-! ## Embedded code -/

variable {code code' element element' : Parse Node} {body body' : Parse (List Node)}

/-- **Embedded code** is related if its bodies are. -/
theorem embedded (hbody : ∀ c, F c body body') : F c (Parse.embedded body) (Parse.embedded body') := by
  refine hF.look (fun _ _ => rfl) fun c => ite (fun _ => ?_) (ite (fun _ => ?_) (ite (fun _ => ?_) ?_))
  · exact hF.textual escapedTransition_textual
  · refine hF.bind (hF.textual transitionMarker_textual) fun marker _ => ?_
    exact hF.bind (hF.token rfl 1) fun opening _ => hF.bind (hbody _) fun ns _ => hF.pure _
  · exact hF.textual codeExpression_textual
  · exact hF.textual invalidTransition_textual

/-- **Bodies** are related if the bodies and elements in them are. -/
theorem codeBody (hbody : ∀ c, F c body body') (helement : ∀ c, F c element element') :
    F c (Parse.codeBody body element) (Parse.codeBody body' element') := by
  have hpart : ∀ last c, F c (bodyPart body element last) (bodyPart body' element' last) := by
    intro last c
    refine hF.look (fun _ _ => rfl) fun c =>
      ite (fun _ => hF.pure _) (ite (fun _ => ?_) (ite (fun _ => ?_) ?_))
    · exact hF.bind (hF.token rfl 1) fun opening _ => hF.bind (hbody _) fun ns _ => hF.pure _
    · exact hF.bind (helement c) fun n _ => hF.pure _
    · exact hF.bind (hF.textual (code_textual _)) fun n _ => hF.pure _
  exact hF.bind (hF.many hpart none) fun r _ => hF.bind (hF.expect rfl _) fun closing _ => hF.pure _

/-! ## Content -/

theorem reportMissingEnd (name : Text) (place : Option Location) :
    F c (Parse.reportMissingEnd name place) (Parse.reportMissingEnd name place) :=
  hF.look (fun _ _ => rfl) fun _ => hF.textual (report_textual _ _)

/-- Flattened elements are closed on both sides. -/
theorem closeFlattened (base : ℕ) : F c (Parse.closeFlattened base) (Parse.closeFlattened base) :=
  hF.ask (fun _ _ => rfl) fun _ => hF.modify_bind (fun _ _ => rfl) fun _ =>
    hF.forM (fun _ _ => hF.reportMissingEnd _ _) _

/-- Both find the same flattened element to close. -/
theorem flattenedEnd? (base : ℕ) : F c (Parse.flattenedEnd? base) (Parse.flattenedEnd? base) := by
  refine hF.ask (fun _ _ => rfl) fun c => ?_
  split
  · refine hF.bind (hF.closeFlattened _) fun _ _ => hF.modify_bind (fun _ _ => rfl) fun _ => ?_
    exact hF.bind_some (hF.textual endTag_textual)
  · exact hF.pure _

section

variable (hcode : ∀ c, F c code code') (helement : ∀ c, F c element element')

include hcode helement

/-- **Content** is related if the code and the elements in it are. -/
theorem content : F c (Parse.content code element) (Parse.content code' element') := by
  have horphan : ∀ c, F c orphanEnd orphanEnd := by
    intro c
    refine hF.bind (hF.textual endTag_textual) fun tag _ => hF.ask (fun _ _ => rfl) fun c => ite (fun _ => ?_) ?_
    · exact hF.bind (hF.textual (report_textual _ _)) fun _ _ => hF.pure _
    · split
      · exact hF.bind (hF.textual (report_textual _ _)) fun _ _ => hF.pure _
      · exact hF.bind (hF.textual (report_textual _ _)) fun _ _ => hF.pure _
  have hmarkup : ∀ c, F c (markup element) (markup element') := by
    intro c
    refine hF.look (fun _ _ => rfl) fun c => ite (fun _ => ?_) (ite (fun _ => ?_) (ite (fun _ => ?_)
      (ite (fun _ => horphan c) (helement c))))
    · exact hF.textual (region_textual (.inl rfl))
    · exact hF.textual (region_textual (.inr rfl))
    · exact hF.textual declaration_textual
  exact hF.look (fun _ _ => rfl) fun c =>
    ite (fun _ => hcode c) (ite (fun _ => hmarkup c) (hF.textual contentText_textual))

/-- **Documents.** -/
theorem document : F c (Parse.document code element) (Parse.document code' element') := by
  have hpart : ∀ base c, F c (documentPart code element base) (documentPart code' element' base) := by
    intro base c
    refine hF.look (fun _ _ => rfl) fun c => ite (fun _ => hF.pure _) (hF.bind (hF.flattenedEnd? base) fun r _ => ?_)
    cases r with
    | some tag => exact hF.pure _
    | none => exact hF.bind_some (hF.content hcode helement)
  refine hF.ask (fun _ _ => rfl) fun c => hF.bind (hF.manyNodes (hpart _)) fun ns _ => ?_
  exact hF.bind (hF.closeFlattened _) fun _ _ => hF.pure _

/-- **The content of an element**, which is open in the meantime on both sides. -/
theorem elementContent (name : Text) (place : Option Location) :
    F c (Parse.elementContent code element name place) (Parse.elementContent code' element' name place) := by
  have hpart : ∀ base c, F c (elementPart code element name base) (elementPart code' element' name base) := by
    intro base c
    refine hF.look (fun _ _ => rfl) fun c => ite (fun _ => hF.pure _) (hF.bind (hF.flattenedEnd? base) fun r _ => ?_)
    have hcontent : ∀ d, F d _ _ := fun d => hF.bind_some (hF.content (c := d) hcode helement)
    cases r with
    | some tag => exact hF.pure _
    | none =>
      refine hF.ask (fun _ _ => rfl) fun d => ?_
      split
      · exact ite (fun _ => hF.pure _) (hcontent d)
      · exact hcontent d
  have hend : ∀ c, F c (elementEnd name place) (elementEnd name place) := by
    intro c
    refine hF.look (fun _ _ => rfl) fun c => ite (fun _ => ?_) ?_
    · exact hF.bind (hF.textual endTag_textual) fun tag _ => hF.pure _
    · exact hF.bind (hF.reportMissingEnd _ _) fun _ _ => hF.pure _
  refine hF.modify_bind (fun _ _ => rfl) fun _ => hF.ask (fun _ _ => rfl) fun c => ?_
  refine hF.bind (hF.manyNodes (hpart _)) fun ns _ => hF.bind (hF.closeFlattened _) fun _ _ => ?_
  refine hF.bind (hend _) fun last _ => hF.modify_bind (fun _ _ => rfl) fun _ => ?_
  exact hF.pure _

/-- **Elements.** -/
theorem nestedElement : F c (Parse.nestedElement code element) (Parse.nestedElement code' element') := by
  refine hF.bind (hF.opening fun c _ => hcode c) fun o _ => ?_
  split
  · exact hF.pure _
  · refine ite (fun _ => ?_) ?_
    · exact hF.bind (hF.rawTextContent (fun c _ => hcode c) _) fun rest _ => hF.pure _
    · exact hF.bind (hF.elementContent hcode helement _ _) fun rest _ => hF.pure _

end

/-! ## What is read flat -/

section

variable (hdeep : ∀ {α : Type} {f g : Unit → Parse α}, (∀ c, F c (f ()) (g ())) →
  ∀ {c}, F c (modify Context.reportTooDeep >>= f) (modify Context.reportTooDeep >>= g))

include hdeep

/-- Bodies past the nesting limit. -/
theorem flatBody : F c Parse.flatBody Parse.flatBody := by
  refine hdeep fun _ => ?_
  refine hF.look (fun _ _ => rfl) fun c => hF.bind (hF.textual (code_textual _)) fun value _ => ?_
  exact hF.bind (hF.expect rfl _) fun closing _ => hF.pure _

/-- Elements past the nesting limit. -/
theorem flatElement (hcode : ∀ c, F c code code') : F c (Parse.flatElement code) (Parse.flatElement code') := by
  refine hdeep fun _ => ?_
  refine hF.bind (hF.opening fun c _ => hcode c) fun o _ => ?_
  split
  · exact hF.pure _
  · split
    · exact hF.bind (hF.rawTextContent (fun c _ => hcode c) _) fun rest _ => hF.pure _
    · refine hF.modify_bind (fun _ _ => rfl) fun _ => ?_
      exact hF.pure _

end

end Congruence

/-! ## Contexts with another tuning -/

/-- The contexts differ at most in their tuning, and it is kept so by every change that does not
look at it, and by every report. -/
structure Tuned (R : Context → Context → Prop) : Prop where
  retuned : ∀ {c d}, R c d → ∃ u, d = c.retuned u
  change : ∀ {h : Context → Context}, (∀ (c : Context) u, h (c.retuned u) = (h c).retuned u) →
    ∀ {c d}, R c d → R (h c) (h d)
  report : ∀ {c d}, R c d → ∀ x, R (c.report x) (d.report x)
  tooDeep : ∀ {c d}, R c d → R c.reportTooDeep d.reportTooDeep

namespace Tuned

variable {R : Context → Context → Prop} (hR : Tuned R)

include hR

/-- The contexts differ in their tuning only, so the text is the same. -/
theorem twins : Twins R where
  before h := by obtain ⟨u, rfl⟩ := hR.retuned h; rfl
  rest h := by obtain ⟨u, rfl⟩ := hR.retuned h; rfl
  pos h := by obtain ⟨u, rfl⟩ := hR.retuned h; rfl
  transition h := by obtain ⟨u, rfl⟩ := hR.retuned h; rfl
  read h n := hR.change (h := fun c => (c.read n).2) (fun _ _ => rfl) h
  report h x := hR.report h x

/-- **The grammar reads the same whatever the tuning is**, if the parsers for code and for
elements do. -/
theorem congruence : Congruence fun c _ p q => ∀ d, R c d → Alike R p q c d where
  toTagCongruence := tagCongruence_twins hR.twins
  ask hg hf c d h := by
    refine Alike.get_bind ?_
    obtain ⟨u, rfl⟩ := hR.retuned h
    rw [hg]
    exact hf c _ h
  modify_bind hk hf _ _ h := hf _ _ (hR.change hk h)

/-- Both report the limit, or have done so. -/
theorem reportTooDeep_bind {α : Type} {f g : Unit → Parse α}
    (hf : ∀ c d, R c d → Alike R (f ()) (g ()) c d) {c d : Context} (h : R c d) :
    Alike R (modify Context.reportTooDeep >>= f) (modify Context.reportTooDeep >>= g) c d :=
  hf _ _ (hR.tooDeep h)

end Tuned

end Parse

end Stencil
