import Stencil.Proofs.Checked
import Stencil.Proofs.Restoration

/-!
# The depth of nesting in a word

The depth is counted up wherever an element or a brace is entered. It is not the limit that keeps it in
a word: that may be any number, and the body of a brace is entered before it is asked for. What keeps it
there is the text. Each level has read a character of its own, so the depth and what is left to read
are never more than the length of the text.

What a fault makes of the context is left open. Parsers for which it makes no difference never fault.

* `Level.sameAt_countingBy`: **from a depth `n` on, levels are entered below `N` only**, if `N` is at least
  `n` and the rest of the text.
* `Grammar.template_inWords`: a template is read the same if the depth is counted in a word.
-/

namespace Stencil

open Parse

/-! ## Counting in a word -/

namespace Context

/-- One level deeper, counted in a word. -/
def enterNested? (c : Context) : Option Context :=
  (Word.add? c.depth 1).map fun n => { c with depth := n }

/-- One level deeper, counted in a word, where `fault` is done if the depth does not fit. -/
def enterNestedOr (fault : Context → Context) (c : Context) : Context :=
  c.enterNested?.getD (fault c)

/-- A depth that fits is counted as it is. -/
theorem enterNestedOr_eq {c : Context} (fault : Context → Context) (h : c.depth + 1 < 2 ^ 64) :
    c.enterNestedOr fault = c.enterNested := by
  rw [enterNestedOr, enterNested?, Word.add?_eq h]
  rfl

/-- At the depth `n`, with no more left to read than `N` allows for. -/
structure DeepWithin (N n : ℕ) (c : Context) : Prop where
  depth : c.depth = n
  rest : n + c.rest.length ≤ N

namespace DeepWithin

variable {N n : ℕ} {c d : Context}

/-- Reading on leaves less to read. -/
theorem moved {t : Text} (h : c.DeepWithin N n) (hmoved : c.Moved t d) : d.DeepWithin N n := by
  have hrest := congrArg List.length hmoved.rest
  rw [List.length_append] at hrest
  exact ⟨hmoved.depth.trans h.depth, by have := h.rest; omega⟩

/-- A character that is read makes room for one more level. -/
theorem read_one (h : c.DeepWithin N n) (hrest : c.rest ≠ []) :
    n < N ∧ (c.read 1).2.depth = n ∧ n + 1 + (c.read 1).2.rest.length ≤ N := by
  have hlt := c.length_rest_read_lt Nat.one_pos hrest
  have hle := h.rest
  exact ⟨by omega, h.depth, by omega⟩

end DeepWithin

end Context

open Context

variable {N n : ℕ} {enter : Context → Context}

/-! ## The same steps on both sides -/

/-- Reading and reporting stay at the depth. -/
theorem steady_deepWithin (N n : ℕ) : Steady (DeepWithin N n) where
  read h k := h.moved (moved_read _ k)
  report h x := h.moved (moved_report _ x)
  tooDeep h := h.moved (moved_reportTooDeep _)

/-- Equal nodes are put together to equal nodes. -/
theorem Node.ofChildren_eq {ns ns' : List Node} (h : List.Forall₂ Eq ns ns') (k : Kind) :
    ofChildren k ns = ofChildren k ns' := by
  rw [List.forall₂_eq_eq_eq] at h
  rw [h]

theorem weave_deepWithin (N n : ℕ) : Weave (DeepWithin N n) Eq :=
  { steady_deepWithin N n with
    closed := fun _ => rfl
    lead := fun h _ => by rw [h]
    group := fun _ h => Node.ofChildren_eq h _ }

/-- So does what happens around the content of an element. -/
theorem opens_deepWithin {c : Context} (h : c.DeepWithin N n) (name : Text) :
    Opens (DeepWithin N n) name c (DeepWithin N n) (DeepWithin N n) where
  push := h.moved (moved_pushElement c name)
  cut k _ d hd := hd.moved (moved_truncateFlattened d k)
  close d hd := hd.moved (moved_truncateFlattened d _)
  steady := steady_deepWithin N n
  pop d hd := hd.moved (moved_popElement d)

namespace Parse

variable {α β : Type} {code code' element element' : Parse Node} {body body' : Parse (List Node)}

/-- What is done one level deeper is done there by both, and both come back. -/
theorem deeperBy_mirror {p : Parse α} {q : Parse β} {R : α → β → Prop} {c : Context}
    (henter : enter c = c.enterNested)
    (h : Mirror p q c.enterNested fun a b d => d.DeepWithin N (n + 1) ∧ R a b) :
    Mirror (deeper p) (deeperBy enter q) c fun a b d => d.DeepWithin N n ∧ R a b := by
  have hentered : Mirror (modify Context.enterNested) (modify enter) c fun _ _ d => d = c.enterNested :=
    ⟨henter, rfl⟩
  refine hentered.bind ?_
  rintro _ _ _ rfl
  refine h.bind ?_
  rintro a b d ⟨hd, hab⟩
  refine Mirror.modify_bind ⟨rfl, ⟨?_, ?_⟩, hab⟩
  · show d.depth - 1 = n
    rw [hd.depth, Nat.add_sub_cancel]
  · show n + d.rest.length ≤ N
    have := hd.rest
    omega

/-- The start tags are the same, and so are elements with the same content. -/
theorem element_eq {o o' : Opening} {ns ns' : List Node} (ho : OpeningsMatch Eq o o')
    (hns : List.Forall₂ Eq ns ns') :
    Node.ofChildren o.kind (o.tag :: ns) = Node.ofChildren o'.kind (o'.tag :: ns') := by
  rw [Opening.kind, Opening.kind, ho.name]
  exact Node.ofChildren_eq (.cons ho.tag hns) _

theorem codeExpression_same : Mirrors (DeepWithin N n) Eq codeExpression codeExpression :=
  (codeExpression_textual.mirrors (steady_deepWithin N n)).imp fun _ _ h => h.1

/-- **Embedded code** is the same if its bodies are. -/
theorem embedded_same (hbody : BodyMirrors (DeepWithin N n) (List.Forall₂ Eq) body body') :
    Mirrors (DeepWithin N n) Eq (embedded body) (embedded body') := by
  have hN := (weave_deepWithin N n).toCarries
  exact embedded_mirrors hN hN codeExpression_same (fun h => Node.ofChildren_eq h _) hbody

/-- **Bodies** are the same if the bodies and elements in them are. -/
theorem codeBody_same (hbody : BodyMirrors (DeepWithin N n) (List.Forall₂ Eq) body body')
    (helement : ElementMirrors (DeepWithin N n) Eq element element') :
    Mirrors (DeepWithin N n) (List.Forall₂ Eq) (codeBody body element) (codeBody body' element') := by
  have hN := (weave_deepWithin N n).toCarries
  exact codeBody_mirrors hN hN (fun h => Node.ofChildren_eq h _) hbody helement

/-- **Raw text** is the same if the code in it is. -/
theorem rawText_same {o o' : Opening} (ho : OpeningsMatch Eq o o') (name : Text)
    (hcode : Mirrors (DeepWithin N n) Eq code code') :
    Mirrors (DeepWithin N n)
      (fun ns ns' => Node.ofChildren o.kind (o.tag :: ns) = Node.ofChildren o'.kind (o'.tag :: ns'))
      (rawTextContent code name) (rawTextContent code' name) :=
  (rawTextContent_mirrors (weave_deepWithin N n).toCarries name fun _ => hcode.code).imp fun _ _ h => element_eq ho h

theorem flatElement_same (hcode : Mirrors (DeepWithin N n) Eq code code') :
    Mirrors (DeepWithin N n) Eq (flatElement code) (flatElement code') := by
  refine flatElement_mirrors (weave_deepWithin N n) hcode.code ?_ (fun ho => element_eq ho .nil)
    fun ho _ _ => rawText_same ho _ hcode
  intro _ d o name _ _ hd _
  exact hd.moved (moved_pushFlattened d name o.place)

/-- An element has read its bracket before anything is nested in it. -/
theorem nestedElement_same (hcode : Mirrors (DeepWithin N n) Eq code code')
    (helement : ElementMirrors (DeepWithin N n) Eq element element') {c : Context} (hc : (c.read 1).2.DeepWithin N n) :
    Mirror (nestedElement code element) (nestedElement code' element') c fun a b d => d.DeepWithin N n ∧ a = b := by
  have hW := weave_deepWithin N n
  refine nestedElement_mirror hW hcode.code (fun ho => element_eq ho .nil)
    (fun ho _ _ => rawText_same ho _ hcode) (fun {o _ name} ho _ _ d hd => ?_) hc
  obtain ⟨hctx, he, hns⟩ := elementContent_mirror o.place (opens_deepWithin hd name) hW.toCarries hcode.code helement
  exact ⟨hctx, he, element_eq ho hns⟩

end Parse

/-! ## Levels of nesting -/

/-- The parsers of two levels do the same at the depth `n`. -/
structure Level.SameAt (N n : ℕ) (l l' : Level) : Prop where
  code : Mirrors (DeepWithin N n) Eq l.code l'.code
  element : ElementMirrors (DeepWithin N n) Eq l.element l'.element
  body : BodyMirrors (DeepWithin N n) (List.Forall₂ Eq) l.body l'.body

/-- A body is entered behind its brace. -/
theorem Parse.deeperBy_body {body body' : Parse (List Node)} (henter : ∀ c, c.depth < N → enter c = c.enterNested)
    (h : Mirrors (DeepWithin N (n + 1)) (List.Forall₂ Eq) body body') :
    BodyMirrors (DeepWithin N n) (List.Forall₂ Eq) (deeper body) (deeperBy enter body') := by
  intro c hc hrest
  obtain ⟨hlt, hdepth, hle⟩ := hc.read_one hrest
  refine deeperBy_mirror (henter _ (by rw [hdepth]; exact hlt)) (h _ ⟨?_, hle⟩)
  show (c.read 1).2.depth + 1 = n + 1
  rw [hdepth]

/-- **Levels are entered below `N` only**, and so it does not matter what entering them does elsewhere. -/
theorem Level.sameAt_countingBy (henter : ∀ c, c.depth < N → enter c = c.enterNested) (fuel n : ℕ) :
    (counting fuel).SameAt N n (countingBy enter fuel) := by
  -- by the fuel, one level deeper each time
  induction fuel generalizing n with
  | zero =>
    have hbody := deeperBy_body (n := n) henter (flatBody_mirrors (weave_deepWithin N (n + 1)).toCarries)
    have hcode := embedded_same hbody
    exact ⟨hcode, (flatElement_same hcode).element, hbody⟩
  | succ fuel ih =>
    have hinner := ih (n + 1)
    have hbody : BodyMirrors (DeepWithin N n) (List.Forall₂ Eq) (counting (fuel + 1)).body
        (countingBy enter (fuel + 1)).body := by
      refine deeperBy_body henter (.get_bind fun c _ => .ite ?_ ?_)
      · exact codeBody_same hinner.body hinner.element
      · exact flatBody_mirrors (weave_deepWithin N (n + 1)).toCarries
    have hcode := embedded_same hbody
    refine ⟨hcode, fun c hc hrest => ?_, hbody⟩
    obtain ⟨hlt, hdepth, hle⟩ := hc.read_one hrest
    refine Mirror.get_bind (Mirror.ite (fun _ => ?_) fun _ => flatElement_same hcode c hc)
    refine deeperBy_mirror (henter c (by rw [hc.depth]; exact hlt)) ?_
    refine nestedElement_same hinner.code hinner.element ⟨?_, hle⟩
    show c.depth + 1 = n + 1
    rw [hc.depth]

/-! ## Templates -/

/-- Reading a template enters levels below its length only. -/
theorem countingTemplateBy_eq {c : Context} (henter : ∀ d, d.depth < N → enter d = d.enterNested)
    (hc : c.depth + c.rest.length ≤ N) : countingTemplateBy enter c = Parse.template c := by
  rw [← countingTemplate_eq]
  have hlevel := Level.sameAt_countingBy henter c.room c.depth
  have hdocument := document_mirrors (M := Eq) (weave_deepWithin N c.depth).toCarries hlevel.code.code hlevel.element
    (fun k d hd => hd.moved (moved_truncateFlattened d k)) (fun h => Node.ofChildren_eq h _)
    { c with rootParsed := true } ⟨rfl, hc⟩
  show (if c.rootParsed then pure (Node.marker .endOfFile (.empty c.pos)) else _ : Parse Node) c =
    (if c.rootParsed then pure (Node.marker .endOfFile (.empty c.pos)) else _ : Parse Node) c
  split
  · rfl
  · exact Prod.ext hdocument.2.2.symm hdocument.1

/-- The template grammar, with the depth of nesting counted in a word. -/
def Grammar.inWords (fault : Context → Context) : Grammar :=
  ⟨"kiln", countingTemplateBy (enterNestedOr fault)⟩

/-- **The depth of nesting stays in its word**, whatever the limit is. -/
theorem Grammar.template_inWords {options : ParseOptions} {t : Text} (h : t.length < 2 ^ 64)
    (fault : Context → Context) : ((inWords fault).run options t).template = (template.run options t).template := by
  have hnext : ∀ c : Context, c.depth + c.rest.length < 2 ^ 64 → (inWords fault).next c = template.next c :=
    fun c hc => countingTemplateBy_eq (fun d hd => enterNestedOr_eq fault (by omega)) le_rfl
  rw [template_run]
  refine template_run_of_next t ((hnext _ ?_).trans (next_ofText options t)) fun d hd => ?_
  · show 0 + t.length < 2 ^ 64
    omega
  · show (if d.rootParsed then pure (Node.marker .endOfFile (.empty d.pos)) else _ : Parse Node) d = _
    rw [if_pos hd]
    rfl

end Stencil
