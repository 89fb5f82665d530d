import Mathlib.Data.List.Forall2
import Stencil.Proofs.Alike
import Stencil.Proofs.TextRuns

/-!
# One run with two results

The parsers of the grammar take those for embedded code and for elements as parameters.
Where two such parameters read the same text and differ only in the nodes that they give,
so do the parsers that are built from them.

`Mirrors I N p q`: from every context of `I`, the steps `p` and `q` end in the same
context, again one of `I`, with results that `N` relates. `Weave I N` says what `I` and
`N` must have for that: reading on and reporting keep `I`, a node without code in it is
related to itself, and nodes that only hold others together are related if these are.

* `Parse.many_mirrors`: **turn by turn** two loops give related nodes.
* `Parse.opening_mirrors`, `Parse.rawTextContent_mirrors`: start tags and raw text.
* `Parse.content_mirrors`, `Parse.elementContent_mirrors`: what stands between tags. The
  invariant changes there, for an element is open and others may be flattened.
* `Parse.codeBody_mirrors`, `Parse.nestedElement_mirror`: bodies and elements. Of the parsers in
  them it is asked only what they do where they are called: code at a transition, elements
  before the end of the text, bodies behind their brace.

Taken with one parser on both sides, `Mirrors` is about one run only: it says what holds
of the nodes that the grammar builds.
-/

namespace Stencil

open List (Forall₂)

namespace Node

/-- What one parser on both sides says of its nodes. -/
theorem forall_left {Q : Node → Prop} {ns ms : List Node} (h : Forall₂ (fun n _ => Q n) ns ms) :
    ∀ n ∈ ns, Q n :=
  ((List.forall₂_and_left (R := fun _ _ => True) ns ms).1 (h.imp fun _ _ hn => ⟨hn, trivial⟩)).1

end Node

namespace Context

variable {c : Context} {fs : List Flattened} {k : ℕ}

/-- Flattened elements that were there before are not cut off. -/
theorem suffix_truncateFlattened (h : fs <:+ c.flattened) (hk : fs.length ≤ k) :
    fs <:+ (c.truncateFlattened k).flattened := by
  obtain ⟨more, hmore⟩ := h
  have hle : c.flattened.length - k ≤ more.length := by
    rw [← hmore, List.length_append]; omega
  show fs <:+ c.flattened.drop (c.flattened.length - k)
  rw [← hmore, List.drop_append_of_le_length (by rw [hmore]; exact hle)]
  exact List.suffix_append _ _

/-- Cut back to their number, the flattened elements are those that were there. -/
theorem flattened_truncateFlattened (h : fs <:+ c.flattened) : (c.truncateFlattened fs.length).flattened = fs :=
  (List.suffix_iff_eq_drop.1 h).symm

end Context

/-- Reading on and reporting keep the invariant. -/
structure Steady (I : Context → Prop) : Prop where
  read : ∀ {c}, I c → ∀ n, I (c.read n).2
  report : ∀ {c}, I c → ∀ x, I (c.report x)
  tooDeep : ∀ {c}, I c → I c.reportTooDeep

/-- Where nothing is asked of the contexts. -/
theorem steady_true : Steady fun _ => True where
  read _ _ := trivial
  report _ _ := trivial
  tooDeep _ := trivial

/-- Every context is its own twin. -/
theorem Steady.twins {I : Context → Prop} (h : Steady I) :
    Twins fun c d => d = c ∧ I c where
  before h := by rw [h.1]
  rest h := by rw [h.1]
  pos h := by rw [h.1]
  transition h := by rw [h.1]
  read hcd n := ⟨by rw [hcd.1], h.read hcd.2 n⟩
  report hcd x := ⟨by rw [hcd.1], h.report hcd.2 x⟩

namespace Parse

variable {α β γ δ σ : Type} {I J : Context → Prop}

/-- Started in `c`, the two steps end in the same context, which fulfils `Q` together
with the two results. -/
def Mirror (p : Parse α) (q : Parse β) (c : Context) (Q : α → β → Context → Prop) : Prop :=
  (q c).2 = (p c).2 ∧ Q (p c).1 (q c).1 (p c).2

/-- Two steps and then two others that go on from where both ended. -/
theorem Mirror.bind {p : Parse α} {q : Parse β} {f : α → Parse γ} {g : β → Parse δ} {c : Context}
    {Q : α → β → Context → Prop} {R : γ → δ → Context → Prop} (hp : Mirror p q c Q)
    (hf : ∀ a b d, Q a b d → Mirror (f a) (g b) d R) : Mirror (p >>= f) (q >>= g) c R := by
  obtain ⟨hctx, hQ⟩ := hp
  have h := hf _ _ _ hQ
  unfold Mirror at h ⊢
  rw [bind_apply, bind_apply, hctx]
  exact h

/-- Both look at the same context. -/
theorem Mirror.get_bind {f : Context → Parse γ} {g : Context → Parse δ} {c : Context}
    {R : γ → δ → Context → Prop} (h : Mirror (f c) (g c) c R) :
    Mirror (get >>= f) (get >>= g) c R := h

theorem Mirror.modify_bind {m : Context → Context} {f : Unit → Parse γ} {g : Unit → Parse δ}
    {c : Context} {R : γ → δ → Context → Prop} (h : Mirror (f ()) (g ()) (m c) R) :
    Mirror (modify m >>= f) (modify m >>= g) c R := h

theorem Mirror.ite {P : Prop} [Decidable P] {p p' : Parse α} {q q' : Parse β} {c : Context}
    {Q : α → β → Context → Prop} (hp : P → Mirror p q c Q) (hn : ¬ P → Mirror p' q' c Q) :
    Mirror (if P then p else p') (if P then q else q') c Q := by
  split
  case isTrue h => exact hp h
  case isFalse h => exact hn h

/-- From every context of `I` the two steps end in the same context of `I`, with results
that `N` relates. -/
def Mirrors (I : Context → Prop) (N : α → β → Prop) (p : Parse α) (q : Parse β) : Prop :=
  ∀ c, I c → Mirror p q c fun a b d => I d ∧ N a b

/-- From where the first two steps have ended, the others mirror each other. -/
theorem Mirror.bind_mirrors {N : α → β → Prop} {M : γ → δ → Prop} {p : Parse α} {q : Parse β} {f : α → Parse γ}
    {g : β → Parse δ} {c : Context} (hp : Mirror p q c fun a b d => I d ∧ N a b)
    (hf : ∀ a b, N a b → Mirrors I M (f a) (g b)) : Mirror (p >>= f) (q >>= g) c fun a b d => I d ∧ M a b :=
  hp.bind fun a b d hd => hf a b hd.2 d hd.1

namespace Mirrors

variable {N : α → β → Prop} {M : γ → δ → Prop}

theorem pure {a : α} {b : β} (h : N a b) : Mirrors I N (pure a) (pure b) :=
  fun _ hc => ⟨rfl, hc, h⟩

/-- Steps that mirror each other, one after the other. -/
theorem bind {p : Parse α} {q : Parse β} {f : α → Parse γ} {g : β → Parse δ}
    (hp : Mirrors I N p q) (hf : ∀ a b, N a b → Mirrors I M (f a) (g b)) :
    Mirrors I M (p >>= f) (q >>= g) :=
  fun c hc => (hp c hc).bind_mirrors hf

theorem get_bind {f : Context → Parse γ} {g : Context → Parse δ}
    (hf : ∀ c, I c → Mirrors I M (f c) (g c)) : Mirrors I M (get >>= f) (get >>= g) :=
  fun c hc => hf c hc c hc

/-- A change that both make must keep the invariant. -/
theorem modify_bind {h : Context → Context} {f : Unit → Parse γ} {g : Unit → Parse δ}
    (hI : ∀ c, I c → I (h c)) (hf : Mirrors I M (f ()) (g ())) :
    Mirrors I M (modify h >>= f) (modify h >>= g) :=
  fun c hc => hf (h c) (hI c hc)

/-- What one parser on both sides says of its run. -/
theorem ends {N : α → α → Prop} {p : Parse α} {c : Context} (h : Mirrors I N p p) (hc : I c) :
    Ends p c fun a d => I d ∧ N a a :=
  (h c hc).2

theorem of_eq {N : α → α → Prop} {p : Parse α} {c d : Context} {a : α} (h : Mirrors I N p p) (hc : I c)
    (hp : p c = (a, d)) : I d ∧ N a a :=
  (h.ends hc).of_eq hp

/-- Less may be said of the results. -/
theorem imp {N' : α → β → Prop} {p : Parse α} {q : Parse β} (hp : Mirrors I N p q)
    (h : ∀ a b, N a b → N' a b) : Mirrors I N' p q :=
  fun c hc => ⟨(hp c hc).1, (hp c hc).2.1, h _ _ (hp c hc).2.2⟩

theorem ite {P : Prop} [Decidable P] {p p' : Parse α} {q q' : Parse β} (hp : Mirrors I N p q)
    (hn : Mirrors I N p' q') : Mirrors I N (if P then p else p') (if P then q else q') := by
  split
  · exact hp
  · exact hn

theorem bind_some {p : Parse α} {q : Parse β} (hp : Mirrors I N p q) :
    Mirrors I (Option.Rel N) (p >>= fun a => Pure.pure (some a))
      (q >>= fun b => Pure.pure (some b)) :=
  hp.bind fun _ _ h => pure (.some h)

end Mirrors

/-- What the two steps for embedded code must do: they mirror each other where there is a
transition at the cursor. -/
def CodeMirrors (I : Context → Prop) (N : Node → Node → Prop) (code code' : Parse Node) : Prop :=
  ∀ c, I c → c.atTransition = true → Mirror code code' c fun n n' d => I d ∧ N n n'

/-- Steps that mirror each other everywhere do so at transitions, -/
theorem Mirrors.code {N : Node → Node → Prop} {code code' : Parse Node} (h : Mirrors I N code code') :
    CodeMirrors I N code code' :=
  fun c hc _ => h c hc

/-- What the two steps for elements must do: they mirror each other before the end of the text. -/
def ElementMirrors (I : Context → Prop) (N : Node → Node → Prop) (element element' : Parse Node) : Prop :=
  ∀ c, I c → c.rest ≠ [] → Mirror element element' c fun n n' d => I d ∧ N n n'

/-- before the end of the text, -/
theorem Mirrors.element {N : Node → Node → Prop} {element element' : Parse Node}
    (h : Mirrors I N element element') : ElementMirrors I N element element' :=
  fun c hc _ => h c hc

/-- What the two steps for the body of a brace must do: they mirror each other once the brace has been
read. -/
def BodyMirrors (I : Context → Prop) (B : List Node → List Node → Prop) (body body' : Parse (List Node)) : Prop :=
  ∀ c, I c → c.rest ≠ [] → Mirror body body' (c.read 1).2 fun ns ns' d => I d ∧ B ns ns'

/-- and behind braces. -/
theorem Mirrors.body {B : List Node → List Node → Prop} {body body' : Parse (List Node)}
    (h : Mirrors I B body body') (hI : Steady I) : BodyMirrors I B body body' :=
  fun _ hc _ => h _ (hI.read hc 1)

/-- A textual step gives one result. -/
theorem Textual.mirrors {p : Parse α} {Q : α → Prop} (hp : Textual Q p) (hI : Steady I) :
    Mirrors I (fun a b => a = b ∧ Q a) p p :=
  fun c hc => ⟨rfl, (hp.alike hI.twins ⟨rfl, hc⟩).2.2, rfl, hp.gives c⟩

/-! ## Loops -/

/-- **Turn by turn** two loops give related nodes. -/
theorem many_mirrors {N : Node → Node → Prop} {step step' : σ → Parse (Option (Node × σ))}
    (hstep : ∀ s, Mirrors I (Option.Rel fun x y => N x.1 y.1 ∧ x.2 = y.2) (step s) (step' s)) (s : σ) :
    Mirrors I (fun r r' => Forall₂ N r.1 r'.1 ∧ r.2 = r'.2) (many step s) (many step' s) := by
  intro c
  -- the turns end in the same context, so both loops go on or stop together
  induction s, c using many.induct step with
  | case1 s c d hs =>
    intro hc
    obtain ⟨hctx, hd, hrel⟩ := hstep s c hc
    rw [hs] at hctx hd hrel
    cases hs' : step' s c with
    | mk r d' =>
      rw [hs'] at hctx hrel
      subst hctx
      cases hrel
      unfold Mirror
      rw [many, many, hs, hs']
      exact ⟨rfl, hd, .nil, rfl⟩
  | case2 s c n s' d hs hlt rest last e hrest ih =>
    intro hc
    obtain ⟨hctx, hd, hrel⟩ := hstep s c hc
    rw [hs] at hctx hd hrel
    cases hs' : step' s c with
    | mk r d' =>
      rw [hs'] at hctx hrel
      subst hctx
      cases hrel with
      | @some x y hxy =>
        obtain ⟨n', t'⟩ := y
        obtain ⟨hn, rfl⟩ := hxy
        obtain ⟨hctx, he, hns, hlast⟩ := ih hd
        unfold Mirror
        rw [many, many, hs, hs']
        simp only [dif_pos hlt]
        exact ⟨hctx, he, .cons hn hns, hlast⟩
  | case3 s c n s' d hs hlt =>
    intro hc
    obtain ⟨hctx, hd, hrel⟩ := hstep s c hc
    rw [hs] at hctx hd hrel
    cases hs' : step' s c with
    | mk r d' =>
      rw [hs'] at hctx hrel
      subst hctx
      cases hrel with
      | @some x y hxy =>
        obtain ⟨n', t'⟩ := y
        obtain ⟨hn, rfl⟩ := hxy
        unfold Mirror
        rw [many, many, hs, hs']
        simp only [dif_neg hlt]
        exact ⟨trivial, hd, .cons hn .nil, trivial⟩

/-- Loops mirror each other if their turns do. -/
theorem manyNodes_mirrors {N : Node → Node → Prop} {step step' : Parse (Option Node)}
    (hstep : Mirrors I (Option.Rel N) step step') :
    Mirrors I (Forall₂ N) (manyNodes step) (manyNodes step') := by
  refine (many_mirrors (fun _ => hstep.bind fun r r' h => .pure ?_) ()).bind fun r r' h => .pure h.1
  cases h with
  | some h => exact .some ⟨h, rfl⟩
  | none => exact .none

end Parse

/-! ## What the nodes must have -/

/-- The invariant is kept by reading and reporting, and nodes without code are related to
themselves. -/
structure Carries (I : Context → Prop) (N : Node → Node → Prop) : Prop extends
    Steady I where
  closed : ∀ {n : Node}, n.Closed → N n n

/-- Besides, nodes are related if they hold related nodes together. -/
structure Weave (I : Context → Prop) (N : Node → Node → Prop) : Prop extends
    Carries I N where
  lead : ∀ {n n' : Node}, N n n' → ∀ l, N (n.withLead l) (n'.withLead l)
  group : ∀ {k : Kind} {ns ns' : List Node}, k.isGroup = true → Forall₂ N ns ns' →
    N (.ofChildren k ns) (.ofChildren k ns')

namespace Parse

open Node

variable {I : Context → Prop} {N M : Node → Node → Prop}

/-- A textual step that builds a node without code. -/
theorem Textual.carries {p : Parse Node} (hp : Textual Closed p) (hN : Carries I N) :
    Mirrors I (fun a b => a = b ∧ N a b) p p :=
  (hp.mirrors hN.toSteady).imp fun _ _ h => ⟨h.1, h.1 ▸ hN.closed h.2⟩

section Tokens

variable (hN : Carries I N)

include hN

/-- **Tokens** are the same on both sides. -/
theorem token_mirrors {k : Kind} (hk : k.isClosed = true) (n : ℕ) : Mirrors I N (token k n) (token k n) :=
  ((token_textual hk n).carries hN).imp fun _ _ h => h.2

/-- A token is read wherever it stands. -/
theorem token_mirror {k : Kind} (hk : k.isClosed = true) (n : ℕ) (c : Context) :
    Mirror (token k n) (token k n) c fun a b d => d = (c.read n).2 ∧ N a b :=
  ⟨rfl, rfl, hN.closed ((token_textual hk n).gives c)⟩

theorem absent_mirrors {k : Kind} (hk : k.isClosed = true) (w : Wanted) :
    Mirrors I N (absent k w) (absent k w) :=
  ((absent_textual hk w).carries hN).imp fun _ _ h => h.2

theorem expect_mirrors {k : Kind} (hk : k.isClosed = true) (w : Wanted) :
    Mirrors I N (expect k w) (expect k w) :=
  ((expect_textual hk w).carries hN).imp fun _ _ h => h.2

/-- **End tags** are the same on both sides, too. -/
theorem endTag_mirrors : Mirrors I (fun a b => a = b ∧ N a b) endTag endTag :=
  endTag_textual.carries hN

omit hN in
theorem blanks_mirrors (hI : Steady I) : Mirrors I (fun a b => a = b) blanks blanks :=
  (blanks_textual.mirrors hI).imp fun _ _ h => h.1

omit hN in
theorem report_mirrors (hI : Steady I) (p : Problem) (l : Location) :
    Mirrors I (fun _ _ => True) (report p l) (report p l) :=
  fun _ hc => ⟨rfl, hI.report hc _, trivial⟩

omit hN in
theorem reportHere_mirrors (hI : Steady I) (p : Problem) :
    Mirrors I (fun _ _ => True) (reportHere p) (reportHere p) :=
  fun _ hc => ⟨rfl, hI.report hc _, trivial⟩

end Tokens

/-! ## Tags -/

section Tags

variable (hW : Weave I N) {code code' : Parse Node}

include hW

variable (hcode : CodeMirrors I N code code')

include hcode

/-- Parts of a value are text, or code that mirrors code. -/
theorem valuePart_mirrors (ends : Text → Bool) :
    Mirrors I (Option.Rel N) (valuePart code ends) (valuePart code' ends) := by
  intro c hc
  have htoken := fun n => (token_mirrors hW.toCarries (k := .literal) rfl n).bind_some
  refine Mirror.get_bind (Mirror.ite (fun _ => ⟨rfl, hc, .none⟩) fun _ => Mirror.ite (fun ht => ?_) fun _ => ?_)
  · exact (hcode c hc ht).bind fun _ _ d hd => ⟨rfl, hd.1, .some hd.2⟩
  · exact htoken _ c hc

theorem valueContent_mirrors (ends : Text → Bool) :
    Mirrors I N (valueContent code ends) (valueContent code' ends) :=
  (manyNodes_mirrors (valuePart_mirrors hW hcode ends)).bind fun _ _ h => .pure (hW.group rfl h)

/-- Values with quotes, -/
theorem quotedValue_mirrors : Mirrors I (Forall₂ N) (quotedValue code) (quotedValue code') := by
  refine .get_bind fun c _ => (token_mirrors hW.toCarries rfl 1).bind fun a a' ha => ?_
  refine (valueContent_mirrors hW hcode _).bind fun b b' hb => .get_bind fun d _ => .ite ?_ ?_
  · have hmissing := (missing_textual (k := .quote) rfl).carries hW.toCarries
    refine (reportHere_mirrors hW.toSteady _).bind fun _ _ _ => hmissing.bind fun e e' he => .pure ?_
    exact .cons ha (.cons hb (.cons he.2 .nil))
  · refine (token_mirrors hW.toCarries rfl 1).bind fun e e' he => .pure ?_
    exact .cons ha (.cons hb (.cons he .nil))

/-- and without. -/
theorem attributeValue_mirrors :
    Mirrors I (Forall₂ N) (attributeValue code) (attributeValue code') := by
  refine .get_bind fun c _ => .ite (quotedValue_mirrors hW hcode) (.ite ?_ ?_)
  · exact (absent_mirrors hW.toCarries rfl _).bind fun a a' ha => .pure (.cons ha .nil)
  · exact (valueContent_mirrors hW hcode _).bind fun a a' ha => .pure (.cons ha .nil)

theorem attributeRest_mirrors (named : Bool) :
    Mirrors I (Forall₂ N) (attributeRest code named) (attributeRest code' named) := by
  refine .get_bind fun c _ => .ite ?_ (.ite (.ite ?_ (attributeValue_mirrors hW hcode)) (.pure .nil))
  · refine (blanks_mirrors hW.toSteady).bind fun lead _ hlead => ?_
    refine ((token_textual (k := .equals) rfl 1).mirrors hW.toSteady).bind fun a _ ha => ?_
    refine (blanks_mirrors hW.toSteady).bind fun trail _ htrail => ?_
    refine (attributeValue_mirrors hW hcode).bind fun ns ns' hns => .pure (.cons ?_ hns)
    obtain ⟨rfl, hclosed⟩ := ha
    subst hlead htrail
    exact hW.closed (hclosed.withTrivia _)
  · refine (absent_mirrors hW.toCarries rfl _).bind fun a a' ha => ?_
    exact (attributeValue_mirrors hW hcode).bind fun ns ns' hns => .pure (.cons ha hns)

/-- **Attributes** mirror each other, and have the same name. -/
theorem attributeNode_mirrors (lead : Option Location) :
    Mirrors I (fun r r' => N r.1 r'.1 ∧ r.2 = r'.2) (attributeNode code lead)
      (attributeNode code' lead) := by
  refine (attributeName_textual.carries hW.toCarries).bind fun a a' ha => ?_
  obtain ⟨rfl, haa⟩ := ha
  refine (attributeRest_mirrors hW hcode _).bind fun ns ns' hns => .pure ⟨?_, rfl⟩
  exact hW.group rfl (.cons (hW.lead haa lead) hns)

theorem attributePart_mirrors (s : AttributeState) :
    Mirrors I (Option.Rel fun x y => N x.1 y.1 ∧ x.2 = y.2) (attributePart code s)
      (attributePart code' s) := by
  intro c hc
  refine Mirror.get_bind (Mirror.ite (fun _ => ⟨rfl, hc, .none⟩) fun _ => Mirror.ite (fun ht => ?_) fun _ => ?_)
  · refine (hcode c hc ht).bind fun a a' d hd => ?_
    refine (blanks_mirrors hW.toSteady d hd.1).bind fun lead _ e he => ⟨rfl, he.1, ?_⟩
    exact .some ⟨hW.lead hd.2 s.lead, by rw [he.2]⟩
  · refine (attributeNode_mirrors hW hcode s.lead c hc).bind ?_
    rintro ⟨node, name⟩ ⟨node', name'⟩ d ⟨hd, hnode, rfl⟩
    refine ((checkName_textual s.seen name).mirrors hW.toSteady d hd).bind fun seen _ e he => ?_
    refine (blanks_mirrors hW.toSteady e he.1).bind fun lead _ e' he' => ⟨rfl, he'.1, ?_⟩
    exact .some ⟨hnode, by rw [he.2.1, he'.2]⟩

/-- The lists of attributes end at the same blanks. -/
theorem attributes_mirrors :
    Mirrors I (fun r r' => N r.1 r'.1 ∧ r.2 = r'.2) (attributes code) (attributes code') := by
  refine (blanks_mirrors hW.toSteady).bind fun lead _ hlead => ?_
  subst hlead
  refine (many_mirrors (attributePart_mirrors hW hcode) _).bind fun r r' hr => .pure ?_
  exact ⟨hW.group rfl hr.1, by rw [hr.2]⟩

/-- The tags of two openings are related; all else is the same. -/
structure OpeningsMatch (N : Node → Node → Prop) (o o' : Opening) : Prop where
  tag : N o.tag o'.tag
  kind : o'.tag.kind = .htmlStartTag
  name : o'.name = o.name
  place : o'.place = o.place
  closed : o'.closed = o.closed

omit hW hcode in
/-- What matches has content for the same element. -/
theorem OpeningsMatch.contentName? {o o' : Opening} (h : OpeningsMatch N o o') : o'.contentName? = o.contentName? := by
  rw [Opening.contentName?, Opening.contentName?, h.name, h.closed]

/-- **Start tags.** Code stands behind their bracket only. -/
theorem opening_mirror {c : Context} (hc : I (c.read 1).2) :
    Mirror (opening code) (opening code') c fun o o' d => I d ∧ OpeningsMatch N o o' := by
  have hbracket : Mirror (token .bracket 1) (token .bracket 1) c fun a b d => I d ∧ N a b :=
    ⟨rfl, hc, (token_mirror hW.toCarries rfl 1 c).2.2⟩
  refine hbracket.bind_mirrors fun a a' ha => ?_
  refine (tagName_textual.carries hW.toCarries).bind fun b b' hb => ?_
  obtain ⟨rfl, hbb⟩ := hb
  refine (attributes_mirrors hW hcode).bind fun r r' hr => .get_bind fun c _ => ?_
  have htag : ∀ e e', N e e' → N (.ofChildren .htmlStartTag [a, b, r.1, e.withLead r.2])
      (.ofChildren .htmlStartTag [a', b, r'.1, e'.withLead r'.2]) := by
    intro e e' he
    rw [← hr.2]
    exact hW.group rfl (.cons ha (.cons hbb (.cons hr.1 (.cons (hW.lead he _) .nil))))
  refine .ite ?_ ?_
  · exact (token_mirrors hW.toCarries rfl 2).bind fun e e' he => .pure ⟨htag e e' he, rfl, rfl, rfl, rfl⟩
  · exact (expect_mirrors hW.toCarries rfl _).bind fun e e' he => .pure ⟨htag e e' he, rfl, rfl, rfl, rfl⟩

/-- **Start tags** match. -/
theorem opening_mirrors : Mirrors I (OpeningsMatch N) (opening code) (opening code') :=
  fun _ hc => opening_mirror hW hcode (hW.read hc 1)

end Tags

/-! ## Embedded code -/

section Code

variable {body body' : Parse (List Node)} {element element' : Parse Node}

/-- Blocks are related if their bodies are. -/
theorem codeBlock_mirror {B : List Node → List Node → Prop} (hM : Carries I M)
    (hblock : ∀ {a a' b b' ns ns'}, M a a' → M b b' → B ns ns' →
      N (.ofChildren .codeBlock (a :: b :: ns)) (.ofChildren .codeBlock (a' :: b' :: ns')))
    (hbody : BodyMirrors I B body body') {c : Context} (hc : I c) (hpeek : c.peek = '{') :
    Mirror (codeBlock body) (codeBlock body') c fun n n' d => I d ∧ N n n' := by
  have hmarker : Mirror transitionMarker transitionMarker c fun a b d => d = (c.read 1).2 ∧ M a b :=
    ⟨rfl, rfl, hM.closed (transitionMarker_textual.gives c)⟩
  refine hmarker.bind ?_
  rintro a a' _ ⟨rfl, ha⟩
  refine (token_mirror hM rfl 1 _).bind ?_
  rintro b b' _ ⟨rfl, hb⟩
  have hbrace : c.rest.ahead 1 = '{' := hpeek
  have hrest : c.rest.drop 1 ≠ [] := Text.drop_ne_nil_of_ahead (by rw [hbrace]; decide)
  exact (hbody _ (hM.read hc 1) hrest).bind_mirrors fun ns ns' hns => .pure (hblock ha hb hns)

/-- A transition introduces related nodes if its expressions and blocks are related. -/
theorem embedded_mirrors_of_block (hN : Carries I N)
    (hexpression : Mirrors I N codeExpression codeExpression)
    (hblock : ∀ c, I c → c.peek = '{' →
      Mirror (codeBlock body) (codeBlock body') c fun n n' d => I d ∧ N n n') :
    Mirrors I N (embedded body) (embedded body') := by
  have hescaped := (escapedTransition_textual.carries hN).imp fun _ _ h => h.2
  have hinvalid := (invalidTransition_textual.carries hN).imp fun _ _ h => h.2
  intro c hc
  refine Mirror.get_bind (Mirror.ite (fun _ => hescaped c hc) fun _ => Mirror.ite (hblock c hc) fun _ => ?_)
  exact Mirror.ite (fun _ => hexpression c hc) fun _ => hinvalid c hc

/-- A transition introduces related nodes if what it may introduce is related. -/
theorem embedded_mirrors (hN : Carries I N) (hM : Carries I M)
    (hexpression : Mirrors I N codeExpression codeExpression)
    (hblock : ∀ {ns ns'}, Forall₂ M ns ns' → N (.ofChildren .codeBlock ns) (.ofChildren .codeBlock ns'))
    (hbody : BodyMirrors I (Forall₂ M) body body') : Mirrors I N (embedded body) (embedded body') :=
  embedded_mirrors_of_block hN hexpression fun _ =>
    codeBlock_mirror hM (fun ha hb hns => hblock (.cons ha (.cons hb hns))) hbody

/-- Bodies past the limit are one piece of code. -/
theorem flatBody_mirrors (hM : Carries I M) : Mirrors I (Forall₂ M) flatBody flatBody := by
  refine .modify_bind (fun c hc => hM.tooDeep hc) (.get_bind fun c _ => ?_)
  refine ((code_textual _).carries hM).bind fun v v' hv => ?_
  refine (expect_mirrors hM rfl _).bind fun b b' hb => .pure ?_
  obtain ⟨rfl, hv⟩ := hv
  split
  · exact .cons hb .nil
  · exact .cons hv (.cons hb .nil)

/-- Bodies have related parts if their braces and elements are related. -/
theorem codeBody_mirrors {L : Node → Node → Prop} (hM : Carries I M) (hL : Carries I L)
    (hbrace : ∀ {ns ns'}, Forall₂ L ns ns' → M (.ofChildren .codeBrace ns) (.ofChildren .codeBrace ns'))
    (hbody : BodyMirrors I (Forall₂ L) body body') (helement : ElementMirrors I M element element') :
    Mirrors I (Forall₂ M) (codeBody body element) (codeBody body' element') := by
  have hpart : ∀ last, Mirrors I (Option.Rel fun x y => M x.1 y.1 ∧ x.2 = y.2)
      (bodyPart body element last) (bodyPart body' element' last) := by
    intro last c hc
    refine Mirror.get_bind (Mirror.ite (fun _ => ⟨rfl, hc, .none⟩) fun hgo => ?_)
    have hrest : c.rest ≠ [] := by
      rintro hnil
      simp [Context.atEnd, hnil] at hgo
    refine Mirror.ite (fun _ => ?_) fun _ => Mirror.ite (fun _ => ?_) fun _ => ?_
    · refine (token_mirror hL rfl 1 c).bind ?_
      rintro a a' _ ⟨rfl, ha⟩
      exact (hbody c hc hrest).bind_mirrors fun ns ns' hns => .pure (.some ⟨hbrace (.cons ha hns), rfl⟩)
    · exact (helement c hc hrest).bind_mirrors fun n n' hn => .pure (.some ⟨hn, rfl⟩)
    · exact (((code_textual _).carries hM).bind fun n n' hn => .pure (.some ⟨hn.2, rfl⟩)) c hc
  refine (many_mirrors hpart none).bind ?_
  rintro ⟨ns, s⟩ ⟨ns', s'⟩ ⟨hns, -⟩
  refine (expect_mirrors hM rfl _).bind fun b b' hb => .pure ?_
  exact List.rel_append hns (.cons hb .nil)

end Code

/-! ## Content -/

section Content

variable (hN : Carries I N)

include hN

omit hN in
/-- What holds once flattened elements are forgotten holds after they are reported too. -/
theorem closeFlattened_mirror (hI : Steady I) {k : ℕ} {c : Context} (hcut : I (c.truncateFlattened k)) :
    Mirror (closeFlattened k) (closeFlattened k) c fun _ _ d => I d ∧ True := by
  have hforM : ∀ fs : List Flattened, Mirrors I (fun _ _ => True)
      (fs.forM fun f => reportMissingEnd f.name f.location)
      (fs.forM fun f => reportMissingEnd f.name f.location) := by
    intro fs
    induction fs with
    | nil => exact .pure trivial
    | cons f fs ih =>
      have hreport : Mirrors I (fun _ _ => True) (reportMissingEnd f.name f.location)
          (reportMissingEnd f.name f.location) := .get_bind fun c _ => report_mirrors hI _ _
      exact hreport.bind fun _ _ _ => ih
  exact Mirror.get_bind (Mirror.modify_bind (hforM _ _ hcut))

omit hN in
/-- Only elements above the base are looked for. -/
theorem le_of_findFlattened? {c : Context} {name : Text} {base i : ℕ}
    (h : c.findFlattened? name base = some i) : base ≤ i := by
  obtain ⟨j, hj, rfl⟩ := Option.map_eq_some_iff.1 h
  have hlt := (List.findIdx?_eq_some_iff_getElem.1 hj).1
  rw [List.length_take] at hlt
  omega

omit hN in
/-- Where no end tag of a flattened element is found, nothing is done. -/
theorem flattenedEnd?_none (base : ℕ) (c : Context) :
    Ends (flattenedEnd? base) c fun r d => r = none → d = c := by
  refine Ends.get_bind ?_
  split
  · refine Ends.bind (Q := fun _ _ => True) trivial fun _ d _ => Ends.modify_bind ?_
    exact Ends.bind (Q := fun _ _ => True) trivial fun _ e _ => Ends.pure fun h => absurd h (Option.some_ne_none _)
  · exact Ends.pure fun _ => rfl

/-- Elements that are closed are forgotten down to the base at most. -/
theorem flattenedEnd?_mirrors {base : ℕ}
    (hcut : ∀ k, base ≤ k → ∀ c, I c → I (c.truncateFlattened k)) :
    Mirrors I (Option.Rel N) (flattenedEnd? base) (flattenedEnd? base) := by
  refine .get_bind fun c _ => ?_
  split
  case h_1 i hi =>
    obtain ⟨name, -, hfind⟩ := Option.bind_eq_some_iff.1 hi
    have hle := le_of_findFlattened? hfind
    have hclose : Mirrors I (fun _ _ => True) (closeFlattened (i + 1)) (closeFlattened (i + 1)) :=
      fun d hd => closeFlattened_mirror hN.toSteady (hcut _ (by omega) d hd)
    refine hclose.bind fun _ _ _ => .modify_bind (hcut i hle) (.bind_some ?_)
    exact (endTag_mirrors hN).imp fun _ _ h => h.2
  case h_2 => exact .pure .none

theorem orphanEnd_mirrors : Mirrors I N orphanEnd orphanEnd := by
  refine (endTag_mirrors hN).bind ?_
  rintro tag _ ⟨rfl, htag⟩
  refine .get_bind fun c _ => .ite ?_ ?_
  · exact (report_mirrors hN.toSteady _ _).bind fun _ _ _ => .pure htag
  · split
    · exact (report_mirrors hN.toSteady _ _).bind fun _ _ _ => .pure htag
    · exact (report_mirrors hN.toSteady _ _).bind fun _ _ _ => .pure htag

variable {code code' element element' : Parse Node}

omit hN in
/-- Where no end tag of a flattened element is found, a turn of a loop goes on before the end of the text. -/
theorem turn_mirrors {base : ℕ} {p q : Parse (Option Node)} (hN : Carries I N)
    (hcut : ∀ k, base ≤ k → ∀ c, I c → I (c.truncateFlattened k))
    (hp : ∀ c, I c → c.rest ≠ [] → Mirror p q c fun r r' d => I d ∧ Option.Rel N r r') :
    Mirrors I (Option.Rel N)
      (do
        if (← get).atEnd then return none
        else
          match ← flattenedEnd? base with
          | some tag => return some tag
          | none => p)
      (do
        if (← get).atEnd then return none
        else
          match ← flattenedEnd? base with
          | some tag => return some tag
          | none => q) := by
  intro c hc
  refine Mirror.get_bind (Mirror.ite (fun _ => ⟨rfl, hc, .none⟩) fun hend => ?_)
  obtain ⟨hctx, hrel⟩ := flattenedEnd?_mirrors hN hcut c hc
  -- where no flattened element is closed nothing is read, so it is still before the end
  have hflattened : Mirror (flattenedEnd? base) (flattenedEnd? base) c fun r r' d =>
      (I d ∧ Option.Rel N r r') ∧ (r = none → d = c) := ⟨hctx, hrel, flattenedEnd?_none base c⟩
  refine hflattened.bind ?_
  rintro _ _ d ⟨⟨hd, h | h⟩, hnone⟩
  · exact ⟨rfl, hd, .some h⟩
  · obtain rfl := hnone rfl
    exact hp d hd fun hnil => hend (List.isEmpty_iff.2 hnil)

/-- What one node of content is, if the cursor does not stand at code or at an element. What holds
after those may depend on the context. -/
theorem content_mirror {c : Context} {Q : Node → Node → Context → Prop} (hc : I c)
    (hQ : ∀ n n' d, I d → N n n' → Q n n' d) (hcode : c.atTransition = true → Mirror code code' c Q)
    (helement : Mirror element element' c Q) : Mirror (content code element) (content code' element') c Q := by
  have hends : ∀ {p : Parse Node}, Mirrors I N p p → Mirror p p c Q :=
    fun hp => ⟨(hp c hc).1, hQ _ _ _ (hp c hc).2.1 (hp c hc).2.2⟩
  have hclosed : ∀ {p : Parse Node}, Textual Closed p → Mirror p p c Q :=
    fun hp => hends ((hp.carries hN).imp fun _ _ h => h.2)
  refine Mirror.get_bind (Mirror.ite hcode fun _ => Mirror.ite (fun _ => ?_) fun _ => hclosed contentText_textual)
  refine Mirror.get_bind (Mirror.ite (fun _ => ?_) fun _ => Mirror.ite (fun _ => ?_) fun _ =>
    Mirror.ite (fun _ => ?_) fun _ => Mirror.ite (fun _ => hends (orphanEnd_mirrors hN)) fun _ => helement)
  · exact hclosed (region_textual (.inl rfl))
  · exact hclosed (region_textual (.inr rfl))
  · exact hclosed declaration_textual

variable (hcode : CodeMirrors I N code code') (helement : ElementMirrors I N element element')

include hcode helement

/-- **Content.** -/
theorem content_mirrors {c : Context} (hc : I c) (hrest : c.rest ≠ []) :
    Mirror (do return some (← content code element)) (do return some (← content code' element')) c
      fun r r' d => I d ∧ Option.Rel N r r' := by
  have hcontent := content_mirror hN hc (fun _ _ _ hd h => ⟨hd, h⟩) (hcode c hc) (helement c hc hrest)
  exact hcontent.bind_mirrors fun _ _ h => .pure (.some h)

theorem documentPart_mirrors {base : ℕ}
    (hcut : ∀ k, base ≤ k → ∀ c, I c → I (c.truncateFlattened k)) :
    Mirrors I (Option.Rel N) (documentPart code element base) (documentPart code' element' base) := by
  exact turn_mirrors hN hcut fun c => content_mirrors hN hcode helement

/-- Content goes on up to the end tag of the element. -/
theorem elementPart_mirrors (name : Text) {base : ℕ}
    (hcut : ∀ k, base ≤ k → ∀ c, I c → I (c.truncateFlattened k)) :
    Mirrors I (Option.Rel N) (elementPart code element name base)
      (elementPart code' element' name base) := by
  refine turn_mirrors hN hcut fun c hc hrest => Mirror.get_bind ?_
  have hcontent := content_mirrors hN hcode helement hc hrest
  split
  · exact Mirror.ite (fun _ => ⟨rfl, hc, .none⟩) fun _ => hcontent
  · exact hcontent

/-- The invariants inside an element of a name that starts in `c`: `J` in its content and
`K` once the elements that were flattened in it are closed. -/
structure Opens (I : Context → Prop) (name : Text) (c : Context) (J K : Context → Prop) :
    Prop where
  push : J (c.pushElement name)
  cut : ∀ k, c.flattenedCount ≤ k → ∀ d, J d → J (d.truncateFlattened k)
  close : ∀ d, J d → K (d.truncateFlattened c.flattenedCount)
  steady : Steady K
  pop : ∀ d, K d → I d.popElement

omit hN hcode helement in
theorem opens_true (name : Text) (c : Context) : Opens (fun _ => True) name c (fun _ => True) fun _ => True :=
  ⟨trivial, fun _ _ _ _ => trivial, fun _ _ => trivial, steady_true, fun _ _ => trivial⟩

/-- **Documents.** -/
theorem document_mirrors (hcut : ∀ k c, I c → I (c.truncateFlattened k))
    (hdocument : ∀ {ns ns'}, Forall₂ N ns ns' → M (.ofChildren .document ns) (.ofChildren .document ns')) :
    Mirrors I M (document code element) (document code' element') := by
  refine .get_bind fun c _ => ?_
  refine (manyNodes_mirrors (documentPart_mirrors hN hcode helement fun k _ => hcut k)).bind
    fun ns ns' hns => ?_
  have hclose : Mirrors I (fun _ _ => True) (closeFlattened c.flattenedCount)
      (closeFlattened c.flattenedCount) :=
    fun d hd => closeFlattened_mirror hN.toSteady (hcut _ d hd)
  exact hclose.bind fun _ _ _ => .pure (hdocument hns)

end Content

/-! ## Elements -/

/-- Both read the end tag, or both miss it. -/
theorem elementEnd_mirrors (hN : Carries I N) (name : Text) (place : Option Location) :
    Mirrors I (Forall₂ N) (elementEnd name place) (elementEnd name place) := by
  refine .get_bind fun c _ => .ite ?_ ?_
  · exact (endTag_mirrors hN).bind fun a a' ha => .pure (.cons ha.2 .nil)
  · exact Mirrors.bind (.get_bind fun d _ => report_mirrors hN.toSteady _ _) fun _ _ _ => .pure .nil

section Elements

variable {code code' element element' : Parse Node}

/-- The content of an element, under the invariants that hold in it. -/
theorem elementContent_mirror {c : Context} {J K : Context → Prop} {name : Text}
    (place : Option Location) (hopens : Opens I name c J K) (hJ : Carries J N)
    (hcode : CodeMirrors J N code code') (helement : ElementMirrors J N element element') :
    Mirror (elementContent code element name place) (elementContent code' element' name place) c
      fun ns ns' d => I d ∧ Forall₂ N ns ns' := by
  have hK : Carries K N := { hopens.steady with closed := hJ.closed }
  have hpart := elementPart_mirrors hJ hcode helement name hopens.cut
  have hloop := manyNodes_mirrors hpart (c.pushElement name) hopens.push
  refine Mirror.modify_bind (Mirror.get_bind (Mirror.bind hloop fun ns ns' d hd => ?_))
  refine (closeFlattened_mirror hopens.steady (hopens.close d hd.1)).bind fun _ _ e he => ?_
  refine (elementEnd_mirrors hK name place e he.1).bind fun last last' e' hlast => ?_
  exact ⟨rfl, hopens.pop e' hlast.1, List.rel_append hd.2 hlast.2⟩

/-- Raw text. There is code in scripts only. -/
theorem rawTextContent_mirrors (hN : Carries I N) (name : Text)
    (hcode : Html.isScript name = true → CodeMirrors I N code code') :
    Mirrors I (Forall₂ N) (rawTextContent code name) (rawTextContent code' name) := by
  have hpart : Mirrors I (Option.Rel N) (rawTextPart code name) (rawTextPart code' name) := by
    intro c hc
    have htoken := fun n => (token_mirrors hN (k := .rawText) rfl n).bind_some
    refine Mirror.get_bind (Mirror.ite (fun _ => ⟨rfl, hc, .none⟩) fun _ => Mirror.ite (fun h => ?_) fun _ => ?_)
    · obtain ⟨hscript, ht⟩ := Bool.and_eq_true_iff.1 h
      exact (hcode hscript c hc ht).bind fun _ _ d hd => ⟨rfl, hd.1, .some hd.2⟩
    · exact htoken _ c hc
  refine (manyNodes_mirrors hpart).bind fun ns ns' hns => .get_bind fun c _ => .ite ?_ ?_
  · exact (reportHere_mirrors hN.toSteady _).bind fun _ _ _ => .pure hns
  · refine (endTag_mirrors hN).bind fun a a' ha => .pure ?_
    exact List.rel_append hns (.cons ha.2 .nil)

/-- **Elements**, whose content and raw text are related. Neither starts before the bracket has been
read. -/
theorem nestedElement_mirror {O : Node → Node → Prop} (hW : Weave I N)
    (hcode : CodeMirrors I N code code')
    (hvoid : ∀ {o o'}, OpeningsMatch N o o' → O (.ofChildren o.kind [o.tag]) (.ofChildren o'.kind [o'.tag]))
    (hraw : ∀ {o o' name}, OpeningsMatch N o o' → o.name = some name → Html.isRawText name = true →
      Mirrors I (fun ns ns' => O (.ofChildren o.kind (o.tag :: ns)) (.ofChildren o'.kind (o'.tag :: ns')))
      (rawTextContent code name) (rawTextContent code' name))
    (hcontent : ∀ {o o' name}, OpeningsMatch N o o' → o.name = some name → Html.isRawText name = false →
      Mirrors I (fun ns ns' => O (.ofChildren o.kind (o.tag :: ns)) (.ofChildren o'.kind (o'.tag :: ns')))
      (elementContent code element name o.place) (elementContent code' element' name o.place))
    {c : Context} (hc : I (c.read 1).2) :
    Mirror (nestedElement code element) (nestedElement code' element') c fun n n' d => I d ∧ O n n' := by
  refine (opening_mirror hW hcode hc).bind_mirrors fun o o' ho => ?_
  rw [ho.contentName?, ho.place]
  split
  case h_1 => exact .pure (hvoid ho)
  case h_2 name hsome =>
    have hsome : o.name = some name := (Option.filter_eq_some_iff.1 hsome).1
    by_cases hr : Html.isRawText name = true
    · rw [if_pos hr, if_pos hr]
      exact (hraw ho hsome hr).bind fun ns ns' h => .pure h
    · rw [if_neg hr, if_neg hr]
      exact (hcontent ho hsome (by simpa using hr)).bind fun ns ns' h => .pure h

/-- Elements past the nesting limit. -/
theorem flatElement_mirrors {O : Node → Node → Prop} (hW : Weave I N)
    (hcode : CodeMirrors I N code code')
    (hpush : ∀ c d o name, I c → opening code c = (o, d) → I d → o.name = some name →
      I (d.pushFlattened name o.place))
    (hvoid : ∀ {o o'}, OpeningsMatch N o o' → O (.ofChildren o.kind [o.tag]) (.ofChildren o'.kind [o'.tag]))
    (hraw : ∀ {o o' name}, OpeningsMatch N o o' → o.name = some name → Html.isRawText name = true →
      Mirrors I (fun ns ns' => O (.ofChildren o.kind (o.tag :: ns)) (.ofChildren o'.kind (o'.tag :: ns')))
      (rawTextContent code name) (rawTextContent code' name)) :
    Mirrors I O (flatElement code) (flatElement code') := by
  refine .modify_bind (fun c hc => hW.tooDeep hc) fun c hc => ?_
  obtain ⟨hctx, hd, ho⟩ := opening_mirrors hW hcode c hc
  have hopening : Mirror (opening code) (opening code') c fun o o' d =>
      (I d ∧ OpeningsMatch N o o') ∧ opening code c = (o, d) := ⟨hctx, ⟨hd, ho⟩, rfl⟩
  refine hopening.bind fun o o' d ⟨⟨hd, ho⟩, heq⟩ => ?_
  rw [ho.contentName?, ho.place]
  split
  case h_1 => exact ⟨rfl, hd, hvoid ho⟩
  case h_2 name hsome =>
    have hsome : o.name = some name := (Option.filter_eq_some_iff.1 hsome).1
    refine Mirror.ite (fun hr => ?_) fun _ => ?_
    · exact (hraw ho hsome hr d hd).bind fun ns ns' e he => ⟨rfl, he⟩
    · exact Mirror.modify_bind ⟨rfl, hpush c d o name hc heq hd hsome, hvoid ho⟩

end Elements

end Parse

end Stencil
