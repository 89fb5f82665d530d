import Stencil.Proofs.Cursor
import Stencil.Proofs.Shape

/-!
# Two runs side by side

`Alike R p q c d`: the steps `p` and `q`, started in the contexts `c` and `d`, give
the same result and end in contexts that `R` relates. `Twins R` says what `R` must
have for that: its contexts stand at the same place of the same text, and it is
kept by reading on and by reporting, on both sides alike.

A step that looks only at the text and does nothing but read and report is then alike
to itself in twin contexts, whatever else they hold. `Textual Q p` says so, and that
the results of `p` have `Q`. The nodes that such steps build hold no code and no
elements (`Node.Closed`), but for expressions, which are code.

* `many_alike`: **turn by turn** two loops give the same nodes.
* `endTag_textual`, `region_textual`, `declaration_textual`, `contentText_textual`: what is read
  without a look at anything but the text.
-/

namespace Stencil

/-- The relation holds between contexts at the same place of the same text, and
reading on and reporting keep it. -/
structure Twins (R : Context → Context → Prop) : Prop where
  before : ∀ {c d}, R c d → d.before = c.before
  rest : ∀ {c d}, R c d → d.rest = c.rest
  pos : ∀ {c d}, R c d → d.pos = c.pos
  transition : ∀ {c d}, R c d → d.transition = c.transition
  read : ∀ {c d}, R c d → ∀ n, R (c.read n).2 (d.read n).2
  report : ∀ {c d}, R c d → ∀ x, R (c.report x) (d.report x)

/-- The text and the place of `c`, with all else as in `d`. -/
def Context.placedIn (c d : Context) : Context :=
  { d with before := c.before, rest := c.rest, pos := c.pos, transition := c.transition }

/-- What depends on nothing but the text is the same for twins. -/
theorem Twins.same {α : Type} {R : Context → Context → Prop} (hR : Twins R) {f : Context → α}
    (hf : ∀ c d : Context, f (c.placedIn d) = f c) {c d : Context} (h : R c d) : f d = f c := by
  have hd : d = c.placedIn d := by
    rw [Context.placedIn, ← hR.before h, ← hR.rest h, ← hR.pos h, ← hR.transition h]
  rw [hd, hf]

namespace Parse

variable {α β σ : Type} {R : Context → Context → Prop} {c d : Context}

/-- The two steps give the same result and end in related contexts. -/
def Alike (R : Context → Context → Prop) (p q : Parse α) (c d : Context) : Prop :=
  (p c).1 = (q d).1 ∧ R (p c).2 (q d).2

namespace Alike

theorem pure (h : R c d) (a : α) : Alike R (pure a) (pure a) c d := ⟨rfl, h⟩

/-- Two runs that are alike up to here and from here on. -/
theorem bind {p q : Parse α} {f g : α → Parse β} (hp : Alike R p q c d)
    (hf : ∀ a c' d', R c' d' → Alike R (f a) (g a) c' d') : Alike R (p >>= f) (q >>= g) c d := by
  show Alike R (f (p c).1) (g (q d).1) (p c).2 (q d).2
  rw [← hp.1]; exact hf _ _ _ hp.2

/-- What each run looks at is its own context. -/
theorem get_bind {f g : Context → Parse β} (h : Alike R (f c) (g d) c d) :
    Alike R (get >>= f) (get >>= g) c d := h

end Alike

/-- The results of the two steps and the contexts after them fulfil `Q`. -/
def Both (p : Parse α) (q : Parse β) (c d : Context) (Q : α → Context → β → Context → Prop) : Prop :=
  Q (p c).1 (p c).2 (q d).1 (q d).2

/-- A change of the first context alone. -/
theorem Both.modify_left {g : Context → Context} {f : Unit → Parse α} {q : Parse β}
    {Q : α → Context → β → Context → Prop} (h : Both (f ()) q (g c) d Q) :
    Both (modify g >>= f) q c d Q := h

/-- A change of the second context alone. -/
theorem Both.modify_right {g : Context → Context} {p : Parse α} {f : Unit → Parse β}
    {Q : α → Context → β → Context → Prop} (h : Both p (f ()) c (g d) Q) :
    Both p (modify g >>= f) c d Q := h

theorem Both.get_bind {f : Context → Parse α} {g : Context → Parse β}
    {Q : α → Context → β → Context → Prop} (h : Both (f c) (g d) c d Q) :
    Both (get >>= f) (get >>= g) c d Q := h

/-- Two runs that take the same branch. -/
theorem Both.ite {P Q : Prop} [Decidable P] [Decidable Q] {p p' : Parse α} {q q' : Parse β}
    {T : α → Context → β → Context → Prop} (hPQ : Q ↔ P) (hp : P → Both p q c d T)
    (hn : ¬ P → Both p' q' c d T) : Both (if P then p else p') (if Q then q else q') c d T := by
  by_cases hP : P
  · rw [if_pos hP, if_pos (hPQ.2 hP)]; exact hp hP
  · rw [if_neg hP, if_neg fun hQ => hP (hPQ.1 hQ)]; exact hn hP

/-- Two runs that are alike up to here may go on in their own ways. -/
theorem Alike.both_bind {γ : Type} {p q : Parse α} {f : α → Parse β} {g : α → Parse γ}
    {Q : β → Context → γ → Context → Prop} (hp : Alike R p q c d)
    (hf : ∀ a c' d', R c' d' → Both (f a) (g a) c' d' Q) : Both (p >>= f) (q >>= g) c d Q := by
  show Both (f (p c).1) (g (q d).1) (p c).2 (q d).2 Q
  rw [← hp.1]; exact hf _ _ _ hp.2

/-- What is known of the second run is known after a step that both make. -/
theorem Alike.both_bind_ends {γ : Type} {p q : Parse α}
    {f : α → Parse β} {g : α → Parse γ} {E : α → Context → Prop} {Q : β → Context → γ → Context → Prop}
    (hp : Alike R p q c d) (hq : Ends q d E)
    (hf : ∀ a c' d', R c' d' → E a d' → Both (f a) (g a) c' d' Q) : Both (p >>= f) (q >>= g) c d Q := by
  show Both (f (p c).1) (g (q d).1) (p c).2 (q d).2 Q
  have hE : E (p c).1 (q d).2 := by rw [hp.1]; exact hq
  rw [← hp.1]
  exact hf _ _ _ hp.2 hE

theorem Alike.ite {P Q : Prop} [Decidable P] [Decidable Q] {p q p' q' : Parse α} (hPQ : Q ↔ P)
    (hp : P → Alike R p q c d) (hn : ¬ P → Alike R p' q' c d) :
    Alike R (if P then p else p') (if Q then q else q') c d :=
  Both.ite (T := fun a c b d => a = b ∧ R c d) hPQ hp hn

/-! ## Loops -/

section

variable (hR : Twins R)

include hR

/-- **Turn by turn** two loops give the same nodes. -/
theorem many_alike (h : R c d) {step step' : σ → Parse (Option (Node × σ))}
    (hstep : ∀ s c d, R c d → Alike R (step s) (step' s) c d) (s : σ) :
    Alike R (many step s) (many step' s) c d := by
  induction s, c using many.induct step generalizing d with
  | case1 s c e hs =>
    obtain ⟨h1, h2⟩ := hstep s c d h
    rw [hs] at h1 h2
    unfold Alike
    rw [many, many, hs, ← Prod.eta (step' s d), ← h1]
    exact ⟨rfl, h2⟩
  | case2 s c n s' e hs hlt rest last e' hrest ih =>
    obtain ⟨h1, h2⟩ := hstep s c d h
    rw [hs] at h1 h2
    -- the guard of the loop sees the same lengths on both sides
    have hlt' : (step' s d).2.rest.length < d.rest.length := by rw [hR.rest h2, hR.rest h]; exact hlt
    obtain ⟨h3, h4⟩ := ih h2
    unfold Alike
    rw [many, many, hs, ← Prod.eta (step' s d), ← h1]
    simp only [dif_pos hlt, dif_pos hlt']
    refine ⟨?_, h4⟩
    show (n :: (many step s' e).1.1, (many step s' e).1.2) = _
    rw [h3]; rfl
  | case3 s c n s' e hs hlt =>
    obtain ⟨h1, h2⟩ := hstep s c d h
    rw [hs] at h1 h2
    have hlt' : ¬ (step' s d).2.rest.length < d.rest.length := by rw [hR.rest h2, hR.rest h]; exact hlt
    unfold Alike
    rw [many, many, hs, ← Prod.eta (step' s d), ← h1]
    simp only [dif_neg hlt, dif_neg hlt', true_and]
    exact h2

end

end Parse

/-! ## Nodes without code -/

/-- Nodes of these kinds hold no embedded code and no elements. -/
def Kind.isClosed (k : Kind) : Bool :=
  !(k.isElement || k matches document | htmlStartTag | htmlAttributes | htmlAttribute |
    attributeValue | codeBlock | codeBrace | codeExpression)

/-- A node in which there is no embedded code and no element. -/
inductive Node.Closed : Node → Prop
  | leaf {k : Kind} (v : Leaf) (l : Location) (t : Trivia) : k.isClosed = true → Closed (.leaf k v l t)
  | group {k : Kind} {ns : List Node} (t : Trivia) : k.isGroup = true → (∀ n ∈ ns, Closed n) →
    Closed (.branch k ns t)

/-- Blanks around a node are no code. -/
theorem Node.Closed.withTrivia {n : Node} (h : n.Closed) (t : Trivia) : (n.withTrivia t).Closed := by
  cases h with
  | leaf v l _ hk => exact .leaf v l t hk
  | group _ hk hns => exact .group t hk hns

namespace Parse

/-! ## Steps that look at nothing but the text -/

/-- The step looks only at the text and does nothing but read and report. Its results have `Q`. -/
structure Textual (Q : α → Prop) (p : Parse α) : Prop where
  alike : ∀ {R : Context → Context → Prop}, Twins R → ∀ {c d}, R c d → Alike R p p c d
  gives : ∀ c, Q (p c).1

namespace Textual

variable {Q : α → Prop} {S : β → Prop} {p : Parse α}

theorem pure {a : α} (h : Q a) : Textual Q (pure a) :=
  ⟨fun _ _ _ h => .pure h a, fun _ => h⟩

theorem bind {f : α → Parse β} (hp : Textual Q p) (hf : ∀ a, Q a → Textual S (f a)) :
    Textual S (p >>= f) where
  alike hR c _ h := by
    obtain ⟨heq, hnext⟩ := hp.alike hR h
    have hcontinue := (hf _ (hp.gives c)).alike hR hnext
    rw [Alike, bind_apply, bind_apply, ← heq]
    exact hcontinue
  gives c := (hf _ (hp.gives c)).gives (p c).2

/-- What is looked at must not depend on anything but the text. -/
theorem look {f : Context → Parse β} (hf : ∀ c d : Context, f (c.placedIn d) = f c) (h : ∀ c, Textual S (f c)) :
    Textual S (get >>= f) where
  alike hR c d hcd := by
    refine Alike.get_bind ?_
    rw [hR.same hf hcd]
    exact (h c).alike hR hcd
  gives c := (h c).gives c

theorem ite {P : Prop} [Decidable P] {q : Parse α} (hp : Textual Q p) (hq : Textual Q q) :
    Textual Q (if P then p else q) := by
  split
  · exact hp
  · exact hq

theorem forM {f : α → Parse Unit} (hf : ∀ a, Textual (fun _ => True) (f a)) (as : List α) :
    Textual (fun _ => True) (as.forM f) := by
  induction as with
  | nil => exact .pure trivial
  | cons a as ih => exact (hf a).bind fun _ _ => ih

end Textual

/-! ## Single steps -/

/-- A report is made at a given place. -/
theorem report_textual (p : Problem) (l : Location) : Textual (fun _ => True) (report p l) :=
  ⟨fun hR _ _ h => ⟨rfl, hR.report h _⟩, fun _ => trivial⟩

theorem reportHere_textual (p : Problem) : Textual (fun _ => True) (reportHere p) :=
  .look (f := fun c => report p (.empty c.pos)) (fun _ _ => rfl) fun _ => report_textual p _

/-- What is read is the text ahead. -/
theorem read_textual (n : ℕ) : Textual (fun _ => True) (read n) where
  alike hR c d h := by
    refine ⟨?_, hR.read h n⟩
    show (c.read n).1 = (d.read n).1
    rw [Context.read_location, Context.read_location, hR.pos h, hR.rest h]
  gives _ := trivial

/-- **Tokens.** -/
theorem token_textual {k : Kind} (hk : k.isClosed = true) (n : ℕ) : Textual Node.Closed (token k n) :=
  (read_textual n).bind fun _ _ => .pure (.leaf _ _ _ hk)

theorem missing_textual {k : Kind} (hk : k.isClosed = true) : Textual Node.Closed (missing k) :=
  .look (fun _ _ => rfl) fun _ => .pure (.leaf _ _ _ hk)

/-- A token that is not there stands at the cursor. -/
theorem absent_textual {k : Kind} (hk : k.isClosed = true) (w : Wanted) : Textual Node.Closed (absent k w) :=
  .look (fun _ _ => rfl) fun _ => (reportHere_textual _).bind fun _ _ => missing_textual hk

/-- Whether a wanted token is there is seen in the text. -/
theorem expect_textual {k : Kind} (hk : k.isClosed = true) (w : Wanted) : Textual Node.Closed (expect k w) :=
  .look (fun _ _ => rfl) fun _ => .ite (token_textual hk _) (absent_textual hk w)

/-- Blanks are read as far as the text has them. -/
theorem blanks_textual : Textual (fun _ => True) blanks :=
  .look (fun _ _ => rfl) fun _ => .ite (.pure trivial) ((read_textual _).bind fun _ _ => .pure trivial)

/-! ## Code -/

/-- A piece of code, with the reports of what the end of the text cuts off. -/
theorem code_textual (e : Code.Extent) : Textual Node.Closed (code e) :=
  (token_textual rfl _).bind fun _ hn =>
    (Textual.forM (fun _ => reportHere_textual _) _).bind fun _ _ => .pure hn

theorem transitionMarker_textual : Textual Node.Closed transitionMarker :=
  (read_textual 1).bind fun _ _ => .pure (.leaf _ _ _ rfl)

theorem escapedTransition_textual : Textual Node.Closed escapedTransition :=
  (read_textual 2).bind fun _ _ => .look (fun _ _ => rfl) fun _ => .pure (.leaf _ _ _ rfl)

theorem invalidTransition_textual : Textual Node.Closed invalidTransition :=
  (read_textual 1).bind fun _ _ => .look (fun _ _ => rfl) fun _ =>
    (report_textual _ _).bind fun _ _ => .pure (.leaf _ _ _ rfl)

/-- An expression holds nodes without code. -/
def IsExpression (n : Node) : Prop :=
  ∃ cs, n = .ofChildren .codeExpression cs ∧ ∀ m ∈ cs, m.Closed

/-- **Expressions**, which hold a marker and one piece of code. -/
theorem codeExpression_textual : Textual IsExpression codeExpression := by
  refine transitionMarker_textual.bind fun a ha => .look (fun _ _ => rfl) fun c => ?_
  exact (code_textual _).bind fun b hb => .pure ⟨_, rfl, by simp [ha, hb]⟩

/-- What a transition introduces is the same on both sides unless it is a block. -/
theorem embedded_alike (hR : Twins R) (h : R c d) (hblock : c.peek ≠ '{') (body body' : Parse (List Node)) :
    Alike R (embedded body) (embedded body') c d := by
  have hpeek : d.peek = c.peek := hR.same (fun _ _ => rfl) h
  refine Alike.get_bind ?_
  rw [hpeek, hR.transition h]
  refine Alike.ite Iff.rfl (fun _ => escapedTransition_textual.alike hR h) fun _ => ?_
  refine Alike.ite Iff.rfl (fun hb => absurd hb hblock) fun _ => ?_
  exact Alike.ite Iff.rfl (fun _ => codeExpression_textual.alike hR h) fun _ => invalidTransition_textual.alike hR h

/-! ## Regions and text -/

/-- **Comments and the like.** -/
theorem region_textual {r : Region} (hr : r = commentRegion ∨ r = cdataRegion) : Textual Node.Closed (region r) := by
  have hkinds : r.kind.isGroup = true ∧ r.startKind.isClosed = true ∧ r.contentKind.isClosed = true ∧
      r.stopKind.isClosed = true := by
    rcases hr with rfl | rfl <;> decide
  obtain ⟨hgroup, hstart, hcontent, hstop⟩ := hkinds
  have hclosed : ∀ {a b e : Node}, a.Closed → b.Closed → e.Closed → (Node.ofChildren r.kind [a, b, e]).Closed :=
    fun ha hb he => .group _ hgroup (by simp [ha, hb, he])
  refine (token_textual hstart _).bind fun a ha => .look (fun _ _ => rfl) fun c => ?_
  refine (token_textual hcontent _).bind fun b hb => .look (fun _ _ => rfl) fun d => .ite ?_ ?_
  · exact (reportHere_textual _).bind fun _ _ => (missing_textual hstop).bind fun e he => .pure (hclosed ha hb he)
  · exact (token_textual hstop _).bind fun e he => .pure (hclosed ha hb he)

/-- Declarations, with their reports. -/
theorem declaration_textual : Textual Node.Closed declaration := by
  have hreport : ∀ {b : Prop} [Decidable b] {p : Problem} {l : Location} {k : Unit → Parse Node},
      Textual Node.Closed (k ()) → Textual Node.Closed (if b then report p l >>= k else k ()) :=
    fun hk => .ite ((report_textual _ _).bind fun _ _ => hk) hk
  refine .look (fun _ _ => rfl) fun c => (read_textual _).bind fun l _ => ?_
  exact hreport (hreport (.pure (.leaf _ _ _ rfl)))

theorem literalRun_textual (lead : Option Location) : Textual Node.Closed (literalRun lead) := by
  refine .look (fun _ _ => rfl) fun c => (read_textual _).bind fun l _ => ?_
  exact .ite (.pure (.leaf _ _ _ rfl)) (.pure (.leaf _ _ _ rfl))

/-- **Text**, with the blanks on both sides of it. -/
theorem contentText_textual : Textual Node.Closed contentText := by
  refine blanks_textual.bind fun lead _ => .look (fun _ _ => rfl) fun c => .ite ?_ (literalRun_textual lead)
  cases lead with
  | none => exact token_textual rfl 1
  | some l => exact .pure (.leaf _ _ _ rfl)

/-! ## Tags -/

/-- The name of a tag, found or not. -/
theorem tagName_textual : Textual Node.Closed tagName :=
  .look (fun _ _ => rfl) fun _ => .ite (absent_textual rfl _) (token_textual rfl _)

/-- **End tags.** -/
theorem endTag_textual : Textual Node.Closed endTag := by
  refine (token_textual rfl _).bind fun a ha => tagName_textual.bind fun b hb => blanks_textual.bind fun lead _ => ?_
  refine (expect_textual rfl _).bind fun e he => .pure (.group _ rfl ?_)
  have he' : (e.withLead lead).Closed := he.withTrivia _
  simp [ha, hb, he']

/-- The name of an attribute, found or not. -/
theorem attributeName_textual : Textual Node.Closed attributeName :=
  .look (fun _ _ => rfl) fun _ => .ite (absent_textual rfl _) (token_textual rfl _)

/-- A name that was seen before is reported at its own place. -/
theorem checkName_textual (seen : List Text) (name : Node) : Textual (fun _ => True) (checkName seen name) := by
  unfold checkName
  split
  · exact .ite ((report_textual _ _).bind fun _ _ => .pure trivial) (.pure trivial)
  · exact .pure trivial

end Parse

end Stencil
