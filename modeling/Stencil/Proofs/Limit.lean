import Stencil.Proofs.Accounts
import Stencil.Proofs.Congruence

/-!
# A nesting limit that is not met

The nesting limit is reported at most once, when something is first read flat. As long as
it is not reported, it has not been met, and the run under any larger limit is the same
step by step.

`Follows m c p q` relates the parsers of two levels: from `c` on and until `p` reports its limit,
`q` does the same in a context with the limit `m`. Nothing is said about `q` after that, for the
two runs then read different things; only the report must not be forgotten.

* `reportsLimitOnce_account`: the limit is reported once, when it is first met.
* `Level.follows_ofRoom`: **a level with more room follows one with less.**
* `document_stub`: a run that does not meet the limit does without the ground level.
* `parse_limit_unmet`: **a limit that was not met has no effect.**
-/

namespace Stencil

/-! ## The report of the limit -/

/-- Whether the diagnostic reports the nesting limit. -/
def Diagnostic.isTooDeep (x : Diagnostic) : Bool :=
  x.code == .nestingTooDeep

/-- Of the new diagnostics one is about the limit if it was reported between the two
contexts, and none otherwise. -/
def Context.ReportsLimitOnce (c : Context) (_ : List Node) (_ : ℤ) (d : Context) : Prop :=
  ∃ xs, d.diagnostics = c.diagnostics ++ xs ∧
    xs.countP Diagnostic.isTooDeep + c.depthReported.toNat = d.depthReported.toNat

/-- **The limit is reported once** on every trace. -/
theorem reportsLimitOnce_account : Account Context.ReportsLimitOnce where
  refl c := ⟨[], by simp, by simp⟩
  trans := by
    rintro c d e ns ms j k ⟨xs, hxs, h⟩ ⟨ys, hys, h'⟩
    refine ⟨xs ++ ys, by rw [hys, hxs, List.append_assoc], ?_⟩
    rw [List.countP_append]; omega
  read c n := ⟨[], (List.append_nil _).symm, Nat.zero_add _⟩
  pushElement c name := ⟨[], (List.append_nil _).symm, Nat.zero_add _⟩
  popElement c := ⟨[], (List.append_nil _).symm, Nat.zero_add _⟩
  pushFlattened c name l := ⟨[], (List.append_nil _).symm, Nat.zero_add _⟩
  truncate c n := ⟨[], (List.append_nil _).symm, Nat.zero_add _⟩
  tooDeep c := by
    unfold Context.reportTooDeep
    split
    case isTrue h => exact ⟨[], (List.append_nil _).symm, Nat.zero_add _⟩
    case isFalse h => exact ⟨[_], rfl, by simp [h, Diagnostic.isTooDeep, Problem.located, Problem.code]⟩
  report c l p _ hp := ⟨[_], rfl, by simp [Diagnostic.isTooDeep, Problem.located, hp, Context.report]⟩
  absent c k p hp := by
    have hcode : p.code ≠ .nestingTooDeep := by rintro h; rw [h] at hp; cases hp
    exact ⟨[_], rfl, by simp [Diagnostic.isTooDeep, Problem.located, hcode, Context.report]⟩
  leaf c _ _ _ _ _ _ := ⟨[], (List.append_nil _).symm, Nat.zero_add _⟩
  branch _ h := h
  trivia _ h := h

/-- The limit is reported in the diagnostics of a template exactly if the context says so. -/
theorem Template.countP_isTooDeep (options : ParseOptions) (t : Text) :
    (Template.document options t).2.diagnostics.countP Diagnostic.isTooDeep =
      (Template.document options t).2.depthReported.toNat := by
  obtain ⟨xs, hxs, hcount⟩ := Template.document_accounted reportsLimitOnce_account options t
  have hnone : (Context.atDocument options t).diagnostics = [] := rfl
  have hstart : (Context.atDocument options t).depthReported = false := rfl
  rw [hxs, hnone, List.nil_append, ← hcount, hstart]
  rfl

/-! ## Two runs until the limit is reported -/

/-- The context under another limit. -/
def Context.withLimit (c : Context) (m : ℕ) : Context :=
  { c with maxDepth := m }

/-- After a report it is known to have been made. -/
theorem Context.depthReported_reportTooDeep (c : Context) : c.reportTooDeep.depthReported = true := by
  unfold reportTooDeep
  split
  case isTrue h => exact h
  case isFalse => rfl

/-- The limit plays no part in reading. -/
theorem twins_withLimit (m : ℕ) : Twins fun c d => d = c.withLimit m where
  before h := by rw [h]; rfl
  rest h := by rw [h]; rfl
  pos h := by rw [h]; rfl
  transition h := by rw [h]; rfl
  read h n := by rw [h]; rfl
  report h x := by rw [h]; rfl

theorem twins_reported : Twins fun c d => d = c ∧ c.depthReported = true where
  before h := by rw [h.1]
  rest h := by rw [h.1]
  pos h := by rw [h.1]
  transition h := by rw [h.1]
  read h n := ⟨by rw [h.1], h.2⟩
  report h x := ⟨by rw [h.1], h.2⟩

namespace Parse

variable {α β σ : Type} {m : ℕ}

/-- From `c` on, `q` does what `p` does, under the limit `m` and until `p` reports its limit; and `p`
does not forget the report. -/
structure Follows (m : ℕ) (c : Context) (p q : Parse α) : Prop where
  persists : c.depthReported = true → (p c).2.depthReported = true
  agrees : (p c).2.depthReported = false → q (c.withLimit m) = ((p c).1, (p c).2.withLimit m)

namespace Follows

variable {c : Context}

/-- One after the other. -/
theorem bind {p q : Parse α} {f g : α → Parse β} (hp : Follows m c p q)
    (hf : ∀ a d, Follows m d (f a) (g a)) : Follows m c (p >>= f) (q >>= g) where
  persists hc := (hf _ _).persists (hp.persists hc)
  agrees hc := by
    have hmid : (p c).2.depthReported = false := by
      by_contra h
      have hend := (hf (p c).1 (p c).2).persists (eq_true_of_ne_false h)
      rw [bind_apply, hend] at hc
      cases hc
    rw [bind_apply, hp.agrees hmid]
    exact (hf _ _).agrees hc

/-- What is looked at must not depend on the limit. -/
theorem get_bind {f g : Context → Parse β} (hg : g (c.withLimit m) = g c) (hf : Follows m c (f c) (g c)) :
    Follows m c (get >>= f) (get >>= g) where
  persists hc := hf.persists hc
  agrees hc := by
    rw [bind_apply, get_apply]
    simp only [hg]
    exact hf.agrees hc

theorem modify_bind {h : Context → Context} {f g : Unit → Parse β}
    (hreported : (h c).depthReported = c.depthReported) (hlimit : h (c.withLimit m) = (h c).withLimit m)
    (hf : Follows m (h c) (f ()) (g ())) : Follows m c (modify h >>= f) (modify h >>= g) where
  persists hc := hf.persists (by rw [hreported, hc])
  agrees hc := by
    rw [bind_apply, modify_apply]
    simp only [hlimit]
    exact hf.agrees hc

/-- What always reports the limit is followed by anything. -/
theorem of_reports {p q : Parse α} (h : Ends p c fun _ d => d.depthReported = true) : Follows m c p q :=
  ⟨fun _ => h, fun hc => by rw [show (p c).2.depthReported = true from h] at hc; cases hc⟩

/-- **A loop follows a loop if each turn does.** -/
theorem many {step step' : σ → Parse (Option (Node × σ))} (hstep : ∀ s c, Follows m c (step s) (step' s))
    (s : σ) : Follows m c (Parse.many step s) (Parse.many step' s) := by
  have hpersists : ∀ s c, c.depthReported = true → (Parse.many step s c).2.depthReported = true := by
    intro s c hc
    refine Ends.many (fun _ _ d => d.depthReported = true) ?_ ?_ hc
    · intro ns s c d hc hs
      simpa [hs] using (hstep s c).persists hc
    · intro ns s c n s' d hc hs
      simpa [hs] using (hstep s c).persists hc
  refine ⟨hpersists s c, ?_⟩
  induction s, c using Parse.many.induct step with
  | case1 s c d hs =>
    intro hc
    have hmany : Parse.many step s c = (([], s), d) := by rw [Parse.many, hs]
    rw [hmany] at hc ⊢
    rw [Parse.many, (hstep s c).agrees (by rw [hs]; exact hc), hs]
  | case2 s c n s' d hs hlt rest last e hrest ih =>
    intro hc
    have hmany : Parse.many step s c = ((n :: rest, last), e) := by
      rw [Parse.many, hs]; simp only [dif_pos hlt, hrest]
    rw [hmany] at hc ⊢
    rw [hrest] at ih
    -- had this turn reported the limit, the loop would have as well
    have hd : d.depthReported = false := by
      by_contra h
      have hend := hpersists s' d (eq_true_of_ne_false h)
      rw [hrest] at hend
      exact absurd (hend.symm.trans hc) (by decide)
    have hlt' : (d.withLimit m).rest.length < (c.withLimit m).rest.length := hlt
    rw [Parse.many, (hstep s c).agrees (by rw [hs]; exact hd), hs]
    simp only [dif_pos hlt', ih hc]
  | case3 s c n s' d hs hlt =>
    intro hc
    have hmany : Parse.many step s c = (([n], s'), d) := by
      rw [Parse.many, hs]; simp only [dif_neg hlt]
    rw [hmany] at hc ⊢
    have hlt' : ¬ (d.withLimit m).rest.length < (c.withLimit m).rest.length := hlt
    rw [Parse.many, (hstep s c).agrees (by rw [hs]; exact hc), hs]
    simp only [dif_neg hlt']

end Follows

/-- What only looks at the text does not depend on the limit. -/
theorem Textual.follows {Q : α → Prop} {p : Parse α} (hp : Textual Q p) {c : Context} : Follows m c p p where
  persists hc := (hp.alike twins_reported ⟨rfl, hc⟩).2.2
  agrees _ := by
    obtain ⟨hresult, hcontext⟩ := hp.alike (twins_withLimit m) (c := c) (d := c.withLimit m) rfl
    exact Prod.ext hresult.symm hcontext

/-- **Whatever the grammar puts together follows** if its parts do. -/
theorem follows_congruence (m : ℕ) : Congruence fun c _ => Follows m c where
  textual := Textual.follows
  bind := .bind
  look hg hf c := .get_bind (hg c (c.withLimit m)) (hf c)
  many hstep s _ := .many hstep s
  ask hg hf c := .get_bind (hg c { c.tuning with maxDepth := m }) (hf c)
  modify_bind hk hf c := by
    have htuning := Context.tuning_eq hk c
    refine .modify_bind (congrArg Context.Tuning.depthReported htuning) ?_ (hf _)
    refine (hk c { c.tuning with maxDepth := m }).trans ?_
    rw [← htuning]
    rfl

/-! ## What is read flat -/

section

variable {code : Parse Node}

theorem Follows.reports {p : Parse α} {c : Context} (h : Follows 0 c p p) (hc : c.depthReported = true) :
    Ends p c fun _ d => d.depthReported = true :=
  h.persists hc

theorem flatBody_reports (c : Context) : Ends flatBody c fun _ d => d.depthReported = true := by
  have hF := follows_congruence 0
  refine Ends.modify_bind (Follows.reports ?_ c.depthReported_reportTooDeep)
  refine hF.look (fun _ _ => rfl) fun c => hF.bind (hF.textual (code_textual _)) fun value _ => ?_
  exact hF.bind (hF.expect rfl _) fun closing _ => hF.pure _

/-- An element past the limit reports it. -/
theorem flatElement_reports (hcode : ∀ c, Follows 0 c code code) (c : Context) :
    Ends (flatElement code) c fun _ d => d.depthReported = true := by
  have hF := follows_congruence 0
  refine Ends.modify_bind (Follows.reports ?_ c.depthReported_reportTooDeep)
  refine hF.bind (hF.opening fun c _ => hcode c) fun o _ => ?_
  split
  · exact hF.pure _
  · split
    · exact hF.bind (hF.rawTextContent (fun c _ => hcode c) _) fun rest _ => hF.pure _
    · refine hF.modify_bind (fun _ _ => rfl) fun _ => ?_
      exact hF.pure _

end

end Parse

/-! ## Levels of nesting -/

/-- Each parser of the second level follows that of the first under the limit `m`. -/
structure Level.Follows (m : ℕ) (l l' : Level) : Prop where
  code : ∀ c, Parse.Follows m c l.code l'.code
  element : ∀ c, Parse.Follows m c l.element l'.element
  body : ∀ c, Parse.Follows m c l.body l'.body

namespace Level

variable {m : ℕ}

/-- What the ground level reads flat, it reports. -/
theorem follows_ground {l : Level} {body : Parse (List Node)} (h : l.code = Parse.embedded body) :
    ground.Follows m l := by
  have hcode : ∀ {m body} c, Parse.Follows m c (Parse.embedded Parse.flatBody) (Parse.embedded body) :=
    fun _ => (Parse.follows_congruence _).embedded fun c => .of_reports (Parse.flatBody_reports c)
  exact ⟨by rw [h]; exact hcode, fun c => .of_reports (Parse.flatElement_reports hcode c),
    fun c => .of_reports (Parse.flatBody_reports c)⟩

/-- One level more on both sides. -/
theorem Follows.above {inner inner' : Unit → Level} (h : (inner ()).Follows m (inner' ())) :
    (Level.above inner).Follows m (Level.above inner') := by
  have hF := Parse.follows_congruence m
  have helement := fun c => hF.nestedElement (c := c) h.code h.element
  exact ⟨fun _ => hF.embedded h.body, helement, fun _ => hF.codeBody h.body helement⟩

/-- **A level with more room follows one with less.** -/
theorem follows_ofRoom (m : ℕ) {room room' : ℕ} (h : room ≤ room') :
    (ofRoom room).Follows m (ofRoom room') := by
  induction room generalizing room' with
  | zero =>
    cases room' with
    | zero => exact follows_ground rfl
    | succ room' => exact follows_ground rfl
  | succ room ih =>
    obtain ⟨room', rfl⟩ := Nat.exists_eq_add_of_le' (Nat.lt_of_lt_of_le room.succ_pos h)
    exact (ih (Nat.le_of_succ_le_succ h)).above

/-! ## Runs that do not reach the ground -/

/-- The level at which `room` more levels may be nested over a given ground. -/
def stacked (base : Level) : ℕ → Level
  | 0 => base
  | room + 1 => above fun _ => stacked base room

/-- Levels on the ground are those of the grammar. -/
theorem stacked_ground (room : ℕ) : stacked ground room = ofRoom room := by
  induction room with
  | zero => rfl
  | succ room ih => rw [stacked, ofRoom, ih]

/-- An element of which there is only the bracket. -/
def stubElement : Parse Node := do
  let bracket ← Parse.token .bracket 1
  let name ← Parse.absent .htmlTagName .tagName
  let close ← Parse.absent .bracket (.bracket ['>'])
  return .ofChildren .htmlTag [.ofChildren .htmlStartTag [bracket, name, .ofChildren .htmlAttributes [], close]]

/-- A body with nothing in it. -/
def stubBody : Parse (List Node) := do
  return [← Parse.absent .brace (.brace '}')]

/-- A ground to stand in for the other one where it is not reached. -/
def stub : Level where
  code := Parse.embedded stubBody
  element := stubElement
  body := stubBody

/-- A stub is an element without a name. -/
theorem stubElement_traces : Parse.TracesElement stubElement := by
  intro c hc
  have hbracket := (Parse.token_gives (k := .bracket) rfl rfl (Parse.cost_read Nat.one_pos hc)).trace
  have hname := (Parse.absent_gives (c := (c.read 1).2) (k := .htmlTagName) (x := .tagName) rfl).trace
  have hattributes := fun d => (Trace.nil d).frame
    (Parse.frames_of_stop?_eq_none (k := .htmlAttributes) rfl rfl (List.forall_mem_nil _))
  have hclose := fun d => (Parse.absent_gives (c := d) (k := .bracket) (x := .bracket ['>']) rfl).trace
  have htag := (hbracket.append (hname.append ((hattributes _).append (hclose _)))).frame
    (Parse.frames_of_stop?_eq_none (k := .htmlStartTag) rfl rfl rfl)
  -- the bracket pays for all of it
  refine ⟨(Trace.empty (o := ⟨_, none, none, false⟩) htag ?_ rfl).le (by omega), rfl, rfl⟩
  exact .of_nameless rfl rfl (Option.some_ne_none _).symm ⟨_, .tail _ (.head _), rfl⟩ rfl

/-- The element has neither a name nor content. -/
theorem stubElement_ends {c : Context} : Parse.Ends stubElement c fun n d =>
    (∃ tag, tag.Closed ∧ n = .ofChildren .htmlTag [tag]) ∧ n.tagName? = none ∧
      ∃ x y, d = ((c.read 1).2.report x).report y := by
  refine ⟨⟨_, ?_, rfl⟩, rfl, _, _, rfl⟩
  have hleaf : ∀ {k : Kind} {v : Leaf} {l : Location}, k.isClosed = true → (Node.leaf k v l {}).Closed := fun h =>
    .leaf _ _ _ h
  refine .group _ rfl ?_
  simp only [List.forall_mem_cons, List.not_mem_nil, false_implies, implies_true, and_true]
  exact ⟨hleaf rfl, hleaf rfl, .group _ rfl (by simp), hleaf rfl⟩

theorem traced_stub : stub.Traced :=
  have hbody : Parse.TracesBody stubBody := fun _ =>
    ⟨(Parse.absent_gives (k := .brace) (x := .brace '}') rfl).trace.le (by omega),
      @Parse.isBody_append [] _ (List.forall_mem_nil _) rfl (.inl rfl)⟩
  ⟨Parse.embedded_traces hbody, stubElement_traces, hbody⟩

/-- **Until the limit is reported, the ground is not reached.** -/
theorem follows_stacked {base : Level} {body : Parse (List Node)} (h : base.code = Parse.embedded body)
    (m room : ℕ) : (ofRoom room).Follows m (stacked base room) := by
  induction room with
  | zero => exact follows_ground h
  | succ room ih => exact ih.above

end Level

/-- A document that does not report the limit is read without the ground. -/
theorem document_stub {options : ParseOptions} (t : Text)
    (h : (Template.document options t).2.depthReported = false) :
    Parse.document (Level.stacked .stub options.maxNestingDepth).code
      (Level.stacked .stub options.maxNestingDepth).element (.atDocument options t) =
        Template.document options t := by
  have hlevels := @Level.follows_stacked .stub _ rfl options.maxNestingDepth options.maxNestingDepth
  have hagrees := ((Parse.follows_congruence _).document (c := .atDocument options t)
    hlevels.code hlevels.element).agrees h
  have hlimit : (Template.document options t).2.withLimit options.maxNestingDepth =
      (Template.document options t).2 := by
    have hmax := (document_moved options t).maxDepth
    show { (Template.document options t).2 with maxDepth := (Context.atDocument options t).maxDepth } = _
    rw [← hmax]
  exact hagrees.trans (Prod.ext rfl hlimit)

section

variable {options : ParseOptions} (t : Text)

/-- Under a larger limit the document is the same, if the limit was not reported. -/
theorem document_limit_unmet {m : ℕ} (hm : options.maxNestingDepth ≤ m)
    (h : (Template.document options t).2.depthReported = false) :
    Template.document { options with maxNestingDepth := m } t =
      ((Template.document options t).1, (Template.document options t).2.withLimit m) := by
  have hlevels := Level.follows_ofRoom m hm
  exact ((Parse.follows_congruence m).document (c := .atDocument options t) hlevels.code hlevels.element).agrees h

/-- **A limit that was not met has no effect.** A template reports its nesting limit at most
once; and if it does not, reading it under any larger limit gives the same nodes and the same
diagnostics. -/
theorem parse_limit_unmet (h : options.language ∈ Registry.standard.languages) :
    ∃ r, Template.parse options t = .ok r ∧ r.diagnostics.countP Diagnostic.isTooDeep ≤ 1 ∧
      (r.diagnostics.countP Diagnostic.isTooDeep = 0 → ∀ m, options.maxNestingDepth ≤ m →
        Template.parse { options with maxNestingDepth := m } t = .ok r) := by
  refine ⟨_, parse_eq_document t h, ?_, fun hnone m hm => ?_⟩
  · rw [Template.countP_isTooDeep]; exact Bool.toNat_le _
  · have hunmet : (Template.document options t).2.depthReported = false := by
      rw [Template.countP_isTooDeep] at hnone
      exact Bool.toNat_eq_zero.1 hnone
    have hparse := @parse_eq_document { options with maxNestingDepth := m } t h
    rw [hparse, document_limit_unmet t hm hunmet]
    rfl

/-- A block and an element in a comment, and an expression after it. -/
def commentedNesting : Text :=
  "<!-- @\x7b <p> --> @name".toList

theorem parse_limit_unmet_zero :
    ({ maxNestingDepth := 0 } : ParseOptions).language ∈ Registry.standard.languages ∧
      ∃ r, Template.parse { maxNestingDepth := 0 } commentedNesting = .ok r ∧
        r.diagnostics.countP Diagnostic.isTooDeep = 0 ∧
        ∀ m, 0 ≤ m → Template.parse { maxNestingDepth := m } commentedNesting = .ok r := by
  obtain ⟨r, hparse, -, hlarger⟩ := @parse_limit_unmet { maxNestingDepth := 0 } commentedNesting
    (by decide)
  have hcount : (Template.parse { maxNestingDepth := 0 } commentedNesting).toOption.map
      (fun r => r.diagnostics.countP Diagnostic.isTooDeep) = some 0 := by decide +kernel
  rw [hparse] at hcount
  have hnone := Option.some.inj hcount
  exact ⟨by decide, r, hparse, hnone, hlarger hnone⟩

end

end Stencil
