import Stencil.Proofs.Congruence
import Stencil.Proofs.Lossless
import Stencil.Proofs.Mirror

/-!
# What reading a document leaves behind

A document can be read in the middle of a text, inside open elements, at any depth and
under flattened elements that somebody else opened. Whatever it opens itself is closed
again when it ends: an element is taken off the stack by the parser that put it there, and a
flattened one is forgotten by the loop around it, which cuts the list back to the length that
it found.

* `Context.Holds`: what a run keeps on the way. Flattened elements may lie on top of those
  that were there, and diagnostics may follow.
* `Level.holding_ofRoom`: **every level keeps what it finds.**
* `Level.counts_ofRoom`: **the depth need not be kept in the context.** Parsers that count
  each level on the way in and on the way out read what those with so much room read, and
  leave the depth as it was.
* `template_restores`: a document read in any context ends at the end of the text, and
  leaves the depth, the open elements and the flattened elements as they were.
-/

namespace Stencil

namespace Context

/-- The second context still holds what the first one had: the same elements are open, and
flattened elements and diagnostics were only added. -/
structure Holds (c d : Context) : Prop where
  transition : d.transition = c.transition
  openElements : d.openElements = c.openElements
  flattened : c.flattened <:+ d.flattened
  diagnostics : c.diagnostics <+: d.diagnostics

variable {c d e : Context}

namespace Holds

theorem refl (c : Context) : c.Holds c := ⟨rfl, rfl, List.suffix_rfl, List.prefix_rfl⟩

/-- Reports leave what is open alone. -/
theorem report (h : c.Holds d) (x : Diagnostic) : c.Holds (d.report x) :=
  { h with diagnostics := h.diagnostics.trans (List.prefix_append _ _) }

theorem reportTooDeep (h : c.Holds d) : c.Holds d.reportTooDeep := by
  unfold Context.reportTooDeep
  split
  · exact h
  · exact { h.report _ with }

/-- What is held is held by all that only reads and reports. -/
theorem steady (c : Context) : Steady c.Holds where
  read h _ := { h with }
  report h x := h.report x
  tooDeep h := h.reportTooDeep

/-- Nor does anything of that change the flattened elements. -/
theorem steady_flattened (c : Context) :
    Steady fun d => c.Holds d ∧ d.flattened = c.flattened where
  read h _ := ⟨{ h.1 with }, h.2⟩
  report h x := ⟨h.1.report x, h.2⟩
  tooDeep {d} h := by
    refine ⟨h.1.reportTooDeep, ?_⟩
    rw [← h.2]; unfold Context.reportTooDeep; split <;> rfl

/-- Elements that were flattened later may be forgotten. -/
theorem truncate (h : c.Holds d) {k : ℕ} (hk : c.flattenedCount ≤ k) : c.Holds (d.truncateFlattened k) :=
  { h with flattened := suffix_truncateFlattened h.flattened hk }

/-- Once they are forgotten, the flattened elements are those of the beginning. -/
theorem truncate_eq (h : c.Holds d) : (d.truncateFlattened c.flattenedCount).flattened = c.flattened :=
  flattened_truncateFlattened h.flattened

end Holds

end Context

open Context

/-! ## Every level keeps what it finds -/

/-- From any context on, the parsers of the level keep what the context holds. -/
structure Level.Holding (l : Level) : Prop where
  code : ∀ c : Context, Parse.Mirrors c.Holds (fun _ _ => True) l.code l.code
  element : ∀ c : Context, Parse.Mirrors c.Holds (fun _ _ => True) l.element l.element
  body : ∀ c : Context, Parse.Mirrors c.Holds (List.Forall₂ fun _ _ => True) l.body l.body

namespace Parse

variable {code element : Parse Node} {body : Parse (List Node)}

theorem weave_holds (c : Context) : Weave c.Holds fun _ _ => True :=
  { Holds.steady c with
    closed := fun _ => trivial, lead := fun _ _ => trivial, group := fun _ _ => trivial }

theorem codeExpression_holds (c : Context) :
    Mirrors c.Holds (fun _ _ => True) codeExpression codeExpression :=
  (codeExpression_textual.mirrors (Holds.steady c)).imp fun _ _ _ => trivial

/-- **Embedded code** keeps what is open if its bodies do. -/
theorem embedded_holds (c : Context) (hbody : Mirrors c.Holds (List.Forall₂ fun _ _ => True) body body) :
    Mirrors c.Holds (fun _ _ => True) (embedded body) (embedded body) :=
  embedded_mirrors (weave_holds c).toCarries (weave_holds c).toCarries (codeExpression_holds c)
    (fun _ => trivial) (hbody.body (Holds.steady c))

theorem flatElement_holds (c : Context) (hcode : Mirrors c.Holds (fun _ _ => True) code code) :
    Mirrors c.Holds (fun _ _ => True) (flatElement code) (flatElement code) := by
  refine flatElement_mirrors (weave_holds c) hcode.code ?_ (fun _ => trivial) fun _ _ _ => ?_
  · intro _ d o name _ _ hd _
    exact { hd with flattened := hd.flattened.trans (List.suffix_cons _ _) }
  · exact (rawTextContent_mirrors (weave_holds c).toCarries _ fun _ => hcode.code).imp fun _ _ _ => trivial

/-- The content of an element pushes the element and pops it again, and what was flattened in
the element goes with it. -/
theorem opens_holds {c d : Context} (h : c.Holds d) (name : Text) :
    Opens c.Holds name d (d.pushElement name).Holds
      fun e => (d.pushElement name).Holds e ∧ e.flattened = d.flattened where
  push := .refl _
  cut k hk e he := he.truncate hk
  close e he := ⟨he.truncate le_rfl, he.truncate_eq⟩
  steady := Holds.steady_flattened (d.pushElement name)
  pop e he :=
    { transition := he.1.transition.trans h.transition
      openElements := by
        show e.openElements.tail = c.openElements
        rw [he.1.openElements, ← h.openElements]; rfl
      flattened := by
        show c.flattened <:+ e.flattened
        rw [he.2]; exact h.flattened
      diagnostics := h.diagnostics.trans he.1.diagnostics }

/-- **Elements** keep what is open: their own name is taken back at the end. -/
theorem nestedElement_holds (hcode : ∀ c : Context, Mirrors c.Holds (fun _ _ => True) code code)
    (helement : ∀ c : Context, Mirrors c.Holds (fun _ _ => True) element element) (c : Context) :
    Mirrors c.Holds (fun _ _ => True) (nestedElement code element) (nestedElement code element) := by
  refine fun d hd => nestedElement_mirror (weave_holds c) (hcode c).code (fun _ => trivial) (fun _ _ _ => ?_)
    (fun {o _ name} _ _ _ d hd => ?_) ((Holds.steady c).read hd 1)
  · exact (rawTextContent_mirrors (weave_holds c).toCarries _ fun _ => (hcode c).code).imp fun _ _ _ => trivial
  · have hinner := weave_holds (d.pushElement name)
    have hcontent := elementContent_mirror o.place (opens_holds hd name) hinner.toCarries
      (hcode _).code (helement _).element
    exact ⟨hcontent.1, hcontent.2.1, trivial⟩

end Parse

/-- **Every level keeps what it finds.** -/
theorem Level.holding_ofRoom (room : ℕ) : (ofRoom room).Holding := by
  induction room with
  | zero =>
    have hbody := fun c => Parse.flatBody_mirrors (Parse.weave_holds c).toCarries
    have hcode := fun c => Parse.embedded_holds c (hbody c)
    exact ⟨hcode, fun c => Parse.flatElement_holds c (hcode c), hbody⟩
  | succ room ih =>
    have helement := Parse.nestedElement_holds ih.code ih.element
    refine ⟨fun c => Parse.embedded_holds c (ih.body c), helement, fun c => ?_⟩
    exact Parse.codeBody_mirrors (Parse.weave_holds c).toCarries (Parse.weave_holds c).toCarries
      (fun _ => trivial) ((ih.body c).body (Holds.steady c)) (helement c).element

/-- A document cuts the flattened elements back to those that it found. -/
theorem document_holds (room : ℕ) (c : Context) :
    Parse.Ends (Parse.document (Level.ofRoom room).code (Level.ofRoom room).element) c
      fun _ d => c.Holds d ∧ d.flattened = c.flattened := by
  have hlevel := Level.holding_ofRoom room
  have hcut : ∀ k, c.flattenedCount ≤ k → ∀ d, c.Holds d → c.Holds (d.truncateFlattened k) :=
    fun k hk d hd => hd.truncate hk
  have hpart := Parse.documentPart_mirrors (Parse.weave_holds c).toCarries (hlevel.code c).code
    (hlevel.element c).element hcut
  have hloop := (Parse.manyNodes_mirrors hpart c (.refl c)).2.1
  refine Parse.Ends.get_bind (Parse.Ends.bind (Q := fun _ d => c.Holds d) hloop fun ns d hd => ?_)
  have hclose := Parse.closeFlattened_mirror (Holds.steady_flattened c) (k := c.flattenedCount)
    ⟨hd.truncate le_rfl, hd.truncate_eq⟩
  exact Parse.Ends.bind (Q := fun _ e => c.Holds e ∧ e.flattened = c.flattened) hclose.2.1 fun _ e he => he

/-! ## Counting the levels in the context -/

namespace Parse

/-- Does something one level deeper, where `enter` counts the level. -/
def deeperBy {α : Type} (enter : Context → Context) (p : Parse α) : Parse α := do
  modify enter
  let a ← p
  modify Context.leaveNested
  return a

/-- Does something one level deeper. -/
def deeper {α : Type} (p : Parse α) : Parse α :=
  deeperBy Context.enterNested p

end Parse

namespace Level

/-- The parsers that count each level in the context, by `enter` on the way in and by one less on the
way out, and ask the context whether one more may be opened. They are good for a depth of up to `fuel`
levels below the limit. -/
def countingBy (enter : Context → Context) : ℕ → Level
  | 0 =>
    let body := Parse.deeperBy enter Parse.flatBody
    ⟨Parse.embedded body, Parse.flatElement (Parse.embedded body), body⟩
  | fuel + 1 =>
    let inner := countingBy enter fuel
    let body := Parse.deeperBy enter do
      if (← get).canNest then Parse.codeBody inner.body inner.element else Parse.flatBody
    { code := Parse.embedded body
      element := do
        if (← get).canNest then Parse.deeperBy enter (Parse.nestedElement inner.code inner.element)
        else Parse.flatElement (Parse.embedded body)
      body }

/-- The parsers that count each level in the context. -/
def counting : ℕ → Level :=
  countingBy Context.enterNested

end Level

/-- The context at another depth. -/
def Context.atDepth (n : ℕ) (c : Context) : Context := { c with depth := n }

/-- A context is at its own depth. -/
theorem Context.atDepth_eq {n : ℕ} {c : Context} (h : c.depth = n) : c.atDepth n = c := by subst h; rfl

/-- The second context is the first one at the depth `n`, and the limit is `m`. -/
structure Context.Deepened (m n : ℕ) (c d : Context) : Prop where
  eq : d = c.atDepth n
  limit : c.maxDepth = m

/-- The contexts differ in their depth only. -/
theorem Context.Deepened.tuned (m n : ℕ) : Parse.Tuned (Deepened m n) where
  retuned {c d} h := ⟨{ c.tuning with depth := n }, h.eq⟩
  change {k} hk c d h := by
    have htuning := Context.tuning_eq hk c
    refine ⟨?_, (congrArg Tuning.maxDepth htuning).trans h.limit⟩
    rw [h.eq]
    refine (hk c { c.tuning with depth := n }).trans ?_
    rw [← htuning]
    rfl
  report h x := ⟨by rw [h.eq]; rfl, h.limit⟩
  tooDeep {c d} h := by
    refine ⟨?_, ?_⟩
    · rw [h.eq]
      cases hc : c.depthReported <;> simp [Context.reportTooDeep, Context.atDepth, Context.report, hc]
    · rw [← h.limit]; unfold Context.reportTooDeep; split <;> rfl

namespace Parse

variable {α : Type} {m n : ℕ}

/-- The second parser, started at the depth `n` under the limit `m`, does what the first one
does, and ends at that depth. -/
def Counts (m n : ℕ) (p q : Parse α) : Prop :=
  ∀ c d, Deepened m n c d → Alike (Deepened m n) p q c d

namespace Counts

/-- One level deeper and back again. -/
theorem deeper {p q : Parse α} (h : Counts m (n + 1) p q) : Counts m n p (deeper q) := by
  intro c d hcd
  obtain ⟨hresult, hcontext⟩ := h c d.enterNested ⟨by rw [hcd.eq]; rfl, hcd.limit⟩
  refine ⟨hresult, ?_, hcontext.limit⟩
  show (q d.enterNested).2.leaveNested = _
  rw [hcontext.eq]; rfl

/-- The context says whether one more level may be opened. -/
theorem canNest {p q q' : Parse α} (hp : n < m → Counts m n p q) (hn : ¬ n < m → Counts m n p q') :
    Counts m n p (get >>= fun c => if c.canNest then q else q') := by
  intro c d h
  have hnest : d.canNest = true ↔ n < m := by
    rw [h.eq, ← h.limit]; exact decide_eq_true_iff
  show Alike _ p (if d.canNest = true then q else q') c d
  split
  case isTrue hd => exact hp (hnest.1 hd) c d h
  case isFalse hd => exact hn (fun hlt => hd (hnest.2 hlt)) c d h

/-- Embedded code counts as its bodies do. -/
theorem embedded {body body' : Parse (List Node)} (hbody : Counts m n body body') :
    Counts m n (embedded body) (embedded body') :=
  fun _ => (Deepened.tuned m n).congruence.embedded hbody

end Counts

/-! ### What is read flat -/

theorem flatBody_counts : Counts m n flatBody flatBody :=
  fun _ => (Deepened.tuned m n).congruence.flatBody fun hf _ _ => (Deepened.tuned m n).reportTooDeep_bind hf

/-- Past the limit nothing is counted. -/
theorem flatElement_counts {code code' : Parse Node} (hcode : Counts m n code code') :
    Counts m n (flatElement code) (flatElement code') :=
  fun _ => (Deepened.tuned m n).congruence.flatElement
    (fun hf _ _ => (Deepened.tuned m n).reportTooDeep_bind hf) hcode

end Parse

/-- **The depth need not be kept in the context.** At the depth `n` there is room for as many
levels as the limit leaves. -/
theorem Level.counts_ofRoom {m n fuel : ℕ} (h : m - n ≤ fuel) :
    Parse.Counts m n (ofRoom (m - n)).code (counting fuel).code ∧
      Parse.Counts m n (ofRoom (m - n)).element (counting fuel).element ∧
      Parse.Counts m n (ofRoom (m - n - 1)).body (counting fuel).body := by
  -- by the fuel, one level deeper each time
  induction fuel generalizing n with
  | zero =>
    have hroom : m - n = 0 := by omega
    rw [hroom]
    have hbody : Parse.Counts m n Parse.flatBody (Parse.deeper Parse.flatBody) := Parse.flatBody_counts.deeper
    have hcode := hbody.embedded
    exact ⟨hcode, Parse.flatElement_counts hcode, hbody⟩
  | succ fuel ih =>
    obtain ⟨hcode, helement, hinner⟩ := ih (n := n + 1) (by omega)
    have hbody : Parse.Counts m n (ofRoom (m - n - 1)).body (counting (fuel + 1)).body := by
      refine .deeper (.canNest (fun hlt => ?_) fun hnot => ?_)
      · obtain ⟨room, hroom⟩ := Nat.exists_eq_add_of_lt hlt
        have hroom : m - (n + 1) = room + 1 := by omega
        rw [hroom] at hcode helement hinner
        rw [Nat.sub_sub, hroom]
        exact fun _ => (Deepened.tuned m (n + 1)).congruence.codeBody hinner helement
      · rw [show m - n - 1 = 0 by omega]
        exact Parse.flatBody_counts
    have hcode' : Parse.Counts m n (ofRoom (m - n)).code (counting (fuel + 1)).code := by
      have hembedded := hbody.embedded
      cases hroom : m - n with
      | zero => rwa [hroom] at hembedded
      | succ room => rwa [hroom] at hembedded
    refine ⟨hcode', .canNest (fun hlt => ?_) fun hnot => ?_, hbody⟩
    · rw [show m - n = m - (n + 1) + 1 by omega]
      exact Parse.Counts.deeper fun _ => (Deepened.tuned m (n + 1)).congruence.nestedElement hcode helement
    · rw [show m - n = 0 by omega] at hcode' ⊢
      exact Parse.flatElement_counts hcode'

/-- The document first, and the end of the file after it, read by parsers that count. -/
def Parse.countingTemplateBy (enter : Context → Context) : Parse Node := do
  let c ← get
  if c.rootParsed then return .marker .endOfFile (.empty c.pos)
  else
    set { c with rootParsed := true }
    let level := Level.countingBy enter c.room
    document level.code level.element

def Parse.countingTemplate : Parse Node :=
  countingTemplateBy Context.enterNested

/-- **Counting levels and having room for them are the same**, for templates as for levels. -/
theorem countingTemplate_eq (c : Context) : Parse.countingTemplate c = Parse.template c := by
  obtain ⟨hcode, helement, -⟩ := Level.counts_ofRoom (m := c.maxDepth) (n := c.depth) le_rfl
  let start : Context := { c with rootParsed := true }
  have hdocument := (Deepened.tuned c.maxDepth c.depth).congruence.document (c := start) hcode helement start ⟨rfl, rfl⟩
  have hend : (Parse.document (Level.ofRoom c.room).code (Level.ofRoom c.room).element start).2.depth = c.depth := by
    have htraced := Level.traced_ofRoom c.room
    obtain ⟨t, hmoved⟩ := (Parse.document_gives (c := start) htraced.code htraced.element).trace.moved
    exact hmoved.depth
  show (if c.rootParsed then pure (Node.marker .endOfFile (.empty c.pos)) else _ : Parse Node) c =
    (if c.rootParsed then pure (Node.marker .endOfFile (.empty c.pos)) else _ : Parse Node) c
  split
  · rfl
  · exact Prod.ext hdocument.1.symm (hdocument.2.eq.trans (Context.atDepth_eq hend))

/-! ## The document -/

/-- **A document read in any context leaves the context as it was**, at the end of the text:
the depth, the open elements and the flattened elements are the same, diagnostics are only
added, and the document is the text from the cursor to the end. The depth is the same also
for parsers that count the levels in the context, for they do just what these do. -/
theorem template_restores (c : Context) (h : c.rootParsed = false) :
    Parse.countingTemplate c = Parse.template c ∧ Parse.Ends Parse.template c fun n d =>
      n.kind = .document ∧ n.source = c.rest ∧
        d.rest = [] ∧ d.before = c.rest.reverse ++ c.before ∧ d.pos = c.pos.after c.rest ∧
        d.depth = c.depth ∧ d.openElements = c.openElements ∧ d.flattened = c.flattened ∧
        c.diagnostics <+: d.diagnostics := by
  refine ⟨countingTemplate_eq c, ?_⟩
  let start : Context := { c with rootParsed := true }
  have hrun : Parse.template c = Parse.document (Level.ofRoom c.room).code (Level.ofRoom c.room).element start := by
    show (if c.rootParsed then pure (Node.marker .endOfFile (.empty c.pos)) else _ : Parse Node) c = _
    rw [if_neg (by rw [h]; decide)]; rfl
  have htraced := Level.traced_ofRoom c.room
  have hgives := Parse.document_gives (c := start) htraced.code htraced.element
  have hrest := document_rest c.room start
  obtain ⟨hholds, hflattened⟩ := document_holds c.room start
  unfold Parse.Ends at hgives hrest ⊢
  rw [hrun]
  obtain ⟨ts, hlocs, hmoved⟩ := hgives.trace.reads
  rw [Node.piecesAll_cons, Node.piecesAll_nil, List.append_nil] at hlocs
  have htext : c.rest = ts.flatten := by
    have hall := hmoved.rest
    rwa [hrest, List.append_nil] at hall
  refine ⟨rfl, ?_, hrest, ?_, ?_, hmoved.depth, hholds.openElements, hflattened, hholds.diagnostics⟩
  · rw [Node.source_eq_pieces, htext, ← Location.flatMap_text_tile start.pos ts, ← hlocs, List.flatMap_map]
  · rw [hmoved.before, htext]
  · rw [hmoved.pos, htext]

/-- A context in the middle of a text, at the limit, with an element open and another one
flattened in it. -/
def Context.midway : Context :=
  ((((((Context.ofText { maxNestingDepth := 1 } "x<p>@\x7b<b></p></i></q>".toList).consume 1).pushElement
    "I".toList).enterNested).pushFlattened "q".toList none).report
    ((Problem.missingEndTag "u".toList).located (.empty {})))

theorem template_restores_midway : Context.midway.rootParsed = false ∧
    (Parse.template Context.midway).1.source = "<p>@\x7b<b></p></i></q>".toList ∧
    (Parse.template Context.midway).2.openElements = ["i".toList] ∧
    (Parse.template Context.midway).2.flattened = [⟨"q".toList, none⟩] ∧
    (Parse.template Context.midway).2.depth = 1 := by
  obtain ⟨-, -, hsource, -, -, -, hdepth, hopen, hflattened, -⟩ := template_restores Context.midway rfl
  exact ⟨rfl, hsource, hopen, hflattened, hdepth⟩

end Stencil
