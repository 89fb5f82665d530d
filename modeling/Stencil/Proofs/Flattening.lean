import Stencil.Proofs.Congruence
import Stencil.Proofs.Lossless

/-!
# Flattening changes the shape of the tree only

Past the nesting limit an element consists of its start tag, and what it contains
becomes its siblings. Which elements an end tag closes is then decided by the list
of flattened elements, and not by the elements around the cursor. The two ways agree.

The run with limit zero, in which all elements are flattened, is the yardstick: it
is a loop of turns (`flatTurn`), and a run with any other limit is compared with it.
`InStep P F S c d` relates their contexts. The runs do not go side by side: an
element that ends for want of an end tag is left and reported at once where elements
nest, one after the other from the inside, but only with the end tag or the end of
the template that stops it where they are flattened. `P` holds what is left but not
yet reported in the flat run.

* `Level.catchesUp_ofRoom`: whatever is read at a level of nesting, **the flat run
  catches up with it** and reads the same pieces.
* `parse_limits_agree`: **two runs with any limits have the same pieces and the same
  diagnostics**, up to what reports the limit itself (`Diagnostic.gists`).

A block of code past the limit is not looked into for elements, so the template
must not have any.
-/

namespace Stencil

/-! ## What flattening keeps of a diagnostic -/

namespace Diagnostic

/-- The severity, kind and place of a diagnostic, as far as the nesting limit has
no say in them: what reports the limit itself is left out, and a mismatched end
tag counts as an unexpected one. -/
def gist? (x : Diagnostic) : Option (Severity × Code × Option Location) :=
  match x.code with
  | .nestingTooDeep => none
  | .mismatchedEndTag => some (x.severity, .unexpectedEndTag, x.location)
  | code => some (x.severity, code, x.location)

/-- The gists of diagnostics, in their order. -/
def gists (xs : List Diagnostic) : List (Severity × Code × Option Location) :=
  xs.filterMap gist?

theorem gists_append (xs ys : List Diagnostic) : gists (xs ++ ys) = gists xs ++ gists ys :=
  List.filterMap_append

end Diagnostic

open Diagnostic

/-! ## Closing flattened elements -/

/-- The report of a flattened element that lacks its end tag, made at a position. -/
def Flattened.missing (p : Position) (f : Flattened) : Diagnostic :=
  (Problem.missingEndTag f.name).located (f.location.getD (.empty p))

namespace Context

/-- The context after the flattened elements `A` were left without end tags, while
the flattened elements `B` around them stay open. -/
def leave (c : Context) (A B : List Flattened) : Context :=
  { c with
    flattened := B
    diagnostics := c.diagnostics ++ A.map (Flattened.missing c.pos) }

end Context

namespace Parse

variable {c : Context}

theorem forM_reportMissingEnd (fs : List Flattened) (c : Context) :
    (fs.forM fun f => reportMissingEnd f.name f.location : Parse Unit) c =
      ((), { c with diagnostics := c.diagnostics ++ fs.map (Flattened.missing c.pos) }) := by
  induction fs generalizing c with
  | nil => simp; rfl
  | cons f fs ih =>
    show (fs.forM fun f => reportMissingEnd f.name f.location : Parse Unit)
      (c.report (f.missing c.pos)) = _
    rw [ih]
    simp [Context.report]

theorem closeFlattened_eq (base : ℕ) :
    closeFlattened base c = ((), c.leave (c.flattenedFrom base) (c.truncateFlattened base).flattened) := by
  show ((c.flattenedFrom base).forM fun f => reportMissingEnd f.name f.location : Parse Unit)
    (c.truncateFlattened base) = _
  rw [forM_reportMissingEnd]
  rfl

theorem flattenedEnd?_eq_match (base : ℕ) : flattenedEnd? base c =
    match c.rest.endTagName?.bind fun name => c.findFlattened? name base with
    | some index =>
      let d := (closeFlattened (index + 1) c).2.truncateFlattened index
      (some (endTag d).1, (endTag d).2)
    | none => (none, c) := by
  rw [flattenedEnd?, bind_apply, get_apply]
  cases c.rest.endTagName?.bind fun name => c.findFlattened? name base with
  | none => rfl
  | some index => simp only [bind_apply, modify_apply]; rfl

/-- An end tag that no flattened element waits for is left to others. -/
theorem flattenedEnd?_eq_none
    (h : ∀ name, c.rest.endTagName? = some name → name.lower ∉ c.flattened.map Flattened.name) :
    flattenedEnd? 0 c = (none, c) := by
  have hfind : (c.rest.endTagName?.bind fun name => c.findFlattened? name 0) = none := by
    cases htag : c.rest.endTagName? with
    | none => rfl
    | some name =>
      have hmem := h name htag
      simp only [Option.bind_some, Context.findFlattened?, Option.map_eq_none_iff, List.findIdx?_eq_none_iff]
      intro f hf
      rw [beq_eq_false_iff_ne]
      intro hname
      exact hmem (List.mem_map.2 ⟨f, List.mem_of_mem_take hf, hname⟩)
  rw [flattenedEnd?_eq_match, hfind]

/-- The end tag of a flattened element closes those inside it, and that element. -/
theorem flattenedEnd?_eq_some {name : Text} {P G : List Flattened} {f : Flattened}
    (htag : c.rest.endTagName? = some name) (hstack : c.flattened = P ++ f :: G) (hf : f.name = name.lower)
    (hP : name.lower ∉ P.map Flattened.name) :
    flattenedEnd? 0 c = (some (endTag (c.leave P G)).1, (endTag (c.leave P G)).2) := by
  have hcount : c.flattenedCount = P.length + (G.length + 1) := by
    rw [Context.flattenedCount, hstack]; simp
  -- the innermost element of the name is the first one in the list
  have hidx : (c.flattened.findIdx? fun g => g.name == name.lower) = some P.length := by
    have hbefore : (P.findIdx? fun g => g.name == name.lower) = none := by
      rw [List.findIdx?_eq_none_iff]
      intro g hg
      rw [beq_eq_false_iff_ne]
      exact fun hname => hP (List.mem_map.2 ⟨g, hg, hname⟩)
    rw [hstack, List.findIdx?_append, hbefore]
    simp [List.findIdx?_cons, hf]
  have hfind : (c.rest.endTagName?.bind fun name => c.findFlattened? name 0) = some G.length := by
    rw [htag, Option.bind_some, Context.findFlattened?, Nat.sub_zero, Context.flattenedCount,
      List.take_length, hidx, Option.map_some, ← Context.flattenedCount, hcount]
    congr 1; omega
  have hleave : (closeFlattened (G.length + 1) c).2.truncateFlattened G.length = c.leave P G := by
    have hinner : c.flattenedCount - (G.length + 1) = P.length := by omega
    rw [closeFlattened_eq, Context.flattenedFrom, hinner]
    simp [Context.leave, Context.truncateFlattened, Context.flattenedCount, hstack]
  rw [flattenedEnd?_eq_match, hfind, ← hleave]

end Parse

/-! ## Contexts in step -/

/-- A context `c` in which elements nest is in step with a context `d` in which
all are flattened. `S` are the elements open around the cursor in `c` and `F` those
flattened there; in `d` they are all flattened. `P` are elements that `c` has left
and reported as unclosed and that still wait for their end tags in `d`. -/
structure InStep (P F S : List Flattened) (c d : Context) : Prop where
  before : d.before = c.before
  rest : d.rest = c.rest
  pos : d.pos = c.pos
  transition : d.transition = c.transition
  noBlock : ¬ [c.transition, '{'] <:+: c.rest
  reported : gists c.diagnostics = gists d.diagnostics ++ gists (P.map (Flattened.missing c.pos))
  flattened : c.flattened = F
  flat : d.flattened = P ++ F ++ S
  opened : c.openElements = S.map Flattened.name

namespace InStep

variable {P F S : List Flattened} {c d : Context}

theorem report (h : InStep [] F S c d) {x y : Diagnostic} (hxy : x.gist? = y.gist?) :
    InStep [] F S (c.report x) (d.report y) := by
  have hrep := h.reported
  refine { h with reported := ?_ }
  simp only [List.map_nil, gists, List.filterMap_nil, List.append_nil] at hrep
  simp [Context.report, gists, hrep, hxy, List.filterMap_cons]

theorem twins : Twins (InStep [] F S) where
  before h := h.before
  rest h := h.rest
  pos h := h.pos
  transition h := h.transition
  report h _ := h.report rfl
  read {c d} h n := by
    -- nothing waits here, so what is reported does not depend on the place
    have hrep := h.reported
    obtain ⟨hrest, hbefore, hpos, -⟩ := c.moved_read n
    obtain ⟨hrest', hbefore', hpos', -⟩ := d.moved_read n
    have hsuffix : (c.read n).2.rest <:+ c.rest := ⟨_, hrest.symm⟩
    have htake : d.rest.take n = c.rest.take n := by rw [h.rest]
    refine { h with
      before := ?_, rest := ?_, pos := ?_, noBlock := ?_, reported := ?_ }
    · rw [hbefore, hbefore', h.before, htake]
    · show d.rest.drop n = c.rest.drop n
      rw [h.rest]
    · rw [hpos, hpos', h.pos, htake]
    · exact fun hb => h.noBlock (hb.trans hsuffix.isInfix)
    · exact hrep

/-- What holds of contexts in step once an element is left holds before it is
left, up to that. -/
theorem twins_pop : Twins fun c d => InStep [] F S c.popElement d where
  before h := h.before
  rest h := h.rest
  pos h := h.pos
  transition h := h.transition
  report h x := twins.report h x
  read h n := twins.read h n

theorem reportTooDeep_left (h : InStep [] F S c d) : InStep [] F S c.reportTooDeep d := by
  unfold Context.reportTooDeep
  split
  · exact h
  · have hrep := h.reported
    refine { h with reported := ?_ }
    rw [Context.report, gists_append, hrep]; simp [gists, gist?, Problem.located, Problem.code]

theorem reportTooDeep_right (h : InStep [] F S c d) : InStep [] F S c d.reportTooDeep := by
  unfold Context.reportTooDeep
  split
  · exact h
  · have hrep := h.reported
    refine { h with reported := ?_ }
    rw [Context.report, gists_append, hrep]; simp [gists, gist?, Problem.located, Problem.code]

theorem pushFlattened (h : InStep [] F S c d) (name : Text) (place : Option Location) :
    InStep [] (⟨name.lower, place⟩ :: F) S (c.pushFlattened name place) (d.pushFlattened name place) := by
  refine { h with flattened := ?_, flat := ?_ }
  · simp [Context.pushFlattened, h.flattened]
  · simp [Context.pushFlattened, h.flat]

theorem pushElement (h : InStep [] [] S c d) (name : Text) (place : Option Location) :
    InStep [] [] (⟨name.lower, place⟩ :: S) (c.pushElement name) (d.pushFlattened name place) := by
  refine { h with flat := ?_, opened := ?_ }
  · simp [Context.pushFlattened, h.flat]
  · simp [Context.pushElement, h.opened]

/-- The flattened elements of `c` are closed there, and in `d` not yet. -/
theorem close (h : InStep P F S c d) : InStep (P ++ F) [] S (c.leave F []) d := by
  refine { h with reported := ?_, flattened := rfl, flat := ?_ }
  · simp [Context.leave, gists_append, h.reported]
  · rw [h.flat]; simp

/-- The same flattened elements are left on both sides. -/
theorem leave {A B : List Flattened} (h : InStep [] F S c d) :
    InStep [] B S (c.leave A B) (d.leave A (B ++ S)) := by
  have hrep := h.reported
  refine { h with reported := ?_, flattened := rfl, flat := rfl }
  simp only [List.map_nil] at hrep ⊢
  simp only [Context.leave, gists_append, hrep, h.pos]
  simp [gists]

variable {f : Flattened}

/-- An element is left at its end tag: on the one side it is no longer open, on the
other those inside it are left as well. -/
theorem popElement_leave (h : InStep P [] (f :: S) c d) : InStep [] [] S c.popElement (d.leave P S) := by
  have hrep := h.reported
  refine { h with reported := ?_, flat := rfl, opened := ?_ }
  · simp only [Context.leave, Context.popElement, gists_append, h.pos]
    simpa [gists] using hrep
  · simp [Context.popElement, h.opened]

/-- An element is left without an end tag; on the other side it waits for it. -/
theorem popElement_missing (h : InStep P [] (f :: S) c d) (name : Text) :
    InStep (P ++ [f]) [] S
      (c.report ((Problem.missingEndTag name).located (f.location.getD (.empty c.pos)))).popElement d := by
  refine { h with reported := ?_, flat := ?_, opened := ?_ }
  · simp only [Context.popElement, Context.report, gists_append, h.reported, List.map_append,
      List.append_assoc]
    rfl
  · rw [h.flat]; simp
  · simp [Context.popElement, Context.report, h.opened]

end InStep

/-! ## The flat run -/

/-- A turn of a document in which nothing nests. -/
def flatTurn : Parse (Option Node) :=
  Parse.documentPart Level.ground.code Level.ground.element 0

/-- The cursor stands where all elements in `P` and `F` end, and so do their
parents up to one in `S`: at the end of the template, or at an end tag of one in `S`. -/
def Stops (P F S : List Flattened) (c : Context) : Prop :=
  c.rest = [] ∨ ∃ name, c.rest.endTagName? = some name ∧ name.lower ∉ (P ++ F).map Flattened.name ∧
    name.lower ∈ S.map Flattened.name

/-- From `d`, the flat run reads the pieces `ps` and comes to a context in step
with `c`. If elements still wait for their end tags there, then the cursor stops
them all. Where `room` is left to nest, nothing is flattened. -/
def Reaches (room : ℕ) (S : List Flattened) (d : Context) (ps : List Piece) (c : Context) : Prop :=
  ∃ ns d' P F, Parse.Runs flatTurn d ns d' ∧ Node.piecesAll ns = ps ∧ InStep P F S c d' ∧
    (room ≠ 0 → F = []) ∧ (P ≠ [] → Stops P F S c)

/-- A node `n` was read where the flat run read `n'`; going on from there, the flat
run reads the rest of `n`. -/
def Catches (room : ℕ) (S : List Flattened) (n : Node) (c : Context) (n' : Node) (d : Context) : Prop :=
  ∃ ps, n.pieces = n'.pieces ++ ps ∧ Reaches room S d ps c

variable {room : ℕ} {P F S : List Flattened} {c d : Context}

theorem InStep.reaches (h : InStep [] F S c d) (hF : room ≠ 0 → F = []) : Reaches room S d [] c :=
  ⟨[], d, [], F, .refl d, rfl, h, hF, fun hP => absurd rfl hP⟩

theorem Reaches.turn {n : Node} {d' : Context} {ps : List Piece} (hturn : flatTurn d = (some n, d'))
    (h : Reaches room S d' ps c) : Reaches room S d (n.pieces ++ ps) c := by
  obtain ⟨ns, e, P, F, hrun, rfl, hstep, hF, hP⟩ := h
  exact ⟨n :: ns, e, P, F, .turn hturn hrun, by simp, hstep, hF, hP⟩

theorem Reaches.after {ns : List Node} {d' : Context} {ps : List Piece} (hrun : Parse.Runs flatTurn d ns d')
    (h : Reaches room S d' ps c) : Reaches room S d (Node.piecesAll ns ++ ps) c := by
  obtain ⟨ms, e, P, F, hrun', rfl, hstep, hF, hP⟩ := h
  exact ⟨ns ++ ms, e, P, F, hrun.trans hrun', Node.piecesAll_append ns ms, hstep, hF, hP⟩

namespace Parse

/-- Parsers that are alike give the same node, and there is nothing to catch up with. -/
theorem Alike.catches {p q : Parse Node} (h : Alike (InStep [] F S) p q c d) (hF : room ≠ 0 → F = []) :
    Both p q c d (Catches room S) :=
  ⟨[], by rw [h.1, List.append_nil], h.2.reaches hF⟩

/-- In a template without blocks no brace follows a transition. -/
theorem peek_ne_brace (hblock : ¬ [c.transition, '{'] <:+: c.rest) (ht : c.atTransition = true) :
    c.peek ≠ '{' := by
  intro hb
  apply hblock
  rw [Context.atTransition, startsTransition, Bool.and_eq_true, beq_iff_eq] at ht
  rw [← ht.1]
  unfold Context.peek Context.peekAt at hb
  rcases hrest : c.rest with _ | ⟨x, _ | ⟨y, more⟩⟩
  · rw [hrest] at hb; simp [Text.ahead, Text.nul] at hb
  · rw [hrest] at hb; simp [Text.ahead, Text.nul] at hb
  · rw [hrest] at hb
    obtain rfl : y = '{' := by simpa [Text.ahead] using hb
    exact ⟨[], more, by simp [Text.ahead]⟩

/-- A transition of a template without blocks introduces the same with all limits. -/
theorem embedded_inStep (body body' : Parse (List Node)) (h : InStep [] F S c d)
    (ht : c.atTransition = true) : Alike (InStep [] F S) (embedded body) (embedded body') c d :=
  embedded_alike InStep.twins h (peek_ne_brace h.noBlock ht) body body'

/-- An end tag that closes nothing is the same with all limits; only whether it
counts as mismatched depends on them. -/
theorem orphanEnd_inStep (h : InStep [] F S c d) : Alike (InStep [] F S) orphanEnd orphanEnd c d := by
  refine (endTag_textual.alike InStep.twins h).bind fun tag c' d' h => Alike.get_bind ?_
  rw [InStep.twins.pos h]
  refine Alike.ite Iff.rfl (fun _ => ?_) fun _ => ?_
  · exact ((report_textual _ _).alike InStep.twins h).bind fun _ _ _ h => .pure h _
  · cases c'.currentElement? <;> cases d'.currentElement? <;>
      exact ⟨rfl, h.report rfl⟩

end Parse

/-! ## Catching up -/

/-- The flat run catches up with the parsers of a level. -/
structure Level.CatchesUp (l : Level) (room : ℕ) : Prop where
  code : ∀ {F S c d}, InStep [] F S c d → c.atTransition = true →
    Parse.Alike (InStep [] F S) l.code ground.code c d
  element : ∀ {F S c d}, InStep [] F S c d → (room ≠ 0 → F = []) →
    Parse.Both l.element ground.element c d (Catches room S)

namespace Parse

variable {l : Level}

/-- What stands between tags is an element on both sides, or the same. -/
theorem content_inStep (hl : l.CatchesUp room) (h : InStep [] F S c d) :
    Both (content l.code l.element) (content Level.ground.code Level.ground.element) c d fun n e n' d' =>
      (l.element c = (n, e) ∧ Level.ground.element d = (n', d')) ∨ (n = n' ∧ InStep [] F S e d') := by
  have hR : Twins (InStep [] F S) := InStep.twins
  have htransition : d.atTransition = c.atTransition := hR.same (fun _ _ => rfl) h
  have hcurrent : d.current = c.current := hR.same (fun _ _ => rfl) h
  refine Both.get_bind ?_
  rw [htransition, hcurrent]
  refine Both.ite Iff.rfl (fun ht => .inr (hl.code h ht)) fun _ => ?_
  refine Both.ite Iff.rfl (fun _ => Both.get_bind ?_) fun _ => .inr (contentText_textual.alike hR h)
  rw [hR.rest h]
  refine Both.ite Iff.rfl (fun _ => .inr ((region_textual (.inl rfl)).alike hR h)) fun _ => ?_
  refine Both.ite Iff.rfl (fun _ => .inr ((region_textual (.inr rfl)).alike hR h)) fun _ => ?_
  refine Both.ite Iff.rfl (fun _ => .inr (declaration_textual.alike hR h)) fun _ => ?_
  exact Both.ite Iff.rfl (fun _ => .inr (orphanEnd_inStep h)) fun _ => .inl ⟨rfl, rfl⟩

theorem content_catches (hl : l.CatchesUp room) (h : InStep [] F S c d) (hF : room ≠ 0 → F = []) :
    Both (content l.code l.element) (content Level.ground.code Level.ground.element) c d
      (Catches room S) := by
  rcases content_inStep hl h with ⟨hn, hn'⟩ | halike
  · have helement := hl.element h hF
    unfold Both at helement
    rwa [hn, hn'] at helement
  · exact Alike.catches halike hF

theorem atEnd_of_endTagName? {name : Text} (htag : c.rest.endTagName? = some name) : c.atEnd = false := by
  rw [Context.atEnd]
  cases hrest : c.rest with
  | nil => rw [hrest] at htag; simp [Text.endTagName?, Text.startsWith, Text.nul] at htag
  | cons => rfl

theorem documentPart_eq_content (code element : Parse Node) (hc : c.rest ≠ [])
    (hend : ∀ name, c.rest.endTagName? = some name → name.lower ∉ c.flattened.map Flattened.name) :
    documentPart code element 0 c = (some (content code element c).1, (content code element c).2) := by
  have hatEnd : c.atEnd = false := by simpa [Context.atEnd] using hc
  rw [documentPart, bind_apply, get_apply, hatEnd]
  simp only [Bool.false_eq_true, if_false]
  rw [bind_apply, flattenedEnd?_eq_none hend]
  rfl

theorem documentPart_eq_endTag (code element : Parse Node) {name : Text} {A B : List Flattened}
    {f : Flattened} (htag : c.rest.endTagName? = some name) (hstack : c.flattened = A ++ f :: B)
    (hf : f.name = name.lower) (hA : name.lower ∉ A.map Flattened.name) :
    documentPart code element 0 c = (some (endTag (c.leave A B)).1, (endTag (c.leave A B)).2) := by
  have hatEnd := atEnd_of_endTagName? htag
  rw [documentPart, bind_apply, get_apply, hatEnd]
  simp only [Bool.false_eq_true, if_false]
  rw [bind_apply, flattenedEnd?_eq_some htag hstack hf hA]
  dsimp only
  rw [pure_apply]

/-- The innermost flattened element of a name, with those inside it and those around it. -/
theorem exists_innermost {fs : List Flattened} {name : Text} (h : name ∈ fs.map Flattened.name) :
    ∃ A f B, fs = A ++ f :: B ∧ f.name = name ∧ name ∉ A.map Flattened.name := by
  obtain ⟨as, bs, hsplit, hnot⟩ := List.eq_append_cons_of_mem h
  obtain ⟨A, rest, rfl, rfl, hrest⟩ := List.map_eq_append_iff.1 hsplit
  obtain ⟨f, B, rfl, hf, -⟩ := List.map_eq_cons_iff.1 hrest
  exact ⟨A, f, B, rfl, hf, hnot⟩

/-- **A turn of a document.** The flat run makes a turn as well and catches up,
unless the cursor stands at an end tag of an element that is not flattened. -/
theorem documentPart_reaches (hl : l.CatchesUp room) (h : InStep [] F S c d) (hF : room ≠ 0 → F = [])
    (hc : c.rest ≠ []) (hend : ∀ name, c.rest.endTagName? = some name →
      name.lower ∈ F.map Flattened.name ∨ name.lower ∉ S.map Flattened.name) :
    ∃ n e, documentPart l.code l.element 0 c = (some n, e) ∧ Reaches room S d n.pieces e := by
  by_cases hclose : ∃ name, c.rest.endTagName? = some name ∧ name.lower ∈ F.map Flattened.name
  · -- the end tag closes a flattened element on both sides
    obtain ⟨name, htag, hmem⟩ := hclose
    obtain ⟨A, f, B, hAB, hf, hA⟩ := exists_innermost hmem
    have hturn := documentPart_eq_endTag l.code l.element htag (h.flattened.trans hAB) hf hA
    have hflat : flatTurn d = _ := documentPart_eq_endTag _ _ (B := B ++ S) (h.rest ▸ htag)
      (by rw [h.flat, hAB]; simp) hf hA
    have hB : room ≠ 0 → B = [] := by
      intro hroom
      have hnil := hF hroom
      rw [hAB] at hnil; simp at hnil
    obtain ⟨hnode, hnext⟩ := endTag_textual.alike InStep.twins (h.leave (A := A) (B := B))
    refine ⟨_, _, hturn, ?_⟩
    rw [hnode, ← List.append_nil (Node.pieces _)]
    exact (hnext.reaches hB).turn hflat
  · -- content on both sides
    have hnone : ∀ name, c.rest.endTagName? = some name → name.lower ∉ (F ++ S).map Flattened.name := by
      intro name htag hmem
      rw [List.map_append, List.mem_append] at hmem
      rcases hend name htag with hin | hout
      · exact hclose ⟨name, htag, hin⟩
      · exact hmem.elim (fun hin => hclose ⟨name, htag, hin⟩) hout
    have hturn := documentPart_eq_content l.code l.element hc fun name htag hmem =>
      hnone name htag (by rw [List.map_append, ← h.flattened]; exact List.mem_append_left _ hmem)
    have hflat : flatTurn d = _ :=
      documentPart_eq_content _ _ (by rw [h.rest]; exact hc) fun name htag hmem =>
        hnone name (h.rest ▸ htag) (by rwa [h.flat, List.nil_append] at hmem)
    obtain ⟨ps, hps, hreach⟩ := content_catches hl h hF
    exact ⟨_, _, hturn, by rw [hps]; exact hreach.turn hflat⟩

/-- Where no flattened element ends, an element ends before an end tag that is its own
or that of an open element around it. -/
theorem elementPart_eq_ite (code element : Parse Node) (name : Text) (hc : c.rest ≠ [])
    (hnone : ∀ other, c.rest.endTagName? = some other → other.lower ∉ c.flattened.map Flattened.name) :
    elementPart code element name 0 c =
      if c.rest.endTagName?.any fun other => other.sameLetters name || c.isOpen other then (none, c)
      else (some (content code element c).1, (content code element c).2) := by
  have hatEnd : c.atEnd = false := by simpa [Context.atEnd] using hc
  rw [elementPart, bind_apply, get_apply, hatEnd]
  simp only [Bool.false_eq_true, if_false]
  rw [bind_apply, flattenedEnd?_eq_none hnone]
  show (get >>= fun c => _ : Parse (Option Node)) c = _
  rw [bind_apply, get_apply]
  cases c.rest.endTagName? with
  | none => rfl
  | some other =>
    show (if (other.sameLetters name || c.isOpen other) = true then _ else _ : Parse (Option Node)) c =
      if (other.sameLetters name || c.isOpen other) = true then _ else _
    split <;> rfl

/-- A turn of an element is one of a document, unless the cursor stands at the end
or at an end tag of an element that is open and not flattened. -/
theorem elementPart_cases (code element : Parse Node) {name : Text}
    (hname : name.lower ∈ c.openElements) :
    (elementPart code element name 0 c = (none, c) ∧
        (c.rest = [] ∨ ∃ other, c.rest.endTagName? = some other ∧
          other.lower ∉ c.flattened.map Flattened.name ∧ other.lower ∈ c.openElements)) ∨
      (elementPart code element name 0 c = documentPart code element 0 c ∧ c.rest ≠ [] ∧
        ∀ other, c.rest.endTagName? = some other →
          other.lower ∈ c.flattened.map Flattened.name ∨ other.lower ∉ c.openElements) := by
  by_cases hc : c.rest = []
  · refine .inl ⟨?_, .inl hc⟩
    rw [elementPart, bind_apply, get_apply]
    simp [Context.atEnd, hc]; rfl
  have hatEnd : c.atEnd = false := by simpa [Context.atEnd] using hc
  by_cases hclose : ∃ other, c.rest.endTagName? = some other ∧
      other.lower ∈ c.flattened.map Flattened.name
  · -- the end tag of a flattened element
    obtain ⟨other, htag, hmem⟩ := hclose
    obtain ⟨A, f, B, hAB, hf, hA⟩ := exists_innermost hmem
    refine .inr ⟨?_, hc, fun _ h => .inl (by rw [htag] at h; cases h; exact hmem)⟩
    rw [documentPart_eq_endTag _ _ htag hAB hf hA, elementPart, bind_apply, get_apply, hatEnd]
    simp only [Bool.false_eq_true, if_false]
    rw [bind_apply, flattenedEnd?_eq_some htag hAB hf hA]
    dsimp only
    rw [pure_apply]
  · have hnone : ∀ other, c.rest.endTagName? = some other →
        other.lower ∉ c.flattened.map Flattened.name :=
      fun other htag hmem => hclose ⟨other, htag, hmem⟩
    rw [elementPart_eq_ite _ _ _ hc hnone, documentPart_eq_content _ _ hc hnone]
    cases htag : c.rest.endTagName? with
    | none => exact .inr ⟨rfl, hc, fun _ h => by cases h⟩
    | some other =>
      -- the name of the element itself is open as well
      have hopen : (other.sameLetters name || c.isOpen other) = true ↔ other.lower ∈ c.openElements := by
        rw [Bool.or_eq_true, Text.sameLetters_iff, Context.isOpen, List.contains_iff_mem]
        exact ⟨fun h => h.elim (fun heq => heq ▸ hname) id, .inr⟩
      by_cases hmem : other.lower ∈ c.openElements
      · exact .inl ⟨if_pos (hopen.2 hmem), .inr ⟨other, rfl, hnone other htag, hmem⟩⟩
      · refine .inr ⟨if_neg fun h => hmem (hopen.1 h), hc, ?_⟩
        rintro _ ⟨⟩
        exact .inr hmem

/-- **Turn by turn**: where the flat run has caught up, it catches up with the next
turn of a document. -/
theorem reaches_documentPart (hl : l.CatchesUp room) {ns : List Node} {n : Node} {e : Context}
    (h : Reaches room S d (Node.piecesAll ns) c) (hc : c.rest ≠ [])
    (hend : ∀ name, c.rest.endTagName? = some name →
      name.lower ∈ c.flattened.map Flattened.name ∨ name.lower ∉ S.map Flattened.name)
    (hturn : documentPart l.code l.element 0 c = (some n, e)) :
    Reaches room S d (Node.piecesAll (ns ++ [n])) e := by
  obtain ⟨ms, d', P, F, hrun, hps, hin, hF, hP⟩ := h
  rw [hin.flattened] at hend
  -- nothing waits for its end tag, or the cursor would stop an element around it
  obtain rfl : P = [] := by
    by_contra hne
    rcases hP hne with hnil | ⟨other, htag, hout, hopen⟩
    · exact hc hnil
    · rw [List.map_append, List.mem_append, not_or] at hout
      exact (hend other htag).elim hout.2 fun h => h hopen
  obtain ⟨n', e', hpart, hreach⟩ := documentPart_reaches hl hin hF hc hend
  rw [hpart] at hturn; cases hturn
  rw [Node.piecesAll_append, ← hps]
  simpa using hreach.after hrun

theorem reaches_elementPart (hl : l.CatchesUp room) {name : Text} (hname : name.lower ∈ S.map Flattened.name)
    {ns : List Node} {n : Node} {e : Context} (h : Reaches room S d (Node.piecesAll ns) c)
    (hturn : elementPart l.code l.element name 0 c = (some n, e)) :
    Reaches room S d (Node.piecesAll (ns ++ [n])) e := by
  have hopened : c.openElements = S.map Flattened.name := by
    obtain ⟨_, _, _, _, _, _, hin, _, _⟩ := h
    exact hin.opened
  rcases elementPart_cases l.code l.element (hopened ▸ hname) with ⟨heq, -⟩ | ⟨heq, hc, hend⟩
  · rw [heq] at hturn; cases hturn
  · exact reaches_documentPart hl h hc (hopened ▸ hend) (heq ▸ hturn)

/-- Where the turns of an element end, the cursor stops it. -/
theorem elementPart_stops {code element : Parse Node} {name : Text}
    (hname : name.lower ∈ S.map Flattened.name) {e : Context} (hin : InStep P F S c d)
    (hP : P ≠ [] → Stops P F S c) (hturn : elementPart code element name 0 c = (none, e)) :
    e = c ∧ Stops P F S c := by
  rcases elementPart_cases code element (hin.opened ▸ hname) with ⟨heq, hstop⟩ | ⟨heq, hc, hend⟩
  · rw [heq] at hturn; cases hturn
    refine ⟨rfl, ?_⟩
    by_cases hne : P = []
    · rw [hin.flattened, hin.opened] at hstop
      rw [hne]; exact hstop
    · exact hP hne
  · -- a turn of a document before the end gives a node
    have hnone := heq ▸ hturn
    exact absurd (documentPart_none hnone).1 hc

theorem closeFlattened_zero : closeFlattened 0 c = ((), c.leave c.flattened []) := by
  rw [closeFlattened_eq]
  simp [Context.flattenedFrom, Context.flattenedCount, Context.truncateFlattened]

/-- The element `f` has been left in `e` after the nodes `last`. At its own end tag the flat
run, which has come to `d`, reads it as well; otherwise the element waits for it there. -/
inductive LeftInStep (P S : List Flattened) (f : Flattened) (d : Context) : List Node → Context → Prop
  | endTag {tag : Node} {d' e : Context} :
      flatTurn d = (some tag, d') → InStep [] [] S e d' → LeftInStep P S f d [tag] e
  | missing {e : Context} :
      InStep (P ++ [f]) [] S e d → Stops (P ++ [f]) [] S e → LeftInStep P S f d [] e

/-- **The end of an element**, in step with the flat run. -/
theorem elementEnd_inStep {f : Flattened} {name : Text} (hf : f.name = name.lower)
    (h : InStep P [] (f :: S) c d) (hstop : Stops P [] (f :: S) c) :
    Ends (elementEnd name f.location) c fun last e => LeftInStep P S f d last e.popElement := by
  refine Ends.get_bind ?_
  by_cases hown : ∃ other, c.rest.endTagName? = some other ∧ other.sameLetters name = true
  · -- the flat run leaves at this end tag all that waits inside the element
    obtain ⟨other, htag, hsame⟩ := hown
    have hother : f.name = other.lower := hf.trans (Text.sameLetters_iff.1 hsame).symm
    have hout : other.lower ∉ P.map Flattened.name := by
      rcases hstop with hnil | ⟨_, htag', hout, -⟩
      · have hend := atEnd_of_endTagName? htag
        simp [Context.atEnd, hnil] at hend
      · rw [htag, Option.some.injEq] at htag'
        simpa [htag'] using hout
    have hflat : flatTurn d = _ := documentPart_eq_endTag _ _ (B := S) (h.rest ▸ htag)
      (by rw [h.flat]; simp) hother hout
    obtain ⟨hnode, hnext⟩ := endTag_textual.alike InStep.twins_pop h.popElement_leave
    rw [if_pos (by rw [htag]; exact hsame)]
    refine Ends.bind_eq (Prod.eta (endTag c)).symm (Ends.pure (.endTag ?_ hnext))
    rw [hflat, hnode]
  · have hmiss : ¬ (c.rest.endTagName?.any fun other => other.sameLetters name) = true := by
      intro hany
      obtain ⟨other, htag, hsame⟩ := (Option.any_eq_true _ _).1 hany
      exact hown ⟨other, htag, hsame⟩
    rw [if_neg hmiss]
    refine Ends.bind_eq rfl (Ends.pure (.missing (h.popElement_missing name) ?_))
    -- the end tag at the cursor is that of an element further out
    rcases hstop with hnil | ⟨other, htag, hout, hopen⟩
    · exact .inl hnil
    · have hne : other.lower ≠ f.name := fun heq =>
        hown ⟨other, htag, Text.sameLetters_iff.2 (heq.trans hf)⟩
      refine .inr ⟨other, htag, ?_, ?_⟩
      · simpa [hne] using hout
      · simpa [hne] using hopen

/-- **The nodes of an element up to its end.** The flat run reads them turn by turn, and
the cursor stops the element. -/
theorem elementNodes_runs (hl : l.CatchesUp room) (hread : l.Traced) (h : InStep [] [] S c d)
    (name : Text) (place : Option Location) :
    Ends (manyNodes (elementPart l.code l.element name 0)) (c.pushElement name) fun ns e =>
      ∃ ms d' P F, Runs flatTurn (d.pushFlattened name place) ms d' ∧
        Node.piecesAll ms = Node.piecesAll ns ∧ InStep P F (⟨name.lower, place⟩ :: S) e d' ∧
        Stops P F (⟨name.lower, place⟩ :: S) e := by
  have hname : name.lower ∈ List.map Flattened.name (⟨name.lower, place⟩ :: S) := by simp
  have hgo : NodesGoOn (elementPart l.code l.element name 0) :=
    .of_readOn fun _ => elementPart_readOn hread.code hread.element name 0
  refine (Ends.manyNodes_exit hgo
    (fun ns e => Reaches room (⟨name.lower, place⟩ :: S) (d.pushFlattened name place) (Node.piecesAll ns) e)
    (fun _ _ _ _ hreach hturn => reaches_elementPart hl hname hreach hturn)
    ((h.pushElement name place).reaches fun _ => rfl)).imp ?_
  rintro ns c' ⟨e, ⟨ms, d', P, F, hrun, hps, hin, -, hP⟩, hturn⟩
  obtain ⟨rfl, hstop⟩ := elementPart_stops hname hin hP hturn
  exact ⟨ms, d', P, F, hrun, hps, hin, hstop⟩

/-- **The content of an element**: the flat run reads it up to the end of the element,
which still counts as open there. -/
theorem elementContent_inStep (hl : l.CatchesUp room) (hread : l.Traced) (h : InStep [] [] S c d)
    (name : Text) (place : Option Location) :
    Ends (elementContent l.code l.element name place) c fun ns e =>
      ∃ ms d' P last, Runs flatTurn (d.pushFlattened name place) ms d' ∧
        Node.piecesAll ns = Node.piecesAll ms ++ Node.piecesAll last ∧
        d'.flattened = P ++ ⟨name.lower, place⟩ :: S ∧
        LeftInStep P S ⟨name.lower, place⟩ d' last e := by
  have hbase : (c.pushElement name).flattenedCount = 0 := by
    show c.flattened.length = 0
    rw [h.flattened]; rfl
  refine Ends.modify_bind (Ends.get_bind ?_)
  rw [hbase]
  refine Ends.bind (elementNodes_runs hl hread h name place) ?_
  rintro nodes c' ⟨ms, d', P, F, hrun, hps, hin, hstop⟩
  -- the end: what is still flattened is closed here, and waits in the flat run
  refine Ends.bind_eq closeFlattened_zero ?_
  rw [hin.flattened]
  have hstop' : Stops (P ++ F) [] (⟨name.lower, place⟩ :: S) (c'.leave F []) := by
    simpa [Stops, Context.leave] using hstop
  have hend := elementEnd_inStep (f := ⟨name.lower, place⟩) rfl hin.close hstop'
  refine Ends.bind hend fun last e hlast => Ends.modify_bind (Ends.pure ?_)
  exact ⟨ms, d', P ++ F, last, hrun, by rw [Node.piecesAll_append, hps], hin.flat, hlast⟩

theorem LeftInStep.reaches {f : Flattened} {ms last : List Node} {d' e : Context}
    (hrun : Runs flatTurn d ms d') (h : LeftInStep P S f d' last e) (room : ℕ) :
    Reaches (room + 1) S d (Node.piecesAll ms ++ Node.piecesAll last) e := by
  refine Reaches.after hrun ?_
  cases h with
  | endTag hturn hin => exact (hin.reaches fun _ => rfl).turn hturn
  | missing hin hstop => exact ⟨[], d', _, [], .refl d', rfl, hin, fun _ => rfl, fun _ => hstop⟩

/-- The name in a start tag stands inside it. -/
theorem Shows.place_within {o : Opening} {name : Text} {w : ℤ} (h : Shows o d) (htag : Trace false c [o.tag] w d)
    (hname : o.name = some name) :
    ∃ l, o.place = some l ∧ c.pos.offset ≤ l.start.offset ∧ l.start.offset < d.pos.offset := by
  obtain ⟨l, hl, rfl⟩ := h.placed name hname
  obtain ⟨n, hmem, -, hn⟩ := h.place l hl
  have hpiece : l ∈ (Node.piecesAll [o.tag]).map Piece.location := by
    cases n with
    | leaf k v l' u =>
      cases hn
      have hleaf := Node.mem_piecesAll (p := .leaf k v l) hmem (by simp [Node.pieces])
      exact List.mem_map.2 ⟨_, by simpa using o.tag.piecesAll_children_sublist.subset hleaf, rfl⟩
    | branch => cases hn
  obtain ⟨ts, hts, hmoved⟩ := htag.reads
  rw [hts] at hpiece
  obtain ⟨u, v, w, hflatten, rfl⟩ := Location.mem_tile hpiece
  -- a name is not empty, so it starts before the tag ends
  have hpos := List.length_pos_of_ne_nil (h.nonempty _ hname)
  refine ⟨_, hl, ?_, ?_⟩
  · simp [Location.ofText, Position.offset_after]
  · rw [Location.text_ofText] at hpos
    rw [hmoved.pos, hflatten]
    simp only [Location.ofText, Position.offset_after, List.length_append]
    omega

/-- **An element and its flat run.** They give the same node, or the flat run goes on to
read what the element contains. At the end of that the element is still open. -/
theorem nestedElement_inStep (hl : l.CatchesUp room) (hread : l.Traced) (h : InStep [] [] S c d) :
    Both (nestedElement l.code l.element) (flatElement Level.ground.code) c d fun n e n' d' =>
      (n = n' ∧ InStep [] [] S e d') ∨
      ∃ f x ms d'' P last, f.location = some x ∧ x.start.offset < d'.pos.offset ∧
        Runs flatTurn d' ms d'' ∧ n.pieces = n'.pieces ++ (Node.piecesAll ms ++ Node.piecesAll last) ∧
        d''.flattened = P ++ f :: S ∧ LeftInStep P S f d'' last e := by
  have htags := tagCongruence_twins (R := InStep [] [] S) InStep.twins
  have hcode : ∀ c, c.atTransition = true → ∀ d, InStep [] [] S c d →
      Alike (InStep [] [] S) l.code Level.ground.code c d := fun _ ht _ h => hl.code h ht
  refine Both.modify_right ?_
  refine (htags.opening hcode d.reportTooDeep h.reportTooDeep_right).both_bind_ends
    (opening_traces (Level.traced_ofRoom 0).code) fun o c' d' h hopened => ?_
  cases hname : o.contentName? with
  | none => exact .inl ⟨rfl, h⟩
  | some name =>
    dsimp only
    by_cases hraw : Html.isRawText name = true
    · rw [if_pos hraw, if_pos hraw]
      refine (htags.rawTextContent hcode name d' h).both_bind fun rest _ _ h => ?_
      exact .inl ⟨rfl, h⟩
    · rw [if_neg hraw, if_neg hraw]
      obtain ⟨x, hx, -, hlt⟩ := hopened.2.place_within hopened.1 (Option.filter_eq_some_iff.1 hname).1
      obtain ⟨ms, d'', P, last, hrun, hps, hflat, hlast⟩ := elementContent_inStep hl hread h name o.place
      -- the element reads on, while its flat twin has ended and is only remembered
      refine .inr ⟨⟨name.lower, o.place⟩, x, ms, d'', P, last, hx, hlt, hrun, ?_, hflat, hlast⟩
      show (Node.ofChildren o.kind (o.tag :: (elementContent l.code l.element name o.place c').1)).pieces =
        (Node.ofChildren o.kind [o.tag]).pieces ++ _
      simp [hps]

/-- **The flat run catches up with an element.** Its start tag is read on both
sides; what it contains comes after it in the flat run. -/
theorem nestedElement_catches (hl : l.CatchesUp room) (hread : l.Traced) (h : InStep [] [] S c d) :
    Both (nestedElement l.code l.element) (flatElement Level.ground.code) c d (Catches (room + 1) S) := by
  rcases nestedElement_inStep hl hread h with halike | ⟨f, x, ms, d', P, last, -, -, hrun, hps, -, hlast⟩
  · exact Alike.catches halike fun _ => rfl
  · exact ⟨_, hps, hlast.reaches hrun room⟩

theorem flatElement_catches (h : InStep [] F S c d) :
    Both (flatElement Level.ground.code) (flatElement Level.ground.code) c d (Catches 0 S) := by
  have htags := tagCongruence_twins (R := InStep [] F S) InStep.twins
  have hcode : ∀ c, c.atTransition = true → ∀ d, InStep [] F S c d →
      Alike (InStep [] F S) Level.ground.code Level.ground.code c d :=
    fun _ ht _ h => embedded_inStep flatBody flatBody h ht
  refine Both.modify_left (Both.modify_right ?_)
  have hdeep := h.reportTooDeep_left.reportTooDeep_right
  refine (htags.opening hcode _ hdeep).both_bind fun o c' d' h => ?_
  cases o.contentName? with
  | none => exact (Alike.pure h _).catches (absurd rfl)
  | some name =>
    dsimp only
    refine Both.ite Iff.rfl (fun _ => ?_) fun _ => ?_
    · refine (htags.rawTextContent hcode name d' h).both_bind fun _ _ _ h => ?_
      exact (Alike.pure h _).catches (absurd rfl)
    · refine Both.modify_left (Both.modify_right ?_)
      exact (Alike.pure (h.pushFlattened name o.place) _).catches (absurd rfl)

end Parse

/-- **The flat run catches up with code and elements at every level of nesting.** -/
theorem Level.catchesUp_ofRoom (room : ℕ) : (ofRoom room).CatchesUp room := by
  induction room with
  | zero =>
    exact ⟨Parse.embedded_inStep _ _, fun h _ => Parse.flatElement_catches h⟩
  | succ room ih =>
    refine ⟨Parse.embedded_inStep _ _, fun {F S c d} h hF => ?_⟩
    obtain rfl := hF (Nat.succ_ne_zero room)
    exact Parse.nestedElement_catches ih (traced_ofRoom room) h

/-! ## Whole documents -/

namespace Parse

theorem documentPart_goesOn (room base : ℕ) :
    NodesGoOn (documentPart (Level.ofRoom room).code (Level.ofRoom room).element base) :=
  .of_readOn fun _ => documentPart_readOn (Level.traced_ofRoom room).code
    (Level.traced_ofRoom room).element base

theorem document_eq {code element : Parse Node} (h : c.flattened = []) :
    document code element c = (.ofChildren .document (manyNodes (documentPart code element 0) c).1,
      (closeFlattened 0 (manyNodes (documentPart code element 0) c).2).2) := by
  have hbase : c.flattenedCount = 0 := by rw [Context.flattenedCount, h]; rfl
  rw [document, bind_apply, get_apply, hbase]; rfl

/-- **A document and its flat run.** They have the same pieces, and report the same
up to what depends on the limit. -/
theorem document_flat (room : ℕ) (h : InStep [] [] [] c d) :
    Both (document (Level.ofRoom room).code (Level.ofRoom room).element)
      (document Level.ground.code Level.ground.element) c d
      fun n e n' e' => n.pieces = n'.pieces ∧ gists e.diagnostics = gists e'.diagnostics := by
  have hl := Level.catchesUp_ofRoom room
  have hloop : Ends (manyNodes (documentPart (Level.ofRoom room).code (Level.ofRoom room).element 0)) c
      fun ns e => ∃ e', Reaches room [] d (Node.piecesAll ns) e' ∧
        documentPart (Level.ofRoom room).code (Level.ofRoom room).element 0 e' = (none, e) := by
    refine Ends.manyNodes_exit (documentPart_goesOn room 0) _ ?_ (h.reaches fun _ => rfl)
    intro ns e n e' hreach hturn
    have hc : e.rest ≠ [] := by
      intro hnil
      rw [documentPart_atEnd hnil] at hturn; cases hturn
    exact reaches_documentPart hl hreach hc (fun _ _ => .inr (by simp)) hturn
  obtain ⟨e, ⟨ms, d', P, F, hrun, hps, hin, -, -⟩, hnone⟩ := hloop
  -- both loops have come to the end of the template
  obtain ⟨hrest, heq⟩ := documentPart_none hnone
  have hflat : manyNodes flatTurn d = (ms, d') :=
    hrun.manyNodes_eq (documentPart_goesOn 0 0) (documentPart_atEnd (hin.rest.trans hrest))
  unfold Both
  rw [document_eq h.flattened, document_eq h.flat, show documentPart _ _ 0 = flatTurn from rfl, hflat, heq,
    closeFlattened_zero, closeFlattened_zero]
  refine ⟨by simp [hps], ?_⟩
  simp [Context.leave, gists_append, hin.reported, hin.flattened, hin.flat, hin.pos]

end Parse

/-- The document of a template without blocks and its flat run. -/
theorem document_limit (options : ParseOptions) (m : ℕ) {t : Text}
    (h : ¬ [options.transition, '{'] <:+: t) :
    (Template.document { options with maxNestingDepth := m } t).1.pieces =
        (Template.document { options with maxNestingDepth := 0 } t).1.pieces ∧
      gists (Template.document { options with maxNestingDepth := m } t).2.diagnostics =
        gists (Template.document { options with maxNestingDepth := 0 } t).2.diagnostics := by
  have hstep : InStep [] [] [] (.atDocument { options with maxNestingDepth := m } t)
      (.atDocument { options with maxNestingDepth := 0 } t) :=
    ⟨rfl, rfl, rfl, rfl, h, rfl, rfl, rfl, rfl⟩
  have hflat := Parse.document_flat m hstep
  unfold Parse.Both at hflat
  unfold Template.document
  exact hflat

/-- **The nesting limit changes the shape of the tree only.** Two runs over a
template without blocks, with any limits, have the same blanks and leaves in the
same order and report the same problems at the same places, apart from the limit
itself and from whether an end tag that closes nothing counts as mismatched. -/
theorem parse_limits_agree (options : ParseOptions) (m₁ m₂ : ℕ) (t : Text)
    (hlang : options.language ∈ Registry.standard.languages) (hblock : ¬ [options.transition, '{'] <:+: t) :
    ∃ r₁ r₂, Template.parse { options with maxNestingDepth := m₁ } t = .ok r₁ ∧
      Template.parse { options with maxNestingDepth := m₂ } t = .ok r₂ ∧
      Node.piecesAll r₁.nodes = Node.piecesAll r₂.nodes ∧
      gists r₁.diagnostics = gists r₂.diagnostics := by
  refine ⟨_, _, parse_eq_document t hlang, parse_eq_document t hlang, ?_⟩
  obtain ⟨hpieces₁, hgists₁⟩ := document_limit options m₁ hblock
  obtain ⟨hpieces₂, hgists₂⟩ := document_limit options m₂ hblock
  refine ⟨?_, hgists₁.trans hgists₂.symm⟩
  simp only [Node.piecesAll_cons, pos_document, hpieces₁, hpieces₂]

theorem parse_limits_agree_unclosed :
    ({} : ParseOptions).language ∈ Registry.standard.languages ∧
      ¬ ['@', '{'] <:+: ['<', 'a', '>', '<', 'b', '>', '<', '/', 'a', '>'] ∧
      ∃ r₁ r₂,
        Template.parse { ({} : ParseOptions) with maxNestingDepth := 0 }
          ['<', 'a', '>', '<', 'b', '>', '<', '/', 'a', '>'] = .ok r₁ ∧
        Template.parse { ({} : ParseOptions) with maxNestingDepth := 2 }
          ['<', 'a', '>', '<', 'b', '>', '<', '/', 'a', '>'] = .ok r₂ ∧
        Node.piecesAll r₁.nodes = Node.piecesAll r₂.nodes ∧
        gists r₁.diagnostics = gists r₂.diagnostics :=
  ⟨by decide, by decide, parse_limits_agree {} 0 2 _ (by decide) (by decide)⟩

end Stencil
