import Stencil.Proofs.SourceMaps

/-!
# The books of an emitter

An emitter keeps five counts and three lists while it writes: where the code ends, how long
it is, its mappings, its ranges and what it handed on to a source map. Whatever it is asked to
write, by single calls, for whole trees or inside scopes, in any order and with any places,
the books are in order at the end.

Everything comes down to a list of calls (`Action.callsAll`), for the scopes only decide
which calls are made. A call writes at most two lines, and a line keeps the books
(`Recorded`): they are those of a text that was written piece by piece.

* `Node.emit_makes`: **a tree of any shape is written by its calls**, and the scopes are left
  as they were found.
* `Emitter.Books.perform`: what one call adds.
* `Recorded.exact`: **the books of a text that was written piece by piece are exact.**
* `perform_books`: the books after any use of an emitter.
-/

namespace Stencil

/-! ## Calls -/

/-- One call of an emitter. -/
inductive Call where
  | literal (t : Text) (l : Location)
  | statement (code : Text) (l : Location)
  | expression (code : Text) (l : Location)
  | line (t : Text)
  | flush
deriving DecidableEq, Repr, Inhabited

namespace Call

def perform (e : Emitter) : Call → Emitter
  | literal t l => e.literal t l
  | statement code l => e.statement code l
  | expression code l => e.expression code l
  | line t => e.line t
  | flush => e.flush

/-- What is written for the literal text that waits: the text with its escapes. -/
def escaped (waiting : Text) : List (RangeKind × Text) :=
  if waiting.isEmpty then [] else [(.html, waiting.flatMap Text.quotedChar)]

/-- What calls write from what they are given: code as it stands, and literal text with its
escapes, adjacent pieces of it joined. -/
def contents (waiting : Text) : List Call → List (RangeKind × Text)
  | [] => escaped waiting
  | literal t _ :: cs => contents (waiting ++ t) cs
  | statement code _ :: cs | expression code _ :: cs =>
    if code.allBlank then contents waiting cs else escaped waiting ++ (.javascript, code) :: contents [] cs
  | line _ :: cs | flush :: cs => escaped waiting ++ contents [] cs

end Call

namespace Node

/-- The call for the blanks on one side of a node. -/
def blankCalls (l : Option Location) : List Call :=
  l.toList.map fun l => .literal l.text l

/-- The call for a code expression. -/
def expressionCalls (scope : Option Scope) (children : List Node) : List Call :=
  match children.find? fun n => n.kind == .codeValue with
  | some (leaf _ (.token code) l _) =>
    [if scope = some .insideTag then .expression code l else .statement code l]
  | _ => []

/-- The call for a brace of the code. -/
def braceCalls (first : Bool) : Node → List Call
  | leaf _ (.token brace) l _ => [.statement brace l]
  | leaf _ _ l _ => [.statement (if first then ['{'] else ['}']) l]
  | branch _ _ _ => []

/-- The call for a leaf, by its kind. -/
def leafCalls (k : Kind) (content : Leaf) (l : Location) : List Call :=
  match k, content with
  | .codeValue, .token code => [.statement code l]
  | .escapedTransition, .token value => [.literal value l]
  | .trivia, _ | .literal, _ | .brace, _ | .bracket, _ | .equals, _ | .quote, _ | .doctype, _
  | .commentStart, _ | .commentContent, _ | .commentEnd, _ | .cdataStart, _ | .cdataContent, _
  | .cdataEnd, _ | .htmlTagName, _ | .attributeName, _ | .rawText, _ => [.literal l.text l]
  | _, _ => []

mutual

/-- The calls that a tree of any shape is written by, in a scope. -/
def calls (scope : Option Scope) : Node → List Call
  | leaf k c l t => blankCalls t.lead ++ leafCalls k c l ++ blankCalls t.trail
  | branch k cs t =>
    let inner :=
      match k with
      | .document => callsAll (some .document) cs
      | .htmlTag | .scriptTag | .styleTag => callsAll (some .insideTag) cs
      | .codeBlock => blockCalls (some .insideCodeBlock) cs
      | .codeBrace => bracesCalls scope true cs
      | .codeExpression => expressionCalls scope cs
      | .htmlStartTag | .htmlAttributes | .htmlAttribute | .attributeValue | .htmlEndTag
      | .comment | .cdata => callsAll scope cs
      | _ => []
    blankCalls t.lead ++ inner ++ blankCalls t.trail

def callsAll (scope : Option Scope) : List Node → List Call
  | [] => []
  | n :: ns => calls scope n ++ callsAll scope ns

/-- The calls for the parts of a code block. -/
def blockCalls (scope : Option Scope) : List Node → List Call
  | [] => []
  | n :: ns =>
    if n.kind = .transition ∨ n.kind = .brace then blockCalls scope ns
    else calls scope n ++ blockCalls scope ns

/-- The calls for the parts of nested braces. -/
def bracesCalls (scope : Option Scope) (first : Bool) : List Node → List Call
  | [] => []
  | n :: ns =>
    (if n.kind = .brace then braceCalls first n else calls scope n) ++ bracesCalls scope false ns

end

end Node

/-- One use of an emitter: a call, a tree to write, or some uses inside a scope. -/
inductive Action where
  | call (c : Call)
  | emit (n : Node)
  | within (s : Scope) (actions : List Action)

namespace Action

mutual

def perform : Action → Emitter → Emitter
  | call c, e => c.perform e
  | emit n, e => n.emit e
  | within s as, e => e.within s (performAll as)

def performAll : List Action → Emitter → Emitter
  | [], e => e
  | a :: as, e => performAll as (perform a e)

end

mutual

/-- The calls that an action comes down to, in a scope. -/
def calls (scope : Option Scope) : Action → List Call
  | call c => [c]
  | emit n => n.calls scope
  | within s as => callsAll (some s) as

def callsAll (scope : Option Scope) : List Action → List Call
  | [] => []
  | a :: as => calls scope a ++ callsAll scope as

end

end Action

/-! ## Actions come down to calls -/

namespace Emitter

/-- The emitter without its scopes. -/
def bare (e : Emitter) : Emitter :=
  { e with scopes := [], maxDepth := 0 }

/-- From `e` to `e'` the calls were made, and the scopes are as before. -/
structure Makes (e : Emitter) (cs : List Call) (e' : Emitter) : Prop where
  bare : e'.bare = cs.foldl Call.perform e.bare
  scopes : e'.scopes = e.scopes

variable {e e' e'' : Emitter} {cs ds : List Call}

namespace Makes

theorem refl (e : Emitter) : e.Makes [] e := ⟨rfl, rfl⟩

/-- Calls may be followed by more calls. -/
theorem trans (h : e.Makes cs e') (h' : e'.Makes ds e'') : e.Makes (cs ++ ds) e'' :=
  ⟨by rw [h'.bare, h.bare, List.foldl_append], h'.scopes.trans h.scopes⟩

/-- The scope is that of the beginning. -/
theorem scope? (h : e.Makes cs e') : e'.scope? = e.scope? := by
  rw [Emitter.scope?, Emitter.scope?, h.scopes]

/-- The calls that are made inside a scope are made. -/
theorem within {s : Scope} {act : Emitter → Emitter} (h : (e.enter s).Makes cs (act (e.enter s))) :
    e.Makes cs (e.within s act) := by
  refine ⟨h.bare, ?_⟩
  show (act (e.enter s)).scopes.tail = e.scopes
  rw [h.scopes]; rfl

end Makes

theorem bare_addRange (e : Emitter) (k : RangeKind) (p q : Position) (i j : ℕ) (v : Bool) :
    (e.addRange k p q i j v).bare = e.bare.addRange k p q i j v := by
  have hc : e.bare.collectRanges = e.collectRanges := rfl
  unfold addRange
  rw [hc]
  cases e.collectRanges <;> rfl

/-- Scopes play no part in what is written. -/
theorem bare_flush (e : Emitter) : e.flush.bare = e.bare.flush := by
  have hp : e.bare.pending = e.pending := rfl
  unfold flush
  rw [hp]
  cases e.pending with
  | none => rfl
  | some p => exact bare_addRange ..

theorem bare_literal (e : Emitter) (t : Text) (l : Location) : (e.literal t l).bare = e.bare.literal t l := by
  have hp : e.bare.pending = e.pending := rfl
  unfold literal
  rw [hp]
  split
  · rfl
  · cases e.pending <;> rfl

theorem bare_codeLine (e : Emitter) (opening closing code : Text) (l : Location) :
    (e.codeLine opening closing code l).bare = e.bare.codeLine opening closing code l := by
  unfold codeLine
  rw [← bare_flush]
  split
  · rfl
  · exact bare_addRange ..

theorem bare_line (e : Emitter) (t : Text) : (e.line t).bare = e.bare.line t := by
  unfold line
  rw [← bare_flush]; rfl

theorem scopes_literal (e : Emitter) (t : Text) (l : Location) : (e.literal t l).scopes = e.scopes :=
  scopes_put e ⟨.lit t, l, false⟩

/-- No call looks at the scopes. -/
theorem makes_perform (e : Emitter) (c : Call) : e.Makes [c] (c.perform e) := by
  cases c with
  | literal t l => exact ⟨bare_literal e t l, scopes_literal e t l⟩
  | statement code l => exact ⟨bare_codeLine .., scopes_codeLine ..⟩
  | expression code l => exact ⟨bare_codeLine .., scopes_codeLine ..⟩
  | line t => exact ⟨bare_line e t, scopes_flush e⟩
  | flush => exact ⟨bare_flush e, scopes_flush e⟩

end Emitter

namespace Node

open Emitter

variable {e : Emitter}

/-- Blanks are emitted by their calls. -/
theorem emitBlanks_makes (l : Option Location) (e : Emitter) : e.Makes (blankCalls l) (emitBlanks l e) := by
  cases l with
  | none => exact .refl e
  | some l => exact e.makes_perform (.literal l.text l)

/-- So are leaves, -/
theorem emitLeaf_makes (k : Kind) (c : Leaf) (l : Location) (e : Emitter) :
    e.Makes (leafCalls k c l) (emitLeaf k c l e) := by
  cases k with
  | codeValue | escapedTransition =>
    cases c with
    | token v => exact e.makes_perform _
    | missing => exact .refl e
    | marker => exact .refl e
  | document | htmlTag | scriptTag | styleTag | codeBlock => exact .within (.refl _)
  | _ => first | exact e.makes_perform (.literal l.text l) | exact .refl e

/-- and expressions, which depend on the scope, -/
theorem emitExpression_makes (cs : List Node) (e : Emitter) :
    e.Makes (expressionCalls e.scope? cs) (emitExpression cs e) := by
  unfold expressionCalls emitExpression
  cases cs.find? fun n => n.kind == .codeValue with
  | none => exact .refl e
  | some n =>
    cases n with
    | branch k cs t => exact .refl e
    | leaf k c l t =>
      cases c with
      | missing => exact .refl e
      | marker => exact .refl e
      | token code =>
        dsimp only
        split
        · exact e.makes_perform (.expression code l)
        · exact e.makes_perform (.statement code l)

/-- and braces. -/
theorem emitBrace_makes (first : Bool) (n : Node) (e : Emitter) :
    e.Makes (braceCalls first n) (emitBrace first n e) := by
  cases n with
  | branch k cs t => exact .refl e
  | leaf k c l t =>
    cases c with
    | token brace => exact e.makes_perform (.statement brace l)
    | missing => exact e.makes_perform (.statement _ l)
    | marker => exact e.makes_perform (.statement _ l)

/-- The three ways to emit the children of a branch are their calls. -/
structure ChildrenMake (cs : List Node) : Prop where
  all : ∀ e : Emitter, e.Makes (callsAll e.scope? cs) (emitAll cs e)
  block : ∀ e : Emitter, e.Makes (blockCalls e.scope? cs) (emitBlock cs e)
  braces : ∀ (e : Emitter) (first : Bool), e.Makes (bracesCalls e.scope? first cs) (emitBraces first cs e)

/-- **A branch makes the calls of its children** in its own way. -/
theorem emitInner_makes {cs : List Node} (hcs : ChildrenMake cs) (k : Kind) (e : Emitter) :
    e.Makes (calls e.scope? (branch k cs {})) (emitInner k cs e) := by
  have hbare : ∀ {ds : List Call}, blankCalls none ++ ds ++ blankCalls none = ds := by simp [blankCalls]
  cases k with
  | document => rw [calls, hbare]; exact .within (hcs.all (e.enter .document))
  | htmlTag | scriptTag | styleTag => rw [calls, hbare]; exact .within (hcs.all (e.enter .insideTag))
  | codeBlock => rw [calls, hbare]; exact .within (hcs.block (e.enter .insideCodeBlock))
  | codeBrace => rw [calls, hbare]; exact hcs.braces e true
  | codeExpression => rw [calls, hbare]; exact emitExpression_makes cs e
  | htmlStartTag | htmlAttributes | htmlAttribute | attributeValue | htmlEndTag | comment | cdata =>
    rw [calls, hbare]; exact hcs.all e
  | _ => exact .refl e

mutual

/-- **A tree of any shape is written by its calls**, and leaves the scopes as it found them. -/
theorem emit_makes : ∀ (n : Node) (e : Emitter), e.Makes (calls e.scope? n) (emit n e)
  | leaf k c l t, e => by
    rw [calls, emit]
    exact ((emitBlanks_makes t.lead e).trans (emitLeaf_makes k c l _)).trans (emitBlanks_makes t.trail _)
  | branch k cs t, e => by
    have hlead := emitBlanks_makes t.lead e
    have hinner := emitInner_makes (childrenMake cs) k (emitBlanks t.lead e)
    rw [hlead.scope?] at hinner
    have hcalls : calls e.scope? (branch k cs t) =
        blankCalls t.lead ++ calls e.scope? (branch k cs {}) ++ blankCalls t.trail := by
      simp [calls, blankCalls]
    rw [hcalls, emit_branch]
    exact (hlead.trans hinner).trans (emitBlanks_makes t.trail _)

/-- **Every tree makes its calls**, by induction on it. -/
theorem childrenMake : ∀ ns : List Node, ChildrenMake ns
  | [] => ⟨fun e => .refl e, fun e => .refl e, fun e _ => .refl e⟩
  | n :: ns => by
    have hns := childrenMake ns
    have hn := emit_makes n
    refine ⟨fun e => ?_, fun e => ?_, fun e first => ?_⟩
    · rw [callsAll, emitAll]
      have hrest := hns.all (emit n e)
      rw [(hn e).scope?] at hrest
      exact (hn e).trans hrest
    · rw [blockCalls, emitBlock]
      split
      · exact hns.block e
      · have hrest := hns.block (emit n e)
        rw [(hn e).scope?] at hrest
        exact (hn e).trans hrest
    · rw [bracesCalls, emitBraces]
      split
      · have hbrace := emitBrace_makes first n e
        have hrest := hns.braces (emitBrace first n e) false
        rw [hbrace.scope?] at hrest
        exact hbrace.trans hrest
      · have hrest := hns.braces (emit n e) false
        rw [(hn e).scope?] at hrest
        exact (hn e).trans hrest

end

end Node

namespace Action

mutual

/-- **Actions make their calls**, too. -/
theorem perform_makes : ∀ (a : Action) (e : Emitter), e.Makes (calls e.scope? a) (perform a e)
  | call c, e => by rw [calls, perform]; exact e.makes_perform c
  | emit n, e => by rw [calls, perform]; exact n.emit_makes e
  | within s as, e => by rw [calls, perform]; exact .within (performAll_makes as (e.enter s))

/-- **Whatever an emitter is used for, it comes down to calls.** -/
theorem performAll_makes : ∀ (as : List Action) (e : Emitter), e.Makes (callsAll e.scope? as) (performAll as e)
  | [], e => .refl e
  | a :: as, e => by
    have ha := perform_makes a e
    have has := performAll_makes as (perform a e)
    rw [ha.scope?] at has
    rw [callsAll, performAll]
    exact ha.trans has

end

end Action

/-! ## What a source map is told -/

namespace Emitter

/-- The mappings that were handed on are those that were recorded. -/
def Traces (e : Emitter) : Prop :=
  e.traced = e.output.mappings

variable {e e' : Emitter} {cs : List Call}

theorem Traces.addRange (h : e.Traces) (k : RangeKind) (p q : Position) (i j : ℕ) (v : Bool) :
    (e.addRange k p q i j v).Traces := by
  unfold Emitter.addRange
  split <;> exact h

theorem Traces.write (h : e.Traces) (t : Text) : (e.write t).Traces :=
  h.trans (Output.mappings_push e.output t).symm

/-- A mapping is handed on when it is recorded. -/
theorem Traces.mapHere (h : e.Traces) (p : Position) : (e.mapHere p).Traces :=
  congrArg (· ++ [e.output.mappingHere p.line (e.unitColumn p)]) h

/-- Waiting text hands its mapping on when it is written. -/
theorem Traces.flush (h : e.Traces) : e.flush.Traces := by
  unfold Emitter.flush
  cases e.pending with
  | none => exact h
  | some p =>
    have hbare : { e with pending := none }.Traces := h
    exact Traces.addRange (((((hbare.write _).mapHere _).write _).write _).write _) ..

/-- So does a line of code. -/
theorem Traces.codeLine (h : e.Traces) (opening closing code : Text) (l : Location) :
    (e.codeLine opening closing code l).Traces := by
  unfold Emitter.codeLine
  split
  · exact h
  · exact Traces.addRange (((((h.flush.write _).write _).mapHere _).write _).write _) ..

/-- So does every call. -/
theorem Traces.perform (h : e.Traces) (c : Call) : (c.perform e).Traces := by
  cases c with
  | literal t l =>
    show (e.literal t l).Traces
    unfold Emitter.literal
    split
    · exact h
    · split <;> exact h
  | statement code l => exact h.codeLine ..
  | expression code l => exact h.codeLine ..
  | line t => exact (h.flush.write t).write _
  | flush => exact h.flush

theorem Traces.foldl (h : e.Traces) (cs : List Call) : (cs.foldl Call.perform e).Traces := by
  induction cs generalizing e with
  | nil => exact h
  | cons c cs ih => exact ih (h.perform c)

/-- **Whatever is emitted**, its mappings are handed on. -/
theorem Makes.traces (h : e.Makes cs e') (ht : e.Traces) : e'.Traces := by
  have hbare : e'.bare.Traces := by
    have ht : e.bare.Traces := ht
    rw [h.bare]
    exact ht.foldl cs
  exact hbare

end Emitter

/-- **The source map of a template is told the mappings of its output.** -/
theorem Template.traced_render (r : Template) (options : RenderOptions) :
    (r.render options).traced = (r.render options).mappings := by
  have hhead : (r.emitter options).Traces := rfl
  have hline := hhead.perform (.line s!"export default function {options.functionName}(model, __writer) \x7b".toList)
  have hnodes := ((Node.childrenMake r.nodes).all _).traces hline
  exact (hnodes.perform (.line ['}'])).flush

/-! ## A text that is written piece by piece -/

/-- What stands between the point that is mapped and what comes from the source. -/
def RangeKind.opening : RangeKind → Text
  | html => "__writer.writeLiteral(".toList ++ ['"']
  | javascript => []

/-- The mappings and ranges of a text that was written piece by piece: each piece has a mapping
at the place where its call begins and a range for its content. -/
inductive Recorded : Text → List Mapping → List CodeRange → List (RangeKind × Text) → Prop
  | start : Recorded [] [] [] []
  | text {code ms rs cs} (t : Text) : Recorded code ms rs cs → Recorded (code ++ t) ms rs cs
  | piece {code ms rs cs} {m : Mapping} {r : CodeRange} {c : RangeKind × Text} :
      Recorded code ms rs cs → m.generated = code.endPoint → r.kind = c.1 →
      r.compiledStart = (code ++ c.1.opening).units →
      r.compiledStop = (code ++ c.1.opening ++ c.2).units → c.2 ≠ [] →
      Recorded (code ++ c.1.opening ++ c.2) (ms ++ [m]) (rs ++ [r]) (cs ++ [c])

/-- The mapping and the range are of one piece: in the code the range starts where the call
for it has been opened after the point of the mapping. -/
def CodeRange.StartsAt (code : Text) (m : Mapping) (r : CodeRange) : Prop :=
  ∃ before after, code = before ++ r.kind.opening ++ after ∧ m.generated = before.endPoint ∧
    r.compiledStart = (before ++ r.kind.opening).units

/-- The range holds the content. -/
def CodeRange.Cuts (code : Text) (r : CodeRange) (c : RangeKind × Text) : Prop :=
  r.kind = c.1 ∧ ∃ before after, code = before ++ c.2 ++ after ∧
    r.compiledStart = before.units ∧ r.compiledStop = (before ++ c.2).units

/-- What is written later does not move a range. -/
theorem CodeRange.StartsAt.append {code : Text} {m : Mapping} {r : CodeRange} (h : r.StartsAt code m) (t : Text) :
    r.StartsAt (code ++ t) m := by
  obtain ⟨before, after, hcode, hrest⟩ := h
  exact ⟨before, after ++ t, by rw [hcode]; simp, hrest⟩

/-- Nor does it change the code in it. -/
theorem CodeRange.Cuts.append {code : Text} {r : CodeRange} {c : RangeKind × Text} (h : r.Cuts code c) (t : Text) :
    r.Cuts (code ++ t) c := by
  obtain ⟨hkind, before, after, hcode, hrest⟩ := h
  exact ⟨hkind, before, after ++ t, by rw [hcode]; simp, hrest⟩

namespace Recorded

variable {code : Text} {ms : List Mapping} {rs : List CodeRange} {cs : List (RangeKind × Text)}

/-- Each mapping is the start of its range. -/
theorem startsAt (h : Recorded code ms rs cs) : List.Forall₂ (fun m r => r.StartsAt code m) ms rs := by
  induction h with
  | start => exact .nil
  | text t _ ih => exact ih.imp fun _ _ h => h.append t
  | @piece code ms rs cs m r c _ hm hkind hstart _ _ ih =>
    refine List.rel_append (ih.imp fun _ _ h => ?_) (.cons ?_ .nil)
    · rw [List.append_assoc]; exact h.append _
    · exact ⟨code, c.2, by rw [hkind], hm, by rw [hkind, hstart]⟩

/-- Each range cuts out the code of its call. -/
theorem cuts (h : Recorded code ms rs cs) : List.Forall₂ (CodeRange.Cuts code) rs cs := by
  induction h with
  | start => exact .nil
  | text t _ ih => exact ih.imp fun _ _ h => h.append t
  | piece _ _ hkind hstart hstop _ ih =>
    refine List.rel_append (ih.imp fun _ _ h => ?_) (.cons ?_ .nil)
    · rw [List.append_assoc]; exact h.append _
    · exact ⟨hkind, _, [], by simp, hstart, hstop⟩

/-- Each mapping was made at the end of what was written before. -/
theorem points (h : Recorded code ms rs cs) : ∀ m ∈ ms, ∃ before : Text, before <+: code ∧
    m.generated = before.endPoint := by
  induction h with
  | start => simp
  | text t _ ih =>
    intro m hm
    obtain ⟨before, hbefore, hpoint⟩ := ih m hm
    exact ⟨before, hbefore.trans (List.prefix_append _ _), hpoint⟩
  | @piece code ms rs cs m r c _ hm _ _ _ _ ih =>
    have hcode : code <+: code ++ c.1.opening ++ c.2 := by rw [List.append_assoc]; exact List.prefix_append _ _
    simp only [List.mem_append, List.mem_singleton]
    rintro m' (hm' | rfl)
    · obtain ⟨before, hbefore, hpoint⟩ := ih m' hm'
      exact ⟨before, hbefore.trans hcode, hpoint⟩
    · exact ⟨code, hcode, hm⟩

/-- The points of the mappings grow, and all come before the end of the code. -/
theorem growing (h : Recorded code ms rs cs) :
    (ms.map Mapping.generated).Pairwise (· < ·) ∧ ∀ m ∈ ms, m.generated < code.endPoint := by
  induction h with
  | start => simp
  | text t _ ih => exact ⟨ih.1, fun m hm => Point.lt_of_lt_of_le (ih.2 m hm) (Text.endPoint_le_append _ t)⟩
  | @piece code ms rs cs m r c _ hm _ _ _ hne ih =>
    have hend : code.endPoint < (code ++ c.1.opening ++ c.2).endPoint := by
      rw [List.append_assoc]
      exact Text.endPoint_lt_append _ (by simp [hne])
    have hbefore : ∀ m' ∈ ms, m'.generated < (code ++ c.1.opening ++ c.2).endPoint := fun m' hm' =>
      Point.lt_of_lt_of_le (ih.2 m' hm') (Point.le_of_lt hend)
    refine ⟨?_, ?_⟩
    · rw [List.map_append, List.pairwise_append]
      refine ⟨ih.1, List.pairwise_singleton _ _, ?_⟩
      simp only [List.mem_map, List.map_cons, List.map_nil, List.mem_singleton]
      rintro _ ⟨m', hm', rfl⟩ _ rfl
      rw [hm]; exact ih.2 m' hm'
    · simp only [List.mem_append, List.mem_singleton]
      rintro m' (hm' | rfl)
      · exact hbefore m' hm'
      · rw [hm]; exact hend

/-- The ranges are not empty, come one after the other and lie in the code. -/
theorem disjoint (h : Recorded code ms rs cs) :
    (rs.Pairwise fun a b => a.compiledStop ≤ b.compiledStart) ∧
      ∀ r ∈ rs, r.compiledStart < r.compiledStop ∧ r.compiledStop ≤ code.units := by
  induction h with
  | start => simp
  | text t _ ih =>
    refine ⟨ih.1, fun r hr => ⟨(ih.2 r hr).1, (ih.2 r hr).2.trans ?_⟩⟩
    rw [Text.units_append]; omega
  | @piece code ms rs cs m r c _ _ _ hstart hstop hne ih =>
    have hpos := Text.units_pos hne
    simp only [Text.units_append] at hstart hstop ⊢
    refine ⟨?_, ?_⟩
    · rw [List.pairwise_append]
      refine ⟨ih.1, List.pairwise_singleton _ _, fun a ha b hb => ?_⟩
      have hle := (ih.2 a ha).2
      rw [List.mem_singleton.1 hb]; omega
    · simp only [List.mem_append, List.mem_singleton]
      rintro a (ha | rfl)
      · have hle := (ih.2 a ha).2
        exact ⟨(ih.2 a ha).1, by omega⟩
      · omega

end Recorded

/-- The books of an output are exact. -/
structure Output.Exact (o : Output) (contents : List (RangeKind × Text)) : Prop where
  /-- Each mapping has the true line and column of an offset in the code. -/
  points : ∀ m ∈ o.mappings, ∃ k ≤ o.code.length, m.generated = Text.endPoint (o.code.take k)
  growing : (o.mappings.map Mapping.generated).Pairwise (· < ·)
  /-- There is one range for each mapping, in the same order. -/
  paired : List.Forall₂ (fun m r => r.StartsAt o.code m) o.mappings o.ranges
  inside : ∀ r ∈ o.ranges, r.compiledStart < r.compiledStop ∧ r.compiledStop ≤ o.code.units
  disjoint : o.ranges.Pairwise fun a b => a.compiledStop ≤ b.compiledStart
  /-- The ranges cut out of the code what was given to the emitter. -/
  slices : o.ranges.map (fun r => (r.kind, o.code.slice r.compiledStart r.compiledStop)) = contents

/-- **The books of a text that was written piece by piece are exact.** -/
theorem Recorded.exact {o : Output} {cs : List (RangeKind × Text)}
    (h : Recorded o.code o.mappings o.ranges cs) : o.Exact cs where
  points m hm := by
    obtain ⟨before, hbefore, hpoint⟩ := h.points m hm
    exact ⟨before.length, hbefore.length_le, by rw [hpoint, ← List.prefix_iff_eq_take.1 hbefore]⟩
  growing := h.growing.1
  paired := h.startsAt
  inside := h.disjoint.2
  disjoint := h.disjoint.1
  slices := by
    have hslices : ∀ {rs : List CodeRange} {cs : List (RangeKind × Text)}, List.Forall₂ (CodeRange.Cuts o.code) rs cs →
        rs.map (fun r => (r.kind, o.code.slice r.compiledStart r.compiledStop)) = cs := by
      intro rs cs hcuts
      induction hcuts with
      | nil => rfl
      | cons hcut _ ih =>
        obtain ⟨hkind, before, after, hcode, hstart, hstop⟩ := hcut
        rw [List.map_cons, ih, hkind, hstart, hstop]
        congr 1
        refine Prod.ext rfl ?_
        show o.code.slice _ _ = _
        rw [hcode]
        exact Text.slice_append _ _ _
    exact hslices h.cuts

/-! ## What a call adds -/

namespace Emitter

/-- The literal text that waits. -/
def waiting (e : Emitter) : Text :=
  match e.pending with
  | some p => p.text
  | none => []

/-- The books of an emitter that records ranges and has written the contents. -/
structure Books (e : Emitter) (contents : List (RangeKind × Text)) : Prop where
  collects : e.collectRanges = true
  tracked : e.output.Tracked
  recorded : Recorded e.output.code e.output.mappings e.output.ranges contents
  pending : ∀ p, e.pending = some p → p.text ≠ []

variable {e : Emitter} {cs : List (RangeKind × Text)}

theorem opening_rangeKind (c : Chunk) : c.opening = c.rangeKind.opening := by
  cases c <;> rfl

/-- A line is a piece. -/
theorem Books.writeLine (h : e.Books cs) {l : Line} (hl : l.chunk.body ≠ []) :
    (e.writeLine l).Books (cs ++ [(l.chunk.rangeKind, l.chunk.body)]) := by
  have hwrites := writeLine_writes h.tracked l
  have hpiece := (h.recorded.text l.chunk.lead).piece (m := Line.mapping e e.output.code l)
    (r := Line.range e e.output.code l) (c := (l.chunk.rangeKind, l.chunk.body)) rfl rfl
    (by rw [← opening_rangeKind]; rfl) (by rw [← opening_rangeKind]; rfl) hl
  refine ⟨hwrites.collectRanges.trans h.collects, hwrites.tracked, ?_, fun p hp => h.pending p ?_⟩
  · rw [hwrites.code, hwrites.mappings, hwrites.ranges, if_pos h.collects]
    have hall := hpiece.text l.chunk.closing
    rw [← opening_rangeKind] at hall
    simpa [Line.records, Chunk.render_eq] using hall
  · rw [Emitter.writeLine, pending_addRange] at hp; exact hp

/-- The text that waits is a piece, if there is any. -/
theorem Books.flush (h : e.Books cs) : e.flush.Books (cs ++ Call.escaped e.waiting) := by
  unfold waiting
  cases hp : e.pending with
  | none =>
    rw [flush_of_none hp]
    simpa [Call.escaped] using h
  | some p =>
    let l : Line := ⟨⟨.lit p.text, ⟨p.start, p.stop, []⟩, false⟩, []⟩
    have hchunk : l.chunk = .lit p.text := by simp [l, Line.chunk]
    have hne := h.pending p hp
    have hbody : l.chunk.body ≠ [] := by
      rw [hchunk]
      exact Text.escapes_quotedChar.flatMap_ne_nil hne
    have hbooks : { e with pending := none }.Books cs := ⟨h.collects, h.tracked, h.recorded, by simp⟩
    rw [flush_eq_writeLine (l := l) hchunk hp]
    have hwritten := hbooks.writeLine hbody
    rw [hchunk] at hwritten
    simpa [Call.escaped, hne, Chunk.rangeKind, Chunk.body] using hwritten

/-- No call waits after the text was written. -/
theorem waiting_flush (e : Emitter) : e.flush.waiting = [] := by
  rw [waiting, pending_flush]

/-- Text is kept back. -/
theorem Books.literal (h : e.Books cs) (t : Text) (l : Location) :
    (e.literal t l).Books cs ∧ (e.literal t l).waiting = e.waiting ++ t := by
  cases t with
  | nil => exact ⟨h, (List.append_nil _).symm⟩
  | cons c rest =>
    unfold Emitter.literal waiting
    rw [if_neg (by simp)]
    cases hp : e.pending with
    | none => exact ⟨⟨h.collects, h.tracked, h.recorded, by simp⟩, by simp⟩
    | some p => exact ⟨⟨h.collects, h.tracked, h.recorded, by simp⟩, rfl⟩

/-- Code is a piece, after the text that waits. -/
theorem Books.put (h : e.Books cs) {p : Placed} (hp : p.chunk.isText = false) (hkept : p.chunk.isKept = true) :
    (e.put p).Books (cs ++ Call.escaped e.waiting ++ [(.javascript, p.chunk.content)]) ∧ (e.put p).waiting = [] := by
  have hchunk : (Line.mk p []).chunk = p.chunk := Line.chunk_of_code hp
  have hkind : p.chunk.rangeKind = .javascript := by
    cases hc : p.chunk <;> simp_all [Chunk.isText, Chunk.rangeKind]
  have hbody : p.chunk.body ≠ [] := by
    intro hnil
    cases hc : p.chunk <;> simp_all [Chunk.isText, Chunk.body, Chunk.isKept, Text.allBlank]
  rw [put_eq_writeLine hp hkept]
  refine ⟨?_, ?_⟩
  · have hwritten := h.flush.writeLine (l := ⟨p, []⟩) (by rw [hchunk]; exact hbody)
    rwa [hchunk, hkind, Chunk.body_of_code hp] at hwritten
  · rw [waiting, Emitter.writeLine, pending_addRange]
    exact waiting_flush e

theorem Books.line (h : e.Books cs) (t : Text) :
    (e.line t).Books (cs ++ Call.escaped e.waiting) ∧ (e.line t).waiting = [] := by
  have hflush := h.flush
  refine ⟨⟨hflush.collects, (hflush.tracked.push t).push _, ?_, hflush.pending⟩, waiting_flush e⟩
  have hrecorded := (hflush.recorded.text t).text ['\n']
  rw [Emitter.line, output_write, output_write]
  simpa using hrecorded

/-- **What calls add to the books**, call by call. -/
theorem Books.foldl (ds : List Call) : ∀ {e : Emitter} {cs : List (RangeKind × Text)}, e.Books cs →
    (ds.foldl Call.perform e).flush.Books (cs ++ Call.contents e.waiting ds) := by
  induction ds with
  | nil => exact fun h => h.flush
  | cons d ds ih =>
    intro e cs h
    rw [List.foldl_cons]
    -- code writes the text that waits for it, and nothing waits behind it
    have hcode : ∀ p : Placed, p.chunk.isText = false → p.chunk.isKept = true →
        (ds.foldl Call.perform (e.put p)).flush.Books
          (cs ++ (Call.escaped e.waiting ++ (.javascript, p.chunk.content) :: Call.contents [] ds)) := by
      intro p hp hkept
      obtain ⟨hput, hnone⟩ := h.put hp hkept
      have hrest := ih hput
      rw [hnone] at hrest
      simpa using hrest
    cases d with
    | literal t l =>
      obtain ⟨hliteral, hwaiting⟩ := h.literal t l
      have hrest := ih hliteral
      rwa [hwaiting] at hrest
    | statement code l =>
      rw [Call.contents]
      split
      case isTrue hblank =>
        have hskip : Call.perform e (.statement code l) = e := if_pos hblank
        rw [hskip]; exact ih h
      case isFalse hblank => exact hcode ⟨.stmt code, l, false⟩ rfl (by simpa [Chunk.isKept] using hblank)
    | expression code l =>
      rw [Call.contents]
      split
      case isTrue hblank =>
        have hskip : Call.perform e (.expression code l) = e := if_pos hblank
        rw [hskip]; exact ih h
      case isFalse hblank => exact hcode ⟨.write code, l, false⟩ rfl (by simpa [Chunk.isKept] using hblank)
    | line t =>
      obtain ⟨hline, hnone⟩ := h.line t
      have hrest := ih hline
      rw [hnone, List.append_assoc] at hrest
      exact hrest
    | flush =>
      have hrest := ih h.flush
      rw [waiting_flush, List.append_assoc] at hrest
      exact hrest

end Emitter

/-! ## Any use of an emitter -/

/-- An emitter that records ranges, before anything is written. -/
def Emitter.fresh (source : Text) : Emitter :=
  { source, collectRanges := true }

/-- **The books of an emitter are exact after any use of it.** Whatever it is asked to write,
one by one, as trees of any shape or inside scopes, with any texts and places: the mappings and
the ranges of its output are exact, a source map was told just these mappings, and to write a
tree leaves the scopes as they were found. -/
theorem perform_books (source : Text) (actions : List Action) :
    (Action.performAll actions (.fresh source)).finish.Exact
        (Call.contents [] (Action.callsAll none actions)) ∧
      (Action.performAll actions (.fresh source)).flush.traced =
        (Action.performAll actions (.fresh source)).finish.mappings ∧
      (Action.performAll actions (.fresh source)).scopes = [] ∧
      ∀ (n : Node) (e : Emitter), (n.emit e).scopes = e.scopes := by
  have hmakes := Action.performAll_makes actions (.fresh source)
  have hfresh : (Emitter.fresh source).Books [] := ⟨rfl, Output.tracked_empty, .start, by simp [Emitter.fresh]⟩
  have hbooks := hfresh.foldl (Action.callsAll none actions)
  -- the scopes do not matter for what is written
  have hbare : (Action.performAll actions (.fresh source)).flush.bare =
      ((Action.callsAll none actions).foldl Call.perform (.fresh source)).flush := by
    rw [Emitter.bare_flush, hmakes.bare]; rfl
  rw [← hbare] at hbooks
  exact ⟨hbooks.recorded.exact, (hmakes.traces rfl).flush, hmakes.scopes, fun n e => (n.emit_makes e).scopes⟩

end Stencil
