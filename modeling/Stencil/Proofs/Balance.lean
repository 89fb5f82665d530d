import Stencil.Proofs.Bookkeeping
import Stencil.Proofs.Braces
import Stencil.Proofs.Limit
import Stencil.Proofs.Mirror

/-!
# The braces of code blocks

A block of code is written as statements: its pieces of code and the braces in it. The braces
of the block itself are not written, those inside of it are, and where the end of the template
cuts a block off, the missing braces are supplied. So the braces of a block are balanced, with one
exception. Past the nesting limit a body is one piece of code with its braces inside, and nothing
supplies those that the end of the template leaves open.

Elements in a block are left out (`Node.codeOnly`); their own blocks are counted for themselves. A
body is settled (`Node.Settles`) if its parts close no brace that they did not open, and leave none
open unless everything has been read.

* `Node.codeBraces_brace`: nested braces are written around their parts.
* `Parse.codeBody_settles`: **a body is settled if the bodies in it are**, turn by turn. A part that
  leaves a brace open is the last one.
* `parse_balances_braces`: **no block closes more braces than it opens, and one that leaves some open
  ran into the end of the template past the nesting limit.**
-/

namespace Stencil

/-! ## The statements of a block -/

namespace Call

/-- The code that is written as a statement. Blank code is not written. -/
def statement? : Call → Option Text
  | statement code _ => if code.allBlank then none else some code
  | _ => none

/-- The braces in the statements of some calls. -/
def braces (cs : List Call) : List Char :=
  (cs.filterMap statement?).flatMap Code.braces

@[simp]
theorem braces_nil : braces [] = [] := rfl

/-- The braces of calls in a row. -/
@[simp]
theorem braces_append (cs ds : List Call) : braces (cs ++ ds) = braces cs ++ braces ds := by
  rw [braces, List.filterMap_append, List.flatMap_append]; rfl

@[simp]
theorem braces_statement (code : Text) (l : Location) : braces [statement code l] = Code.braces code := by
  by_cases h : code.allBlank = true
  · simp [braces, statement?, h, Code.braces_allBlank h]
  · simp [braces, statement?, h]

end Call

namespace Node

mutual

/-- The node without the elements and the expressions in it. -/
def codeOnly : Node → Node
  | leaf k c l t => leaf k c l t
  | branch k cs t => branch k (codeOnlyAll cs) t

def codeOnlyAll : List Node → List Node
  | [] => []
  | n :: ns =>
    if n.kind.isElement || n.kind = .codeExpression then codeOnlyAll ns
    else codeOnly n :: codeOnlyAll ns

end

/-- The statements that are written for the code of a block, without its elements. -/
def statements (b : Node) : List Text :=
  (b.codeOnly.calls none).filterMap Call.statement?

/-- The braces that are written for the parts of a body. -/
def codeBraces (ns : List Node) : List Char :=
  Call.braces (callsAll (some .insideCodeBlock) (codeOnlyAll ns))

/-- What is left of a node is of the same kind. -/
@[simp]
theorem kind_codeOnly (n : Node) : n.codeOnly.kind = n.kind := by cases n <;> rfl

theorem codeOnlyAll_append (ns ms : List Node) :
    codeOnlyAll (ns ++ ms) = codeOnlyAll ns ++ codeOnlyAll ms := by
  induction ns with
  | nil => rfl
  | cons n ns ih =>
    rw [List.cons_append, codeOnlyAll, codeOnlyAll, ih]
    split <;> rfl

/-- Elements and expressions are left out, all else stays. -/
theorem codeOnlyAll_cons {n : Node} (h : n.kind.isElement = false) (h' : n.kind ≠ .codeExpression)
    (ns : List Node) : codeOnlyAll (n :: ns) = n.codeOnly :: codeOnlyAll ns := by
  simp [codeOnlyAll, h, h']

/-- What stays was there before. -/
theorem kind_of_mem_codeOnlyAll {n : Node} {ns : List Node} (h : n ∈ codeOnlyAll ns) :
    ∃ m ∈ ns, n.kind = m.kind := by
  induction ns with
  | nil => simp [codeOnlyAll] at h
  | cons m ns ih =>
    rw [codeOnlyAll] at h
    split at h
    · obtain ⟨x, hx, hkind⟩ := ih h
      exact ⟨x, .tail _ hx, hkind⟩
    · rcases List.mem_cons.1 h with rfl | h
      · exact ⟨m, .head _, kind_codeOnly m⟩
      · obtain ⟨x, hx, hkind⟩ := ih h
        exact ⟨x, .tail _ hx, hkind⟩

theorem callsAll_append (scope : Option Scope) (ns ms : List Node) :
    callsAll scope (ns ++ ms) = callsAll scope ns ++ callsAll scope ms := by
  induction ns with
  | nil => rfl
  | cons n ns ih => rw [List.cons_append, callsAll, callsAll, ih, List.append_assoc]

theorem codeBraces_append (ns ms : List Node) : codeBraces (ns ++ ms) = codeBraces ns ++ codeBraces ms := by
  rw [codeBraces, codeOnlyAll_append, callsAll_append, Call.braces_append]; rfl

/-- An element in a body has no braces of code. -/
theorem codeBraces_element {n : Node} (h : n.kind.isElement = true) : codeBraces [n] = [] := by
  simp [codeBraces, codeOnlyAll, h, callsAll]

/-- A piece of code has the braces that its text has. -/
theorem codeBraces_value (l : Location) : codeBraces [token .codeValue l] = Code.braces l.text := by
  simp [codeBraces, codeOnlyAll, token, kind, Kind.isElement, callsAll, codeOnly, calls, leafCalls, blankCalls]

/-- The braces around some parts are written around them. -/
theorem bracesCalls_append (scope : Option Scope) {ns : List Node} (h : ∀ n ∈ ns, n.kind ≠ .brace)
    (ms : List Node) :
    bracesCalls scope false (ns ++ ms) = callsAll scope ns ++ bracesCalls scope false ms := by
  induction ns with
  | nil => rfl
  | cons n ns ih =>
    rw [List.cons_append, bracesCalls, callsAll, if_neg (h n (.head _)), ih fun m hm => h m (.tail _ hm),
      List.append_assoc]

/-- The braces of a block are not written. -/
theorem blockCalls_append (scope : Option Scope) {ns : List Node}
    (h : ∀ n ∈ ns, n.kind ≠ .transition ∧ n.kind ≠ .brace) (ms : List Node) :
    blockCalls scope (ns ++ ms) = callsAll scope ns ++ blockCalls scope ms := by
  induction ns with
  | nil => rfl
  | cons n ns ih =>
    have hn : ¬ (n.kind = .transition ∨ n.kind = .brace) := by
      obtain ⟨h1, h2⟩ := h n (.head _)
      exact fun hor => hor.elim h1 h2
    rw [List.cons_append, blockCalls, callsAll, if_neg hn, ih fun m hm => h m (.tail _ hm), List.append_assoc]

/-- A closing brace, or a missing one. -/
def Closes (n : Node) : Prop :=
  (∃ l : Location, l.text = ['}'] ∧ n = token .brace l) ∨ ∃ p, n = missing .brace p

namespace Closes

variable {n : Node}

theorem kind_eq (h : n.Closes) : n.kind = .brace := by
  obtain ⟨l, -, rfl⟩ | ⟨p, rfl⟩ := h <;> rfl

/-- A closing brace stays. -/
theorem codeOnly_eq (h : n.Closes) : codeOnlyAll [n] = [n] := by
  obtain ⟨l, -, rfl⟩ | ⟨p, rfl⟩ := h <;> rfl

/-- A closing brace is written also where it is missing. -/
theorem braces_eq (h : n.Closes) : Call.braces (braceCalls false n) = ['}'] := by
  obtain ⟨l, hl, rfl⟩ | ⟨p, rfl⟩ := h
  · rw [token, braceCalls, Call.braces_statement, hl]
    simp [Code.braces, Code.skipped?, Code.isQuote]
  · show Call.braces [.statement ['}'] (.empty p)] = _
    rw [Call.braces_statement]
    simp [Code.braces, Code.skipped?, Code.isQuote]

end Closes

/-- Body parts up to a closing brace. -/
structure Body (parts : List Node) (closing : Node) : Prop where
  parts : ∀ n ∈ parts, n.kind.isBodyPart = true
  closing : closing.Closes

namespace Body

variable {parts : List Node} {closing : Node}

/-- Between the braces of a body there are no braces. -/
theorem kinds (h : Body parts closing) :
    ∀ n ∈ codeOnlyAll parts, n.kind ≠ .transition ∧ n.kind ≠ .brace := by
  intro n hn
  obtain ⟨m, hm, hkind⟩ := kind_of_mem_codeOnlyAll hn
  have hpart := h.parts m hm
  rw [hkind]
  revert hpart
  cases m.kind <;> simp [Kind.isBodyPart, Kind.isElement]

/-- **Nested braces are written around their parts.** -/
theorem codeBraces_brace (h : Body parts closing) {l : Location} (hl : l.text = ['{']) :
    codeBraces [ofChildren .codeBrace (token .brace l :: (parts ++ [closing]))] =
      '{' :: codeBraces parts ++ ['}'] := by
  have honly : codeOnlyAll [ofChildren .codeBrace (token .brace l :: (parts ++ [closing]))] =
      [ofChildren .codeBrace (token .brace l :: (codeOnlyAll parts ++ [closing]))] := by
    rw [codeOnlyAll_cons rfl (by simp [ofChildren, kind]), ofChildren, codeOnly,
      codeOnlyAll_cons rfl (by simp [token, kind]), codeOnlyAll_append, h.closing.codeOnly_eq]
    rfl
  have hopening : Call.braces (braceCalls true (token .brace l)) = ['{'] := by
    rw [token, braceCalls, Call.braces_statement, hl]
    simp [Code.braces, Code.skipped?, Code.isQuote]
  have hparts := bracesCalls_append (some .insideCodeBlock) (fun n hn => (h.kinds n hn).2) [closing]
  have hkind : (token .brace l).kind = .brace := rfl
  rw [codeBraces, honly, callsAll, callsAll, List.append_nil, ofChildren, calls, bracesCalls, if_pos hkind, hparts,
    bracesCalls, if_pos h.closing.kind_eq, bracesCalls, List.append_nil]
  simp [blankCalls, hopening, h.closing.braces_eq, codeBraces]

/-- The braces of a block itself are not written. -/
theorem braces_block (h : Body parts closing) (m l : Location) :
    Call.braces (blockCalls (some .insideCodeBlock)
      (codeOnlyAll (marker .transition m :: token .brace l :: (parts ++ [closing])))) = codeBraces parts := by
  have honly : codeOnlyAll (marker .transition m :: token .brace l :: (parts ++ [closing])) =
      marker .transition m :: token .brace l :: (codeOnlyAll parts ++ [closing]) := by
    rw [codeOnlyAll_cons rfl (by simp [marker, kind]), codeOnlyAll_cons rfl (by simp [token, kind]),
      codeOnlyAll_append, h.closing.codeOnly_eq]
    rfl
  have hparts := blockCalls_append (some .insideCodeBlock) h.kinds [closing]
  rw [honly, blockCalls, if_pos (.inl rfl), blockCalls, if_pos (.inr rfl), hparts, blockCalls,
    if_pos (.inr h.closing.kind_eq), blockCalls, List.append_nil]
  rfl

end Body

/-- Blanks have no braces. -/
theorem braces_blankCalls (l : Option Location) : Call.braces (blankCalls l) = [] := by
  cases l <;> rfl

/-- The statements of a block are those of its parts; blanks around it are none. -/
theorem braces_statements {b : Node} (h : b.kind = .codeBlock) :
    b.statements.flatMap Code.braces =
      Call.braces (blockCalls (some .insideCodeBlock) (codeOnlyAll b.children)) := by
  show Call.braces (b.codeOnly.calls none) = _
  cases b with
  | leaf k c l t =>
    obtain rfl : k = .codeBlock := h
    cases c <;> simp [codeOnly, calls, leafCalls, braces_blankCalls, children, codeOnlyAll, blockCalls]
  | branch k cs t =>
    obtain rfl : k = .codeBlock := h
    simp [codeOnly, calls, braces_blankCalls, children]

/-- A block is written by its calls, in whatever scope it stands. -/
theorem makes_codeOnly {b : Node} (h : b.kind = .codeBlock) (e : Emitter) :
    e.Makes (b.codeOnly.calls none) (b.codeOnly.emit e) := by
  have hscope : b.codeOnly.calls e.scope? = b.codeOnly.calls none := by
    cases b with
    | leaf k c l t => rfl
    | branch k cs t =>
      obtain rfl : k = .codeBlock := h
      rfl
  exact hscope ▸ b.codeOnly.emit_makes e

theorem mem_descendants_codeOnly {b n : Node} (h : n ∈ descendantsAll (codeOnlyAll b.children)) :
    n ∈ b.codeOnly.descendants := by
  cases b with
  | leaf k c l t => cases h
  | branch k cs t => exact .tail _ h

/-! ## Blocks that leave no brace open -/

variable {P : Prop} {stop : Position}

/-- One piece of code, which reaches `stop`, leaves `k` braces open. This may happen under `P` only. -/
def LeavesOpen (P : Prop) (stop : Position) (ns : List Node) (k : ℕ) : Prop :=
  P ∧ ∃ code l t, leaf .codeValue (.token code) l t ∈ descendantsAll (codeOnlyAll ns) ∧ l.stop = stop ∧
    Code.depth 0 (Code.braces code) = some k

/-- What leaves a brace open does so among more nodes, too. -/
theorem LeavesOpen.mono {ns ms : List Node} {k : ℕ} (h : LeavesOpen P stop ns k)
    (hsub : descendantsAll (codeOnlyAll ns) ⊆ descendantsAll (codeOnlyAll ms)) : LeavesOpen P stop ms k := by
  obtain ⟨hP, code, l, t, hmem, hl⟩ := h
  exact ⟨hP, code, l, t, hsub hmem, hl⟩

/-- The block closes no brace that it did not open, and is balanced or left open by one piece of
code. -/
def BlockSettles (P : Prop) (stop : Position) (b : Node) : Prop :=
  ∃ k, Code.depth 0 (Call.braces (blockCalls (some .insideCodeBlock) (codeOnlyAll b.children))) = some k ∧
    (k = 0 ∨ LeavesOpen P stop b.children k)

/-- All blocks in the node are settled. -/
def Balanced (P : Prop) (stop : Position) (n : Node) : Prop :=
  ∀ b ∈ n.descendants, b.kind = .codeBlock → b.BlockSettles P stop

/-- A leaf is no block. -/
theorem balanced_leaf {k : Kind} (hk : k ≠ .codeBlock) (c : Leaf) (l : Location) (t : Trivia) :
    (leaf k c l t).Balanced P stop := by
  intro b hb hkind
  rw [descendants, List.mem_singleton] at hb
  subst hb
  exact absurd hkind hk

/-- What is no block itself is balanced if its children are. -/
theorem balanced_branch {k : Kind} {ns : List Node} {t : Trivia} (hk : k ≠ .codeBlock)
    (h : ∀ n ∈ ns, n.Balanced P stop) : (branch k ns t).Balanced P stop := by
  intro b hb hkind
  rcases List.mem_cons.1 hb with rfl | hb
  · exact absurd hkind hk
  · obtain ⟨n, hn, hb⟩ := mem_descendantsAll.1 hb
    exact h n hn b hb hkind

theorem Balanced.withLead {n : Node} (h : n.Balanced P stop) (l : Option Location) :
    (n.withLead l).Balanced P stop := by
  intro b hb hkind
  rw [Node.withLead, descendants_withTrivia] at hb
  rw [Balanced, descendants_eq_cons] at h
  rcases List.mem_cons.1 hb with rfl | hb
  · -- blanks before a block are no statements
    have hblock := h n (.head _) (by rw [← hkind, kind_withTrivia])
    have hchildren : (n.withTrivia { n.trivia with lead := l }).children = n.children := by cases n <;> rfl
    rw [BlockSettles, hchildren]
    exact hblock
  · exact h b (.tail _ hb) hkind

/-- The parts of a body are settled in a context: they leave a brace open only if everything has
been read. -/
def Settles (P : Prop) (stop : Position) (ns : List Node) (d : Context) : Prop :=
  ∃ k, Code.depth 0 (codeBraces ns) = some k ∧ (k = 0 ∨ d.rest = [] ∧ LeavesOpen P stop ns k)

theorem settles_of_nil {ns : List Node} (h : codeBraces ns = []) (d : Context) : Settles P stop ns d :=
  ⟨0, by rw [h]; rfl, .inl rfl⟩

/-- A piece of code settles a body unless it leaves a brace open before the end. -/
theorem settles_value {l : Location} {k : ℕ} {d : Context} (hk : Code.depth 0 (Code.braces l.text) = some k)
    (hend : k = 0 ∨ d.rest = [] ∧ P ∧ l.stop = stop) : Settles P stop [token .codeValue l] d := by
  refine ⟨k, by rw [codeBraces_value]; exact hk, hend.imp_right fun ⟨hrest, hP, hl⟩ => ⟨hrest, hP, ?_⟩⟩
  exact ⟨l.text, l, {}, List.mem_append_left _ (.head _), hl, hk⟩

/-- What is settled stays so until everything has been read. -/
theorem Settles.of_rest {ns : List Node} {d e : Context} (h : Settles P stop ns d) (hrest : d.rest = [] → e.rest = []) :
    Settles P stop ns e := by
  obtain ⟨k, hk, hend⟩ := h
  exact ⟨k, hk, hend.imp_right fun h => ⟨hrest h.1, h.2⟩⟩

/-- A part that leaves a brace open is the last one. -/
theorem Settles.append {ns : List Node} {n : Node} {c d : Context} (h : Settles P stop ns c)
    (hc : c.rest ≠ []) (hn : Settles P stop [n] d) : Settles P stop (ns ++ [n]) d := by
  obtain ⟨k, hk, rfl | ⟨hrest, -⟩⟩ := h
  · obtain ⟨j, hj, hend⟩ := hn
    refine ⟨j, ?_, hend.imp_right fun ⟨hrest, hopen⟩ => ⟨hrest, hopen.mono ?_⟩⟩
    · rw [codeBraces_append, Code.depth_append, hk]; exact hj
    · rw [codeOnlyAll_append, descendantsAll_append]
      exact List.subset_append_right _ _
  · exact absurd hrest hc

/-- Nested braces leave open what their parts leave open. -/
theorem Settles.brace {parts : List Node} {closing : Node} {d : Context} (h : Settles P stop parts d)
    (hbody : Body parts closing) {l : Location} (hl : l.text = ['{']) :
    Settles P stop [ofChildren .codeBrace (token .brace l :: (parts ++ [closing]))] d := by
  obtain ⟨k, hk, hend⟩ := h
  refine ⟨k, ?_, hend.imp_right fun ⟨hrest, hopen⟩ => ⟨hrest, hopen.mono ?_⟩⟩
  · have hinner : Code.depth 1 (codeBraces parts) = some (k + 1) := by
      rw [← Nat.zero_add 1]; exact Code.depth_add hk 1
    have hopening : Code.depth 0 ('{' :: codeBraces parts) = some (k + 1) := hinner
    rw [hbody.codeBraces_brace hl, Code.depth_append, hopening]
    rfl
  · intro x hx
    rw [codeOnlyAll_cons rfl (by simp [ofChildren, kind]), descendantsAll, ofChildren, codeOnly, descendants,
      codeOnlyAll_cons rfl (by simp [token, kind]), descendantsAll, codeOnlyAll_append, descendantsAll_append]
    simp [hx]

/-- Body parts up to a closing brace, which are settled in a context. -/
def BodySettles (P : Prop) (stop : Position) (ns : List Node) (d : Context) : Prop :=
  ∃ parts closing, ns = parts ++ [closing] ∧ Body parts closing ∧ (∀ n ∈ parts, n.Balanced P stop) ∧
    Settles P stop parts d

theorem Closes.balanced {n : Node} (h : n.Closes) : n.Balanced P stop := by
  obtain ⟨l, -, rfl⟩ | ⟨p, rfl⟩ := h
  · exact balanced_leaf (by decide) _ _ _
  · exact balanced_leaf (by decide) _ _ _

/-- The blocks in a settled body are balanced. -/
theorem BodySettles.balanced {ns : List Node} {d : Context} (h : BodySettles P stop ns d) :
    ∀ n ∈ ns, n.Balanced P stop := by
  obtain ⟨parts, closing, rfl, hbody, hparts, -⟩ := h
  exact List.forall_mem_append.2 ⟨hparts, List.forall_mem_singleton.2 hbody.closing.balanced⟩

/-- A block is settled if its body is. -/
theorem BodySettles.block {ns : List Node} {d : Context} (h : BodySettles P stop ns d) (m l : Location) :
    (ofChildren .codeBlock (marker .transition m :: token .brace l :: ns)).Balanced P stop := by
  have hbalanced := h.balanced
  obtain ⟨parts, closing, rfl, hbody, -, k, hk, hend⟩ := h
  intro b hb hkind
  rcases List.mem_cons.1 hb with rfl | hb
  · refine ⟨k, (congrArg _ (hbody.braces_block m l)).trans hk, hend.imp_right fun h => h.2.mono fun x hx => ?_⟩
    show x ∈ descendantsAll (codeOnlyAll (marker .transition m :: token .brace l :: (parts ++ [closing])))
    rw [codeOnlyAll_cons rfl (by simp [marker, kind]), descendantsAll, codeOnlyAll_cons rfl (by simp [token, kind]),
      descendantsAll, codeOnlyAll_append, descendantsAll_append]
    simp [hx]
  · obtain ⟨n, hn, hb⟩ := mem_descendantsAll.1 hb
    have hn : n.Balanced P stop := by
      rcases List.mem_cons.1 hn with rfl | hn
      · exact balanced_leaf (by decide) _ _ _
      rcases List.mem_cons.1 hn with rfl | hn
      · exact balanced_leaf (by decide) _ _ _
      · exact hbalanced n hn
    exact hn b hb hkind

end Node

/-! ## Reading towards the end of the template -/

/-- The context is on the way to `stop`, where the template ends. -/
def Context.Heads (stop : Position) (c : Context) : Prop :=
  c.pos.after c.rest = stop

variable {P : Prop} {stop : Position} {c d : Context}

/-- Reading on is on the way to the end. -/
theorem Context.Heads.moved {t : Text} (h : c.Heads stop) (hmoved : c.Moved t d) : d.Heads stop := by
  rw [Heads, hmoved.pos, ← Position.after_append, ← hmoved.rest]; exact h

theorem Context.Heads.pos_of_rest (h : c.Heads stop) (hrest : c.rest = []) : c.pos = stop := by
  rw [Heads, hrest] at h
  exact h

namespace Parse

open Node Context

/-- What is put together without braces of its own is balanced if its parts are. -/
theorem weave_balanced (P : Prop) (stop : Position) :
    Weave (Heads stop) fun n _ => n.Balanced P stop where
  read h n := h.moved (moved_read _ n)
  report h x := h.moved (moved_report _ x)
  tooDeep h := h.moved (moved_reportTooDeep _)
  closed h := by
    induction h with
    | leaf c l t hk => exact balanced_leaf (by rintro rfl; cases hk) c l t
    | group t hk _ ih => exact balanced_branch (by rintro rfl; cases hk) ih
  lead h l := h.withLead l
  group hk h := balanced_branch (by rintro rfl; cases hk) (forall_left h)

section Code

variable {body : Parse (List Node)} {element : Parse Node}

/-- Expressions hold no blocks. -/
theorem codeExpression_balanced (P : Prop) (stop : Position) :
    Mirrors (Heads stop) (fun n _ => n.Balanced P stop) codeExpression codeExpression := by
  have hW := weave_balanced P stop
  refine (codeExpression_textual.mirrors hW.toSteady).imp ?_
  rintro _ _ ⟨rfl, cs, rfl, hcs⟩
  exact balanced_branch (by decide) fun m hm => hW.closed (hcs m hm)

/-- What a body must do: it ends on the way to `stop`, with settled parts. -/
def BodyEnds (P : Prop) (stop : Position) (body : Parse (List Node)) : Prop :=
  ∀ c : Context, c.Heads stop → Ends body c fun ns d => d.Heads stop ∧ BodySettles P stop ns d

/-- **A block is balanced if its body settles.** -/
theorem embedded_balanced (hbody : BodyEnds P stop body) :
    Mirrors (Heads stop) (fun n _ => n.Balanced P stop) (embedded body) (embedded body) := by
  refine embedded_mirrors_of_block (weave_balanced P stop).toCarries (codeExpression_balanced P stop) ?_
  intro c hc _
  have hmarker : Ends transitionMarker c fun m d => (∃ l, m = marker .transition l) ∧ d.Heads stop :=
    Ends.bind (read_ends 1) fun l d hd => ⟨⟨l, rfl⟩, hc.moved hd.2⟩
  have hblock : Ends (codeBlock body) c fun n d => d.Heads stop ∧ n.Balanced P stop := by
    refine Ends.bind hmarker ?_
    rintro _ d ⟨⟨m, rfl⟩, hd⟩
    refine Ends.bind (token_ends .brace 1) ?_
    rintro _ e ⟨rfl, he⟩
    exact Ends.bind (hbody e (hd.moved he)) fun ns f hf => ⟨hf.1, hf.2.block m _⟩
  exact ⟨rfl, hblock⟩

/-- A closing brace is read, or reported as missing. -/
theorem expect_closes : Ends (expect .brace (.brace '}')) c fun n d => n.Closes ∧ ∃ t, c.Moved t d := by
  refine Ends.get_bind ?_
  split
  case isTrue h =>
    refine (token_ends .brace 1).imp ?_
    rintro _ d ⟨rfl, hd⟩
    obtain ⟨u, hu⟩ := (Text.startsWith_iff (by decide) _).1 h
    exact ⟨.inl ⟨_, by rw [Location.text_ofText, ← hu]; rfl, rfl⟩, _, hd⟩
  case isFalse h =>
    exact Ends.get_bind (Ends.bind (reportHere_moved _) fun _ d hd => ⟨.inr ⟨d.pos, rfl⟩, _, hd⟩)

/-- **A body that is read flat** leaves braces open only at the end of the template. -/
theorem flatBody_settles (hP : P) (stop : Position) : BodyEnds P stop flatBody := by
  intro c hc
  refine Ends.modify_bind (Ends.get_bind (Ends.bind (code_moves _) ?_))
  rintro _ d ⟨rfl, hd⟩
  have hheads := (hc.moved (moved_reportTooDeep c)).moved hd
  refine Ends.bind expect_closes ?_
  rintro closing e ⟨hclosing, u, hu⟩
  refine ⟨hheads.moved hu, ?_⟩
  split
  case isTrue => exact ⟨[], closing, rfl, ⟨by simp, hclosing⟩, by simp, settles_of_nil rfl e⟩
  case isFalse =>
    obtain ⟨k, hk, hend⟩ := Code.depth_flatBody 0 c.reportTooDeep.rest
    refine ⟨[_], closing, rfl, ⟨List.forall_mem_singleton.2 rfl, hclosing⟩, ?_,
      settles_value hk (hend.imp_right fun hall => ?_)⟩
    · exact List.forall_mem_singleton.2 (balanced_leaf (by decide) _ _ _)
    · -- all of the text has been taken
      have hrest : d.rest = [] := by
        have hlength := congrArg List.length hd.rest
        rw [List.length_append, List.length_take] at hlength
        exact List.length_eq_zero_iff.1 (by omega)
      have hafter := hu.rest
      rw [hrest] at hafter
      refine ⟨(List.append_eq_nil_iff.1 hafter.symm).2, hP, ?_⟩
      rw [← hheads.pos_of_rest hrest, hd.pos]; rfl

/-- One part of a body, and that there was something to read before it. -/
theorem bodyPart_settles (hbody : BodyEnds P stop body)
    (helement : Mirrors (Heads stop) (fun n _ => n.Balanced P stop ∧ n.kind.isElement = true) element element)
    (last : Option Char) (hc : c.Heads stop) :
    Ends (bodyPart body element last) c fun r d => d.Heads stop ∧
      match r with
      | none => d = c
      | some x => c.rest ≠ [] ∧ x.1.kind.isBodyPart = true ∧ x.1.Balanced P stop ∧ Settles P stop [x.1] d := by
  refine Ends.get_bind ?_
  split
  case isTrue => exact ⟨hc, rfl⟩
  case isFalse hgo =>
  have hrest : c.rest ≠ [] := by
    intro hnil
    simp [Context.atEnd, hnil] at hgo
  split
  case isTrue hopen =>
    refine Ends.bind (token_ends .brace 1) ?_
    rintro _ d ⟨rfl, hd⟩
    refine Ends.bind (hbody d (hc.moved hd)) ?_
    rintro ns e ⟨he, hns⟩
    have hbalanced := hns.balanced
    obtain ⟨parts, closing, rfl, hparts, -, hsettles⟩ := hns
    -- the brace that opens pairs with the one that ends the body
    have htext : (Location.ofText c.pos (c.rest.take 1)).text = ['{'] := by
      obtain ⟨x, u, hu⟩ := List.exists_cons_of_ne_nil hrest
      have hx : c.current = x := by simp [Context.current, Context.peekAt, Text.ahead, hu]
      rw [Location.text_ofText, hu, ← hx, hopen]
      rfl
    refine ⟨he, hrest, rfl, balanced_branch (by decide) ?_, hsettles.brace hparts htext⟩
    exact List.forall_mem_cons.2 ⟨balanced_leaf (by decide) _ _ _, hbalanced⟩
  case isFalse =>
  split
  case isTrue =>
    refine Ends.bind (helement.ends hc) ?_
    rintro n d ⟨hd, hn, hkind⟩
    exact ⟨hd, hrest, by simp [Kind.isBodyPart, hkind], hn, settles_of_nil (codeBraces_element hkind) d⟩
  case isFalse =>
    -- code that stops at braces has none of its own outside strings and comments
    refine Ends.bind (code_moves _) ?_
    rintro _ d ⟨rfl, hd⟩
    refine ⟨hc.moved hd, hrest, rfl, balanced_leaf (by decide) _ _ _, settles_value (k := 0) ?_ (.inl rfl)⟩
    rw [Location.text_ofText, Code.braces_value]; rfl

/-- **A body is settled if the bodies in it are.** -/
theorem codeBody_settles (hbody : BodyEnds P stop body)
    (helement : Mirrors (Heads stop) (fun n _ => n.Balanced P stop ∧ n.kind.isElement = true) element element) :
    BodyEnds P stop (codeBody body element) := by
  intro c hc
  have hloop : Ends (many (bodyPart body element) none) c fun r d => d.Heads stop ∧
      (∀ n ∈ r.1, n.kind.isBodyPart = true ∧ n.Balanced P stop) ∧ Settles P stop r.1 d := by
    refine Ends.many (fun ns _ d => d.Heads stop ∧ (∀ n ∈ ns, n.kind.isBodyPart = true ∧ n.Balanced P stop) ∧
      Settles P stop ns d) ?_ ?_ ⟨hc, by simp, settles_of_nil rfl c⟩
    · intro ns last c d hI hstep
      have hpart := (bodyPart_settles hbody helement last hI.1).of_eq hstep
      obtain rfl : d = c := hpart.2
      exact hI
    · rintro ns last c n last' d ⟨hc, hns, hsettles⟩ hstep
      obtain ⟨hd, hrest, hkind, hn, hpart⟩ := (bodyPart_settles hbody helement last hc).of_eq hstep
      refine ⟨hd, ?_, hsettles.append hrest hpart⟩
      exact List.forall_mem_append.2 ⟨hns, List.forall_mem_singleton.2 ⟨hkind, hn⟩⟩
  refine Ends.bind hloop ?_
  rintro ⟨ns, last⟩ d ⟨hd, hns, hsettles⟩
  refine Ends.bind expect_closes ?_
  rintro closing e ⟨hclosing, u, hu⟩
  refine ⟨hd.moved hu, ns, closing, rfl, ⟨fun n hn => (hns n hn).1, hclosing⟩, fun n hn => (hns n hn).2, ?_⟩
  -- the closing brace reads on, so at the end there is still nothing left
  refine hsettles.of_rest fun hrest => ?_
  have hafter := hu.rest
  rw [hrest] at hafter
  exact (List.append_eq_nil_iff.1 hafter.symm).2

end Code

/-! ## Elements and levels -/

section Elements

variable {code element : Parse Node}

/-- Opening an element does not move the cursor. -/
theorem opens_heads (hc : c.Heads stop) (name : Text) :
    Opens (Heads stop) name c (Heads stop) (Heads stop) where
  push := hc.moved (moved_pushElement c name)
  cut k _ d hd := hd.moved (moved_truncateFlattened d k)
  close d hd := hd.moved (moved_truncateFlattened d _)
  steady := (weave_balanced True stop).toSteady
  pop d hd := hd.moved (moved_popElement d)

/-- An element is balanced if its start tag and what it holds are. -/
theorem balanced_element {o : Opening} {ns : List Node} (ho : o.tag.Balanced P stop)
    (hns : ∀ n ∈ ns, n.Balanced P stop) :
    (Node.ofChildren o.kind (o.tag :: ns)).Balanced P stop ∧ o.kind.isElement = true := by
  have hkind := o.isElement_kind
  refine ⟨balanced_branch ?_ (List.forall_mem_cons.2 ⟨ho, hns⟩), hkind⟩
  intro hblock
  rw [hblock] at hkind
  cases hkind

variable (hcode : Mirrors (Heads stop) (fun n _ => n.Balanced P stop) code code)

include hcode

/-- **Elements** hold balanced blocks only. -/
theorem nestedElement_balanced
    (helement : Mirrors (Heads stop) (fun n _ => n.Balanced P stop) element element) :
    Mirrors (Heads stop) (fun n _ => n.Balanced P stop ∧ n.kind.isElement = true)
      (nestedElement code element) (nestedElement code element) := by
  have hW := weave_balanced P stop
  refine fun c hc => nestedElement_mirror hW hcode.code (fun ho => balanced_element ho.tag (by simp))
    (fun ho _ _ => ?_) (fun {o _ name} ho _ _ c hc => ?_) (hW.read hc 1)
  · exact (rawTextContent_mirrors hW.toCarries _ fun _ => hcode.code).imp fun _ _ h =>
      balanced_element ho.tag (forall_left h)
  · have hcontent := elementContent_mirror o.place (opens_heads hc name) hW.toCarries hcode.code helement.element
    exact ⟨hcontent.1, hcontent.2.1, balanced_element ho.tag (forall_left hcontent.2.2)⟩

theorem flatElement_balanced :
    Mirrors (Heads stop) (fun n _ => n.Balanced P stop) (flatElement code) (flatElement code) := by
  have hW := weave_balanced P stop
  refine flatElement_mirrors hW hcode.code ?_ (fun ho => (balanced_element ho.tag (by simp)).1) fun ho _ _ => ?_
  · intro _ d o name _ _ hd _
    exact hd.moved (moved_pushFlattened d name o.place)
  · exact (rawTextContent_mirrors hW.toCarries _ fun _ => hcode.code).imp fun _ _ h =>
      (balanced_element ho.tag (forall_left h)).1

end Elements

end Parse

namespace Level

/-- All blocks that the parsers of the level read are settled. -/
structure Balances (P : Prop) (stop : Position) (l : Level) : Prop where
  code : Parse.Mirrors (Context.Heads stop) (fun n _ => n.Balanced P stop) l.code l.code
  element : Parse.Mirrors (Context.Heads stop) (fun n _ => n.Balanced P stop) l.element l.element
  body : Parse.BodyEnds P stop l.body

/-- At the ground a body may be left open. -/
theorem balances_ground (stop : Position) : ground.Balances True stop := by
  have hbody := Parse.flatBody_settles trivial stop
  have hcode := Parse.embedded_balanced hbody
  exact ⟨hcode, Parse.flatElement_balanced hcode, hbody⟩

/-- Where the ground is not reached, nothing is left open. -/
theorem balances_stub (stop : Position) : stub.Balances False stop := by
  have hW := Parse.weave_balanced False stop
  have hbody : Parse.BodyEnds False stop stub.body := fun c hc =>
    ⟨hW.report hc _, [], _, rfl, ⟨by simp, .inr ⟨c.pos, rfl⟩⟩, by simp, Node.settles_of_nil rfl _⟩
  have helement : ∀ c : Context, c.Heads stop →
      Parse.Ends stub.element c fun n d => d.Heads stop ∧ n.Balanced False stop := by
    refine fun c hc => stubElement_ends.imp ?_
    rintro _ _ ⟨⟨tag, htag, rfl⟩, -, x, y, rfl⟩
    refine ⟨hW.report (hW.report (hW.read hc 1) x) y, ?_⟩
    exact Node.balanced_branch (by decide) (List.forall_mem_singleton.2 (hW.closed htag))
  exact ⟨Parse.embedded_balanced hbody, fun c hc => ⟨rfl, helement c hc⟩, hbody⟩

/-- **Every level is balanced**, by induction on the room. -/
theorem Balances.stacked {base : Level} (h : base.Balances P stop) (room : ℕ) :
    (stacked base room).Balances P stop := by
  induction room with
  | zero => exact h
  | succ room ih =>
    have helement := Parse.nestedElement_balanced ih.code ih.element
    exact ⟨Parse.embedded_balanced ih.body, helement.imp fun _ _ h => h.1, Parse.codeBody_settles ih.body helement⟩

/-- All blocks of a document are settled. -/
theorem Balances.document {l : Level} (h : l.Balances P stop) :
    Parse.Mirrors (Context.Heads stop) (fun n _ => n.Balanced P stop) (Parse.document l.code l.element)
      (Parse.document l.code l.element) :=
  Parse.document_mirrors (Parse.weave_balanced P stop).toCarries h.code.code h.element.element
    (fun k c hc => hc.moved (Context.moved_truncateFlattened c k))
    fun hns => Node.balanced_branch (by decide) (Node.forall_left hns)

end Level

/-! ## Templates -/

section

variable (options : ParseOptions) (t : Text)

theorem heads_atDocument :
    (Context.atDocument options t).Heads (t.positionAt t.length) := by
  have hstop := Text.after_eq_positionAt t []
  rw [List.append_nil] at hstop
  exact hstop

/-- **All blocks of a document are balanced**, up to code that the end of the template cuts off. -/
theorem document_balanced :
    (Template.document options t).1.Balanced True (t.positionAt t.length) := by
  have hlevel := (Level.balances_ground (t.positionAt t.length)).stacked options.maxNestingDepth
  rw [Level.stacked_ground] at hlevel
  exact (hlevel.document _ (heads_atDocument options t)).2.2

/-- Below the nesting limit nothing is left open. -/
theorem document_balanced_unmet (h : (Template.document options t).2.depthReported = false) :
    (Template.document options t).1.Balanced False (t.positionAt t.length) := by
  have hlevel := (Level.balances_stub (t.positionAt t.length)).stacked options.maxNestingDepth
  have hdocument := (hlevel.document _ (heads_atDocument options t)).2.2
  rwa [document_stub t h] at hdocument

variable {options}

/-- **The braces of code blocks.** The statements that are written for a block, its elements left
out, close no brace that they did not open. They leave one open only if the nesting limit was met:
then a piece of code in the block runs to the end of the template and leaves as many open. -/
theorem parse_balances_braces (h : options.language ∈ Registry.standard.languages) :
    ∃ r, Template.parse options t = .ok r ∧
      ∀ b ∈ Node.descendantsAll r.nodes, b.kind = .codeBlock →
        (∀ e : Emitter, e.Makes (b.codeOnly.calls none) (b.codeOnly.emit e)) ∧
        ∃ k, Code.depth 0 (b.statements.flatMap Code.braces) = some k ∧
          (k = 0 ∨ 0 < r.diagnostics.countP Diagnostic.isTooDeep ∧
            ∃ code l trivia, Node.leaf .codeValue (.token code) l trivia ∈ b.codeOnly.descendants ∧
              l.stop = t.positionAt t.length ∧ Code.depth 0 (Code.braces code) = some k) := by
  refine ⟨_, parse_eq_document t h, fun b hb hkind => ⟨Node.makes_codeOnly hkind, ?_⟩⟩
  replace hb : b ∈ (Template.document options t).1.descendants := by
    rw [Node.descendantsAll, Node.descendantsAll, Node.descendantsAll] at hb
    rcases List.mem_append.1 hb with hb | hb
    · exact hb
    · simp only [Node.marker, Node.descendants, List.append_nil, List.mem_singleton] at hb
      rw [hb] at hkind; cases hkind
  rw [Node.braces_statements hkind]
  rw [Template.countP_isTooDeep]
  -- a block is left open only past the nesting limit, and then the limit was reported
  cases hreported : (Template.document options t).2.depthReported with
  | false =>
    obtain ⟨k, hk, rfl | hopen⟩ := document_balanced_unmet options t hreported b hb hkind
    · exact ⟨0, hk, .inl rfl⟩
    · exact hopen.1.elim
  | true =>
    obtain ⟨k, hk, hend⟩ := document_balanced options t b hb hkind
    refine ⟨k, hk, hend.imp_right ?_⟩
    rintro ⟨-, code, l, trivia, hmem, hl⟩
    exact ⟨by decide, code, l, trivia, Node.mem_descendants_codeOnly hmem, hl⟩

theorem parse_balances_braces_unclosed :
    ({} : ParseOptions).language ∈ Registry.standard.languages ∧
      ∃ r, Template.parse {} "@\x7bif (a) \x7b <b>@\x7b x // \x7d".toList = .ok r ∧
        ∀ b ∈ Node.descendantsAll r.nodes, b.kind = .codeBlock →
          (∀ e : Emitter, e.Makes (b.codeOnly.calls none) (b.codeOnly.emit e)) ∧
          ∃ k, Code.depth 0 (b.statements.flatMap Code.braces) = some k ∧
            (k = 0 ∨ 0 < r.diagnostics.countP Diagnostic.isTooDeep ∧
              ∃ code l trivia, Node.leaf .codeValue (.token code) l trivia ∈ b.codeOnly.descendants ∧
                l.stop = Text.positionAt "@\x7bif (a) \x7b <b>@\x7b x // \x7d".toList
                  "@\x7bif (a) \x7b <b>@\x7b x // \x7d".toList.length ∧
                Code.depth 0 (Code.braces code) = some k) :=
  ⟨by decide, parse_balances_braces _ (by decide)⟩

/-- With the limit zero the body of a block is one piece of code, and a brace in it stays open. -/
theorem flat_body_left_open :
    ((Template.parse { maxNestingDepth := 0 } ['@', '{', '{']).toOption.any fun r =>
      (Node.descendantsAll r.nodes).any fun b =>
        b.kind == .codeBlock && Code.depth 0 (b.statements.flatMap Code.braces) == some 1) = true := by
  decide +kernel

end

end Stencil
