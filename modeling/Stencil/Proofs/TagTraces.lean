import Stencil.Proofs.Scan
import Stencil.Proofs.Tiling

/-!
# The traces of code, text and tags

For each parser it is shown here by which steps its result is built, from the tokens up to whole start
tags. What it calls for embedded code and for elements is taken to leave traces, too.

`c.Gives P w n d`: from `c` to `d` the node `n` has been read, which is of one of the kinds in `P`
and has no blanks attached.

* `embedded_traces`, `codeBody_traces`: code and the body of a brace.
* `endTag_traces`, `opening_traces`: **what is known of a tag when it has been read.**
-/

namespace Stencil

/-- From `c` to `d` a node without blanks was read, of one of the kinds in `P`. It is at most `w` more
nodes than what was read pays for. -/
structure Context.Gives (c : Context) (P : Kind → Prop) (w : ℤ) (n : Node) (d : Context) : Prop where
  trace : Trace false c [n] w d
  kind : P n.kind
  plain : n.trivia = {}

namespace Trace

variable {b : Bool} {c d e : Context} {ns : List Node} {w : ℤ}

/-- Steps without nodes at the end of a trace. -/
theorem stay (h : Trace b c ns w d) (h' : Trace b d [] 0 e) : Trace b c ns w e := by
  simpa using h.append h'

/-- Steps without nodes at the start of a trace. -/
theorem after (h : Trace b c [] 0 d) (h' : Trace b d ns w e) : Trace b c ns w e := by
  simpa using h.append h'

/-- Before the end of the text, a trace with nodes and without debts reads on. -/
theorem length_lt {n : Node} (h : Trace b c [n] 0 d) : d.rest.length < c.rest.length := by
  have hsize := h.size
  rw [Node.descendantsAll_singleton, Node.descendants_eq_cons, List.length_cons] at hsize
  omega

/-- A token that is no name may be any text. -/
theorem token {k : Kind} (n : ℕ) (hk : k.isToken = true) (hname : k.isName = false) :
    Trace false c [.token k (.ofText c.pos (c.rest.take n))] (1 - 6 * (c.rest.take n).length) (c.read n).2 := by
  refine .leaf (.token n hk fun h => ?_)
  rw [hname] at h
  cases h

end Trace

namespace Parse

open Context Node

variable {c d : Context} {w : ℤ} {α σ : Type}

/-- What has no closing delimiter is only asked for the kinds of its nodes. -/
theorem frames_of_stop?_eq_none {k : Kind} {ns : List Node} (hk : k.isFrame = true) (hstop : k.stop? = none)
    (hns : k.Holds (ns.map kind)) : Frames k ns := by
  refine ⟨hk, hns, ?_, fun j t h => ?_⟩
  · rintro rfl
    cases hstop
  · rw [hstop] at h
    cases h

/-! ## Loops -/

/-- A step that leaves no node behind, repeated. -/
theorem forM_traces {f : α → Parse Unit} (hf : ∀ a c, Ends (f a) c fun _ d => Trace false c [] 0 d)
    (as : List α) : Ends (as.forM f) c fun _ d => Trace false c [] 0 d :=
  Ends.forM (I := fun d => Trace false c [] 0 d) (fun a _ h => (hf a _).imp fun _ _ hd => h.stay hd) as (.nil c)

section

variable {b : Bool} {P : Node → Prop}

/-- **Loop rule**: turns that are traced make a trace. -/
theorem many_traces {step : σ → Parse (Option (Node × σ))} (hstep : ∀ s c, Ends (step s) c fun r d =>
      Trace b c (r.map Prod.fst).toList 0 d ∧ ∀ n ∈ (r.map Prod.fst).toList, P n) (s : σ) :
    Ends (many step s) c fun r d => Trace b c r.1 0 d ∧ ∀ n ∈ r.1, P n := by
  refine Ends.many (fun ns _ d => Trace b c ns 0 d ∧ ∀ n ∈ ns, P n) ?_ ?_ ⟨.nil c, by simp⟩
  · rintro ns s e d ⟨h, hns⟩ hturn
    exact ⟨h.stay ((hstep s e).of_eq hturn).1, hns⟩
  · rintro ns s e n s' d ⟨h, hns⟩ hturn
    obtain ⟨h', hn⟩ := (hstep s e).of_eq hturn
    exact ⟨by simpa using h.append h', List.forall_mem_append.2 ⟨hns, hn⟩⟩

theorem manyNodes_traces {step : Parse (Option Node)}
    (hstep : ∀ c, Ends step c fun r d => Trace b c r.toList 0 d ∧ ∀ n ∈ r.toList, P n) :
    Ends (manyNodes step) c fun ns d => Trace b c ns 0 d ∧ ∀ n ∈ ns, P n := by
  refine Ends.manyNodes (fun ns d => Trace b c ns 0 d ∧ ∀ n ∈ ns, P n) ?_ ⟨.nil c, by simp⟩
  rintro ns e ⟨h, hns⟩
  refine (hstep e).imp ?_
  rintro r d ⟨h', hr⟩
  exact ⟨by simpa using h.append h', List.forall_mem_append.2 ⟨hns, hr⟩⟩

end

/-! ## Tokens -/

theorem cost_le_one (c : Context) (n : ℕ) : 1 - 6 * ((c.rest.take n).length : ℤ) ≤ 1 := by omega

/-- Before the end of the text a token pays for six nodes. -/
theorem cost_read {n : ℕ} (hn : 0 < n) (hc : c.rest ≠ []) : 1 - 6 * ((c.rest.take n).length : ℤ) ≤ -5 := by
  have := c.length_rest_read n
  have := c.length_rest_read_lt hn hc
  omega

/-- **A token is one node**, and what is read for it pays for it. -/
theorem token_gives {k : Kind} {n : ℕ} (hk : k.isToken = true) (hname : k.isName = false)
    (hw : 1 - 6 * ((c.rest.take n).length : ℤ) ≤ w) : Ends (token k n) c (c.Gives (· = k) w) := by
  rw [Ends, token_apply]
  exact ⟨(Trace.token n hk hname).le hw, rfl, rfl⟩

/-- A name holds no blanks. -/
theorem name_gives {k : Kind} {n : ℕ} (hk : k.isToken = true)
    (hname : ∀ x ∈ c.rest.take n, Text.isBlank x = false) (hw : 1 - 6 * ((c.rest.take n).length : ℤ) ≤ w) :
    Ends (token k n) c (c.Gives (· = k) w) := by
  rw [Ends, token_apply]
  exact ⟨.le (.leaf (.token n hk fun _ => hname)) hw, rfl, rfl⟩

/-- A token that is not there is one node that nothing pays for. -/
theorem absent_gives {k : Kind} {x : Wanted} (hx : x.code.missing? = some k) :
    Ends (absent k x) c (c.Gives (· = k) 1) := by
  have hcode : x.code.isUnterminated = false := by cases x <;> rfl
  exact ⟨.leaf (.absent (p := .expected x _) hx hcode), rfl, rfl⟩

/-- A wanted token is read or stands in for what is not there. -/
theorem expect_gives {k : Kind} {x : Wanted} (hk : k.isToken = true) (hname : k.isName = false)
    (hx : x.code.missing? = some k) (hnul : Text.nul ∉ x.text) :
    Ends (expect k x) c fun n d => c.Gives (· = k) 1 n d ∧
      (n.isMissing = true ∨ ∃ l, n = .token k l ∧ l.text = x.text) := by
  refine Ends.get_bind ?_
  split
  case isTrue h =>
    refine (token_gives hk hname (cost_le_one c _)).and ?_
    rw [Ends, token_apply, Text.take_of_startsWith hnul h]
    exact .inr ⟨_, rfl, rfl⟩
  case isFalse => exact (absent_gives hx).and (Or.inl rfl)

/-! ## Embedded code -/

/-- The report of what the end of the template cuts off. -/
theorem cutOff_traces (us : List Unclosed) :
    Ends (us.forM fun u => reportHere (.unexpectedEnd u)) c fun _ d => Trace false c [] 0 d :=
  forM_traces (fun u c => .silent (.cutOff c u)) us

/-- A piece of code, and the reports behind it. -/
theorem code_ends (e : Code.Extent) : Ends (code e) c fun n d =>
    n = .token .codeValue (.ofText c.pos (c.rest.take e.length)) ∧ Trace false (c.read e.length).2 [] 0 d := by
  refine Ends.bind_eq (token_apply _ _ c) ?_
  exact Ends.bind (cutOff_traces _) fun _ d hd => Ends.pure ⟨rfl, hd⟩

theorem code_moves (e : Code.Extent) : Ends (code e) c fun n d =>
    n = .token .codeValue (.ofText c.pos (c.rest.take e.length)) ∧ c.Moved (c.rest.take e.length) d :=
  (code_ends e).imp fun _ _ h => ⟨h.1, (c.moved_read _).trans_stay h.2.moved_nil⟩

theorem code_gives {e : Code.Extent} (hw : 1 - 6 * ((c.rest.take e.length).length : ℤ) ≤ w) :
    Ends (code e) c (c.Gives (· = .codeValue) w) := by
  refine (code_ends e).imp ?_
  rintro _ d ⟨rfl, hd⟩
  have htoken : Trace false c [.token .codeValue (.ofText c.pos (c.rest.take e.length))] w (c.read e.length).2 :=
    (Trace.token _ rfl rfl).le hw
  exact ⟨htoken.stay hd, rfl, rfl⟩

/-- The parts of a body, and the brace that closes it. -/
structure IsBody (ns : List Node) : Prop where
  kinds : ∃ parts, ns.map kind = parts ++ [.brace] ∧ ∀ k ∈ parts, k.isBodyPart = true
  stop : ∃ n, ns.getLast? = some n ∧ (n.isMissing = true ∨ ∃ l, n = .token .brace l ∧ l.text = ['}'])

theorem isBody_append {parts : List Node} {closing : Node} (hparts : ∀ n ∈ parts, n.kind.isBodyPart = true)
    (hkind : closing.kind = .brace)
    (hstop : closing.isMissing = true ∨ ∃ l, closing = .token .brace l ∧ l.text = ['}']) :
    IsBody (parts ++ [closing]) :=
  ⟨⟨parts.map kind, by simp [hkind], List.forall_mem_map.2 hparts⟩, closing, by simp, hstop⟩

/-- A body behind a marker and a brace makes a block, -/
theorem IsBody.block {marker opening : Node} {ns : List Node} (h : IsBody ns) (hmarker : marker.kind = .transition)
    (hopening : opening.kind = .brace) : Frames .codeBlock (marker :: opening :: ns) := by
  obtain ⟨parts, hkinds, hparts⟩ := h.kinds
  obtain ⟨n, hlast, hn⟩ := h.stop
  refine ⟨rfl, ⟨parts, by simp [hmarker, hopening, hkinds], hparts⟩, nofun, ?_⟩
  rintro j t ⟨⟩
  exact ⟨n, by simp [List.getLast?_cons, hlast], hn⟩

/-- and behind a brace that is there a pair of braces. -/
theorem IsBody.braces {opening : Node} {ns : List Node} (h : IsBody ns) (hopening : opening.kind = .brace)
    (hfound : opening.isMissing = false) : Frames .codeBrace (opening :: ns) := by
  obtain ⟨parts, hkinds, hparts⟩ := h.kinds
  obtain ⟨n, hlast, hn⟩ := h.stop
  refine ⟨rfl, ⟨parts, by simp [hopening, hkinds], hparts⟩, fun _ => by simp [hfound], ?_⟩
  rintro j t ⟨⟩
  exact ⟨n, by simp [List.getLast?_cons, hlast], hn⟩

/-- The parser reads what a transition at the cursor introduces. -/
def TracesCode (code : Parse Node) : Prop :=
  ∀ c, c.rest ≠ [] → c.atTransition = true → Ends code c (c.Gives (·.isEmbedded = true) 0)

/-- The parser reads the element at the cursor. -/
def TracesElement (element : Parse Node) : Prop :=
  ∀ c, c.rest ≠ [] → Ends element c (c.Gives (·.isElement = true) 0)

/-- The parser reads the body of a brace. -/
def TracesBody (body : Parse (List Node)) : Prop :=
  ∀ c, Ends body c fun ns d => Trace false c ns 2 d ∧ IsBody ns

theorem transitionMarker_gives (hc : c.rest ≠ []) (hat : c.atTransition = true) :
    Ends transitionMarker c (c.Gives (· = .transition) (-5)) := by
  refine Ends.bind_eq (read_apply 1 c) ?_
  exact ⟨.leaf (.marker hc hat), rfl, rfl⟩

/-- **Expressions.** -/
theorem codeExpression_gives (hc : c.rest ≠ []) (hat : c.atTransition = true) :
    Ends codeExpression c (c.Gives (· = .codeExpression) 0) := by
  refine Ends.bind (transitionMarker_gives hc hat) fun marker c₁ h₁ => Ends.get_bind ?_
  refine Ends.bind (code_gives (cost_le_one _ _)) fun value c₂ h₂ => Ends.pure ?_
  have hframes : Frames .codeExpression [marker, value] :=
    frames_of_stop?_eq_none rfl rfl (by simp [Kind.Holds, h₁.kind, h₂.kind])
  exact ⟨((h₁.trace.append h₂.trace).frame hframes).le (by omega), rfl, rfl⟩

/-- **Blocks.** -/
theorem codeBlock_gives {body : Parse (List Node)} (hbody : TracesBody body) (hc : c.rest ≠ [])
    (hat : c.atTransition = true) : Ends (codeBlock body) c (c.Gives (· = .codeBlock) 0) := by
  refine Ends.bind (transitionMarker_gives hc hat) fun marker c₁ h₁ => ?_
  refine Ends.bind (token_gives rfl rfl (cost_le_one _ _)) fun opening c₂ h₂ => ?_
  refine Ends.bind (hbody c₂) fun ns c₃ h₃ => Ends.pure ?_
  exact ⟨((h₁.trace.append (h₂.trace.append h₃.1)).frame (h₃.2.block h₁.kind h₂.kind)).le (by omega), rfl, rfl⟩

/-- **Embedded code** is traced if its bodies are. -/
theorem embedded_traces {body : Parse (List Node)} (hbody : TracesBody body) : TracesCode (embedded body) := by
  intro c hc hat
  refine Ends.get_bind ?_
  split
  case isTrue hpeek =>
    refine Ends.bind_eq (read_apply 2 c) (Ends.get_bind ?_)
    exact ⟨.le (.leaf (.escaped hc hat hpeek)) (by omega), rfl, rfl⟩
  case isFalse =>
    split
    · exact (codeBlock_gives hbody hc hat).imp fun n d h => ⟨h.trace, by rw [h.kind]; rfl, h.plain⟩
    · split
      · exact (codeExpression_gives hc hat).imp fun n d h => ⟨h.trace, by rw [h.kind]; rfl, h.plain⟩
      · refine Ends.bind_eq (read_apply 1 c) (Ends.get_bind ?_)
        exact ⟨.le (.leaf (.invalid hc hat)) (by omega), rfl, rfl⟩

theorem flatBody_traces : TracesBody flatBody := by
  intro c
  refine Ends.modify_bind (Ends.get_bind (Ends.bind (code_ends _) ?_))
  rintro _ c₁ ⟨rfl, h₁⟩
  refine Ends.bind (expect_gives rfl rfl rfl (by decide)) ?_
  rintro closing c₂ ⟨h₂, hstop⟩
  have hdeep : Trace false c [] 0 c.reportTooDeep := .silent (.tooDeep c)
  generalize (Code.flatBody 0 c.reportTooDeep.rest).length = n at h₁
  have hsource : (Node.token .codeValue (.ofText c.reportTooDeep.pos (c.reportTooDeep.rest.take n))).source =
      c.reportTooDeep.rest.take n := by
    simp [Node.source, Node.token, Trivia.leadText, Trivia.trailText]
  refine Ends.pure ?_
  rw [hsource]
  split
  case isTrue hempty =>
    -- an empty piece of code is left out of the tree
    have hskip := hdeep.after (.silent (.skip n (List.isEmpty_iff.1 hempty)))
    exact ⟨((hskip.stay h₁).append h₂.trace).le (by omega), @isBody_append [] _ (by simp) h₂.kind hstop⟩
  case isFalse =>
    have hvalue := hdeep.after ((Trace.token (k := .codeValue) n rfl rfl).le (cost_le_one _ n))
    have hparts : ∀ m ∈ [Node.token .codeValue (.ofText c.reportTooDeep.pos (c.reportTooDeep.rest.take n))],
        m.kind.isBodyPart = true := List.forall_mem_singleton.2 rfl
    exact ⟨(hvalue.stay h₁).append h₂.trace, isBody_append hparts h₂.kind hstop⟩

/-- A piece of code is not empty where neither a brace nor an element stands. -/
theorem value_pos_of_current {last : Option Char} (hc : c.rest ≠ []) (hopen : ¬ c.current = '{')
    (hclose : ¬ c.current = '}') (hmarkup : ¬ Code.startsMarkup last c.rest = true) :
    0 < (Code.value last c.rest).1.length := by
  obtain ⟨x, rest, hrest⟩ := List.exists_cons_of_ne_nil hc
  have hx : c.current = x := by simp [current, peekAt, Text.ahead, hrest]
  rw [hrest]
  exact Code.value_pos (hx ▸ hopen) (hx ▸ hclose) (by simpa [hrest] using hmarkup)

section

variable {body : Parse (List Node)} {element : Parse Node} (hbody : TracesBody body)
  (helement : TracesElement element)

include hbody helement

theorem bodyPart_traces (last : Option Char) : Ends (bodyPart body element last) c fun r d =>
    Trace false c (r.map Prod.fst).toList 0 d ∧ ∀ n ∈ (r.map Prod.fst).toList, n.kind.isBodyPart = true := by
  refine Ends.get_bind ?_
  split
  case isTrue => exact Ends.pure ⟨.nil c, by simp⟩
  case isFalse hgo =>
    simp only [Bool.or_eq_true, decide_eq_true_eq, not_or] at hgo
    have hc := rest_ne_nil_of_not_atEnd hgo.1
    split
    case isTrue =>
      refine Ends.bind_eq (token_apply .brace 1 c) (Ends.bind (hbody _) fun ns c₂ h₂ => Ends.pure ?_)
      have hopening : Trace false c [.token .brace (.ofText c.pos (c.rest.take 1))] (-5) (c.read 1).2 :=
        (Trace.token 1 rfl rfl).le (cost_read Nat.one_pos hc)
      have hbrace := (hopening.append h₂.1).frame (h₂.2.braces rfl rfl)
      exact ⟨hbrace.le (by omega), List.forall_mem_singleton.2 rfl⟩
    case isFalse hopen =>
      split
      case isTrue =>
        refine Ends.bind (helement c hc) fun n d h => Ends.pure ⟨h.trace, ?_⟩
        exact List.forall_mem_singleton.2 (Kind.isBodyPart_of_isElement h.kind)
      case isFalse hmarkup =>
        -- what is left is neither a brace nor an element
        have hpos := value_pos_of_current hc hopen hgo.2 hmarkup
        refine Ends.bind (code_gives (cost_read hpos hc)) fun n d h => Ends.pure ⟨h.trace.le (by omega), ?_⟩
        exact List.forall_mem_singleton.2 (by rw [h.kind]; rfl)

/-- **Bodies** are traced if the bodies and elements in them are. -/
theorem codeBody_traces : TracesBody (codeBody body element) := by
  intro c
  refine Ends.bind (many_traces (fun s _ => bodyPart_traces hbody helement s) none) ?_
  rintro r c₁ ⟨h₁, hparts⟩
  refine Ends.bind (expect_gives rfl rfl rfl (by decide)) ?_
  rintro closing c₂ ⟨h₂, hstop⟩
  exact Ends.pure ⟨(h₁.append h₂.trace).le (by omega), isBody_append hparts h₂.kind hstop⟩

end

/-! ## Regions and text -/

/-- A region goes up to its first terminator, or up to the end of the text. -/
theorem region_traces {R : Region} (hR : R = commentRegion ∨ R = cdataRegion)
    (hstart : c.rest.startsWith R.start = true) :
    Ends (region R) c fun n d => Trace false c [n] 0 d ∧ n.kind = R.kind := by
  have hnul : Text.nul ∉ R.start ∧ Text.nul ∉ R.stop := by rcases hR with rfl | rfl <;> decide
  have hpos : 0 < R.start.length := by rcases hR with rfl | rfl <;> decide
  have hstartKind : R.startKind.isToken = true ∧ R.startKind.isName = false := by
    rcases hR with rfl | rfl <;> exact ⟨rfl, rfl⟩
  have hcontentKind : R.contentKind.isToken = true ∧ R.contentKind.isName = false := by
    rcases hR with rfl | rfl <;> exact ⟨rfl, rfl⟩
  have htake : c.rest.take R.start.length = R.start := Text.take_of_startsWith hnul.1 hstart
  have hc : c.rest ≠ [] := by
    intro hnil
    rw [hnil, List.take_nil] at htake
    rw [← htake] at hpos
    exact absurd hpos (Nat.lt_irrefl 0)
  refine Ends.bind_eq (token_apply R.startKind _ c) (Ends.get_bind ?_)
  have htoken := (token_gives hstartKind.1 hstartKind.2 (cost_read hpos hc)).of_eq (token_apply R.startKind _ c)
  have hmoved := c.moved_read R.start.length
  rw [htake] at htoken hmoved ⊢
  generalize (c.read R.start.length).2 = c₁ at htoken hmoved ⊢
  generalize hn : c₁.rest.runLength (fun _ t => t.startsWith R.stop) none = n
  -- the content is all that stands before the first terminator
  have hupTo : Text.UpTo (R.stop <+: ·) (c₁.rest.take n) (c₁.rest.drop n) := by
    rw [← hn]
    exact (Text.upTo_runLength (·.startsWith R.stop) _ []).congr fun t => Text.startsWith_iff hnul.2 t
  have hsplit : c.rest = R.start ++ (c₁.rest.take n ++ c₁.rest.drop n) := by
    rw [List.take_append_drop, hmoved.rest]
  have hcontent := (token_gives hcontentKind.1 hcontentKind.2 (cost_le_one c₁ n)).of_eq
    (token_apply R.contentKind n c₁)
  have htokens := htoken.trace.append hcontent.trace
  have hmoved₂ := hmoved.trans (c₁.moved_read n)
  rw [hmoved.pos] at htokens
  -- both endings are traced alike
  have hstops : ∀ {stop : Node} {e : Context}, R.Stops (c₁.rest.drop n) (c₁.read n).2 stop e →
      Trace false c [.ofChildren R.kind [.token R.startKind (.ofText c.pos R.start),
        .token R.contentKind (.ofText (c.pos.after R.start) (c₁.rest.take n)), stop]] 0 e :=
    fun h => (Trace.region hR hsplit hupTo hmoved₂ htokens h).le (by omega)
  refine Ends.bind_eq (token_apply R.contentKind n c₁) (Ends.get_bind ?_)
  rw [hmoved.pos]
  split
  case isTrue h => exact ⟨hstops (.missing (List.isEmpty_iff.1 h)), rfl⟩
  case isFalse h =>
    have hne : c₁.rest.drop n ≠ [] := rest_ne_nil_of_not_atEnd h
    have hstop : (c₁.read n).2.rest.take R.stop.length = R.stop :=
      (List.prefix_iff_eq_take.1 (hupTo.stop.resolve_left hne)).symm
    refine Ends.bind_eq (token_apply R.stopKind _ _) (Ends.pure ?_)
    rw [hstop]
    exact ⟨hstops (.token hne hstop), rfl⟩

/-- A report that is made on a condition. -/
theorem report_if {b : Prop} [Decidable b] {p : Problem} {l : Location} {k : Unit → Parse α}
    {Q : α → Context → Prop} (h : Ends (k ()) (c.reportIf b p l) Q) :
    Ends (if b then report p l >>= k else k ()) c Q := by
  unfold reportIf at h
  split
  · rwa [if_pos ‹b›] at h
  · rwa [if_neg ‹¬ b›] at h

/-- **Declarations.** -/
theorem declaration_traces (hstart : c.rest.startsWith ['<', '!'] = true) :
    Ends declaration c fun n d => Trace false c [n] 0 d ∧ n.kind = .doctype := by
  refine Ends.get_bind ?_
  dsimp only
  generalize c.rest.startsWithLetters "<!doctype".toList = known
  have hleaf := Trace.leaf (.declaration _ known hstart rfl)
  refine Ends.bind_eq (read_apply _ c) (report_if (report_if ?_))
  refine Ends.pure ⟨?_, rfl⟩
  cases known <;> exact hleaf.le (by omega)

/-- A run that stops at transitions, among other places, is text. -/
theorem free_runLength {stop : Option Char → Text → Bool}
    (hstop : ∀ previous t, startsTransition c.transition previous t = true → stop previous t = true) :
    c.Free (c.rest.runLength stop c.previous?) := by
  intro i hi
  have hfree := Text.stop_of_lt_runLength c.before hi
  have hat : (c.read i).2.atTransition =
      startsTransition c.transition ((c.rest.take i).reverse ++ c.before).head? (c.rest.drop i) := rfl
  rw [hat]
  by_contra hcontra
  rw [hstop _ _ (by simpa using hcontra)] at hfree
  cases hfree

theorem literalRun_traces {lead : Option Location} (hlead : blanks c = (lead, d)) (hc : ¬ c.AtStop)
    (hd : ¬ d.AtStop) : Ends (literalRun lead) d fun n e => Trace false c [n] 0 e ∧ n.kind = .literal := by
  obtain ⟨hne, hgo⟩ := not_or.1 hd
  refine Ends.get_bind ?_
  dsimp only
  generalize hn : d.rest.runLength (stopsText d.transition) d.previous? = n
  have hpos : 0 < n := hn ▸ Text.runLength_pos hne (Bool.eq_false_iff.2 hgo)
  have hfree : d.Free n := hn ▸ free_runLength fun previous t h => by simp [stopsText, h]
  have hstop : (d.read n).2.AtStop := hn ▸ Text.runLength_stops (stopsText d.transition) d.rest d.before
  -- the run starts with a character that is not blank
  have htrimmed : (Text.trimRight (d.rest.take n)).Trimmed := by
    obtain ⟨x, u, hx⟩ := List.exists_cons_of_ne_nil hne
    obtain ⟨m, rfl⟩ := Nat.exists_eq_succ_of_ne_zero hpos.ne'
    have hblank := Text.isBlank_drop_blanksAhead ((rest_of_blanks hlead).symm.trans hx)
    rw [hx, List.take_succ_cons]
    exact Text.trimmed_trimRight hblank
  have hleaf := Trace.leaf (.literal d n hlead hc hfree hstop (Text.trimRight_append_drop _).symm htrimmed
    (Text.allBlank_drop_trimRight _))
  refine Ends.bind_eq (read_apply n d) ?_
  split
  case isTrue hall =>
    refine Ends.pure ⟨?_, rfl⟩
    have hcore : Text.trimRight (d.rest.take n) = d.rest.take n :=
      (Text.trimRight_isPrefix _).eq_of_length hall
    rw [hcore, List.drop_length] at hleaf
    exact hleaf.le (by omega)
  case isFalse hsome =>
    rw [splitAt_ofText]
    refine Ends.pure ⟨?_, rfl⟩
    have hrest : (d.rest.take n).drop (Text.trimRight (d.rest.take n)).length ≠ [] := by
      intro hnil
      have hle := List.drop_eq_nil_iff.1 hnil
      exact hsome (Nat.le_antisymm (Text.trimRight_isPrefix _).length_le hle)
    rw [trailing, if_neg hrest] at hleaf
    simp only [Text.take_trimRight, Location.text_ofText]
    exact hleaf.le (by omega)

/-- **Text** between tags, away from where it stops. -/
theorem contentText_traces (hc : ¬ c.AtStop) :
    Ends contentText c fun n d => Trace false c [n] 0 d ∧ n.kind.isContent = true := by
  refine Ends.bind (Q := fun l d => blanks c = (l, d)) rfl fun lead c₁ hlead => Ends.get_bind ?_
  split
  case isTrue hstop =>
    have hat : c₁.AtStop := by simpa [AtStop, atEnd] using hstop
    cases lead with
    | none =>
      obtain ⟨-, -, rfl⟩ | ⟨-, hsome, -⟩ := blanks_cases hlead
      · exact absurd hat hc
      · cases hsome
    | some l => exact Ends.pure ⟨(Trace.leaf (.blank hlead hc hat)).le (by omega), rfl⟩
  case isFalse hgo =>
    have hat : ¬ c₁.AtStop := by simpa [AtStop, atEnd] using hgo
    exact (literalRun_traces hlead hc hat).imp fun n d h => ⟨h.1, by rw [h.2]; rfl⟩

/-! ## Tags -/

/-- A tag name is all that may be part of it, and it is missing if that is nothing. -/
theorem tagName_gives : Ends tagName c fun n d => c.Gives (· = .htmlTagName) 1 n d ∧
    (n.isMissing = true ∧ n.value? = none ∧ c.rest.takeWhile Html.isNameChar = [] ∨
      c.rest.takeWhile Html.isNameChar ≠ [] ∧
        n = .token .htmlTagName (.ofText c.pos (c.rest.takeWhile Html.isNameChar))) := by
  refine Ends.get_bind ?_
  dsimp only
  split
  case isTrue hzero =>
    exact (absent_gives rfl).and (Or.inl ⟨rfl, rfl, List.length_eq_zero_iff.1 hzero⟩)
  case isFalse hne =>
    have hname : ∀ x ∈ c.rest.take c.rest.nameLength, Text.isBlank x = false := by
      intro x hx
      rw [Text.take_nameLength] at hx
      exact Text.isBlank_of_isNameChar (List.all_eq_true.1 List.all_takeWhile x hx)
    refine (name_gives rfl hname (cost_le_one c _)).and ?_
    rw [Ends, token_apply, Text.take_nameLength]
    exact .inr ⟨fun hnil => hne (List.length_eq_zero_iff.2 hnil), rfl⟩

theorem child?_second {k j : Kind} {a b : Node} {ns : List Node} (ha : a.kind ≠ k) (hb : b.kind = k) :
    (ofChildren j (a :: b :: ns)).child? k = some b := by
  rw [child?, ofChildren, children, List.find?_cons_of_neg (by simpa using ha), List.find?_cons_of_pos (by simp [hb])]

/-- **What is known of an end tag that has been read.** -/
theorem endTag_traces (hc : c.rest ≠ []) : Ends endTag c fun n d =>
    ∃ cs, n = .ofChildren .htmlEndTag cs ∧ Trace false c cs (-3) d ∧ c.EndTag cs := by
  refine Ends.bind_eq (token_apply .bracket 2 c) (Ends.bind tagName_gives ?_)
  rintro name c₂ ⟨h₂, hname⟩
  refine Ends.bind (Q := fun l d => blanks c₂ = (l, d)) rfl fun lead c₃ hlead => ?_
  refine Ends.bind (expect_gives rfl rfl rfl (by decide)) fun close c₄ ⟨h₄, _⟩ => Ends.pure ⟨_, rfl, ?_, ?_⟩
  · have hbracket : Trace false c [.token .bracket (.ofText c.pos (c.rest.take 2))] (-5) (c.read 2).2 :=
      (Trace.token 2 rfl rfl).le (cost_read Nat.two_pos hc)
    have hclose := h₄.trace.lead hlead h₄.plain (by rw [h₄.kind]; rfl)
    exact (hbracket.append (h₂.trace.append hclose)).le (by omega)
  · refine ⟨by simp [h₂.kind, h₄.kind], fun hne => ?_, _, rfl⟩
    obtain ⟨-, -, hnil⟩ | ⟨-, rfl⟩ := hname
    · exact absurd hnil hne
    · rw [tagName?, kind_ofChildren, if_pos rfl, child?_second (by simp) h₂.kind]
      rfl

/-! ## Attributes -/

theorem startsQuote_ne_nil {t : Text} (h : t.startsQuote = true) : t ≠ [] := by
  rintro rfl
  exact absurd h (by decide)

section

variable {code : Parse Node} (hcode : TracesCode code)

include hcode

/-- A part of a value is text or code. -/
theorem valuePart_traces (ends : Text → Bool) : Ends (valuePart code ends) c fun r d =>
    Trace true c r.toList 0 d ∧ ∀ n ∈ r.toList, n.kind.isEmbedded = true := by
  refine Ends.get_bind ?_
  split
  case isTrue => exact Ends.pure ⟨.nil c, by simp⟩
  case isFalse hgo =>
    simp only [Bool.or_eq_true, not_or, Bool.not_eq_true] at hgo
    have hc := rest_ne_nil_of_not_atEnd (Bool.eq_false_iff.1 hgo.1)
    split
    case isTrue hat =>
      exact Ends.bind (hcode c hc hat) fun n d h => Ends.pure ⟨.loosen h.trace, List.forall_mem_singleton.2 h.kind⟩
    case isFalse hat =>
      dsimp only
      generalize hn : c.rest.runLength (fun previous t => ends t || startsTransition c.transition previous t)
        c.previous? = n
      have hfree : c.Free n := hn ▸ free_runLength fun previous t h => by simp [h]
      have hpos : 0 < n := by
        rw [← hn]
        refine Text.runLength_pos hc ?_
        rw [hgo.2, Bool.false_or]
        exact Bool.eq_false_iff.2 hat
      -- a part that is neither code nor the end takes at least one character
      have hne : c.rest.take n ≠ [] := by
        rw [Ne, List.take_eq_nil_iff, not_or]
        exact ⟨hpos.ne', hc⟩
      refine Ends.bind_eq (token_apply .literal n c) (Ends.pure ⟨?_, List.forall_mem_singleton.2 rfl⟩)
      exact (Trace.text n hne hfree).le (by omega)

theorem valueContent_gives (ends : Text → Bool) :
    Ends (valueContent code ends) c (c.Gives (· = .attributeValue) 1) := by
  refine Ends.bind (manyNodes_traces fun _ => valuePart_traces hcode ends) fun ns d h => Ends.pure ?_
  exact ⟨(h.1.value h.2).le (by omega), rfl, rfl⟩

/-- What follows the name of an attribute. -/
abbrev ValueKinds (ns : List Node) : Prop :=
  ∀ n ∈ ns, n.kind = .equals ∨ n.kind = .quote ∨ n.kind = .attributeValue

/-- The quotes pay for the value between them. -/
theorem quotedValue_traces (hc : c.rest ≠ []) :
    Ends (quotedValue code) c fun ns d => Trace false c ns (-3) d ∧ ValueKinds ns := by
  have hall : ∀ {a b e : Node}, a.kind = .quote → b.kind = .attributeValue → e.kind = .quote →
      ValueKinds [a, b, e] := by
    intro a b e ha hb he
    simp [ValueKinds, ha, hb, he]
  refine Ends.get_bind (Ends.bind (token_gives rfl rfl (cost_read Nat.one_pos hc)) fun opening c₁ h₁ => ?_)
  refine Ends.bind (valueContent_gives hcode _) fun content c₂ h₂ => Ends.get_bind ?_
  split
  case isTrue =>
    have hmissing : Trace false c₂ [.missing .quote c₂.pos] 1
        (c₂.report ((Problem.unterminatedAttribute c.current).located (.empty c₂.pos))) :=
      .leaf (.absent (p := .unterminatedAttribute c.current) rfl rfl)
    exact ⟨(h₁.trace.append (h₂.trace.append hmissing)).le (by omega), hall h₁.kind h₂.kind rfl⟩
  case isFalse =>
    refine Ends.bind (token_gives rfl rfl (cost_le_one _ _)) fun closing c₃ h₃ => Ends.pure ?_
    exact ⟨(h₁.trace.append (h₂.trace.append h₃.trace)).le (by omega), hall h₁.kind h₂.kind h₃.kind⟩

theorem attributeValue_traces : Ends (attributeValue code) c fun ns d => Trace false c ns 1 d ∧ ValueKinds ns := by
  refine Ends.get_bind ?_
  split
  case isTrue hquote =>
    exact (quotedValue_traces hcode (startsQuote_ne_nil hquote)).imp fun ns d h => ⟨h.1.le (by omega), h.2⟩
  case isFalse =>
    split
    · refine Ends.bind (absent_gives rfl) fun n d h => Ends.pure ⟨h.trace, ?_⟩
      exact List.forall_mem_singleton.2 (.inr (.inl h.kind))
    · refine Ends.bind (valueContent_gives hcode _) fun n d h => Ends.pure ⟨h.trace, ?_⟩
      exact List.forall_mem_singleton.2 (.inr (.inr h.kind))

/-- The sign and the value of an attribute. They pay for a name that is missing. -/
theorem attributeRest_traces {named : Bool} (hw : w = 0 ∨ w = -3 ∧ named = false ∧
      (c.rest.ahead c.rest.blanksAhead = '=' ∨ c.rest.startsQuote = true)) :
    Ends (attributeRest code named) c fun ns d => Trace false c ns w d ∧ ValueKinds ns := by
  refine Ends.get_bind ?_
  split
  case isTrue hsign =>
    refine Ends.bind (Q := fun l d => blanks c = (l, d)) rfl fun lead c₁ hlead => ?_
    have hc₁ : c₁.rest ≠ [] := by
      rw [rest_of_blanks hlead]
      exact Text.drop_ne_nil_of_ahead (by rw [hsign]; decide)
    refine Ends.bind_eq (token_apply .equals 1 c₁) ?_
    refine Ends.bind (Q := fun l d => blanks (c₁.read 1).2 = (l, d)) rfl fun trail c₂ htrail => ?_
    refine Ends.bind (attributeValue_traces hcode) fun ns d h => Ends.pure ⟨?_, ?_⟩
    · exact ((Trace.leaf (.sign c₁ hlead hc₁ htrail)).append h.1).le (by omega)
    · exact List.forall_mem_cons.2 ⟨.inl (kind_withTrivia _ _), h.2⟩
  case isFalse hsign =>
    split
    case isTrue hquote =>
      -- the quote is the same after the report of the missing sign
      have hvalue : ∀ d : Context, d.rest = c.rest →
          Ends (attributeValue code) d fun ns e => Trace false d ns (-3) e ∧ ValueKinds ns := by
        intro d hd
        refine Ends.get_bind ?_
        rw [hd, if_pos hquote]
        exact quotedValue_traces hcode (hd ▸ startsQuote_ne_nil hquote)
      split
      case isTrue hnamed =>
        refine Ends.bind ((absent_gives rfl).and (absent_moved .equals _)) ?_
        rintro sign c₁ ⟨h₁, hmoved⟩
        refine Ends.bind (hvalue c₁ hmoved.rest_eq) fun ns d h => Ends.pure ⟨?_, ?_⟩
        · have hzero : w = 0 := hw.resolve_right fun h => by rw [hnamed] at h; cases h.2.1
          exact (h₁.trace.append h.1).le (by omega)
        · exact List.forall_mem_cons.2 ⟨.inl h₁.kind, h.2⟩
      case isFalse => exact (hvalue c rfl).imp fun ns d h => ⟨h.1.le (by omega), h.2⟩
    case isFalse hquote =>
      have hzero : w = 0 := hw.resolve_right fun h => h.2.2.elim hsign hquote
      exact Ends.pure ⟨hzero ▸ .nil c, List.forall_mem_nil _⟩

end

/-- No blanks stand before a sign at the cursor. -/
theorem ahead_blanksAhead_of_current (hc : c.rest ≠ []) (h : c.current = '=') :
    c.rest.ahead c.rest.blanksAhead = '=' := by
  obtain ⟨x, rest, hx⟩ := List.exists_cons_of_ne_nil hc
  have hx' : x = '=' := by simpa [current, peekAt, Text.ahead, hx] using h
  subst hx'
  simp [hx, Text.blanksAhead, Text.ahead, Text.isBlank]

/-- An attribute name is not empty where nothing that ends it stands. -/
theorem attributeName_pos (hc : c.rest ≠ []) (hend : c.rest.endsTag = false)
    (hblank : Text.isBlank (c.rest.ahead 0) = false) (hsign : ¬ (c.current = '=' ∨ c.rest.startsQuote = true)) :
    0 < c.rest.runLength (fun _ t => t.endsAttributeName) none := by
  refine Text.runLength_pos hc ?_
  simp only [not_or, Bool.not_eq_true] at hsign
  have h1 : ¬ c.rest.ahead 0 = '=' := hsign.1
  have h2 := hsign.2
  simp only [Text.startsQuote, Bool.or_eq_false_iff] at h2
  simp [Text.endsAttributeName, Text.endsUnquoted, hend, hblank, h1, h2]

/-- No blank stands behind the blanks that have been read. -/
theorem isBlank_ahead_of_blanks {lead : Option Location} (hlead : blanks c = (lead, d)) :
    Text.isBlank (d.rest.ahead 0) = false := by
  cases hrest : d.rest with
  | nil => decide
  | cons x u => exact Text.isBlank_drop_blanksAhead ((rest_of_blanks hlead).symm.trans hrest)

section

variable {code : Parse Node} (hcode : TracesCode code)

include hcode

/-- **An attribute** reads at least one character, for it starts before the end of the tag. -/
theorem attributeNode_traces {lead : Option Location} (hlead : blanks c = (lead, d)) (hd : d.rest ≠ [])
    (hend : d.rest.endsTag = false) : Ends (attributeNode code lead) d fun r e =>
      Trace false c [r.1] 0 e ∧ r.1.kind = .htmlAttribute ∧ r.2.kind = .attributeName ∧
        r.2.withLead lead ∈ r.1.children := by
  have hnode : ∀ {name : Node} {rest : List Node} {v w : ℤ} {c₁ e : Context}, d.Gives (· = .attributeName) v name c₁ →
      Trace false c₁ rest w e → ValueKinds rest → v + w + 1 ≤ 0 →
      Trace false c [.ofChildren .htmlAttribute (name.withLead lead :: rest)] 0 e := by
    intro name rest v w c₁ e hname hrest hkinds hle
    have hfirst := hname.trace.lead hlead hname.plain (by rw [hname.kind]; rfl)
    have hframes : Frames .htmlAttribute (name.withLead lead :: rest) :=
      frames_of_stop?_eq_none rfl rfl ⟨rest.map kind, by simp [hname.kind], List.forall_mem_map.2 hkinds⟩
    exact ((hfirst.append hrest).frame hframes).le hle
  by_cases hsign : d.current = '=' ∨ d.rest.startsQuote = true
  · -- no name: the sign or the quote is there
    have hname : Ends attributeName d fun n e => d.Gives (· = .attributeName) 1 n e ∧ n.isMissing = true ∧
        e.rest = d.rest := by
      refine Ends.get_bind ?_
      rw [if_pos (by simpa using hsign)]
      exact (absent_gives rfl).and ⟨rfl, rfl⟩
    refine Ends.bind hname ?_
    rintro name c₁ ⟨h₁, hmissing, hrest⟩
    have hnext : c₁.rest.ahead c₁.rest.blanksAhead = '=' ∨ c₁.rest.startsQuote = true :=
      hrest ▸ hsign.imp_left (ahead_blanksAhead_of_current hd)
    rw [hmissing]
    refine Ends.bind (attributeRest_traces hcode (.inr ⟨rfl, rfl, hnext⟩)) fun rest c₂ h₂ => Ends.pure ?_
    exact ⟨hnode h₁ h₂.1 h₂.2 (by omega), rfl, h₁.kind, List.mem_cons_self⟩
  · have hpos := attributeName_pos hd hend (isBlank_ahead_of_blanks hlead) hsign
    have hname : Ends attributeName d (d.Gives (· = .attributeName) (-5)) := by
      refine Ends.get_bind ?_
      rw [if_neg (by simpa using hsign)]
      refine name_gives rfl (fun x hx => ?_) (cost_read hpos hd)
      exact Text.isBlank_of_mem_run (fun _ u hu => by simp [Text.endsAttributeName, Text.endsUnquoted, hu]) hx
    refine Ends.bind hname fun name c₁ h₁ => ?_
    refine Ends.bind (attributeRest_traces hcode (.inl rfl)) fun rest c₂ h₂ => Ends.pure ?_
    exact ⟨hnode h₁ h₂.1 h₂.2 (by omega), rfl, h₁.kind, List.mem_cons_self⟩

omit hcode in
/-- A name that was seen before is reported at its attribute. -/
theorem checkName_traces {n name : Node} {lead : Option Location} {seen : List Text} (h : Trace false c [n] 0 d)
    (hn : n.kind = .htmlAttribute) (hname : name.kind = .attributeName) (hmem : name.withLead lead ∈ n.children) :
    Ends (checkName seen name) d fun _ e => Trace false c [n] 0 e := by
  unfold checkName
  split
  case h_1 k v l b =>
    split
    · exact h.repeated hn hmem (by simpa using hname) rfl
    · exact h
  case h_2 => exact h

/-- One attribute, with the blanks before it; the blanks after it are left to what follows. -/
theorem attributePart_traces {s : AttributeState} (hlead : blanks c = (s.lead, d)) :
    Ends (attributePart code s) d fun r e => (r = none → e = d) ∧ ∀ n s', r = some (n, s') →
      ∃ d', Trace false c [n] 0 d' ∧ (n.kind = .htmlAttribute ∨ n.kind.isEmbedded = true) ∧
        blanks d' = (s'.lead, e) := by
  refine Ends.get_bind ?_
  split
  case isTrue => exact Ends.pure ⟨fun _ => rfl, nofun⟩
  case isFalse hgo =>
    simp only [Bool.or_eq_true, not_or, Bool.not_eq_true] at hgo
    have hd := rest_ne_nil_of_not_atEnd (Bool.eq_false_iff.1 hgo.1)
    split
    case isTrue hat =>
      refine Ends.bind (hcode d hd hat) fun n c₁ h₁ => ?_
      refine Ends.bind (Q := fun l e => blanks c₁ = (l, e)) rfl fun lead e hblanks => Ends.pure ⟨nofun, ?_⟩
      rintro _ _ ⟨⟩
      have hnode := h₁.trace.lead hlead h₁.plain (Kind.takesBlanks_of_isEmbedded h₁.kind)
      exact ⟨c₁, hnode, .inr (by simpa using h₁.kind), hblanks⟩
    case isFalse =>
      refine Ends.bind (attributeNode_traces hcode hlead hd hgo.2) ?_
      rintro ⟨n, name⟩ c₁ ⟨h₁, hn, hname, hmem⟩
      refine Ends.bind (checkName_traces h₁ hn hname hmem) fun seen c₂ h₂ => ?_
      refine Ends.bind (Q := fun l e => blanks c₂ = (l, e)) rfl fun lead e hblanks => Ends.pure ⟨nofun, ?_⟩
      rintro _ _ ⟨⟩
      exact ⟨c₂, h₂, .inl hn, hblanks⟩

/-- **Attributes**, up to the blanks before the end of the tag. -/
theorem attributes_traces : Ends (attributes code) c fun r e =>
    ∃ d, Trace false c [r.1] 1 d ∧ r.1.kind = .htmlAttributes ∧ blanks d = (r.2, e) := by
  refine Ends.bind (Q := fun l e => blanks c = (l, e)) rfl fun lead c₁ hlead => ?_
  -- the blanks that were read last belong to the node after them
  have hloop : Ends (many (attributePart code) ⟨[], lead⟩) c₁ fun r e => ∃ d, Trace false c r.1 0 d ∧
      (∀ n ∈ r.1, n.kind = .htmlAttribute ∨ n.kind.isEmbedded = true) ∧ blanks d = (r.2.lead, e) := by
    refine Ends.many (fun ns (s : AttributeState) e => ∃ d, Trace false c ns 0 d ∧
      (∀ n ∈ ns, n.kind = .htmlAttribute ∨ n.kind.isEmbedded = true) ∧ blanks d = (s.lead, e)) ?_ ?_
      ⟨c, .nil c, by simp, hlead⟩
    · rintro ns s e d ⟨d', h, hns, hblanks⟩ hturn
      obtain rfl := ((attributePart_traces hcode hblanks).of_eq hturn).1 rfl
      exact ⟨d', h, hns, hblanks⟩
    · rintro ns s e n s' d ⟨d', h, hns, hblanks⟩ hturn
      obtain ⟨d'', h', hn, hblanks'⟩ := ((attributePart_traces hcode hblanks).of_eq hturn).2 n s' rfl
      exact ⟨d'', by simpa using h.append h', List.forall_mem_append.2 ⟨hns, List.forall_mem_singleton.2 hn⟩,
        hblanks'⟩
  refine Ends.bind hloop ?_
  rintro r e ⟨d, h, hns, hblanks⟩
  have hframes : Frames .htmlAttributes r.1 := frames_of_stop?_eq_none rfl rfl (List.forall_mem_map.2 hns)
  exact Ends.pure ⟨d, (h.frame hframes).le (by omega), rfl, hblanks⟩

end

/-! ## Start tags -/

theorem value?_withLead (n : Node) (lead : Option Location) : (n.withLead lead).value? = n.value? := by
  cases n with
  | leaf k v l t => cases v <;> rfl
  | branch k cs t => rfl

/-- The bracket at the end of a start tag, found or not. -/
structure IsClose (c : Context) (n : Node) (d : Context) : Prop where
  gives : c.Gives (· = .bracket) 1 n d
  found : n.value? = some ['>'] ↔ c.current = '>'
  stops : ∀ lead, (n.withLead lead).fullStop? = some d.pos

theorem token_close (h : c.rest.startsWith ['/', '>'] = true) : Ends (token .bracket 2) c (IsClose c) := by
  obtain ⟨t, ht⟩ := (Text.startsWith_iff (by decide) _).1 h
  have htoken := (token_gives (k := .bracket) rfl rfl (cost_le_one c 2)).of_eq (token_apply _ 2 c)
  rw [Ends, token_apply]
  exact ⟨htoken, by simp [Node.token, value?, current, peekAt, Text.ahead, ← ht], fun _ => rfl⟩

/-- A tag ends with its bracket or is reported to have none. -/
theorem expect_close : Ends (expect .bracket (.bracket ['>'])) c (IsClose c) := by
  have hcurrent : c.rest.startsWith ['>'] = true ↔ c.current = '>' := by
    cases hrest : c.rest <;> simp [Text.startsWith, current, peekAt, Text.ahead, hrest]
  refine Ends.get_bind ?_
  split
  case isTrue h =>
    have htext : c.rest.take 1 = ['>'] := Text.take_of_startsWith (by decide) h
    have htoken := (token_gives (k := .bracket) rfl rfl (cost_le_one c 1)).of_eq (token_apply _ 1 c)
    rw [Ends, token_apply]
    exact ⟨htoken, iff_of_true (congrArg some htext) (hcurrent.1 h), fun _ => rfl⟩
  case isFalse h =>
    exact ⟨absent_gives rfl, iff_of_false (Option.some_ne_none _).symm fun hc => h (hcurrent.2 hc), fun _ => rfl⟩

/-- **A start tag shows in the tree what the parser makes of it**, and stops at the cursor. -/
theorem opening_traces {code : Parse Node} (hcode : TracesCode code) : Ends (opening code) c fun o d =>
    Trace false c [o.tag] (5 - 6 * (c.rest.take 1).length) d ∧ Shows o d := by
  refine Ends.bind_eq (token_apply .bracket 1 c) (Ends.bind tagName_gives ?_)
  rintro name c₂ ⟨h₂, hname⟩
  refine Ends.bind (attributes_traces hcode) ?_
  rintro ⟨attrs, lead⟩ c₃ ⟨d, h₃, hattrs, hlead⟩
  -- a tag closes in one of three ways: with a slash, without one, or not at all
  suffices htag : ∀ close c₄, IsClose c₃ close c₄ →
      Trace false c [.ofChildren .htmlStartTag [.token .bracket (.ofText c.pos (c.rest.take 1)), name, attrs,
        close.withLead lead]] (5 - 6 * (c.rest.take 1).length) c₄ ∧
      Shows ⟨.ofChildren .htmlStartTag [.token .bracket (.ofText c.pos (c.rest.take 1)), name, attrs,
        close.withLead lead], name.value?, name.location?, c₃.current = '>'⟩ c₄ by
    refine Ends.get_bind ?_
    split
    case isTrue h => exact Ends.bind (token_close h) htag
    case isFalse => exact Ends.bind expect_close htag
  intro close c₄ h₄
  have hbracket : Trace false c [.token .bracket (.ofText c.pos (c.rest.take 1))]
      (1 - 6 * (c.rest.take 1).length) (c.read 1).2 := .token 1 rfl rfl
  have hlast := h₄.gives.trace.lead hlead h₄.gives.plain (by rw [h₄.gives.kind]; rfl)
  have hframes : Frames .htmlStartTag
      [.token .bracket (.ofText c.pos (c.rest.take 1)), name, attrs, close.withLead lead] :=
    frames_of_stop?_eq_none rfl rfl (by simp [Kind.Holds, h₂.kind, hattrs, h₄.gives.kind])
  refine ⟨((hbracket.append (h₂.trace.append (h₃.append hlast))).frame hframes).le (by omega), ?_⟩
  -- a tag with a name has it from the text
  have hvalue : ∀ v, name.value? = some v → (∃ l, name.location? = some l ∧ l.text = v) ∧ v ≠ [] ∧
      ∀ x ∈ v, Html.isNameChar x = true := by
    intro v hv
    obtain ⟨-, hnone, -⟩ | ⟨hne, rfl⟩ := hname
    · rw [hnone] at hv; cases hv
    · cases hv
      exact ⟨⟨_, rfl, rfl⟩, hne, List.all_eq_true.1 List.all_takeWhile⟩
  constructor
  case kind => rfl
  case name =>
    rw [child?_second (by simp) h₂.kind]
    rfl
  case closed => simpa [ofChildren, children, value?_withLead] using h₄.found
  case nonempty => exact fun v hv => (hvalue v hv).2.1
  case nameChars => exact fun v hv => (hvalue v hv).2.2
  case unnamed =>
    intro hnone
    obtain ⟨hmissing, -, -⟩ | ⟨-, rfl⟩ := hname
    · exact ⟨name, by simp [ofChildren, children], hmissing⟩
    · cases hnone
  case placed => exact fun v hv => (hvalue v hv).1
  case place => exact fun l hl => ⟨name, by simp [ofChildren, children], h₂.kind, hl⟩
  case stops =>
    have hend := h₄.stops lead
    simp [ofChildren, fullStop?, lastStop?, hend]

/-- The bracket of a start tag pays for the tag and for the element. -/
theorem opening_pays {code : Parse Node} (hcode : TracesCode code) (hc : c.rest ≠ []) :
    Ends (opening code) c fun o d => Trace false c [o.tag] (-1) d ∧ Shows o d :=
  (opening_traces hcode).imp fun _ _ h => ⟨h.1.le (by have := cost_read Nat.one_pos hc; omega), h.2⟩

end Parse

end Stencil
