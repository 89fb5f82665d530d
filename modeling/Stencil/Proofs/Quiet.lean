import Stencil.Proofs.Chunks
import Stencil.Proofs.Recovery
import Stencil.Proofs.RoundTrip
import Stencil.Proofs.WellFormed

/-!
# Parsing without errors

A context is quiet if no error was reported so far, and no nesting past the limit. Reports
are never taken back, so where a run ends quiet, it was quiet all the way: none of its
steps recovered from an error. While a context is quiet, no element was flattened.

* `Context.not_quiet_report`: after an error nothing is quiet any more.
* `Trace.sound`: **what is read along a trace that ends quiet is sound.**
* `parse_wellFormed`: a template without errors is a well-formed tree.
-/

namespace Stencil

namespace Context

/-- Nothing that was reported so far is an error or says that nesting is too deep. -/
def Quiet (c : Context) : Prop :=
  ∀ x ∈ c.diagnostics, x.isError = false ∧ x.code ≠ .nestingTooDeep

/-- Nothing was read flat so far. -/
structure Unflattened (c : Context) : Prop where
  flattened : c.flattened = []
  depthReported : c.depthReported = false

variable {c d : Context}

/-- What was reported earlier is among what was reported in the end. -/
theorem Quiet.of_isPrefix (h : d.Quiet) (hcd : c.diagnostics <+: d.diagnostics) : c.Quiet :=
  fun x hx => h x (hcd.subset hx)

/-- After an error nothing is quiet any more. -/
theorem not_quiet_report {p : Problem} (hp : p.severity = .error) (l : Location) :
    ¬ (c.report (p.located l)).Quiet := by
  intro hq
  have herror := (hq (p.located l) (List.mem_append_right _ (List.mem_singleton_self _))).1
  simp [Problem.located, Diagnostic.isError, hp] at herror

/-- Past the limit it is reported, if it was not before. -/
theorem not_quiet_reportTooDeep (hc : c.Unflattened) : ¬ c.reportTooDeep.Quiet := by
  intro hq
  rw [reportTooDeep, if_neg (by simp [hc.depthReported])] at hq
  exact (hq _ (List.mem_append_right _ (List.mem_singleton_self _))).2 rfl

/-- Reports are added at the end. -/
theorem prefix_reportIf (c : Context) (b : Prop) [Decidable b] (p : Problem) (l : Location) :
    c.diagnostics <+: (c.reportIf b p l).diagnostics := by
  unfold reportIf
  split
  · exact List.prefix_append _ _
  · exact List.prefix_rfl

theorem diagnostics_entered (c : Context) (name : Text) : (c.entered name).diagnostics = c.diagnostics := by
  unfold entered
  split <;> rfl

theorem diagnostics_left (c : Context) (name : Text) : (c.left name).diagnostics = c.diagnostics := by
  unfold left
  split <;> rfl

namespace Unflattened

variable (h : c.Unflattened)

include h

theorem read (n : ℕ) : (c.read n).2.Unflattened := ⟨h.flattened, h.depthReported⟩

/-- Reports flatten nothing. -/
theorem report (x : Diagnostic) : (c.report x).Unflattened := ⟨h.flattened, h.depthReported⟩

theorem reportIf (b : Prop) [Decidable b] (p : Problem) (l : Location) : (c.reportIf b p l).Unflattened := by
  unfold Context.reportIf
  split
  · exact h.report _
  · exact h

theorem entered (name : Text) : (c.entered name).Unflattened := by
  unfold Context.entered
  split
  · exact h
  · exact ⟨h.flattened, h.depthReported⟩

theorem left (name : Text) : (c.left name).Unflattened := by
  unfold Context.left
  split
  · exact h
  · exact ⟨h.flattened, h.depthReported⟩

theorem blanks {l : Option Location} (hd : Parse.blanks c = (l, d)) : d.Unflattened := by
  obtain ⟨-, -, rfl⟩ | ⟨-, -, rfl⟩ := Parse.blanks_cases hd
  · exact h
  · exact h.read _

/-- There is nothing to close. -/
theorem closeFlattened (base : ℕ) : (Parse.closeFlattened base c).2.Unflattened := by
  have hnone : c.flattenedFrom base = [] := by simp [flattenedFrom, h.flattened]
  have hclosed : (Parse.closeFlattened base c).2 = c.truncateFlattened base := by
    show (((c.flattenedFrom base).forM fun f => Parse.reportMissingEnd f.name f.location : Parse Unit)
      (c.truncateFlattened base)).2 = _
    rw [hnone]
    rfl
  rw [hclosed]
  exact ⟨by simp [truncateFlattened, h.flattened], h.depthReported⟩

/-- A step without a node that stays quiet has not met the limit. -/
theorem silent (hd : c.SilentStep d) (hq : d.Quiet) : d.Unflattened := by
  cases hd with
  | tooDeep => exact absurd hq (not_quiet_reportTooDeep h)
  | skip n => exact h.read n
  | close base => exact h.closeFlattened base
  | cutOff => exact h.report _

end Unflattened

end Context

namespace Node

/-- The node is sound, and if it is an end tag, then of a void element. -/
def Fine (n : Node) : Prop :=
  n.Sound ∧ n.Stray

variable {k : Kind} {n : Node} {ns : List Node}

/-- Only end tags can be stray. -/
theorem Sound.fine (h : n.Sound) (hk : n.kind ≠ .htmlEndTag) : n.Fine :=
  ⟨h, fun hend => absurd hend hk⟩

/-- What is sound has sound children. -/
theorem Sound.child {m : Node} (h : n.Sound) (hm : m ∈ n.children) : m.Sound := by
  intro x hx
  cases n with
  | leaf => cases hm
  | branch k cs u => exact h x (List.mem_cons_of_mem _ (mem_descendantsAll.2 ⟨m, hm, hx⟩))

/-- A sound node is there. -/
theorem Sound.not_missing (h : n.Sound) : n.isMissing = false := by
  have hn := h n (by rw [descendants_eq_cons]; exact List.mem_cons_self)
  cases n with
  | leaf k v l u =>
    cases v with
    | missing => exact absurd rfl hn.1
    | token => rfl
    | marker => rfl
  | branch => rfl

end Node

namespace Context

open Node

/-- **Leaves that are read quietly are fine.** -/
theorem LeafStep.fine {c d : Context} {n : Node} {w : ℤ} (h : c.LeafStep n w d) (hc : c.Unflattened) (hq : d.Quiet) :
    d.Unflattened ∧ n.Fine := by
  cases h with
  | @token k m hk =>
    have hkind : k ≠ .doctype ∧ k ≠ .htmlEndTag := by
      revert hk
      cases k <;> decide
    exact ⟨hc.read m, (sound_token hkind.1 _).fine hkind.2⟩
  | absent hp => exact absurd hq (not_quiet_report (Problem.severity_of_missing hp) _)
  | sign c₁ hlead _ htrail =>
    exact ⟨((hc.blanks hlead).read 1).blanks htrail, ((sound_token (by decide) _).withTrivia _).fine nofun⟩
  | marker => exact ⟨hc.read 1, (sound_leaf (by simp) (by decide)).fine nofun⟩
  | escaped => exact ⟨hc.read 2, (sound_leaf (by simp) (by decide)).fine nofun⟩
  | invalid => exact ⟨(hc.read 1).report _, (sound_token (by decide) _).fine nofun⟩
  | declaration m known =>
    refine ⟨((hc.read _).reportIf _ _ _).reportIf _ _ _, Sound.fine ?_ nofun⟩
    by_cases hlast : (c.rest.take (m + 1)).getLast? = some '>'
    · exact List.forall_mem_singleton.2 ⟨by simp, fun _ => ⟨rfl, hlast⟩⟩
    · -- without its bracket a declaration is an error
      refine absurd (hq.of_isPrefix (prefix_reportIf _ _ _ _)) ?_
      rw [reportIf, Location.text_ofText, if_pos hlast]
      exact not_quiet_report rfl _
  | literal c₁ m hlead =>
    exact ⟨(hc.blanks hlead).read m, ((sound_token (by decide) _).withTrivia _).fine nofun⟩
  | blank hblank => exact ⟨hc.blanks hblank, (sound_token (by decide) _).fine nofun⟩

end Context

/-! ## Elements -/

namespace Parse

open Node

variable {o : Opening} {d : Context} {name : Text} {ns : List Node} {last : Node}

/-- A start tag that is sound has a name. -/
theorem Shows.exists_name (h : Shows o d) (htag : o.tag.Sound) : ∃ name, o.name = some name := by
  cases hname : o.name with
  | some name => exact ⟨name, rfl⟩
  | none =>
    obtain ⟨n, hn, hmissing⟩ := h.unnamed hname
    rw [(htag.child hn).not_missing] at hmissing
    cases hmissing

/-- Content follows a start tag that is closed by `>`, unless the element is void. -/
theorem Shows.contentName?_eq (h : Shows o d) (hname : o.name = some name) :
    o.contentName? = if o.tag.closesOpen = true ∧ Html.isVoid name = false then some name else none := by
  have hclosed : o.closed = o.tag.closesOpen := by
    rw [Bool.eq_iff_iff, ← h.closed, closesOpen, beq_iff_eq]
  rw [Opening.contentName?, hname, hclosed, Option.filter_some]
  simp

/-- An element is fine if its content is there exactly if it takes some, and ends with its end tag. -/
theorem Shows.fine_element (h : Shows o d) (htag : o.tag.Sound) (hns : ∀ n ∈ ns, n.Sound)
    (hrest : ∀ name, o.name = some name → if o.tag.closesOpen = true ∧ Html.isVoid name = false then
      ∃ body last, ns = body ++ [last] ∧ last.IsEndOf name ∧ ∀ n ∈ body, n.Stray else ns = []) :
    (ofChildren o.kind (o.tag :: ns)).Fine := by
  obtain ⟨name, hname⟩ := h.exists_name htag
  have hk := o.isElement_kind
  have hother : o.kind ≠ .document ∧ o.kind.stop? = none ∧ o.kind ≠ .htmlEndTag := by
    revert hk
    cases o.kind <;> simp [Kind.isElement, Kind.stop?]
  refine Sound.fine (sound_branch ⟨fun h => absurd h hother.1, fun _ => ⟨o.tag, ns, name, rfl, h.kind, ?_,
    hrest name hname⟩, fun j t hstop => ?_⟩ (List.forall_mem_cons.2 ⟨htag, hns⟩)) hother.2.2
  · rw [h.name, hname]
  · rw [hother.2.1] at hstop
    cases hstop

/-- An element without content is fine if its tag is sound. -/
theorem Shows.fine_empty (h : Shows o d) (hnone : o.contentName? = none) (htag : o.tag.Sound) :
    (ofChildren o.kind [o.tag]).Fine := by
  refine h.fine_element htag nofun fun name hname => ?_
  rw [h.contentName?_eq hname] at hnone
  split
  case isTrue hcontent =>
    rw [if_pos hcontent] at hnone
    cases hnone
  case isFalse => rfl

/-- **An element that is ended is fine** if its tags and what is in it are. -/
theorem Shows.fine_ended (h : Shows o d) (hsome : o.contentName? = some name) (htag : o.tag.Sound)
    (hns : ∀ n ∈ ns, n.Fine) (hlast : last.Sound) (hend : last.IsEndOf name) :
    (ofChildren o.kind (o.tag :: (ns ++ [last]))).Fine := by
  have hsound := List.forall_mem_append.2 ⟨fun n hn => (hns n hn).1, List.forall_mem_singleton.2 hlast⟩
  refine h.fine_element htag hsound fun other hother => ?_
  rw [h.contentName?_eq hother] at hsome
  split
  case isTrue hcontent =>
    rw [if_pos hcontent] at hsome
    obtain rfl := Option.some.inj hsome
    exact ⟨ns, last, rfl, hend, fun n hn => (hns n hn).2⟩
  case isFalse hcontent =>
    rw [if_neg hcontent] at hsome
    cases hsome

end Parse

open Context Node Parse in
/-- **What is read along a trace that ends quiet is sound**, and only the end tags of void elements
stand for themselves. -/
theorem Trace.sound {b : Bool} {c d : Context} {ns : List Node} {w : ℤ} (h : Trace b c ns w d)
    (hc : c.Unflattened) (hq : d.Quiet) : d.Unflattened ∧ ∀ n ∈ ns, n.Fine := by
  induction h with
  | nil => exact ⟨hc, nofun⟩
  | append _ hms ih ih' =>
    obtain ⟨hd, hns⟩ := ih hc (hq.of_isPrefix hms.diagnostics_grow)
    obtain ⟨he, hms⟩ := ih' hd hq
    exact ⟨he, List.forall_mem_append.2 ⟨hns, hms⟩⟩
  | le _ _ ih => exact ih hc hq
  | loosen _ ih => exact ih hc hq
  | text m => exact ⟨hc.read m, List.forall_mem_singleton.2 ((sound_token (by decide) _).fine nofun)⟩
  | silent h => exact ⟨hc.silent h hq, nofun⟩
  | leaf h =>
    obtain ⟨hd, hn⟩ := h.fine hc hq
    exact ⟨hd, List.forall_mem_singleton.2 hn⟩
  | lead hlead _ _ hkind ih =>
    obtain ⟨hd, hn⟩ := ih (hc.blanks hlead) hq
    refine ⟨hd, List.forall_mem_singleton.2 (((List.forall_mem_singleton.1 hn).1.withTrivia _).fine ?_)⟩
    rw [kind_withTrivia]
    rintro hend
    rw [hend] at hkind
    cases hkind
  | @frame _ _ k ns _ _ hframe ih =>
    obtain ⟨hd, hns⟩ := ih hc hq
    have hkind : k.isElement = false ∧ k ≠ .htmlEndTag := by
      have := hframe.frame
      revert this
      cases k <;> decide
    refine ⟨hd, List.forall_mem_singleton.2 (Sound.fine (sound_branch ⟨fun _ n hn => (hns n hn).2, ?_, ?_⟩ fun n hn =>
      (hns n hn).1) hkind.2)⟩
    · rw [hkind.1]
      exact nofun
    · intro j t hstop
      obtain ⟨n, hlast, hmissing | ⟨l, rfl, hl⟩⟩ := hframe.stop j t hstop
      · rw [(hns n (List.mem_of_getLast? hlast)).1.not_missing] at hmissing
        cases hmissing
      · exact ⟨l, hlast, hl⟩
  | value _ _ ih =>
    obtain ⟨hd, hns⟩ := ih hc hq
    exact ⟨hd, List.forall_mem_singleton.2 ((sound_group (by decide) rfl rfl fun n hn => (hns n hn).1).fine nofun)⟩
  | repeated _ _ _ _ _ ih =>
    obtain ⟨hd, hns⟩ := ih hc (hq.of_isPrefix (List.prefix_append _ _))
    exact ⟨hd.report _, hns⟩
  | @region _ d _ R _ _ _ _ hR _ _ _ _ hstop ih =>
    cases hstop with
    | missing =>
      refine absurd hq (not_quiet_report ?_ _)
      rcases hR with rfl | rfl <;> rfl
    | token =>
      obtain ⟨hd, hns⟩ := ih hc hq
      have hkind : R.kind.stop? = some (R.stopKind, R.stop) ∧ R.kind ≠ .htmlEndTag := by
        rcases hR with rfl | rfl <;> exact ⟨rfl, by decide⟩
      refine ⟨hd.read _, List.forall_mem_singleton.2 (Sound.fine ?_ hkind.2)⟩
      exact sound_delimited hkind.1 rfl fun n hn => (hns n hn).1
  | @orphan c d cs p _ _ _ horphan ih =>
    obtain ⟨hd, hns⟩ := ih hc (hq.of_isPrefix (List.prefix_append _ _))
    have hsound : (Node.ofChildren .htmlEndTag cs).Sound :=
      sound_group (by decide) rfl rfl fun n hn => (hns n hn).1
    refine ⟨hd.report _, List.forall_mem_singleton.2 ⟨hsound, fun _ => ?_⟩⟩
    cases horphan with
    | void hname hvoid => exact ⟨_, hname, hvoid⟩
    | mismatched => exact absurd hq (not_quiet_report rfl _)
    | unexpected => exact absurd hq (not_quiet_report rfl _)
  | flattenedEnd _ hfind =>
    -- no element was flattened that could end here
    simp [findFlattened?, hc.flattened] at hfind
  | empty _ hshows hnone ih =>
    obtain ⟨hd, hns⟩ := ih hc hq
    exact ⟨hd, List.forall_mem_singleton.2 (hshows.fine_empty hnone (List.forall_mem_singleton.1 hns).1)⟩
  | @ended _ d e g o name ns cs _ _ _ htag hshows hsome hns _ hsame hcs hend iho ih ihend =>
    rw [Quiet, diagnostics_left] at hq
    have hqe : e.Quiet := Quiet.of_isPrefix hq hcs.diagnostics_grow
    have hqd : d.Quiet := by
      have := hqe.of_isPrefix hns.diagnostics_grow
      rwa [Quiet, diagnostics_entered] at this
    obtain ⟨hd, hnstag⟩ := iho hc hqd
    obtain ⟨he, hfine⟩ := ih (hd.entered name) hqe
    obtain ⟨hg, hfineEnd⟩ := ihend he hq
    have hsound : (Node.ofChildren .htmlEndTag cs).Sound :=
      sound_group (by decide) rfl rfl fun n hn => (hfineEnd n hn).1
    refine ⟨hg.left name, List.forall_mem_singleton.2 ?_⟩
    have hname := hshows.nonempty name (Option.filter_eq_some_iff.1 hsome).1
    exact hshows.fine_ended hsome (List.forall_mem_singleton.1 hnstag).1 hfine hsound (hend.isEndOf hname hsame)
  | unended _ _ _ _ _ hreport =>
    rw [Quiet, diagnostics_left] at hq
    refine absurd hq (not_quiet_report ?_ _)
    cases hreport <;> rfl
  | flattened htag =>
    refine absurd ?_ (not_quiet_reportTooDeep hc)
    exact Quiet.of_isPrefix hq htag.diagnostics_grow

/-- A document that was read without errors is sound. -/
theorem document_sound (options : ParseOptions) (t : Text) (h : (Template.document options t).2.Quiet) :
    (Template.document options t).1.Sound :=
  (((Template.document_traced options t).sound ⟨rfl, rfl⟩ h).2 _ (List.mem_singleton_self _)).1

/-- **A template without errors is a well-formed tree.** If no error was reported, and no
nesting past the limit, then each node of the tree is well-formed, and no end tag stands
at its top. -/
theorem parse_wellFormed (options : ParseOptions) (t : Text)
    (h : options.language ∈ Registry.standard.languages) :
    ∃ r, Template.parse options t = .ok r ∧
      (r.hasErrors = false → (∀ x ∈ r.diagnostics, x.code ≠ .nestingTooDeep) →
        (∀ n ∈ r.nodes, n.kind ≠ .htmlEndTag) ∧ ∀ n ∈ Node.descendantsAll r.nodes, n.WellFormed) := by
  refine ⟨_, parse_eq_document t h, fun herrors hdeep => ?_⟩
  have hquiet : (Template.document options t).2.Quiet := fun x hx =>
    ⟨by simpa using List.any_eq_false.1 herrors x hx, hdeep x hx⟩
  have hsound : ∀ n ∈ [(Template.document options t).1,
      Node.marker .endOfFile (.empty (Template.document options t).2.pos)], n.Sound := by
    simpa using ⟨document_sound options t hquiet, Node.sound_leaf (by simp) (by decide)⟩
  constructor
  · refine List.forall_mem_cons.2 ⟨?_, List.forall_mem_singleton.2 (by simp [Node.marker, Node.kind])⟩
    rw [kind_document]; decide
  · intro n hn
    obtain ⟨top, htop, hmem⟩ := Node.mem_descendantsAll.1 hn
    exact (hsound top htop n hmem).wellFormed
      (Node.shaped_of_mem_descendantsAll _ (shaped_template options t) n hn)

theorem parse_wellFormed_paragraph :
    ({ maxNestingDepth := 1 } : ParseOptions).language ∈ Registry.standard.languages ∧
      ∃ r, Template.parse { maxNestingDepth := 1 } ['<', 'p', '>', '@', 'x', '<', '/', 'p', '>'] = .ok r ∧
        r.diagnostics = [] ∧ ∀ n ∈ Node.descendantsAll r.nodes, n.WellFormed := by
  let d : Markup.Document :=
    ⟨[.element
        ⟨⟨['p'], by decide, List.forall_mem_singleton.2 (by decide), by decide⟩, by decide, by decide⟩
        ⟨[], by decide⟩ [.expression ⟨⟨'x', [], by decide, List.forall_mem_nil _⟩, []⟩]], by decide⟩
  have hprint : d.print = ['<', 'p', '>', '@', 'x', '<', '/', 'p', '>'] := by decide
  obtain ⟨r, hr, hwell⟩ := parse_wellFormed { maxNestingDepth := 1 } d.print (by decide)
  have hnone : r.diagnostics = [] := by
    rw [parse_eq_document d.print (by decide)] at hr
    rw [← Except.ok.inj hr]
    exact (document_print d rfl (by decide)).2.2
  rw [← hprint]
  refine ⟨by decide, r, hr, hnone, (hwell ?_ ?_).2⟩
  · rw [Template.hasErrors, hnone]; rfl
  · simp [hnone]

end Stencil
