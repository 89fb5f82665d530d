import Stencil.Proofs.Accounts
import Stencil.Proofs.Chunks
import Stencil.Proofs.Flattening
import Stencil.Proofs.Limit
import Stencil.Proofs.Ways

/-!
# Elements without end tags of their own

The content of an element ends before an end tag of the element or of one that is open around it,
and whoever reads on takes that end tag. Where elements contain each other directly this is the
element that it belongs to. A block of code in between goes on after the inner element and reads the
end tag as code.

The parsers are followed with the names of the open elements given (`Context.Upon`). A node of
content may hang: its last element has ended before an end tag of one of these names, and what
follows must say why (`Node.Hangs`). Elements and bodies see to that for the nodes in them. The runs
are those that do not meet the nesting limit, with `Level.stub` as their ground.

* `Parse.elementContent_ends`: in the content of an element only that is left to hang which hangs
  after the element as well.
* `Parse.codeBody_maySpill`: after an element that hangs, a body has code that reads its end tag.
* `Level.resolves_stacked`: **every element has a reason to end.**
* `parse_ends_elements`: the same for templates.
-/

namespace Stencil

open Passage

/-! ## Reading with elements open -/

/-- In the middle of a text, with elements open and none of them flattened. -/
structure Context.Upon (tr : Char) (t : Text) (S : List Text) (c : Context) : Prop where
  transition : c.transition = tr
  read : ∃ s, t = s ++ c.rest ∧ c.pos = ({} : Position).after s
  openElements : c.openElements = S
  flattened : c.flattened = []

/-- An end tag of one of the names is at the cursor. -/
def Context.AtEndOf (S : List Text) (c : Context) : Prop :=
  ∃ other, c.rest.endTagName? = some other ∧ other.lower ∈ S

namespace Context

variable {tr : Char} {t : Text} {S : List Text} {c d : Context}

theorem Upon.moved {u : Text} (h : c.Upon tr t S) (hmoved : c.Moved u d) (hopen : d.openElements = c.openElements)
    (hflat : d.flattened = c.flattened) : d.Upon tr t S := by
  obtain ⟨s, hs, hpos⟩ := h.read
  refine ⟨hmoved.transition.trans h.transition, ⟨s ++ u, ?_, ?_⟩, hopen.trans h.openElements, hflat.trans h.flattened⟩
  · rw [List.append_assoc, ← hmoved.rest]; exact hs
  · rw [hmoved.pos, hpos, ← Position.after_append]

theorem Upon.drop_offset (h : c.Upon tr t S) : t.drop c.pos.offset = c.rest := by
  obtain ⟨s, hs, hpos⟩ := h.read
  rw [hpos, Position.offset_after, hs]
  simp

theorem Upon.pos_of_rest (h : c.Upon tr t S) (hrest : c.rest = []) : c.pos = t.positionAt t.length := by
  obtain ⟨s, hs, hpos⟩ := h.read
  rw [hrest, List.append_nil] at hs
  have hend := Text.after_eq_positionAt t []
  rw [List.append_nil] at hend
  rw [hpos, ← hs, hend]

theorem steady_upon (tr : Char) (t : Text) (S : List Text) : Steady (Upon tr t S) where
  read h n := h.moved (moved_read _ n) rfl rfl
  report h x := h.moved (moved_report _ x) rfl rfl
  tooDeep {c} h := by
    refine h.moved (moved_reportTooDeep c) ?_ ?_
    · unfold reportTooDeep; split <;> rfl
    · unfold reportTooDeep; split <;> rfl

theorem Upon.push (h : c.Upon tr t S) (name : Text) : (c.pushElement name).Upon tr t (name.lower :: S) :=
  ⟨h.transition, h.read, congrArg (name.lower :: ·) h.openElements, h.flattened⟩

theorem Upon.pop {name : Text} (h : c.Upon tr t (name :: S)) : c.popElement.Upon tr t S :=
  ⟨h.transition, h.read, by rw [popElement, h.openElements]; rfl, h.flattened⟩

theorem Upon.truncate (h : c.Upon tr t S) (k : ℕ) : (c.truncateFlattened k).Upon tr t S :=
  ⟨h.transition, h.read, h.openElements, by simp [truncateFlattened, h.flattened]⟩

theorem AtEndOf.rest_eq (h : c.AtEndOf S) : ∃ u, c.rest = '<' :: '/' :: u := by
  obtain ⟨other, hother, -⟩ := h
  exact Text.endTagName?_eq_cons hother

end Context

namespace Node

variable {t : Text} {S : List Text} {d : Context}

/-- All elements in the node have ended for a reason that can be seen in it, or at its end, before an
end tag of one of the names in `S`. -/
def Hangs (t : Text) (S : List Text) (n : Node) (d : Context) : Prop :=
  ∀ fs e name, n.Way fs e → e.Unended name → Ended t S fs e ∨ Shut fs ∧ d.AtEndOf S

theorem Resolved.hangs {n : Node} (h : n.Resolved t S) (d : Context) : n.Hangs t S d :=
  fun fs e name hway he => .inl (h fs e name hway he)

/-- With no element open, nothing hangs. -/
theorem Hangs.resolved {n : Node} (h : n.Hangs t [] d) : n.Resolved t [] := by
  intro fs e name hway he
  obtain hended | ⟨-, other, -, hmem⟩ := h fs e name hway he
  · exact hended
  · cases hmem

end Node

namespace Parse

open Node Context

variable {tr : Char} {t : Text} {S : List Text} {c : Context}

theorem weave_enclosed (tr : Char) (t : Text) (S : List Text) :
    Weave (Upon tr t S) fun n _ => n.Enclosed t S where
  toSteady := steady_upon tr t S
  closed h := h.enclosed
  lead h l := h.withLead l
  group {k ns ns'} hk h := by
    have hns : ∀ n ∈ ns, n.Enclosed t S := forall_left h
    refine enclosed_branch ?_ fun n hn => (hns n hn).resolved
    revert hk; cases k <;> simp [Kind.isGroup, Kind.isElement]

/-- What the parser gives holds no element that hangs. -/
def Encloses (tr : Char) (t : Text) (p : Parse Node) : Prop :=
  ∀ S, Mirrors (Upon tr t S) (fun n _ => n.Enclosed t S) p p

/-- An element that the parser gives may hang. -/
def MayHang (tr : Char) (t : Text) (p : Parse Node) : Prop :=
  ∀ S c, c.Upon tr t S → Ends p c fun n d => d.Upon tr t S ∧ n.Hangs t S d

/-- In a body, an element that has not ended is followed by its end tag, read as code. -/
def MaySpill (tr : Char) (t : Text) (p : Parse (List Node)) : Prop :=
  ∀ S c, c.Upon tr t S → Ends p c fun ns d => d.Upon tr t S ∧ EndedOr t S (Spills t S) ns

/-- One node of content is enclosed, unless it is an element that hangs. -/
theorem content_mayHang {code element : Parse Node} (hcode : Encloses tr t code) (helement : MayHang tr t element) :
    MayHang tr t (content code element) := by
  intro S c hc
  have hclosed : ∀ (n _ : Node) d, Upon tr t S d → n.Enclosed t S → d.Upon tr t S ∧ n.Hangs t S d :=
    fun n _ d hd hn => ⟨hd, hn.resolved.hangs d⟩
  have hcode : Mirror code code c fun n _ d => d.Upon tr t S ∧ n.Hangs t S d :=
    ⟨rfl, hclosed _ (code c).1 _ (hcode S c hc).2.1 (hcode S c hc).2.2⟩
  exact (content_mirror (weave_enclosed tr t S).toCarries hc hclosed (fun _ => hcode) ⟨rfl, helement S c hc⟩).2

end Parse

/-- The parsers of a level leave no element without a reason to end. -/
structure Level.Resolves (tr : Char) (t : Text) (l : Level) : Prop where
  traced : l.Traced
  code : Parse.Encloses tr t l.code
  element : Parse.MayHang tr t l.element
  body : Parse.MaySpill tr t l.body

namespace Parse

open Node Context

variable {tr : Char} {t : Text} {S : List Text} {c : Context}

/-! ## Elements -/

/-- An end tag at the cursor is read as one of its name. -/
theorem endTag_endTagOf {name other : Text} (h : c.rest.endTagName? = some other)
    (hsame : other.sameLetters name = true) (hname : name ≠ []) : Ends endTag c fun n _ => n.EndTagOf name := by
  obtain ⟨u, hu⟩ := Text.endTagName?_eq_cons h
  refine (endTag_traces (by simp [hu])).imp ?_
  rintro _ d ⟨cs, rfl, -, htag⟩
  rw [← Text.endTagName?_eq_some h] at hsame
  obtain ⟨ns, rfl⟩ := htag.bracket
  refine ⟨htag.isEndOf hname hsame, .ofText c.pos (c.rest.take 2), {}, ns, ?_⟩
  rw [ofChildren, children, Node.token, Location.text_ofText, hu]
  rfl

/-- An element takes an end tag if content follows its start tag. -/
theorem Shows.takesEnd_iff {o : Opening} {d : Context} (h : Shows o d) {k : Kind} (hk : k.isElement = true)
    {ns : List Node} {name : Text} : (ofChildren k (o.tag :: ns)).TakesEnd name ↔ o.contentName? = some name := by
  have hclosed : o.tag.closesOpen = true ↔ o.closed = true := by
    rw [closesOpen, beq_iff_eq]; exact h.closed
  rw [Opening.contentName?, Option.filter_eq_some_iff, Bool.and_eq_true, Bool.not_eq_true', ← hclosed]
  constructor
  · intro htakes
    have hname : o.name = some name := by
      have htag := htakes.tagName
      rwa [ofChildren, tagName?_branch hk h.kind, h.name] at htag
    exact ⟨hname, ((takesEnd_branch hk h.kind (h.name.trans hname)).1 htakes).2⟩
  · rintro ⟨hname, hcontent⟩
    exact (takesEnd_branch hk h.kind (h.name.trans hname)).2 ⟨rfl, hcontent⟩

/-- What an element of the name that has not ended has after it in the element: its end tag; or
nothing, and an end tag that ends both. -/
def EndsIn (S : List Text) (name : Text) (d : Context) (after : List Node) : Prop :=
  (∃ tag, after = [tag] ∧ tag.EndTagOf name) ∨ after = [] ∧ d.AtEndOf S

/-- An element with content hangs if it has not reached the end of the text. -/
theorem hangs_element {k : Kind} {tag : Node} {ns : List Node} {name : Text} {d : Context}
    (hk : k.isElement = true) (htag : tag.kind = .htmlStartTag)
    (hname : (tag.child? .htmlTagName).bind value? = some name) (hresolved : tag.Resolved t S)
    (hns : EndedOr t (name.lower :: S) (EndsIn S name d) ns)
    (hself : ∀ other, (ofChildren k (tag :: ns)).Unended other →
      (ofChildren k (tag :: ns)).ReachesEnd t ∨ d.AtEndOf S) :
    (ofChildren k (tag :: ns)).Hangs t S d := by
  intro fs e other hway he
  obtain ⟨rfl, rfl⟩ | ⟨before, m, after, gs, hcs, rfl, hm⟩ := way_branch hway
  · exact (hself other he).imp .inl fun h => ⟨by simp [Shut], h⟩
  cases before with
  | nil =>
    -- an element in code in the start tag
    obtain ⟨rfl, rfl⟩ := List.cons.inj hcs
    exact .inl ((hresolved gs e other hm he).cons _)
  | cons tag' before =>
    obtain ⟨rfl, hns'⟩ := List.cons.inj hcs
    have hpassage : Passage.tagName? ⟨k, tag :: before, after⟩ = some name :=
      (tagName?_branch hk htag before).trans hname
    obtain hended | ⟨hshut, ⟨last, rfl, hlast⟩ | ⟨rfl, hend⟩⟩ := hns before m after hns' gs e other hm he
    · exact .inl (hended.element hk hpassage)
    · exact .inl (.inr (.inl ⟨[], _, gs, name, last, rfl, hshut, hk, hpassage, rfl, hlast⟩))
    · -- what hangs in the content still hangs after the element
      refine .inr ⟨?_, hend⟩
      exact List.forall_mem_cons.2 ⟨rfl, hshut⟩

/-- What reads up to the end of the text has its last piece there. -/
theorem reachesEnd_of_reads {n : Node} {d : Context} (hn : n.pieces ≠ []) (h : c.Reads n.pieces d)
    (hd : d.Upon tr t S) (hrest : d.rest = []) : n.ReachesEnd t := by
  obtain ⟨ts, hts, hmoved⟩ := h
  have hne : ts ≠ [] := by
    rintro rfl
    exact hn (List.map_eq_nil_iff.1 hts)
  have hlast := Location.getLast?_tile c.pos hne
  rw [← hts, List.getLast?_map, Option.map_map, ← hmoved.pos, hd.pos_of_rest hrest] at hlast
  exact hlast

theorem Shows.pieces_ne_nil {o : Opening} {d : Context} (h : Shows o d) (hclosed : o.closed = true) :
    o.tag.pieces ≠ [] := by
  obtain ⟨close, hclose, hvalue⟩ := Option.bind_eq_some_iff.1 (h.closed.2 hclosed)
  cases htag : o.tag with
  | leaf k v l tv => rw [htag] at hclose; cases hclose
  | branch k cs tv =>
    rw [htag] at hclose
    obtain ⟨init, rfl⟩ := List.getLast?_eq_some_iff.1 hclose
    cases close with
    | leaf k v l tv => simp [pieces, piecesAll_append]
    | branch => cases hvalue

/-- An element with content hangs, unless it ends with its end tag or reaches the end of the text. -/
theorem hangs_content {o : Opening} {name : Text} {ns : List Node} {d e : Context} (ho : Shows o e)
    (hsome : o.contentName? = some name) (htag : o.tag.Resolved t S)
    (hns : EndedOr t (name.lower :: S) (EndsIn S name d) ns)
    (hlast : (∃ tag, ns.getLast? = some tag ∧ tag.EndTagOf name) ∨ d.rest = [] ∨ d.AtEndOf S)
    (hreads : c.Reads (piecesAll (o.tag :: ns)) d) (hd : d.Upon tr t S) :
    (ofChildren o.kind (o.tag :: ns)).Hangs t S d := by
  have hk := o.isElement_kind
  obtain ⟨hname, hcontent⟩ := Option.filter_eq_some_iff.1 hsome
  refine hangs_element hk ho.kind (ho.name.trans hname) htag hns fun other hself => ?_
  obtain rfl : name = other := Option.some.inj (hsome.symm.trans ((ho.takesEnd_iff hk).1 hself.takesEnd))
  rcases hlast with ⟨tag, hlast, hend⟩ | hrest | hatEnd
  · refine absurd hend.isEnd (hself.unended tag ?_)
    rw [ofChildren, children, List.getLast?_cons, hlast]
    rfl
  · have hpieces : piecesAll (o.tag :: ns) ≠ [] := by
      rw [piecesAll_cons]
      exact List.append_ne_nil_of_left_ne_nil (ho.pieces_ne_nil (Bool.and_eq_true_iff.1 hcontent).1) _
    rw [← pieces_ofChildren o.kind] at hpieces hreads
    exact .inl (reachesEnd_of_reads hpieces hreads hd hrest)
  · exact .inr hatEnd

section Elements

variable {l : Level} (hl : l.Resolves tr t)

include hl

/-- One node in an element. There is none at an end tag of an open element, so that a node that
hangs is the last one. -/
theorem elementPart_hangs {name : Text} (hc : c.Upon tr t (name.lower :: S)) :
    Ends (elementPart l.code l.element name 0) c fun r d => d.Upon tr t (name.lower :: S) ∧ match r with
      | none => d = c ∧ (c.rest = [] ∨ c.AtEndOf (name.lower :: S))
      | some n => n.Hangs t (name.lower :: S) d ∧ ¬ c.AtEndOf (name.lower :: S) := by
  have hname : name.lower ∈ c.openElements := hc.openElements ▸ .head _
  rcases elementPart_cases l.code l.element hname with ⟨heq, hend⟩ | ⟨heq, hrest, hnone⟩
  · rw [Ends, heq]
    refine ⟨hc, rfl, hend.imp_right ?_⟩
    rintro ⟨other, hother, -, hmem⟩
    exact ⟨other, hother, hc.openElements ▸ hmem⟩
  · have hgoes : ¬ c.AtEndOf (name.lower :: S) := by
      rintro ⟨other, hother, hmem⟩
      rcases hnone other hother with hflat | hclosed
      · rw [hc.flattened] at hflat; cases hflat
      · exact hclosed (hc.openElements ▸ hmem)
    obtain ⟨hd, hn⟩ := content_mayHang hl.code hl.element _ c hc
    rw [Ends, heq, documentPart_eq_content _ _ hrest (by simp [hc.flattened])]
    exact ⟨hd, hn, hgoes⟩

/-- **The nodes in an element.** An element among them that has not ended is the last one, and the
cursor is then at an end tag. -/
theorem elementNodes_hang {name : Text} (hc : c.Upon tr t (name.lower :: S)) :
    Ends (manyNodes (elementPart l.code l.element name 0)) c fun ns d => d.Upon tr t (name.lower :: S) ∧
      EndedOr t (name.lower :: S) (fun after => after = [] ∧ d.AtEndOf (name.lower :: S)) ns ∧
      (d.rest = [] ∨ d.AtEndOf (name.lower :: S)) := by
  have hgo : NodesGoOn (elementPart l.code l.element name 0) :=
    fun _ _ _ hturn => ((elementPart_traces hl.traced.code hl.traced.element name 0).of_eq hturn).1.length_lt
  refine (Ends.manyNodes_exit hgo (fun ns d => d.Upon tr t (name.lower :: S) ∧
    EndedOr t (name.lower :: S) (fun after => after = [] ∧ d.AtEndOf (name.lower :: S)) ns) ?_
    ⟨hc, endedOr_nil⟩).imp ?_
  · rintro ns c n d ⟨hc, hns⟩ hturn
    obtain ⟨hd, hn, hgoes⟩ := (elementPart_hangs hl hc).of_eq hturn
    -- the turn was taken, so that nothing was left hanging before it
    refine ⟨hd, hns.concat (fun after h => absurd h.2 hgoes) fun fs e name hway he => ?_⟩
    exact (hn fs e name hway he).imp_right fun h => ⟨h.1, rfl, h.2⟩
  · rintro ns d ⟨e, ⟨he, hns⟩, hturn⟩
    obtain ⟨-, rfl, hstop⟩ := (elementPart_hangs hl he).of_eq hturn
    exact ⟨he, hns, hstop⟩

omit hl in
/-- **The end of an element.** It is its own end tag if that is at the cursor. -/
theorem elementEnd_ends {name : Text} (hname : name ≠ []) (place : Option Location) (hc : c.Upon tr t S) :
    Ends (elementEnd name place) c fun ns d => d.Upon tr t S ∧
      ((∃ tag, ns = [tag] ∧ tag.EndTagOf name ∧ tag.Resolved t S) ∨
        ns = [] ∧ d.rest = c.rest ∧ ∀ other, c.rest.endTagName? = some other → other.lower ≠ name.lower) := by
  refine Ends.get_bind ?_
  split
  case isTrue h =>
    obtain ⟨other, hother, hsame⟩ := (Option.any_eq_true _ _).1 h
    have hcloses := endTag_mirrors (weave_enclosed tr t S).toCarries
    refine Ends.bind ((endTag_endTagOf hother hsame hname).and (hcloses.ends hc)) ?_
    rintro tag d ⟨hend, hd, -, htag⟩
    exact ⟨hd, .inl ⟨tag, rfl, hend, htag.resolved⟩⟩
  case isFalse h =>
    have hreport := (steady_upon tr t S).report hc ((Problem.missingEndTag name).located (place.getD (.empty c.pos)))
    refine ⟨hreport, .inr ⟨rfl, rfl, fun other hother hsame => h ?_⟩⟩
    rw [hother]
    exact Text.sameLetters_iff.2 hsame

/-- **The content of an element.** It ends with the end tag of the element, at the end of the text or
at an end tag of an element around it. -/
theorem elementContent_ends {name : Text} (hname : name ≠ []) (place : Option Location) (hc : c.Upon tr t S) :
    Ends (elementContent l.code l.element name place) c fun ns d => d.Upon tr t S ∧
      EndedOr t (name.lower :: S) (EndsIn S name d) ns ∧
      ((∃ tag, ns.getLast? = some tag ∧ tag.EndTagOf name) ∨ d.rest = [] ∨ d.AtEndOf S) := by
  have hpush := hc.push name
  have hbase : (c.pushElement name).flattenedCount = 0 := by simp [flattenedCount, hpush.flattened]
  refine Ends.modify_bind (Ends.get_bind ?_)
  rw [hbase]
  refine Ends.bind (elementNodes_hang hl hpush) ?_
  rintro ns d ⟨hd, hns, hstop⟩
  -- no element is flattened, so that there is none to close
  have hclose : closeFlattened 0 d = ((), d) := by
    rw [closeFlattened_zero, hd.flattened, leave, List.map_nil, List.append_nil, ← hd.flattened]
  refine Ends.bind_eq hclose (Ends.bind (elementEnd_ends hname place hd) ?_)
  rintro _ e ⟨he, ⟨tag, rfl, htag, hresolved⟩ | ⟨rfl, hrest, hother⟩⟩
  · refine Ends.modify_bind (Ends.pure ⟨he.pop, ?_, .inl ⟨tag, by simp, htag⟩⟩)
    refine hns.concat (fun after h => .inl ⟨tag, by rw [h.1]; rfl, htag⟩) fun fs x name hway hx => ?_
    exact .inl (hresolved fs x name hway hx)
  · -- the end tag that stopped the content is not the element's own, so it is of one around it
    have hleave : d.AtEndOf (name.lower :: S) → e.popElement.AtEndOf S := by
      rintro ⟨other, h, hmem⟩
      refine ⟨other, ?_, (List.mem_cons.1 hmem).resolve_left (hother other h)⟩
      show e.rest.endTagName? = _
      rw [hrest, h]
    refine Ends.modify_bind (Ends.pure ⟨he.pop, ?_, .inr (hstop.imp (fun h => ?_) hleave)⟩)
    · rw [List.append_nil]
      exact hns.imp fun after h => .inr ⟨h.1, hleave h.2⟩
    · show e.rest = []
      rw [hrest, h]

/-- **Elements.** -/
theorem nestedElement_mayHang : MayHang tr t (nestedElement l.code l.element) := by
  intro S c hc
  have hW := weave_enclosed tr t S
  have hopening := (opening_mirrors hW (hl.code S).code).ends hc
  refine Ends.bind (hopening.and (opening_traces hl.traced.code)) ?_
  rintro o d ⟨⟨hd, ho⟩, htrace, hshows⟩
  have htag := ho.tag
  have hk := o.isElement_kind
  split
  case h_1 hnone =>
    -- without content there is nothing to end
    refine ⟨hd, Resolved.hangs (resolved_branch (by simpa using htag.resolved) fun name he => ?_) _⟩
    have htakes := (hshows.takesEnd_iff hk).1 he.takesEnd
    rw [hnone] at htakes; cases htakes
  case h_2 name hsome =>
    have hname := (Option.filter_eq_some_iff.1 hsome).1
    split
    case isTrue hraw =>
      have hcontent := rawTextContent_mirrors hW.toCarries name fun _ => (hl.code S).code
      refine Ends.bind (hcontent.ends hd) fun ns e ⟨he, hns⟩ =>
        ⟨he, Resolved.hangs (resolved_branch ?_ fun other hself => ?_) _⟩
      · exact List.forall_mem_cons.2 ⟨htag.resolved, fun n hn => (forall_left hns n hn).resolved⟩
      · have htakes := (hshows.takesEnd_iff hk).1 hself.takesEnd
        obtain rfl : name = other := Option.some.inj (hsome.symm.trans htakes)
        rw [hself.markup] at hraw; cases hraw
    case isFalse hmarkup =>
      have hcontinues := elementContent_continues (c := d) (o := o) hl.traced.code hl.traced.element
        (Bool.eq_false_iff.2 hmarkup)
      have hends := elementContent_ends hl (hshows.nonempty name hname) o.place hd
      refine Ends.bind (hcontinues.and hends) fun ns e ⟨hcontinues, he, hns, hlast⟩ => ⟨he, ?_⟩
      have hreads := (hcontinues.traces htrace hshows hsome).reads
      rw [piecesAll_cons, pieces_ofChildren, piecesAll_nil, List.append_nil] at hreads
      exact hangs_content hshows hsome htag.resolved hns hlast hreads he

end Elements

/-! ## Code -/

/-- An end tag in code is read as code, its bracket at least. -/
theorem two_le_value {u : Text} (last : Option Char) : 2 ≤ (Code.value last ('<' :: '/' :: u)).1.length := by
  have hslash : ∀ last, 0 < (Code.value last ('/' :: u)).1.length := fun _ =>
    Code.value_pos (by decide) (by decide) (by simp [Code.startsMarkup, Text.ahead])
  have hmarkup : Code.startsMarkup last ('<' :: '/' :: u) = false := by simp [Code.startsMarkup, Text.ahead]
  rw [Code.value]
  simp only [hmarkup, Char.reduceEq, decide_false, Bool.or_self, Bool.false_eq_true, if_false]
  split
  case h_1 e hskip => simp [Code.skipped?, Code.isQuote] at hskip
  case h_2 => exact Nat.add_le_add_left (hslash _) 1

theorem value_spills (hc : c.Upon tr t S) (last : Option Char) (h : c.AtEndOf S) :
    Spills t S [.token .codeValue (.ofText c.pos (c.rest.take (Code.value last c.rest).1.length))] := by
  obtain ⟨u, hu⟩ := h.rest_eq
  obtain ⟨other, hother, hmem⟩ := h
  refine ⟨other, ⟨_, _, [], rfl, ?_, ?_⟩, hmem⟩
  · rw [Location.text_ofText]
    refine (Text.startsWith_iff (by decide) _).2 (List.prefix_take_iff.2 ?_)
    rw [hu]
    exact ⟨⟨u, rfl⟩, two_le_value last⟩
  · rw [← hother, ← hc.drop_offset]
    rfl

section Code

variable {body : Parse (List Node)} {element : Parse Node}

/-- One part of a body. Before an end tag it is code. -/
theorem bodyPart_ends (hbody : MaySpill tr t body) (helement : MayHang tr t element) (last : Option Char)
    (hc : c.Upon tr t S) :
    Ends (bodyPart body element last) c fun r d => d.Upon tr t S ∧ match r with
      | none => ¬ c.AtEndOf S
      | some x => x.1.Hangs t S d ∧ (c.AtEndOf S → Spills t S [x.1]) := by
  have hW := weave_enclosed tr t S
  refine Ends.get_bind ?_
  -- at an end tag, all but the last case are excluded by the two characters at the cursor
  split
  case isTrue hstop =>
    refine ⟨hc, fun h => ?_⟩
    obtain ⟨u, hu⟩ := h.rest_eq
    simp [Context.atEnd, Context.current, Context.peekAt, Text.ahead, hu] at hstop
  case isFalse =>
  split
  case isTrue hopen =>
    refine Ends.bind ((token_mirrors hW.toCarries (k := .brace) rfl 1).ends hc) ?_
    rintro n d ⟨hd, hn⟩
    refine Ends.bind (hbody S d hd) ?_
    rintro ns e ⟨he, hns⟩
    have hpart := enclosed_body (.inr rfl) (hns.cons hn.resolved)
    refine ⟨he, hpart.resolved.hangs e, fun h => ?_⟩
    obtain ⟨u, hu⟩ := h.rest_eq
    simp [Context.current, Context.peekAt, Text.ahead, hu] at hopen
  case isFalse =>
  split
  case isTrue hmarkup =>
    refine Ends.bind (helement S c hc) ?_
    rintro n d ⟨hd, hn⟩
    refine ⟨hd, hn, fun h => ?_⟩
    obtain ⟨u, hu⟩ := h.rest_eq
    simp [Code.startsMarkup, Text.ahead, hu] at hmarkup
  case isFalse =>
    have hcode := ((code_textual (Code.value last c.rest).1).carries hW.toCarries).ends hc
    refine Ends.bind (hcode.and (code_moves _)) ?_
    rintro _ d ⟨⟨hd, -, hn⟩, rfl, -⟩
    exact ⟨hd, hn.resolved.hangs d, value_spills hc last⟩

/-- **Bodies.** -/
theorem codeBody_maySpill (htraced : TracesBody body) (htraced' : TracesElement element)
    (hbody : MaySpill tr t body) (helement : MayHang tr t element) : MaySpill tr t (codeBody body element) := by
  intro S c hc
  have hgo : GoesOn (bodyPart body element) := fun last c n last' d hturn =>
    ((bodyPart_traces htraced htraced' last).of_eq hturn).1.length_lt
  have hloop : Ends (many (bodyPart body element) none) c fun r d => d.Upon tr t S ∧
      EndedOr t S (Spills t S) r.1 := by
    refine (Ends.many_exit hgo (fun ns _ d => d.Upon tr t S ∧
      EndedOr t S (fun after => Spills t S after ∨ after = [] ∧ d.AtEndOf S) ns) ?_ ⟨hc, endedOr_nil⟩).imp ?_
    · rintro ns last c n last' d ⟨hc, hns⟩ hturn
      obtain ⟨hd, hn, hspills⟩ := (bodyPart_ends hbody helement last hc).of_eq hturn
      refine ⟨hd, hns.concat ?_ fun fs e name hway he => ?_⟩
      · -- what hung before this part has spilled into it
        rintro after (h | ⟨rfl, h⟩)
        · exact .inl (h.concat n)
        · exact .inl (hspills h)
      · exact (hn fs e name hway he).imp_right fun h => ⟨h.1, .inr ⟨rfl, h.2⟩⟩
    · rintro ⟨ns, last⟩ d ⟨e, ⟨he, hns⟩, hturn⟩
      obtain ⟨hd, hnone⟩ := (bodyPart_ends hbody helement last he).of_eq hturn
      exact ⟨hd, hns.imp fun after h => h.resolve_right fun h => hnone h.2⟩
  refine Ends.bind hloop ?_
  rintro ⟨ns, last⟩ d ⟨hd, hns⟩
  have hbrace := expect_mirrors (weave_enclosed tr t S).toCarries (k := .brace) rfl (.brace '}')
  refine Ends.bind (hbrace.ends hd) fun n e ⟨he, hn⟩ => ⟨he, ?_⟩
  exact hns.concat (fun _ h => h.concat n) fun fs x name hway hx => .inl (hn.resolved fs x name hway hx)

/-- **Embedded code.** -/
theorem embedded_encloses (hbody : MaySpill tr t body) : Encloses tr t (embedded body) := by
  intro S
  have hW := weave_enclosed tr t S
  have hexpression : Mirrors (Upon tr t S) (fun n _ => n.Enclosed t S) codeExpression codeExpression := by
    refine (codeExpression_textual.mirrors hW.toSteady).imp ?_
    rintro _ _ ⟨rfl, cs, rfl, hcs⟩
    exact enclosed_branch rfl fun m hm => (hcs m hm).enclosed.resolved
  have hparts : Mirrors (Upon tr t S) (fun ns _ => EndedOr t S (Spills t S) ns) body body :=
    fun c hc => ⟨rfl, hbody S c hc⟩
  refine embedded_mirrors_of_block hW.toCarries hexpression fun c =>
    codeBlock_mirror hW.toCarries ?_ (hparts.body hW.toSteady)
  intro a _ b _ ns _ ha hb hns
  exact enclosed_body (.inl rfl) ((hns.cons hb.resolved).cons ha.resolved)

end Code

end Parse

/-! ## Levels of nesting -/

namespace Level

variable {tr : Char} {t : Text}

theorem resolves_stub (tr : Char) (t : Text) : stub.Resolves tr t := by
  have hbody : Parse.MaySpill tr t stub.body := fun S c hc =>
    ⟨(Context.steady_upon tr t S).report hc _, Node.endedOr_nil.cons (Node.enclosed_leaf rfl).resolved⟩
  refine ⟨traced_stub, Parse.embedded_encloses hbody, fun S c hc => stubElement_ends.imp ?_, hbody⟩
  rintro _ _ ⟨⟨tag, htag, rfl⟩, hname, x, y, rfl⟩
  have hI := Context.steady_upon tr t S
  refine ⟨hI.report (hI.report (hI.read hc 1) x) y, Node.Resolved.hangs ?_ _⟩
  refine Node.resolved_branch (List.forall_mem_singleton.2 htag.enclosed.resolved) fun name h => ?_
  exact absurd (hname.symm.trans h.takesEnd.tagName) nofun

theorem Resolves.above {inner : Unit → Level} (h : (inner ()).Resolves tr t) : (Level.above inner).Resolves tr t := by
  have helement := Parse.nestedElement_mayHang h
  have htraced := h.traced.above
  exact
    { traced := htraced
      code := Parse.embedded_encloses h.body
      element := helement
      body := Parse.codeBody_maySpill h.traced.body htraced.element h.body helement }

/-- **Above the ground every element has a reason to end.** -/
theorem resolves_stacked (tr : Char) (t : Text) (room : ℕ) : (stacked stub room).Resolves tr t := by
  induction room with
  | zero => exact resolves_stub tr t
  | succ room ih => exact ih.above

theorem Resolves.document {l : Level} (h : l.Resolves tr t) :
    Parse.Mirrors (Context.Upon tr t []) (fun n _ => n.Resolved t []) (Parse.document l.code l.element)
      (Parse.document l.code l.element) := by
  have hW := Parse.weave_enclosed tr t []
  have hN : Carries (Context.Upon tr t []) fun n _ => n.Resolved t [] :=
    { hW.toSteady with closed := fun hn => (hW.closed hn).resolved }
  refine Parse.document_mirrors hN ((h.code []).imp fun _ _ h => h.resolved).code (fun c hc _ => ?_)
    (fun k c hc => hc.truncate k) fun hns => (Node.enclosed_branch rfl (Node.forall_left hns)).resolved
  obtain ⟨hd, hn⟩ := h.element [] c hc
  exact ⟨rfl, hd, hn.resolved⟩

end Level

/-! ## Templates -/

section

variable {options : ParseOptions} (t : Text)

/-- Below the nesting limit all elements of the document have ended for a reason. -/
theorem document_resolved (h : (Template.document options t).2.depthReported = false) :
    (Template.document options t).1.Resolved t [] := by
  have hstart : (Context.atDocument options t).Upon options.transition t [] := ⟨rfl, ⟨[], rfl, rfl⟩, rfl, rfl⟩
  have hlevel := Level.resolves_stacked options.transition t options.maxNestingDepth
  have hdocument := (hlevel.document _ hstart).2.2
  rwa [document_stub t h] at hdocument

/-- **Elements without end tags.** Below the nesting limit, an element that takes an end tag and does
not end with one of its own reaches the end of the template, or it is followed by the end tag of an
element around it, or it stands in code that reads such an end tag as code. -/
theorem parse_ends_elements (h : options.language ∈ Registry.standard.languages) :
    ∃ r, Template.parse options t = .ok r ∧ (r.diagnostics.countP Diagnostic.isTooDeep = 0 →
      ∀ e ∈ Node.descendantsAll r.nodes, ∀ name, e.Unended name →
        (∃ n ∈ r.nodes, ∃ fs, n.Way fs e) ∧ ∀ n ∈ r.nodes, ∀ fs, n.Way fs e →
          e.fullStop? = some (t.positionAt t.length) ∨ Passage.AtEndTag fs ∨ Passage.AtCode t fs) := by
  refine ⟨_, parse_eq_document t h, fun hnone e he name hended => ⟨?_, fun n hn fs hway => ?_⟩⟩
  · obtain ⟨before, n, after, fs, hnodes, hway⟩ := Node.exists_wayAll he
    exact ⟨n, by rw [hnodes]; simp, fs, hway⟩
  have hunmet : (Template.document options t).2.depthReported = false := by
    rw [Template.countP_isTooDeep] at hnone
    exact Bool.toNat_eq_zero.1 hnone
  have hshaped := Node.shaped_of_mem_descendantsAll _ (shaped_template options t) e he
  rcases List.mem_pair.1 hn with rfl | rfl
  · rw [hshaped.fullStop?_eq]
    obtain hreaches | hclosed | hspilled := document_resolved t hunmet fs e name hway hended
    · exact .inl hreaches
    · exact .inr (.inl hclosed.atEndTag)
    · exact .inr (.inr hspilled.atCode)
  · -- the end of the file is no element
    obtain ⟨-, rfl⟩ := Node.way_leaf hway
    exact absurd rfl hended.isElement_ne

/-- List items in a list and an element in a block, all of them without end tags. -/
def unendedItems : Text :=
  "<ul><li>a<li>@\x7bif (b) \x7b<i>c</ul>\x7d\x7d<p>".toList

theorem parse_ends_elements_nested :
    ({} : ParseOptions).language ∈ Registry.standard.languages ∧
      ∃ r, Template.parse {} unendedItems = .ok r ∧ r.diagnostics.countP Diagnostic.isTooDeep = 0 ∧
        (∀ name ∈ [['l', 'i'], ['i'], ['p']], ∃ e ∈ Node.descendantsAll r.nodes, e.Unended name) ∧
        ∀ e ∈ Node.descendantsAll r.nodes, ∀ name, e.Unended name →
          (∃ n ∈ r.nodes, ∃ fs, n.Way fs e) ∧ ∀ n ∈ r.nodes, ∀ fs, n.Way fs e →
            e.fullStop? = some (unendedItems.positionAt unendedItems.length) ∨ Passage.AtEndTag fs ∨
              Passage.AtCode unendedItems fs := by
  obtain ⟨r, hparse, hends⟩ := @parse_ends_elements {} unendedItems (by decide)
  have hrun : (Template.parse {} unendedItems).toOption.any (fun r =>
      r.diagnostics.countP Diagnostic.isTooDeep == 0 && [['l', 'i'], ['i'], ['p']].all fun name =>
        (Node.descendantsAll r.nodes).any fun e => decide (e.Unended name)) = true := by decide +kernel
  rw [hparse, Except.toOption, Option.any_some, Bool.and_eq_true, beq_iff_eq, List.all_eq_true] at hrun
  refine ⟨by decide, r, hparse, hrun.1, fun name hname => ?_, hends hrun.1⟩
  simpa using hrun.2 name hname

/-- The element in the block ends before the end tag of the one around it, and the block reads that
end tag as code: it is not in the tree. -/
theorem end_tag_read_as_code :
    ((Template.parse {} "<a>@\x7b<b></a>".toList).toOption.any fun r =>
      r.diagnostics.countP Diagnostic.isTooDeep == 0 &&
        (Node.descendantsAll r.nodes).any (fun e => decide (e.Unended ['b']) &&
          e.fullStop? != some (Text.positionAt "<a>@\x7b<b></a>".toList "<a>@\x7b<b></a>".toList.length)) &&
        (Node.descendantsAll r.nodes).all fun n => n.kind != .htmlEndTag) = true := by
  decide +kernel

end

end Stencil
