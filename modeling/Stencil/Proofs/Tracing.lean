import Stencil.Proofs.TagTraces

/-!
# Every parser leaves a trace

The rest of the grammar: content, elements, and the levels of nesting. After this no proof has to go
through the grammar again for what holds of every run.

* `Level.traced_ofRoom`: **at every level of nesting the parsers leave traces.**
* `document_gives`: so does the document.
-/

namespace Stencil

namespace Parse

open Context Node

variable {c d : Context}

/-! ## Content -/

/-- Elements are closed without reading on. -/
theorem closeFlattened_traces (base : ℕ) : Ends (closeFlattened base) c fun _ d => Trace false c [] 0 d :=
  Trace.silent (.close c base)

/-- An end tag of a flattened element is read, or nothing is. -/
theorem flattenedEnd?_traces (base : ℕ) (hc : c.rest ≠ []) : Ends (flattenedEnd? base) c fun r d =>
    (r = none → d = c) ∧ ∀ n ∈ r, Trace false c [n] 0 d ∧ n.kind = .htmlEndTag := by
  refine Ends.get_bind ?_
  split
  case h_1 i hi =>
    obtain ⟨name, hname, hfind⟩ := Option.bind_eq_some_iff.1 hi
    have hrest : ((closeFlattened (i + 1) c).2.truncateFlattened i).rest = c.rest :=
      ((closeFlattened_moved (i + 1) c).trans_stay (moved_truncateFlattened _ i)).rest_eq
    refine Ends.bind (Q := fun _ d => d = (closeFlattened (i + 1) c).2) rfl ?_
    rintro _ _ rfl
    refine Ends.modify_bind (Ends.bind (endTag_traces (hrest ▸ hc)) ?_)
    rintro _ d ⟨cs, rfl, h, htag⟩
    refine Ends.pure ⟨nofun, ?_⟩
    rintro _ ⟨⟩
    exact ⟨(Trace.flattenedEnd hname hfind h htag).le (by omega), rfl⟩
  case h_2 => exact Ends.pure ⟨fun _ => rfl, nofun⟩

/-- An end tag of no element is read all the same. -/
theorem orphanEnd_traces (hc : c.rest ≠ []) :
    Ends orphanEnd c fun n d => Trace false c [n] 0 d ∧ n.kind = .htmlEndTag := by
  refine Ends.bind (endTag_traces hc) ?_
  rintro _ c₁ ⟨cs, rfl, h, htag⟩
  refine Ends.get_bind ?_
  dsimp only
  split
  case isTrue hvoid =>
    have hname : (ofChildren .htmlEndTag cs).tagName? = some ((ofChildren .htmlEndTag cs).tagName?.getD []) := by
      cases hname : (ofChildren .htmlEndTag cs).tagName? with
      | some name => rfl
      | none => rw [hname] at hvoid; exact absurd hvoid (by decide)
    exact ⟨(h.orphan htag (.void hname hvoid)).le (by omega), rfl⟩
  case isFalse =>
    split
    · exact ⟨(h.orphan htag (.mismatched _ _)).le (by omega), rfl⟩
    · exact ⟨(h.orphan htag (.unexpected _)).le (by omega), rfl⟩

/-- Text does not stop where neither code nor markup stands. -/
theorem stopsText_of_current (htrans : ¬ c.atTransition = true) (hlt : ¬ c.current = '<') :
    stopsText c.transition c.previous? c.rest = false := by
  rw [stopsText, Bool.or_eq_false_iff]
  exact ⟨by simpa [current, peekAt] using hlt, by simpa [atTransition] using htrans⟩

section

variable {code element : Parse Node} (hcode : TracesCode code) (helement : TracesElement element)

include hcode helement

omit hcode in
/-- **Markup** is traced, whichever kind it is. -/
theorem markup_traces (hc : c.rest ≠ []) :
    Ends (markup element) c fun n d => Trace false c [n] 0 d ∧ n.kind.isContent = true := by
  refine Ends.get_bind ?_
  dsimp only
  split
  · exact (region_traces (.inl rfl) ‹_›).imp fun n d h => ⟨h.1, by rw [h.2]; rfl⟩
  · split
    · exact (region_traces (.inr rfl) ‹_›).imp fun n d h => ⟨h.1, by rw [h.2]; rfl⟩
    · split
      · exact (declaration_traces ‹_›).imp fun n d h => ⟨h.1, by rw [h.2]; rfl⟩
      · split
        · exact (orphanEnd_traces hc).imp fun n d h => ⟨h.1, by rw [h.2]; rfl⟩
        · exact (helement c hc).imp fun n d h => ⟨h.trace, Kind.isContent_of_isElement h.kind⟩

/-- Content before the end of the template. -/
theorem content_traces (hc : c.rest ≠ []) :
    Ends (content code element) c fun n d => Trace false c [n] 0 d ∧ n.kind.isContent = true := by
  refine Ends.get_bind ?_
  split
  case isTrue hat => exact (hcode c hc hat).imp fun n d h => ⟨h.trace, Kind.isContent_of_isEmbedded h.kind⟩
  case isFalse hat =>
    split
    case isTrue => exact markup_traces helement hc
    case isFalse hlt =>
      refine contentText_traces (not_or.2 ⟨hc, ?_⟩)
      rw [stopsText_of_current hat hlt]
      exact Bool.false_ne_true

/-- A turn of a loop over content. -/
abbrev ContentTurn (c : Context) (r : Option Node) (d : Context) : Prop :=
  Trace false c r.toList 0 d ∧ ∀ n ∈ r.toList, n.kind.isContent = true

omit hcode helement in
/-- A turn ends at the end of the template, reads the end tag of a flattened element, or goes on in
its own way. -/
theorem turn_traces {p : Parse (Option Node)} (base : ℕ) (hp : c.rest ≠ [] → Ends p c (ContentTurn c)) :
    Ends (do
      if (← get).atEnd then return none
      else
        match ← flattenedEnd? base with
        | some tag => return some tag
        | none => p) c (ContentTurn c) := by
  refine Ends.get_bind ?_
  split
  case isTrue => exact Ends.pure ⟨.nil c, by simp⟩
  case isFalse hend =>
    have hc := rest_ne_nil_of_not_atEnd hend
    refine Ends.bind (flattenedEnd?_traces base hc) ?_
    rintro (_ | tag) c₁ ⟨hnone, hsome⟩
    · obtain rfl := hnone rfl
      exact hp hc
    · obtain ⟨h, hkind⟩ := hsome tag rfl
      exact Ends.pure ⟨h, List.forall_mem_singleton.2 (by rw [hkind]; rfl)⟩

theorem contentTurn_traces (hc : c.rest ≠ []) :
    Ends (do return some (← content code element)) c (ContentTurn c) :=
  Ends.bind (content_traces hcode helement hc) fun _ _ h => Ends.pure ⟨h.1, List.forall_mem_singleton.2 h.2⟩

theorem documentPart_traces (base : ℕ) : Ends (documentPart code element base) c (ContentTurn c) :=
  turn_traces base (contentTurn_traces hcode helement)

theorem document_gives : Ends (document code element) c (c.Gives (· = .document) 1) := by
  refine Ends.get_bind (Ends.bind (manyNodes_traces fun _ => documentPart_traces hcode helement _) ?_)
  rintro ns c₁ ⟨h₁, hns⟩
  refine Ends.bind (closeFlattened_traces _) fun _ c₂ h₂ => Ends.pure ?_
  have hframes : Frames .document ns := frames_of_stop?_eq_none rfl rfl (List.forall_mem_map.2 hns)
  exact ⟨((h₁.stay h₂).frame hframes).le (by omega), rfl, rfl⟩

/-! ## Elements -/

theorem elementPart_traces (name : Text) (base : ℕ) :
    Ends (elementPart code element name base) c (ContentTurn c) := by
  refine turn_traces base fun hc => Ends.get_bind ?_
  have hturn := contentTurn_traces hcode helement hc
  split
  · split
    · exact Ends.pure ⟨.nil c, by simp⟩
    · exact hturn
  · exact hturn

/-- How an element goes on after its start tag: up to its end tag, or without one. -/
inductive Continues (o : Opening) (name : Text) (c : Context) : List Node → Context → Prop
  | ended {ns cs : List Node} {d e : Context} : Trace false (c.entered name) ns 0 d → Inside name c ns d →
      Text.sameLetters ((d.rest.drop 2).takeWhile Html.isNameChar) name = true → Trace false d cs (-3) e →
      d.EndTag cs → Continues o name c (ns ++ [.ofChildren .htmlEndTag cs]) (e.left name)
  | unended {ns : List Node} {d : Context} {p : Problem} {l : Location} : Trace false (c.entered name) ns 0 d →
      Inside name c ns d → d.Unended o name p l → Continues o name c ns ((d.report (p.located l)).left name)

/-- **The content of an element** goes on to its end tag or to where it is missed. -/
theorem elementContent_continues {o : Opening} {name : Text} (hraw : Html.isRawText name = false) :
    Ends (elementContent code element name o.place) c (Continues o name c) := by
  have hentered : c.entered name = c.pushElement name := if_neg (by simp [hraw])
  have hleft : ∀ d : Context, d.left name = d.popElement := fun d => if_neg (by simp [hraw])
  refine Ends.modify_bind (Ends.get_bind ?_)
  refine Ends.bind (manyNodes_traces fun _ => elementPart_traces hcode helement name _) ?_
  rintro ns c₁ ⟨h₁, hns⟩
  refine Ends.bind (closeFlattened_traces _) fun _ c₂ h₂ => ?_
  have htrace := h₁.stay h₂
  rw [← hentered] at htrace
  -- the end tag is matched by its letters, whichever case they have
  have hlast : Ends (elementEnd name o.place) c₂ fun last d => Continues o name c (ns ++ last) d.popElement := by
    refine Ends.get_bind ?_
    split
    case isTrue hend =>
      obtain ⟨other, hother, hsame⟩ := (Option.any_eq_true _ _).1 hend
      obtain ⟨u, hu⟩ := Text.endTagName?_eq_cons hother
      refine Ends.bind (endTag_traces (by simp [hu])) ?_
      rintro _ d ⟨cs, rfl, hcs, htag⟩
      rw [← Text.endTagName?_eq_some hother] at hsame
      refine Ends.pure ?_
      rw [← hleft]
      exact .ended htrace (.content hraw hns) hsame hcs htag
    case isFalse =>
      refine Ends.bind (Q := fun _ d => d = c₂.report ((Problem.missingEndTag name).located
        (o.place.getD (.empty c₂.pos)))) rfl ?_
      rintro _ _ rfl
      refine Ends.pure ?_
      rw [← hleft, List.append_nil]
      exact .unended htrace (.content hraw hns) (.content hraw)
  exact Ends.bind hlast fun last d h => Ends.modify_bind (Ends.pure h)

end

/-! ## Raw text -/

section

variable {code : Parse Node} {name : Text}

/-- Raw text stops before its end tag. -/
theorem rawTextPart_stops (h : c.rest = [] ∨ endsRawText name c.rest = true) :
    rawTextPart code name c = (none, c) := by
  have hstop : (c.atEnd || endsRawText name c.rest) = true := by
    rw [Bool.or_eq_true]
    exact h.imp_left List.isEmpty_iff.2
  show (if c.atEnd || endsRawText name c.rest then _ else _ : Parse (Option Node)) c = _
  rw [if_pos hstop]
  rfl

/-- Up to there it is taken as a whole, except in scripts. -/
theorem rawTextPart_takes (code : Parse Node) (hscript : Html.isScript name = false)
    (h : ¬ (c.rest = [] ∨ endsRawText name c.rest = true)) :
    rawTextPart code name c = (some (.token .rawText (.ofText c.pos
      (c.rest.take (c.rest.runLength (fun _ t => endsRawText name t) c.previous?)))),
      (c.read (c.rest.runLength (fun _ t => endsRawText name t) c.previous?)).2) := by
  have hgo : ¬ (c.atEnd || endsRawText name c.rest) = true := by
    rw [Bool.or_eq_true]
    exact fun hstop => h (hstop.imp_left List.isEmpty_iff.1)
  show (if c.atEnd || endsRawText name c.rest then _ else
    if Html.isScript name && c.atTransition then _ else _ : Parse (Option Node)) c = _
  rw [if_neg hgo, hscript, Bool.false_and, if_neg Bool.false_ne_true, bind_apply, token_apply]
  simp only [Bool.false_and, Bool.or_false]
  rfl

/-- The loop reads the text up to the end tag in one piece, if there is any. -/
theorem manyNodes_style (code : Parse Node) (hscript : Html.isScript name = false) (c : Context) :
    ∃ x y d, c.rest = x ++ y ∧ Text.UpTo (endsRawText name · = true) x y ∧ c.Moved x d ∧
      manyNodes (rawTextPart code name) c =
        (if x = [] then [] else [.token .rawText (.ofText c.pos x)], d) := by
  by_cases hstop : c.rest = [] ∨ endsRawText name c.rest = true
  · refine ⟨[], c.rest, c, rfl, ⟨fun i hi => ?_, hstop⟩, .refl c, ?_⟩
    · exact absurd hi (Nat.not_lt_zero i)
    · rw [if_pos rfl]
      exact manyNodes_none (rawTextPart_stops hstop)
  · have hpart := rawTextPart_takes code hscript hstop
    obtain ⟨hne, hgo⟩ := not_or.1 hstop
    have hupTo := Text.upTo_runLength (endsRawText name) c.rest c.before
    -- one turn takes all the text up to the end tag, and the next one stops there
    have hpos : 0 < c.rest.runLength (fun _ t => endsRawText name t) c.previous? := by
      obtain ⟨a, r, hr⟩ := List.exists_cons_of_ne_nil hne
      rw [hr] at hgo ⊢
      rw [Text.runLength, if_neg hgo]
      omega
    have hprevious : c.before.head? = c.previous? := rfl
    rw [hprevious] at hupTo
    generalize c.rest.runLength (fun _ t => endsRawText name t) c.previous? = n at hpart hupTo hpos
    have hlength : 0 < c.rest.length := List.length_pos_of_ne_nil hne
    have hx : c.rest.take n ≠ [] := by
      intro hnil
      have := congrArg List.length hnil
      rw [List.length_take, List.length_nil] at this
      omega
    refine ⟨c.rest.take n, c.rest.drop n, (c.read n).2, (List.take_append_drop n _).symm, hupTo, c.moved_read n, ?_⟩
    have hlt : (c.read n).2.rest.length < c.rest.length := by
      show (c.rest.drop n).length < _
      rw [List.length_drop]
      omega
    rw [if_neg hx, manyNodes_some hpart hlt, manyNodes_none (rawTextPart_stops hupTo.stop)]

/-- One node of raw text. -/
theorem rawTextPart_traces (hcode : TracesCode code) : Ends (rawTextPart code name) c fun r d =>
    (r = none → d = c ∧ (c.rest = [] ∨ endsRawText name c.rest = true)) ∧ ∀ n ∈ r, Trace false c [n] 0 d ∧
      (n.kind.isEmbedded = true ∨ n.kind = .rawText) ∧ (Html.isScript name = true → n.kind = .rawText →
        ∃ m, c.Free m ∧ n = .token .rawText (.ofText c.pos (c.rest.take m))) := by
  refine Ends.get_bind ?_
  dsimp only
  split
  case isTrue hstop =>
    rw [Bool.or_eq_true] at hstop
    exact Ends.pure ⟨fun _ => ⟨rfl, hstop.imp_left List.isEmpty_iff.1⟩, nofun⟩
  case isFalse hgo =>
    simp only [Bool.or_eq_true, not_or, Bool.not_eq_true] at hgo
    have hc := rest_ne_nil_of_not_atEnd (Bool.eq_false_iff.1 hgo.1)
    split
    case isTrue hat =>
      refine Ends.bind (hcode c hc (Bool.and_eq_true_iff.1 hat).2) fun n d h => Ends.pure ⟨nofun, ?_⟩
      rintro _ ⟨⟩
      refine ⟨h.trace, .inl h.kind, fun _ hkind => ?_⟩
      have hembedded := h.kind
      rw [hkind] at hembedded
      cases hembedded
    case isFalse hat =>
      generalize hn : c.rest.runLength (fun previous t => endsRawText name t ||
        (Html.isScript name && startsTransition c.transition previous t)) c.previous? = n
      -- the run is not empty, since neither an end tag nor a transition stands at the cursor
      have hpos : 0 < n := by
        rw [← hn]
        refine Text.runLength_pos hc ?_
        rw [hgo.2, Bool.false_or]
        exact Bool.eq_false_iff.2 hat
      refine Ends.bind_eq (token_apply .rawText n c) (Ends.pure ⟨nofun, ?_⟩)
      rintro _ ⟨⟩
      refine ⟨(Trace.token n rfl rfl).le ?_, .inr rfl, fun hscript _ => ⟨n, ?_, rfl⟩⟩
      · have := cost_read hpos hc
        omega
      · rw [← hn]
        exact free_runLength fun previous t h => by simp [hscript, h]

/-- **Raw text** goes on to its end tag or to the end of the template. -/
theorem rawTextContent_continues (hcode : TracesCode code) {o : Opening} (hraw : Html.isRawText name = true)
    (hname : ∀ x ∈ name, Html.isNameChar x = true) : Ends (rawTextContent code name) c (Continues o name c) := by
  have hentered : c.entered name = c := if_pos hraw
  have hleft : ∀ d : Context, d.left name = d := fun d => if_pos hraw
  have hgo : NodesGoOn (rawTextPart code name) := fun c n d hturn =>
    (((rawTextPart_traces hcode).of_eq hturn).2 n rfl).1.length_lt
  have hloop := Ends.manyNodes_exit (c := c) hgo (fun ns d => Trace false c ns 0 d ∧
    (∀ n ∈ ns, n.kind.isEmbedded = true ∨ n.kind = .rawText) ∧
    (Html.isScript name = true → ∀ n ∈ ns, n.kind = .rawText →
      ∃ t c₁ m, c.Moved t c₁ ∧ c₁.Free m ∧ n = .token .rawText (.ofText c₁.pos (c₁.rest.take m)))) ?_
    ⟨.nil c, by simp, by simp⟩
  · have hstyle : Html.isScript name = false → _ := fun h => manyNodes_style code h c
    have hrun : Ends (manyNodes (rawTextPart code name)) c fun ns d =>
        manyNodes (rawTextPart code name) c = (ns, d) := rfl
    refine Ends.bind (hloop.and hrun) ?_
    rintro ns d ⟨⟨e, ⟨htrace, hkinds, hscript⟩, hnone⟩, hrun⟩
    obtain ⟨rfl, hend⟩ := ((rawTextPart_traces hcode).of_eq hnone).1 rfl
    have hinside : Inside name c ns d := by
      refine .raw hraw ⟨hkinds, hscript, fun hnot => ?_⟩
      obtain ⟨x, y, d', hrest, hupTo, hmoved, heq⟩ := hstyle hnot
      obtain ⟨hns, rfl⟩ := Prod.mk.inj (hrun.symm.trans heq)
      exact ⟨x, y, hrest, hupTo, hmoved, hns⟩
    rw [← hentered] at htrace
    refine Ends.get_bind ?_
    split
    case isTrue hatEnd =>
      refine Ends.bind (Q := fun _ e => e = d.report ((Problem.unterminatedRawText name).located (.empty d.pos)))
        rfl ?_
      rintro _ _ rfl
      refine Ends.pure ?_
      rw [← hleft (d.report _)]
      exact .unended htrace hinside (.raw hraw (List.isEmpty_iff.1 hatEnd))
    case isFalse hatEnd =>
      have hne := rest_ne_nil_of_not_atEnd hatEnd
      have hsame := sameLetters_of_endsRawText hname (hend.resolve_left hne)
      refine Ends.bind (endTag_traces hne) ?_
      rintro _ e ⟨cs, rfl, hcs, htag⟩
      refine Ends.pure ?_
      rw [← hleft e]
      exact .ended htrace hinside hsame hcs htag
  · -- a turn of the loop
    rintro ns e n d ⟨h, hkinds, hscript⟩ hturn
    obtain ⟨h', hkind, htext⟩ := ((rawTextPart_traces hcode).of_eq hturn).2 n rfl
    obtain ⟨t, ht⟩ := h.moved
    refine ⟨by simpa using h.append h', List.forall_mem_append.2 ⟨hkinds, List.forall_mem_singleton.2 hkind⟩, ?_⟩
    intro hs
    refine List.forall_mem_append.2 ⟨hscript hs, List.forall_mem_singleton.2 fun hraw => ?_⟩
    obtain ⟨m, hfree, hn⟩ := htext hs hraw
    exact ⟨t, e, m, ht, hfree, hn⟩

end

/-! ## Whole elements -/

/-- An element with content. -/
theorem Continues.traces {o : Opening} {name : Text} {ns : List Node} {w : ℤ} {e : Context}
    (h : Continues o name d ns e) (htag : Trace false c [o.tag] w d) (hshows : Shows o d)
    (hname : o.contentName? = some name) : Trace false c [.ofChildren o.kind (o.tag :: ns)] (w + 1) e := by
  cases h with
  | ended hns hinside hsame hcs hend => exact (Trace.ended htag hshows hname hns hinside hsame hcs hend).le (by omega)
  | unended hns hinside hreport => exact (Trace.unended htag hshows hname hns hinside hreport).le (by omega)

/-- The name of an element with content is one. -/
theorem Shows.contentName {o : Opening} {name : Text} (h : Shows o d) (hname : o.contentName? = some name) :
    ∀ x ∈ name, Html.isNameChar x = true :=
  h.nameChars name (Option.filter_eq_some_iff.1 hname).1

/-- **Elements** are traced if the code and the elements in them are. -/
theorem nestedElement_traces {code element : Parse Node} (hcode : TracesCode code)
    (helement : TracesElement element) : TracesElement (nestedElement code element) := by
  intro c hc
  refine Ends.bind (opening_pays hcode hc) ?_
  rintro o c₁ ⟨h₁, hshows⟩
  split
  case h_1 hnone => exact ⟨(h₁.empty hshows hnone).le (by omega), o.isElement_kind, rfl⟩
  case h_2 name hsome =>
    dsimp only
    split
    case isTrue hraw =>
      refine Ends.bind (rawTextContent_continues hcode (o := o) hraw (hshows.contentName hsome)) fun ns c₂ h₂ => ?_
      exact ⟨h₂.traces h₁ hshows hsome, o.isElement_kind, rfl⟩
    case isFalse hraw =>
      refine Ends.bind (elementContent_continues hcode helement (Bool.eq_false_iff.2 hraw)) fun ns c₂ h₂ => ?_
      exact ⟨h₂.traces h₁ hshows hsome, o.isElement_kind, rfl⟩

/-- Elements past the limit are traced, too. -/
theorem flatElement_traces {code : Parse Node} (hcode : TracesCode code) : TracesElement (flatElement code) := by
  intro c hc
  have hdeep : Trace false c [] 0 c.reportTooDeep := .silent (.tooDeep c)
  have hrest := c.moved_reportTooDeep.rest_eq
  refine Ends.modify_bind (Ends.bind (opening_pays hcode (hrest ▸ hc)) ?_)
  rintro o c₁ ⟨h₁, hshows⟩
  split
  case h_1 hnone => exact ⟨((hdeep.after h₁).empty hshows hnone).le (by omega), o.isElement_kind, rfl⟩
  case h_2 name hsome =>
    split
    case isTrue hraw =>
      refine Ends.bind (rawTextContent_continues hcode (o := o) hraw (hshows.contentName hsome)) fun ns c₂ h₂ => ?_
      exact ⟨h₂.traces (hdeep.after h₁) hshows hsome, o.isElement_kind, rfl⟩
    case isFalse hraw =>
      exact ⟨(h₁.flattened hshows hsome (Bool.eq_false_iff.2 hraw)).le (by omega), o.isElement_kind, rfl⟩

end Parse

/-! ## Levels of nesting -/

/-- The parsers of a level leave traces. -/
structure Level.Traced (l : Level) : Prop where
  code : Parse.TracesCode l.code
  element : Parse.TracesElement l.element
  body : Parse.TracesBody l.body

namespace Level

theorem traced_ground : ground.Traced :=
  have hcode := Parse.embedded_traces Parse.flatBody_traces
  ⟨hcode, Parse.flatElement_traces hcode, Parse.flatBody_traces⟩

theorem Traced.above {inner : Unit → Level} (h : (inner ()).Traced) : (Level.above inner).Traced :=
  have helement := Parse.nestedElement_traces h.code h.element
  ⟨Parse.embedded_traces h.body, helement, Parse.codeBody_traces h.body helement⟩

/-- **At every level of nesting the parsers leave traces.** -/
theorem traced_ofRoom (room : ℕ) : (ofRoom room).Traced := by
  induction room with
  | zero => exact traced_ground
  | succ room ih => exact ih.above

end Level

end Stencil
