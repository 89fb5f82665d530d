import Stencil.Proofs.Tracing

/-!
# Every loop of the grammar reads on

`ReadOn c d`: from `c` to `d` the cursor has moved on over at least one
character. A trace whose nodes are paid for by what was read has read on, so a
parser that is called before the end of the template does. The guard of
`Parse.many` never ends a loop.

* `Trace.readOn`: **a node that is paid for has been read.**
* `documentPart_readOn` and the other turns of loops: a turn that gives a node
  has read on.
-/

namespace Stencil

namespace Context

/-- From `c` to `d` the cursor has moved on over at least one character. -/
def ReadOn (c d : Context) : Prop :=
  ∃ t, t ≠ [] ∧ c.Moved t d

variable {c d e : Context} {t : Text}

theorem ReadOn.moved (h : c.ReadOn d) (h' : d.Moved t e) : c.ReadOn e := by
  obtain ⟨u, hu, hm⟩ := h
  exact ⟨u ++ t, by simp [hu], hm.trans h'⟩

theorem Moved.readOn (h : c.Moved t d) (h' : d.ReadOn e) : c.ReadOn e := by
  obtain ⟨u, hu, hm⟩ := h'
  exact ⟨t ++ u, by simp [hu], h.trans hm⟩

theorem ReadOn.length_lt (h : c.ReadOn d) : d.rest.length < c.rest.length := by
  obtain ⟨t, ht, hm⟩ := h
  have hpos := List.length_pos_iff.2 ht
  rw [hm.rest, List.length_append]; omega

end Context

/-- **A node that is paid for by what was read has been read.** -/
theorem Trace.readOn {b : Bool} {c d : Context} {n : Node} (h : Trace b c [n] 0 d) : c.ReadOn d := by
  obtain ⟨t, ht⟩ := h.moved
  refine ⟨t, ?_, ht⟩
  rintro rfl
  have hlt := h.length_lt
  rw [ht.rest_eq] at hlt
  exact Nat.lt_irrefl _ hlt

namespace Parse

open Context

variable {c : Context} {code element : Parse Node} {body : Parse (List Node)}

/-- A turn that gives the nodes of a trace has read on if it gives one. -/
theorem Ends.readOn {b : Bool} {turn : Parse (Option Node)} {P : Option Node → Prop}
    (h : Ends turn c fun r d => Trace b c r.toList 0 d ∧ P r) : Ends turn c fun r d => r ≠ none → c.ReadOn d := by
  refine h.imp ?_
  rintro (_ | n) d ⟨htrace, -⟩ hne
  · exact absurd rfl hne
  · exact htrace.readOn

theorem NodesGoOn.of_readOn {step : Parse (Option Node)}
    (h : ∀ c, Ends step c fun r d => r ≠ none → c.ReadOn d) : NodesGoOn step := by
  intro c n d hturn
  exact ((h c).of_eq hturn (by simp)).length_lt

/-! ## Code, values and raw text -/

/-- A turn of a body that gives a node has read on. -/
theorem bodyPart_readOn (hbody : TracesBody body) (helement : TracesElement element) (last : Option Char) :
    Ends (bodyPart body element last) c fun r d => r ≠ none → c.ReadOn d := by
  refine (bodyPart_traces hbody helement last).imp ?_
  rintro (_ | r) d ⟨htrace, -⟩ hne
  · exact absurd rfl hne
  · exact htrace.readOn

/-- A turn of an attribute value that gives a node has read on. -/
theorem valuePart_readOn (hcode : TracesCode code) (ends : Text → Bool) :
    Ends (valuePart code ends) c fun r d => r ≠ none → c.ReadOn d :=
  Ends.readOn (valuePart_traces hcode ends)

/-- A turn of raw text that gives a node has read on. -/
theorem rawTextPart_readOn (hcode : TracesCode code) (name : Text) :
    Ends (rawTextPart code name) c fun r d => r ≠ none → c.ReadOn d := by
  refine (rawTextPart_traces hcode).imp ?_
  rintro (_ | n) d ⟨-, hsome⟩ hne
  · exact absurd rfl hne
  · exact (hsome n rfl).1.readOn

/-! ## Attributes -/

theorem blanks_readOn (hc : c.rest ≠ []) (hb : Text.isBlank (c.rest.ahead 0) = true) :
    Ends blanks c fun _ d => c.ReadOn d := by
  have hpos := Text.blanksAhead_pos hc hb
  rw [Ends, blanks_apply, if_neg hpos.ne']
  refine ⟨_, ?_, c.moved_read _⟩
  rw [Ne, List.take_eq_nil_iff, not_or]
  exact ⟨hpos.ne', hc⟩

theorem attributeNode_moved (hcode : TracesCode code) (lead : Option Location) :
    Ends (attributeNode code lead) c fun _ d => ∃ t, c.Moved t d := by
  have hname : Ends attributeName c fun _ d => ∃ t, c.Moved t d := by
    refine Ends.get_bind ?_
    split
    · exact (absent_moved _ _).imp fun _ _ h => ⟨_, h⟩
    · exact (token_ends _ _).imp fun _ _ h => ⟨_, h.2⟩
  refine Ends.bind hname ?_
  rintro name c₁ ⟨t, ht⟩
  refine Ends.bind (attributeRest_traces hcode (.inl rfl)) fun rest c₂ h₂ => ?_
  obtain ⟨u, hu⟩ := h₂.1.moved
  exact Ends.pure ⟨t ++ u, ht.trans hu⟩

/-- Where no blank stands, an attribute reads on. What it reads does not depend on the blanks that it
is given. -/
theorem attributeNode_readOn (hcode : TracesCode code) (lead : Option Location) (hc : c.rest ≠ [])
    (hend : c.rest.endsTag = false) (hblank : Text.isBlank (c.rest.ahead 0) = false) :
    Ends (attributeNode code lead) c fun _ d => c.ReadOn d := by
  have hnone : blanks c = (none, c) := by
    rw [blanks_apply, if_pos]
    obtain ⟨x, u, hx⟩ := List.exists_cons_of_ne_nil hc
    have hx' : Text.isBlank x = false := by rwa [hx] at hblank
    simp [hx, Text.blanksAhead, hx']
  exact (attributeNode_traces hcode hnone hc hend).1.readOn

/-- A turn of the attributes that gives a node has read on: an attribute, or the
blanks at the cursor. -/
theorem attributePart_readOn (hcode : TracesCode code) (s : AttributeState) :
    Ends (attributePart code s) c fun r d => r ≠ none → c.ReadOn d := by
  have hblanks : ∀ c, Ends blanks c fun _ d => ∃ t, c.Moved t d := fun c =>
    (blanks_reads (c := c) rfl).moved
  have hcheck : ∀ seen name c, Ends (checkName seen name) c fun _ d => c.Moved [] d := by
    intro seen name c
    unfold checkName
    split
    · split
      · exact c.moved_report _
      · exact .refl c
    · exact .refl c
  refine Ends.get_bind ?_
  split
  case isTrue => exact Ends.pure fun h => absurd rfl h
  case isFalse hgo =>
    simp only [Bool.or_eq_true, not_or, Bool.not_eq_true] at hgo
    have hc := rest_ne_nil_of_not_atEnd (Bool.eq_false_iff.1 hgo.1)
    split
    case isTrue hat =>
      refine Ends.bind (hcode c hc hat) fun n c₁ h₁ => Ends.bind (hblanks c₁) ?_
      rintro lead c₂ ⟨t, ht⟩
      exact Ends.pure fun _ => h₁.trace.readOn.moved ht
    case isFalse =>
      cases hblank : Text.isBlank (c.rest.ahead 0) with
      | false =>
        refine Ends.bind (attributeNode_readOn hcode s.lead hc hgo.2 hblank) fun r c₁ h₁ => ?_
        refine Ends.bind (hcheck _ _ c₁) fun seen c₂ h₂ => Ends.bind (hblanks c₂) ?_
        rintro lead c₃ ⟨t, ht⟩
        exact Ends.pure fun _ => (h₁.moved h₂).moved ht
      | true =>
        -- an attribute may be empty before blanks; they are read after it then
        refine Ends.bind (attributeNode_moved hcode s.lead) ?_
        rintro r c₁ ⟨t, ht⟩
        refine Ends.bind (hcheck _ _ c₁) fun seen c₂ h₂ => ?_
        have h₁₂ := ht.trans_stay h₂
        by_cases hnil : t = []
        · have heq := (hnil ▸ h₁₂).rest_eq
          refine Ends.bind (blanks_readOn (heq ▸ hc) (heq ▸ hblank)) fun _ c₃ h₃ => ?_
          exact Ends.pure fun _ => h₁₂.readOn h₃
        · refine Ends.bind (hblanks c₂) ?_
          rintro lead c₃ ⟨u, hu⟩
          exact Ends.pure fun _ => ReadOn.moved ⟨t, hnil, h₁₂⟩ hu

/-! ## Content -/

section

variable (hcode : TracesCode code) (helement : TracesElement element)

include hcode helement

/-- A turn of a document that gives a node has read on. -/
theorem documentPart_readOn (base : ℕ) :
    Ends (documentPart code element base) c fun r d => r ≠ none → c.ReadOn d :=
  Ends.readOn (documentPart_traces hcode helement base)

/-- A turn of the content of an element that gives a node has read on. -/
theorem elementPart_readOn (name : Text) (base : ℕ) :
    Ends (elementPart code element name base) c fun r d => r ≠ none → c.ReadOn d :=
  Ends.readOn (elementPart_traces hcode helement name base)

end

/-- A document ends only at the end of the template. -/
theorem documentPart_none {base : ℕ} {d : Context} (h : documentPart code element base c = (none, d)) :
    c.rest = [] ∧ d = c := by
  have hend : Ends (documentPart code element base) c fun r d => r = none → c.rest = [] ∧ d = c := by
    refine Ends.get_bind ?_
    split
    · rename_i hend
      exact Ends.pure fun _ => ⟨by simpa [atEnd] using hend, rfl⟩
    · refine Ends.bind (Q := fun _ _ => True) trivial fun r c1 _ => ?_
      cases r with
      | some tag => exact Ends.pure fun h => by simp at h
      | none => exact Ends.bind (Q := fun _ _ => True) trivial fun n c2 _ => Ends.pure fun h => by simp at h
  exact hend.of_eq h rfl

theorem documentPart_atEnd {base : ℕ} (h : c.rest = []) : documentPart code element base c = (none, c) := by
  have hatEnd : c.atEnd = true := by simp [atEnd, h]
  rw [documentPart, bind_apply, get_apply, hatEnd]; rfl

end Parse

end Stencil
