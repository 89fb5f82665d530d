import Stencil.Proofs.Chronicles

/-!
# What the parser makes of the source

Whatever the parser makes comes from the source. Every location that it builds, be it for the tree, for
a diagnostic or for an element that stays open, is that of a stretch of the source, and what it takes
for blanks is blank. And it makes no more than the source pays for.

Reports are made in a few places only: where the cursor stands, at names, at transitions and at
declarations. `Placing tr t P` asks for `P` there, and then `P` holds of the places of all reports
(`Trace.places`). Two properties of places follow from it: a place is a stretch of the text, and it ends
with a carriage return only at the end of the text (`Location.Tidy`).

* `Trace.places`, `Trace.spaced`: **where reports are made, and what stands for blanks.**
* `Template.sound_piecesAll`: every piece of a tree is a stretch of its source.
* `Template.length_descendantsAll_le`: **a tree has at most six nodes for each character of the source,
  and two more.**
-/

namespace Stencil

/-! ## Stretches of a text -/

namespace Location

/-- The location is that of a stretch of the text. -/
def Stretch (t : Text) (l : Location) : Prop :=
  ∃ u v w, t = u ++ v ++ w ∧ l = .ofText (({} : Position).after u) v

/-- The location ends with a carriage return only at the end of the text. -/
def Tidy (t : Text) (l : Location) : Prop :=
  l.text.getLast? = some '\r' → l.stop.offset = t.length

variable {t u w : Text} {l : Location}

/-- What is read between two contexts over a text is a stretch of it. -/
theorem Between.stretch (h : l.Between t u w) : l.Stretch t :=
  ⟨u, l.text, w, h.text, h.place⟩

/-- Both parts of a stretch that is split are stretches. -/
theorem Stretch.splitAt (h : l.Stretch t) (n : ℕ) : (l.splitAt n).1.Stretch t ∧ (l.splitAt n).2.Stretch t := by
  obtain ⟨u, v, w, ht, rfl⟩ := h
  have hv := List.take_append_drop n v
  rw [Parse.splitAt_ofText]
  refine ⟨⟨u, v.take n, v.drop n ++ w, ?_, rfl⟩, ⟨u ++ v.take n, v.drop n, w, ?_, ?_⟩⟩
  · rw [ht, List.append_assoc u (v.take n), ← List.append_assoc (v.take n), hv, List.append_assoc]
  · rw [ht, List.append_assoc u (v.take n), hv]
  · rw [Position.after_append]

theorem tidy_empty (p : Position) : (empty p).Tidy t := by
  intro h
  cases h

/-- A stretch without blanks is tidy. -/
theorem tidy_of_not_blank (h : ∀ x ∈ l.text, Text.isBlank x = false) : l.Tidy t := by
  intro hlast
  have := h _ (List.mem_of_getLast? hlast)
  cases this

end Location

/-- At a transition the next character is the transition. -/
theorem Context.take_one_of_atTransition {c : Context} (hne : c.rest ≠ []) (h : c.atTransition = true) :
    c.rest.take 1 = [c.transition] := by
  obtain ⟨x, u, hx⟩ := List.exists_cons_of_ne_nil hne
  unfold Context.atTransition startsTransition at h
  rw [Bool.and_eq_true, beq_iff_eq, hx] at h
  rw [hx, ← h.1]
  rfl

namespace Context.Over

variable {tr : Char} {t : Text} {c : Context} (h : c.Over tr t)

include h

/-- The place of the cursor is that of an empty stretch. -/
theorem stretch_here : (Location.empty c.pos).Stretch t :=
  ⟨c.before.reverse, [], c.rest, by rw [List.append_nil, h.text], by rw [h.pos]; rfl⟩

/-- A declaration ends with its bracket or with the text. -/
theorem tidy_declaration :
    (Location.ofText c.pos (c.rest.take (c.rest.runLength (fun _ u => u.ahead 0 == '>') none + 1))).Tidy t := by
  intro hlast
  rw [Location.text_ofText] at hlast
  generalize hn : c.rest.runLength (fun _ u => u.ahead 0 == '>') none = n at hlast ⊢
  have hstop := Text.drop_runLength (fun u => u.ahead 0 == '>') none c.rest
  rw [hn] at hstop
  rcases hstop with hend | hbracket
  · -- all that is left was read
    have hle : c.rest.length ≤ n + 1 := by
      have := List.drop_eq_nil_iff.1 hend
      omega
    have hall := congrArg List.length h.text
    rw [List.take_of_length_le hle]
    simp only [Location.ofText, Position.offset_after, h.pos]
    rw [hall, List.length_append]
    simp
  · -- the last character is the bracket
    exfalso
    cases hdrop : c.rest.drop n with
    | nil => rw [hdrop] at hbracket; cases hbracket
    | cons x u =>
      rw [hdrop] at hbracket
      have hx : x = '>' := by simpa [Text.ahead] using hbracket
      have hlt : n < c.rest.length := by
        by_contra hge
        rw [List.drop_eq_nil_of_le (by omega)] at hdrop
        cases hdrop
      have hget : c.rest[n]? = some x := by
        rw [← List.head?_drop, hdrop]
        rfl
      rw [List.take_add_one, hget] at hlast
      simp [hx] at hlast

end Context.Over

/-! ## Places of reports -/

namespace Context

/-- All places that are kept for reports fulfil `P`. -/
structure Places (P : Location → Prop) (c : Context) : Prop where
  reports : ∀ x ∈ c.diagnostics, ∃ l, x.location = some l ∧ P l
  flattened : ∀ f ∈ c.flattened, ∀ l, f.location = some l → P l

namespace Places

variable {P : Location → Prop} {c d : Context} (h : c.Places P)

include h

/-- A report is made at a place that fulfils `P`. -/
theorem report {l : Location} (p : Problem) (hl : P l) : (c.report (p.located l)).Places P := by
  refine ⟨fun x hx => ?_, h.flattened⟩
  rcases List.mem_append.1 hx with hx | hx
  · exact h.reports x hx
  · rw [List.mem_singleton.1 hx]
    exact ⟨l, rfl, hl⟩

theorem reportIf {b : Prop} [Decidable b] {l : Location} (p : Problem) (hl : P l) : (c.reportIf b p l).Places P := by
  unfold Context.reportIf
  split
  · exact h.report p hl
  · exact h

/-- The limit is reported at the cursor. -/
theorem reportTooDeep (hl : P (.empty c.pos)) : c.reportTooDeep.Places P := by
  unfold Context.reportTooDeep
  split
  · exact h
  · have hreport := h.report (.nestingTooDeep c.maxDepth) hl
    exact ⟨hreport.reports, hreport.flattened⟩

/-- Entering an element reports nothing. -/
theorem entered (name : Text) : (c.entered name).Places P := by
  unfold Context.entered
  split
  · exact h
  · exact ⟨h.reports, h.flattened⟩

theorem left (name : Text) : (c.left name).Places P := by
  unfold Context.left
  split
  · exact h
  · exact ⟨h.reports, h.flattened⟩

/-- A flattened element is kept with its place. -/
theorem pushFlattened (name : Text) {place : Option Location} (hplace : ∀ l, place = some l → P l) :
    (c.pushFlattened name place).Places P := by
  refine ⟨h.reports, fun f hf => ?_⟩
  rcases List.mem_cons.1 hf with rfl | hf
  · exact hplace
  · exact h.flattened f hf

theorem truncateFlattened (n : ℕ) : (c.truncateFlattened n).Places P :=
  ⟨h.reports, fun f hf => h.flattened f (List.mem_of_mem_drop hf)⟩

/-- Reading blanks reports nothing. -/
theorem blanks {l : Option Location} (hd : Parse.blanks c = (l, d)) : d.Places P := by
  obtain ⟨-, -, rfl⟩ | ⟨-, -, rfl⟩ := Parse.blanks_cases hd
  · exact h
  · exact ⟨h.reports, h.flattened⟩

end Places

end Context

/-- What `P` must hold of if it is to hold of all places that a run over the text reports at. -/
structure Placing (tr : Char) (t : Text) (P : Location → Prop) : Prop where
  here : ∀ {c : Context}, c.Over tr t → P (.empty c.pos)
  name : ∀ {c : Context} {n : ℕ}, c.Over tr t → (∀ x ∈ c.rest.take n, Text.isBlank x = false) →
    P (.ofText c.pos (c.rest.take n))
  transition : ∀ {c : Context}, c.Over tr t → c.rest ≠ [] → c.atTransition = true →
    P (.ofText c.pos (c.rest.take 1))
  declaration : ∀ {c : Context}, c.Over tr t →
    P (.ofText c.pos (c.rest.take (c.rest.runLength (fun _ u => u.ahead 0 == '>') none + 1)))

/-- Every place of a run is a stretch of the text. -/
theorem Location.stretch_placing (tr : Char) (t : Text) : Placing tr t (Stretch t) where
  here hc := hc.stretch_here
  name hc _ := (hc.between _).stretch
  transition hc _ _ := (hc.between _).stretch
  declaration hc := (hc.between _).stretch

/-- Every place of a run is tidy if the transition character is not blank. -/
theorem Location.tidy_placing {tr : Char} (t : Text) (htr : Text.isBlank tr = false) : Placing tr t (Tidy t) where
  here _ := tidy_empty _
  name _ hn := tidy_of_not_blank hn
  transition hc hne htransition := by
    refine tidy_of_not_blank ?_
    rw [text_ofText, Context.take_one_of_atTransition hne htransition, hc.transition]
    simpa using htr
  declaration hc := hc.tidy_declaration

namespace Node

/-- Where the names in tags stand, `P` holds. -/
def NamesAt (P : Location → Prop) (ns : List Node) : Prop :=
  ∀ m ∈ descendantsAll ns, m.kind.isName = true → ∀ l, m.location? = some l → P l

theorem mem_descendants_of_mem_children {m n : Node} (h : m ∈ n.children) : m ∈ n.descendants := by
  cases n with
  | leaf => cases h
  | branch k cs tv =>
    refine List.mem_cons_of_mem _ (mem_descendantsAll.2 ⟨m, h, ?_⟩)
    rw [descendants_eq_cons]
    exact List.mem_cons_self

namespace NamesAt

variable {P : Location → Prop} {n : Node} {ns ms : List Node}

/-- Names in nodes in a row. -/
theorem append (h : NamesAt P ns) (h' : NamesAt P ms) : NamesAt P (ns ++ ms) := by
  intro m hm
  rw [descendantsAll_append, List.mem_append] at hm
  exact hm.elim (h m) (h' m)

/-- A branch is no name itself. -/
theorem ofChildren (k : Kind) (h : NamesAt P ns) : NamesAt P [.ofChildren k ns] := by
  intro m hm hname l hl
  rw [descendantsAll_singleton, descendants_ofChildren, List.mem_cons] at hm
  rcases hm with rfl | hm
  · cases hl
  · exact h m hm hname l hl

theorem withTrivia (u : Trivia) (h : NamesAt P [n]) : NamesAt P [n.withTrivia u] := by
  intro m hm
  rw [descendantsAll_singleton, descendants_withTrivia, List.mem_cons] at hm
  have hn := h n (by rw [descendantsAll_singleton, descendants_eq_cons]; exact List.mem_cons_self)
  rcases hm with rfl | hm
  · cases n <;> exact hn
  · exact h m (by rw [descendantsAll_singleton, descendants_eq_cons]; exact List.mem_cons_of_mem n hm)

/-- The place of a name in a tag. -/
theorem child (h : NamesAt P [n]) {m : Node} {l : Location} (hm : m ∈ n.children) (hname : m.kind.isName = true)
    (hl : m.location? = some l) : P l := by
  refine h m ?_ hname l hl
  rw [descendantsAll_singleton]
  exact mem_descendants_of_mem_children hm

/-- A leaf is a name only if its kind says so. -/
theorem leaf {k : Kind} {v : Leaf} {l : Location} (hl : k.isName = true → P l) : NamesAt P [.leaf k v l {}] := by
  intro m hm hname l' hl'
  obtain rfl : m = .leaf k v l {} := by simpa [descendantsAll, descendants] using hm
  cases hl'
  exact hl hname

end NamesAt

end Node

namespace Placing

open Context Node

variable {tr : Char} {t : Text} {P : Location → Prop} (hP : Placing tr t P) {c d : Context} {n : Node} {w : ℤ}

include hP

/-- A missing end tag is reported at its start tag, or at the cursor. -/
theorem reportMissingEnd (hc : c.Over tr t) (h : c.Places P) {name : Text} {place : Option Location}
    (hplace : ∀ l, place = some l → P l) :
    (c.report ((Problem.missingEndTag name).located (place.getD (.empty c.pos)))).Places P := by
  refine h.report _ ?_
  cases place with
  | none => exact hP.here hc
  | some l => exact hplace l rfl

/-- Elements that are closed are reported where they were flattened. -/
theorem closeFlattened (hc : c.Over tr t) (h : c.Places P) (base : ℕ) :
    (Parse.closeFlattened base c).2.Places P := by
  have hreports : ∀ (fs : List Flattened), (∀ f ∈ fs, ∀ l, f.location = some l → P l) →
      ∀ d : Context, d.Over tr t → d.Places P →
        ((fs.forM fun f => Parse.reportMissingEnd f.name f.location : Parse Unit) d).2.Places P := by
    intro fs
    induction fs with
    | nil => exact fun _ d _ h => h
    | cons f fs ih =>
      intro hfs d hd h
      have hfirst : (Parse.reportMissingEnd f.name f.location d).2.Places P :=
        hP.reportMissingEnd hd h (hfs f List.mem_cons_self)
      exact ih (fun g hg => hfs g (List.mem_cons_of_mem f hg)) _ (hd.moved (moved_report _ _)) hfirst
  have hgone : ∀ f ∈ c.flattenedFrom base, ∀ l, f.location = some l → P l := fun f hf =>
    h.flattened f (List.mem_of_mem_take hf)
  exact hreports _ hgone _ (hc.moved (moved_truncateFlattened _ base)) (h.truncateFlattened base)

/-- Steps without a node report at the cursor. -/
theorem silent (hc : c.Over tr t) (h : c.Places P) (hd : c.SilentStep d) : d.Places P := by
  cases hd with
  | tooDeep => exact h.reportTooDeep (hP.here hc)
  | skip => exact ⟨h.reports, h.flattened⟩
  | close base => exact hP.closeFlattened hc h base
  | cutOff => exact h.report _ (hP.here hc)

/-- **A leaf is placed where it was read.** -/
theorem leafStep (hc : c.Over tr t) (h : c.Places P) (hn : c.LeafStep n w d) : d.Places P ∧ NamesAt P [n] := by
  cases hn with
  | token m _ hblank => exact ⟨⟨h.reports, h.flattened⟩, .leaf fun hname => hP.name hc (hblank hname)⟩
  | absent => exact ⟨h.report _ (hP.here hc), .leaf fun _ => hP.here hc⟩
  | sign c₁ hlead _ htrail =>
    have h₁ := h.blanks hlead
    have h₂ : (c₁.read 1).2.Places P := ⟨h₁.reports, h₁.flattened⟩
    exact ⟨h₂.blanks htrail, .withTrivia _ (.leaf nofun)⟩
  | marker => exact ⟨⟨h.reports, h.flattened⟩, .leaf nofun⟩
  | escaped => exact ⟨⟨h.reports, h.flattened⟩, .leaf nofun⟩
  | invalid hne htransition =>
    have h₁ : (c.read 1).2.Places P := ⟨h.reports, h.flattened⟩
    exact ⟨h₁.report _ (hP.transition hc hne htransition), .leaf nofun⟩
  | declaration m known _ hm =>
    have h₁ : (c.read (m + 1)).2.Places P := ⟨h.reports, h.flattened⟩
    have hplace := hm ▸ hP.declaration hc
    exact ⟨(h₁.reportIf _ hplace).reportIf _ hplace, .leaf nofun⟩
  | literal c₁ m hlead =>
    have h₁ := h.blanks hlead
    exact ⟨⟨h₁.reports, h₁.flattened⟩, .withTrivia _ (.leaf nofun)⟩
  | blank hblank => exact ⟨h.blanks hblank, .leaf nofun⟩

end Placing

open Context Node Parse in
/-- **Where reports are made.** A property of the places at which a run can report holds of all reports
along a trace, and of the names in its nodes. -/
theorem Trace.places {tr : Char} {t : Text} {P : Location → Prop} (hP : Placing tr t P) {b : Bool}
    {c d : Context} {ns : List Node} {w : ℤ} (h : Trace b c ns w d) (hc : c.Over tr t) (hplaces : c.Places P) :
    d.Places P ∧ NamesAt P ns := by
  -- an element that is flattened or left open is reported at its name, which its tag has as a child
  have hopened : ∀ {o : Opening} {d : Context}, Shows o d → NamesAt P [o.tag] → ∀ l, o.place = some l → P l := by
    intro o d hshows hnames l hl
    obtain ⟨name, hmem, hkind, hplace⟩ := hshows.place l hl
    exact hnames.child hmem (by rw [hkind]; rfl) hplace
  induction h with
  | nil => exact ⟨hplaces, nofun⟩
  | append hns _ ih ih' =>
    obtain ⟨u, hu⟩ := hns.moved
    obtain ⟨h₁, hnames⟩ := ih hc hplaces
    obtain ⟨h₂, hnames'⟩ := ih' (hc.moved hu) h₁
    exact ⟨h₂, hnames.append hnames'⟩
  | le _ _ ih => exact ih hc hplaces
  | loosen _ ih => exact ih hc hplaces
  | text => exact ⟨⟨hplaces.reports, hplaces.flattened⟩, .leaf nofun⟩
  | silent h => exact ⟨hP.silent hc hplaces h, nofun⟩
  | leaf h => exact hP.leafStep hc hplaces h
  | lead hlead _ _ _ ih =>
    obtain ⟨u, hu⟩ := (blanks_reads hlead).moved
    obtain ⟨h₁, hnames⟩ := ih (hc.moved hu) (hplaces.blanks hlead)
    exact ⟨h₁, hnames.withTrivia _⟩
  | frame _ _ ih =>
    obtain ⟨h₁, hnames⟩ := ih hc hplaces
    exact ⟨h₁, hnames.ofChildren _⟩
  | value _ _ ih =>
    obtain ⟨h₁, hnames⟩ := ih hc hplaces
    exact ⟨h₁, hnames.ofChildren _⟩
  | repeated _ _ hmem hkind hl ih =>
    obtain ⟨h₁, hnames⟩ := ih hc hplaces
    exact ⟨h₁.report _ (hnames.child hmem (by rw [hkind]; rfl) hl), hnames⟩
  | @region c d _ R _ _ _ _ hR _ _ hmoved _ hstop ih =>
    obtain ⟨h₁, hnames⟩ := ih hc hplaces
    have hd := hc.moved hmoved
    have hkind : R.stopKind.isName = false := by rcases hR with rfl | rfl <;> rfl
    cases hstop with
    | missing => exact ⟨h₁.report _ (hP.here hd), (hnames.append (.leaf (by simp [hkind]))).ofChildren _⟩
    | token => exact ⟨⟨h₁.reports, h₁.flattened⟩, (hnames.append (.leaf (by simp [hkind]))).ofChildren _⟩
  | @orphan c d cs p _ hcs _ _ ih =>
    obtain ⟨u, hu⟩ := hcs.moved
    obtain ⟨h₁, hnames⟩ := ih hc hplaces
    have htag := hnames.ofChildren .htmlEndTag
    refine ⟨h₁.report _ ?_, htag⟩
    -- a stray end tag is reported at its name, or at the cursor if it has none
    cases hname : ((Node.ofChildren .htmlEndTag cs).child? .htmlTagName).bind Node.location? with
    | none => exact hP.here (hc.moved hu)
    | some l =>
      obtain ⟨name, hchild, hl⟩ := Option.bind_eq_some_iff.1 hname
      have hkind : name.kind = .htmlTagName := by simpa using List.find?_some hchild
      exact htag.child (List.mem_of_find?_eq_some hchild) (by rw [hkind]; rfl) hl
  | @flattenedEnd c _ _ _ _ i _ _ _ _ _ ih =>
    have hclosed := (closeFlattened_moved (i + 1) c).trans_stay (moved_truncateFlattened _ i)
    obtain ⟨h₁, hnames⟩ := ih (hc.moved hclosed) ((hP.closeFlattened hc hplaces (i + 1)).truncateFlattened i)
    exact ⟨h₁, hnames.ofChildren _⟩
  | empty _ _ _ ih =>
    obtain ⟨h₁, hnames⟩ := ih hc hplaces
    exact ⟨h₁, hnames.ofChildren _⟩
  | @ended _ d _ _ _ name _ _ _ _ _ htag _ _ hns _ _ _ _ iho ih ihend =>
    obtain ⟨u, hu⟩ := htag.moved
    obtain ⟨v, hv⟩ := hns.moved
    have hd := (hc.moved hu).moved (d.moved_entered name)
    obtain ⟨h₁, hnames₁⟩ := iho hc hplaces
    obtain ⟨h₂, hnames₂⟩ := ih hd (h₁.entered name)
    obtain ⟨h₃, hnames₃⟩ := ihend (hd.moved hv) h₂
    exact ⟨h₃.left name, (hnames₁.append (hnames₂.append (hnames₃.ofChildren .htmlEndTag))).ofChildren _⟩
  | @unended _ d e _ name _ _ _ _ _ htag hshows _ hns _ hreport iho ih =>
    obtain ⟨u, hu⟩ := htag.moved
    obtain ⟨v, hv⟩ := hns.moved
    have hd := (hc.moved hu).moved (d.moved_entered name)
    obtain ⟨h₁, hnames₁⟩ := iho hc hplaces
    obtain ⟨h₂, hnames₂⟩ := ih hd (h₁.entered name)
    refine ⟨Places.left ?_ name, (hnames₁.append hnames₂).ofChildren _⟩
    cases hreport with
    | content => exact hP.reportMissingEnd (hd.moved hv) h₂ (hopened hshows hnames₁)
    | raw => exact h₂.report _ (hP.here (hd.moved hv))
  | flattened _ hshows _ _ ih =>
    obtain ⟨h₁, hnames⟩ := ih (hc.moved (moved_reportTooDeep _)) (hplaces.reportTooDeep (hP.here hc))
    exact ⟨h₁.pushFlattened _ (hopened hshows hnames), hnames.ofChildren _⟩

/-! ## Blanks -/

namespace Node

/-- The node is a token whose text fulfils `P`. -/
def HasText (P : Text → Prop) (n : Node) : Prop :=
  ∃ l, n.location? = some l ∧ n.value? = some l.text ∧ P l.text

/-- The blanks on one side of a node are blanks. -/
def BlankSide (side : Option Location) : Prop :=
  ∀ l, side = some l → l.text.Blanks

/-- Blanks at the node, and the node itself if it stands for blanks, are some blanks and nothing
else. -/
structure Spaced (n : Node) : Prop where
  lead : BlankSide n.trivia.lead
  trail : BlankSide n.trivia.trail
  blank : n.kind = .trivia → n.HasText Text.Blanks

variable {k : Kind} {n : Node} {ns : List Node}

theorem blankSide_none : BlankSide none := by
  intro l h
  cases h

theorem blankSide_some {l : Location} (h : l.text.Blanks) : BlankSide (some l) := by
  intro l' hl
  cases hl
  exact h

/-- What is read as blanks is blank. -/
theorem blankSide_blanks {c d : Context} {l : Option Location} (h : Parse.blanks c = (l, d)) : BlankSide l := by
  obtain ⟨-, rfl, -⟩ | ⟨hne, rfl, -⟩ := Parse.blanks_cases h
  · exact blankSide_none
  · exact blankSide_some (Text.blanks_take_blanksAhead hne)

/-- So is what is cut off at the end of a text. -/
theorem blankSide_trailing (p : Position) {t : Text} (h : t.allBlank = true) :
    BlankSide (Context.trailing p t) := by
  unfold Context.trailing
  split
  case isTrue => exact blankSide_none
  case isFalse hne => exact blankSide_some ⟨hne, h⟩

theorem hasText_withTrivia {P : Text → Prop} (u : Trivia) : (n.withTrivia u).HasText P ↔ n.HasText P := by
  rcases n with ⟨k, v, l, tv⟩ | ⟨k, cs, tv⟩
  · cases v <;> rfl
  · rfl

theorem spaced_leaf (v : Leaf) (l : Location) (hk : k ≠ .trivia) : (leaf k v l {}).Spaced :=
  ⟨blankSide_none, blankSide_none, fun h => absurd h hk⟩

theorem spaced_ofChildren (ns : List Node) (hk : k ≠ .trivia) : (ofChildren k ns).Spaced :=
  ⟨blankSide_none, blankSide_none, fun h => absurd h hk⟩

/-- Blanks on its sides do not change what a node is. -/
theorem Spaced.withTrivia {u : Trivia} (h : n.Spaced) (hlead : BlankSide u.lead) (htrail : BlankSide u.trail) :
    (n.withTrivia u).Spaced := by
  have hblank : (n.withTrivia u).kind = .trivia → (n.withTrivia u).HasText Text.Blanks := by
    rw [kind_withTrivia, hasText_withTrivia]
    exact h.blank
  cases n <;> exact ⟨hlead, htrail, hblank⟩

/-- What holds of a new node and of all nodes below it. -/
theorem forall_descendantsAll_ofChildren {P : Node → Prop} (hn : P (ofChildren k ns))
    (h : ∀ m ∈ descendantsAll ns, P m) : ∀ m ∈ descendantsAll [ofChildren k ns], P m := by
  rw [descendantsAll_singleton, descendants_ofChildren]
  exact List.forall_mem_cons.2 ⟨hn, h⟩

theorem forall_descendantsAll_leaf {P : Node → Prop} {v : Leaf} {l : Location} {u : Trivia}
    (hn : P (leaf k v l u)) : ∀ m ∈ descendantsAll [leaf k v l u], P m := by
  simpa [descendantsAll, descendants] using hn

/-- Other blanks at a node leave the nodes below it as they are. -/
theorem forall_descendantsAll_withTrivia {P : Node → Prop} {u : Trivia} (h : ∀ m ∈ descendantsAll [n], P m)
    (hn : P n → P (n.withTrivia u)) : ∀ m ∈ descendantsAll [n.withTrivia u], P m := by
  rw [descendantsAll_singleton, descendants_eq_cons, List.forall_mem_cons] at h
  rw [descendantsAll_singleton, descendants_withTrivia]
  exact List.forall_mem_cons.2 ⟨hn h.1, h.2⟩

end Node

open Context Node in
/-- Leaves have nothing but blanks on their sides. -/
theorem Context.LeafStep.spaced {c d : Context} {n : Node} {w : ℤ} (h : c.LeafStep n w d) : n.Spaced := by
  cases h with
  | token _ hk => exact spaced_leaf _ _ (by rintro rfl; cases hk)
  | @absent k _ hp => exact spaced_leaf _ _ (by rintro rfl; have := Code.canMiss_of_missing? hp; cases this)
  | sign _ hlead _ htrail =>
    exact (spaced_leaf _ _ (by decide)).withTrivia (blankSide_blanks hlead) (blankSide_blanks htrail)
  | marker => exact spaced_leaf _ _ (by decide)
  | escaped => exact spaced_leaf _ _ (by decide)
  | invalid => exact spaced_leaf _ _ (by decide)
  | declaration => exact spaced_leaf _ _ (by decide)
  | literal _ _ hlead _ _ _ _ _ hblank =>
    exact (spaced_leaf _ _ (by decide)).withTrivia (blankSide_blanks hlead) (blankSide_trailing _ hblank)
  | blank hblank => exact ⟨blankSide_none, blankSide_none, fun _ => ⟨_, rfl, rfl, blankSide_blanks hblank _ rfl⟩⟩

open Context Node Parse in
/-- **Only blanks stand for blanks along a trace.** -/
theorem Trace.spaced {b : Bool} {c d : Context} {ns : List Node} {w : ℤ} (h : Trace b c ns w d) :
    ∀ m ∈ descendantsAll ns, m.Spaced := by
  have happend : ∀ {ns ms : List Node}, (∀ m ∈ descendantsAll ns, m.Spaced) → (∀ m ∈ descendantsAll ms, m.Spaced) →
      ∀ m ∈ descendantsAll (ns ++ ms), m.Spaced := by
    intro ns ms h h'
    rw [descendantsAll_append]
    exact List.forall_mem_append.2 ⟨h, h'⟩
  have hnode : ∀ {k : Kind} {ns : List Node}, k ≠ .trivia → (∀ m ∈ descendantsAll ns, m.Spaced) →
      ∀ m ∈ descendantsAll [ofChildren k ns], m.Spaced := fun hk =>
    forall_descendantsAll_ofChildren (spaced_ofChildren _ hk)
  -- no node that takes children is blank text
  have helement : ∀ o : Opening, o.kind ≠ .trivia := by
    intro o hk
    have := o.isElement_kind
    rw [hk] at this
    cases this
  induction h with
  | nil => exact nofun
  | append _ _ ih ih' => exact happend ih ih'
  | le _ _ ih => exact ih
  | loosen _ ih => exact ih
  | text => exact forall_descendantsAll_leaf (spaced_leaf _ _ (by decide))
  | silent => exact nofun
  | @leaf _ _ n _ h =>
    have hspaced := h.spaced
    cases h <;> exact forall_descendantsAll_leaf hspaced
  | @lead _ _ _ n _ _ hlead _ hplain _ ih =>
    refine forall_descendantsAll_withTrivia ih fun hn => hn.withTrivia (blankSide_blanks hlead) ?_
    rw [hplain]
    exact blankSide_none
  | frame _ hframe ih => exact hnode (by rintro rfl; cases hframe.frame) ih
  | value _ _ ih => exact hnode (by decide) ih
  | repeated _ _ _ _ _ ih => exact ih
  | region hR _ _ _ _ hstop ih =>
    refine hnode (by rcases hR with rfl | rfl <;> decide) (happend ih ?_)
    cases hstop <;> rcases hR with rfl | rfl <;> exact forall_descendantsAll_leaf (spaced_leaf _ _ (by decide))
  | orphan _ _ _ ih => exact hnode (by decide) ih
  | flattenedEnd _ _ _ _ ih => exact hnode (by decide) ih
  | empty _ _ _ ih => exact hnode (helement _) ih
  | ended _ _ _ _ _ _ _ _ htag hns hend =>
    exact hnode (helement _) (happend htag (happend hns (hnode (by decide) hend)))
  | unended _ _ _ _ _ _ htag hns => exact hnode (helement _) (happend htag hns)
  | flattened _ _ _ _ ih => exact hnode (helement _) ih

/-! ## Pieces -/

namespace Piece

/-- Whether a piece stands for blanks: those around a node, or a leaf of blanks alone. -/
def isBlank : Piece → Bool
  | blank _ => true
  | leaf k _ _ => k == .trivia

/-- The piece is a stretch of the text, and it is blank if it stands for blanks. -/
structure Sound (t : Text) (p : Piece) : Prop where
  stretch : p.location.Stretch t
  blank : p.isBlank = true → p.location.text.allBlank = true

end Piece

namespace Node

theorem BlankSide.allBlank {l : Option Location} (h : BlankSide l) :
    ∀ p ∈ blankPieces l, p.location.text.allBlank = true := by
  intro p hp
  obtain ⟨l', hl', rfl⟩ := List.mem_map.1 hp
  exact (h l' (Option.mem_toList.1 hl')).2

mutual

/-- **The blank pieces of a node are blank**, by induction on the tree. -/
theorem allBlank_of_mem_pieces : ∀ n : Node, (∀ m ∈ n.descendants, m.Spaced) →
    ∀ p ∈ n.pieces, p.isBlank = true → p.location.text.allBlank = true
  | leaf k v l u, h, p, hp, hblank => by
    have hspaced := h _ (by rw [descendants_eq_cons]; exact List.mem_cons_self)
    rw [pieces, List.mem_append, List.mem_append, List.mem_singleton] at hp
    rcases hp with (hp | rfl) | hp
    · exact hspaced.lead.allBlank p hp
    · obtain ⟨l', hl, -, hblanks⟩ := hspaced.blank (by simpa [Piece.isBlank, kind] using hblank)
      cases hl
      exact hblanks.2
    · exact hspaced.trail.allBlank p hp
  | branch k cs u, h, p, hp, hblank => by
    have hspaced := h _ (by rw [descendants_eq_cons]; exact List.mem_cons_self)
    rw [pieces, List.mem_append, List.mem_append] at hp
    rcases hp with (hp | hp) | hp
    · exact hspaced.lead.allBlank p hp
    · exact allBlank_of_mem_piecesAll cs (fun m hm => h m (List.mem_cons_of_mem _ hm)) p hp hblank
    · exact hspaced.trail.allBlank p hp

/-- What stands for blanks in a tree is blank. -/
theorem allBlank_of_mem_piecesAll : ∀ ns : List Node, (∀ m ∈ descendantsAll ns, m.Spaced) →
    ∀ p ∈ piecesAll ns, p.isBlank = true → p.location.text.allBlank = true
  | [], _, p, hp, _ => by cases hp
  | n :: ns, h, p, hp, hblank => by
    rw [descendantsAll, List.forall_mem_append] at h
    rw [piecesAll_cons, List.mem_append] at hp
    rcases hp with hp | hp
    · exact allBlank_of_mem_pieces n h.1 p hp hblank
    · exact allBlank_of_mem_piecesAll ns h.2 p hp hblank

end

end Node

/-- What is read of a text lies in stretches of it. -/
theorem Context.Over.stretch_reads {tr : Char} {t : Text} {c d : Context} {ps : List Piece} (hc : c.Over tr t)
    (h : c.Reads ps d) : ∀ p ∈ ps, p.location.Stretch t := by
  obtain ⟨ts, hts, hmoved⟩ := h
  intro p hp
  have hmem := List.mem_map_of_mem (f := Piece.location) hp
  rw [hts] at hmem
  obtain ⟨u, v, w, huvw, hl⟩ := Location.mem_tile hmem
  refine ⟨c.before.reverse ++ u, v, w ++ d.rest, ?_, ?_⟩
  · rw [hc.text, hmoved.rest, huvw]
    simp
  · rw [hl, hc.pos, Position.after_append]

/-! ## Templates -/

namespace Template

variable (options : ParseOptions) (t : Text)

/-- A property of the places at which a run can report holds of all reports of a template. -/
theorem places_document {P : Location → Prop} (hP : Placing options.transition t P) :
    (document options t).2.Places P := by
  have hstart : (Context.atDocument options t).Places P := ⟨nofun, nofun⟩
  exact ((document_traced options t).places hP (Context.over_atDocument options t) hstart).1

/-- Every report of a template is about a stretch of it. -/
theorem stretch_diagnostics : ∀ x ∈ (document options t).2.diagnostics, ∃ l, x.location = some l ∧ l.Stretch t :=
  (places_document options t (Location.stretch_placing _ t)).reports

/-- No report of a template stops at a carriage return, unless it is the last character. -/
theorem tidy_diagnostics (h : Text.isBlank options.transition = false) :
    ∀ x ∈ (document options t).2.diagnostics, ∃ l, x.location = some l ∧ l.Tidy t :=
  (places_document options t (Location.tidy_placing t h)).reports

/-- **Every piece of a tree is a stretch of its source**, and what stands for blanks is
blank. -/
theorem sound_piecesAll : ∀ p ∈ Node.piecesAll [(document options t).1,
    .marker .endOfFile (.empty (document options t).2.pos)], p.Sound t := by
  have htrace := document_traced options t
  have hstart := Context.over_atDocument options t
  obtain ⟨u, hu⟩ := htrace.moved
  rw [← List.singleton_append, Node.piecesAll_append]
  refine List.forall_mem_append.2 ⟨fun p hp => ?_, fun p hp => ?_⟩
  · exact ⟨hstart.stretch_reads htrace.reads p hp, Node.allBlank_of_mem_piecesAll _ htrace.spaced p hp⟩
  · rw [Node.piecesAll_cons, Node.pieces_marker, Node.piecesAll_nil, List.append_nil, List.mem_singleton] at hp
    exact hp ▸ ⟨(hstart.moved hu).stretch_here, by simp [Piece.isBlank]⟩

/-- **A tree has at most six nodes for each character of the source, and two more**: the
document and the end of the file. -/
theorem length_descendantsAll_le :
    (Node.descendantsAll [(document options t).1,
      .marker .endOfFile (.empty (document options t).2.pos)]).length ≤ 6 * t.length + 2 := by
  have hsize := (document_traced options t).size
  have hstart : (Context.atDocument options t).rest = t := rfl
  rw [← List.singleton_append, Node.descendantsAll_append, List.length_append]
  have hend : ∀ p, (Node.descendantsAll [.marker .endOfFile (.empty p)]).length = 1 := fun _ => rfl
  rw [hend]
  rw [hstart] at hsize
  omega

end Template

end Stencil
