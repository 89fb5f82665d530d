import Stencil.Proofs.Accounts

/-!
# Chronicles of a run

Some nodes can only be judged by the place where they were read: text must not run over a
transition, and a comment ends where its first terminator stands. An account of a run does not
see that place, a chronicle does.

`A c ns d` says that a chronicle `A` fits the run from the context `c` to the context `d` that
built the nodes `ns`. `Passing A` lists what `A` must let pass: reading, reports, and nodes of
which nothing is asked. `Chronicle A` adds what a run has to note: transitions and the text
between them, regions without code, and elements with raw text. Each is noted with the context
in which it was met.

* `Trace.chronicled`: **every trace keeps every chronicle.**
* `Template.document_chronicled`: so does the whole document.
-/

namespace Stencil

/-- The kinds of which a chronicle asks nothing. -/
def Kind.isOrdinary : Kind → Bool
  | literal | transition | escapedTransition | doctype | comment | cdata | scriptTag | styleTag => false
  | _ => true

/-! ## Contexts over a text -/

/-- The cursor stands in the text, which is read with the transition. -/
structure Context.Over (tr : Char) (t : Text) (c : Context) : Prop where
  text : t = c.before.reverse ++ c.rest
  pos : c.pos = ({} : Position).after c.before.reverse
  transition : c.transition = tr

/-- The location is that of the stretch of the text between `u` and `w`. -/
structure Location.Between (t u w : Text) (l : Location) : Prop where
  text : t = u ++ l.text ++ w
  place : l = .ofText (({} : Position).after u) l.text

namespace Context.Over

variable {tr : Char} {t u : Text} {c d : Context} (h : c.Over tr t)

include h

/-- Reading on stays over the text. -/
theorem moved (hm : c.Moved u d) : d.Over tr t where
  text := by rw [h.text, hm.before, hm.rest]; simp
  pos := by rw [hm.pos, h.pos, hm.before, ← Position.after_append]; simp
  transition := hm.transition.trans h.transition

/-- The next characters are a stretch of the text. -/
theorem between (n : ℕ) :
    (Location.ofText c.pos (c.rest.take n)).Between t c.before.reverse (c.rest.drop n) where
  text := by rw [Location.text_ofText, List.append_assoc, List.take_append_drop, h.text]
  place := by rw [Location.text_ofText, h.pos]

end Context.Over

/-- A document is read from the beginning of its text. -/
theorem Context.over_atDocument (options : ParseOptions) (t : Text) :
    (Context.atDocument options t).Over options.transition t :=
  ⟨rfl, rfl, rfl⟩

/-! ## The rules -/

/-- What a chronicle of a run must let pass. -/
structure Passing (A : Context → List Node → Context → Prop) : Prop where
  trans : ∀ {c d e ns ms}, A c ns d → A d ms e → A c (ns ++ ms) e
  /-- What does not move the cursor and reports nothing. -/
  stay : ∀ {c d}, c.Moved [] d → d.diagnostics = c.diagnostics → A c [] d
  read : ∀ c n, A c [] (c.read n).2
  report : ∀ c l {p : Problem}, p.code.isUnterminated = false → A c [] (c.report (p.located l))
  leaf : ∀ c {k} v l b, k.isOrdinary = true → A c [.leaf k v l b] c
  branch : ∀ {c ns d k}, k.isOrdinary = true → A c ns d → A c [.ofChildren k ns] d
  trivia : ∀ {c n d} b, A c [n] d → A c [n.withTrivia b] d

open Parse in
/-- What a chronicle of a run must allow. -/
structure Chronicle (A : Context → List Node → Context → Prop) : Prop extends Passing A where
  marker : ∀ {c}, c.atTransition = true →
    A c [.marker .transition (.ofText c.pos (c.rest.take 1))] (c.read 1).2
  escaped : ∀ {c}, c.atTransition = true → c.peek = c.transition →
    A c [.leaf .escapedTransition (.token [c.transition]) (.ofText c.pos (c.rest.take 2)) {}] (c.read 2).2
  /-- A transition that introduces nothing is reported where it stands. -/
  invalid : ∀ {c}, c.atTransition = true → A c [.token .literal (.ofText c.pos (c.rest.take 1))]
    ((c.read 1).2.report ((Problem.invalidTransition c.transition).located (.ofText c.pos (c.rest.take 1))))
  /-- Text, of which the last characters may be left out of the node. -/
  literal : ∀ {c m n} b, m ≤ n → c.Free n →
    A c [.leaf .literal (.token (c.rest.take m)) (.ofText c.pos (c.rest.take m)) b] (c.read n).2
  region : ∀ {c d e R x y stop}, R = commentRegion ∨ R = cdataRegion → c.rest = R.start ++ (x ++ y) →
    Text.UpTo (R.stop <+: ·) x y → c.Moved (R.start ++ x) d →
    A c [.token R.startKind (.ofText c.pos R.start), .token R.contentKind (.ofText (c.pos.after R.start) x)] d →
    R.Stops y d stop e → A c [.ofChildren R.kind [.token R.startKind (.ofText c.pos R.start),
      .token R.contentKind (.ofText (c.pos.after R.start) x), stop]] e
  declaration : ∀ {c n} known, c.rest.startsWith ['<', '!'] = true →
    n = c.rest.runLength (fun _ t => t.ahead 0 == '>') none →
    A c [.token .doctype (.ofText c.pos (c.rest.take (n + 1)))]
      ((c.read (n + 1)).2.declared known (.ofText c.pos (c.rest.take (n + 1))))
  /-- An element without content. -/
  empty : ∀ {c d o}, Shows o d → o.contentName? = none → A c [o.tag] d → A c [.ofChildren o.kind [o.tag]] d
  /-- An element with raw text and its end tag. -/
  rawEnded : ∀ {c d e g o name ns tag}, Shows o d → o.contentName? = some name → Html.isRawText name = true →
    A c [o.tag] d → A d ns e → RawText name d ns e → e.rest ≠ [] → A e [tag] g → tag.kind = .htmlEndTag →
    tag.fullStart? = some e.pos → A c [.ofChildren o.kind (o.tag :: (ns ++ [tag]))] g
  /-- An element with raw text up to the end of the template. -/
  rawUnended : ∀ {c d e o name ns}, Shows o d → o.contentName? = some name → Html.isRawText name = true →
    A c [o.tag] d → A d ns e → RawText name d ns e → e.rest = [] → A c [.ofChildren o.kind (o.tag :: ns)]
      (e.report ((Problem.unterminatedRawText name).located (.empty e.pos)))

namespace Passing

variable {A : Context → List Node → Context → Prop} (hA : Passing A) {c d e : Context} {ns : List Node}

include hA

theorem refl (c : Context) : A c [] c :=
  hA.stay (.refl c) rfl

theorem trans_stay (h : A c ns d) (h' : A d [] e) : A c ns e := by
  simpa using hA.trans h h'

/-- A chronicle lets tokens of ordinary kinds pass. -/
theorem token {k : Kind} (hk : k.isOrdinary = true) (l : Location) : A c [.token k l] c :=
  hA.leaf c _ l {} hk

theorem reportTooDeep (c : Context) : A c [] c.reportTooDeep := by
  unfold Context.reportTooDeep
  split
  · exact hA.refl c
  · have hreport := hA.report c (.empty c.pos) (p := .nestingTooDeep c.maxDepth) rfl
    exact hA.trans_stay hreport (hA.stay ⟨rfl, rfl, rfl, rfl, rfl, rfl, rfl⟩ rfl)

end Passing

/-- The kind of an element with content, by its name. -/
theorem Opening.kind_eq {o : Opening} {name : Text} (h : o.contentName? = some name) :
    o.kind = if Html.isScript name then .scriptTag else if Html.isStyle name then .styleTag else .htmlTag := by
  obtain ⟨hname, -⟩ := Option.filter_eq_some_iff.1 h
  rw [Opening.kind, hname]

/-- Nothing is asked of an element with content other than raw text. -/
theorem Opening.isOrdinary_of_not_raw {o : Opening} {name : Text} (h : o.contentName? = some name)
    (hraw : Html.isRawText name = false) : o.kind.isOrdinary = true := by
  rw [← Bool.not_eq_true, Html.isRawText_iff, not_or] at hraw
  rw [kind_eq h, if_neg hraw.1, if_neg hraw.2]
  rfl

/-! ## Steps -/

namespace Passing

open Parse

variable {A : Context → List Node → Context → Prop} (hA : Passing A) {c d e : Context} {n : Node} {ns : List Node}

include hA

/-- A token of which nothing is asked, whatever is read for it. -/
theorem readToken {k : Kind} (hk : k.isOrdinary = true) (m : ℕ) (l : Location) : A c [.token k l] (c.read m).2 :=
  hA.trans (hA.read c m) (hA.token hk l)

theorem blanks {l : Option Location} (h : Parse.blanks c = (l, d)) : A c [] d := by
  obtain ⟨-, -, rfl⟩ | ⟨-, -, rfl⟩ := blanks_cases h
  · exact hA.refl d
  · exact hA.read c _

theorem closeFlattened (base : ℕ) (c : Context) : A c [] (Parse.closeFlattened base c).2 := by
  have hreports : ∀ (fs : List Flattened) (d : Context), A c [] d →
      A c [] ((fs.forM fun f => reportMissingEnd f.name f.location : Parse Unit) d).2 := by
    intro fs d hd
    refine Ends.forM (f := fun f : Flattened => reportMissingEnd f.name f.location) (I := fun d => A c [] d) ?_ fs hd
    exact fun f d h => hA.trans_stay h (hA.report d _ (p := .missingEndTag f.name) rfl)
  exact hreports _ _ (hA.stay (c.moved_truncateFlattened base) rfl)

/-- **Steps without a node** pass, whatever they report. -/
theorem silent (h : c.SilentStep d) : A c [] d := by
  cases h with
  | tooDeep => exact hA.reportTooDeep c
  | skip m => exact hA.read c m
  | close base => exact hA.closeFlattened base c
  | cutOff u => exact hA.report c _ (p := .unexpectedEnd u) rfl

/-- A step to a context that differs in its open elements only. -/
theorem entered (c : Context) (name : Text) : A c [] (c.entered name) := by
  unfold Context.entered
  split
  · exact hA.refl c
  · exact hA.stay (c.moved_pushElement name) rfl

theorem left (c : Context) (name : Text) : A c [] (c.left name) := by
  unfold Context.left
  split
  · exact hA.refl c
  · exact hA.stay c.moved_popElement rfl

end Passing

namespace Chronicle

open Parse

variable {A : Context → List Node → Context → Prop} (hA : Chronicle A) {c d : Context} {n : Node} {w : ℤ}

include hA

/-- **Leaves** pass or are noted. -/
theorem leafStep (h : c.LeafStep n w d) : A c [n] d := by
  cases h with
  | @token k m hk =>
    refine hA.readToken ?_ m _
    revert hk
    cases k <;> decide
  | @absent k p hp hterminated =>
    have hk : k.isOrdinary = true := by
      have hmiss := Code.canMiss_of_missing? hp
      revert hmiss
      cases k <;> decide
    exact hA.trans (hA.report c _ hterminated) (hA.leaf _ _ _ {} hk)
  | sign c₁ hlead _ htrail =>
    exact hA.trans_stay (hA.trans (hA.blanks hlead) (hA.trivia _ (hA.readToken rfl 1 _))) (hA.blanks htrail)
  | marker _ hat => exact hA.marker hat
  | escaped _ hat hpeek => exact hA.escaped hat hpeek
  | invalid _ hat => exact hA.invalid hat
  | declaration m known hstart hm => exact hA.declaration known hstart hm
  | @literal u v _ c₁ m hlead _ hfree _ hrun =>
    -- the node holds a first part of the run; the rest of it are the blanks behind
    have hu : u = c₁.rest.take u.length := by
      have hprefix : u <+: c₁.rest := (hrun ▸ List.prefix_append u v).trans (List.take_prefix m _)
      exact List.prefix_iff_eq_take.1 hprefix
    have hle : u.length ≤ m := by
      have := congrArg List.length hrun
      rw [List.length_take, List.length_append] at this
      omega
    have hleaf : ∀ b, A c₁ [.leaf .literal (.token u) (.ofText c₁.pos u) b] (c₁.read m).2 := by
      intro b
      have htext := hA.literal b hle hfree
      rwa [← hu] at htext
    exact hA.trans (hA.blanks hlead) (hleaf _)
  | blank hblank => exact hA.trans (hA.blanks hblank) (hA.token rfl _)

end Chronicle

/-! ## Traces -/

open Node Parse in
/-- **Every trace keeps every chronicle.** -/
theorem Trace.chronicled {A : Context → List Node → Context → Prop} (hA : Chronicle A) {b : Bool} {c d : Context}
    {ns : List Node} {w : ℤ} (h : Trace b c ns w d) : A c ns d := by
  have hP := hA.toPassing
  induction h with
  | nil c => exact hP.refl c
  | append _ _ ih ih' => exact hP.trans ih ih'
  | le _ _ ih => exact ih
  | loosen _ ih => exact ih
  | text m _ hfree => exact hA.literal {} le_rfl hfree
  | silent h => exact hP.silent h
  | leaf h => exact hA.leafStep h
  | lead hlead _ _ _ ih => exact hP.trans (hP.blanks hlead) (hP.trivia _ ih)
  | @frame _ _ k _ _ _ hframe ih =>
    refine hP.branch ?_ ih
    have hk := hframe.frame
    revert hk
    cases k <;> decide
  | value _ _ ih => exact hP.branch rfl ih
  | repeated _ _ _ _ _ ih => exact hP.trans_stay ih (hP.report _ _ rfl)
  | region hR hrest hupTo hmoved _ hstop ih => exact hA.region hR hrest hupTo hmoved ih hstop
  | orphan _ _ horphan ih =>
    refine hP.trans_stay (hP.branch rfl ih) (hP.report _ _ ?_)
    cases horphan <;> rfl
  | @flattenedEnd c _ _ _ _ i _ _ _ _ _ ih =>
    have hcut := hP.stay (Context.moved_truncateFlattened (closeFlattened (i + 1) c).2 i) rfl
    exact hP.trans (hP.trans_stay (hP.closeFlattened (i + 1) c) hcut) (hP.branch rfl ih)
  | empty _ hshows hnone ih => exact hA.empty hshows hnone ih
  | @ended _ d e g o name _ cs _ _ _ _ hshows hsome _ hinside hsame _ hend ihtag ihns ihend =>
    have hlast : A e [.ofChildren .htmlEndTag cs] (g.left name) :=
      hP.trans_stay (hP.branch rfl ihend) (hP.left g name)
    have hns := hP.trans (hP.entered d name) ihns
    cases hinside with
    | content hraw =>
      exact hP.branch (o.isOrdinary_of_not_raw hsome hraw) (hP.trans ihtag (hP.trans hns hlast))
    | raw hraw hraws =>
      -- the end tag has the name of the element, so the text does not end before it
      have hne : e.rest ≠ [] := by
        intro hnil
        rw [hnil] at hsame
        have hname := hshows.nonempty name (Option.filter_eq_some_iff.1 hsome).1
        exact hname (List.map_eq_nil_iff.1 (Text.sameLetters_iff.1 hsame).symm)
      exact hA.rawEnded hshows hsome hraw ihtag hns hraws hne hlast rfl hend.start
  | @unended _ d e o name _ p l _ _ _ hshows hsome _ hinside hreport ihtag ihns =>
    have hns := hP.trans (hP.entered d name) ihns
    cases hinside with
    | content hraw =>
      have hreport : A e [] (e.report (p.located l)) := by
        cases hreport with
        | content => exact hP.report e _ rfl
        | raw hraw' => rw [hraw] at hraw'; cases hraw'
      refine hP.branch (o.isOrdinary_of_not_raw hsome hraw) (hP.trans ihtag ?_)
      exact hP.trans_stay (hP.trans_stay hns hreport) (hP.left _ name)
    | raw hraw hraws =>
      cases hreport with
      | content hraw' => rw [hraw] at hraw'; cases hraw'
      | raw _ hrest =>
        exact hP.trans_stay (hA.rawUnended hshows hsome hraw ihtag hns hraws hrest) (hP.left _ name)
  | @flattened c d o name _ _ _ hsome hraw ih =>
    have hpush := hP.stay (d.moved_pushFlattened name o.place) rfl
    exact hP.branch (o.isOrdinary_of_not_raw hsome hraw) (hP.trans (hP.reportTooDeep c) (hP.trans_stay ih hpush))

/-- **The document of a template keeps every chronicle.** -/
theorem Template.document_chronicled {A : Context → List Node → Context → Prop} (hA : Chronicle A)
    (options : ParseOptions) (t : Text) :
    A (.atDocument options t) [(Template.document options t).1] (Template.document options t).2 :=
  (Template.document_traced options t).chronicled hA

end Stencil
