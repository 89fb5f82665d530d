import Stencil.Proofs.Lossless

/-!
# Accounts of a run

What a run reports is tied to what it builds: a token that is not found is reported
where it stands in the tree, and an element is closed by an end tag or by a report that
it has none. Such a tie is an account of the run.

`A c ns k d` says that an account `A` fits the run from the context `c` to the context
`d` that built the nodes `ns`, and that `k` more elements were closed in it than opened.
`Account A` lists what `A` must allow: to read, to report, to open and close elements, and
to build a leaf or a branch.

* `Shows.opens`: the parser expects content after a start tag exactly if the tree says that
  the element opens content (`Node.opensContent`).
* `Trace.accounted`: **every trace keeps every account**, with as many elements closed as
  opened.
* `Template.document_accounted`: so does the whole document.
-/

namespace Stencil

/-! ## What reports and nodes stand for -/

namespace Code

/-- How many elements a report closes. What has no end tag is closed by the report of
that, and an end tag that closes nothing is taken back. -/
def closes : Code → ℤ
  | missingEndTag | unterminatedRawText => 1
  | unexpectedEndTag | mismatchedEndTag | voidElementEndTag => -1
  | _ => 0

end Code

namespace Node

/-- The element opens content: its start tag has a name that is not void, and is closed
by `>`. -/
def opensContent (n : Node) : Bool :=
  n.kind.isElement && n.tagName?.any (fun name => !Html.isVoid name) &&
    (n.child? .htmlStartTag).any fun tag => tag.children.getLast?.bind value? == some ['>']

/-- How many elements a node closes, its children aside. An element is closed by its end
tag, which is a node of its own. -/
def closes (n : Node) : ℤ :=
  if n.kind = .htmlEndTag then 1 else if n.opensContent then -1 else 0

theorem closes_of_not_isElement {n : Node} (hk : n.kind.isElement = false) (hend : n.kind ≠ .htmlEndTag) :
    n.closes = 0 := by
  simp [closes, opensContent, hk, hend]

/-- An element opens content or has none. -/
theorem closes_of_isElement {n : Node} (hk : n.kind.isElement = true) :
    n.closes = if n.opensContent then -1 else 0 := by
  have hend : n.kind ≠ .htmlEndTag := by rintro h; rw [h] at hk; cases hk
  rw [closes, if_neg hend]

end Node

/-- What an account of a run must allow. -/
structure Account (A : Context → List Node → ℤ → Context → Prop) : Prop where
  refl : ∀ c, A c [] 0 c
  trans : ∀ {c d e ns ms j k}, A c ns j d → A d ms k e → A c (ns ++ ms) (j + k) e
  read : ∀ c n, A c [] 0 (c.read n).2
  pushElement : ∀ c name, A c [] 0 (c.pushElement name)
  popElement : ∀ c, A c [] 0 c.popElement
  /-- A flattened element is one that was opened and not yet closed. -/
  pushFlattened : ∀ c name l, A c [] 1 (c.pushFlattened name l)
  truncate : ∀ c n, A c [] (-(c.flattenedCount - n : ℕ)) (c.truncateFlattened n)
  tooDeep : ∀ c, A c [] 0 c.reportTooDeep
  report : ∀ c l {p : Problem}, p.code.missing? = none → p.code ≠ .nestingTooDeep →
    A c [] p.code.closes (c.report (p.located l))
  /-- A token that is not found is reported where it stands in the tree. -/
  absent : ∀ c {k} {p : Problem}, p.code.missing? = some k →
    A c [.missing k c.pos] 0 (c.report (p.located (.empty c.pos)))
  leaf : ∀ c {k v} l t, v ≠ .missing → k ≠ .htmlEndTag → A c [.leaf k v l t] 0 c
  branch : ∀ {c ns j d} k, A c ns j d → A c [.ofChildren k ns] (j + (Node.ofChildren k ns).closes) d
  trivia : ∀ {c n j d} t, A c [n] j d → A c [n.withTrivia t] j d

namespace Account

variable {A : Context → List Node → ℤ → Context → Prop} (hA : Account A) {c d e : Context}
  {ns ms : List Node} {k : ℤ}

include hA

/-- Accounts of nodes in a row are added. -/
theorem append (h : A c ns 0 d) (h' : A d ms k e) : A c (ns ++ ms) k e := by
  simpa using hA.trans h h'

theorem append_stay (h : A c ns k d) (h' : A d [] 0 e) : A c ns k e := by
  simpa using hA.trans h h'

/-- A branch that is neither an element nor an end tag. -/
theorem group {g : Kind} (h : A c ns k d) (hk : g.isElement = false) (hend : g ≠ .htmlEndTag) :
    A c [.ofChildren g ns] k d := by
  simpa [Node.closes_of_not_isElement (n := .ofChildren g ns) hk hend] using hA.branch g h

/-- A token opens and closes nothing. -/
theorem token {g : Kind} (hg : g ≠ .htmlEndTag) (l : Location) : A c [Node.token g l] 0 c :=
  hA.leaf c l {} (by simp) hg

end Account

/-- A flattened element that is found is one of those that are open. -/
theorem Context.lt_of_findFlattened? {c : Context} {name : Text} {base i : ℕ}
    (h : c.findFlattened? name base = some i) : i < c.flattenedCount := by
  obtain ⟨j, hj, rfl⟩ := Option.map_eq_some_iff.1 h
  have hlt := (List.findIdx?_eq_some_iff_getElem.1 hj).1
  rw [List.length_take] at hlt
  omega

namespace Parse

open Node

variable {c : Context}

/-- The parser expects content after the start tag exactly if an element with this start
tag opens content. -/
def OpensAs (o : Opening) : Prop :=
  ∀ (k : Kind) (ns : List Node), k.isElement = true →
    (Node.ofChildren k (o.tag :: ns)).opensContent = o.contentName?.isSome

/-- Start tags open the content of their elements. -/
theorem Shows.opens {o : Opening} (h : Shows o c) : OpensAs o := by
  intro k ns hk
  have hend : k ≠ .htmlEndTag := by rintro rfl; cases hk
  have hstart : (ofChildren k (o.tag :: ns)).child? .htmlStartTag = some o.tag :=
    List.find?_cons_of_pos (by simp [h.kind])
  have hlast : (o.tag.children.getLast?.bind value? == some ['>']) = o.closed := by
    rw [Bool.eq_iff_iff]; simpa using h.closed
  have hname : ((some o.tag).bind fun tag => tag.child? .htmlTagName).bind value? = o.name := h.name
  rw [opensContent, tagName?, kind_ofChildren, if_neg hend, if_pos hk, hstart, hk, hname, Opening.contentName?]
  cases o.name <;> simp [hlast, Bool.and_comm]

/-- Elements are closed down to the base. -/
theorem closeFlattened_count (base : ℕ) :
    Ends (closeFlattened base) c fun _ d => d.flattenedCount = min base c.flattenedCount := by
  refine Ends.get_bind (Ends.modify_bind ?_)
  refine Ends.forM (f := fun f : Flattened => reportMissingEnd f.name f.location)
    (I := fun d => d.flattenedCount = min base c.flattenedCount) (fun _ _ h => h) _ ?_
  simp only [Context.flattenedCount, Context.truncateFlattened, List.length_drop]
  omega

end Parse

/-! ## Steps -/

namespace Account

open Node Parse

variable {A : Context → List Node → ℤ → Context → Prop} (hA : Account A) {c d e : Context} {n : Node}
  {ns cs : List Node} {w : ℤ}

include hA

/-- A token, whatever is read for it. -/
theorem readToken {k : Kind} (hk : k ≠ .htmlEndTag) (m : ℕ) (l : Location) : A c [.token k l] 0 (c.read m).2 :=
  hA.append (hA.read c m) (hA.token hk l)

theorem blanks {l : Option Location} (h : Parse.blanks c = (l, d)) : A c [] 0 d := by
  obtain ⟨-, -, rfl⟩ | ⟨-, -, rfl⟩ := blanks_cases h
  · exact hA.refl d
  · exact hA.read c _

/-- A report that is about neither a missing token, nor an element, nor the limit. -/
theorem remark {p : Problem} (l : Location) (hp : p.code.missing? = none) (hdeep : p.code ≠ .nestingTooDeep)
    (hcloses : p.code.closes = 0) : A c [] 0 (c.report (p.located l)) :=
  hcloses ▸ hA.report c l hp hdeep

theorem reportIf {b : Prop} [Decidable b] {p : Problem} (l : Location) (hp : p.code.missing? = none)
    (hdeep : p.code ≠ .nestingTooDeep) (hcloses : p.code.closes = 0) : A c [] 0 (c.reportIf b p l) := by
  unfold Context.reportIf
  split
  · exact hA.remark l hp hdeep hcloses
  · exact hA.refl c

theorem declared (known : Bool) (l : Location) : A c [] 0 (c.declared known l) := by
  have hfirst := hA.reportIf (c := c) (b := l.text.getLast? ≠ some '>') l (p := .unterminatedDoctype) rfl
    (by simp [Problem.code]) rfl
  exact hA.append_stay hfirst (hA.reportIf l rfl (by simp [Problem.code]) rfl)

/-- The flattened elements that lack their end tags are closed by the reports of that. -/
theorem closeFlattened (base : ℕ) (c : Context) : A c [] 0 (Parse.closeFlattened base c).2 := by
  have hreports : ∀ (fs : List Flattened) (d : Context),
      A d [] fs.length ((fs.forM fun f => reportMissingEnd f.name f.location : Parse Unit) d).2 := by
    intro fs
    induction fs with
    | nil => exact fun d => hA.refl d
    | cons f fs ih =>
      intro d
      have hfirst := hA.report d (f.location.getD (.empty d.pos)) (p := .missingEndTag f.name) rfl
        (by simp [Problem.code])
      have hall := hA.trans hfirst (ih _)
      rwa [List.append_nil, show (Problem.missingEndTag f.name).code.closes + (fs.length : ℤ) = (f :: fs).length by
        simp [Problem.code, Code.closes]; omega] at hall
  have hall := hA.trans (hA.truncate c base) (hreports (c.flattenedFrom base) (c.truncateFlattened base))
  have hlength : (c.flattenedFrom base).length = c.flattenedCount - base := by
    rw [Context.flattenedFrom, List.length_take, Context.flattenedCount]
    omega
  rw [hlength, Int.add_left_neg] at hall
  exact hall

/-- **Steps without a node** are accounted for. -/
theorem silent (h : c.SilentStep d) : A c [] 0 d := by
  cases h with
  | tooDeep => exact hA.tooDeep c
  | skip n => exact hA.read c n
  | close base => exact hA.closeFlattened base c
  | cutOff u => exact hA.remark _ rfl (by simp [Problem.code]) rfl

/-- **So are leaves.** -/
theorem leafStep (h : c.LeafStep n w d) : A c [n] 0 d := by
  cases h with
  | token m hk => exact hA.readToken (by rintro rfl; cases hk) m _
  | absent hp => exact hA.absent c hp
  | sign c₁ hlead _ htrail =>
    exact hA.append_stay (hA.append (hA.blanks hlead) (hA.trivia _ (hA.readToken (by decide) 1 _))) (hA.blanks htrail)
  | marker => exact hA.append (hA.read c 1) (hA.leaf _ _ {} (by simp) (by decide))
  | escaped => exact hA.append (hA.read c 2) (hA.leaf _ _ {} (by simp) (by decide))
  | invalid =>
    exact hA.append_stay (hA.readToken (by decide) 1 _) (hA.remark _ rfl (by simp [Problem.code]) rfl)
  | declaration m known => exact hA.append_stay (hA.readToken (by decide) (m + 1) _) (hA.declared known _)
  | literal c₁ m hlead => exact hA.append (hA.blanks hlead) (hA.trivia _ (hA.readToken (by decide) m _))
  | blank hblank => exact hA.append (hA.blanks hblank) (hA.token (by decide) _)

/-- An end tag closes one element. -/
theorem endTag (h : A c cs 0 d) : A c [.ofChildren .htmlEndTag cs] 1 d := by
  simpa [Node.closes] using hA.branch .htmlEndTag h

/-- An element with all of its content: it opens as many elements as it closes. -/
theorem element {o : Opening} {k : ℤ} (hshows : Shows o e) (h : A c (o.tag :: ns) k d)
    (hk : k = if o.contentName?.isSome then 1 else 0) : A c [.ofChildren o.kind (o.tag :: ns)] 0 d := by
  have hbranch := hA.branch o.kind h
  rw [closes_of_isElement (n := .ofChildren o.kind _) o.isElement_kind, hshows.opens _ _ o.isElement_kind, hk]
    at hbranch
  split at hbranch <;> exact hbranch

theorem entered (c : Context) (name : Text) : A c [] 0 (c.entered name) := by
  unfold Context.entered
  split
  · exact hA.refl c
  · exact hA.pushElement c name

theorem left (c : Context) (name : Text) : A c [] 0 (c.left name) := by
  unfold Context.left
  split
  · exact hA.refl c
  · exact hA.popElement c

end Account

/-! ## Traces -/

open Node Parse in
/-- **Every trace keeps every account**, with as many elements closed as opened. -/
theorem Trace.accounted {A : Context → List Node → ℤ → Context → Prop} (hA : Account A) {b : Bool}
    {c d : Context} {ns : List Node} {w : ℤ} (h : Trace b c ns w d) : A c ns 0 d := by
  induction h with
  | nil c => exact hA.refl c
  | append _ _ ih ih' => exact hA.append ih ih'
  | le _ _ ih => exact ih
  | loosen _ ih => exact ih
  | text m => exact hA.readToken (by decide) m _
  | silent h => exact hA.silent h
  | leaf h => exact hA.leafStep h
  | lead hlead _ _ _ ih => exact hA.append (hA.blanks hlead) (hA.trivia _ ih)
  | @frame _ _ k _ _ _ hframe ih =>
    have hkind : k.isElement = false ∧ k ≠ .htmlEndTag := by
      have := hframe.frame
      revert this
      cases k <;> decide
    exact hA.group ih hkind.1 hkind.2
  | value _ _ ih => exact hA.group ih rfl (by decide)
  | repeated _ _ _ _ _ ih => exact hA.append_stay ih (hA.remark _ rfl (by simp [Problem.code]) rfl)
  | @region _ d e R _ y stop _ hR _ _ _ _ hstop ih =>
    have hkind : R.kind.isElement = false ∧ R.kind ≠ .htmlEndTag := by rcases hR with rfl | rfl <;> decide
    have hlast : A d [stop] 0 e := by
      cases hstop with
      | missing => exact hA.absent d (by rcases hR with rfl | rfl <;> rfl)
      | token =>
        have hstopKind : R.stopKind ≠ .htmlEndTag := by rcases hR with rfl | rfl <;> decide
        exact hA.readToken hstopKind _ _
    exact hA.group (hA.append ih hlast) hkind.1 hkind.2
  | @orphan c d cs p _ _ _ horphan ih =>
    have hcode : p.code.missing? = none ∧ p.code ≠ .nestingTooDeep ∧ p.code.closes = -1 := by
      cases horphan <;> exact ⟨rfl, by simp [Problem.code], rfl⟩
    have htag : ∀ l, A c [.ofChildren .htmlEndTag cs] 0 (d.report (p.located l)) := by
      intro l
      have hall := hA.trans (hA.endTag ih) (hA.report d l hcode.1 hcode.2.1)
      rwa [hcode.2.2] at hall
    exact htag _
  | @flattenedEnd c _ _ _ _ i _ _ hfind _ _ ih =>
    have hlt := Context.lt_of_findFlattened? hfind
    have hcount : (closeFlattened (i + 1) c).2.flattenedCount = min (i + 1) c.flattenedCount :=
      closeFlattened_count _
    -- the element whose end tag this is counts as open until here
    have hcut := hA.truncate (closeFlattened (i + 1) c).2 i
    rw [hcount, show min (i + 1) c.flattenedCount - i = 1 by omega] at hcut
    exact hA.append (hA.closeFlattened (i + 1) c) (hA.trans hcut (hA.endTag ih))
  | empty _ hshows hnone ih => exact hA.element hshows ih (by simp [hnone])
  | @ended _ d _ g _ name _ _ _ _ _ _ hshows hsome _ _ _ _ _ htag hns hend =>
    have hcontent := hA.append (hA.entered d name) (hA.append hns (hA.endTag hend))
    have hall := hA.append htag (hA.append_stay hcontent (hA.left g name))
    exact hA.element hshows hall (by simp [hsome])
  | @unended _ d e o name _ p l _ _ _ hshows hsome _ _ hreport htag hns =>
    have hcode : p.code.missing? = none ∧ p.code ≠ .nestingTooDeep ∧ p.code.closes = 1 := by
      cases hreport <;> exact ⟨rfl, by simp [Problem.code], rfl⟩
    have hend := hA.append hns (hA.report e l hcode.1 hcode.2.1)
    rw [hcode.2.2, List.append_nil] at hend
    have hcontent := hA.append_stay (hA.append (hA.entered d name) hend) (hA.left _ name)
    exact hA.element hshows (hA.append htag hcontent) (by simp [hsome])
  | @flattened c d o name _ _ hshows hsome _ ih =>
    have htag := hA.append (hA.tooDeep c) (hA.append ih (hA.pushFlattened d name o.place))
    exact hA.element hshows htag (by simp [hsome])

/-- Reports are only ever added. -/
theorem keepsReports_account : Account fun c _ _ d => c.diagnostics <+: d.diagnostics where
  refl _ := List.prefix_rfl
  trans h h' := h.trans h'
  read _ _ := List.prefix_rfl
  pushElement _ _ := List.prefix_rfl
  popElement _ := List.prefix_rfl
  pushFlattened _ _ _ := List.prefix_rfl
  truncate _ _ := List.prefix_rfl
  tooDeep c := by
    unfold Context.reportTooDeep
    split
    · exact List.prefix_rfl
    · exact List.prefix_append _ _
  report _ _ _ _ _ := List.prefix_append _ _
  absent _ _ _ _ := List.prefix_append _ _
  leaf _ _ _ _ _ _ _ := List.prefix_rfl
  branch _ h := h
  trivia _ h := h

/-- Reports are only ever added. -/
theorem Trace.diagnostics_grow {b : Bool} {c d : Context} {ns : List Node} {w : ℤ} (h : Trace b c ns w d) :
    c.diagnostics <+: d.diagnostics :=
  h.accounted keepsReports_account

/-- **The document of a template keeps every account.** -/
theorem Template.document_accounted {A : Context → List Node → ℤ → Context → Prop} (hA : Account A)
    (options : ParseOptions) (t : Text) :
    A (.atDocument options t) [(Template.document options t).1] 0 (Template.document options t).2 :=
  (Template.document_traced options t).accounted hA

end Stencil
