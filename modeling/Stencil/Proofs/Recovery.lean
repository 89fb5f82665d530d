import Mathlib.Algebra.BigOperators.Group.List.Basic
import Mathlib.Algebra.Ring.Int.Defs
import Mathlib.Data.List.Forall2
import Stencil.Proofs.Accounts

/-!
# What the parser makes of a broken template

Where a token is wanted and not found, the parser puts a missing token into the tree and
reports it; where an element lacks its end tag, or an end tag its element, it reports that
and goes on. Two accounts of the run say that tree and diagnostics tell the same story.

* `parse_reports_missing`: **the missing tokens of the tree and the reports of missing
  tokens correspond one to one**, in their order.
* `parse_balances_tags`: **start tags, end tags and the reports about end tags balance.**
-/

namespace Stencil

open List (Forall₂)

theorem Node.isMissing_withTrivia (n : Node) (t : Trivia) : (n.withTrivia t).isMissing = n.isMissing := by
  cases n with
  | leaf k v l u => cases v <;> rfl
  | branch => rfl

/-! ## Missing tokens -/

namespace Diagnostic

/-- The diagnostic reports that a token is missing: it is an error at the place of the token,
which has no width, and its kind is that of the token. -/
structure Reports (n : Node) (x : Diagnostic) : Prop where
  place : ∃ p, n.location? = some (.empty p) ∧ x.location = some (.empty p)
  severity : x.severity = .error
  code : x.code.missing? = some n.kind

/-- Whether the diagnostic is about a missing token. -/
def isAbsence (x : Diagnostic) : Bool :=
  x.code.missing?.isSome

/-- A node with blanks around it has the report that it had. -/
theorem Reports.withTrivia {n : Node} {x : Diagnostic} (h : Reports n x) (t : Trivia) :
    Reports (n.withTrivia t) x := by
  cases n <;> exact ⟨h.place, h.severity, h.code⟩

end Diagnostic

open Diagnostic

/-- Whatever is only a warning is not about a missing token. -/
theorem Problem.severity_of_missing {p : Problem} {k : Kind} (h : p.code.missing? = some k) :
    p.severity = .error := by
  cases p with
  | invalidTransition | duplicateAttribute | unknownDeclaration | voidElementEndTag | nestingTooDeep => cases h
  | _ => rfl

/-- The missing tokens among the nodes are those that were reported. -/
def Context.ReportsMissing (c : Context) (ns : List Node) (_ : ℤ) (d : Context) : Prop :=
  ∃ xs, d.diagnostics = c.diagnostics ++ xs ∧
    Forall₂ Reports ((Node.descendantsAll ns).filter Node.isMissing) (xs.filter isAbsence)

/-- **Missing tokens and their reports come together** on every trace. -/
theorem reportsMissing_account : Account Context.ReportsMissing where
  refl c := ⟨[], by simp, .nil⟩
  trans := by
    rintro c d e ns ms j k ⟨xs, hxs, h⟩ ⟨ys, hys, h'⟩
    refine ⟨xs ++ ys, by rw [hys, hxs, List.append_assoc], ?_⟩
    rw [Node.descendantsAll_append, List.filter_append, List.filter_append]
    exact List.rel_append h h'
  read c n := ⟨[], (List.append_nil _).symm, .nil⟩
  pushElement c name := ⟨[], (List.append_nil _).symm, .nil⟩
  popElement c := ⟨[], (List.append_nil _).symm, .nil⟩
  pushFlattened c name l := ⟨[], (List.append_nil _).symm, .nil⟩
  truncate c n := ⟨[], (List.append_nil _).symm, .nil⟩
  tooDeep c := by
    unfold Context.reportTooDeep
    split
    · exact ⟨[], (List.append_nil _).symm, .nil⟩
    · exact ⟨[_], rfl, .nil⟩
  report c l p hp _ := ⟨[p.located l], rfl, by simp [isAbsence, Problem.located, hp, Node.descendantsAll]⟩
  -- the one place where a node for a missing token is made, and it is made with its report
  absent c k p hp := by
    refine ⟨[p.located (.empty c.pos)], rfl, ?_⟩
    have hreports : Reports (.missing k c.pos) (p.located (.empty c.pos)) :=
      ⟨⟨c.pos, rfl, rfl⟩, p.severity_of_missing hp, hp⟩
    have hx : isAbsence (p.located (.empty c.pos)) = true := by simp [isAbsence, Problem.located, hp]
    rw [List.filter_cons_of_pos hx]
    exact .cons hreports .nil
  leaf c k v l t hv _ := by
    refine ⟨[], (List.append_nil _).symm, ?_⟩
    cases v with
    | missing => exact absurd rfl hv
    | token | marker => exact .nil
  branch k := by
    rintro ⟨xs, hxs, h⟩
    refine ⟨xs, hxs, ?_⟩
    rwa [Node.descendantsAll_singleton, Node.descendants_ofChildren,
      List.filter_cons_of_neg (by simp [Node.ofChildren, Node.isMissing])]
  -- blanks do not turn a node into another one: it reports what it did before
  trivia := by
    rintro c n j d t ⟨xs, hxs, h⟩
    refine ⟨xs, hxs, ?_⟩
    rw [Node.descendantsAll_singleton] at h ⊢
    rw [Node.descendants_withTrivia]
    rw [Node.descendants_eq_cons] at h
    have hkept := n.isMissing_withTrivia t
    cases hn : n.isMissing with
    | false =>
      rw [List.filter_cons_of_neg (by simp [hn])] at h
      rwa [List.filter_cons_of_neg (by simp [hkept, hn])]
    | true =>
      rw [List.filter_cons_of_pos hn] at h
      rw [List.filter_cons_of_pos (by rw [hkept, hn])]
      obtain ⟨x, xs', hx, hrest, hxs'⟩ := List.forall₂_cons_left_iff.1 h
      exact hxs' ▸ .cons (hx.withTrivia t) hrest

section

variable {options : ParseOptions} (t : Text)

/-- **The missing tokens of a template and the reports of missing tokens correspond one to
one**: in document order and in the order of reporting they are two lists of the same length
in which each report is an error at the place of its token, of the kind that fits it. -/
theorem parse_reports_missing (h : options.language ∈ Registry.standard.languages) :
    ∃ r, Template.parse options t = .ok r ∧
      Forall₂ Reports ((Node.descendantsAll r.nodes).filter Node.isMissing)
        (r.diagnostics.filter isAbsence) := by
  refine ⟨_, parse_eq_document t h, ?_⟩
  obtain ⟨xs, hxs, hdocument⟩ := Template.document_accounted reportsMissing_account options t
  have hnone : (Context.atDocument options t).diagnostics = [] := rfl
  rw [hnone, List.nil_append] at hxs
  rw [hxs, ← List.singleton_append, Node.descendantsAll_append, List.filter_append]
  -- the end of the file is not missing
  have hend : ∀ p, (Node.descendantsAll [.marker .endOfFile (.empty p)]).filter Node.isMissing = [] :=
    fun _ => rfl
  rw [hend, List.append_nil]
  exact hdocument

theorem parse_reports_missing_unclosed :
    ({ maxNestingDepth := 1 } : ParseOptions).language ∈ Registry.standard.languages ∧
      ∃ r, Template.parse { maxNestingDepth := 1 } "</ <p ='x@\x7b if \x7b <!--".toList = .ok r ∧
        Forall₂ Reports ((Node.descendantsAll r.nodes).filter Node.isMissing)
          (r.diagnostics.filter isAbsence) :=
  ⟨by decide, parse_reports_missing _ (by decide)⟩

end

/-! ## Tags -/

/-- The elements closed by the nodes and by the reports are those that were opened, the
flattened ones being open yet. -/
def Context.BalancesTags (c : Context) (ns : List Node) (k : ℤ) (d : Context) : Prop :=
  ∃ xs, d.diagnostics = c.diagnostics ++ xs ∧
    ((Node.descendantsAll ns).map Node.closes).sum + (xs.map fun x => x.code.closes).sum +
      (d.flattenedCount - c.flattenedCount) = k

namespace Context.BalancesTags

variable {c d : Context} {k : ℤ}

/-- Nothing is built and nothing is reported. -/
theorem silent (hd : d.diagnostics = c.diagnostics) (hk : (d.flattenedCount : ℤ) - c.flattenedCount = k) :
    c.BalancesTags [] k d :=
  ⟨[], by simp [hd], by simpa [Node.descendantsAll] using hk⟩

/-- Something is reported. -/
theorem single (c : Context) (x : Diagnostic) : c.BalancesTags [] x.code.closes (c.report x) := by
  have hcount : (c.report x).flattenedCount = c.flattenedCount := rfl
  exact ⟨[x], rfl, by simp [Node.descendantsAll, hcount]⟩

/-- Something is built. -/
theorem built (c : Context) {n : Node} (hn : n.descendants = [n]) : c.BalancesTags [n] n.closes c :=
  ⟨[], by simp, by simp [Node.descendantsAll, hn]⟩

end Context.BalancesTags

theorem Node.closes_withTrivia (n : Node) (t : Trivia) : (n.withTrivia t).closes = n.closes := by
  cases n <;> rfl

/-- The report of a missing token is not about elements, and neither is the token. -/
theorem Code.closes_of_missing? {x : Code} {k : Kind} (h : x.missing? = some k) :
    x.closes = 0 ∧ k.isElement = false ∧ k ≠ .htmlEndTag := by
  cases x <;> cases h <;> exact ⟨rfl, rfl, by decide⟩

open Context.BalancesTags in
/-- **Tags and their reports balance** on every trace. -/
theorem balancesTags_account : Account Context.BalancesTags where
  refl c := silent rfl (sub_self _)
  trans := by
    rintro c d e ns ms j k ⟨xs, hxs, rfl⟩ ⟨ys, hys, rfl⟩
    refine ⟨xs ++ ys, by rw [hys, hxs, List.append_assoc], ?_⟩
    rw [Node.descendantsAll_append, List.map_append, List.map_append, List.sum_append, List.sum_append]
    omega
  read c n := silent rfl (sub_self _)
  pushElement c name := silent rfl (sub_self _)
  popElement c := silent rfl (sub_self _)
  pushFlattened c name l := silent rfl (by simp [Context.flattenedCount, Context.pushFlattened])
  truncate c n := by
    refine silent rfl ?_
    simp only [Context.flattenedCount, Context.truncateFlattened, List.length_drop]
    omega
  tooDeep c := by
    unfold Context.reportTooDeep
    split
    · exact silent rfl (sub_self _)
    · obtain ⟨xs, hxs, hk⟩ := single c ((Problem.nestingTooDeep c.maxDepth).located (.empty c.pos))
      exact ⟨xs, hxs, hk⟩
  report c l p _ _ := single c _
  -- no missing token opens or closes an element
  absent c k p hp := by
    obtain ⟨hcode, hkind, hend⟩ := Code.closes_of_missing? hp
    have hcount : ∀ x, (c.report x).flattenedCount = c.flattenedCount := fun _ => rfl
    have hnode := Node.closes_of_not_isElement (n := .missing k c.pos) hkind hend
    refine ⟨[_], rfl, ?_⟩
    rw [Node.descendantsAll_singleton, show (Node.missing k c.pos).descendants = [.missing k c.pos] from rfl]
    simp [hnode, hcount, Problem.located, hcode]
  leaf c k v l t _ hk := by
    have hnode : (Node.leaf k v l t).closes = 0 := by
      simp [Node.closes, Node.opensContent, Node.kind, Node.child?, Node.children, hk]
    exact hnode ▸ built c rfl
  branch k := by
    rintro ⟨xs, hxs, rfl⟩
    refine ⟨xs, hxs, ?_⟩
    rw [Node.descendantsAll_singleton, Node.descendants_ofChildren, List.map_cons, List.sum_cons]
    omega
  trivia := by
    rintro c n j d t ⟨xs, hxs, rfl⟩
    refine ⟨xs, hxs, ?_⟩
    rw [Node.descendantsAll_singleton, Node.descendantsAll_singleton, Node.descendants_withTrivia,
      Node.descendants_eq_cons n, List.map_cons, List.map_cons, Node.closes_withTrivia]
    rfl

/-- What the nodes close is their end tags without the elements that open content. -/
theorem Node.sum_closes (ns : List Node) :
    (ns.map Node.closes).sum =
      (ns.countP fun n => n.kind == .htmlEndTag) - (ns.countP Node.opensContent : ℤ) := by
  induction ns with
  | nil => rfl
  | cons n ns ih =>
    rw [List.map_cons, List.sum_cons, ih, List.countP_cons, List.countP_cons, Node.closes]
    by_cases hend : n.kind = .htmlEndTag
    · have hopens : n.opensContent = false := by simp [opensContent, hend, Kind.isElement]
      simp [hend, hopens]; omega
    · cases hopens : n.opensContent <;> simp [hend]; omega

namespace Diagnostic

/-- Whether the diagnostic is about an element that has no end tag. -/
def isUnclosed (x : Diagnostic) : Bool :=
  x.code matches .missingEndTag | .unterminatedRawText

/-- Whether the diagnostic is about an end tag that closes nothing. -/
def isStrayEnd (x : Diagnostic) : Bool :=
  x.code matches .voidElementEndTag | .mismatchedEndTag | .unexpectedEndTag

theorem sum_closes (xs : List Diagnostic) :
    (xs.map fun x => x.code.closes).sum = (xs.countP isUnclosed : ℤ) - xs.countP isStrayEnd := by
  induction xs with
  | nil => rfl
  | cons x xs ih =>
    rw [List.map_cons, List.sum_cons, ih, List.countP_cons, List.countP_cons, isUnclosed, isStrayEnd]
    cases x.code <;> simp [Code.closes] <;> omega

end Diagnostic

/-- The elements that were flattened in a document are closed with it. -/
theorem Parse.document_flattenedCount {code element : Parse Node} {c : Context} :
    Ends (document code element) c fun _ d => d.flattenedCount ≤ c.flattenedCount := by
  refine Ends.get_bind (Ends.bind (Q := fun _ _ => True) trivial fun ns d _ => ?_)
  refine Ends.bind (closeFlattened_count _) fun _ e he => ?_
  exact Ends.pure (he ▸ Nat.min_le_left _ _)

section

variable {options : ParseOptions} (t : Text)

/-- **Start tags, end tags and the reports about end tags balance.** The elements that open
content, together with the end tags that close nothing, are as many as the end tags together
with the elements that have none. -/
theorem parse_balances_tags (h : options.language ∈ Registry.standard.languages) :
    ∃ r, Template.parse options t = .ok r ∧
      (Node.descendantsAll r.nodes).countP Node.opensContent + r.diagnostics.countP isStrayEnd =
        ((Node.descendantsAll r.nodes).countP fun n => n.kind == .htmlEndTag) +
          r.diagnostics.countP isUnclosed := by
  refine ⟨_, parse_eq_document t h, ?_⟩
  obtain ⟨xs, hxs, hdocument⟩ := Template.document_accounted balancesTags_account options t
  have hnone : (Context.atDocument options t).diagnostics = [] := rfl
  rw [hnone, List.nil_append] at hxs
  have hflat : (Template.document options t).2.flattenedCount ≤ 0 := Parse.document_flattenedCount
  have hstart : (Context.atDocument options t).flattenedCount = 0 := rfl
  rw [hstart, Nat.le_zero.1 hflat, Node.sum_closes, Diagnostic.sum_closes] at hdocument
  -- the end of the file is neither an element nor an end tag
  have hend : ∀ (f : Node → Bool) (p : Position), f (.marker .endOfFile (.empty p)) = false →
      (Node.descendantsAll [(Template.document options t).1, .marker .endOfFile (.empty p)]).countP f =
        (Node.descendantsAll [(Template.document options t).1]).countP f := by
    intro f p hf
    rw [← List.singleton_append, Node.descendantsAll_append, List.countP_append, Nat.add_eq_left]
    simpa [Node.descendantsAll, Node.descendants, Node.marker] using hf
  rw [hxs, hend _ _ rfl, hend _ _ rfl]
  dsimp only
  omega

theorem parse_balances_tags_flat :
    ({ maxNestingDepth := 1 } : ParseOptions).language ∈ Registry.standard.languages ∧
      ∃ r, Template.parse { maxNestingDepth := 1 } "<a><b><c></b></p><br></br><script>".toList = .ok r ∧
        (Node.descendantsAll r.nodes).countP Node.opensContent + r.diagnostics.countP isStrayEnd =
          ((Node.descendantsAll r.nodes).countP fun n => n.kind == .htmlEndTag) +
            r.diagnostics.countP isUnclosed :=
  ⟨by decide, parse_balances_tags _ (by decide)⟩

end

end Stencil
