import Stencil.Proofs.Trace

/-!
# What a trace reads

Whatever is read along a trace, the pieces of the nodes that it builds lie edge to edge over exactly
that text (`Trace.reads`), and the nodes are paid for by it (`Trace.size`). So a trace with nothing
owed has read on (`Trace.readOn`).

* `blanks_cases`: blanks are read, or there are none.
* `Trace.reads`: **nothing is lost along a trace.**
* `Trace.shaped`: the nodes of a trace have the shape that the grammar gives to nodes.
-/

namespace Stencil

open Context

namespace Parse

variable {c d : Context} {l : Option Location}

/-! ## Reading blanks -/

/-- What is read, and the context after it. -/
theorem read_apply (n : ℕ) (c : Context) : read n c = (.ofText c.pos (c.rest.take n), (c.read n).2) :=
  Prod.ext (c.read_location n) rfl

theorem token_apply (k : Kind) (n : ℕ) (c : Context) :
    token k n c = (.token k (.ofText c.pos (c.rest.take n)), (c.read n).2) :=
  Prod.ext (congrArg (Node.token k) (c.read_location n)) rfl

/-- Blanks are read as one location, if there are any. -/
theorem blanks_apply (c : Context) : blanks c =
    if c.rest.blanksAhead = 0 then (none, c)
    else (some (.ofText c.pos (c.rest.take c.rest.blanksAhead)), (c.read c.rest.blanksAhead).2) := by
  show (if c.rest.blanksAhead = 0 then pure none else (do return some (← read _)) :
    Parse (Option Location)) c = _
  split
  · rfl
  · exact congrArg (fun r => (some r.1, r.2)) (read_apply _ c)

/-- Blanks are read, or there are none. -/
theorem blanks_cases (h : blanks c = (l, d)) :
    c.rest.blanksAhead = 0 ∧ l = none ∧ d = c ∨ c.rest.blanksAhead ≠ 0 ∧
      l = some (.ofText c.pos (c.rest.take c.rest.blanksAhead)) ∧ d = (c.read c.rest.blanksAhead).2 := by
  rw [blanks_apply] at h
  split at h
  case isTrue hzero =>
    cases h
    exact .inl ⟨hzero, rfl, rfl⟩
  case isFalse hpos =>
    cases h
    exact .inr ⟨hpos, rfl, rfl⟩

/-- Blanks are a piece of their own. -/
theorem blanks_reads (h : blanks c = (l, d)) : c.Reads (Node.blankPieces l) d := by
  obtain ⟨-, rfl, rfl⟩ | ⟨-, rfl, rfl⟩ := blanks_cases h
  · exact .stay (.refl _)
  · exact .single rfl (c.moved_read _)

/-- All blanks at the cursor are read. -/
theorem rest_of_blanks (h : blanks c = (l, d)) : d.rest = c.rest.drop c.rest.blanksAhead := by
  obtain ⟨hzero, -, rfl⟩ | ⟨-, -, rfl⟩ := blanks_cases h
  · rw [hzero]; rfl
  · rfl

theorem length_rest_of_blanks (h : blanks c = (l, d)) : d.rest.length ≤ c.rest.length := by
  rw [rest_of_blanks h, List.length_drop]
  omega

/-- Cutting a location in two keeps its text and its ends. -/
theorem splitAt_ofText (p : Position) (t : Text) (n : ℕ) :
    (Location.ofText p t).splitAt n =
      (.ofText p (t.take n), .ofText (p.after (t.take n)) (t.drop n)) := by
  have htake : t.take (min n t.length) = t.take n := by rw [List.take_eq_take_iff]; omega
  have hdrop : t.drop (min n t.length) = t.drop n := by
    rcases Nat.le_total n t.length with h | h
    · rw [Nat.min_eq_left h]
    · rw [Nat.min_eq_right h, List.drop_length, List.drop_eq_nil_of_le h]
  have hstop : p.after t = (p.after (t.take n)).after (t.drop n) := by
    rw [← Position.after_append, List.take_append_drop]
  simp only [Location.splitAt, Location.length_ofText, Location.text_ofText, htake, hdrop]
  simp only [Location.ofText, hstop]

/-! ## Steps that leave the cursor where it is -/

theorem reportMissingEnd_moved (name : Text) (place : Option Location) :
    Ends (reportMissingEnd name place) c fun _ d => c.Moved [] d :=
  Ends.get_bind (report_moved _ _)

/-- Elements are closed without reading on. -/
theorem closeFlattened_moved (base : ℕ) (c : Context) : c.Moved [] (closeFlattened base c).2 := by
  have hreports : Ends (closeFlattened base) c fun _ d => c.Moved [] d := by
    refine Ends.get_bind (Ends.modify_bind ?_)
    have htrunc := c.moved_truncateFlattened base
    exact (forM_moved (fun _ _ => reportMissingEnd_moved _ _) _).imp fun _ _ hd => htrunc.trans_stay hd
  exact hreports

end Parse

namespace Context

variable {c d e : Context} {n : Node} {w : ℤ}

/-- What is ahead before the end of the template. -/
theorem rest_ne_nil_of_not_atEnd (h : ¬ c.atEnd = true) : c.rest ≠ [] := by
  intro hnil; exact h (by simp [atEnd, hnil])

/-- What was read and what is left are all that was there. -/
theorem length_rest_read (c : Context) (n : ℕ) :
    (c.rest.take n).length + (c.read n).2.rest.length = c.rest.length := by
  rw [← List.length_append, ← (c.moved_read n).rest]

/-- Before the end of the text something is read. -/
theorem length_rest_read_lt (c : Context) {n : ℕ} (hn : 0 < n) (hne : c.rest ≠ []) :
    (c.read n).2.rest.length < c.rest.length := by
  have hlength := List.length_pos_of_ne_nil hne
  show (c.rest.drop n).length < _
  rw [List.length_drop]
  omega

theorem moved_reportIf (c : Context) (b : Prop) [Decidable b] (p : Problem) (l : Location) :
    c.Moved [] (c.reportIf b p l) := by
  unfold reportIf
  split
  · exact c.moved_report _
  · exact .refl c

theorem moved_declared (c : Context) (known : Bool) (l : Location) : c.Moved [] (c.declared known l) :=
  (c.moved_reportIf _ _ _).trans_stay (moved_reportIf _ _ _ _)

theorem moved_entered (c : Context) (name : Text) : c.Moved [] (c.entered name) := by
  unfold entered
  split
  · exact .refl c
  · exact c.moved_pushElement name

theorem moved_left (c : Context) (name : Text) : c.Moved [] (c.left name) := by
  unfold left
  split
  · exact .refl c
  · exact c.moved_popElement

/-- A step without a node reads nothing. -/
theorem SilentStep.moved (h : c.SilentStep d) : c.Moved [] d := by
  cases h with
  | tooDeep => exact c.moved_reportTooDeep
  | skip n hnone =>
    have hread := c.moved_read n
    rwa [hnone] at hread
  | close base => exact Parse.closeFlattened_moved base c
  | cutOff => exact c.moved_report _

/-! ## Leaves -/

/-- A run of text and the blanks at its end, edge to edge. -/
theorem reads_trailing {k : Kind} {s t : Text} (h : c.Moved (s ++ t) d) :
    c.Reads (.leaf k (.token s) (.ofText c.pos s) :: Node.blankPieces (trailing (c.pos.after s) t)) d := by
  unfold trailing
  split
  case isTrue hnil => exact .single rfl (by simpa [hnil] using h)
  case isFalse => exact ⟨[s, t], rfl, by simpa using h⟩

/-- **A leaf is what was read for it**, with the blanks around it. -/
theorem LeafStep.reads (h : c.LeafStep n w d) : c.Reads n.pieces d := by
  cases h with
  | token => exact .single rfl (c.moved_read _)
  | absent => exact .single (t := []) rfl (c.moved_report _)
  | sign c₁ hlead _ htrail =>
    have hone : c₁.Reads (Node.token .equals (.ofText c₁.pos (c₁.rest.take 1))).pieces (c₁.read 1).2 :=
      .single rfl (c₁.moved_read 1)
    have hsign := (Parse.blanks_reads hlead).trans (hone.trans (Parse.blanks_reads htrail))
    simpa [Node.pieces_withTrivia (n := .token _ _) rfl] using hsign
  | marker => exact .single rfl (c.moved_read 1)
  | escaped => exact .single rfl (c.moved_read 2)
  | invalid => exact .single rfl ((c.moved_read 1).trans_stay (moved_report _ _))
  | declaration => exact .single rfl ((c.moved_read _).trans_stay (moved_declared _ _ _))
  | literal c₁ m hlead _ _ _ hrun =>
    have hmoved := c₁.moved_read m
    rw [hrun] at hmoved
    have hboth := (Parse.blanks_reads hlead).trans (reads_trailing (k := .literal) hmoved)
    simpa [Node.pieces_withTrivia (n := .token _ _) rfl] using hboth
  | blank hblank =>
    obtain ⟨ts, hts, hmoved⟩ := Parse.blanks_reads hblank
    exact ⟨ts, hts, hmoved⟩

/-- A leaf costs one node, and what is read for it pays for six. -/
theorem LeafStep.size (h : c.LeafStep n w d) : 1 + 6 * (d.rest.length : ℤ) ≤ 6 * c.rest.length + w := by
  cases h with
  | token m =>
    have := c.length_rest_read m
    omega
  | absent =>
    rw [(c.moved_report _).rest_eq]
    omega
  -- blanks may be empty, so only the sign itself is sure to pay
  | sign c₁ hlead hne htrail =>
    have := c₁.length_rest_read_lt Nat.one_pos hne
    have := Parse.length_rest_of_blanks hlead
    have := Parse.length_rest_of_blanks htrail
    omega
  | marker hne =>
    have := c.length_rest_read_lt Nat.one_pos hne
    omega
  | escaped hne =>
    have := c.length_rest_read_lt Nat.two_pos hne
    omega
  | invalid hne =>
    have := c.length_rest_read_lt Nat.one_pos hne
    rw [(moved_report _ _).rest_eq]
    omega
  | declaration m known hstart =>
    have hne : c.rest ≠ [] := by
      intro hnil
      rw [hnil] at hstart
      exact absurd hstart (by decide)
    have := c.length_rest_read_lt (n := m + 1) m.succ_pos hne
    rw [(moved_declared _ _ _).rest_eq]
    omega
  -- what is left of the run after trimming is not empty
  | literal c₁ m hlead _ _ _ hrun htrimmed =>
    have hpos : 0 < (c₁.rest.take m).length := by
      rw [hrun, List.length_append]
      have := List.length_pos_of_ne_nil htrimmed.ne_nil
      omega
    have := c₁.length_rest_read m
    have := Parse.length_rest_of_blanks hlead
    omega
  | blank hblank =>
    obtain ⟨-, hnone, -⟩ | ⟨hpos, -, rfl⟩ := Parse.blanks_cases hblank
    · cases hnone
    · have hne : c.rest ≠ [] := by
        intro hnil
        rw [hnil] at hpos
        exact hpos rfl
      have := c.length_rest_read_lt (Nat.pos_of_ne_zero hpos) hne
      omega

/-- Leaves have the shape of their kinds. -/
theorem LeafStep.shaped (h : c.LeafStep n w d) : n.Shaped c.transition := by
  cases h with
  | @token k _ hkind =>
    refine Node.shaped_token ?_ _
    revert hkind
    cases k <;> decide
  | absent hcode => exact ⟨Code.canMiss_of_missing? hcode, .inl rfl⟩
  | sign => exact (Node.shaped_token (.inl rfl) _).withTrivia rfl _
  | marker => exact ⟨.inl rfl, .inl rfl⟩
  | escaped => exact ⟨rfl, .inl rfl⟩
  | invalid => exact Node.shaped_token (.inl rfl) _
  | declaration => exact Node.shaped_token (.inl rfl) _
  | literal => exact (Node.shaped_token (.inl rfl) _).withTrivia rfl _
  | blank => exact Node.shaped_token (.inl rfl) _

/-- An end tag is made of its tokens. -/
theorem EndTag.shaped {cs : List Node} {tr : Char} (h : c.EndTag cs) (hcs : ∀ n ∈ cs, n.Shaped tr) :
    (Node.ofChildren .htmlEndTag cs).Shaped tr :=
  Node.shaped_ofChildren hcs h.kinds (by simp)

end Context

/-! ## Traces -/

namespace Parse.Region.Stops

variable {R : Region} {y : Text} {c d : Context} {n : Node}

/-- The terminator is the last piece of a region. -/
theorem reads (h : R.Stops y c n d) : c.Reads n.pieces d := by
  cases h with
  | missing => exact .single (t := []) rfl (c.moved_report _)
  | token _ hstop =>
    have hread := c.moved_read R.stop.length
    rw [hstop] at hread
    exact .single rfl hread

theorem length_rest_le (h : R.Stops y c n d) : d.rest.length ≤ c.rest.length := by
  obtain ⟨t, ht⟩ := h.reads.moved
  rw [ht.rest, List.length_append]
  omega

/-- The terminator is one node. -/
theorem length_descendants (h : R.Stops y c n d) : n.descendants.length = 1 := by
  cases h <;> rfl

/-- A region has the shape of its kind, whichever way it stops. -/
theorem shaped (h : R.Stops y c n d) {start content : Node} {tr : Char} (hR : R = commentRegion ∨ R = cdataRegion)
    (hstart : start.kind = R.startKind) (hcontent : content.kind = R.contentKind)
    (hns : ∀ m ∈ [start, content], m.Shaped tr) : (Node.ofChildren R.kind [start, content, n]).Shaped tr := by
  have hn : n.Shaped tr ∧ n.kind = R.stopKind := by
    cases h with
    | missing =>
      refine ⟨⟨?_, .inl rfl⟩, rfl⟩
      rcases hR with rfl | rfl <;> rfl
    | token =>
      refine ⟨Node.shaped_token ?_ _, rfl⟩
      rcases hR with rfl | rfl <;> exact .inl rfl
  refine Node.shaped_ofChildren ?_ ?_ ?_
  · simpa [hn.1] using hns
  · simp only [List.map_cons, hstart, hcontent, hn.2]
    rcases hR with rfl | rfl <;> rfl
  · rcases hR with rfl | rfl <;> exact nofun

end Parse.Region.Stops

namespace Parse

variable {o : Opening} {c d : Context} {name : Text} {ns : List Node} {tr : Char}

/-- Content and raw text stand between the tags of an element. -/
theorem Inside.kinds (h : Inside name c ns d) : ∀ n ∈ ns, n.kind.isContent = true ∨ n.kind = .rawText := by
  cases h with
  | content _ hns => exact fun n hn => .inl (hns n hn)
  | raw _ hraw =>
    intro n hn
    exact (hraw.kinds n hn).imp_left Kind.isContent_of_isEmbedded

/-- An element starts with its start tag. -/
theorem Shows.shaped (h : Shows o d) (htag : o.tag.Shaped tr) (hns : ∀ n ∈ ns, n.Shaped tr)
    (hkinds : ∀ n ∈ ns, n.kind.isContent = true ∨ n.kind = .rawText) :
    (Node.ofChildren o.kind (o.tag :: ns)).Shaped tr := by
  refine Node.shaped_ofChildren (List.forall_mem_cons.2 ⟨htag, hns⟩) (o.holds_kind h.kind hkinds) fun hbrace => ?_
  have := o.isElement_kind
  rw [hbrace] at this
  cases this

end Parse

namespace Trace

open Node

variable {b : Bool} {c d : Context} {n : Node} {ns : List Node} {w : ℤ}

/-- **Nothing is lost along a trace**: the pieces of its nodes lie edge to edge over what is read. -/
theorem reads (h : Trace b c ns w d) : c.Reads (piecesAll ns) d := by
  induction h with
  | nil c => exact .stay (.refl c)
  | append _ _ ih ih' =>
    rw [piecesAll_append]
    exact ih.trans ih'
  | le _ _ ih => exact ih
  | loosen _ ih => exact ih
  | text => exact .single rfl (moved_read _ _)
  | silent h => exact .stay h.moved
  | leaf h => simpa using h.reads
  | lead hlead _ hplain _ ih =>
    have hboth := (Parse.blanks_reads hlead).trans ih
    simpa [pieces_withLead hplain] using hboth
  | frame _ _ ih => simpa using ih
  | value _ _ ih => simpa using ih
  | repeated _ _ _ _ _ ih => exact ih.trans_stay (moved_report _ _)
  | region _ _ _ _ _ hstop ih =>
    have hall := ih.trans hstop.reads
    simpa using hall
  | orphan _ _ _ ih =>
    simpa using ih.trans_stay (moved_report _ _)
  | @flattenedEnd c _ _ _ _ i _ _ _ _ _ ih =>
    have hclosed := (Parse.closeFlattened_moved (i + 1) c).trans_stay (moved_truncateFlattened _ i)
    simpa using (Reads.stay hclosed).trans ih
  | empty _ _ _ ih => simpa using ih
  | ended _ _ _ _ _ _ _ _ htag hns hend =>
    have hcontent := htag.trans ((Reads.stay (moved_entered _ _)).trans (hns.trans hend))
    simpa using hcontent.trans_stay (moved_left _ _)
  | unended _ _ _ _ _ _ htag hns =>
    have hcontent := htag.trans ((Reads.stay (moved_entered _ _)).trans hns)
    simpa using (hcontent.trans_stay (moved_report _ _)).trans_stay (moved_left _ _)
  | flattened _ _ _ _ ih =>
    have htag := (Reads.stay (moved_reportTooDeep _)).trans ih
    simpa using htag.trans_stay (moved_pushFlattened _ _ _)

/-- A trace reads on, or stays where it is. -/
theorem moved (h : Trace b c ns w d) : ∃ t, c.Moved t d :=
  h.reads.moved

/-- A trace without nodes leaves the cursor where it is. -/
theorem moved_nil (h : Trace b c [] w d) : c.Moved [] d := by
  obtain ⟨ts, hts, hmoved⟩ := h.reads
  cases ts with
  | nil => exact hmoved
  | cons => cases hts

/-- **The nodes of a trace are paid for by what is read**, up to what it owes. -/
theorem size (h : Trace b c ns w d) :
    ((descendantsAll ns).length : ℤ) + 6 * d.rest.length ≤ 6 * c.rest.length + w := by
  induction h with
  | nil c => simp [descendantsAll]
  -- every node costs one and every character pays for six: each case is this sum over its parts
  | append _ _ ih ih' =>
    rw [descendantsAll_append, List.length_append]
    omega
  | le _ _ ih => omega
  | loosen _ ih => exact ih
  | @text c m hne =>
    have := c.length_rest_read m
    have := List.length_pos_of_ne_nil hne
    simp only [descendantsAll, token, descendants, List.append_nil, List.length_singleton]
    omega
  | silent h => simp [descendantsAll, h.moved.rest_eq]
  | @leaf _ _ n _ h =>
    have hone : (descendantsAll [n]).length = 1 := by
      cases h <;> rfl
    have := h.size
    omega
  | @lead _ _ _ n _ _ hlead _ _ _ ih =>
    have := Parse.length_rest_of_blanks hlead
    rw [descendantsAll_singleton] at ih ⊢
    rw [withLead, descendants_withTrivia, List.length_cons, List.length_tail]
    have : 0 < n.descendants.length := by rw [descendants_eq_cons]; simp
    omega
  | frame _ _ ih =>
    rw [descendantsAll_singleton, descendants_ofChildren, List.length_cons]
    omega
  | value _ _ ih =>
    rw [descendantsAll_singleton, descendants_ofChildren, List.length_cons]
    omega
  | repeated _ _ _ _ _ ih => rwa [(moved_report _ _).rest_eq]
  | region _ _ _ _ _ hstop ih =>
    have := hstop.length_rest_le
    have := hstop.length_descendants
    simp only [descendantsAll, descendants_ofChildren, List.length_append, List.length_cons, List.length_nil]
      at ih ⊢
    omega
  | orphan _ _ _ ih =>
    rw [descendantsAll_singleton, descendants_ofChildren, List.length_cons, (moved_report _ _).rest_eq]
    omega
  | flattenedEnd _ _ _ _ ih =>
    rw [((Parse.closeFlattened_moved _ _).trans_stay (moved_truncateFlattened _ _)).rest_eq] at ih
    rw [descendantsAll_singleton, descendants_ofChildren, List.length_cons]
    omega
  | empty _ _ _ ih =>
    rw [descendantsAll_singleton, descendants_ofChildren, List.length_cons]
    omega
  | ended _ _ _ _ _ _ _ _ htag hns hend =>
    rw [(moved_entered _ _).rest_eq] at hns
    rw [descendantsAll_singleton] at htag
    simp only [descendants_ofChildren, descendantsAll, descendantsAll_append, List.length_append,
      List.length_cons, List.length_nil, (moved_left _ _).rest_eq]
    omega
  | unended _ _ _ _ _ _ htag hns =>
    rw [(moved_entered _ _).rest_eq] at hns
    rw [descendantsAll_singleton] at htag
    simp only [descendants_ofChildren, descendantsAll, List.length_append, List.length_cons, List.length_nil,
      (moved_left _ _).rest_eq, (moved_report _ _).rest_eq]
    omega
  | flattened _ _ _ _ ih =>
    rw [(moved_reportTooDeep _).rest_eq] at ih
    rw [descendantsAll_singleton, descendants_ofChildren, List.length_cons, (moved_pushFlattened _ _ _).rest_eq]
    omega

/-! ## Shapes -/

/-- A trace leaves the transition character alone. -/
theorem transition (h : Trace b c ns w d) : d.transition = c.transition := by
  obtain ⟨t, ht⟩ := h.moved
  exact ht.transition

/-- **The nodes of a trace have the shape that the grammar gives to nodes.** -/
theorem shaped (h : Trace b c ns w d) : ∀ n ∈ ns, n.Shaped c.transition := by
  induction h with
  | nil => simp
  | append hns _ ih ih' => exact List.forall_mem_append.2 ⟨ih, hns.transition ▸ ih'⟩
  | le _ _ ih => exact ih
  | loosen _ ih => exact ih
  | text => exact List.forall_mem_singleton.2 (shaped_token (.inl rfl) _)
  | silent => simp
  | leaf h => exact List.forall_mem_singleton.2 h.shaped
  | @lead c d _ _ _ _ hlead _ _ hkind ih =>
    obtain ⟨t, ht⟩ := (Parse.blanks_reads hlead).moved
    rw [ht.transition, List.forall_mem_singleton] at ih
    exact List.forall_mem_singleton.2 (ih.withTrivia hkind _)
  | frame _ hframe ih => exact List.forall_mem_singleton.2 (shaped_ofChildren ih hframe.holds hframe.brace)
  | value _ hkinds ih =>
    exact List.forall_mem_singleton.2 (shaped_ofChildren ih (List.forall_mem_map.2 hkinds) (by simp))
  | repeated _ _ _ _ _ ih => exact ih
  | region hR _ _ _ _ hstop ih => exact List.forall_mem_singleton.2 (hstop.shaped hR rfl rfl ih)
  | orphan _ htag _ ih => exact List.forall_mem_singleton.2 (htag.shaped ih)
  | @flattenedEnd c _ _ _ _ i _ _ _ _ htag ih =>
    have hclosed := (Parse.closeFlattened_moved (i + 1) c).trans_stay (moved_truncateFlattened _ i)
    rw [hclosed.transition] at ih
    exact List.forall_mem_singleton.2 (htag.shaped ih)
  | empty _ hshows _ ih =>
    rw [List.forall_mem_singleton] at ih ⊢
    exact hshows.shaped ih (by simp) (by simp)
  | ended htag hshows _ hns hinside _ _ hend iho ih ihend =>
    rw [(moved_entered _ _).transition, htag.transition] at ih
    rw [hns.transition, (moved_entered _ _).transition, htag.transition] at ihend
    rw [List.forall_mem_singleton] at iho ⊢
    refine hshows.shaped iho (List.forall_mem_append.2 ⟨ih, ?_⟩) (List.forall_mem_append.2 ⟨hinside.kinds, ?_⟩)
    · exact List.forall_mem_singleton.2 (hend.shaped ihend)
    · exact List.forall_mem_singleton.2 (.inl rfl)
  | unended htag hshows _ _ hinside _ iho ih =>
    rw [(moved_entered _ _).transition, htag.transition] at ih
    rw [List.forall_mem_singleton] at iho ⊢
    exact hshows.shaped iho ih hinside.kinds
  | flattened _ hshows _ _ ih =>
    rw [(moved_reportTooDeep _).transition, List.forall_mem_singleton] at ih
    exact List.forall_mem_singleton.2 (hshows.shaped ih (by simp) (by simp))

end Trace

end Stencil
