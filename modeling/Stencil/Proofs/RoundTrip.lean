import Stencil.Proofs.Flattening
import Stencil.Proofs.Rereading

/-!
# Parsing what was printed

A printed template is read back as the nodes that its items stand for, and nothing is
reported. Every item starts with characters that lead to its own production, and ends
where the text after it stops that production.

* `expression_path`: an expression is a whole path, and no more.
* `content_yields`: **content reads one item.** The elements in it are those of the level
  below.
* `Level.rereads_ofRoom`: elements are read back at every level, as far as their nesting
  has room.
* `parse_print`: a template whose nesting is within the limit is parsed without
  diagnostics into the tree of its items.
-/

namespace Stencil

open Markup

/-! ## Delimiters -/

namespace Text

/-- A text with another first character starts otherwise. -/
theorem startsWith_eq_false {x e : Char} {u es : Text} (h : x ≠ e) :
    startsWith (x :: u) (e :: es) = false := by
  simp [startsWith, h]

/-- A delimiter of two equal characters and another one does not begin before its text. -/
theorem delimiter_not_prefix {x y : Char} (hxy : x ≠ y) {z : Text} (hz : z ≠ []) (hfree : ¬ [x, x, y] <+: z)
    (r : Text) : ¬ [x, x, y] <+: z ++ ([x, x, y] ++ r) := by
  intro h
  -- where it begins less than three characters before, its last one falls on an equal one
  match z, hz with
  | [a], _ =>
    simp only [List.cons_append, List.nil_append, List.cons_prefix_cons] at h
    exact hxy h.2.2.1.symm
  | [a, b], _ =>
    simp only [List.cons_append, List.nil_append, List.cons_prefix_cons] at h
    exact hxy h.2.2.1.symm
  | a :: b :: d :: z, _ =>
    simp only [List.cons_append, List.cons_prefix_cons] at h
    obtain ⟨rfl, rfl, rfl, -⟩ := h
    exact hfree (List.prefix_append [x, x, y] z)

end Text

/-! ## Code -/

namespace Code

theorem isIdentifierChar_of_start {x : Char} (h : isIdentifierStart x = true) :
    isIdentifierChar x = true := by
  unfold isIdentifierStart at h
  unfold isIdentifierChar Char.isAlphanum
  simp only [Bool.or_eq_true] at h ⊢
  tauto

theorem isIdentifierChar_of_mem {i : Identifier} : ∀ x ∈ i.text, isIdentifierChar x = true :=
  List.forall_mem_cons.2 ⟨isIdentifierChar_of_start i.start, i.chars⟩

/-- After an identifier comes an access, or nothing that continues a path. -/
theorem stops_accesses (is : List Identifier) {r : Text} (hr : Text.Stops continuesPath r) :
    Text.Stops isIdentifierChar (accesses is ++ r) := by
  cases is with
  | nil =>
    cases r with
    | nil => exact Text.stops_nil _
    | cons x t =>
      have hnone := Text.stops_cons.1 hr
      simp only [continuesPath, Bool.or_eq_false_iff] at hnone
      exact Text.stops_cons.2 hnone.1.1.1
  | cons i is => exact Text.stops_cons.2 (by decide)

/-- An identifier ends where the next access begins, or the path does. -/
theorem takeWhile_identifier (i : Identifier) (is : List Identifier) {r : Text}
    (hr : Text.Stops continuesPath r) : (i.text ++ (accesses is ++ r)).takeWhile isIdentifierChar = i.text :=
  Text.takeWhile_append_of_stops isIdentifierChar_of_mem (stops_accesses is hr)

/-- Nothing continues a path that stops. -/
theorem chain_of_stops {r : Text} (hr : Text.Stops continuesPath r) : chain r = ⟨0, []⟩ := by
  cases r with
  | nil => rw [chain]
  | cons x t =>
    have hnone := Text.stops_cons.1 hr
    simp only [continuesPath, Bool.or_eq_false_iff, beq_eq_false_iff_ne] at hnone
    have hclosing : closing? x = none := by
      unfold closing?
      split
      · exact absurd rfl hnone.1.2
      · exact absurd rfl hnone.2
      · rfl
    rw [chain]
    simp [hnone, hclosing]

/-- **A chain of accesses is read as a whole.** -/
theorem chain_accesses (is : List Identifier) {r : Text} (hr : Text.Stops continuesPath r) :
    chain (accesses is ++ r) = ⟨(accesses is).length, []⟩ := by
  induction is with
  | nil => exact chain_of_stops hr
  | cons i is ih =>
    have htext : accesses (i :: is) ++ r = '.' :: (i.text ++ (accesses is ++ r)) := by simp [accesses]
    have hstart : isIdentifierStart (Text.ahead (i.text ++ (accesses is ++ r)) 0) = true := i.start
    have hlength : (accesses (i :: is)).length = 1 + i.text.length + (accesses is).length := by
      simp only [accesses, List.length_append, List.length_singleton, Nat.add_assoc]
    rw [htext, chain, takeWhile_identifier i is hr, hstart]
    dsimp only
    rw [List.drop_left, ih, if_pos (by decide), hlength]
    rfl

/-- **An expression is a whole path**, and no more. -/
theorem expression_path (e : Path) {r : Text} (hr : Text.Stops continuesPath r) :
    expression (e.text ++ r) = ⟨e.text.length, []⟩ := by
  rw [expression, Path.text, List.append_assoc, takeWhile_identifier e.first e.more hr, List.drop_left,
    chain_accesses e.more hr, Extent.after, List.length_append]

end Code

namespace Context

variable {c d : Context} {s : Spot} {t : Text}

/-- No end tag belongs to a flattened element. -/
theorem At.flattened_none (hc : c.At s t) :
    ∀ name, c.rest.endTagName? = some name → name.lower ∉ c.flattened.map Flattened.name := by
  intro name _
  rw [hc.flattened]
  exact List.not_mem_nil

/-- What passes while an element is open passes around it. -/
theorem Passes.pop {name : Text} (h : (c.pushElement name).Passes t d) : c.Passes t d.popElement where
  toMoved := ((c.moved_pushElement name).trans h.toMoved).trans_stay d.moved_popElement
  diagnostics := h.diagnostics
  openElements := by rw [popElement, h.openElements]; rfl
  flattened := h.flattened

end Context

namespace Parse

variable {s : Spot} {t r : Text} {code element : Parse Node}

open Yields

section

variable {body : Parse (List Node)}

/-- **Escaped transitions** are read back. -/
theorem embedded_yields_escape :
    Yields (embedded body) s (Item.print .escape) r (Item.node s.pos .escape) := by
  refine get_bind fun c hc => ?_
  have hpeek : c.peek = c.transition := by
    rw [hc.transition, Context.peek, Context.peekAt, hc.rest]; rfl
  rw [if_pos hpeek]
  refine (read_yields (t := ['@', '@']) rfl).bind (u := []) (get_bind fun d hd => ?_)
  rw [hd.transition]
  exact Yields.pure _

theorem code_yields : Yields (Parse.code ⟨t.length, []⟩) s t r (tokenAt .codeValue s.pos t) :=
  (token_yields (by rfl)).map id

/-- **Expressions** are read back. -/
theorem embedded_yields_expression (e : Path) (hr : Text.Stops continuesPath r) :
    Yields (embedded body) s (Item.print (.expression e)) r (Item.node s.pos (.expression e)) := by
  refine get_bind fun c hc => ?_
  have hpeek : c.peek = e.first.head := by
    rw [Context.peek, Context.peekAt, hc.rest]; rfl
  have hstart := e.first.start
  have hat : ¬ c.peek = c.transition := by
    rw [hpeek, hc.transition]
    intro h; rw [h] at hstart; exact absurd hstart (by decide)
  have hbrace : ¬ c.peek = '{' := by
    rw [hpeek]
    intro h; rw [h] at hstart; exact absurd hstart (by decide)
  rw [if_neg hat, if_neg hbrace, hpeek, if_pos hstart]
  refine ((read_yields (t := ['@']) rfl).map _).bind (get_bind fun d hd => ?_)
  rw [hd.rest, Code.expression_path e hr]
  exact code_yields.map _

end

/-! ## Regions -/

/-- **Comments and the like** are read back if their terminator is not in them. -/
theorem region_yields {R : Region} {x y : Char} (hstop : R.stop = [x, x, y]) (hxy : x ≠ y)
    (hnul : Text.nul ∉ R.stop) (hfree : ¬ R.stop <:+: t) :
    Yields (region R) s (R.start ++ (t ++ R.stop)) r
      (Item.regionNode s.pos R.kind R.startKind R.contentKind R.stopKind R.start t R.stop) := by
  refine (token_yields (by rfl)).bind (get_bind fun c hc => ?_)
  have hcount : c.rest.runLength (fun _ u => u.startsWith R.stop) none = t.length := by
    rw [hc.rest, List.append_assoc]
    refine Text.runLength_append (fun _ a b hab => ?_) (.inr ?_)
    · rw [← Bool.not_eq_true, Text.startsWith_iff hnul, hstop]
      rw [hstop] at hfree
      refine Text.delimiter_not_prefix hxy (List.cons_ne_nil a b) (fun h => hfree ?_) r
      exact h.isInfix.trans hab.isInfix
    · rw [Text.startsWith_iff hnul]
      exact List.prefix_append _ _
  refine (token_yields hcount).bind (get_bind fun d hd => ?_)
  rw [hstop] at hd
  rw [hd.atEnd]
  exact (token_yields (by rfl)).map _

/-! ## Text -/

/-- Text ends before `r`. -/
def EndsText (previous : Option Char) (r : Text) : Prop :=
  r = [] ∨ stopsText '@' previous r = true

theorem stopsText_eq_false {x : Char} {u : Text} {previous : Option Char} (hx : x ≠ '<' ∧ x ≠ '@') :
    stopsText '@' previous (x :: u) = false := by
  simp [stopsText, startsTransition, Text.ahead, hx]

theorem EndsText.stops_blank {previous : Option Char} (h : EndsText previous r) : Text.Stops Text.isBlank r := by
  obtain rfl | hstop := h
  · exact Text.stops_nil _
  · cases r with
    | nil => exact Text.stops_nil _
    | cons x u =>
      have hx : x = '<' ∨ x = '@' := by
        by_contra hnone
        rw [stopsText_eq_false (not_or.1 hnone)] at hstop
        cases hstop
      obtain rfl | rfl := hx <;> exact Text.stops_cons.2 (by decide)

/-- A run of text is read back, with the blanks at its end apart. -/
theorem literalRun_yields (lead : Option Location) (ht : ∀ x ∈ t, x ≠ '<' ∧ x ≠ '@')
    (hr : EndsText (s.after t).previous r) :
    Yields (literalRun lead) s t r ((tokenAt .literal s.pos t.trimRight).withTrivia
      ⟨lead, blankAt (s.pos.after t.trimRight) (t.drop t.trimRight.length)⟩) := by
  refine get_bind fun c hc => ?_
  have hcount : c.rest.runLength (stopsText c.transition) c.previous? = t.length := by
    rw [hc.rest, hc.transition, hc.previous]
    exact Text.runLength_append_of_mem (fun _ x hx _ => stopsText_eq_false (ht x hx)) hr
  have htake : t.take t.trimRight.length = t.trimRight :=
    (List.prefix_iff_eq_take.1 ⟨_, t.trimRight_append_blanks⟩).symm
  refine of_text_eq (bind (u := []) (read_yields hcount) ?_) (List.append_nil t)
  show Yields (if t.trimRight.length = t.length then _ else _ : Parse Node) _ _ _ _
  split
  · rename_i hwhole
    have hsame : t.trimRight = t := by rw [← htake, hwhole, List.take_length]
    rw [hsame, List.drop_length]
    exact Yields.pure _
  · rename_i hpart
    have hdrop : t.drop t.trimRight.length ≠ [] := by
      intro hnil
      have hle := List.drop_eq_nil_iff.1 hnil
      have hlen := congrArg List.length htake
      rw [List.length_take] at hlen
      omega
    rw [splitAt_ofText, Location.text_ofText, htake, blankAt, if_neg hdrop]
    exact Yields.pure _

theorem contentText_yields_blank (hne : t ≠ []) (ht : ∀ x ∈ t, Text.isBlank x = true)
    (hr : EndsText (s.after t).previous r) : Yields contentText s t r (tokenAt .trivia s.pos t) := by
  refine of_text_eq (bind (u := []) (blanks_yields ht hr.stops_blank) ?_) (List.append_nil t)
  refine get_bind fun c hc => ?_
  have hstop : (c.atEnd || stopsText c.transition c.previous? c.rest) = true := by
    have hrest : c.rest = r := hc.rest
    rw [hc.transition, hc.previous, Context.atEnd, hrest]
    obtain rfl | hstop := hr
    · rfl
    · rw [hstop, Bool.or_true]
  rw [if_pos hstop, blankAt, if_neg hne]
  exact Yields.pure _

/-- **Text** is read back with the blanks on both sides of it. -/
theorem contentText_yields_literal {lead : Text} (hlead : ∀ x ∈ lead, Text.isBlank x = true) (hne : t ≠ [])
    (hblank : Text.Stops Text.isBlank t) (ht : ∀ x ∈ t, x ≠ '<' ∧ x ≠ '@')
    (hr : EndsText (s.after (lead ++ t)).previous r) :
    Yields contentText s (lead ++ t) r ((tokenAt .literal (s.pos.after lead) t.trimRight).withTrivia
      ⟨blankAt s.pos lead,
        blankAt ((s.pos.after lead).after t.trimRight) (t.drop t.trimRight.length)⟩) := by
  rw [Spot.after_append] at hr
  have hrun (l : Option Location) := literalRun_yields l ht hr
  obtain ⟨x, u, rfl⟩ := List.exists_cons_of_ne_nil hne
  refine (blanks_yields hlead (Text.stops_cons.2 (Text.stops_cons.1 hblank))).bind (get_bind fun c hc => ?_)
  have hgo : (c.atEnd || stopsText c.transition c.previous? c.rest) = false := by
    rw [hc.atEnd, hc.rest, hc.transition]
    exact stopsText_eq_false (ht x List.mem_cons_self)
  -- with or without blanks before it, the text is one run
  rw [hgo]
  exact hrun (blankAt s.pos lead)

/-- **Text is read back**, with the blanks around it. -/
theorem contentText_yields (x : PlainText) (hr : EndsText (s.after x.text).previous r) :
    Yields contentText s x.text r (Item.textNode s.pos x.text) := by
  obtain ⟨t, hne, hplain⟩ := x
  have hsplit : t.takeWhile Text.isBlank ++ t.dropWhile Text.isBlank = t := List.takeWhile_append_dropWhile
  have hlead : ∀ x ∈ t.takeWhile Text.isBlank, Text.isBlank x = true := fun x hx => List.mem_takeWhile_imp hx
  unfold Item.textNode
  dsimp only at hr ⊢
  by_cases hbody : t.dropWhile Text.isBlank = []
  · rw [hbody, List.append_nil] at hsplit
    rw [hsplit] at hlead
    rw [if_pos hbody]
    exact contentText_yields_blank hne hlead hr
  · have hblank : Text.Stops Text.isBlank (t.dropWhile Text.isBlank) := by
      have hhead := List.head_dropWhile_not Text.isBlank hbody
      rw [Text.Stops, List.head?_eq_some_head hbody, Option.any_some, hhead]
    rw [if_neg hbody]
    rw [← hsplit] at hr
    refine of_text_eq (contentText_yields_literal hlead hbody hblank ?_ hr) hsplit
    exact fun y hy => hplain y ((List.dropWhile_sublist _).subset hy)

/-! ## Items -/

/-- An item that is not text stops the text before it. -/
theorem stopsText_print {i : Item} {previous : Option Char} (hi : i.isText = false)
    (hfits : i.fits previous r = true) : stopsText '@' previous (i.print ++ r) = true := by
  cases i with
  | text t => cases hi
  | expression e =>
    rw [Item.fits, Bool.and_eq_true] at hfits
    rw [stopsText, startsTransition, hfits.1, Bool.or_true]
    rfl
  | escape => rfl
  | comment | cdata | element | void | closed => rfl

/-- A tag starts with nothing else that starts with its bracket. -/
theorem startsWith_eq_false_of_tag {n : TagName} {as : Attributes} {e : TagEnd} (h : n.startTag as e <+: t)
    {x : Char} {es : Text} (hx : x = '!' ∨ x = '/') : (t ++ r).startsWith ('<' :: x :: es) = false := by
  obtain ⟨u, rfl⟩ := h
  obtain ⟨y, name, hname, hbang, hslash⟩ := n.exists_cons
  have hne : y ≠ x := by obtain rfl | rfl := hx <;> assumption
  rw [TagName.startTag, hname, Text.startsWith, Bool.and_eq_false_iff]
  exact .inr (Text.startsWith_eq_false hne)

/-- No item starts with an end tag. -/
theorem endTagName?_print (i : Item) : (i.print ++ r).endTagName? = none := by
  have hstart : (i.print ++ r).startsWith ['<', '/'] = false := by
    by_cases hi : i.isTag = true
    · obtain ⟨n, as, e, htag⟩ := Item.exists_startTag hi
      exact startsWith_eq_false_of_tag htag (.inr rfl)
    · cases i with
      | text t =>
        obtain ⟨t, hne, hplain⟩ := t
        obtain ⟨x, u, rfl⟩ := List.exists_cons_of_ne_nil hne
        exact Text.startsWith_eq_false (hplain x List.mem_cons_self).1
      | expression | escape | comment | cdata => rfl
      | element | void | closed => exact absurd rfl hi
  rw [Text.endTagName?, hstart]
  rfl

/-- Comments are recognised by how they start. -/
theorem markup_yields_comment (x : Enclosed ['-', '-', '>']) :
    Yields (markup element) s (Item.print (.comment x)) r (Item.node s.pos (.comment x)) := by
  refine get_bind fun c hc => ?_
  have hstart : c.rest.startsWith commentRegion.start = true := by rw [hc.rest]; rfl
  dsimp only
  rw [if_pos hstart]
  exact region_yields (R := commentRegion) rfl (by decide) (by decide) x.free

theorem markup_yields_cdata (x : Enclosed [']', ']', '>']) :
    Yields (markup element) s (Item.print (.cdata x)) r (Item.node s.pos (.cdata x)) := by
  refine get_bind fun c hc => ?_
  have hcomment : c.rest.startsWith commentRegion.start = false := by rw [hc.rest]; rfl
  have hstart : c.rest.startsWith cdataRegion.start = true := by rw [hc.rest]; rfl
  dsimp only
  rw [hcomment, if_neg Bool.false_ne_true, if_pos hstart]
  exact region_yields (R := cdataRegion) rfl (by decide) (by decide) x.free

/-- Where a tag starts, an element is read. -/
theorem markup_yields_tag {n : TagName} {as : Attributes} {e : TagEnd} (ht : n.startTag as e <+: t) {x : Node}
    (h : Yields element s t r x) : Yields (markup element) s t r x := by
  refine get_bind fun c hc => ?_
  have hno {y : Char} {es : Text} (hy : y = '!' ∨ y = '/') : c.rest.startsWith ('<' :: y :: es) = false := by
    rw [hc.rest]
    exact startsWith_eq_false_of_tag ht hy
  have hcomment : c.rest.startsWith commentRegion.start = false := hno (.inl rfl)
  have hcdata : c.rest.startsWith cdataRegion.start = false := hno (.inl rfl)
  dsimp only
  rw [hcomment, hcdata, hno (.inl rfl), hno (.inr rfl)]
  exact h

/-- Content that starts with a transition is code. -/
theorem content_yields_code {x : Node} (ht : startsTransition '@' s.previous (t ++ r) = true)
    (h : Yields code s t r x) : Yields (content code element) s t r x := by
  refine get_bind fun c hc => ?_
  have hat : c.atTransition = true := by
    rw [Context.atTransition, hc.transition, hc.previous, hc.rest]
    exact ht
  rw [if_pos hat]
  exact h

/-- Content that starts with an angle bracket is markup. -/
theorem content_yields_markup {u : Text} {x : Node} (ht : t = '<' :: u)
    (h : Yields (markup element) s t r x) : Yields (content code element) s t r x := by
  refine get_bind fun c hc => ?_
  rw [ht] at hc
  rw [hc.atTransition (by decide), hc.current, if_neg Bool.false_ne_true, if_pos rfl]
  exact h

end Parse

/-- Elements are read back if they are nested in at most `room` levels. -/
structure Level.Rereads (l : Level) (room : ℕ) : Prop where
  code : ∃ body, l.code = Parse.embedded body
  element : ∀ {i : Item} {s : Spot} {r : Text}, i.isTag = true → i.nesting ≤ room →
    i.fits s.previous r = true → Parse.Yields l.element s i.print r (i.node s.pos)

namespace Parse

variable {s : Spot} {r : Text} {l : Level} {room : ℕ}

/-- **Content reads one item.** -/
theorem content_yields (hl : l.Rereads room) {i : Item} (hroom : i.nesting ≤ room)
    (hfits : i.fits s.previous r = true)
    (hstop : i.isText = true → EndsText (s.after i.print).previous r) :
    Yields (content l.code l.element) s i.print r (i.node s.pos) := by
  obtain ⟨body, hcode⟩ := hl.code
  by_cases hi : i.isTag = true
  · obtain ⟨n, as, e, u, htag⟩ := Item.exists_startTag hi
    exact content_yields_markup htag.symm (markup_yields_tag ⟨u, htag⟩ (hl.element hi hroom hfits))
  cases i with
  | text t =>
    obtain ⟨x, u, hx⟩ := List.exists_cons_of_ne_nil t.ne_nil
    obtain ⟨hbracket, hat⟩ := t.plain x (by rw [hx]; exact List.mem_cons_self)
    refine Yields.get_bind fun c hc => ?_
    rw [Item.print, hx] at hc
    rw [hc.atTransition hat, hc.current, if_neg Bool.false_ne_true, if_neg hbracket]
    exact contentText_yields t (hstop rfl)
  | escape => exact content_yields_code rfl (hcode ▸ embedded_yields_escape)
  | expression e =>
    rw [Item.fits, Bool.and_eq_true, Bool.not_eq_true', Bool.not_eq_true'] at hfits
    have hstart : startsTransition '@' s.previous (Item.print (.expression e) ++ r) = true := by
      rw [startsTransition, hfits.1, Bool.not_false, Bool.or_true]
      rfl
    exact content_yields_code hstart (hcode ▸ embedded_yields_expression e hfits.2)
  | comment x => exact content_yields_markup rfl (markup_yields_comment x)
  | cdata x => exact content_yields_markup rfl (markup_yields_cdata x)
  | element | void | closed => exact absurd rfl hi

/-- **A loop over content reads items**, if it goes on at each of them and ends after
the last. -/
theorem items_yields (hl : l.Rereads room) {step : Parse (Option Node)}
    (hstep : ∀ {s : Spot} {i : Item} {r : Text},
      Yields (content l.code l.element) s i.print r (i.node s.pos) → Yields step s i.print r (some (i.node s.pos)))
    (hend : ∀ s, Yields step s [] r none) (hr : ∀ previous, EndsText previous r)
    {is : List Item} (hroom : Item.nestingAll is ≤ room) (hfits : Item.fitsAll s.previous r is = true) :
    Yields (manyNodes step) s (Item.printAll is) r (Item.nodesAll s.pos is) := by
  induction is generalizing s with
  | nil => exact Yields.manyNodes_none (hend s)
  | cons i is ih =>
    -- the neighbours that the item was fitted to are those that the parser sees
    rw [Item.fitsAll, Bool.and_eq_true, Bool.and_eq_true, Bool.not_eq_true'] at hfits
    obtain ⟨⟨hfirst, hadjacent⟩, hmore⟩ := hfits
    have hprevious : (s.after i.print).previous = i.print.getLast? := by
      rw [Spot.after, List.getLast?_eq_some_getLast i.print_ne_nil]; rfl
    rw [← hprevious] at hmore
    have hstop : i.isText = true → EndsText (s.after i.print).previous (Item.printAll is ++ r) := by
      intro htext
      cases is with
      | nil => exact hr _
      | cons j js =>
        rw [htext, Bool.true_and] at hadjacent
        rw [Item.fitsAll, Bool.and_eq_true, Bool.and_eq_true] at hmore
        rw [Item.printAll, List.append_assoc]
        exact .inr (stopsText_print hadjacent hmore.1.1)
    have hi := content_yields hl ((le_max_left _ _).trans hroom) hfirst hstop
    exact Yields.manyNodes_some i.print_ne_nil (hstep hi) (ih ((le_max_right _ _).trans hroom) hmore)

/-! ## Elements -/

section

variable {code element : Parse Node} {t : Text}

theorem endTagName?_endTag (n : TagName) : (n.endTag ++ r).endTagName? = some n.text := by
  have hname : (n.text ++ ['>'] ++ r).takeWhile Html.isNameChar = n.text := by
    rw [List.append_assoc]
    exact Text.takeWhile_append_of_stops n.chars (Text.stops_cons.2 (by decide))
  exact congrArg some hname

theorem rest_ne_nil_of_print {i : Item} {c : Context} (hc : c.At s (i.print ++ r)) : c.rest ≠ [] := by
  rw [hc.rest]
  exact List.append_ne_nil_of_left_ne_nil i.print_ne_nil _

/-- **Each item of a document is one turn of the loop.** -/
theorem documentPart_yields {i : Item} {x : Node} (h : Yields (content code element) s i.print r x) :
    Yields (documentPart code element 0) s i.print r (some x) := by
  intro c hc
  have hne := rest_ne_nil_of_print hc
  obtain ⟨hx, hpass⟩ := h c hc
  unfold Ends
  rw [documentPart_eq_content code element hne hc.flattened_none]
  exact ⟨congrArg some hx, hpass⟩

theorem documentPart_yields_none : Yields (documentPart code element 0) s [] [] none := by
  refine Yields.get_bind fun c hc => ?_
  have hend : c.atEnd = true := by rw [Context.atEnd, hc.rest]; rfl
  rw [hend]
  exact Yields.pure none

/-- So is each item of an element. -/
theorem elementPart_yields {i : Item} {x : Node} (name : Text)
    (h : Yields (content code element) s i.print r x) :
    Yields (elementPart code element name 0) s i.print r (some x) := by
  intro c hc
  have hne := rest_ne_nil_of_print hc
  have htag : c.rest.endTagName? = none := by rw [hc.rest, endTagName?_print]
  obtain ⟨hx, hpass⟩ := h c hc
  unfold Ends
  rw [elementPart_eq_ite code element name hne hc.flattened_none, htag]
  exact ⟨congrArg some hx, hpass⟩

/-- The end tag of the element ends the loop. -/
theorem elementPart_yields_none (n : TagName) :
    Yields (elementPart code element n.text 0) s [] (n.endTag ++ r) none := by
  intro c hc
  have hrest : c.rest = n.endTag ++ r := hc.rest
  have hne : c.rest ≠ [] := by rw [hrest]; exact List.cons_ne_nil _ _
  have hown : (c.rest.endTagName?.any fun other => other.sameLetters n.text || c.isOpen other) = true := by
    rw [hrest, endTagName?_endTag, Option.any_some, Text.sameLetters_self, Bool.true_or]
  unfold Ends
  rw [elementPart_eq_ite code element n.text hne hc.flattened_none, if_pos hown]
  exact ⟨rfl, .refl c⟩

theorem closeFlattened_yields : Yields (closeFlattened 0) s [] r () := by
  intro c hc
  have hsame : c.leave c.flattened [] = c := by
    rw [Context.leave, hc.flattened, List.map_nil, List.append_nil, ← hc.flattened]
  unfold Ends
  rw [closeFlattened_zero, hsame]
  exact ⟨rfl, .refl c⟩

/-- **End tags** are read back. -/
theorem elementEnd_yields (n : TagName) (place : Option Location) :
    Yields (elementEnd n.text place) s n.endTag r [n.endNode s.pos] := by
  refine Yields.get_bind fun c hc => ?_
  have hown : (c.rest.endTagName?.any fun other => other.sameLetters n.text) = true := by
    rw [hc.rest, endTagName?_endTag, Option.any_some, Text.sameLetters_self]
  rw [if_pos hown]
  exact (endTag_yields n).map fun x => [x]

/-- The content of an element is read with the element open, and its end tag closes it. -/
theorem elementContent_yields (n : TagName) (place : Option Location) {ns : List Node}
    (h : Yields (manyNodes (elementPart code element n.text 0)) s t (n.endTag ++ r) ns) :
    Yields (elementContent code element n.text place) s (t ++ n.endTag) r
      (ns ++ [n.endNode (s.pos.after t)]) := by
  intro c hc
  have hat : (c.pushElement n.text).At s (t ++ n.endTag ++ r) :=
    ⟨hc.previous, hc.pos, hc.rest, hc.transition, hc.flattened⟩
  have hinner : Yields (do
      let nodes ← manyNodes (elementPart code element n.text 0)
      closeFlattened 0
      let last ← elementEnd n.text place
      return nodes ++ last) s (t ++ n.endTag) r (ns ++ [n.endNode (s.pos.after t)]) :=
    h.bind (closeFlattened_yields.bind_nil ((elementEnd_yields n place).map fun last => ns ++ last))
  have hbase : (c.pushElement n.text).flattenedCount = 0 := by
    rw [Context.flattenedCount, hat.flattened]; rfl
  obtain ⟨hnodes, hpass⟩ := hinner _ hat
  refine Ends.modify_bind (Ends.get_bind ?_)
  rw [hbase]
  exact ⟨hnodes, hpass.pop⟩

/-- **An element is read back** with its content, if its content is. -/
theorem nestedElement_yields (n : ElementName) (as : Attributes) {is : List Item}
    (h : ∀ s : Spot, s.previous = some '>' → Yields (manyNodes (elementPart code element n.text 0)) s
      (Item.printAll is) (n.endTag ++ r) (Item.nodesAll s.pos is)) :
    Yields (nestedElement code element) s (Item.print (.element n as is)) r
      (Item.node s.pos (.element n as is)) := by
  have hcontent : (openingOf s.pos n.toTagName as .opened).contentName? = some n.text := by
    simp [Opening.contentName?, openingOf, TagEnd.isOpened, n.not_void]
  have hkind : (openingOf s.pos n.toTagName as .opened).kind = .htmlTag := TagName.kind_of_not_raw n.not_raw
  have hlast : (n.startTag as .opened).getLast? = some '>' := by
    rw [TagName.startTag, ← List.append_assoc, ← List.append_assoc]
    exact List.getLast?_concat
  have hprevious : (s.after (n.startTag as .opened)).previous = some '>' := by rw [Spot.after, hlast]; rfl
  refine (opening_yields n.toTagName as .opened).bind ?_
  rw [hcontent, hkind]
  dsimp only
  rw [n.not_raw, if_neg Bool.false_ne_true]
  exact (elementContent_yields n.toTagName _ (h _ hprevious)).map _

/-- A tag without content is an element by itself. -/
theorem nestedElement_yields_tag (n : TagName) (as : Attributes) (e : TagEnd) {k : Kind} (hkind : n.kind = k)
    (h : e.isOpened = true → Html.isVoid n.text = true) :
    Yields (nestedElement code element) s (n.startTag as e) r (.ofChildren k [n.startNode s.pos as e]) := by
  have hcontent : (openingOf s.pos n as e).contentName? = none := by
    rw [Opening.contentName?, Option.filter_eq_none_iff]
    rintro _ ⟨⟩
    cases e with
    | opened => rw [h rfl]; exact Bool.false_ne_true
    | closed => exact Bool.false_ne_true
  refine ((opening_yields n as e).bind (u := []) ?_).of_text_eq (List.append_nil _)
  rw [hcontent, ← hkind]
  exact Yields.pure _

end

end Parse

/-! ## Templates -/

/-- **Elements are read back at every level**, as far as their nesting has room. -/
theorem Level.rereads_ofRoom (room : ℕ) : (Level.ofRoom room).Rereads room := by
  induction room with
  | zero =>
    refine ⟨⟨Parse.flatBody, rfl⟩, ?_⟩
    intro i s r hi hroom _
    cases i with
    | element | void | closed => exact absurd hroom (Nat.not_succ_le_zero _)
    | text | escape | expression | comment | cdata => cases hi
  | succ room ih =>
    refine ⟨⟨(Level.ofRoom room).body, rfl⟩, ?_⟩
    intro i s r hi hroom hfits
    cases i with
    | element n as is =>
      refine Parse.nestedElement_yields n as fun s hs => ?_
      refine Parse.items_yields ih (Parse.elementPart_yields n.text) (fun _ => Parse.elementPart_yields_none _)
        (fun _ => .inr rfl) (Nat.le_of_succ_le_succ hroom) ?_
      rw [hs]
      exact hfits
    | void n as =>
      have hkind := TagName.kind_of_not_raw n.not_raw
      exact Parse.nestedElement_yields_tag n.toTagName as .opened hkind fun _ => n.void
    | closed n as => exact Parse.nestedElement_yields_tag n as .closed rfl fun h => by cases h
    | text | escape | expression | comment | cdata => cases hi

/-- The document of a printed template, and what is reported on it. -/
theorem document_print {options : ParseOptions} (d : Markup.Document) (htransition : options.transition = '@')
    (hnesting : d.nesting ≤ options.maxNestingDepth) :
    (Template.document options d.print).1 = .ofChildren .document d.nodes ∧
      (Template.document options d.print).2.pos = ({} : Position).after d.print ∧
      (Template.document options d.print).2.diagnostics = [] := by
  have hat : (Context.atDocument options d.print).At ⟨none, {}⟩ (d.print ++ []) :=
    ⟨rfl, rfl, (List.append_nil _).symm, htransition, rfl⟩
  have hitems := Parse.items_yields (s := ⟨none, {}⟩) (Level.rereads_ofRoom options.maxNestingDepth)
    Parse.documentPart_yields (fun _ => Parse.documentPart_yields_none) (fun _ => .inl rfl) hnesting d.fits
  have hdocument : Parse.Yields (do
      let nodes ← Parse.manyNodes (Parse.documentPart (Level.ofRoom options.maxNestingDepth).code
        (Level.ofRoom options.maxNestingDepth).element 0)
      Parse.closeFlattened 0
      return Node.ofChildren .document nodes) ⟨none, {}⟩ d.print [] (.ofChildren .document d.nodes) := by
    refine (hitems.bind (u := []) ?_).of_text_eq (List.append_nil _)
    exact Parse.closeFlattened_yields.map fun _ => Node.ofChildren .document d.nodes
  obtain ⟨hnode, hpass⟩ := hdocument _ hat
  exact ⟨hnode, hpass.pos, hpass.diagnostics⟩

/-- **A printed template is parsed into the tree of its items.** If its elements are
nested within the limit, nothing is reported, and the document holds the nodes that the
items stand for, each at the location where the item was printed. -/
theorem parse_print (options : ParseOptions) (d : Markup.Document)
    (h : options.language ∈ Registry.standard.languages) (htransition : options.transition = '@')
    (hnesting : d.nesting ≤ options.maxNestingDepth) :
    Template.parse options d.print = .ok
      ⟨[.ofChildren .document d.nodes, .marker .endOfFile (.empty (({} : Position).after d.print))], []⟩ := by
  obtain ⟨hnode, hpos, hdiagnostics⟩ := document_print d htransition hnesting
  rw [parse_eq_document d.print h, hnode, hpos, hdiagnostics]

theorem parse_print_paragraph : ∃ d : Markup.Document,
    d.print = ['<', 'p', ' ', 'a', '=', '"', '\'', '"', '>', ' ', '@', 'u', '.', 'v', '<', 'b', 'r', '>',
      '@', '@', '<', '/', 'p', '>'] ∧
    ({ maxNestingDepth := 2 } : ParseOptions).language ∈ Registry.standard.languages ∧ d.nesting = 2 ∧
    Template.parse { maxNestingDepth := 2 } d.print = .ok
      ⟨[.ofChildren .document d.nodes, .marker .endOfFile (.empty (({} : Position).after d.print))], []⟩ := by
  let d : Markup.Document :=
    ⟨[.element
        ⟨⟨['p'], by decide, List.forall_mem_singleton.2 (by decide), by decide⟩, by decide, by decide⟩
        ⟨[⟨⟨['a'], by decide, List.forall_mem_singleton.2 (by decide)⟩,
          some ⟨.double, ['\''], List.forall_mem_singleton.2 (by decide)⟩⟩], by decide⟩
        [.text ⟨[' '], by decide, List.forall_mem_singleton.2 (by decide)⟩,
          .expression ⟨⟨'u', [], by decide, List.forall_mem_nil _⟩,
            [⟨'v', [], by decide, List.forall_mem_nil _⟩]⟩,
          .void ⟨⟨['b', 'r'], by decide,
            List.forall_mem_cons.2 ⟨by decide, List.forall_mem_singleton.2 (by decide)⟩, by decide⟩, by decide⟩
            ⟨[], by decide⟩,
          .escape]], by decide⟩
  have hnesting : d.nesting = 2 := by decide
  exact ⟨d, by decide, by decide, hnesting, parse_print { maxNestingDepth := 2 } d (by decide) rfl hnesting.le⟩

end Stencil
