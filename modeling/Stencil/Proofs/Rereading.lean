import Mathlib.Data.List.Nodup
import Mathlib.Data.List.TakeWhile
import Stencil.Proofs.Cursor
import Stencil.Proofs.Lookahead
import Stencil.Proofs.Printing

/-!
# Reading printed text

`Yields p s t r a`: before the text `t ++ r`, the step `p` reads exactly `t`, gives `a`,
and does nothing but move the cursor. Sequences of steps read texts one after the
other (`Yields.bind`), so the statement for a production is put together along its
printed form.

* `runLength_append`: a run covers a text in which it does not stop, up to where it does.
* `attributes_yields`: the attributes of a tag. The loop reads the blank after an
  attribute in the turn of that attribute, so the induction is over what is left from the
  blank on.
* `opening_yields`, `endTag_yields`: **printed tags are read back as they were printed.**
-/

namespace Stencil

open Markup

/-! ## Where runs of characters stop -/

namespace Text

/-- The text does not start with a character of the class. -/
def Stops (f : Char → Bool) (t : Text) : Prop :=
  t.head?.any f = false

theorem stops_nil (f : Char → Bool) : Stops f [] := rfl

/-- What comes next is a character that does not belong to the run. -/
theorem stops_cons {f : Char → Bool} {x : Char} {t : Text} : Stops f (x :: t) ↔ f x = false := .rfl

/-- A run ends where the text stops. -/
theorem takeWhile_append_of_stops {f : Char → Bool} {a b : Text} (ha : ∀ x ∈ a, f x = true)
    (hb : Stops f b) : (a ++ b).takeWhile f = a := by
  have hnone : b.takeWhile f = [] := by
    cases b with
    | nil => rfl
    | cons x t => exact List.takeWhile_cons_of_neg (by rw [stops_cons.1 hb]; exact Bool.false_ne_true)
  rw [List.takeWhile_append_of_pos ha, hnone, List.append_nil]

/-- **A run covers a text in which it does not stop**, if it stops after it. -/
theorem runLength_append {stop : Option Char → Text → Bool} {previous : Option Char} {a b : Text}
    (ha : ∀ q x y, x :: y <:+ a → stop q (x :: y ++ b) = false)
    (hb : b = [] ∨ stop (a.getLast?.or previous) b = true) : runLength stop previous (a ++ b) = a.length := by
  induction a generalizing previous with
  | nil =>
    obtain rfl | hstop := hb
    · rfl
    · cases b with
      | nil => rfl
      | cons x t =>
        have hnow : stop previous (x :: t) = true := hstop
        show (if stop previous (x :: t) then 0 else _) = 0
        rw [if_pos hnow]
  | cons x t ih =>
    have hnow : stop previous (x :: (t ++ b)) = false := ha previous x t (List.suffix_refl _)
    -- the character before the place moves on with the run, up to the last one of the text
    have hlater : runLength stop (some x) (t ++ b) = t.length := by
      refine ih (fun q y z hz => ha q y z (hz.trans (List.suffix_cons x t))) (hb.imp_right fun hstop => ?_)
      rw [List.getLast?_cons] at hstop
      cases hlast : t.getLast? <;> simpa [hlast] using hstop
    show (if stop previous (x :: (t ++ b)) then 0 else runLength stop (some x) (t ++ b) + 1) = _
    rw [hnow, hlater]
    rfl

/-- A run goes on up to the text that stops it. -/
theorem runLength_append_of_mem {stop : Option Char → Text → Bool} {previous : Option Char} {a b : Text}
    (ha : ∀ q, ∀ x ∈ a, ∀ t, stop q (x :: t) = false)
    (hb : b = [] ∨ stop (a.getLast?.or previous) b = true) : runLength stop previous (a ++ b) = a.length :=
  runLength_append (fun q x _ h => ha q x (h.subset List.mem_cons_self) _) hb

end Text

/-! ## Steps that read a text -/

/-- What lies behind the cursor: the last character, and how much has been read. -/
structure Spot where
  previous : Option Char
  pos : Position

/-- The spot after some more text. -/
def Spot.after (s : Spot) (t : Text) : Spot :=
  ⟨t.getLast?.or s.previous, s.pos.after t⟩

/-- The spot after two texts in a row. -/
theorem Spot.after_append (s : Spot) (t u : Text) : s.after (t ++ u) = (s.after t).after u := by
  rw [Spot.after, List.getLast?_append, Option.or_assoc, Position.after_append]
  rfl

namespace Context

/-- The cursor stands at a spot before a text, and no element is flattened. -/
structure At (c : Context) (s : Spot) (t : Text) : Prop where
  previous : c.previous? = s.previous
  pos : c.pos = s.pos
  rest : c.rest = t
  transition : c.transition = '@'
  flattened : c.flattened = []

/-- From `c` to `d` the cursor has moved on over `t`, and nothing was reported, opened
or closed. -/
structure Passes (c : Context) (t : Text) (d : Context) : Prop extends c.Moved t d where
  diagnostics : d.diagnostics = c.diagnostics
  openElements : d.openElements = c.openElements
  flattened : d.flattened = c.flattened

variable {c d e : Context} {s : Spot} {t u r : Text}

theorem Passes.refl (c : Context) : c.Passes [] c := ⟨.refl c, rfl, rfl, rfl⟩

/-- What was read first stands before what was read next. -/
theorem Passes.trans (h : c.Passes t d) (h' : d.Passes u e) : c.Passes (t ++ u) e where
  toMoved := h.toMoved.trans h'.toMoved
  diagnostics := h'.diagnostics.trans h.diagnostics
  openElements := h'.openElements.trans h.openElements
  flattened := h'.flattened.trans h.flattened

/-- Reading passes over what comes next. -/
theorem passes_read (c : Context) (n : ℕ) : c.Passes (c.rest.take n) (c.read n).2 :=
  ⟨c.moved_read n, rfl, rfl, rfl⟩

/-- After a text has been read, the cursor stands behind it. -/
theorem Passes.after (h : c.Passes t d) (hc : c.At s (t ++ r)) : d.At (s.after t) r where
  previous := by
    have hprevious : c.before.head? = s.previous := hc.previous
    rw [previous?, h.before, List.head?_append, List.head?_reverse, hprevious]
    rfl
  pos := by rw [h.pos, hc.pos]; rfl
  rest := List.append_cancel_left (h.rest.symm.trans hc.rest)
  transition := h.transition.trans hc.transition
  flattened := h.flattened.trans hc.flattened

/-- What passes over a text leaves less to read. -/
theorem Passes.length_lt (h : c.Passes t d) (ht : t ≠ []) : d.rest.length < c.rest.length := by
  rw [h.rest, List.length_append]
  exact Nat.lt_add_of_pos_left (List.length_pos_iff.2 ht)

theorem At.atEnd {x : Char} (hc : c.At s (x :: t)) : c.atEnd = false := by
  rw [Context.atEnd, hc.rest]; rfl

theorem At.current {x : Char} (hc : c.At s (x :: t)) : c.current = x := by
  rw [Context.current, peekAt, hc.rest]; rfl

/-- Code does not start with any other character. -/
theorem At.atTransition {x : Char} (hc : c.At s (x :: t)) (hx : x ≠ '@') : c.atTransition = false := by
  rw [Context.atTransition, hc.rest, hc.transition, startsTransition, Bool.and_eq_false_iff]
  exact .inl (beq_eq_false_iff_ne.2 hx)

end Context

namespace Parse

variable {α β σ : Type} {s : Spot} {t u r : Text}

/-- Before `t ++ r`, the step reads `t` and gives `a`. -/
def Yields (p : Parse α) (s : Spot) (t r : Text) (a : α) : Prop :=
  ∀ c : Context, c.At s (t ++ r) → Ends p c fun b d => b = a ∧ c.Passes t d

namespace Yields

variable {p : Parse α} {f : α → Parse β} {a : α} {b : β}

theorem pure (a : α) : Yields (pure a) s [] r a :=
  fun c _ => ⟨rfl, .refl c⟩

/-- Steps read texts one after the other. -/
theorem bind (hp : Yields p s t (u ++ r) a) (hf : Yields (f a) (s.after t) u r b) :
    Yields (p >>= f) s (t ++ u) r b := by
  intro c hc
  rw [List.append_assoc] at hc
  refine Ends.bind (hp c hc) ?_
  rintro _ d ⟨rfl, hd⟩
  exact (hf d (hd.after hc)).imp fun _ e he => ⟨he.1, hd.trans he.2⟩

/-- A step that reads nothing. -/
theorem bind_nil (hp : Yields p s [] (u ++ r) a) (hf : Yields (f a) s u r b) : Yields (p >>= f) s u r b :=
  hp.bind hf

/-- What becomes of the result does not matter to the text. -/
theorem map (hp : Yields p s t r a) (g : α → β) : Yields (p >>= fun x => Pure.pure (g x)) s t r (g a) := by
  intro c hc
  refine Ends.bind (hp c hc) ?_
  rintro _ d ⟨rfl, hd⟩
  exact ⟨rfl, hd⟩

/-- What is looked at is any context at the spot. -/
theorem get_bind {f : Context → Parse β} (h : ∀ c : Context, c.At s (t ++ r) → Yields (f c) s t r b) :
    Yields (get >>= f) s t r b :=
  fun c hc => h c hc c hc

theorem of_text_eq (h : Yields p s t r a) (ht : t = u) : Yields p s u r a := ht ▸ h

/-! ### Loops -/

/-- A loop that ends at once. -/
theorem many_none {step : σ → Parse (Option (Node × σ))} {x : σ} (h : Yields (step x) s [] r none) :
    Yields (many step x) s [] r ([], x) := by
  intro c hc
  obtain ⟨hnone, hpass⟩ := h c hc
  have hturn : step x c = (none, (step x c).2) := Prod.ext hnone rfl
  unfold Ends
  rw [many, hturn]
  exact ⟨rfl, hpass⟩

/-- A loop whose first turn gives a node and reads the text before the rest. -/
theorem many_some {step : σ → Parse (Option (Node × σ))} {x y z : σ} {n : Node} {ns : List Node} (ht : t ≠ [])
    (h : Yields (step x) s t (u ++ r) (some (n, y))) (hrest : Yields (many step y) (s.after t) u r (ns, z)) :
    Yields (many step x) s (t ++ u) r (n :: ns, z) := by
  intro c hc
  rw [List.append_assoc] at hc
  obtain ⟨hsome, hpass⟩ := h c hc
  have hturn : step x c = (some (n, y), (step x c).2) := Prod.ext hsome rfl
  have hlt := hpass.length_lt ht
  obtain ⟨hlast, hpass'⟩ := hrest _ (hpass.after hc)
  have hmany : many step y (step x c).2 = ((ns, z), (many step y (step x c).2).2) := Prod.ext hlast rfl
  unfold Ends
  rw [many, hturn]
  simp only [dif_pos hlt]
  rw [hmany]
  exact ⟨rfl, hpass.trans hpass'⟩

theorem manyNodes_none {step : Parse (Option Node)} (h : Yields step s [] r none) :
    Yields (manyNodes step) s [] r [] :=
  (many_none (h.map fun n => n.map fun n => (n, ()))).map fun x => x.1

/-- The same without a state. -/
theorem manyNodes_some {step : Parse (Option Node)} {n : Node} {ns : List Node} (ht : t ≠ [])
    (h : Yields step s t (u ++ r) (some n)) (hrest : Yields (manyNodes step) (s.after t) u r ns) :
    Yields (manyNodes step) s (t ++ u) r (n :: ns) := by
  intro c hc
  rw [List.append_assoc] at hc
  obtain ⟨hsome, hpass⟩ := h c hc
  have hturn : step c = (some n, (step c).2) := Prod.ext hsome rfl
  have hlt := hpass.length_lt ht
  obtain ⟨hlast, hpass'⟩ := hrest _ (hpass.after hc)
  unfold Ends
  rw [Parse.manyNodes_some hturn hlt]
  exact ⟨by rw [hlast], hpass.trans hpass'⟩

end Yields

open Yields

/-! ## Tokens -/

/-- Reading gives the location of the text ahead. -/
theorem read_yields {n : ℕ} (hn : n = t.length) : Yields (read n) s t r (.ofText s.pos t) := by
  intro c hc
  have htake : c.rest.take n = t := by rw [hc.rest, hn, List.take_left]
  have hread := c.read_location n
  have hpass := c.passes_read n
  rw [htake, hc.pos] at hread
  rw [htake] at hpass
  exact ⟨hread, hpass⟩

/-- **Tokens** read their own text back. -/
theorem token_yields {k : Kind} {n : ℕ} (hn : n = t.length) : Yields (token k n) s t r (tokenAt k s.pos t) :=
  (read_yields hn).map _

/-- A token that is there is found. -/
theorem expect_yields {k : Kind} {w : Wanted} (hw : Text.nul ∉ w.text) :
    Yields (expect k w) s w.text r (tokenAt k s.pos w.text) := by
  refine get_bind fun c hc => ?_
  have hstart : c.rest.startsWith w.text = true := by
    rw [hc.rest, Text.startsWith_iff hw]
    exact List.prefix_append _ _
  rw [if_pos hstart]
  exact token_yields (by rfl)

/-- Blanks are read up to the first character that is none. -/
theorem blanks_yields (ht : ∀ x ∈ t, Text.isBlank x = true) (hr : Text.Stops Text.isBlank r) :
    Yields blanks s t r (blankAt s.pos t) := by
  refine get_bind fun c hc => ?_
  have hcount : c.rest.blanksAhead = t.length := by
    rw [Text.blanksAhead, hc.rest, Text.takeWhile_append_of_stops ht hr]
  dsimp only
  rw [hcount, blankAt]
  cases t with
  | nil => exact Yields.pure none
  | cons x rest => exact (read_yields (by rfl)).map _

theorem no_blanks_yields (hr : Text.Stops Text.isBlank r) : Yields blanks s [] r none :=
  blanks_yields (List.forall_mem_nil _) hr

/-- **Tag names** are read back if no further name character follows. -/
theorem tagName_yields (n : TagName) (hr : Text.Stops Html.isNameChar r) :
    Yields tagName s n.text r (tokenAt .htmlTagName s.pos n.text) := by
  refine get_bind fun c hc => ?_
  have hcount : c.rest.nameLength = n.text.length := by
    rw [Text.nameLength, hc.rest, Text.takeWhile_append_of_stops n.chars hr]
  have hpos : n.text.length ≠ 0 := by simpa using n.ne_nil
  dsimp only
  rw [hcount, if_neg hpos]
  exact token_yields (by rfl)

/-- **A printed end tag is read back.** -/
theorem endTag_yields (n : TagName) : Yields endTag s n.endTag r (n.endNode s.pos) := by
  refine (token_yields (by rfl)).bind ((tagName_yields n (Text.stops_cons.2 (by decide))).bind ?_)
  refine (no_blanks_yields (Text.stops_cons.2 (by decide))).bind_nil ?_
  exact (expect_yields (k := .bracket) (w := .bracket ['>']) (by decide)).map _

/-! ## Attributes -/

section Attributes

variable {code : Parse Node}

/-- Text without a transition character is one part of a value. -/
theorem valuePart_yields {ends : Text → Bool} {v : Text} (hv : v ≠ []) (hat : ∀ x ∈ v, x ≠ '@')
    (hends : ∀ x ∈ v, ∀ t, ends (x :: t) = false) (hr : ends r = true) :
    Yields (valuePart code ends) s v r (some (tokenAt .literal s.pos v)) := by
  refine get_bind fun c hc => ?_
  obtain ⟨x, v', rfl⟩ := List.exists_cons_of_ne_nil hv
  have hx : ends c.rest = false := by rw [hc.rest]; exact hends x List.mem_cons_self _
  have hcount : c.rest.runLength (fun previous t => ends t || startsTransition c.transition previous t)
      c.previous? = (x :: v').length := by
    rw [hc.rest]
    refine Text.runLength_append_of_mem (fun q y hy t => ?_) (.inr (by rw [hr, Bool.true_or]))
    rw [hends y hy, Bool.false_or, hc.transition, startsTransition, Bool.and_eq_false_iff]
    exact .inl (beq_eq_false_iff_ne.2 (hat y hy))
  rw [hc.atEnd, hx, hc.atTransition (hat x List.mem_cons_self)]
  exact (token_yields hcount).map some

theorem valuePart_yields_none {ends : Text → Bool} (hr : ends r = true) :
    Yields (valuePart code ends) s [] r none := by
  refine get_bind fun c hc => ?_
  have hend : ends c.rest = true := by rw [hc.rest]; exact hr
  rw [hend, Bool.or_true]
  exact Yields.pure none

/-- **Values** are read back with their quotes. -/
theorem quotedValue_yields (v : AttributeValue) : Yields (quotedValue code) s v.print r (v.nodes s.pos) := by
  refine get_bind fun c hc => ?_
  have hquote : c.current = v.quote.char := hc.current
  dsimp only
  rw [hquote]
  refine (token_yields (by rfl)).bind (Yields.bind (a := .ofChildren .attributeValue
    (if v.text = [] then [] else [tokenAt .literal (s.pos.after [v.quote.char]) v.text])) ?_ ?_)
  · refine Yields.map ?_ _
    have hstop : Yields (manyNodes (valuePart code fun t => t.head? == some v.quote.char))
        ((s.after [v.quote.char]).after v.text) [] ([v.quote.char] ++ r) [] :=
      Yields.manyNodes_none (valuePart_yields_none (beq_self_eq_true (some v.quote.char)))
    -- an empty value has no text between its quotes, and so no part
    by_cases hv : v.text = []
    · rw [if_pos hv]
      rw [hv] at hstop ⊢
      exact hstop
    · rw [if_neg hv]
      have hends : ∀ x ∈ v.text, ∀ t, ((x :: t).head? == some v.quote.char) = false := by
        intro x hx t
        rw [List.head?_cons, beq_eq_false_iff_ne]
        exact fun h => (v.plain x hx).1 (Option.some.inj h)
      have hpart : Yields (valuePart code fun t => t.head? == some v.quote.char) (s.after [v.quote.char]) v.text
          ([v.quote.char] ++ r) (some (tokenAt .literal (s.pos.after [v.quote.char]) v.text)) :=
        valuePart_yields hv (fun x hx => (v.plain x hx).2) hends (beq_self_eq_true (some v.quote.char))
      exact of_text_eq (Yields.manyNodes_some (u := []) hv hpart hstop) (List.append_nil _)
  · refine get_bind fun d hd => ?_
    rw [hd.atEnd]
    exact (token_yields (by rfl)).map _

/-- What may stand after an attribute. -/
structure EndsAttribute (t : Text) : Prop where
  name : t.endsAttributeName = true
  sign : t.ahead t.blanksAhead ≠ '='
  quote : t.startsQuote = false

/-- **Attribute names** are read back before what ends them. -/
theorem attributeName_yields (n : AttributeName) (hr : r.endsAttributeName = true) :
    Yields attributeName s n.text r (tokenAt .attributeName s.pos n.text) := by
  refine get_bind fun c hc => ?_
  have hplain : ∀ x ∈ n.text, ∀ t, Text.endsAttributeName (x :: t) = false := by
    intro x hx t
    obtain ⟨hblank, hmem⟩ := n.plain x hx
    simp only [List.mem_cons, List.not_mem_nil, or_false, not_or] at hmem
    simp [Text.endsAttributeName, Text.endsUnquoted, Text.endsTag, Text.startsWith, Text.ahead, hblank, hmem]
  have hcount : c.rest.runLength (fun _ t => t.endsAttributeName) none = n.text.length := by
    rw [hc.rest]
    exact Text.runLength_append_of_mem (fun _ => hplain) (.inr hr)
  obtain ⟨x, t, hname, -, hmem⟩ := n.exists_cons
  rw [hname] at hc
  have hhead : (decide (c.current = '=') || c.rest.startsQuote) = false := by
    simp only [List.mem_cons, List.not_mem_nil, or_false, not_or] at hmem
    rw [hc.current, hc.rest]
    simp [Text.startsQuote, Text.ahead, hmem]
  rw [hhead]
  exact token_yields hcount

/-- The sign and the value, or neither, are read back. -/
theorem attributeRest_yields (a : Attribute) (hr : EndsAttribute r) (named : Bool) :
    Yields (attributeRest code named) s a.assignment r (a.assignmentNodes s.pos) := by
  obtain ⟨name, value⟩ := a
  refine get_bind fun c hc => ?_
  cases value with
  | none =>
    have hrest : c.rest = r := hc.rest
    rw [hrest, if_neg hr.sign, hr.quote]
    exact Yields.pure []
  | some v =>
    have hsign : c.rest.ahead c.rest.blanksAhead = '=' := by rw [hc.rest]; rfl
    rw [if_pos hsign]
    refine (no_blanks_yields (Text.stops_cons.2 (by decide))).bind_nil ((token_yields (by rfl)).bind ?_)
    have hquote : Text.isBlank v.quote.char = false := by cases v.quote <;> decide
    refine (no_blanks_yields (Text.stops_cons.2 hquote)).bind_nil ?_
    refine Yields.map ?_ _
    refine get_bind fun d hd => ?_
    have hstart : d.rest.startsQuote = true := by
      rw [hd.rest]
      show (v.quote.char == '"' || v.quote.char == '\'') = true
      cases v.quote <;> decide
    rw [if_pos hstart]
    exact quotedValue_yields v

/-- **Attributes** are read back behind the blank that sets them apart. -/
theorem attributeNode_yields (a : Attribute) (hr : EndsAttribute r) :
    Yields (attributeNode code (some (.ofText s.pos [' ']))) (s.after [' ']) a.body r
      (a.node s.pos, tokenAt .attributeName (s.pos.after [' ']) a.name.text) := by
  -- a name ends at the sign of its value, or else where the attribute does
  have hname : (a.assignment ++ r).endsAttributeName = true := by
    unfold Attribute.assignment
    cases a.value with
    | none => exact hr.name
    | some v => rfl
  exact (attributeName_yields a.name hname).bind ((attributeRest_yields a hr _).map _)

/-- A name that was not seen before is not reported. -/
theorem checkName_yields {seen : List Text} {p : Position} (hseen : t.lower ∉ seen) :
    Yields (checkName seen (tokenAt .attributeName p t)) s [] r (t.lower :: seen) := by
  have hnew : ¬ seen.contains t.lower = true := by simpa using hseen
  show Yields (if seen.contains t.lower = true then _ else _ : Parse (List Text)) s [] r _
  rw [if_neg hnew]
  exact Yields.pure _

/-! ### The loop -/

/-- The blanks before what is left of a tag. -/
def blankOf (e : TagEnd) : List Attribute → Text
  | [] => e.gap
  | _ :: _ => [' ']

/-- What is left of the attributes of a tag after those blanks. -/
def beyondBlank (e : TagEnd) : List Attribute → Text
  | [] => []
  | a :: as => a.body ++ (Attribute.printAll as ++ e.gap)

/-- The blank that comes next, and what follows it, are what is left of the tag. -/
theorem blankOf_append (e : TagEnd) (as : List Attribute) :
    blankOf e as ++ beyondBlank e as = Attribute.printAll as ++ e.gap := by
  cases as with
  | nil => exact List.append_nil _
  | cons a as => simp [blankOf, beyondBlank, Attribute.printAll, Attribute.print]

theorem isBlank_of_mem_blankOf (e : TagEnd) (as : List Attribute) :
    ∀ x ∈ blankOf e as, Text.isBlank x = true := by
  cases as with
  | nil =>
    cases e with
    | opened => exact List.forall_mem_nil _
    | closed => exact List.forall_mem_singleton.2 (by decide)
  | cons a as => exact List.forall_mem_singleton.2 (by decide)

/-- Behind the blank there is no second one. -/
theorem beyondBlank_stops (e : TagEnd) (as : List Attribute) (r : Text) :
    Text.Stops Text.isBlank (beyondBlank e as ++ (e.bracket ++ r)) := by
  cases as with
  | nil => cases e <;> exact Text.stops_cons.2 (by decide)
  | cons a as =>
    obtain ⟨x, t, hname, hblank, -⟩ := a.name.exists_cons
    rw [beyondBlank, Attribute.body, hname]
    exact Text.stops_cons.2 hblank

theorem endsAttribute_blank {x : Char} {t : Text} (hblank : Text.isBlank x = false) (hx : x ≠ '=') :
    EndsAttribute (' ' :: x :: t) where
  name := rfl
  sign := by
    have hcount : Text.blanksAhead (' ' :: x :: t) = 1 := by
      rw [Text.blanksAhead, List.takeWhile_cons_of_pos (by decide),
        List.takeWhile_cons_of_neg (by simp [hblank])]
      rfl
    rw [hcount]
    exact hx
  quote := rfl

/-- What is left of the tag ends an attribute. -/
theorem endsAttribute_left (e : TagEnd) (as : List Attribute) (r : Text) :
    EndsAttribute (blankOf e as ++ (beyondBlank e as ++ (e.bracket ++ r))) := by
  cases as with
  | nil =>
    cases e with
    | opened => exact ⟨rfl, (by decide : '>' ≠ '='), rfl⟩
    | closed => exact endsAttribute_blank (by decide) (by decide)
  | cons a as =>
    obtain ⟨x, t, hname, hblank, hmem⟩ := a.name.exists_cons
    rw [beyondBlank, Attribute.body, hname]
    refine endsAttribute_blank hblank ?_
    rintro rfl
    exact hmem (by decide)

/-- One turn of the loop reads an attribute and the blanks after it. -/
theorem attributePart_yields (a : Attribute) (as : List Attribute) (e : TagEnd) {seen : List Text}
    (hseen : a.key ∉ seen) :
    Yields (attributePart code ⟨seen, some (.ofText s.pos [' '])⟩) (s.after [' ']) (a.body ++ blankOf e as)
      (beyondBlank e as ++ (e.bracket ++ r))
      (some (a.node s.pos, ⟨a.key :: seen, blankAt (s.pos.after a.print) (blankOf e as)⟩)) := by
  refine get_bind fun c hc => ?_
  obtain ⟨x, t, hname, -, hmem⟩ := a.name.exists_cons
  simp only [List.mem_cons, List.not_mem_nil, or_false, not_or] at hmem
  have hbody : a.body = x :: (t ++ a.assignment) := by rw [Attribute.body, hname]; rfl
  have hc' := hc
  rw [hbody] at hc'
  have htag : c.rest.endsTag = false := by
    rw [hc'.rest]
    simp [Text.endsTag, Text.startsWith, Text.ahead, hmem]
  rw [hc'.atEnd, htag, hc'.atTransition hmem.2.2.2.2.2.2]
  refine (attributeNode_yields a (endsAttribute_left e as r)).bind ?_
  refine (checkName_yields hseen).bind_nil ?_
  exact (blanks_yields (isBlank_of_mem_blankOf e as) (beyondBlank_stops e as r)).map _

/-- There are no attributes at the end of a tag. -/
theorem attributePart_yields_none (e : TagEnd) (x : AttributeState) :
    Yields (attributePart code x) s [] (e.bracket ++ r) none := by
  refine get_bind fun c hc => ?_
  have htag : c.rest.endsTag = true := by
    rw [hc.rest]
    cases e <;> rfl
  rw [htag, Bool.or_true]
  exact Yields.pure none

/-- The loop over the attributes that are left, from the blanks before them on. -/
theorem attributeParts_yields (e : TagEnd) (as : List Attribute) {seen : List Text}
    (hnames : ((as.map Attribute.key).reverse ++ seen).Nodup) :
    Yields (many (attributePart code) ⟨seen, blankAt s.pos (blankOf e as)⟩) (s.after (blankOf e as))
      (beyondBlank e as) (e.bracket ++ r) (Attribute.nodes s.pos as,
        ⟨(as.map Attribute.key).reverse ++ seen,
          blankAt (s.pos.after (Attribute.printAll as)) e.gap⟩) := by
  induction as generalizing s seen with
  | nil => exact many_none (attributePart_yields_none e _)
  | cons a as ih =>
    rw [List.map_cons, List.reverse_cons, List.append_assoc] at hnames ⊢
    have hnew : a.key ∉ seen := (List.nodup_cons.1 (List.nodup_append.1 hnames).2.1).1
    -- the turn starts behind the blank of its attribute and ends behind the next one
    have hspot : (s.after [' ']).after (a.body ++ blankOf e as) = (s.after a.print).after (blankOf e as) := by
      rw [Spot.after_append, Attribute.print, Spot.after_append s]
    have hrest := ih (s := s.after a.print) hnames
    rw [← hspot] at hrest
    have hne : a.body ++ blankOf e as ≠ [] := by
      rw [Attribute.body]
      exact List.append_ne_nil_of_left_ne_nil (List.append_ne_nil_of_left_ne_nil a.name.ne_nil _) _
    have hstop : s.pos.after (Attribute.printAll (a :: as)) =
        (s.after a.print).pos.after (Attribute.printAll as) := Position.after_append _ _ _
    rw [hstop]
    refine of_text_eq (many_some hne (attributePart_yields a as e hnew) hrest) ?_
    rw [List.append_assoc, blankOf_append]
    rfl

/-- **The attributes of a tag are read back**, with the blanks after them. -/
theorem attributes_yields (as : Attributes) (e : TagEnd) :
    Yields (attributes code) s (Attribute.printAll as.all ++ e.gap) (e.bracket ++ r)
      (.ofChildren .htmlAttributes (Attribute.nodes s.pos as.all),
        blankAt (s.pos.after (Attribute.printAll as.all)) e.gap) := by
  have hnames : ((as.all.map Attribute.key).reverse ++ []).Nodup := by
    rw [List.append_nil, List.nodup_reverse]
    exact as.distinct
  rw [← blankOf_append]
  refine (blanks_yields (isBlank_of_mem_blankOf e as.all) (beyondBlank_stops e as.all r)).bind ?_
  exact (attributeParts_yields e as.all hnames).map fun x => (Node.ofChildren .htmlAttributes x.1, x.2.lead)

/-! ## Start tags -/

/-- What a start tag says about its element. -/
def openingOf (p : Position) (n : TagName) (as : Attributes) (e : TagEnd) : Opening where
  tag := n.startNode p as e
  name := some n.text
  place := some (.ofText (p.after ['<']) n.text)
  closed := e.isOpened

/-- **A printed start tag is read back.** -/
theorem opening_yields (n : TagName) (as : Attributes) (e : TagEnd) :
    Yields (opening code) s (n.startTag as e) r (openingOf s.pos n as e) := by
  have hname : Text.Stops Html.isNameChar ((Attribute.printAll as.all ++ e.gap) ++ e.bracket ++ r) := by
    rw [← blankOf_append]
    cases as.all with
    | nil => cases e <;> exact Text.stops_cons.2 (by decide)
    | cons a as => exact Text.stops_cons.2 (by decide)
  refine (token_yields (by rfl)).bind ((tagName_yields n hname).bind ((attributes_yields as e).bind ?_))
  rw [Spot.after_append _ (Attribute.printAll as.all)]
  refine get_bind fun c hc => ?_
  dsimp only
  cases e with
  | opened =>
    have hslash : c.rest.startsWith ['/', '>'] = false := by rw [hc.rest]; rfl
    have hcurrent : c.current = '>' := hc.current
    rw [hslash, hcurrent, if_neg Bool.false_ne_true]
    exact (expect_yields (k := .bracket) (w := .bracket ['>']) (by decide)).map _
  | closed =>
    have hslash : c.rest.startsWith ['/', '>'] = true := by rw [hc.rest]; rfl
    have hcurrent : c.current = '/' := hc.current
    rw [hslash, hcurrent, if_pos rfl]
    exact (token_yields (by rfl)).map _

end Attributes

end Parse

end Stencil
