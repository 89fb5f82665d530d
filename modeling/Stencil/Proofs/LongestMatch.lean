import Stencil.Proofs.Blocks
import Stencil.Proofs.RoundTrip

/-!
# Code expressions are longest matches

What a code expression is can be said without the scan that reads it: an identifier, and after it
accesses and groups in any order. A group has no grammar of its own. It runs through the first place
where its brackets balance, those in string literals left out, or through the end of the text if
they never do. So whether a part is a group depends on the text after it (`Link.Fits`), and an
expression is a longest match among all that fit their surroundings.

* `bare`: the characters outside of string literals. Brackets are counted among these only.
* `groupRest_first`: **a group is scanned through the first place where its brackets balance.**
* `chain_spells`, `length_le_chain`: what is scanned after an identifier fits, and nothing longer does.
* `expression_longest`: **the code of an expression is a longest match,** and the end of the template is
  reported exactly if it cuts a group off.
-/

namespace Stencil

namespace Code

open Markup (Identifier)

/-! ## Brackets outside of string literals -/

/-- Where a character of a group stands. -/
inductive Quoting where
  | plain
  | inside (quote : Char)
  /-- Inside a string literal, right after a backslash. -/
  | escaped (quote : Char)
deriving DecidableEq, Repr

/-- Where the next character stands. -/
def Quoting.step : Quoting → Char → Quoting
  | plain, c => if isQuote c then inside c else plain
  | inside q, c => if c = '\\' then escaped q else if c = q then plain else inside q
  | escaped q, _ => inside q

/-- The characters of a text that stand outside of string literals. -/
def bare (m : Quoting) : Text → Text
  | [] => []
  | c :: t => if m = .plain ∧ isQuote c = false then c :: bare m t else bare (m.step c) t

/-- How often a character stands outside of string literals. -/
def bareCount (x : Char) (t : Text) : ℕ :=
  (bare .plain t).count x

@[simp]
theorem bareCount_nil (x : Char) : bareCount x [] = 0 := rfl

theorem bareCount_cons {x c : Char} (h : isQuote c = false) (t : Text) :
    bareCount x (c :: t) = bareCount x t + if c = x then 1 else 0 := by
  unfold bareCount
  rw [bare, if_pos ⟨rfl, h⟩, List.count_cons]
  simp

/-- **What is scanned as a string literal holds no bare character,** wherever the text is cut off. -/
theorem bare_inside (quote : Char) (t : Text) (k : ℕ) :
    bare (.inside quote) (t.take k) =
      bare .plain ((t.drop (stringRest quote t).length).take (k - (stringRest quote t).length)) := by
  fun_induction stringRest quote t generalizing k with
  | case1 => simp [bare]
  | case2 =>
    rcases k with _ | k
    · simp [bare]
    · simp [bare]
  | case3 d rest ih =>
    -- the backslash and the character after it are passed together
    rcases k with _ | _ | k
    · simp [bare]
    · have hlength : 1 - (2 + (stringRest quote rest).length) = 0 := by omega
      simp [bare, Extent.after, hlength]
    · have hlength : k + 1 + 1 - (2 + (stringRest quote rest).length) = k - (stringRest quote rest).length := by
        omega
      simp only [List.take_succ_cons, bare, Quoting.step, reduceCtorEq, false_and, if_false, if_true, ih k,
        Extent.after, hlength]
      rw [Nat.add_comm 2, List.drop_succ_cons, List.drop_succ_cons]
  | case4 rest hb =>
    rcases k with _ | k
    · simp [bare]
    · simp [bare, Quoting.step, hb]
  | case5 d rest hb hq ih =>
    rcases k with _ | k
    · simp [bare]
    · have hlength : k + 1 - (1 + (stringRest quote rest).length) = k - (stringRest quote rest).length := by
        omega
      simp only [List.take_succ_cons, bare, Quoting.step, reduceCtorEq, false_and, if_false, hb, hq, ih k,
        Extent.after, hlength]
      rw [Nat.add_comm 1, List.drop_succ_cons]

theorem bareCount_quote (x : Char) {q : Char} (hq : isQuote q = true) (t : Text) (k : ℕ) :
    bareCount x (q :: t.take k) =
      bareCount x ((t.drop (stringRest q t).length).take (k - (stringRest q t).length)) := by
  unfold bareCount
  have hstep : bare .plain (q :: t.take k) = bare (.inside q) (t.take k) := by
    simp [bare, hq, Quoting.step]
  rw [hstep, bare_inside]

/-! ## Where a group ends -/

/-- With `n` brackets open before it, the text leaves some open. -/
def StaysOpen (opening closing : Char) (n : ℕ) (t : Text) : Prop :=
  bareCount opening t + n ≠ bareCount closing t

/-- The extent goes through the first place where no bracket is left open, or to the end of the
text if there is none. -/
structure EndsFirst (opening closing : Char) (n : ℕ) (t : Text) (e : Extent) : Prop where
  before : ∀ k < e.length, StaysOpen opening closing n (t.take k)
  stop : e.unclosed = [] ∧ ¬ StaysOpen opening closing n (t.take e.length) ∨
    e.unclosed ≠ [] ∧ e.length = t.length ∧ StaysOpen opening closing n t

theorem staysOpen_nil {opening closing : Char} {n : ℕ} (hn : n ≠ 0) : StaysOpen opening closing n [] := by
  simpa [StaysOpen] using hn

theorem staysOpen_cons {opening closing c : Char} {n m : ℕ} {t : Text} (hquote : isQuote c = false)
    (hcount : (n + if c = opening then 1 else 0) = m + if c = closing then 1 else 0) :
    StaysOpen opening closing n (c :: t) ↔ StaysOpen opening closing m t := by
  unfold StaysOpen
  rw [bareCount_cons hquote, bareCount_cons hquote]
  omega

/-- One more character of a group before, outside of string literals. -/
theorem EndsFirst.cons {opening closing c : Char} {n m : ℕ} {t : Text} {e : Extent} (hn : n ≠ 0)
    (hquote : isQuote c = false)
    (hcount : (n + if c = opening then 1 else 0) = m + if c = closing then 1 else 0)
    (h : EndsFirst opening closing m t e) : EndsFirst opening closing n (c :: t) (.after 1 e) where
  before := by
    intro k hk
    rcases k with _ | k
    · exact staysOpen_nil hn
    · simp only [Extent.after] at hk
      rw [List.take_succ_cons, staysOpen_cons hquote hcount]
      exact h.before k (by omega)
  stop := by
    simp only [Extent.after, List.length_cons, Nat.add_comm 1, List.take_succ_cons,
      staysOpen_cons hquote hcount, Nat.add_right_cancel_iff]
    exact h.stop

/-- A string literal before. -/
theorem EndsFirst.string {opening closing q : Char} {n : ℕ} {t : Text} {e : Extent} (hn : n ≠ 0)
    (hq : isQuote q = true) (h : EndsFirst opening closing n (t.drop (stringRest q t).length) e) :
    EndsFirst opening closing n (q :: t) ((Extent.after 1 (stringRest q t)).append e) := by
  have hle := length_stringRest_le q t
  have hpass : ∀ k, StaysOpen opening closing n (q :: t.take k) ↔ StaysOpen opening closing n
      ((t.drop (stringRest q t).length).take (k - (stringRest q t).length)) := by
    intro k
    unfold StaysOpen
    rw [bareCount_quote _ hq, bareCount_quote _ hq]
  have hall : StaysOpen opening closing n (q :: t) ↔
      StaysOpen opening closing n (t.drop (stringRest q t).length) := by
    have h := hpass t.length
    rwa [List.take_length, List.take_of_length_le (by rw [List.length_drop])] at h
  constructor
  · intro k hk
    rcases k with _ | k
    · exact staysOpen_nil hn
    · simp only [Extent.append, Extent.after] at hk
      rw [List.take_succ_cons, hpass]
      by_cases hin : k ≤ (stringRest q t).length
      · rw [Nat.sub_eq_zero_of_le hin]
        exact staysOpen_nil hn
      · exact h.before _ (by omega)
  · simp only [Extent.append, Extent.after, List.length_cons]
    rcases h.stop with ⟨hclosed, hstop⟩ | ⟨hunclosed, hlength, hopen⟩
    · left
      -- a literal that is cut off leaves no text in which the group could end
      have hstring : (stringRest q t).unclosed = [] := by
        by_contra hcut
        have hend := length_of_unclosed_stringRest hcut
        rw [List.drop_eq_nil_of_le hend.ge] at hstop
        exact hstop (by rw [List.take_nil]; exact staysOpen_nil hn)
      refine ⟨by rw [hstring, hclosed]; rfl, ?_⟩
      rw [Nat.add_assoc, Nat.add_comm 1, List.take_succ_cons, hpass, Nat.add_sub_cancel_left]
      exact hstop
    · right
      rw [List.length_drop] at hlength
      exact ⟨by simp [hunclosed], by omega, hall.2 hopen⟩

/-- **A group is scanned through the first place where its brackets balance.** -/
theorem groupRest_first {opening closing : Char} (hopening : isQuote opening = false)
    (hclosing : isQuote closing = false) (hne : opening ≠ closing) (inner : ℕ) (t : Text) :
    EndsFirst opening closing (inner + 1) t (groupRest opening closing inner t) := by
  fun_induction groupRest opening closing inner t with
  | case1 inner => exact ⟨fun k hk => absurd hk (Nat.not_lt_zero k), .inr ⟨by simp, rfl, staysOpen_nil (by omega)⟩⟩
  | case2 inner c rest hq e ih => exact .string (by omega) hq ih
  | case3 inner rest hq ih =>
    refine .cons (by omega) hopening ?_ ih
    rw [if_pos rfl, if_neg hne]
  -- the group is closed here, and no earlier
  | case4 rest hq hopen =>
    constructor
    · intro k hk
      obtain rfl : k = 0 := Nat.lt_one_iff.1 hk
      exact staysOpen_nil (by omega)
    · left
      refine ⟨rfl, ?_⟩
      simp [StaysOpen, bareCount_cons hclosing, hopen]
  | case5 inner rest hinner hq hopen ih =>
    refine .cons (by omega) hclosing ?_ ih
    rw [if_neg hopen, if_pos rfl]
    omega
  | case6 inner c rest hq hopen hclose ih =>
    exact .cons (by omega) (by simpa using hq) (by rw [if_neg hopen, if_neg hclose]) ih

/-! ## The grammar of expressions -/

/-- The brackets of a group. -/
inductive Bracket where
  | round
  | square
deriving DecidableEq, Repr

namespace Bracket

def opening : Bracket → Char
  | round => '('
  | square => '['

def closing : Bracket → Char
  | round => ')'
  | square => ']'

/-- As many brackets of the kind are closed as are opened, string literals left out. -/
def Balanced (b : Bracket) (t : Text) : Prop :=
  bareCount b.opening t = bareCount b.closing t

theorem isQuote_opening (b : Bracket) : isQuote b.opening = false := by cases b <;> rfl

theorem isQuote_closing (b : Bracket) : isQuote b.closing = false := by cases b <;> rfl

theorem opening_ne_closing (b : Bracket) : b.opening ≠ b.closing := by cases b <;> decide

theorem balanced_cons (b : Bracket) (t : Text) :
    b.Balanced (b.opening :: t) ↔ ¬ StaysOpen b.opening b.closing 1 t := by
  unfold Balanced StaysOpen
  rw [bareCount_cons b.isQuote_opening, bareCount_cons b.isQuote_opening, if_pos rfl,
    if_neg b.opening_ne_closing, not_not]
  rfl

theorem closing?_opening (b : Bracket) : closing? b.opening = some b.closing := by cases b <;> rfl

theorem exists_of_closing? {c close : Char} (h : closing? c = some close) :
    ∃ b : Bracket, c = b.opening ∧ close = b.closing := by
  unfold closing? at h
  split at h
  · exact ⟨round, rfl, (Option.some.inj h).symm⟩
  · exact ⟨square, rfl, (Option.some.inj h).symm⟩
  · cases h

/-- The scan of a group, after its opening bracket. -/
theorem scan_first (b : Bracket) (t : Text) :
    EndsFirst b.opening b.closing 1 t (groupRest b.opening b.closing 0 t) :=
  groupRest_first b.isQuote_opening b.isQuote_closing b.opening_ne_closing 0 t

end Bracket

/-- A part that continues an expression: an access, or a group given by its opening bracket and the
text after it. -/
inductive Link where
  | access (name : Identifier)
  | group (bracket : Bracket) (rest : Text)

namespace Link

def text : Link → Text
  | access i => '.' :: i.text
  | group b u => b.opening :: u

/-- The part ends where it must, before the text `after`. A group does not balance earlier; if it does
not balance at all, then the text is at its end. -/
def Fits (after : Text) : Link → Prop
  | access _ => True
  | group b u =>
    (∀ k < u.length, ¬ b.Balanced (b.opening :: u.take k)) ∧ (¬ b.Balanced (b.opening :: u) → after = [])

/-- The part is a group that the end of the text cuts off. -/
def IsCut : Link → Prop
  | access _ => False
  | group b u => ¬ b.Balanced (b.opening :: u)

def textAll : List Link → Text
  | [] => []
  | l :: ls => l.text ++ textAll ls

def FitAll (after : Text) : List Link → Prop
  | [] => True
  | l :: ls => l.Fits (textAll ls ++ after) ∧ FitAll after ls

/-- A part does not continue an identifier. -/
theorem stops_text (l : Link) (t : Text) : Text.Stops isIdentifierChar (l.text ++ t) := by
  cases l with
  | access i => exact Text.stops_cons.2 (by decide)
  | group b u => cases b <;> exact Text.stops_cons.2 (by decide)

end Link

/-- An identifier and the parts that continue it. -/
structure Expression where
  first : Identifier
  links : List Link

namespace Expression

def text (e : Expression) : Text :=
  e.first.text ++ Link.textAll e.links

/-- Every part of the expression ends where it must, before the text `after`. -/
def Fits (after : Text) (e : Expression) : Prop :=
  Link.FitAll after e.links

/-- The end of the text cuts off a group of the expression. -/
def IsCut (e : Expression) : Prop :=
  ∃ l ∈ e.links, l.IsCut

/-- The text starts with the expression, and with no longer one. -/
structure LongestOf (t : Text) (e : Expression) : Prop where
  starts : ∃ after, t = e.text ++ after ∧ e.Fits after
  longest : ∀ (e' : Expression) (after : Text), t = e'.text ++ after → e'.Fits after →
    e'.text.length ≤ e.text.length

end Expression

/-! ## The scan against the grammar -/

open Link

variable {t after : Text}

/-- **What is scanned as a group fits.** -/
theorem groupRest_fits (b : Bracket) (t : Text) :
    (group b (t.take (groupRest b.opening b.closing 0 t).length)).Fits
        (t.drop (groupRest b.opening b.closing 0 t).length) ∧
      ((groupRest b.opening b.closing 0 t).unclosed ≠ [] ↔
        (group b (t.take (groupRest b.opening b.closing 0 t).length)).IsCut) := by
  obtain ⟨hbefore, hstop⟩ := b.scan_first t
  generalize groupRest b.opening b.closing 0 t = e at hbefore hstop
  refine ⟨⟨?_, ?_⟩, ?_⟩
  · intro k hk
    rw [List.length_take] at hk
    rw [b.balanced_cons, not_not, List.take_take, Nat.min_eq_left (by omega)]
    exact hbefore k (by omega)
  · intro hopen
    rw [b.balanced_cons] at hopen
    rcases hstop with ⟨-, hclosed⟩ | ⟨-, hlength, -⟩
    · exact absurd hclosed hopen
    · rw [hlength, List.drop_length]
  · show _ ↔ ¬ b.Balanced (b.opening :: t.take e.length)
    rw [b.balanced_cons, not_not]
    rcases hstop with ⟨hunclosed, hclosed⟩ | ⟨hunclosed, hlength, hopen⟩
    · simp [hunclosed, hclosed]
    · rw [hlength, List.take_length]
      exact iff_of_true hunclosed hopen

/-- **A group that fits is what is scanned.** -/
theorem length_groupRest_of_fits {b : Bracket} {u : Text} (h : (group b u).Fits after) :
    (groupRest b.opening b.closing 0 (u ++ after)).length = u.length := by
  obtain ⟨hearlier, hend⟩ := h
  have hle := length_groupRest_le b.opening b.closing 0 (u ++ after)
  obtain ⟨hbefore, hstop⟩ := b.scan_first (u ++ after)
  generalize groupRest b.opening b.closing 0 (u ++ after) = e at hle hbefore hstop
  rw [List.length_append] at hle
  rcases Nat.lt_trichotomy e.length u.length with hlt | heq | hgt
  · -- the scan cannot stop earlier, for the brackets do not balance there
    have hopen := hearlier e.length hlt
    rw [b.balanced_cons, not_not] at hopen
    rcases hstop with ⟨-, hclosed⟩ | ⟨-, hlength, -⟩
    · rw [List.take_append_of_le_length hlt.le] at hclosed
      exact absurd hopen hclosed
    · rw [List.length_append] at hlength
      omega
  · exact heq
  · -- nor can it go on: either the brackets balance, or the text is at its end
    have hopen := hbefore u.length hgt
    rw [List.take_left] at hopen
    have hnil : after = [] := hend (by rw [b.balanced_cons, not_not]; exact hopen)
    subst hnil
    simp only [List.length_nil] at hle
    omega

/-- An identifier is all that is taken of it, unless something follows that continues it. -/
theorem takeWhile_name (i : Identifier) (h : Text.Stops isIdentifierChar t) :
    (i.text ++ t).takeWhile isIdentifierChar = i.text :=
  Text.takeWhile_append_of_stops isIdentifierChar_of_mem h

theorem length_le_takeWhile_name (i : Identifier) (t : Text) :
    i.text.length ≤ ((i.text ++ t).takeWhile isIdentifierChar).length := by
  rw [List.takeWhile_append_of_pos isIdentifierChar_of_mem, List.length_append]
  omega

/-- The identifier at the start of a text. -/
theorem exists_identifier (h : isIdentifierStart (Text.ahead t 0) = true) :
    ∃ i : Identifier, i.text = t.take (t.takeWhile isIdentifierChar).length := by
  rw [← List.prefix_iff_eq_take.1 (List.takeWhile_prefix isIdentifierChar)]
  cases t with
  | nil => exact absurd h (by decide)
  | cons x t =>
    have hx : isIdentifierStart x = true := h
    refine ⟨⟨x, t.takeWhile isIdentifierChar, hx, fun y hy => List.mem_takeWhile_imp hy⟩, ?_⟩
    rw [List.takeWhile_cons_of_pos (isIdentifierChar_of_start hx)]
    rfl

/-- The parts are what the extent takes of a text. They fit, and the extent has something unclosed exactly
if one of them is cut off. -/
structure Spells (t : Text) (e : Extent) (ls : List Link) : Prop where
  text : textAll ls = t.take e.length
  fits : FitAll (t.drop e.length) ls
  cut : e.unclosed ≠ [] ↔ ∃ l ∈ ls, l.IsCut

theorem spells_nil (t : Text) : Spells t ⟨0, []⟩ [] := ⟨rfl, trivial, by simp⟩

theorem Spells.cons {d e : Extent} {l : Link} {ls : List Link} (htext : l.text = t.take d.length)
    (hfits : l.Fits (t.drop d.length)) (hcut : d.unclosed ≠ [] ↔ l.IsCut) (h : Spells (t.drop d.length) e ls) :
    Spells t (d.append e) (l :: ls) where
  text := by rw [textAll, htext, h.text, Extent.append, List.take_add]
  fits := by
    have hfollows : textAll ls ++ t.drop (d.append e).length = t.drop d.length := by
      rw [h.text, Extent.append, ← List.drop_drop, List.take_append_drop]
    refine ⟨by rwa [hfollows], ?_⟩
    rw [Extent.append, ← List.drop_drop]
    exact h.fits
  cut := by
    have hboth : (d.append e).unclosed ≠ [] ↔ d.unclosed ≠ [] ∨ e.unclosed ≠ [] := by
      simp only [Extent.append, ne_eq, List.append_eq_nil_iff]
      tauto
    rw [hboth, hcut, h.cut]
    simp

/-- **What is scanned after an identifier fits,** part by part. -/
theorem chain_spells (t : Text) : ∃ ls, Spells t (chain t) ls := by
  fun_induction chain t with
  | case1 => exact ⟨[], spells_nil _⟩
  | case2 c rest hdot n ih =>
    obtain ⟨rfl, hstart⟩ : c = '.' ∧ isIdentifierStart (Text.ahead rest 0) = true := by simpa using hdot
    obtain ⟨i, hi⟩ := exists_identifier hstart
    obtain ⟨ls, hls⟩ := ih
    refine ⟨.access i :: ls, ?_⟩
    have hdrop : ('.' :: rest).drop (1 + n) = rest.drop n := by rw [Nat.add_comm 1, List.drop_succ_cons]
    rw [Extent.after_eq_append]
    refine .cons ?_ trivial (by simp [IsCut]) (by rwa [hdrop])
    rw [Nat.add_comm 1, List.take_succ_cons, Link.text, hi]
  | case3 c rest hdot close hclose e ih =>
    obtain ⟨b, rfl, rfl⟩ := Bracket.exists_of_closing? hclose
    obtain ⟨ls, hls⟩ := ih
    obtain ⟨hfits, hcut⟩ := groupRest_fits b rest
    refine ⟨.group b (rest.take e.length) :: ls, ?_⟩
    have hdrop : (b.opening :: rest).drop (1 + e.length) = rest.drop e.length := by
      rw [Nat.add_comm 1, List.drop_succ_cons]
    refine .cons ?_ (by rw [Extent.after, hdrop]; exact hfits) hcut (by rw [Extent.after, hdrop]; exact hls)
    rw [Extent.after, Nat.add_comm 1, List.take_succ_cons, Link.text]
  | case4 c rest hdot hclose => exact ⟨[], spells_nil _⟩

/-- An access is a dot and an expression of its own. -/
theorem chain_access (h : isIdentifierStart (Text.ahead t 0) = true) : chain ('.' :: t) = .after 1 (expression t) := by
  rw [chain, h, expression]
  simp [Extent.after, Nat.add_assoc]

/-- An identifier is scanned as a whole; where parts follow that are scanned too, so are they. -/
theorem length_le_expression (i : Identifier) {ls : List Link}
    (h : (textAll ls).length ≤ (chain (textAll ls ++ after)).length) :
    i.text.length + (textAll ls).length ≤ (expression (i.text ++ (textAll ls ++ after))).length := by
  rw [expression]
  simp only [Extent.after]
  cases ls with
  | nil =>
    -- the identifier may go on in the text after it
    have hle := length_le_takeWhile_name i (textAll [] ++ after)
    simp only [textAll, List.length_nil] at hle ⊢
    omega
  | cons l ls =>
    have hstop : Text.Stops isIdentifierChar (textAll (l :: ls) ++ after) := by
      rw [textAll, List.append_assoc]
      exact l.stops_text _
    rw [takeWhile_name i hstop, List.drop_left]
    omega

/-- **Parts that fit are scanned,** and possibly more. -/
theorem length_le_chain {ls : List Link} (h : FitAll after ls) :
    (textAll ls).length ≤ (chain (textAll ls ++ after)).length := by
  induction ls with
  | nil => exact Nat.zero_le _
  | cons l ls ih =>
    obtain ⟨hfits, hls⟩ := h
    have hrest := ih hls
    rw [textAll, List.append_assoc, List.length_append]
    cases l with
    | access i =>
      have hname := length_le_expression i hrest
      have hstart : isIdentifierStart (Text.ahead (i.text ++ (textAll ls ++ after)) 0) = true := i.start
      rw [Link.text, List.cons_append, chain_access hstart, List.length_cons]
      simp only [Extent.after]
      omega
    | group b u =>
      have hlength := length_groupRest_of_fits hfits
      have hdot : b.opening ≠ '.' := by cases b <;> decide
      rw [Link.text, List.cons_append, chain, if_neg (by simp [hdot]), b.closing?_opening]
      simp only [Extent.append, Extent.after, List.length_cons, hlength, List.drop_left]
      omega

/-- Only the end of the text cuts a part off. -/
theorem Link.FitAll.eq_nil_of_isCut {ls : List Link} {l : Link} (h : FitAll after ls) (hl : l ∈ ls) (hcut : l.IsCut) :
    after = [] := by
  induction ls with
  | nil => exact absurd hl List.not_mem_nil
  | cons m ls ih =>
    obtain ⟨hfits, hls⟩ := h
    rcases List.mem_cons.1 hl with rfl | hl
    · cases l with
      | access i => exact hcut.elim
      | group b u => exact (List.append_eq_nil_iff.1 (hfits.2 hcut)).2
    · exact ih hls hl

/-- **The scan of an expression is a longest match,** and it has something unclosed exactly if the end of
the text cuts the expression off. -/
theorem expression_longestOf (h : isIdentifierStart (Text.ahead t 0) = true) : ∃ e : Expression,
    e.LongestOf t ∧ e.text = t.take (expression t).length ∧ ((expression t).unclosed ≠ [] ↔ e.IsCut) ∧
      (e.IsCut → t.drop (expression t).length = []) := by
  obtain ⟨i, hi⟩ := exists_identifier h
  generalize hn : (t.takeWhile isIdentifierChar).length = n at hi
  have hexpression : expression t = .after n (chain (t.drop n)) := by rw [← hn]; rfl
  obtain ⟨ls, hls⟩ := chain_spells (t.drop n)
  have htext : i.text ++ textAll ls = t.take (expression t).length := by
    rw [hexpression, Extent.after, hi, hls.text, List.take_add]
  have hfits : FitAll (t.drop (expression t).length) ls := by
    rw [hexpression, Extent.after, ← List.drop_drop]
    exact hls.fits
  refine ⟨⟨i, ls⟩, ⟨⟨t.drop (expression t).length, ?_, hfits⟩, ?_⟩, htext, ?_, ?_⟩
  · rw [Expression.text, htext, List.take_append_drop]
  · -- any other expression is scanned as far as it goes, and so is no longer
    intro e' after ht hfits'
    have hle := length_le_expression e'.first (length_le_chain hfits')
    have hlength : e'.text.length = e'.first.text.length + (textAll e'.links).length := List.length_append
    have hall := congrArg List.length ht
    rw [Expression.text, List.append_assoc] at ht
    rw [← ht] at hle
    rw [List.length_append] at hall
    show e'.text.length ≤ (i.text ++ textAll ls).length
    rw [htext, List.length_take]
    omega
  · rw [hexpression]
    exact hls.cut
  · rintro ⟨l, hl, hcut⟩
    exact hfits.eq_nil_of_isCut hl hcut

end Code

/-! ## Expressions in a template -/

namespace Parse

variable {c : Context}

/-- The reports of unclosed parts, one after the other. -/
theorem reportUnclosed_diagnostics (us : List Unclosed) :
    Ends (us.forM fun u => reportHere (.unexpectedEnd u)) c fun _ d => c.Moved [] d ∧ d.diagnostics =
      c.diagnostics ++ us.map fun u => (Problem.unexpectedEnd u).located (.empty c.pos) := by
  induction us generalizing c with
  | nil => exact ⟨.refl c, (List.append_nil _).symm⟩
  | cons u us ih =>
    let d := c.report ((Problem.unexpectedEnd u).located (.empty c.pos))
    refine Ends.bind (Q := fun _ e => e = d) rfl ?_
    rintro _ _ rfl
    refine (ih (c := d)).imp ?_
    rintro _ e ⟨hmoved, he⟩
    refine ⟨(c.moved_report _).trans hmoved, ?_⟩
    rw [he, List.map_cons]
    exact List.append_assoc _ [_] _

/-- A piece of code and all that is reported on it, if only the end of the template cuts something
off. -/
theorem code_reports {e : Code.Extent} (h : e.unclosed ≠ [] → c.rest.drop e.length = []) :
    Ends (Parse.code e) c fun n d => n = .token .codeValue (.ofText c.pos (c.rest.take e.length)) ∧
      d.rest = c.rest.drop e.length ∧ d.diagnostics = c.diagnostics ++ c.atStop e.unclosed := by
  refine Ends.bind (Q := fun n d => n = .token .codeValue (.ofText c.pos (c.rest.take e.length)) ∧
    d = (c.read e.length).2) ⟨by rw [← c.read_location]; rfl, rfl⟩ ?_
  rintro n d ⟨rfl, rfl⟩
  have hread := c.moved_read e.length
  refine Ends.bind (reportUnclosed_diagnostics e.unclosed) ?_
  rintro _ d ⟨hmoved, hd⟩
  refine ⟨rfl, hmoved.rest_eq, ?_⟩
  show d.diagnostics = _
  by_cases hcut : e.unclosed = []
  · rw [hd, hcut]
    rfl
  · -- the cursor is at the end of the template
    have hall : c.rest.take e.length = c.rest := by
      have hsplit := List.take_append_drop e.length c.rest
      rwa [h hcut, List.append_nil] at hsplit
    rw [hd, hread.pos, hall]
    rfl

/-- **An expression is read as the longest match** after its transition. -/
theorem codeExpression_longest {x : Char} {t : Text} (hrest : c.rest = c.transition :: x :: t)
    (hx : Code.isIdentifierStart x = true) :
    Ends codeExpression c fun n d => ∃ (e : Code.Expression) (us : List Unclosed),
      e.LongestOf (x :: t) ∧
      n = .ofChildren .codeExpression [.marker .transition (.ofText c.pos [c.transition]),
        .token .codeValue (.ofText (c.pos.after [c.transition]) e.text)] ∧
      c.rest = [c.transition] ++ e.text ++ d.rest ∧
      d.diagnostics = c.diagnostics ++ c.atStop us ∧ (us ≠ [] ↔ e.IsCut) := by
  have hone : c.rest.take 1 = [c.transition] := by rw [hrest]; rfl
  have hread := c.moved_read 1
  rw [hone] at hread
  have hnext : (c.read 1).2.rest = x :: t := by
    have := hread.rest
    rw [hrest] at this
    exact (List.cons.inj this).2.symm
  obtain ⟨e, hlongest, htext, hcut, hend⟩ := Code.expression_longestOf (t := x :: t) hx
  refine Ends.bind (Q := fun n d => n = .marker .transition (.ofText c.pos [c.transition]) ∧ d = (c.read 1).2)
    ⟨by rw [← hone, ← c.read_location]; rfl, rfl⟩ ?_
  rintro marker d ⟨rfl, rfl⟩
  refine Ends.get_bind (Ends.bind (code_reports fun h => ?_) ?_)
  · rw [hnext] at h ⊢
    exact hend (hcut.1 h)
  rw [hnext]
  rintro value d ⟨rfl, hd, hreports⟩
  refine ⟨e, _, hlongest, ?_, ?_, hreports.trans ?_, hcut⟩
  · rw [htext, hread.pos]
    rfl
  · show c.rest = [c.transition] ++ e.text ++ d.rest
    rw [hd, htext, List.append_assoc, List.take_append_drop, hrest]
    rfl
  · -- the end of the template is the same, seen from behind the transition
    have hstop : (c.read 1).2.pos.after (c.read 1).2.rest = c.pos.after c.rest := by
      rw [hread.pos, ← Position.after_append, ← hread.rest]
    unfold Context.atStop
    rw [hstop]
    rfl

/-- Before an identifier, a transition introduces an expression, unless it is doubled. -/
theorem embedded_identifier {body : Parse (List Node)} {x : Char} {t : Text}
    (hrest : c.rest = c.transition :: x :: t) (hx : Code.isIdentifierStart x = true) :
    embedded body c = if x = c.transition then escapedTransition c else codeExpression c := by
  have hpeek : c.peek = x := by rw [Context.peek, Context.peekAt, hrest]; rfl
  have hbrace : x ≠ '{' := by rintro rfl; exact absurd hx (by decide)
  show (if c.peek = c.transition then escapedTransition else if c.peek = '{' then codeBlock body
    else if Code.isIdentifierStart c.peek then codeExpression else invalidTransition) c = _
  rw [hpeek, if_neg hbrace, if_pos hx]
  split
  · rfl
  · rfl

end Parse

open Parse

variable {c : Context} {x : Char} {t : Text}

/-- **Code expressions are longest matches.** Let an identifier start right after the transition at the
cursor. Then an expression is read, unless the transition is doubled. Its code is the longest match
of the grammar of expressions, and the cursor stands after it. Nothing is reported but that the
template ends too early, and this exactly if its end cuts off a group of the expression. -/
theorem expression_longest (hrest : c.rest = c.transition :: x :: t) (hx : Code.isIdentifierStart x = true) :
    Ends introduced c fun n d =>
      (n.kind = .codeExpression ↔ x ≠ c.transition) ∧
      (n.kind = .codeExpression → ∃ (e : Code.Expression) (us : List Unclosed),
        e.LongestOf (x :: t) ∧
        n = .ofChildren .codeExpression [.marker .transition (.ofText c.pos [c.transition]),
          .token .codeValue (.ofText (c.pos.after [c.transition]) e.text)] ∧
        c.rest = [c.transition] ++ e.text ++ d.rest ∧
        d.diagnostics = c.diagnostics ++
          (us.map fun u => (Problem.unexpectedEnd u).located (.empty (c.pos.after c.rest))) ∧
        (us ≠ [] ↔ e.IsCut)) := by
  obtain ⟨body, hcode⟩ := (Level.rereads_ofRoom c.room).code
  have hrun : introduced c = embedded body c := by rw [introduced, hcode]
  unfold Ends
  rw [hrun, embedded_identifier hrest hx]
  by_cases hdouble : x = c.transition
  · rw [if_pos hdouble]
    have hkind : (escapedTransition c).1.kind ≠ .codeExpression := by
      show Kind.escapedTransition ≠ .codeExpression
      decide
    exact ⟨iff_of_false hkind fun h => h hdouble, fun h => absurd h hkind⟩
  · rw [if_neg hdouble]
    exact ⟨iff_of_true rfl hdouble, fun _ => codeExpression_longest hrest hx⟩

theorem expression_longest_cut_off :
    let c : Context := { rest := "@u.f(')').g[x (.".toList, transition := '@', maxDepth := 3 }
    Ends introduced c fun n d => n.kind = .codeExpression ∧ d.rest = [] ∧ d.diagnostics.length = 1 ∧
      ∃ e : Code.Expression, e.LongestOf c.rest.tail ∧ e.text = c.rest.tail ∧ e.IsCut := by
  intro c
  have hdone : (introduced c).2.rest = [] ∧ (introduced c).2.diagnostics.length = 1 := by decide +kernel
  obtain ⟨hkind, hread⟩ := expression_longest (c := c) rfl (by decide)
  obtain ⟨e, us, hlongest, -, hrest, hreports, hcut⟩ := hread (hkind.2 (by decide))
  refine ⟨hkind.2 (by decide), hdone.1, hdone.2, e, hlongest, ?_, hcut.1 ?_⟩
  · rw [hdone.1, List.append_nil] at hrest
    exact (List.cons.inj hrest).2.symm
  · rintro rfl
    rw [hreports] at hdone
    exact absurd hdone.2 (by decide)

end Stencil
