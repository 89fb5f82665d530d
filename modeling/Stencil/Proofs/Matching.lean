import Stencil.Proofs.Braces

/-!
# Matching braces in code

Where does the brace of a body match? `Code.matching?` answers it without any of the scans: it goes
over the code character by character, in one of seven modes, and counts the braces that stand in
no string literal and no comment.

* `Code.flatBody_matches`: **a body that is read flat ends at the matching brace,** or with the text if
  there is none.
* `Code.flatBody_succ`: a body that is read flat is, brace by brace, the bodies in it.
* `Code.flatBody_value`: up to the next brace or element it is a stretch of code.
* `Code.isMarkupFree`: whether no element can start in a body. It goes along in the same way
  (`Code.isMarkupFree_succ`, `Code.isMarkupFree_value`).
-/

namespace Stencil.Code

/-! ## Character by character -/

/-- What a character of the code is part of. -/
inductive Mode where
  | code
  /-- Code again, right after a slash. -/
  | slash
  | string (quote : Char)
  /-- A string literal, right after a backslash. -/
  | escape (quote : Char)
  | lineComment
  | blockComment
  /-- A block comment, right after a star. -/
  | star
deriving DecidableEq, Repr

namespace Mode

/-- The mode after one more character. -/
def step : Mode → Char → Mode
  | code, c => if isQuote c then string c else if c = '/' then slash else code
  | slash, c =>
    if c = '/' then lineComment else if c = '*' then blockComment else if isQuote c then string c else code
  | string q, c => if c = '\\' then escape q else if c = q then code else string q
  | escape q, _ => string q
  | lineComment, c => if c = '\n' then code else lineComment
  | blockComment, c => if c = '*' then star else blockComment
  | star, c => if c = '/' then code else if c = '*' then star else blockComment

/-- Whether braces count. -/
def isCode : Mode → Bool
  | code | slash => true
  | _ => false

/-- What is cut off where the text ends in this mode. -/
def unclosed : Mode → List Unclosed
  | string _ | escape _ => [.string]
  | blockComment | star => [.blockComment]
  | code | slash | lineComment => []

/-- The number of open braces after one more character. -/
def count (m : Mode) (opened : ℕ) (c : Char) : ℕ :=
  if m.isCode then if c = '{' then opened + 1 else if c = '}' then opened - 1 else opened
  else opened

end Mode

/-- The number of characters up to the brace that closes a body, that brace included; `none` if there is no
such brace. `opened` counts the inner braces that are open. -/
def matching? (m : Mode) (opened : ℕ) : Text → Option ℕ
  | [] => none
  | c :: t =>
    if m.isCode && c == '}' && opened == 0 then some 1
    else (matching? (m.step c) (m.count opened c) t).map (1 + ·)

/-- What the end of a text cuts off if no brace closes the body. -/
def cutOff (t : Text) : List Unclosed :=
  if (matching? .code 0 t).isSome then [] else (t.foldl Mode.step .code).unclosed

/-! ## The extent of a flat body -/

namespace Extent

theorem empty_append (e : Extent) : append ⟨0, []⟩ e = e := by
  simp [append]

theorem after_eq_append (n : ℕ) (e : Extent) : after n e = append ⟨n, []⟩ e := by
  simp [after, append]

/-- Extents are put together from left to right or from right to left. -/
theorem append_assoc (d e f : Extent) : (d.append e).append f = d.append (e.append f) := by
  simp [append, Nat.add_assoc]

theorem after_append (n : ℕ) (d e : Extent) : (after n d).append e = after n (d.append e) := by
  simp [append, after, Nat.add_assoc]

end Extent

/-- The extent goes up to the matching brace, or to the end of the text with what is cut off there. -/
def Matches (m : Mode) (opened : ℕ) (t : Text) (e : Extent) : Prop :=
  matching? m opened t = some (e.length + 1) ∧ e.unclosed = [] ∨
    matching? m opened t = none ∧ e = ⟨t.length, (t.foldl Mode.step m).unclosed⟩

variable {m : Mode} {opened : ℕ} {t : Text} {c : Char} {e : Extent}

theorem matches_nil (m : Mode) (opened : ℕ) : Matches m opened [] ⟨0, m.unclosed⟩ :=
  Or.inr ⟨rfl, rfl⟩

/-- At the end of the text what is open is reported. -/
theorem Matches.eq_of_nil (h : Matches m opened [] e) : e = ⟨0, m.unclosed⟩ := by
  rcases h with ⟨h, -⟩ | ⟨-, h⟩
  · cases h
  · exact h

/-- **One more character before.** -/
theorem Matches.cons (hc : ¬ (m.isCode = true ∧ c = '}' ∧ opened = 0))
    (h : Matches (m.step c) (m.count opened c) t e) : Matches m opened (c :: t) (.after 1 e) := by
  have hgo : ¬ ((m.isCode && c == '}' && opened == 0) = true) := by
    simpa only [Bool.and_eq_true, beq_iff_eq, and_assoc] using hc
  unfold Matches
  rw [matching?, if_neg hgo]
  rcases h with ⟨hsome, hunclosed⟩ | ⟨hnone, rfl⟩
  · left
    rw [hsome]
    exact ⟨by simp only [Option.map_some, Extent.after, Nat.add_assoc], hunclosed⟩
  · right
    rw [hnone]
    exact ⟨rfl, by simp only [Extent.after, List.length_cons, List.foldl_cons, Nat.add_comm]⟩

/-- One more character of a string literal or a comment before. -/
theorem Matches.cons_hidden {next : Mode} (hm : m.isCode = false) (hstep : m.step c = next)
    (h : Matches next opened t e) : Matches m opened (c :: t) (.after 1 e) := by
  apply Matches.cons
  · simp [hm]
  · simpa [Mode.count, hm, hstep] using h

/-! ### Where a scan looks ahead -/

/-- A line feed ends a line comment and is code itself. -/
theorem Matches.lineFeed (h : Matches .code opened ('\n' :: t) e) : Matches .lineComment opened ('\n' :: t) e := by
  simpa [Matches, matching?, Mode.step, Mode.isCode, Mode.count, isQuote] using h

/-- A slash that opens no comment is like any other character. -/
theorem Matches.slash (h : Matches .code opened t e) (hslash : t.head? ≠ some '/') (hstar : t.head? ≠ some '*') :
    Matches .slash opened t e := by
  cases t with
  | nil => exact h
  | cons c t =>
    have hc : c ≠ '/' ∧ c ≠ '*' := by simpa using And.intro hslash hstar
    simpa [Matches, matching?, Mode.step, Mode.isCode, Mode.count, hc.1, hc.2] using h

/-- A star that closes no block comment is like any other character in it. -/
theorem Matches.star (h : Matches .blockComment opened t e) (hslash : t.head? ≠ some '/') :
    Matches .star opened t e := by
  cases t with
  | nil => exact h
  | cons c t =>
    have hc : c ≠ '/' := by simpa using hslash
    simpa [Matches, matching?, Mode.step, Mode.isCode, Mode.count, hc] using h

/-! ### What is skipped -/

/-- A string is matched as a whole, -/
theorem matches_stringRest (quote : Char) (t : Text)
    (h : Matches .code opened (t.drop (stringRest quote t).length) e) :
    Matches (.string quote) opened t ((stringRest quote t).append e) := by
  fun_induction stringRest quote t with
  | case1 =>
    rw [h.eq_of_nil]
    exact matches_nil _ _
  | case2 =>
    rw [h.eq_of_nil]
    have hescape : Matches (.string quote) opened ['\\'] (.after 1 ⟨0, _⟩) :=
      .cons_hidden rfl rfl (matches_nil (.escape quote) opened)
    exact hescape
  -- an escape takes two characters, of which the second may be a quote
  | case3 d rest ih =>
    have hrest := ih (by simpa [Extent.after, Nat.add_comm 2] using h)
    have hescape : Matches (.escape quote) opened (d :: rest) (.after 1 ((stringRest quote rest).append e)) :=
      .cons_hidden rfl rfl hrest
    have hboth : Matches (.string quote) opened ('\\' :: d :: rest) (.after 1 (.after 1 _)) :=
      .cons_hidden rfl rfl hescape
    simpa [Extent.after, Extent.append, ← Nat.add_assoc] using hboth
  | case4 rest hb =>
    have hstep : Mode.step (.string quote) quote = .code := by simp [Mode.step, hb]
    rw [← Extent.after_eq_append]
    exact .cons_hidden rfl hstep h
  | case5 d rest hb hq ih =>
    have hstep : Mode.step (.string quote) d = .string quote := by simp [Mode.step, hb, hq]
    have hrest := ih (by simpa [Extent.after, Nat.add_comm 1] using h)
    rw [Extent.after_append]
    exact .cons_hidden rfl hstep hrest

/-- and so is a comment to the end of its line, -/
theorem matches_lineComment (t : Text)
    (h : Matches .code opened (t.drop (t.takeWhile (· != '\n')).length) e) :
    Matches .lineComment opened t (.append ⟨(t.takeWhile (· != '\n')).length, []⟩ e) := by
  induction t with
  | nil =>
    rw [h.eq_of_nil]
    exact matches_nil _ _
  | cons d t ih =>
    by_cases hd : d = '\n'
    · subst hd
      simpa [Extent.empty_append] using h.lineFeed
    · have hstep : Mode.step .lineComment d = .lineComment := by simp [Mode.step, hd]
      have htake : ((d :: t).takeWhile (· != '\n')).length = 1 + (t.takeWhile (· != '\n')).length := by
        simp [hd, Nat.add_comm]
      rw [htake] at h ⊢
      have hrest := ih (by simpa [Nat.add_comm 1] using h)
      have hcons := Matches.cons_hidden rfl hstep hrest
      simpa [Extent.after, Extent.append, ← Nat.add_assoc] using hcons

/-- and a comment between its marks. -/
theorem matches_blockCommentRest (t : Text) (h : Matches .code opened (t.drop (blockCommentRest t).length) e) :
    Matches .blockComment opened t ((blockCommentRest t).append e) := by
  fun_induction blockCommentRest t with
  | case1 =>
    rw [h.eq_of_nil]
    exact matches_nil _ _
  | case2 d rest hstop =>
    obtain ⟨rfl, hhead⟩ : d = '*' ∧ rest.head? = some '/' := by simpa using hstop
    obtain ⟨rest, rfl⟩ := List.head?_eq_some_iff.1 hhead
    have hclose : Matches .star opened ('/' :: rest) (.after 1 e) := .cons_hidden rfl rfl h
    have hboth : Matches .blockComment opened ('*' :: '/' :: rest) (.after 1 (.after 1 e)) :=
      .cons_hidden rfl rfl hclose
    simpa [Extent.after, Extent.append, ← Nat.add_assoc] using hboth
  | case3 d rest hgo ih =>
    have hrest := ih (by simpa [Extent.after, Nat.add_comm 1] using h)
    rw [Extent.after_append]
    by_cases hd : d = '*'
    · subst hd
      exact .cons_hidden rfl rfl (hrest.star (by simpa using hgo))
    · have hstep : Mode.step .blockComment d = .blockComment := by simp [Mode.step, hd]
      exact .cons_hidden rfl hstep hrest

/-- **What is skipped has no braces that count.** -/
theorem matches_skipped {d : Extent} (hskip : skipped? t = some d)
    (h : Matches .code opened (t.drop d.length) e) : Matches .code opened t (d.append e) := by
  obtain ⟨q, u, hq, rfl⟩ | ⟨u, rfl⟩ | ⟨u, rfl⟩ := skipped?_cases hskip
  · rw [skipped?_string hq, Option.some.injEq] at hskip
    subst hskip
    have hne : q ≠ '}' ∧ q ≠ '{' := by constructor <;> rintro rfl <;> cases hq
    have hrest := matches_stringRest q u (by simpa [Extent.after, Nat.add_comm 1] using h)
    rw [Extent.after_append]
    apply Matches.cons
    · simp [hne.1]
    · simpa [Mode.step, Mode.count, Mode.isCode, hq, hne] using hrest
  · rw [skipped?_lineComment, Option.some.injEq] at hskip
    subst hskip
    have hrest := matches_lineComment u (by simpa [Nat.add_comm 2] using h)
    have hslash : Matches .slash opened ('/' :: u) (.after 1 _) := Matches.cons (by simp) hrest
    have hboth : Matches .code opened ('/' :: '/' :: u) (.after 1 (.after 1 _)) := Matches.cons (by simp) hslash
    simpa [Extent.after, Extent.append, ← Nat.add_assoc] using hboth
  · rw [skipped?_blockComment, Option.some.injEq] at hskip
    subst hskip
    have hrest := matches_blockCommentRest u (by simpa [Extent.after, Nat.add_comm 2] using h)
    have hslash : Matches .slash opened ('*' :: u) (.after 1 _) := Matches.cons (by simp) hrest
    have hboth : Matches .code opened ('/' :: '*' :: u) (.after 1 (.after 1 _)) := Matches.cons (by simp) hslash
    simpa [Extent.after, Extent.append, ← Nat.add_assoc] using hboth

/-- A slash at which nothing is skipped opens no comment. -/
theorem head?_of_skipped?_eq_none (h : skipped? ('/' :: t) = none) :
    t.head? ≠ some '/' ∧ t.head? ≠ some '*' := by
  constructor
  · intro hhead
    obtain ⟨u, rfl⟩ := List.head?_eq_some_iff.1 hhead
    rw [skipped?_lineComment] at h
    cases h
  · intro hhead
    obtain ⟨u, rfl⟩ := List.head?_eq_some_iff.1 hhead
    rw [skipped?_blockComment] at h
    cases h

theorem isQuote_of_skipped?_eq_none (h : skipped? (c :: t) = none) : isQuote c = false := by
  cases hc : isQuote c with
  | false => rfl
  | true =>
    rw [skipped?_string hc] at h
    cases h

/-- **A body that is read flat ends at the matching brace.** -/
theorem flatBody_matches (opened : ℕ) (t : Text) : Matches .code opened t (flatBody opened t) := by
  fun_induction flatBody opened t with
  | case1 opened => exact matches_nil _ _
  | case2 opened c rest hstop =>
    obtain ⟨rfl, rfl⟩ : c = '}' ∧ opened = 0 := by simpa using hstop
    exact Or.inl ⟨rfl, rfl⟩
  | case3 opened c rest hstop e hskip _ ih => exact matches_skipped hskip ih
  | case4 opened rest hstop hskip ih => exact Matches.cons (by simp) ih
  | case5 opened rest hstop hskip _ ih =>
    apply Matches.cons
    · rintro ⟨-, -, rfl⟩
      simp at hstop
    · exact ih
  | case6 opened c rest hstop hskip hopen hclose ih =>
    apply Matches.cons
    · simp [hclose]
    · have hcount : Mode.count .code opened c = opened := by simp [Mode.count, hopen, hclose]
      have hquote := isQuote_of_skipped?_eq_none hskip
      rw [hcount]
      -- a slash that starts no comment is passed like any other character
      by_cases hslash : c = '/'
      · subst hslash
        obtain ⟨h1, h2⟩ := head?_of_skipped?_eq_none hskip
        exact ih.slash h1 h2
      · simpa [Mode.step, hquote, hslash] using ih

/-- The brace that matches stands in the text. -/
theorem matching?_le {n : ℕ} (h : matching? m opened t = some n) : n ≤ t.length := by
  induction t generalizing m opened n with
  | nil => cases h
  | cons c t ih =>
    rw [matching?] at h
    split at h
    · obtain rfl := Option.some.inj h
      simp
    · obtain ⟨k, hk, rfl⟩ := Option.map_eq_some_iff.1 h
      have := ih hk
      rw [List.length_cons]
      omega

/-- What a flat body says about the matching brace. -/
theorem matching?_cases (t : Text) :
    (flatBody 0 t).length < t.length ∧ matching? .code 0 t = some ((flatBody 0 t).length + 1) ∨
      (flatBody 0 t).length = t.length ∧ matching? .code 0 t = none := by
  rcases flatBody_matches 0 t with ⟨hsome, -⟩ | ⟨hnone, heq⟩
  · exact Or.inl ⟨matching?_le hsome, hsome⟩
  · exact Or.inr ⟨by rw [heq], hnone⟩

/-- A flat body reports what the end of the text cuts off. -/
theorem unclosed_flatBody (t : Text) : (flatBody 0 t).unclosed = cutOff t := by
  unfold cutOff
  rcases flatBody_matches 0 t with ⟨hsome, hunclosed⟩ | ⟨hnone, heq⟩
  · rw [hsome, hunclosed]
    rfl
  · rw [hnone, heq]
    rfl

/-! ## Bodies in a flat body -/

/-- A scan that goes on after a piece of the text. -/
theorem flatBody_skip {d : Extent} (h : skipped? t = some d) :
    flatBody opened t = d.append (flatBody opened (t.drop d.length)) := by
  have hturn : flatBodyTurn opened t = (d, some opened) := by
    obtain ⟨q, u, hq, rfl⟩ | ⟨u, rfl⟩ | ⟨u, rfl⟩ := skipped?_cases h
    · have hne : q ≠ '}' := by rintro rfl; cases hq
      simp [flatBodyTurn, h, hne]
    · simp [flatBodyTurn, h]
    · simp [flatBodyTurn, h]
  rw [flatBodyTurn_drives.repeats, hturn]

theorem flatBody_open (opened : ℕ) (t : Text) :
    flatBody opened ('{' :: t) = .after 1 (flatBody (opened + 1) t) := by
  rw [flatBodyTurn_drives.repeats, Extent.after_eq_append]
  simp [flatBodyTurn, skipped?, isQuote]

theorem flatBody_close (opened : ℕ) (t : Text) :
    flatBody (opened + 1) ('}' :: t) = .after 1 (flatBody opened t) := by
  rw [flatBodyTurn_drives.repeats, Extent.after_eq_append]
  simp [flatBodyTurn, skipped?, isQuote]

/-- A character that is neither a brace nor the start of a string or comment is passed by. -/
theorem flatBody_plain (opened : ℕ) (hopen : c ≠ '{') (hclose : c ≠ '}') (h : skipped? (c :: t) = none) :
    flatBody opened (c :: t) = .after 1 (flatBody opened t) := by
  rw [flatBodyTurn_drives.repeats, Extent.after_eq_append]
  simp [flatBodyTurn, h, hopen, hclose]

theorem flatBody_nil (opened : ℕ) : flatBody opened [] = ⟨0, []⟩ := by
  rw [flatBody]

theorem flatBody_stop (t : Text) : flatBody 0 ('}' :: t) = ⟨0, []⟩ := by
  rw [flatBody]
  rfl

/-- A flat body ends where nothing is left, or at a brace. -/
theorem flatBody_stops (opened : ℕ) (t : Text) :
    t.drop (flatBody opened t).length = [] ∨ (t.drop (flatBody opened t).length).head? = some '}' := by
  fun_induction flatBody opened t with
  | case1 => exact .inl rfl
  | case2 opened c rest hstop =>
    obtain ⟨rfl, -⟩ : c = '}' ∧ opened = 0 := by simpa using hstop
    exact .inr rfl
  | case3 opened c rest hstop e hskip _ ih => simpa only [Extent.append, List.drop_drop] using ih
  | case4 opened rest hstop hskip ih => simpa only [Extent.after, Nat.add_comm 1, List.drop_succ_cons] using ih
  | case5 opened rest hstop hskip _ ih => simpa only [Extent.after, Nat.add_comm 1, List.drop_succ_cons] using ih
  | case6 opened c rest hstop hskip hopen hclose ih =>
    simpa only [Extent.after, Nat.add_comm 1, List.drop_succ_cons] using ih

/-- A flat body and the brace that closes it, if there is one. -/
def enclosed (opened : ℕ) (t : Text) : Extent :=
  if (flatBody opened t).length < t.length then (flatBody opened t).append ⟨1, []⟩ else flatBody opened t

/-- What encloses is put together as the body is. -/
theorem enclosed_append {d : Extent} {opened' : ℕ} (hd : d.length ≤ t.length)
    (h : flatBody opened t = d.append (flatBody opened' (t.drop d.length))) :
    enclosed opened t = d.append (enclosed opened' (t.drop d.length)) := by
  unfold enclosed
  have hlength : (t.drop d.length).length = t.length - d.length := List.length_drop
  by_cases hless : (flatBody opened' (t.drop d.length)).length < (t.drop d.length).length
  · rw [h, if_pos hless, if_pos (by simp only [Extent.append]; omega), Extent.append_assoc]
  · rw [h, if_neg hless, if_neg (by simp only [Extent.append]; omega)]

theorem enclosed_nil (opened : ℕ) : enclosed opened [] = ⟨0, []⟩ := by
  simp [enclosed, flatBody_nil]

theorem enclosed_stop (t : Text) : enclosed 0 ('}' :: t) = ⟨1, []⟩ := by
  simp [enclosed, flatBody_stop, Extent.empty_append]

/-- With its brace a body goes up to the brace that matches, or to the end. -/
theorem length_enclosed (t : Text) : (enclosed 0 t).length = (matching? .code 0 t).getD t.length := by
  unfold enclosed
  rcases matching?_cases t with ⟨hless, hsome⟩ | ⟨hall, hnone⟩
  · rw [if_pos hless, hsome]
    rfl
  · rw [if_neg (by omega), hnone, hall]
    rfl

theorem unclosed_enclosed (t : Text) : (enclosed 0 t).unclosed = cutOff t := by
  rw [← unclosed_flatBody, enclosed]
  split
  · exact List.append_nil _
  · rfl

/-- The flat body goes on behind the brace that closes an inner one. -/
theorem flatBody_succ_append {d : Extent} {opened' : ℕ} (hd : d.length ≤ t.length)
    (h : flatBody opened t = d.append (flatBody opened' (t.drop d.length)))
    (h' : flatBody (opened + 1) t = d.append (flatBody (opened' + 1) (t.drop d.length)))
    (hsucc : flatBody (opened' + 1) (t.drop d.length) = (enclosed opened' (t.drop d.length)).append
      (flatBody 0 ((t.drop d.length).drop (enclosed opened' (t.drop d.length)).length))) :
    flatBody (opened + 1) t =
      (enclosed opened t).append (flatBody 0 (t.drop (enclosed opened t).length)) := by
  rw [h', hsucc, enclosed_append hd h, Extent.append_assoc, List.drop_drop]
  rfl

/-- **A flat body with one brace more open is the inner body, its brace, and what goes on behind it.** -/
theorem flatBody_succ (opened : ℕ) (t : Text) : flatBody (opened + 1) t =
    (enclosed opened t).append (flatBody 0 (t.drop (enclosed opened t).length)) := by
  fun_induction flatBody opened t with
  | case1 opened => simp [enclosed_nil, flatBody_nil, Extent.empty_append]
  | case2 opened c rest hstop =>
    obtain ⟨rfl, rfl⟩ : c = '}' ∧ opened = 0 := by simpa using hstop
    rw [enclosed_stop, flatBody_close, Extent.after_eq_append]
    rfl
  | case3 opened c rest hstop e hskip _ ih =>
    exact flatBody_succ_append (length_skipped?_le hskip) (flatBody_skip hskip) (flatBody_skip hskip) ih
  | case4 opened rest hstop hskip ih =>
    have hone := fun n => (flatBody_open n rest).trans (Extent.after_eq_append _ _)
    exact flatBody_succ_append (by simp) (hone opened) (hone (opened + 1)) ih
  | case5 opened rest hstop hskip _ ih =>
    have hone := fun n => (flatBody_close n rest).trans (Extent.after_eq_append _ _)
    obtain ⟨opened, rfl⟩ : ∃ n, opened = n + 1 := Nat.exists_eq_succ_of_ne_zero (by rintro rfl; simp at hstop)
    exact flatBody_succ_append (by simp) (hone opened) (hone (opened + 1)) ih
  | case6 opened c rest hstop hskip hopen hclose ih =>
    have hone := fun n => (flatBody_plain n hopen hclose hskip).trans (Extent.after_eq_append _ _)
    exact flatBody_succ_append (by simp) (hone opened) (hone (opened + 1)) ih

/-- **Up to the next brace or element a flat body is a stretch of code.** -/
theorem flatBody_value (opened : ℕ) (last : Option Char) (t : Text) :
    flatBody opened t = (value last t).1.append (flatBody opened (t.drop (value last t).1.length)) := by
  fun_induction value last t with
  | case1 last => simp [flatBody_nil, Extent.append]
  | case2 last c rest hstop => simp [Extent.empty_append]
  | case3 last c rest hstop e hskip _ next ih =>
    rw [flatBody_skip hskip, ih, Extent.append_assoc, List.drop_drop]
    rfl
  | case4 last c rest hstop hskip next ih =>
    simp only [Bool.or_eq_true, decide_eq_true_eq, not_or] at hstop
    rw [flatBody_plain opened hstop.1.1 hstop.1.2 hskip, ih, Extent.after_append]
    simp only [Extent.after, Nat.add_comm 1, List.drop_succ_cons]
    rfl

/-! ## Bodies without elements -/

/-- Whether no element can start in a body, given the last significant character of the code before. -/
def isMarkupFree (last : Option Char) (opened : ℕ) (t : Text) : Bool :=
  match t with
  | [] => true
  | c :: rest =>
    if c = '}' && opened == 0 then true
    else if c = '{' then isMarkupFree none (opened + 1) rest
    else if c = '}' then isMarkupFree (some '}') (opened - 1) rest
    else if startsMarkup last (c :: rest) then false
    else
      match h : skipped? (c :: rest) with
      | some e =>
        have := length_drop_skipped h
        isMarkupFree (if isQuote c then some c else last) opened ((c :: rest).drop e.length)
      | none => isMarkupFree (if Text.isBlank c then last else some c) opened rest
termination_by t.length
decreasing_by
  all_goals first | assumption | simp

variable {last : Option Char}

theorem isMarkupFree_open (last : Option Char) (opened : ℕ) (t : Text) :
    isMarkupFree last opened ('{' :: t) = isMarkupFree none (opened + 1) t := by
  rw [isMarkupFree]
  rfl

theorem isMarkupFree_close (last : Option Char) (opened : ℕ) (t : Text) :
    isMarkupFree last (opened + 1) ('}' :: t) = isMarkupFree (some '}') opened t := by
  rw [isMarkupFree]
  rfl

/-- A body ends where nothing is left, or at the brace that closes it. -/
theorem isMarkupFree_stop (last : Option Char) (h : t = [] ∨ t.head? = some '}') : isMarkupFree last 0 t = true := by
  rcases h with rfl | h
  · rw [isMarkupFree]
  · obtain ⟨t, rfl⟩ := List.head?_eq_some_iff.1 h
    rw [isMarkupFree]
    rfl

theorem isMarkupFree_markup (opened : ℕ) (h : startsMarkup last t = true) : isMarkupFree last opened t = false := by
  cases t with
  | nil => simp [startsMarkup, Text.ahead, Text.nul] at h
  | cons c t =>
    have hc : c = '<' := by
      simp only [startsMarkup, Text.ahead, List.getD_cons_zero, Bool.and_eq_true, beq_iff_eq] at h
      exact h.1.1
    subst hc
    rw [isMarkupFree]
    simp [h]

/-- No element starts in a string or comment. -/
theorem isMarkupFree_skip (opened : ℕ) {d : Extent} (hopen : c ≠ '{') (hclose : c ≠ '}')
    (hmarkup : ¬ startsMarkup last (c :: t) = true) (h : skipped? (c :: t) = some d) :
    isMarkupFree last opened (c :: t) =
      isMarkupFree (if isQuote c then some c else last) opened ((c :: t).drop d.length) := by
  rw [isMarkupFree]
  simp only [hopen, hclose, hmarkup, decide_false, Bool.false_and, Bool.false_eq_true, if_false]
  split
  case h_1 d' hd' => rw [Option.some.inj (h.symm.trans hd')]
  case h_2 hnone => rw [h] at hnone; cases hnone

theorem isMarkupFree_plain (opened : ℕ) (hopen : c ≠ '{') (hclose : c ≠ '}')
    (hmarkup : ¬ startsMarkup last (c :: t) = true) (h : skipped? (c :: t) = none) :
    isMarkupFree last opened (c :: t) = isMarkupFree (if Text.isBlank c then last else some c) opened t := by
  rw [isMarkupFree]
  simp only [hopen, hclose, hmarkup, decide_false, Bool.false_and, Bool.false_eq_true, if_false]
  split
  case h_1 d' hd' => rw [h] at hd'; cases hd'
  case h_2 => rfl

/-- **A stretch of code has no element in it**, and the code behind it is looked at with its last character. -/
theorem isMarkupFree_value (opened : ℕ) (last : Option Char) (t : Text) : isMarkupFree last opened t =
    isMarkupFree (value last t).2 opened (t.drop (value last t).1.length) := by
  fun_induction value last t with
  | case1 last => rfl
  | case2 last c rest hstop => rfl
  | case3 last c rest hstop e hskip _ next ih =>
    simp only [Bool.or_eq_true, decide_eq_true_eq, not_or] at hstop
    rw [isMarkupFree_skip opened hstop.1.1 hstop.1.2 hstop.2 hskip]
    exact ih.trans (by rw [List.drop_drop]; rfl)
  | case4 last c rest hstop hskip next ih =>
    simp only [Bool.or_eq_true, decide_eq_true_eq, not_or] at hstop
    rw [isMarkupFree_plain opened hstop.1.1 hstop.1.2 hstop.2 hskip]
    refine ih.trans ?_
    simp only [Extent.after, Nat.add_comm 1, List.drop_succ_cons]
    rfl

/-- What is said of the text behind an inner body, said of all of the text. -/
theorem drop_enclosed {d : Extent} {opened' : ℕ} (hd : d.length ≤ t.length)
    (h : flatBody opened t = d.append (flatBody opened' (t.drop d.length))) :
    t.drop (enclosed opened t).length = (t.drop d.length).drop (enclosed opened' (t.drop d.length)).length := by
  rw [enclosed_append hd h, List.drop_drop]
  rfl

/-- **With one brace more open, no element can start in the inner body or behind its brace.** -/
theorem isMarkupFree_succ (last : Option Char) (opened : ℕ) (t : Text) : isMarkupFree last (opened + 1) t =
    (isMarkupFree last opened t && isMarkupFree (some '}') 0 (t.drop (enclosed opened t).length)) := by
  fun_induction isMarkupFree last opened t with
  | case1 last opened => simp [isMarkupFree]
  -- the brace that stops the inner text closes the outer one; what is behind it is asked next
  | case2 last opened c rest hstop =>
    obtain ⟨rfl, rfl⟩ : c = '}' ∧ opened = 0 := by simpa using hstop
    rw [isMarkupFree_close, enclosed_stop]
    rfl
  | case3 last opened rest hstop ih =>
    have hone := (flatBody_open opened rest).trans (Extent.after_eq_append _ _)
    rw [isMarkupFree_open, drop_enclosed (by simp) hone]
    exact ih
  | case4 last opened rest hstop _ ih =>
    obtain ⟨opened, rfl⟩ : ∃ n, opened = n + 1 := Nat.exists_eq_succ_of_ne_zero (by rintro rfl; simp at hstop)
    have hone := (flatBody_close opened rest).trans (Extent.after_eq_append _ _)
    rw [isMarkupFree_close, drop_enclosed (by simp) hone]
    exact ih
  | case5 last opened c rest hstop hopen hclose hmarkup => rw [isMarkupFree_markup _ hmarkup, Bool.false_and]
  | case6 last opened c rest hstop hopen hclose hmarkup e hskip _ ih =>
    rw [isMarkupFree_skip _ hopen hclose hmarkup hskip,
      drop_enclosed (length_skipped?_le hskip) (flatBody_skip hskip)]
    exact ih
  | case7 last opened c rest hstop hopen hclose hmarkup hskip ih =>
    have hone := (flatBody_plain opened hopen hclose hskip).trans (Extent.after_eq_append _ _)
    rw [isMarkupFree_plain _ hopen hclose hmarkup hskip, drop_enclosed (by simp) hone]
    exact ih

/-! ## What is cut off -/

/-- A string without an end goes on to the end of the text. -/
theorem length_of_unclosed_stringRest {quote : Char} (h : (stringRest quote t).unclosed ≠ []) :
    (stringRest quote t).length = t.length := by
  fun_induction stringRest quote t with
  | case1 => rfl
  | case2 => rfl
  | case3 d rest ih =>
    have := ih h
    simp only [Extent.after, List.length_cons]
    omega
  | case4 => simp at h
  | case5 d rest hb hq ih =>
    have := ih h
    simp only [Extent.after, List.length_cons]
    omega

theorem length_of_unclosed_blockCommentRest (h : (blockCommentRest t).unclosed ≠ []) :
    (blockCommentRest t).length = t.length := by
  fun_induction blockCommentRest t with
  | case1 => rfl
  | case2 => simp at h
  | case3 d rest hgo ih =>
    have := ih h
    simp only [Extent.after, List.length_cons]
    omega

/-- So does whatever is skipped and has no end. -/
theorem length_of_unclosed_skipped {d : Extent} (hskip : skipped? t = some d) (h : d.unclosed ≠ []) :
    d.length = t.length := by
  obtain ⟨q, u, hq, rfl⟩ | ⟨u, rfl⟩ | ⟨u, rfl⟩ := skipped?_cases hskip
  · rw [skipped?_string hq, Option.some.injEq] at hskip
    subst hskip
    have := length_of_unclosed_stringRest h
    simp only [Extent.after, List.length_cons]
    omega
  · rw [skipped?_lineComment, Option.some.injEq] at hskip
    subst hskip
    simp at h
  · rw [skipped?_blockComment, Option.some.injEq] at hskip
    subst hskip
    have := length_of_unclosed_blockCommentRest h
    simp only [Extent.after, List.length_cons]
    omega

/-- **Only the end of the text cuts a stretch of code off.** -/
theorem length_of_unclosed_value (h : (value last t).1.unclosed ≠ []) : (value last t).1.length = t.length := by
  fun_induction value last t with
  | case1 => rfl
  | case2 => simp at h
  | case3 last c rest hstop e hskip _ next ih =>
    have hle := length_skipped?_le hskip
    have hdrop : ((c :: rest).drop e.length).length = (c :: rest).length - e.length := List.length_drop
    simp only [Extent.append] at h ⊢
    by_cases he : e.unclosed = []
    · rw [he, List.nil_append] at h
      have hnext : next.1.length = _ := ih h
      omega
    · have hall := length_of_unclosed_skipped hskip he
      have hnil : (c :: rest).drop e.length = [] := List.drop_eq_nil_of_le (Nat.le_of_eq hall.symm)
      have hnext : next.1.length = 0 := by
        show (value _ ((c :: rest).drop e.length)).1.length = 0
        rw [hnil, value]
      omega
  | case4 last c rest hstop hskip next ih =>
    have hnext : next.1.length = rest.length := ih h
    simp only [Extent.after, List.length_cons]
    omega

/-- The same of a flat body. -/
theorem length_of_unclosed_flatBody (h : (flatBody opened t).unclosed ≠ []) :
    (flatBody opened t).length = t.length := by
  rcases flatBody_matches opened t with ⟨-, hnone⟩ | ⟨-, heq⟩
  · exact absurd hnone h
  · rw [heq]

end Stencil.Code
