import Stencil.Proofs.Scan

/-!
# Braces in pieces of code

The scans of embedded code pass over string literals and comments as a whole. `Code.braces` goes
over a piece of code by the same rules and gathers the braces outside of them; `Code.depth` counts
how many of them are open.

A scan that stops early has seen more of the text than the piece that it takes. What is skipped in
the text is skipped in the piece as well (`skipped?_take`), so that the braces of the piece are those
that the scan has met.

* `Code.braces_value`: **code up to the next brace or element has no braces.**
* `Code.depth_flatBody`: **a body that is read flat closes no brace that it did not open**, and leaves
  one open only at the end of the text.
-/

namespace Stencil.Code


/-! ## Scans of a part of the text -/

/-- Text behind a string does not matter to it. -/
theorem stringRest_take {quote : Char} {t : Text} {n : ℕ} (h : (stringRest quote t).length ≤ n) :
    stringRest quote (t.take n) = stringRest quote t := by
  fun_induction stringRest quote t generalizing n with
  | case1 => simp [stringRest]
  | case2 =>
    obtain ⟨n, rfl⟩ : ∃ m, n = m + 1 := ⟨n - 1, by simp only at h; omega⟩
    simp [stringRest]
  | case3 d rest ih =>
    simp only [Extent.after] at h
    obtain ⟨n, rfl⟩ : ∃ m, n = m + 2 := ⟨n - 2, by omega⟩
    simp [stringRest, ih (n := n) (by omega)]
  | case4 rest hb =>
    simp only at h
    obtain ⟨n, rfl⟩ : ∃ m, n = m + 1 := ⟨n - 1, by omega⟩
    rw [List.take_succ_cons, stringRest.eq_def]
    simp [hb]
  | case5 c rest hb hq ih =>
    simp only [Extent.after] at h
    obtain ⟨n, rfl⟩ : ∃ m, n = m + 1 := ⟨n - 1, by omega⟩
    rw [List.take_succ_cons, stringRest.eq_def]
    simp [hb, hq, ih (n := n) (by omega)]

theorem blockCommentRest_take {t : Text} {n : ℕ} (h : (blockCommentRest t).length ≤ n) :
    blockCommentRest (t.take n) = blockCommentRest t := by
  fun_induction blockCommentRest t generalizing n with
  | case1 => simp [blockCommentRest]
  | case2 c rest hstop =>
    simp only at h
    obtain ⟨n, rfl⟩ : ∃ m, n = m + 2 := ⟨n - 2, by omega⟩
    have hhead : (rest.take (n + 1)).head? = rest.head? := by simp [List.head?_take]
    rw [List.take_succ_cons, blockCommentRest, hhead, if_pos hstop]
  | case3 c rest hgo ih =>
    simp only [Extent.after] at h
    obtain ⟨n, rfl⟩ : ∃ m, n = m + 1 := ⟨n - 1, by omega⟩
    rw [List.take_succ_cons, blockCommentRest, ih (n := n) (by omega), if_neg]
    rw [List.head?_take]
    split
    · simp
    · exact hgo


theorem skipped?_string {q : Char} (h : isQuote q = true) (t : Text) :
    skipped? (q :: t) = some (.after 1 (stringRest q t)) := by
  rw [skipped?, if_pos h]

theorem skipped?_lineComment (t : Text) :
    skipped? ('/' :: '/' :: t) = some ⟨2 + (t.takeWhile (· != '\n')).length, []⟩ := by
  simp [skipped?, isQuote]
  omega

theorem skipped?_blockComment (t : Text) :
    skipped? ('/' :: '*' :: t) = some (.after 2 (blockCommentRest t)) := by
  simp [skipped?, isQuote]

/-- A text that starts with something to skip starts with a quote or one of the two comments. -/
theorem skipped?_cases {t : Text} {e : Extent} (h : skipped? t = some e) :
    (∃ q u, isQuote q = true ∧ t = q :: u) ∨ (∃ u, t = '/' :: '/' :: u) ∨ ∃ u, t = '/' :: '*' :: u := by
  cases t with
  | nil => simp [skipped?] at h
  | cons c rest =>
    rw [skipped?] at h
    split at h
    case isTrue hquote => exact .inl ⟨c, rest, hquote, rfl⟩
    split at h
    case isFalse => cases h
    case isTrue hslash =>
      subst hslash
      cases rest with
      | nil => simp at h
      | cons d rest =>
        simp only [List.head?_cons, Option.some_beq_some, beq_iff_eq] at h
        split at h
        case isTrue hd => exact .inr (.inl ⟨rest, by rw [hd]⟩)
        split at h
        case isTrue hd => exact .inr (.inr ⟨rest, by rw [hd]⟩)
        case isFalse => cases h

/-- What is skipped is skipped in every part of the text that holds it. -/
theorem skipped?_take {t : Text} {e : Extent} {n : ℕ} (h : skipped? t = some e) (hn : e.length ≤ n) :
    skipped? (t.take n) = some e := by
  obtain ⟨q, u, hq, rfl⟩ | ⟨u, rfl⟩ | ⟨u, rfl⟩ := skipped?_cases h
  · rw [skipped?_string hq, Option.some.injEq] at h
    subst h
    simp only [Extent.after] at hn
    obtain ⟨n, rfl⟩ : ∃ m, n = m + 1 := ⟨n - 1, by omega⟩
    rw [List.take_succ_cons, skipped?_string hq, stringRest_take (by omega)]
  · rw [skipped?_lineComment, Option.some.injEq] at h
    subst h
    simp only at hn
    obtain ⟨n, rfl⟩ : ∃ m, n = m + 2 := ⟨n - 2, by omega⟩
    rw [List.take_succ_cons, List.take_succ_cons, skipped?_lineComment, ← List.take_takeWhile,
      List.take_of_length_le (by omega)]
  · rw [skipped?_blockComment, Option.some.injEq] at h
    subst h
    simp only [Extent.after] at hn
    obtain ⟨n, rfl⟩ : ∃ m, n = m + 2 := ⟨n - 2, by omega⟩
    rw [List.take_succ_cons, List.take_succ_cons, skipped?_blockComment, blockCommentRest_take (by omega)]

/-- Where nothing is skipped, nothing is skipped in a part of the text. -/
theorem skipped?_take_eq_none {t : Text} (h : skipped? t = none) (n : ℕ) : skipped? (t.take n) = none := by
  refine Option.eq_none_iff_forall_ne_some.2 fun e he => ?_
  have hprefix := List.take_prefix n t
  obtain ⟨q, u, hq, hu⟩ | ⟨u, hu⟩ | ⟨u, hu⟩ := skipped?_cases he <;> rw [hu] at hprefix <;>
    obtain ⟨v, rfl⟩ := hprefix
  · rw [List.cons_append, skipped?_string hq] at h; cases h
  · rw [List.cons_append, List.cons_append, skipped?_lineComment] at h; cases h
  · rw [List.cons_append, List.cons_append, skipped?_blockComment] at h; cases h

/-! ## Braces -/

/-- The braces of a piece of code outside string literals and comments. -/
def braces (t : Text) : List Char :=
  match t with
  | [] => []
  | c :: rest =>
    match h : skipped? (c :: rest) with
    | some e =>
      have := length_drop_skipped h
      braces ((c :: rest).drop e.length)
    | none => if c = '{' || c = '}' then c :: braces rest else braces rest
termination_by t.length
decreasing_by
  · assumption
  all_goals simp

/-- The number of open braces after some more of them; `none` if a brace closes more than was
opened. -/
def depth (d : ℕ) : List Char → Option ℕ
  | [] => some d
  | c :: bs => if c = '{' then depth (d + 1) bs else if d = 0 then none else depth (d - 1) bs

/-- Depths are counted on from one text to the next. -/
theorem depth_append (d : ℕ) (as bs : List Char) : depth d (as ++ bs) = (depth d as).bind (depth · bs) := by
  induction as generalizing d with
  | nil => rfl
  | cons c as ih =>
    simp only [List.cons_append, depth, ih]
    split
    · rfl
    · split <;> rfl

/-- Braces around leave the same open. -/
theorem depth_add {d k : ℕ} {bs : List Char} (h : depth d bs = some k) (m : ℕ) :
    depth (d + m) bs = some (k + m) := by
  induction bs generalizing d with
  | nil => simpa [depth] using h
  | cons c bs ih =>
    simp only [depth] at h ⊢
    split
    case isTrue hc =>
      rw [if_pos hc] at h
      rw [Nat.add_right_comm]; exact ih h
    case isFalse hc =>
      rw [if_neg hc] at h
      split at h
      case isTrue => cases h
      case isFalse hd =>
        rw [if_neg (by omega), Nat.sub_add_comm (by omega)]; exact ih h

/-- What is skipped has no braces that count. -/
theorem braces_skip {t : Text} {e : Extent} (h : skipped? t = some e) (n : ℕ) :
    braces (t.take (e.length + n)) = braces ((t.drop e.length).take n) := by
  have hskip := skipped?_take h (Nat.le_add_right e.length n)
  have hdrop : (t.take (e.length + n)).drop e.length = (t.drop e.length).take n := by
    rw [List.drop_take, Nat.add_sub_cancel_left]
  cases hu : t.take (e.length + n) with
  | nil => rw [hu] at hskip; simp [skipped?] at hskip
  | cons c u =>
    rw [hu] at hskip hdrop
    rw [braces, ← hdrop]
    split
    case h_1 e' he' =>
      obtain rfl := Option.some.inj (hskip.symm.trans he')
      rfl
    case h_2 he' => rw [hskip] at he'; cases he'

theorem braces_take_cons {c : Char} {t : Text} (h : skipped? (c :: t) = none) (n : ℕ) :
    braces ((c :: t).take (1 + n)) = if c = '{' || c = '}' then c :: braces (t.take n) else braces (t.take n) := by
  have hskip := skipped?_take_eq_none h (1 + n)
  rw [Nat.add_comm, List.take_succ_cons] at hskip ⊢
  rw [braces]
  split
  case h_1 e' he' => rw [hskip] at he'; cases he'
  case h_2 => rfl

/-- **A stretch of code up to the next brace or element has no braces.** -/
theorem braces_value (last : Option Char) (t : Text) : braces (t.take (value last t).1.length) = [] := by
  fun_induction value last t with
  | case1 last => simp [braces]
  | case2 last c rest hstop => simp [braces]
  | case3 last c rest hstop e hskip _ next ih =>
    rw [Extent.append, braces_skip hskip]; exact ih
  | case4 last c rest hstop hskip next ih =>
    have hc : ¬ ((decide (c = '{') || decide (c = '}')) = true) := fun h => hstop (by rw [h]; rfl)
    rw [Extent.after, braces_take_cons hskip, if_neg hc]; exact ih

/-- **A body that is read flat closes no brace that it did not open**, and leaves none open unless it
runs to the end of the text. -/
theorem depth_flatBody (opened : ℕ) (t : Text) :
    ∃ k, depth opened (braces (t.take (flatBody opened t).length)) = some k ∧
      (k = 0 ∨ t.length ≤ (flatBody opened t).length) := by
  fun_induction flatBody opened t with
  | case1 opened => exact ⟨opened, by simp [braces, depth], .inr (by simp)⟩
  | case2 opened c rest hstop =>
    simp only [Bool.and_eq_true, beq_iff_eq] at hstop
    exact ⟨0, by simp [braces, depth, hstop.2], .inl rfl⟩
  -- strings and comments have no braces that count
  | case3 opened c rest hstop e hskip _ ih =>
    obtain ⟨k, hk, hend⟩ := ih
    refine ⟨k, by rw [Extent.append, braces_skip hskip]; exact hk, hend.imp_right fun h => ?_⟩
    rw [List.length_drop] at h
    simp only [Extent.append]; omega
  | case4 opened rest hstop hskip ih =>
    obtain ⟨k, hk, hend⟩ := ih
    refine ⟨k, ?_, hend.imp_right fun h => by simp only [Extent.after, List.length_cons]; omega⟩
    rw [Extent.after, braces_take_cons hskip]
    simpa [depth] using hk
  | case5 opened rest hstop hskip _ ih =>
    obtain ⟨k, hk, hend⟩ := ih
    refine ⟨k, ?_, hend.imp_right fun h => by simp only [Extent.after, List.length_cons]; omega⟩
    -- at depth zero the body would have stopped
    have hopened : opened ≠ 0 := by rintro rfl; simp at hstop
    rw [Extent.after, braces_take_cons hskip]
    simpa [depth, hopened] using hk
  | case6 opened c rest hstop hskip hopen hclose ih =>
    obtain ⟨k, hk, hend⟩ := ih
    refine ⟨k, ?_, hend.imp_right fun h => by simp only [Extent.after, List.length_cons]; omega⟩
    rw [Extent.after, braces_take_cons hskip]
    simpa [hopen, hclose] using hk

/-- Blanks have no braces. -/
theorem braces_allBlank {t : Text} (h : t.allBlank = true) : braces t = [] := by
  induction t with
  | nil => rw [braces]
  | cons c t ih =>
    obtain ⟨hc, ht⟩ : Text.isBlank c = true ∧ Text.allBlank t = true := by simpa [Text.allBlank] using h
    have hplain : ∀ x ∈ ['"', '\'', '`', '/', '{', '}'], c ≠ x := by
      intro x hx hcx
      have hnone : ['"', '\'', '`', '/', '{', '}'].all (fun x => !Text.isBlank x) = true := rfl
      have hx := List.all_eq_true.1 hnone x hx
      rw [← hcx, hc] at hx
      cases hx
    have hskip : skipped? (c :: t) = none := by
      refine Option.eq_none_iff_forall_ne_some.2 fun e he => ?_
      obtain ⟨q, u, hq, hu⟩ | ⟨u, hu⟩ | ⟨u, hu⟩ := skipped?_cases he
      · simp [isQuote, ← (List.cons.inj hu).1, hplain] at hq
      · exact hplain '/' (by simp) (List.cons.inj hu).1
      · exact hplain '/' (by simp) (List.cons.inj hu).1
    have hbraces := braces_take_cons hskip t.length
    rw [Nat.add_comm, List.take_of_length_le (by simp), List.take_of_length_le (by simp), ih ht] at hbraces
    rw [hbraces]
    simp [hplain]

end Stencil.Code
