import Mathlib.Data.Nat.Notation
import Stencil.Code.Extent

/-!
# Scans of embedded code, turn by turn

Each scan of `Stencil.Code` repeats one turn: it looks at the start of the text,
takes some of it and goes on or stops. `Turn.Drives turn f` says that `f` is the
scan that repeats `turn`, and that **every turn after which the scan goes on takes
at least one character that is there**. No scan takes more than there is.
-/

namespace Stencil.Code

variable {σ : Type}

/-! ## Scans stay inside the text -/

/-- A string ends with the text at the latest. -/
theorem length_stringRest_le (quote : Char) (t : Text) : (stringRest quote t).length ≤ t.length := by
  fun_induction stringRest quote t with
  | case1 => simp
  | case2 => simp
  | case3 c rest ih => simp only [Extent.after, List.length_cons] at ih ⊢; omega
  | case4 => simp
  | case5 c rest hb hq ih => simp only [Extent.after, List.length_cons]; omega

/-- A comment ends with the text at the latest. -/
theorem length_blockCommentRest_le (t : Text) : (blockCommentRest t).length ≤ t.length := by
  fun_induction blockCommentRest t with
  | case1 => simp
  | case2 c rest h =>
    simp only [Bool.and_eq_true, beq_iff_eq] at h
    obtain ⟨d, rest, rfl⟩ := List.exists_cons_of_ne_nil (l := rest) (by rintro rfl; simp at h)
    simp
  | case3 c rest h ih => simp only [Extent.after, List.length_cons]; omega

/-- Neither strings nor comments reach beyond the text. -/
theorem length_skipped?_le {t : Text} {e : Extent} (h : skipped? t = some e) : e.length ≤ t.length := by
  cases t with
  | nil => simp [skipped?] at h
  | cons c rest =>
    simp only [skipped?] at h
    split at h
    · have := length_stringRest_le c rest
      simp only [Option.some.injEq] at h; subst h
      simp only [Extent.after, List.length_cons]; omega
    · split at h
      · split at h
        · have := (List.takeWhile_sublist (p := (· != '\n')) (l := rest)).length_le
          simp only [Option.some.injEq] at h; subst h
          simp only [List.length_cons]; omega
        · split at h
          · rename_i hstar
            have := length_blockCommentRest_le rest.tail
            obtain ⟨d, rest, rfl⟩ := List.exists_cons_of_ne_nil (l := rest) (by rintro rfl; simp at hstar)
            simp only [Option.some.injEq] at h; subst h
            simp only [Extent.after, List.length_cons, List.tail_cons] at this ⊢; omega
          · cases h
      · cases h

/-- A group ends with the text at the latest. -/
theorem length_groupRest_le (opening closing : Char) (inner : ℕ) (t : Text) :
    (groupRest opening closing inner t).length ≤ t.length := by
  fun_induction groupRest opening closing inner t with
  | case1 => simp
  | case2 inner c rest hq e ih =>
    have hs : e.length ≤ rest.length := length_stringRest_le c rest
    simp only [List.length_drop] at ih
    simp only [Extent.append, Extent.after, List.length_cons]; omega
  | case3 inner rest hq ih => simp only [Extent.after, List.length_cons]; omega
  | case4 rest => simp
  | case5 inner rest h1 h2 h3 ih => simp only [Extent.after, List.length_cons]; omega
  | case6 inner c rest h1 h2 h3 ih => simp only [Extent.after, List.length_cons]; omega

/-! ## Turns -/

/-- One turn of a scan: what it takes of the text, and the state in which the
scan goes on, if it does. -/
abbrev Turn (σ : Type) := σ → Text → Extent × Option σ

/-- The scan `f` repeats the turn, and every turn after which it goes on takes at
least one character of the text. -/
structure Turn.Drives (turn : Turn σ) (f : σ → Text → Extent) : Prop where
  repeats : ∀ s t, f s t = match turn s t with
    | (e, none) => e
    | (e, some s') => e.append (f s' (t.drop e.length))
  takes : ∀ s t e s', turn s t = (e, some s') → 0 < e.length ∧ e.length ≤ t.length

/-- A turn inside a string literal. -/
def stringTurn (quote : Char) : Turn Unit
  | _, [] => (⟨0, [.string]⟩, none)
  | _, c :: rest =>
    if c = '\\' then (⟨1 + (rest.take 1).length, []⟩, some ())
    else if c = quote then (⟨1, []⟩, none)
    else (⟨1, []⟩, some ())

/-- A turn inside a block comment. -/
def blockCommentTurn : Turn Unit
  | _, [] => (⟨0, [.blockComment]⟩, none)
  | _, c :: rest =>
    if c = '*' && rest.head? == some '/' then (⟨2, []⟩, none) else (⟨1, []⟩, some ())

/-- A turn of a body past the nesting limit. -/
def flatBodyTurn : Turn ℕ
  | _, [] => (⟨0, []⟩, none)
  | opened, c :: rest =>
    if c = '}' && opened == 0 then (⟨0, []⟩, none)
    else
      match skipped? (c :: rest) with
      | some e => (e, some opened)
      | none =>
        if c = '{' then (⟨1, []⟩, some (opened + 1))
        else if c = '}' then (⟨1, []⟩, some (opened - 1))
        else (⟨1, []⟩, some opened)

/-- A turn of a stretch of code up to a brace or an element. -/
def valueTurn : Turn (Option Char)
  | _, [] => (⟨0, []⟩, none)
  | last, c :: rest =>
    if c = '{' || c = '}' || startsMarkup last (c :: rest) then (⟨0, []⟩, none)
    else
      match skipped? (c :: rest) with
      | some e => (e, some (if isQuote c then some c else last))
      | none => (⟨1, []⟩, some (if Text.isBlank c then last else some c))

/-- A turn inside a bracketed group. -/
def groupTurn (opening closing : Char) : Turn ℕ
  | _, [] => (⟨0, [.group opening]⟩, none)
  | inner, c :: rest =>
    if isQuote c then (.after 1 (stringRest c rest), some inner)
    else if c = opening then (⟨1, []⟩, some (inner + 1))
    else if c = closing then if inner = 0 then (⟨1, []⟩, none) else (⟨1, []⟩, some (inner - 1))
    else (⟨1, []⟩, some inner)

/-- A turn of what continues an expression. -/
def chainTurn : Turn Unit
  | _, [] => (⟨0, []⟩, none)
  | _, c :: rest =>
    if c = '.' && isIdentifierStart (Text.ahead rest 0) then
      (⟨1 + (rest.takeWhile isIdentifierChar).length, []⟩, some ())
    else
      match closing? c with
      | some close => (.after 1 (groupRest c close 0 rest), some ())
      | none => (⟨0, []⟩, none)

/-- A string takes one character, or two if the first one escapes the other. -/
theorem stringTurn_drives (quote : Char) : (stringTurn quote).Drives fun _ => stringRest quote where
  repeats := by
    rintro ⟨⟩ (_ | ⟨c, rest⟩)
    · rfl
    · simp only [stringTurn]
      by_cases hb : c = '\\'
      · -- an escape takes the next character too, if there is one
        subst hb
        cases rest with
        | nil => simp [stringRest, Extent.append]
        | cons d rest => simp [stringRest, Extent.append, Extent.after]
      · rw [stringRest.eq_def]
        dsimp only
        by_cases hq : c = quote
        · rw [if_neg hb, if_neg hb, if_pos hq, if_pos hq]
        · rw [if_neg hb, if_neg hb, if_neg hq, if_neg hq]; rfl
  takes := by
    rintro ⟨⟩ (_ | ⟨c, rest⟩) e ⟨⟩ h
    · simp [stringTurn] at h
    · simp only [stringTurn] at h
      split at h
      · simp only [Prod.mk.injEq] at h
        rw [← h.1]; simp only [List.length_take, List.length_cons]; omega
      · split at h
        · simp at h
        · simp only [Prod.mk.injEq] at h
          rw [← h.1]; simp

theorem blockCommentTurn_drives : blockCommentTurn.Drives fun _ => blockCommentRest where
  repeats := by
    rintro ⟨⟩ (_ | ⟨c, rest⟩)
    · rfl
    · simp only [blockCommentTurn, blockCommentRest]
      split <;> rfl
  takes := by
    rintro ⟨⟩ (_ | ⟨c, rest⟩) e ⟨⟩ h
    · simp [blockCommentTurn] at h
    · simp only [blockCommentTurn] at h
      split at h
      · simp at h
      · simp only [Prod.mk.injEq] at h
        rw [← h.1]; simp

/-- A flat body takes one character, or a string or comment as a whole. -/
theorem flatBodyTurn_drives : flatBodyTurn.Drives flatBody where
  repeats := by
    rintro opened (_ | ⟨c, rest⟩)
    · rw [flatBody]; rfl
    · rw [flatBody, flatBodyTurn]
      split
      · rfl
      · -- the scan keeps the equation for what is skipped, so `cases` does not apply
        split <;> rename_i hskip
        · simp only [hskip]
        · simp only [hskip]
          split
          · rfl
          · split <;> rfl
  takes := by
    rintro opened (_ | ⟨c, rest⟩) e s' h
    · simp [flatBodyTurn] at h
    · simp only [flatBodyTurn] at h
      split at h
      · simp at h
      · split at h
        · rename_i hskip
          simp only [Prod.mk.injEq] at h
          rw [← h.1]; exact ⟨skipped?_pos hskip, length_skipped?_le hskip⟩
        · have hone : e.length = 1 := by
            repeat' split at h
            all_goals simp only [Prod.mk.injEq] at h; rw [← h.1]
          simp [hone]

/-- A piece of code takes the same, and stops before a brace or an element. -/
theorem valueTurn_drives : valueTurn.Drives fun last t => (value last t).1 where
  repeats := by
    rintro last (_ | ⟨c, rest⟩)
    · rw [value]; rfl
    · rw [value, valueTurn]
      split
      · rfl
      · split <;> rename_i hskip
        · simp only [hskip]
        · simp only [hskip]; rfl
  takes := by
    rintro last (_ | ⟨c, rest⟩) e s' h
    · simp [valueTurn] at h
    · simp only [valueTurn] at h
      split at h
      · simp at h
      · split at h
        · rename_i hskip
          simp only [Prod.mk.injEq] at h
          rw [← h.1]; exact ⟨skipped?_pos hskip, length_skipped?_le hskip⟩
        · simp only [Prod.mk.injEq] at h
          rw [← h.1]; simp

theorem groupTurn_drives (opening closing : Char) :
    (groupTurn opening closing).Drives (groupRest opening closing) where
  repeats := by
    rintro inner (_ | ⟨c, rest⟩)
    · rw [groupRest]; rfl
    · rw [groupRest, groupTurn]
      split
      · simp [Extent.after, Nat.add_comm 1]
      · split
        · rfl
        · split
          · split <;> rfl
          · rfl
  takes := by
    rintro inner (_ | ⟨c, rest⟩) e s' h
    · simp [groupTurn] at h
    · simp only [groupTurn] at h
      split at h
      · have := length_stringRest_le c rest
        simp only [Prod.mk.injEq] at h
        rw [← h.1]; simp only [Extent.after, List.length_cons]; omega
      · have hone : e.length = 1 := by
          repeat' split at h
          all_goals simp only [Prod.mk.injEq, reduceCtorEq, and_false] at h
          all_goals rw [← h.1]
        simp [hone]

/-- A chain takes a member or a group as a whole. -/
theorem chainTurn_drives : chainTurn.Drives fun _ => chain where
  repeats := by
    rintro ⟨⟩ (_ | ⟨c, rest⟩)
    · rw [chain]; rfl
    · rw [chain, chainTurn]
      split
      · simp [Extent.after, Extent.append, Nat.add_comm 1]
      · cases closing? c with
        | some close => simp [Extent.after, Nat.add_comm 1]
        | none => rfl
  takes := by
    rintro ⟨⟩ (_ | ⟨c, rest⟩) e ⟨⟩ h
    · simp [chainTurn] at h
    · simp only [chainTurn] at h
      split at h
      · have := (List.takeWhile_sublist (p := isIdentifierChar) (l := rest)).length_le
        simp only [Prod.mk.injEq] at h
        rw [← h.1]; simp only [List.length_cons]; omega
      · split at h
        · rename_i close hclose
          have := length_groupRest_le c close 0 rest
          simp only [Prod.mk.injEq] at h
          rw [← h.1]; simp only [Extent.after, List.length_cons]; omega
        · simp at h

/-- Code that does not start with a brace or an element has at least one character. -/
theorem value_pos {last : Option Char} {c : Char} {rest : Text} (ho : c ≠ '{') (hc : c ≠ '}')
    (hm : startsMarkup last (c :: rest) = false) : 0 < (value last (c :: rest)).1.length := by
  rw [value]
  simp only [ho, hc, hm, decide_false, Bool.or_self, Bool.false_eq_true, if_false]
  split
  · rename_i e hskip
    have := skipped?_pos hskip
    simp only [Extent.append]; omega
  · simp only [Extent.after]; omega

end Stencil.Code
