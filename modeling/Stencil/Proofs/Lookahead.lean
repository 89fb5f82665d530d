import Mathlib.Data.List.Basic
import Stencil.Grammar.Element

/-!
# Looking ahead

What the questions asked at the cursor say about the text there. A text that reads as
`nul` past its end still starts only with what it really starts with, as long as that
holds no `nul`.

* `startsWith_iff`: starting with a text is having it as a prefix.
* `drop_runLength`: a run stops at the end of the text, or where it is told to.
* `sameLetters_of_endsRawText`: **what ends raw text is an end tag of its own name.**
-/

namespace Stencil

namespace Text

/-- Looking ahead sees what the text starts with. -/
theorem startsWith_iff {s : Text} (hs : nul ∉ s) (t : Text) : t.startsWith s = true ↔ s <+: t := by
  induction s generalizing t with
  | nil => simp [startsWith]
  | cons e es ih =>
    obtain ⟨he, hes⟩ : nul ≠ e ∧ nul ∉ es := by simpa using hs
    cases t with
    | nil => simp [startsWith, he]
    | cons x rest =>
      rw [startsWith, Bool.and_eq_true, beq_iff_eq, List.cons_prefix_cons, ← ih hes]
      exact and_congr_left' eq_comm

theorem take_of_startsWith {s t : Text} (hs : nul ∉ s) (h : t.startsWith s = true) : t.take s.length = s :=
  (List.prefix_iff_eq_take.1 ((startsWith_iff hs t).1 h)).symm

/-- A run stops at the end of the text, or where it is told to. -/
theorem drop_runLength (f : Text → Bool) (previous : Option Char) (t : Text) :
    t.drop (t.runLength (fun _ u => f u) previous) = [] ∨
      f (t.drop (t.runLength (fun _ u => f u) previous)) = true := by
  induction t generalizing previous with
  | nil => simp [runLength]
  | cons x rest ih =>
    rw [runLength]
    split
    · exact .inr (by simpa using ‹_›)
    · simpa using ih (some x)

/-- A name is as long as its characters go on. -/
theorem take_nameLength (t : Text) : t.take t.nameLength = t.takeWhile Html.isNameChar :=
  (List.prefix_iff_eq_take.1 (List.takeWhile_prefix _)).symm

theorem endTagName?_eq_some {t name : Text} (h : t.endTagName? = some name) :
    (t.drop 2).takeWhile Html.isNameChar = name := by
  unfold endTagName? at h
  split at h
  · exact Option.some.inj h
  · cases h

/-- End tags start with their bracket. -/
theorem endTagName?_eq_cons {t name : Text} (h : t.endTagName? = some name) : ∃ u, t = '<' :: '/' :: u := by
  unfold endTagName? at h
  split at h
  case isTrue hstart =>
    obtain ⟨u, hu⟩ := (startsWith_iff (by decide) t).1 hstart
    exact ⟨u, hu.symm⟩
  case isFalse => cases h

end Text

namespace Html

/-- Letters of either case are part of names, and every other character is its own
lower case. -/
theorem isNameChar_toLower (c : Char) : isNameChar c.toLower = isNameChar c := by
  by_cases h : c.val ≥ 'A'.val ∧ c.val ≤ 'Z'.val
  · have hletters : ∀ n < 91, 65 ≤ n → isNameChar (Char.ofNat n).toLower = isNameChar (Char.ofNat n) := by
      decide
    have hc := hletters c.toNat (Nat.lt_succ_of_le (UInt32.le_iff_toNat_le.1 h.2)) (UInt32.le_iff_toNat_le.1 h.1)
    rwa [Char.ofNat_toNat] at hc
  · have hsame : c.toLower = c := dif_neg h
    rw [hsame]

theorem isNameChar_nul : isNameChar Text.nul = false := by decide

end Html

namespace Parse

/-- A text that starts with a name, up to case, starts with one that is as long. -/
theorem takeWhile_of_startsWithLetters {name t : Text} (hname : ∀ c ∈ name, Html.isNameChar c = true)
    (h : t.startsWithLetters name = true) (hend : Html.isNameChar (t.ahead name.length) = false) :
    Text.sameLetters (t.takeWhile Html.isNameChar) name = true := by
  induction name generalizing t with
  | nil =>
    have hnone : t.takeWhile Html.isNameChar = [] := by
      cases t with
      | nil => rfl
      | cons x rest => exact List.takeWhile_cons_of_neg (by simpa [Text.ahead] using hend)
    rw [hnone]; rfl
  | cons e es ih =>
    obtain ⟨he, hes⟩ := List.forall_mem_cons.1 hname
    rw [Text.startsWithLetters, Bool.and_eq_true, beq_iff_eq] at h
    cases t with
    | nil =>
      -- a name holds no `nul`, not even in lower case
      have hnul : Html.isNameChar e = Html.isNameChar Text.nul := by
        rw [← Html.isNameChar_toLower e, ← h.1, Html.isNameChar_toLower]; rfl
      rw [he, Html.isNameChar_nul] at hnul
      cases hnul
    | cons x rest =>
      have hx : Html.isNameChar x = true := by
        have hlower : x.toLower = e.toLower := h.1
        rw [← Html.isNameChar_toLower, hlower, Html.isNameChar_toLower, he]
      have hrest := ih hes h.2 (by simpa [Text.ahead] using hend)
      rw [Text.sameLetters_iff] at hrest ⊢
      rw [List.takeWhile_cons_of_pos hx]
      exact congrArg₂ List.cons h.1 hrest

/-- **What ends raw text is an end tag of its own name.** -/
theorem sameLetters_of_endsRawText {name t : Text} (hname : ∀ c ∈ name, Html.isNameChar c = true)
    (h : endsRawText name t = true) : Text.sameLetters ((t.drop 2).takeWhile Html.isNameChar) name = true := by
  rw [endsRawText, Bool.and_eq_true, Bool.not_eq_true'] at h
  obtain ⟨hstart, hend⟩ := h
  have hdrop : Text.startsWithLetters (t.drop 2) name = true := by
    rw [Text.startsWithLetters, Text.startsWithLetters, Bool.and_eq_true, Bool.and_eq_true] at hstart
    have htail : t.tail.tail = t.drop 2 := by simp [← List.drop_one, List.drop_drop]
    rw [← htail]
    exact hstart.2.2
  refine takeWhile_of_startsWithLetters hname hdrop ?_
  rw [Text.ahead, List.getD_eq_getElem?_getD] at hend ⊢
  rwa [List.getElem?_drop, Nat.add_comm]

end Parse

end Stencil
