import Stencil.Proofs.Lookahead

/-!
# Runs of text

A run of text goes on up to a place where it is told to stop, and blanks are cut off both of its ends.

* `stop_of_lt_runLength`, `runLength_stops`: a run does not stop before its end, and there it has to.
* `upTo_runLength`: **a run is what stands before the first place of a kind.**
* `trimmed_trimRight`: a text that starts with no blank is trimmed by cutting off its end.
-/

namespace Stencil.Text

/-! ## Where a run stops -/

/-- A run does not stop before its end. -/
theorem stop_of_lt_runLength {stop : Option Char → Text → Bool} {t : Text} (before : Text) {i : ℕ}
    (h : i < t.runLength stop before.head?) : stop ((t.take i).reverse ++ before).head? (t.drop i) = false := by
  induction t generalizing before i with
  | nil => simp [Text.runLength] at h
  | cons x rest ih =>
    rw [Text.runLength] at h
    split at h
    · omega
    · rename_i hstop
      cases i with
      | zero => simpa using hstop
      | succ i =>
        have := ih (x :: before) (i := i) (by simpa using h)
        simpa using this

/-- A run that stops at blanks holds none. -/
theorem isBlank_of_mem_run {stop : Option Char → Text → Bool}
    (hstop : ∀ p u, isBlank (ahead u 0) = true → stop p u = true) {t : Text} {p : Option Char} {x : Char}
    (hx : x ∈ t.take (t.runLength stop p)) : isBlank x = false := by
  induction t generalizing p with
  | nil => simp at hx
  | cons y rest ih =>
    rw [runLength] at hx
    split at hx
    case isTrue => simp at hx
    case isFalse hgo =>
      rw [List.take_succ_cons, List.mem_cons] at hx
      rcases hx with rfl | hx
      · by_contra hblank
        exact hgo (hstop p _ (by simpa [ahead] using hblank))
      · exact ih hx

/-- A run ends with the text, or where it has to stop. -/
theorem runLength_stops (stop : Option Char → Text → Bool) (t before : Text) :
    t.drop (t.runLength stop before.head?) = [] ∨
      stop ((t.take (t.runLength stop before.head?)).reverse ++ before).head?
        (t.drop (t.runLength stop before.head?)) = true := by
  induction t generalizing before with
  | nil => simp [runLength]
  | cons x rest ih =>
    rw [runLength]
    split
    case isTrue hstop => exact .inr (by simpa using hstop)
    case isFalse => simpa using ih (x :: before)

/-- A run is not empty where it does not stop at once. -/
theorem runLength_pos {stop : Option Char → Text → Bool} {previous : Option Char} {t : Text}
    (ht : t ≠ []) (h : stop previous t = false) : 0 < t.runLength stop previous := by
  cases t with
  | nil => exact absurd rfl ht
  | cons x rest => rw [runLength, if_neg (by simp [h])]; omega

theorem blanksAhead_pos {t : Text} (ht : t ≠ []) (h : isBlank (t.ahead 0) = true) : 0 < t.blanksAhead := by
  cases t with
  | nil => exact absurd rfl ht
  | cons x rest =>
    have hx : isBlank x = true := by simpa [ahead] using h
    simp [blanksAhead, hx]

/-! ## The first place of a kind -/

/-- `x` is what stands before the first place of `x ++ y` at which `p` holds, and all of it if there
is no such place. -/
structure UpTo (p : Text → Prop) (x y : Text) : Prop where
  first : ∀ i < x.length, ¬ p ((x ++ y).drop i)
  stop : y = [] ∨ p y

/-- The first place is there exactly if something is left. -/
theorem UpTo.exists_iff {p : Text → Prop} {x y : Text} (h : UpTo p x y) (hp : ¬ p []) :
    (∃ i, p ((x ++ y).drop i)) ↔ y ≠ [] := by
  constructor
  · rintro ⟨i, hi⟩ rfl
    by_cases hlt : i < x.length
    · exact h.first i hlt hi
    · rw [List.append_nil, List.drop_eq_nil_of_le (by omega)] at hi
      exact hp hi
  · intro hy
    exact ⟨x.length, by rw [List.drop_left]; exact h.stop.resolve_left hy⟩

theorem UpTo.congr {p q : Text → Prop} {x y : Text} (h : UpTo p x y) (hpq : ∀ t, p t ↔ q t) : UpTo q x y :=
  ⟨fun i hi hq => h.first i hi ((hpq _).2 hq), h.stop.imp_right (hpq y).1⟩

/-- A run stands before the first place where it is told to stop. -/
theorem upTo_runLength (f : Text → Bool) (t before : Text) :
    UpTo (fun u => f u = true) (t.take (t.runLength (fun _ u => f u) before.head?))
      (t.drop (t.runLength (fun _ u => f u) before.head?)) where
  first i hi := by
    rw [List.take_append_drop]
    have hlt : i < t.runLength (fun _ u => f u) before.head? := by
      rw [List.length_take] at hi
      omega
    simpa using stop_of_lt_runLength before hlt
  stop := drop_runLength f _ t

/-! ## Trimmed text -/

/-- Some blanks, and nothing else. -/
def Blanks (t : Text) : Prop :=
  t ≠ [] ∧ t.allBlank = true

/-- The text starts and ends with characters that are not blank. -/
structure Trimmed (t : Text) : Prop where
  first : ∃ x, t.head? = some x ∧ isBlank x = false
  last : ∃ x, t.getLast? = some x ∧ isBlank x = false

/-- A trimmed text has a first character. -/
theorem Trimmed.ne_nil {t : Text} (h : t.Trimmed) : t ≠ [] := by
  rintro rfl
  obtain ⟨x, hx, -⟩ := h.first
  cases hx

theorem trimRight_ne_nil {x : Char} {u : Text} (hx : isBlank x = false) : trimRight (x :: u) ≠ [] := by
  intro hnil
  have hsplit := trimRight_append_blanks (x :: u)
  rw [hnil, List.nil_append] at hsplit
  have hmem : x ∈ ((x :: u).reverse.takeWhile isBlank).reverse := by rw [hsplit]; exact List.mem_cons_self
  have hblank := List.all_eq_true.1 List.all_takeWhile x (List.mem_reverse.1 hmem)
  rw [hx] at hblank
  cases hblank

/-- A text that starts with no blank is trimmed by cutting off its end. -/
theorem trimmed_trimRight {x : Char} {u : Text} (hx : isBlank x = false) : (trimRight (x :: u)).Trimmed := by
  have hne := trimRight_ne_nil (u := u) hx
  constructor
  · obtain ⟨y, v, hv⟩ := List.exists_cons_of_ne_nil hne
    have hsplit := trimRight_append_blanks (x :: u)
    rw [hv, List.cons_append] at hsplit
    obtain ⟨rfl, -⟩ := List.cons.inj hsplit
    exact ⟨y, by rw [hv]; rfl, hx⟩
  · unfold trimRight at hne ⊢
    obtain ⟨y, v, hv⟩ := List.exists_cons_of_ne_nil (List.reverse_ne_nil_iff.1 hne)
    have hhead := List.head?_dropWhile_not isBlank (x :: u).reverse
    rw [hv] at hhead
    exact ⟨y, by rw [List.getLast?_reverse, hv]; rfl, hhead⟩

theorem trimRight_isPrefix (t : Text) : t.trimRight <+: t :=
  ⟨_, trimRight_append_blanks t⟩

theorem take_trimRight (t : Text) : t.take t.trimRight.length = t.trimRight :=
  (List.prefix_iff_eq_take.1 t.trimRight_isPrefix).symm

/-- Trimming takes off the end only. -/
theorem trimRight_append_drop (t : Text) : t.trimRight ++ t.drop t.trimRight.length = t := by
  have hsplit := List.take_append_drop t.trimRight.length t
  rwa [take_trimRight] at hsplit

theorem trimmed_singleton {x : Char} (hx : isBlank x = false) : Trimmed [x] :=
  ⟨⟨x, rfl, hx⟩, ⟨x, rfl, hx⟩⟩

/-- The blanks ahead are blank. -/
theorem blanks_take_blanksAhead {t : Text} (h : t.blanksAhead ≠ 0) : Blanks (t.take t.blanksAhead) := by
  have htake : t.take t.blanksAhead = t.takeWhile isBlank :=
    (List.prefix_iff_eq_take.1 (List.takeWhile_prefix isBlank)).symm
  rw [htake]
  exact ⟨fun hnil => h (by rw [blanksAhead, hnil]; rfl), List.all_takeWhile⟩

/-- No blank stands after the blanks at the start of a text. -/
theorem isBlank_drop_blanksAhead {t u : Text} {x : Char} (h : t.drop t.blanksAhead = x :: u) :
    isBlank x = false := by
  have hhead := List.head?_dropWhile_not isBlank t
  have hdrop : t.drop t.blanksAhead = t.dropWhile isBlank :=
    calc t.drop t.blanksAhead = (t.takeWhile isBlank ++ t.dropWhile isBlank).drop t.blanksAhead := by
          rw [List.takeWhile_append_dropWhile]
      _ = t.dropWhile isBlank := List.drop_left
  rw [← hdrop, h] at hhead
  exact hhead

theorem isBlank_of_isNameChar {x : Char} (h : Html.isNameChar x = true) : isBlank x = false := by
  simp only [Html.isNameChar, Bool.not_eq_true', Bool.or_eq_false_iff] at h
  exact h.1.1.1.1.1.1.1

/-- Behind the trimmed text only blanks are left. -/
theorem allBlank_drop_trimRight (t : Text) : allBlank (t.drop t.trimRight.length) = true := by
  have hdrop : t.drop t.trimRight.length = (t.reverse.takeWhile isBlank).reverse := by
    have hall := t.trimRight_append_blanks
    calc t.drop t.trimRight.length
        = (t.trimRight ++ (t.reverse.takeWhile isBlank).reverse).drop t.trimRight.length := by rw [hall]
      _ = (t.reverse.takeWhile isBlank).reverse := List.drop_left
  rw [hdrop, allBlank, List.all_reverse]
  exact List.all_takeWhile

/-- A text has a character wherever it does not read as `nul`. -/
theorem drop_ne_nil_of_ahead {t : Text} {n : ℕ} (h : t.ahead n ≠ nul) : t.drop n ≠ [] := by
  intro hnil
  rw [List.drop_eq_nil_iff] at hnil
  exact h (by rw [ahead, List.getD_eq_getElem?_getD, List.getElem?_eq_none hnil]; rfl)

end Stencil.Text
