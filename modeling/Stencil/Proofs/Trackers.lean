import Mathlib.Logic.Function.Iterate
import Stencil.Proofs.LineSpans
import Stencil.Proofs.Tiling

/-!
# Positions tracked in three ways

The line, the column and the byte of a place are counted three times: by the cursor, one character
after the other; by a location that is split, from its start up to the cut; and for the spans of a
location, line by line. All three agree.

* `Context.iterate_advance`: moving the cursor on character by character is reading them at once.
* `Context.between_append`: the cursor gives the location of the text between two offsets.
* `Context.splitAt_between`: **splitting a location gives what the cursor gives for its two parts.**
* `trackers_agree`: this together with the true positions and the spans, for all texts and offsets.
-/

namespace Stencil

/-! ## The cursor, character by character -/

namespace Context

/-- Moves the cursor over the next character. -/
def advance (c : Context) : Context :=
  c.consume 1

/-- The location that the cursor gives for the text between two offsets: it moves to the first one, sets
the mark there and moves on to the second. -/
def between (options : ParseOptions) (t : Text) (i j : ℕ) : Location :=
  (advance^[j - i] (advance^[i] (ofText options t)).reset).location

theorem consume_zero (c : Context) : c.consume 0 = c := rfl

theorem consume_consume (c : Context) (m n : ℕ) : (c.consume m).consume n = c.consume (m + n) := by
  simp only [consume, List.take_add, List.drop_drop, List.reverse_append, List.append_assoc,
    List.length_append, Position.after_append, Nat.add_assoc]

/-- Moving on character by character is reading them at once. -/
theorem iterate_advance (c : Context) (n : ℕ) : advance^[n] c = c.consume n := by
  induction n with
  | zero => exact c.consume_zero.symm
  | succ n ih => rw [Function.iterate_succ_apply', ih, advance, consume_consume]

variable (options : ParseOptions) (u v w : Text)

/-- **The cursor gives the location of the text between two offsets.** -/
theorem between_append :
    between options (u ++ v ++ w) u.length (u.length + v.length) = .ofText (({} : Position).after u) v := by
  have hread := read_location ((ofText options (u ++ v ++ w)).consume u.length) v.length
  have hrest : ((ofText options (u ++ v ++ w)).consume u.length).rest.take v.length = v := by
    simp [consume, ofText]
  have hpos : ((ofText options (u ++ v ++ w)).consume u.length).pos = ({} : Position).after u := by
    simp [consume, ofText]
  rw [hrest, hpos] at hread
  unfold between
  rw [iterate_advance, iterate_advance, Nat.add_sub_cancel_left]
  exact hread

/-- **Splitting a location gives what the cursor gives for its two parts.** -/
theorem splitAt_between (n : ℕ) :
    (between options (u ++ v ++ w) u.length (u.length + v.length)).splitAt n =
      (between options (u ++ v ++ w) u.length (u.length + min n v.length),
        between options (u ++ v ++ w) (u.length + min n v.length) (u.length + v.length)) := by
  have hv : v.take n ++ v.drop n = v := List.take_append_drop n v
  -- both parts are stretches of the same text, cut at other places
  have hhead := between_append options u (v.take n) (v.drop n ++ w)
  have htail := between_append options (u ++ v.take n) (v.drop n) w
  have hstop : (u ++ v.take n).length + (v.drop n).length = u.length + v.length := by
    rw [List.length_append, Nat.add_assoc, ← List.length_append, hv]
  rw [List.append_assoc u, ← List.append_assoc (v.take n), hv, ← List.append_assoc, List.length_take] at hhead
  rw [hstop, List.append_assoc u, hv, List.length_append, List.length_take, Position.after_append] at htail
  rw [between_append, Parse.splitAt_ofText, hhead, htail]

end Context

/-- Two offsets cut a text in three. -/
theorem Text.exists_cut {t : Text} {i j : ℕ} (hij : i ≤ j) (hj : j ≤ t.length) :
    ∃ u v w, t = u ++ v ++ w ∧ i = u.length ∧ j = u.length + v.length := by
  have hi : (t.take i).length = i := List.length_take_of_le (hij.trans hj)
  have hmiddle : ((t.take j).drop i).length = j - i := by
    rw [List.length_drop, List.length_take_of_le hj]
  refine ⟨t.take i, (t.take j).drop i, t.drop j, ?_, hi.symm, by omega⟩
  have hfront : t.take i ++ (t.take j).drop i = t.take j := by
    have h := List.take_append_drop i (t.take j)
    rwa [List.take_take, Nat.min_eq_left hij] at h
  rw [hfront, List.take_append_drop]

/-! ## The three trackers -/

/-- **The three trackers agree.** The location that the cursor gives for the text between two offsets has
true ends, its spans lead line by line from the one to the other, and its two parts, wherever it is split,
are what the cursor gives for them. The spans of a location are a function of its start and its text, so
that the parts have the spans of those of the cursor as well. -/
theorem trackers_agree (options : ParseOptions) (t : Text) {i j : ℕ} (hij : i ≤ j) (hj : j ≤ t.length) :
    ((Context.between options t i j).start = t.positionAt i ∧
        (Context.between options t i j).stop = t.positionAt j ∧
        (Context.between options t i j).text = (t.take j).drop i) ∧
      (Context.between options t i j).LineByLine ∧
      ∀ n, (Context.between options t i j).splitAt n =
        (Context.between options t i (i + min n (j - i)), Context.between options t (i + min n (j - i)) j) := by
  obtain ⟨u, v, w, rfl, rfl, rfl⟩ := Text.exists_cut hij hj
  refine ⟨?_, ?_, fun n => ?_⟩
  · rw [Context.between_append]
    refine ⟨?_, ?_, ?_⟩
    · rw [List.append_assoc, ← Text.after_eq_positionAt]
      rfl
    · rw [← List.length_append, ← Text.after_eq_positionAt, Position.after_append]
      rfl
    · rw [← List.length_append, List.take_left, List.drop_left]
      rfl
  · rw [Context.between_append]
    exact Location.lineByLine_ofText _ v
  · rw [Nat.add_sub_cancel_left]
    exact Context.splitAt_between options u v w n

/-- From a line feed to the beginning of the last line, with a character of four bytes in between. -/
theorem trackers_agree_lineFeeds :
    (1 ≤ 5 ∧ 5 ≤ "é\nb😀\nc".toList.length) ∧
      ((Context.between {} "é\nb😀\nc".toList 1 5).start = Text.positionAt "é\nb😀\nc".toList 1 ∧
        (Context.between {} "é\nb😀\nc".toList 1 5).stop = Text.positionAt "é\nb😀\nc".toList 5 ∧
        (Context.between {} "é\nb😀\nc".toList 1 5).text = ("é\nb😀\nc".toList.take 5).drop 1) ∧
      (Context.between {} "é\nb😀\nc".toList 1 5).LineByLine ∧
      ∀ n, (Context.between {} "é\nb😀\nc".toList 1 5).splitAt n =
        (Context.between {} "é\nb😀\nc".toList 1 (1 + min n (5 - 1)),
          Context.between {} "é\nb😀\nc".toList (1 + min n (5 - 1)) 5) :=
  ⟨by decide, trackers_agree {} _ (by decide) (by decide)⟩

/-- The second part of a location that is split after its first line feed. -/
example : ((Context.between {} "é\nb😀\nc".toList 1 5).splitAt 1).2.lines =
    [⟨1, 0, 2, 3, 8⟩, ⟨2, 0, 0, 9, 9⟩] := by decide

end Stencil
