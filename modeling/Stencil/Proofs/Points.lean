import Mathlib.Order.Basic
import Stencil.Proofs.Pieces
import Stencil.Script.Emitter

/-!
# Points of a text, and stretches in UTF-16 units

A source map addresses text by points: a line, and a column in UTF-16 units. The
point that a text ends at is counted from the whole text (`Text.endPoint`), and the
text from a point on is found by a walk from the very beginning (`Text.from?`).

* `from?_endPoint`: **the text from the end of a prefix on is the rest.**
* `endPoint_mono`: points grow with the text before them.
* `Output.Tracked`: the line, the column and the length that an output keeps are
  those of the code written so far.
* `unitColumn_eq`: the column that an emitter works out for a position of its source
  is the true one.
* `slice_append`: **a cut at two ends of whole characters gives back what is between
  them.**
-/

namespace Stencil

/-- A point of a text: a line, and a column in UTF-16 units, both from zero. -/
structure Point where
  line : ℕ := 0
  col : ℕ := 0
deriving DecidableEq, Repr, Inhabited

namespace Point

/-- On an earlier line, or earlier on the same line. -/
instance : LT Point := ⟨fun p q => p.line < q.line ∨ p.line = q.line ∧ p.col < q.col⟩

instance : LE Point := ⟨fun p q => p.line < q.line ∨ p.line = q.line ∧ p.col ≤ q.col⟩

/-- Points are compared by their lines first. -/
theorem lt_iff {p q : Point} : p < q ↔ p.line < q.line ∨ p.line = q.line ∧ p.col < q.col := Iff.rfl

theorem le_iff {p q : Point} : p ≤ q ↔ p.line < q.line ∨ p.line = q.line ∧ p.col ≤ q.col := Iff.rfl

theorem le_refl (p : Point) : p ≤ p := .inr ⟨rfl, Nat.le_refl _⟩

theorem ne_of_lt {p q : Point} (h : p < q) : p ≠ q := by
  rintro rfl
  rw [lt_iff] at h; omega

theorem lt_of_lt_of_le {p q r : Point} (h : p < q) (h' : q ≤ r) : p < r := by
  rw [lt_iff] at h ⊢
  rw [le_iff] at h'; omega

theorem lt_of_le_of_lt {p q r : Point} (h : p ≤ q) (h' : q < r) : p < r := by
  rw [le_iff] at h
  rw [lt_iff] at h' ⊢; omega

theorem le_of_lt {p q : Point} (h : p < q) : p ≤ q := by
  rw [lt_iff] at h
  rw [le_iff]; omega

/-- The point after one more character. -/
def next (p : Point) (c : Char) : Point :=
  if c = '\n' then ⟨p.line + 1, 0⟩ else ⟨p.line, p.col + Text.width c⟩

end Point

/-! ## The point at the end of a text -/

namespace Text

/-- Every character takes up room. -/
theorem width_pos (c : Char) : 0 < width c := by
  unfold width; split <;> omega

/-- So does every text that is not empty. -/
theorem units_pos {t : Text} (h : t ≠ []) : 0 < units t := by
  cases t with
  | nil => exact absurd rfl h
  | cons c rest =>
    have := width_pos c
    rw [units]; omega

@[simp]
theorem units_nil : units [] = 0 := rfl

theorem units_reverse (t : Text) : units t.reverse = units t := by
  induction t with
  | nil => rfl
  | cons c rest ih =>
    rw [List.reverse_cons, units_append, ih]
    simp only [units]; omega

/-- The point that a text ends at: its line feeds, and the units after the last of them. -/
def endPoint (t : Text) : Point where
  line := t.count '\n'
  col := units (t.reverse.takeWhile (· != '\n'))

/-- A text ends where its last character leads. -/
theorem endPoint_concat (t : Text) (c : Char) : endPoint (t ++ [c]) = (endPoint t).next c := by
  unfold endPoint Point.next
  by_cases hc : c = '\n'
  · subst hc; simp
  · simp [hc, List.count_append, units, Nat.add_comm]

/-- Stepping over a text character by character leads to its end. -/
theorem foldl_next (t u : Text) : u.foldl Point.next (endPoint t) = endPoint (t ++ u) := by
  induction u generalizing t with
  | nil => simp
  | cons c rest ih =>
    rw [List.foldl_cons, ← endPoint_concat, ih]
    simp

/-- Every character leads further. -/
theorem lt_next (p : Point) (c : Char) : p < p.next c := by
  have := width_pos c
  rw [Point.lt_iff, Point.next]
  split
  · exact .inl (Nat.lt_succ_self _)
  · exact .inr ⟨rfl, Nat.lt_add_of_pos_right this⟩

/-- What follows does not lead back. -/
theorem endPoint_le_append (t u : Text) : endPoint t ≤ endPoint (t ++ u) := by
  induction u using List.reverseRecOn with
  | nil => rw [List.append_nil]; exact Point.le_refl _
  | append_singleton u c ih =>
    rw [← List.append_assoc, endPoint_concat]
    exact Point.le_of_lt (Point.lt_of_le_of_lt ih (lt_next _ c))

/-- What follows leads further unless it is empty. -/
theorem endPoint_lt_append (t : Text) {u : Text} (h : u ≠ []) : endPoint t < endPoint (t ++ u) := by
  obtain ⟨c, rest, rfl⟩ := List.exists_cons_of_ne_nil h
  have hstep := lt_next (endPoint t) c
  rw [← endPoint_concat] at hstep
  have hrest := endPoint_le_append (t ++ [c]) rest
  rw [List.append_assoc, List.singleton_append] at hrest
  exact Point.lt_of_lt_of_le hstep hrest

/-- **Points grow with the text before them.** -/
theorem endPoint_mono (t : Text) {m n : ℕ} (h : m ≤ n) : endPoint (t.take m) ≤ endPoint (t.take n) := by
  obtain ⟨k, rfl⟩ := Nat.exists_eq_add_of_le h
  rw [List.take_add]
  exact endPoint_le_append _ _

/-- The text from the point `p` on, where the walk has come to the point `here`. -/
def seek (p here : Point) : Text → Option Text
  | [] => if here = p then some [] else none
  | c :: rest => if here = p then some (c :: rest) else seek p (here.next c) rest

/-- The text from a point on, if the point lies between two characters or at an end. -/
def from? (t : Text) (p : Point) : Option Text :=
  seek p {} t

theorem seek_self (p : Point) (t : Text) : seek p p t = some t := by
  cases t <;> simp [seek]

/-- A point of the text is found where it stands. -/
theorem seek_append (t u v : Text) : seek (endPoint (t ++ u)) (endPoint t) (u ++ v) = some v := by
  induction u generalizing t with
  | nil => rw [List.append_nil]; exact seek_self _ v
  | cons c rest ih =>
    have hne : endPoint t ≠ endPoint (t ++ c :: rest) := Point.ne_of_lt (endPoint_lt_append t (by simp))
    have hrest := ih (t ++ [c])
    rw [List.append_assoc, List.singleton_append, endPoint_concat] at hrest
    rw [List.cons_append, seek, if_neg hne]
    exact hrest

/-- **The text from the end of a prefix on is the rest of the text.** -/
theorem from?_endPoint (t u : Text) : (t ++ u).from? t.endPoint = some u :=
  seek_append [] t u

end Text

/-! ## Outputs -/

namespace Output

/-- The point that the output has reached. -/
def point (o : Output) : Point :=
  ⟨o.line, o.col⟩

/-- The point and the length that are kept are those of the code. -/
structure Tracked (o : Output) : Prop where
  point : o.point = o.code.endPoint
  length : o.length = o.code.units

theorem tracked_empty : ({} : Output).Tracked := ⟨rfl, rfl⟩

/-- What is written adds no mapping by itself. -/
@[simp]
theorem mappings_push (o : Output) (t : Text) : (o.push t).mappings = o.mappings := by
  induction t generalizing o with
  | nil => rfl
  | cons c rest ih =>
    show ((o.put c).push rest).mappings = o.mappings
    rw [ih, put]; split <;> rfl

/-- Nor does it add a range. -/
@[simp]
theorem ranges_push (o : Output) (t : Text) : (o.push t).ranges = o.ranges := by
  induction t generalizing o with
  | nil => rfl
  | cons c rest ih =>
    show ((o.put c).push rest).ranges = o.ranges
    rw [ih, put]; split <;> rfl

/-- The output stands where its text has led. -/
theorem point_push (o : Output) (t : Text) : (o.push t).point = t.foldl Point.next o.point := by
  induction t generalizing o with
  | nil => rfl
  | cons c rest ih =>
    have hput : (o.put c).point = o.point.next c := by
      unfold put Point.next Output.point
      split <;> rfl
    show ((o.put c).push rest).point = rest.foldl Point.next (o.point.next c)
    rw [ih, hput]

@[simp]
theorem code_mapHere (o : Output) (line col : ℕ) : (o.mapHere line col).code = o.code := rfl

@[simp]
theorem ranges_mapHere (o : Output) (line col : ℕ) : (o.mapHere line col).ranges = o.ranges := rfl

theorem Tracked.mapHere {o : Output} (h : o.Tracked) (line col : ℕ) : (o.mapHere line col).Tracked :=
  ⟨h.point, h.length⟩

/-- **Writing keeps track of where the code ends.** -/
theorem Tracked.push {o : Output} (h : o.Tracked) (t : Text) : (o.push t).Tracked := by
  refine ⟨?_, ?_⟩
  · rw [point_push, h.point, Text.foldl_next, code_push]
  · rw [length_push, h.length, code_push, Text.units_append]

end Output

/-! ## Positions of the source -/

namespace Emitter

/-- The column of a true position, counted from the start of its line, is that of
the point there. -/
theorem unitColumn_eq {e : Emitter} {n : ℕ} (h : n ≤ e.source.length) :
    e.unitColumn (e.source.positionAt n) = (Text.endPoint (e.source.take n)).col := by
  -- the part of the line before the position
  set line := ((e.source.take n).reverse.takeWhile (· != '\n')).reverse with hline
  have hsplit : e.source.take n = (e.source.take n).take (n - line.length) ++ line := by
    have hsuffix : line <:+ e.source.take n := by
      rw [hline, ← List.reverse_prefix, List.reverse_reverse]
      exact List.takeWhile_prefix _
    obtain ⟨head, hhead⟩ := hsuffix
    have hlen : head.length = n - line.length := by
      have := congrArg List.length hhead
      rw [List.length_append, List.length_take, Nat.min_eq_left h] at this
      omega
    rw [← hlen, ← hhead, List.take_left' rfl]
  have hcol : (e.source.positionAt n).col = line.length := by
    rw [hline, List.length_reverse]; rfl
  have hle : line.length ≤ n := by
    have := congrArg List.length hsplit
    rw [List.length_append, List.length_take, Nat.min_eq_left h] at this
    omega
  have hpart : (e.source.drop (n - line.length)).take line.length = line := by
    have htake := congrArg (List.drop (n - line.length)) hsplit
    rw [List.drop_take, List.take_take, Nat.min_eq_left (by omega),
      List.drop_left' (by rw [List.length_take]; omega)] at htake
    rwa [show n - (n - line.length) = line.length by omega] at htake
  show Text.unitOffset (e.source.drop (n - (e.source.positionAt n).col))
    (min (e.source.positionAt n).col n) = _
  rw [Text.unitOffset_eq, hcol, Nat.min_eq_left hle, hpart, hline, Text.units_reverse]
  rfl

end Emitter

/-! ## Stretches in UTF-16 units -/

namespace Text

/-- What lies before the cut is skipped. -/
theorem cut_skip (t u : Text) {start stop : ℕ} (here : ℕ) (hstart : here + units t ≤ start)
    (hstop : start ≤ stop) : cut start stop here (t ++ u) = cut start stop (here + units t) u := by
  induction t generalizing here with
  | nil => simp
  | cons c rest ih =>
    have hc := width_pos c
    simp only [units] at hstart
    have hbefore : ¬ stop ≤ here := by omega
    have hnone : min stop (here + width c) - max start here = 0 := by omega
    rw [List.cons_append, cut]
    simp only [if_neg hbefore, hnone, if_true]
    rw [ih (here + width c) (by omega), units, Nat.add_assoc]

/-- What lies in the cut is taken as a whole. -/
theorem cut_take (t u : Text) {start here : ℕ} (hstart : start ≤ here) :
    cut start (here + units t) here (t ++ u) = t := by
  induction t generalizing here with
  | nil =>
    cases u with
    | nil => rfl
    | cons c rest => simp [cut]
  | cons c rest ih =>
    have hc := width_pos c
    have hbefore : ¬ here + units (c :: rest) ≤ here := by
      simp only [units]; omega
    have hall : min (here + units (c :: rest)) (here + width c) - max start here = width c := by
      simp only [units]; omega
    rw [List.cons_append, cut]
    simp only [if_neg hbefore, hall, if_neg (show ¬ width c = 0 by omega), if_true]
    rw [units, ← Nat.add_assoc, ih (by omega)]

/-- **A cut at two ends of whole characters gives back what is between them.** -/
theorem slice_append (a b c : Text) : (a ++ b ++ c).slice (units a) (units (a ++ b)) = b := by
  have hskip : cut (units a) (units (a ++ b)) 0 (a ++ (b ++ c)) =
      cut (units a) (units (a ++ b)) (0 + units a) (b ++ c) :=
    cut_skip a (b ++ c) 0 (by omega) (by rw [units_append]; omega)
  rw [slice, List.append_assoc, hskip, Nat.zero_add, units_append]
  exact cut_take b c (Nat.le_refl _)

end Text

end Stencil
